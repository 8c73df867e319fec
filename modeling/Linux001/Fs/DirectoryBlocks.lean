import Linux001.Fs.ZoneTree
import Linux001.Fs.Truncation

/-!
# The blocks of a directory that grows

The model of `_bmap` of `fs/inode.c` for one directory whose transfers all succeed. The buffers are
left out: a block is what `bread` returns for it. `new_block` is seen through the zones that it is
going to find: it returns the next one, cleared, or 0 if there is no next one.

## Main definitions

* `Dir`: the directory, the blocks of its device, and the zones that `new_block` will find.
* `bmap`, `createBlock`: `_bmap`.
* `Dir.Sound`: the zones are a tree, and those to be found are not in it.
* `Grown`: what `create_block` leaves.

## Main results

* `bmap_eq`: `bmap` looks a block up in the tree.
* `createBlock_eq`: `create_block` returns a block, and keeps all the others.
-/

namespace Linux001.Fs.Directory

/-- The fields `i_size` and `i_zone` of a directory, the blocks of its device, and the zones that
`new_block` is going to find. -/
structure Dir where
  size : ℕ
  zone : ℕ → ℕ
  data : ℕ → Block
  free : List ℕ

/-- Kernel code on the directory. -/
abbrev D := StateT Dir (Except Fault)

/-- `new_block(dev)`. -/
def newBlock : D ℕ := fun d =>
  match d.free with
  | [] => .ok (0, d)
  | z :: free => .ok (z, { d with data := Function.update d.data z zeroBlock, free := free })

/-- `if (create && !inode->i_zone[k]) inode->i_zone[k] = new_block(..)`. -/
def bmapZone (k : ℕ) (create : Bool) : D Unit := do
  let d ← get
  if create ∧ d.zone k = 0 then do
    let z ← newBlock
    modify fun d => { d with zone := Function.update d.zone k z }
  else pure ()

/-- The `k`-th zone number of the table in block `t`, which is filled in when it is 0 and `create`
is set. -/
def bmapTable (t k : ℕ) (create : Bool) : D ℕ := do
  let d ← get
  if create ∧ word (d.data t) k = 0 then do
    let z ← newBlock
    if z ≠ 0 then
      modify fun d => { d with data := Function.update d.data t (setWord (d.data t) k z) }
    else pure ()
    pure z
  else pure (word (d.data t) k)

/-- `_bmap(inode, block, create)`. -/
def bmapAux (block : ℕ) (create : Bool) : D ℕ :=
  if 7 + 512 + 512 * 512 ≤ block then throw (.panic "_bmap: block>big")
  else if block < 7 then do
    bmapZone block create
    let d ← get
    pure (d.zone block)
  else if block - 7 < 512 then do
    bmapZone 7 create
    let d ← get
    if d.zone 7 = 0 then pure 0 else bmapTable (d.zone 7) (block - 7) create
  else do
    bmapZone 8 create
    let d ← get
    if d.zone 8 = 0 then pure 0
    else do
      let i ← bmapTable (d.zone 8) ((block - 7 - 512) / 512) create
      if i = 0 then pure 0 else bmapTable i ((block - 7 - 512) % 512) create

/-- `bmap(inode, block)`. -/
def bmap (block : ℕ) : D ℕ := bmapAux block false

/-- `create_block(inode, block)`. -/
def createBlock (block : ℕ) : D ℕ := bmapAux block true

namespace Dir

variable (d : Dir)

/-- The zone at a place of the tree. -/
def place (p : Path) : ℕ := zoneAt d.data d.zone p

/-- The zone of a block of the directory, or 0. -/
def leaf (k : ℕ) : ℕ := d.place (leafPath k)

/-- No zone is at two places, and the zones that `new_block` is going to find are at none. -/
structure Sound : Prop where
  distinct : Distinct d.data d.zone
  zone_lt : ∀ k < 9, d.zone k < 65536
  nodup : d.free.Nodup
  free_ne : ∀ z ∈ d.free, z ≠ 0 ∧ z < 65536
  fresh : ∀ z ∈ d.free, ∀ p, d.place p ≠ z

end Dir

/-- Zones may have been added to the tree; the blocks of the directory are what they were. -/
structure Grown (d d' : Dir) : Prop where
  sound : d'.Sound
  size : d'.size = d.size
  place : ∀ p, d.place p ≠ 0 → d'.place p = d.place p
  data : ∀ k, d.leaf k ≠ 0 → d'.data (d.leaf k) = d.data (d.leaf k)
  free : d.free = [] → d'.free = []

variable {d d' d'' : Dir} {z k : ℕ} {free : List ℕ} {T : Table} {p : Path}

namespace Grown

theorem refl (h : d.Sound) : Grown d d := ⟨h, rfl, fun _ _ => rfl, fun _ _ => rfl, id⟩

theorem leaf (h : Grown d d') (hk : d.leaf k ≠ 0) : d'.leaf k = d.leaf k := h.place _ hk

theorem leaf_ne (h : Grown d d') (hk : d.leaf k ≠ 0) : d'.leaf k ≠ 0 := by
  rw [h.leaf hk]
  exact hk

theorem trans (h : Grown d d') (h' : Grown d' d'') : Grown d d'' where
  sound := h'.sound
  size := h'.size.trans h.size
  place p hp := by
    have hfirst := h.place p hp
    exact (h'.place p (hfirst ▸ hp)).trans hfirst
  data k hk := by
    have hfirst := h.leaf hk
    have hlast := h'.data k (hfirst ▸ hk)
    rw [hfirst] at hlast
    exact hlast.trans (h.data k hk)
  free := h'.free ∘ h.free

end Grown

/-- A zone number is stored at a vacant place. -/
theorem Dir.Sound.attach (h : d.Sound) (hfree : d.free = z :: free) (hfree' : d'.free = free)
    (hvacant : d.place p = 0) (hplace : ∀ q, d'.place q = if q = p then z else d.place q)
    (hsize : d'.size = d.size) (hlt : ∀ k < 9, d'.zone k < 65536)
    (hdata : ∀ k, d.leaf k ≠ 0 → d'.data (d.leaf k) = d.data (d.leaf k)) : Grown d d' := by
  have hnodup := h.nodup
  have hmem : z ∈ d.free := hfree ▸ List.mem_cons_self
  have hsub : ∀ w ∈ free, w ∈ d.free := fun w hw => hfree ▸ List.mem_cons_of_mem z hw
  rw [hfree, List.nodup_cons] at hnodup
  refine ⟨⟨fun q r heq hne => ?_, hlt, hfree' ▸ hnodup.2, fun w hw => ?_, fun w hw q => ?_⟩, hsize,
    fun q hq => ?_, hdata, fun hnil => ?_⟩
  · change d'.place q = d'.place r at heq
    change d'.place q ≠ 0 at hne
    rw [hplace] at hne
    rw [hplace, hplace] at heq
    split_ifs at heq hne with hq hr hr
    · rw [hq, hr]
    · exact absurd heq.symm (h.fresh z hmem r)
    · exact absurd heq (h.fresh z hmem q)
    · exact h.distinct q r heq hne
  · exact h.free_ne w (hsub w (hfree' ▸ hw))
  · rw [hfree'] at hw
    rw [hplace]
    split_ifs
    · rintro rfl
      exact hnodup.1 hw
    · exact h.fresh w (hsub w hw) q
  · rw [hplace, if_neg]
    rintro rfl
    exact hq hvacant
  · rw [hfree] at hnil
    cases hnil

theorem Dir.Sound.data_fresh (h : d.Sound) (hfree : d.free = z :: free) (b : Block) (p : Path) :
    Function.update d.data z b (d.place p) = d.data (d.place p) :=
  Function.update_of_ne (h.fresh z (hfree ▸ List.mem_cons_self) p) ..

/-- A directory with one block. -/
theorem Dir.sound_of_first (hother : ∀ k, k ≠ 0 → d.zone k = 0) (hlt : d.zone 0 < 65536)
    (hnodup : d.free.Nodup) (hne : ∀ z ∈ d.free, z ≠ 0 ∧ z < 65536) (hfirst : d.zone 0 ∉ d.free) :
    d.Sound := by
  have honly : ∀ p, d.place p ≠ 0 → p = .zone 0 := fun _ hp => eq_zone_zero hother hp
  refine ⟨fun p q heq hp => ?_, fun k _ => ?_, hnodup, hne, fun z hz p hp => ?_⟩
  · have hq : zoneAt d.data d.zone q ≠ 0 := heq ▸ hp
    exact (honly p hp).trans (honly q hq).symm
  · by_cases hk : k = 0
    · rw [hk]
      exact hlt
    · rw [hother k hk]
      omega
  · have hpath := honly p (hp ▸ (hne z hz).1)
    rw [hpath] at hp
    change d.zone 0 = z at hp
    exact hfirst (hp ▸ hz)

theorem run_bind {α β : Type} {m : D α} {f : α → D β} {a : α} (h : m d = .ok (a, d')) :
    (m >>= f) d = f a d' := by
  change (m d >>= _) = _
  rw [h]
  rfl

/-! ### `new_block` -/

theorem newBlock_nil (h : d.free = []) : newBlock d = .ok (0, d) := by
  rw [newBlock, h]

theorem newBlock_cons (h : d.free = z :: free) :
    newBlock d = .ok (z, { d with data := Function.update d.data z zeroBlock, free := free }) := by
  rw [newBlock, h]

/-! ### Zone numbers of the inode -/

theorem bmapZone_of_not {create : Bool} (h : ¬(create = true ∧ d.zone k = 0)) :
    bmapZone k create d = .ok ((), d) := by
  change (ite (create = true ∧ d.zone k = 0) (_ : D Unit) (pure ()) : D Unit) d = _
  rw [if_neg h]
  rfl

theorem bmapZone_of_zero (h : d.zone k = 0) : bmapZone k true d =
    (newBlock >>= fun z => modify fun d : Dir => Dir.mk d.size (Function.update d.zone k z) d.data
      d.free) d := by
  change (ite (true = true ∧ d.zone k = 0) (_ : D Unit) (pure ()) : D Unit) d = _
  rw [if_pos ⟨rfl, h⟩]

/-- A zone number of the inode is filled in if it is 0. -/
theorem bmapZone_create (h : d.Sound) (hk : k < 9) :
    ∃ d', bmapZone k true d = .ok ((), d') ∧ Grown d d' ∧ (d'.zone k = 0 → d'.free = []) := by
  by_cases h0 : d.zone k = 0
  · rw [bmapZone_of_zero h0]
    cases hfree : d.free with
    | nil =>
      rw [run_bind (newBlock_nil hfree)]
      refine ⟨{ d with zone := Function.update d.zone k 0 }, rfl, ?_⟩
      rw [← h0, Function.update_eq_self]
      exact ⟨.refl h, fun _ => hfree⟩
    | cons z free =>
      have hz := h.free_ne z (hfree ▸ List.mem_cons_self)
      rw [run_bind (newBlock_cons hfree)]
      refine ⟨⟨d.size, Function.update d.zone k z, Function.update d.data z zeroBlock, free⟩, rfl,
        h.attach (p := .zone ⟨k, hk⟩) hfree rfl h0 ?_ rfl (fun j hj => ?_)
          fun j _ => h.data_fresh hfree _ _, fun hzero => ?_⟩
      · exact zoneAt_set_zone (k := ⟨k, hk⟩) h0 (Function.update_self ..) fun T _ =>
          h.data_fresh hfree _ T.path
      · change Function.update d.zone k z j < 65536
        rw [Function.update_apply]
        split_ifs
        · exact hz.2
        · exact h.zone_lt j hj
      · exact absurd ((Function.update_self ..).symm.trans hzero) hz.1
  · exact ⟨d, bmapZone_of_not fun hc => h0 hc.2, .refl h, fun hzero => absurd hzero h0⟩

/-! ### Entries of tables -/

theorem bmapTable_of_not {create : Bool} {t : ℕ} (h : ¬(create = true ∧ word (d.data t) k = 0)) :
    bmapTable t k create d = .ok (word (d.data t) k, d) := by
  change (ite (create = true ∧ word (d.data t) k = 0) (_ : D ℕ) (pure _) : D ℕ) d = _
  rw [if_neg h]
  rfl

/-- The data after a new block `z` has been stored in a table. -/
def storeEntry (data : ℕ → Block) (t k z : ℕ) : ℕ → Block :=
  Function.update data t (setWord (data t) k z)

theorem bmapTable_of_zero {t : ℕ} (h : word (d.data t) k = 0) : bmapTable t k true d =
    (newBlock >>= fun z => do
      if z ≠ 0 then modify fun d : Dir => Dir.mk d.size d.zone (storeEntry d.data t k z) d.free
      else pure ()
      pure z) d := by
  change (ite (true = true ∧ word (d.data t) k = 0) (_ : D ℕ) (pure _) : D ℕ) d = _
  rw [if_pos ⟨rfl, h⟩]
  rfl

/-- An entry of a table is filled in if it is 0. -/
theorem bmapTable_create (h : d.Sound) (ht : d.place T.path ≠ 0) (hk : k < 512) :
    ∃ d', bmapTable (d.place T.path) k true d = .ok (d'.place (T.entry ⟨k, hk⟩), d') ∧
      Grown d d' ∧ (d'.place (T.entry ⟨k, hk⟩) = 0 → d'.free = []) := by
  have hword : word (d.data (d.place T.path)) k = d.place (T.entry ⟨k, hk⟩) := word_table ht hk
  by_cases h0 : word (d.data (d.place T.path)) k = 0
  · rw [bmapTable_of_zero h0]
    cases hfree : d.free with
    | nil =>
      rw [run_bind (newBlock_nil hfree)]
      refine ⟨d, ?_, .refl h, fun _ => hfree⟩
      rw [← hword, h0]
      rfl
    | cons z free =>
      have hz := h.free_ne z (hfree ▸ List.mem_cons_self)
      have hne : ∀ q, d.place q ≠ z := h.fresh z (hfree ▸ List.mem_cons_self)
      rw [run_bind (newBlock_cons hfree)]
      set data₁ := Function.update d.data z zeroBlock with hdata₁
      have hother : ∀ w, w ≠ d.place T.path → w ≠ z →
          storeEntry data₁ (d.place T.path) k z w = d.data w := fun w hw hwz => by
        rw [storeEntry, Function.update_of_ne hw, hdata₁, Function.update_of_ne hwz]
      have htable : storeEntry data₁ (d.place T.path) k z (d.place T.path) =
          setWord (d.data (d.place T.path)) k z := by
        rw [storeEntry, Function.update_self, hdata₁, Function.update_of_ne (hne _)]
      have hplace : ∀ q, Dir.place ⟨d.size, d.zone, storeEntry data₁ (d.place T.path) k z, free⟩ q =
          if q = T.entry ⟨k, hk⟩ then z else d.place q := by
        refine zoneAt_set_entry ht (hword.symm.trans h0) ?_ hz.2 htable fun T' hT' hne' => ?_
        · change Function.update data₁ (d.place T.path) _ z = zeroBlock
          rw [Function.update_of_ne (hne _).symm, hdata₁, Function.update_self]
        · refine hother _ (fun heq => hT' ?_) (hne _)
          exact Table.path_inj (h.distinct _ _ heq hne')
      refine ⟨⟨d.size, d.zone, storeEntry data₁ (d.place T.path) k z, free⟩, ?_,
        h.attach hfree rfl (hword.symm.trans h0) hplace rfl h.zone_lt (fun m hm => ?_),
        fun hzero => ?_⟩
      · rw [hplace, if_pos rfl]
        rw [if_pos hz.1]
        rfl
      · exact hother _ (fun heq => leafPath_ne_path m T (h.distinct _ _ heq hm)) (hne _)
      · rw [hplace, if_pos rfl] at hzero
        exact absurd hzero hz.1
  · refine ⟨d, ?_, .refl h, fun hzero => absurd (hword.trans hzero) h0⟩
    rw [bmapTable_of_not fun hc => h0 hc.2, hword]

/-! ### `_bmap` -/

/-- An entry of a table that is missing. -/
theorem place_entry_of_zero (h : d.place T.path = 0) (i : Fin 512) : d.place (T.entry i) = 0 :=
  zoneAt_entry_of_zero h i

/-- `bmap` looks up the zone of a block. -/
theorem bmap_eq (hk : k < maxBlocks) (d : Dir) : bmap k d = .ok (d.leaf k, d) := by
  have hbig : ¬7 + 512 + 512 * 512 ≤ k := Nat.not_le.mpr hk
  rw [bmap, bmapAux, if_neg hbig, Dir.leaf]
  split_ifs with h7 h512
  · rw [run_bind (bmapZone_of_not (by simp)), leafPath_direct h7]
    rfl
  · rw [run_bind (bmapZone_of_not (by simp)), leafPath_ind h7 h512]
    change (ite (d.zone 7 = 0) (pure 0 : D ℕ) (_ : D ℕ) : D ℕ) d = _
    split_ifs with h0
    · rw [place_entry_of_zero (T := .ind) h0]
      rfl
    · rw [bmapTable_of_not (by simp)]
      exact congrArg (fun z => Except.ok (z, d)) (word_table (T := .ind) h0 h512)
  · have hlt : (k - 7 - 512) / 512 < 512 := row_lt hk
    rw [run_bind (bmapZone_of_not (by simp)), leafPath_dind h7 h512 hlt]
    change (ite (d.zone 8 = 0) (pure 0 : D ℕ) (_ : D ℕ) : D ℕ) d = _
    split_ifs with h0
    · have hentry := place_entry_of_zero (d := d) (T := .dind) h0 ⟨_, hlt⟩
      rw [place_entry_of_zero (T := .two _) hentry]
      rfl
    · rw [run_bind (bmapTable_of_not (by simp))]
      have hword : word (d.data (d.zone 8)) ((k - 7 - 512) / 512) = d.place (.dind ⟨_, hlt⟩) :=
        word_table (T := .dind) h0 hlt
      rw [hword]
      split_ifs with hentry
      · rw [place_entry_of_zero (T := .two _) hentry]
        rfl
      · rw [bmapTable_of_not (by simp)]
        exact congrArg (fun z => Except.ok (z, d))
          (word_table (T := .two ⟨_, hlt⟩) hentry (Nat.mod_lt _ (by omega)))

/-- `create_block` returns the zone that the block has afterwards, which is 0 only if no zone is
left for it or for a table. -/
theorem createBlock_eq (h : d.Sound) (hk : k < maxBlocks) :
    ∃ d', createBlock k d = .ok (d'.leaf k, d') ∧ Grown d d' ∧ (d'.leaf k = 0 → d'.free = []) := by
  have hbig : ¬7 + 512 + 512 * 512 ≤ k := Nat.not_le.mpr hk
  rw [createBlock, bmapAux, if_neg hbig]
  split_ifs with h7 h512
  · obtain ⟨d₁, hrun, hgrown, hfull⟩ := bmapZone_create h (k := k) (by omega)
    rw [run_bind hrun]
    refine ⟨d₁, ?_, hgrown, ?_⟩
    · rw [Dir.leaf, leafPath_direct h7]
      rfl
    · rw [Dir.leaf, leafPath_direct h7]
      exact hfull
  · obtain ⟨d₁, hrun, hgrown, hfull⟩ := bmapZone_create h (k := 7) (by omega)
    rw [run_bind hrun]
    change ∃ d', (ite (d₁.zone 7 = 0) (pure 0 : D ℕ) (_ : D ℕ) : D ℕ) d₁ = _ ∧ _
    split_ifs with h0
    · refine ⟨d₁, ?_, hgrown, fun _ => hfull h0⟩
      rw [Dir.leaf, leafPath_ind h7 h512, place_entry_of_zero (T := .ind) h0]
      rfl
    · obtain ⟨d₂, hrun', hgrown', hfull'⟩ := bmapTable_create hgrown.sound (T := .ind) h0 h512
      refine ⟨d₂, ?_, hgrown.trans hgrown', ?_⟩
      · rw [Dir.leaf, leafPath_ind h7 h512]
        exact hrun'
      · rw [Dir.leaf, leafPath_ind h7 h512]
        exact hfull'
  · have hlt : (k - 7 - 512) / 512 < 512 := row_lt hk
    obtain ⟨d₁, hrun, hgrown, hfull⟩ := bmapZone_create h (k := 8) (by omega)
    rw [run_bind hrun]
    change ∃ d', (ite (d₁.zone 8 = 0) (pure 0 : D ℕ) (_ : D ℕ) : D ℕ) d₁ = _ ∧ _
    split_ifs with h0
    · refine ⟨d₁, ?_, hgrown, fun _ => hfull h0⟩
      have hentry := place_entry_of_zero (d := d₁) (T := .dind) h0 ⟨_, hlt⟩
      rw [Dir.leaf, leafPath_dind h7 h512 hlt, place_entry_of_zero (T := .two _) hentry]
      rfl
    · obtain ⟨d₂, hrun', hgrown', hfull'⟩ := bmapTable_create hgrown.sound (T := .dind) h0 hlt
      have htwo := hgrown.trans hgrown'
      change bmapTable (d₁.zone 8) _ true d₁ = _ at hrun'
      rw [run_bind hrun']
      change ∃ d', (ite (d₂.place (.dind ⟨_, hlt⟩) = 0) (pure 0 : D ℕ) (_ : D ℕ) : D ℕ) d₂ = _ ∧ _
      split_ifs with hentry
      · refine ⟨d₂, ?_, htwo, fun _ => hfull' hentry⟩
        rw [Dir.leaf, leafPath_dind h7 h512 hlt, place_entry_of_zero (T := .two _) hentry]
        rfl
      · obtain ⟨d₃, hrun'', hgrown'', hfull''⟩ := bmapTable_create hgrown'.sound
          (T := .two ⟨_, hlt⟩) hentry (k := (k - 7 - 512) % 512) (Nat.mod_lt _ (by omega))
        refine ⟨d₃, ?_, htwo.trans hgrown'', ?_⟩
        · rw [Dir.leaf, leafPath_dind h7 h512 hlt]
          exact hrun''
        · rw [Dir.leaf, leafPath_dind h7 h512 hlt]
          exact hfull''

end Linux001.Fs.Directory
