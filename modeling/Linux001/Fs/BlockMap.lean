import Linux001.Fs.Searches

/-!
# The block map

What `bmap` and `create_block` do to the tree of an inode. The numbers in a well-formed tree are
those of different zones that are marked in the zone bitmap. `create_block` fills in up to three
vacant places of the tree, of which the last one is that of the block, each with a zone that was not
marked and is empty; so nothing else of the tree changes, even if the device is full after one of
the tables.

## Main definitions

* `State.place`: the number at a place of the tree of an inode in core.
* `State.Tree`: the tree of the inode is well formed.
* `Grown`: one vacant place may have been filled in.
* `State.Mapped`: `bmap` is a map without collisions.

## Main results

* `ensures_newBlock`, `ensures_bmapZone`, `ensures_bmapTable`: what one step fills in.
* `succeeds_createBlock`: `create_block` returns if the caller holds no buffer.
* `blockMap`: `create_block` defines the map at one block and keeps it at the others.
-/

namespace Linux001.Fs

/-- The number at a place of the tree of an inode in core, or 0. -/
def State.place (s : State) (n : ℕ) (p : Path) : ℕ := zoneAt s.data (s.ino n).zone p

/-- The number of a block of an inode in core, or 0. -/
def State.blocks (s : State) (n m : ℕ) : ℕ := s.place n (leafPath m)

variable (sb : Super)

/-- The zone bitmap has a bit for the zone, and the bit is set. -/
def State.Marked (s : State) (z : ℕ) : Prop :=
  sb.firstdatazone ≤ z + 1 ∧ z < sb.nzones ∧ s.zmap (sb.bit z) = true

/-- The numbers in the tree of the inode are those of different zones in use. -/
structure State.Tree (s : State) (n : ℕ) : Prop where
  marked : ∀ p, s.place n p ≠ 0 → s.Marked sb (s.place n p)
  inj : ∀ p q, s.place n p ≠ 0 → s.place n p = s.place n q → p = q

/-- The buffers are as the code keeps them, and the references to each fit into `b_count`. -/
def State.Buffered (s : State) : Prop := s.cache.Sound ∧ s.Counters

/-- What `new_block` leaves when it returns `z`. -/
structure Fresh (s : State) (z : ℕ) (s' : State) : Prop where
  ino : s'.ino = s.ino
  buffered : s'.Buffered
  marks : ∀ j, s.zmap j = true → s'.zmap j = true
  data : s'.data = if z = 0 then s.data else Function.update s.data z zeroBlock
  count : s'.bcount = s.bcount
  length : s'.cache.free.length = s.cache.free.length
  marked : z ≠ 0 → s'.Marked sb z ∧ ¬ s.Marked sb z

/-- The only change is that the place `p` of the tree, if it was vacant, may have been filled in. -/
structure Grown (n : ℕ) (p : Path) (s s' : State) : Prop where
  tree : s'.Tree sb n
  buffered : s'.Buffered
  place : ∀ q ≠ p, s'.place n q = s.place n q
  kept : s.place n p ≠ 0 → s'.place n p = s.place n p

/-- Only the order of the buffers may have changed, and which blocks without a reference are
there. -/
def Unchanged (s s' : State) : Prop :=
  ∃ c, s' = { s with cache := c } ∧ c.Sound ∧ c.data = s.data ∧ c.count = s.bcount

/-- `bmap` is the map `f` on the blocks of the inode, without collisions, and changes nothing. -/
structure State.Mapped (s : State) (n : ℕ) (f : ℕ → ℕ) : Prop where
  ensures : ∀ m < maxBlocks, Ensures (bmap sb n m) s fun w s' => w = f m ∧ Unchanged s s'
  returns : s.cache.Held [] → ∀ m < maxBlocks, ∃ s', bmap sb n m s = .ok (f m, s')
  inj : ∀ m < maxBlocks, ∀ m' < maxBlocks, f m ≠ 0 → f m = f m' → m = m'

variable {sb} {s s' s'' : State} {c c' : Cache} {n t k z : ℕ} {p : Path}

/-! ### `new_block` -/

/-- `getblk`, `clear_block` and `brelse`. -/
theorem Cache.cleared {c₁ : Cache} (hget : c.getblk z = some c₁) (hone : c₁.count z = 1)
    (hrel : (c₁.store z fun _ => zeroBlock).brelse z = some c') (hlt : c.count z < 256) :
    (c.Sound → c'.Sound) ∧ c'.count = c.count ∧ c'.data = Function.update c.data z zeroBlock ∧
      c'.free.length = c.free.length := by
  obtain ⟨b, hb⟩ := exists_buf_getblk hget
  have hready : (c₁.store z fun _ => zeroBlock).Ready z := ready_store hb _
  have hbuf : (c₁.store z fun _ => zeroBlock).buf z =
      some { b with data := zeroBlock, state := .dirty } :=
    buf_change_self hb
  have hcount := count_getblk hget
  have hzero : c.count z = 0 := by
    rw [hcount, Function.update_self] at hone
    omega
  have hreleased := released_brelse hrel
  refine ⟨fun hs => hreleased.sound ?_, ?_, ?_, 
    hreleased.length.trans (show c₁.free.length = c.free.length from length_getblk hget)⟩
  · obtain ⟨hheld, hlisted, -⟩ := sound_getblk hget hs
    refine ⟨fun x hx => ?_, fun x => ?_⟩
    · by_cases hxz : x = z
      · rwa [hxz]
      · rw [count_store] at hx
        obtain ⟨b', hb', hstate⟩ := hheld x hxz hx
        exact ⟨b', (buf_change_of_ne hxz).trans hb', hstate⟩
    · rw [store, isSome_change]
      exact hlisted x
  · rw [hreleased.count, count_store, hone, hcount, Function.update_idem]
    exact Function.update_eq_self_iff.mpr hzero.symm
  · rw [hreleased.data, ← data_getblk hget]
    funext x
    rw [Function.update_apply]
    split_ifs with hx
    · rw [hx, hready.data hbuf]
    · exact data_change_of_ne hx

/-- `new_block` returns 0, or the number of a zone that was not marked, which is empty. -/
theorem ensures_newBlock (h : s.Buffered) : Ensures (newBlock sb) s (Fresh sb s) := by
  rw [newBlock, ensures_get_bind]
  cases hbit : newBit s.zmap sb.zmapBlocks 8 with
  | none =>
    exact ensures_pure.mpr ⟨rfl, h, fun _ => id, rfl, rfl, rfl, fun h0 => absurd rfl h0⟩
  | some j =>
    have hclear := newBit_clear hbit
    have hmarks : ∀ i, s.zmap i = true → Function.update s.zmap j true i = true := by
      intro i hi
      rw [Function.update_apply]
      split_ifs
      · rfl
      · exact hi
    dsimp only
    rw [ensures_modify_bind]
    refine ensures_ite (fun _ => ?_) fun hlt => ?_
    · exact ensures_pure.mpr ⟨rfl, h, hmarks, rfl, rfl, rfl, fun h0 => absurd rfl h0⟩
    · set z := j + (sb.firstdatazone - 1) with hz
      have hpos := View.firstdatazone_pos sb
      have hbitz : sb.bit z = j := Nat.add_sub_cancel ..
      refine Ensures.bind ensures_onCache fun _ s₁ h₁ => ?_
      obtain ⟨c₁, hget, rfl⟩ := h₁
      rw [ensures_get_bind]
      refine ensures_ite (fun _ => ensures_throw) fun hone => ?_
      rw [store, ensures_modify_bind]
      refine Ensures.bind ensures_onCache fun _ s₂ h₂ => ensures_pure.mpr ?_
      obtain ⟨c₂, hrel, rfl⟩ := h₂
      obtain ⟨hsound, hcount, hdata, hlength⟩ := Cache.cleared hget (not_not.mp hone) hrel (h.2 z)
      refine ⟨rfl, ⟨hsound h.1, fun x => ?_⟩, hmarks, ?_, hcount, hlength, fun _ =>
        ⟨⟨?_, ?_, ?_⟩, ?_⟩⟩
      · exact (congrFun hcount x).trans_lt (h.2 x)
      · rw [if_neg (by omega)]
        exact hdata
      · omega
      · exact not_le.mp hlt
      · rw [hbitz]
        exact Function.update_self ..
      · rintro ⟨-, -, hset⟩
        rw [hbitz, hclear] at hset
        cases hset

/-! ### Filling in a place -/

theorem State.Marked.fresh {s₁ : State} (h : Fresh sb s z s₁) (hz : z ≠ 0) {w : ℕ}
    (hw : s.Marked sb w) :
    w ≠ z := by
  rintro rfl
  exact (h.marked hz).2 hw

theorem State.Marked.kept (h : s.Marked sb z) (hmarks : ∀ j, s.zmap j = true → s'.zmap j = true) :
    s'.Marked sb z := ⟨h.1, h.2.1, hmarks _ h.2.2⟩

/-- A fresh zone is stored at a vacant place. -/
theorem State.Tree.fill (h : s.Tree sb n)
    (hmarks : ∀ j, s.zmap j = true → s'.zmap j = true)
    (hz : z ≠ 0 → s'.Marked sb z ∧ ¬ s.Marked sb z)
    (hplace : ∀ q, s'.place n q = if q = p then z else s.place n q) : s'.Tree sb n where
  marked q hq := by
    rw [hplace] at hq ⊢
    split_ifs at hq ⊢
    · exact (hz hq).1
    · exact (h.marked q hq).kept hmarks
  inj q r hq hqr := by
    rw [hplace] at hq
    rw [hplace, hplace] at hqr
    split_ifs at hq hqr with hqp hrp hrp
    · rw [hqp, hrp]
    · exact absurd (h.marked r (hqr ▸ hq)) (hqr ▸ (hz hq).2)
    · rw [hqr] at hq
      exact absurd (h.marked q (hqr ▸ hq)) (hqr ▸ (hz hq).2)
    · exact h.inj q r hq hqr

theorem Grown.refl (h : s.Tree sb n) (hb : s.Buffered) : Grown sb n p s s :=
  ⟨h, hb, fun _ _ => rfl, fun _ => rfl⟩

/-- The zone that `new_block` has returned is stored at a vacant place. -/
theorem Fresh.grown {s₁ : State} (hfresh : Fresh sb s z s₁) (h : s.Tree sb n) (hb : s'.Buffered)
    (hvacant : s.place n p = 0) (hzmap : s'.zmap = s₁.zmap)
    (hplace : ∀ q, s'.place n q = if q = p then z else s.place n q) : Grown sb n p s s' where
  tree := by
    refine h.fill (fun j hj => ?_) (fun hz => ?_) hplace
    · rw [hzmap]
      exact hfresh.marks j hj
    · obtain ⟨hmarked, hfree⟩ := hfresh.marked hz
      exact ⟨hmarked.kept fun j hj => by rwa [hzmap], hfree⟩
  buffered := hb
  place q hq := (hplace q).trans (if_neg hq)
  kept h0 := absurd hvacant h0

/-- The tables of the inode keep their contents. -/
theorem Fresh.data_path {s₁ : State} (hfresh : Fresh sb s z s₁) (h : s.Tree sb n)
    (hp : s.place n p ≠ 0) :
    s₁.data (s.place n p) = s.data (s.place n p) := by
  rw [hfresh.data]
  split_ifs with hz
  · rfl
  · rw [Function.update_of_ne]
    exact (h.marked p hp).fresh hfresh hz

/-- `bmapZone` fills in a place in the inode, if it is vacant. -/
theorem ensures_bmapZone (h : s.Tree sb n) (hb : s.Buffered) (k : Fin 9) :
    Ensures (bmapZone sb n k true) s fun _ s' => Grown sb n (.zone k) s s' := by
  rw [bmapZone, ensures_get_bind]
  refine ensures_ite (fun hvacant => ?_) fun _ => ensures_pure.mpr (.refl h hb)
  refine (ensures_newBlock hb).bind fun z s₁ hfresh => ?_
  rw [edit, ensures_modify_bind]
  have hgrown (s' : State) (hcache : s'.cache = s₁.cache) (hzmap : s'.zmap = s₁.zmap)
      (hzone : (s'.ino n).zone = Function.update (s.ino n).zone k z) :
      Grown sb n (.zone k) s s' := by
    have hdata : s'.data = s₁.data := congrArg Cache.data hcache
    refine hfresh.grown h ?_ hvacant.2 hzmap fun q => ?_
    · obtain ⟨hsound, hcounters⟩ := hfresh.buffered
      refine ⟨hcache ▸ hsound, fun x => ?_⟩
      rw [State.bcount, hcache]
      exact hcounters x
    · rw [State.place, hzone, hdata]
      by_cases hz : z = 0
      · rw [hz, Function.update_eq_self_iff.mpr hvacant.2.symm, hfresh.data, if_pos hz]
        split_ifs with hq
        · rw [hq]
          exact hvacant.2
        · rfl
      · refine zoneAt_set_zone hvacant.2 ?_ (fun T hT => hfresh.data_path h hT) q
        rw [hfresh.data, if_neg hz, Function.update_self]
  have hzone : (Function.update s₁.ino n { s₁.ino n with
      zone := Function.update (s₁.ino n).zone k z } n).zone =
      Function.update (s.ino n).zone k z := by
    rw [Function.update_self, hfresh.ino]
  refine ensures_ite (fun _ => ?_) fun _ => ensures_pure.mpr (hgrown _ rfl rfl hzone)
  exact ensures_modify.mpr (hgrown _ rfl rfl hzone)

/-- The zone that `new_block` has returned is stored in a table. -/
theorem Fresh.place_entry {s₁ : State} (hfresh : Fresh sb s z s₁) (h : s.Tree sb n) {T : Table}
    (ht : s.place n T.path ≠ 0) {i : Fin 512} (hvacant : s.place n (T.entry i) = 0)
    (hino : s'.ino = s₁.ino) (hdata : s'.data = if z = 0 then s₁.data
      else Function.update s₁.data (s.place n T.path)
        (setWord (s₁.data (s.place n T.path)) i z)) (q : Path) :
    s'.place n q = if q = T.entry i then z else s.place n q := by
  have hkeep {T' : Table} (hT' : s.place n T'.path ≠ 0) := hfresh.data_path h hT'
  rw [State.place, hino, hfresh.ino]
  by_cases hz : z = 0
  · rw [hdata, if_pos hz, hfresh.data, if_pos hz, hz]
    split_ifs with hq
    · rw [hq]
      exact hvacant
    · rfl
  · have hne : z ≠ s.place n T.path := ((h.marked _ ht).fresh hfresh hz).symm
    have hlt : z < 65536 := (hfresh.marked hz).1.2.1.trans sb.nzones_lt
    rw [if_neg hz] at hdata
    refine zoneAt_set_entry ht hvacant ?_ hlt ?_ (fun T' hT' hT'0 => ?_) q
    · rw [hdata, Function.update_of_ne hne, hfresh.data, if_neg hz, Function.update_self]
    · exact (congrFun hdata _).trans ((Function.update_self ..).trans
        (congrArg (setWord · i z) (hkeep ht)))
    · rw [hdata, Function.update_of_ne]
      · exact hkeep hT'0
      · exact fun heq => hT' (Table.path_inj (h.inj _ _ hT'0 heq))

theorem Grown.congr {s₁ : State} (h : Grown sb n p s₁ s') (hplace : s₁.place n = s.place n) :
    Grown sb n p s s' :=
  ⟨h.tree, h.buffered, hplace ▸ h.place, hplace ▸ h.kept⟩

theorem State.Tree.congr (h : s.Tree sb n) (hplace : s'.place n = s.place n)
    (hzmap : s'.zmap = s.zmap) :
    s'.Tree sb n where
  marked q hq := by
    rw [hplace] at hq ⊢
    exact (h.marked q hq).kept fun j hj => by rwa [hzmap]
  inj := by
    rw [hplace]
    exact h.inj

/-- A buffer has been read, and the references still fit. -/
theorem State.Buffered.bread (h : s.Buffered) (hread : Cache.Read s.cache t c) :
    State.Buffered { s with cache := c } := by
  refine ⟨hread.sound h.1, fun x => ?_⟩
  rw [State.bcount, hread.count, Function.update_apply]
  split_ifs
  · exact Nat.mod_lt _ (by omega)
  · exact h.2 x

namespace Unchanged

theorem data (h : Unchanged s s') : s'.data = s.data := by
  obtain ⟨c, rfl, -, hdata, -⟩ := h
  exact hdata

theorem buffered (h : Unchanged s s') (hb : s.Buffered) : s'.Buffered := by
  obtain ⟨c, rfl, hsound, -, hcount⟩ := h
  exact ⟨hsound, fun x => (congrFun hcount x).trans_lt (hb.2 x)⟩

theorem trans (h : Unchanged s s') (h' : Unchanged s' s'') : Unchanged s s'' := by
  obtain ⟨c, rfl, -, hdata, hcount⟩ := h
  obtain ⟨c', rfl, hsound, hdata', hcount'⟩ := h'
  exact ⟨c', rfl, hsound, hdata'.trans hdata, hcount'.trans hcount⟩

theorem zmap (h : Unchanged s s') : s'.zmap = s.zmap := by
  obtain ⟨c, rfl, -⟩ := h
  rfl

theorem place (h : Unchanged s s') (n : ℕ) : s'.place n = s.place n := by
  funext q
  rw [State.place, h.data]
  obtain ⟨c, rfl, -⟩ := h
  rfl

end Unchanged

theorem State.Buffered.brelse (h : s.Buffered) (hrel : Cache.Released s.cache t c) :
    State.Buffered { s with cache := c } := by
  refine ⟨hrel.sound h.1, fun x => ?_⟩
  rw [State.bcount, hrel.count, Function.update_apply]
  split_ifs with hx
  · exact (Nat.sub_le ..).trans_lt (h.2 t)
  · exact h.2 x

/-- An entry that is not vacant, or is only to be looked up, is returned. -/
theorem ensures_bmapTable_of_not {create : Bool} (hb : s.Buffered)
    (hkeep : ¬(create = true ∧ word (s.data t) k = 0)) :
    Ensures (bmapTable sb t k create) s fun w s' => w = word (s.data t) k ∧ Unchanged s s' := by
  rw [bmapTable]
  refine Ensures.bind ensures_onCache fun _ s₁ h₁ => ?_
  obtain ⟨c₁, hc₁, rfl⟩ := h₁
  have hread := Cache.read_bread hc₁
  have hdata : c₁.data = s.data := hread.data
  have hword : word (c₁.data t) k = word (s.data t) k := by rw [hdata]
  rw [ensures_get_bind]
  refine ensures_ite (fun hvacant => absurd ⟨hvacant.1, hword ▸ hvacant.2⟩ hkeep) fun _ => ?_
  refine Ensures.bind ensures_onCache fun _ s₂ h₂ => ensures_pure.mpr ⟨hword, ?_⟩
  obtain ⟨c₂, hc₂, rfl⟩ := h₂
  have hrel := Cache.released_brelse hc₂
  refine ⟨c₂, rfl, hrel.sound (hread.sound hb.1), hrel.data.trans hdata, ?_⟩
  have hpos := hrel.pos
  have hlt : s.cache.count t < 256 := hb.2 t
  change c₁.count t ≠ 0 at hpos
  rw [hread.count, Function.update_self] at hpos
  rw [hrel.count, hread.count, Function.update_self, Function.update_idem]
  exact Function.update_eq_self_iff.mpr (by omega)

/-- `bmapTable` fills in an entry of a table, if it is vacant, and returns the entry. -/
theorem ensures_bmapTable (h : s.Tree sb n) (hb : s.Buffered) (T : Table)
    (ht : s.place n T.path ≠ 0)
    (hk : k < 512) : Ensures (bmapTable sb (s.place n T.path) k true) s fun w s' =>
      Grown sb n (T.entry ⟨k, hk⟩) s s' ∧ w = s'.place n (T.entry ⟨k, hk⟩) := by
  have hword : word (s.data (s.place n T.path)) k = s.place n (T.entry ⟨k, hk⟩) := word_table ht hk
  by_cases hkeep : true = true ∧ word (s.data (s.place n T.path)) k = 0
  · rw [bmapTable]
    refine Ensures.bind ensures_onCache fun _ s₁ h₁ => ?_
    obtain ⟨c₁, hc₁, rfl⟩ := h₁
    have hread := Cache.read_bread hc₁
    have hdata₁ : c₁.data = s.data := hread.data
    set t := s.place n T.path with ht'
    have hword₁ : word (c₁.data t) k = word (s.data t) k := by rw [hdata₁]
    have hplace₁ (q : Path) : State.place { s with cache := c₁ } n q = s.place n q :=
      congrArg (zoneAt · (s.ino n).zone q) hdata₁
    have h₁ : State.Tree sb { s with cache := c₁ } n := h.congr (funext hplace₁) rfl
    rw [ensures_get_bind]
    refine ensures_ite (fun _ => ?_) fun hc => absurd ⟨hkeep.1, hword₁ ▸ hkeep.2⟩ hc
    refine (ensures_newBlock (hb.bread hread)).bind fun z s₂ hfresh => ?_
    have hfree : State.place { s with cache := c₁ } n (T.entry ⟨k, hk⟩) = 0 := by
      rw [hplace₁, ← hword]
      exact hkeep.2
    have ht₁ : State.place { s with cache := c₁ } n T.path ≠ 0 := by rwa [hplace₁]
    -- The entry is stored if there is a zone, and the table is released.
    have hgrown {c₂ c₃ : Cache} (hb₂ : State.Buffered { s₂ with cache := c₂ })
        (hrel : Cache.Released c₂ t c₃) (hdata : c₂.data = if z = 0 then s₂.data
          else Function.update s₂.data t (setWord (s₂.data t) k z)) :
        Grown sb n (T.entry ⟨k, hk⟩) s { s₂ with cache := c₃ } ∧
          z = State.place { s₂ with cache := c₃ } n (T.entry ⟨k, hk⟩) := by
      have hplace : ∀ q, State.place { s₂ with cache := c₃ } n q =
          if q = T.entry ⟨k, hk⟩ then z else State.place { s with cache := c₁ } n q :=
        hfresh.place_entry h₁ ht₁ hfree rfl (by rw [hplace₁]; exact hrel.data.trans hdata)
      exact ⟨(hfresh.grown h₁ (hb₂.brelse hrel) hfree rfl hplace).congr (funext hplace₁),
        ((hplace _).trans (if_pos rfl)).symm⟩
    refine ensures_ite (fun hz => ?_) fun hz => ?_
    · rw [store, ensures_modify_bind]
      refine Ensures.bind ensures_onCache fun _ s₃ h₃ => ensures_pure.mpr ?_
      obtain ⟨c₃, hc₃, rfl⟩ := h₃
      have hrel := Cache.released_brelse hc₃
      -- The buffer of the table is held, so it has kept its contents.
      have hheld : s₂.cache.count t ≠ 0 := by
        rw [← Cache.count_store fun b => setWord b k z]
        exact hrel.pos
      have hsound : (s₂.cache.store t fun b => setWord b k z).Sound := hfresh.buffered.1.store _
      have hbuffered : State.Buffered { s₂ with
          cache := s₂.cache.store t fun b => setWord b k z } := by
        refine ⟨hsound, fun x => ?_⟩
        rw [State.bcount, Cache.count_store]
        exact hfresh.buffered.2 x
      refine hgrown hbuffered hrel ?_
      rw [if_neg hz]
      exact Cache.data_store (hfresh.buffered.1.held t hheld) _
    · refine Ensures.bind ensures_onCache fun _ s₃ h₃ => ensures_pure.mpr ?_
      obtain ⟨c₃, hc₃, rfl⟩ := h₃
      exact hgrown hfresh.buffered (Cache.released_brelse hc₃) (if_pos (not_not.mp hz)).symm
  · refine (ensures_bmapTable_of_not hb hkeep).mono fun w s' hw => ?_
    obtain ⟨rfl, hsame⟩ := hw
    have hplace := hsame.place n
    refine ⟨⟨h.congr hplace hsame.zmap, hsame.buffered hb, fun q _ => congrFun hplace q,
      fun _ => congrFun hplace _⟩, ?_⟩
    rw [hplace, hword]

/-! ### `bmap` and `create_block` -/

theorem place_path_ne_zero {T : Table} {i : Fin 512} (h : s.place n (T.entry i) ≠ 0) :
    s.place n T.path ≠ 0 :=
  fun h0 => h (zoneAt_entry_of_zero h0 i)

/-- A block that is there, or is only to be looked up, is found. -/
theorem ensures_bmapAux_of_ne {create : Bool} (hb : s.Buffered) (hk : k < maxBlocks)
    (hkeep : create = true → s.blocks n k ≠ 0) :
    Ensures (bmapAux sb n k create) s fun w s' => w = s.blocks n k ∧ Unchanged s s' := by
  have hbig : ¬7 + 512 + 512 * 512 ≤ k := Nat.not_le.mpr hk
  have hsame : Unchanged s s := ⟨s.cache, rfl, hb.1, rfl, rfl⟩
  have hzone (j : Fin 9) (hj : create = true → s.place n (.zone j) ≠ 0) :
      Ensures (bmapZone sb n j create) s fun _ s' => s' = s := by
    intro _ s' hrun
    rw [bmapZone_of_not fun hc => hj hc.1 hc.2] at hrun
    exact (Prod.mk.inj (Except.ok.inj hrun)).2.symm
  have htable {s₁ : State} (hs₁ : Unchanged s s₁) (T : Table) (i : ℕ) (hi : i < 512)
      (ht : s.place n T.path ≠ 0) (hentry : create = true → s.place n (T.entry ⟨i, hi⟩) ≠ 0) :
      Ensures (bmapTable sb (s.place n T.path) i create) s₁ fun w s' =>
        w = s.place n (T.entry ⟨i, hi⟩) ∧ Unchanged s s' := by
    have hword : word (s₁.data (s.place n T.path)) i = s.place n (T.entry ⟨i, hi⟩) := by
      rw [hs₁.data]
      exact word_table ht hi
    refine (ensures_bmapTable_of_not (hs₁.buffered hb) fun hc => ?_).mono fun w s' hw => ?_
    · exact hentry hc.1 (hword.symm.trans hc.2)
    · exact ⟨hw.1.trans hword, hs₁.trans hw.2⟩
  rw [State.blocks] at hkeep ⊢
  rw [bmapAux, if_neg hbig]
  split_ifs with h7 h512
  · rw [leafPath_direct h7] at hkeep ⊢
    refine (hzone ⟨k, _⟩ hkeep).bind fun _ s₁ hs₁ => ?_
    subst hs₁
    exact ensures_pure.mpr ⟨rfl, hsame⟩
  · rw [leafPath_ind h7 h512] at hkeep ⊢
    refine (hzone 7 fun hc => place_path_ne_zero (hkeep hc)).bind fun _ s₁ hs₁ => ?_
    subst hs₁
    rw [ensures_get_bind]
    refine ensures_ite (fun h0 => ?_) fun h0 => ?_
    · exact ensures_pure.mpr ⟨(zoneAt_entry_of_zero (T := .ind) h0 _).symm, hsame⟩
    · exact htable hsame .ind _ h512 h0 hkeep
  · have hlt : (k - 7 - 512) / 512 < 512 := row_lt hk
    rw [leafPath_dind h7 h512 hlt] at hkeep ⊢
    have hdind (hc : create = true) : s.place n (Table.dind.entry ⟨(k - 7 - 512) / 512, hlt⟩) ≠ 0 :=
      place_path_ne_zero (hkeep hc)
    refine (hzone 8 fun hc => place_path_ne_zero (hdind hc)).bind fun _ s₁ hs₁ => ?_
    subst hs₁
    rw [ensures_get_bind]
    refine ensures_ite (fun h0 => ?_) fun h0 => ?_
    · have hentry : s₁.place n (Table.two ⟨_, hlt⟩).path = 0 :=
        zoneAt_entry_of_zero (T := .dind) h0 ⟨_, hlt⟩
      exact ensures_pure.mpr ⟨(zoneAt_entry_of_zero hentry _).symm, hsame⟩
    · refine (htable hsame .dind _ hlt h0 hdind).bind fun i s₂ hs₂ => ?_
      obtain ⟨rfl, hsame₂⟩ := hs₂
      refine ensures_ite (fun hentry => ?_) fun hentry => ?_
      · exact ensures_pure.mpr ⟨(zoneAt_entry_of_zero (T := .two _) hentry _).symm, hsame₂⟩
      · exact htable hsame₂ (.two ⟨_, hlt⟩) _ _ hentry hkeep

/-- Filling in the place of a table keeps the blocks. -/
theorem Grown.blocks_of_table {T : Table} (h : Grown sb n T.path s s') (m : ℕ) :
    s'.blocks n m = s.blocks n m := h.place _ (leafPath_ne_path m T)

/-- Filling in the place of a block keeps the others. -/
theorem Grown.blocks_of_block (h : Grown sb n (leafPath k) s s') (hk : k < maxBlocks) {m : ℕ}
    (hm : m < maxBlocks) (hne : m ≠ k) : s'.blocks n m = s.blocks n m :=
  h.place _ fun heq => hne (leafPath_inj hm hk heq)

/-- `create_block` returns the number that the block has then, and keeps the other blocks. -/
theorem ensures_createBlock (h : s.Tree sb n) (hb : s.Buffered) (hk : k < maxBlocks) :
    Ensures (createBlock sb n k) s fun z s' => s'.Tree sb n ∧ s'.Buffered ∧ z = s'.blocks n k ∧
      ∀ m < maxBlocks, m ≠ k → s'.blocks n m = s.blocks n m := by
  have hbig : ¬7 + 512 + 512 * 512 ≤ k := Nat.not_le.mpr hk
  rw [createBlock, bmapAux, if_neg hbig]
  split_ifs with h7 h512
  · refine (ensures_bmapZone h hb ⟨k, lt_nine h7⟩).bind fun _ s₁ hs₁ => ensures_pure.mpr ?_
    rw [← leafPath_direct h7] at hs₁
    refine ⟨hs₁.tree, hs₁.buffered, ?_, fun m => hs₁.blocks_of_block hk⟩
    rw [State.blocks, leafPath_direct h7]
    rfl
  · refine (ensures_bmapZone h hb 7).bind fun _ s₁ hs₁ => ?_
    have htable := Grown.blocks_of_table (T := .ind) hs₁
    rw [ensures_get_bind]
    refine ensures_ite (fun h0 => ensures_pure.mpr ?_) fun h0 => ?_
    · refine ⟨hs₁.tree, hs₁.buffered, ?_, fun m _ _ => htable m⟩
      rw [State.blocks, leafPath_ind h7 h512]
      exact (zoneAt_entry_of_zero (T := .ind) h0 _).symm
    · refine (ensures_bmapTable hs₁.tree hs₁.buffered .ind h0 h512).mono fun z s₂ hs₂ => ?_
      rw [← leafPath_ind h7 h512] at hs₂
      exact ⟨hs₂.1.tree, hs₂.1.buffered, hs₂.2, fun m hm hne =>
        (hs₂.1.blocks_of_block hk hm hne).trans (htable m)⟩
  · have hlt : (k - 7 - 512) / 512 < 512 := row_lt hk
    refine (ensures_bmapZone h hb 8).bind fun _ s₁ hs₁ => ?_
    have hfirst := Grown.blocks_of_table (T := .dind) hs₁
    rw [ensures_get_bind]
    refine ensures_ite (fun h0 => ensures_pure.mpr ?_) fun h0 => ?_
    · refine ⟨hs₁.tree, hs₁.buffered, ?_, fun m _ _ => hfirst m⟩
      have hentry : s₁.place n (Table.two ⟨_, hlt⟩).path = 0 :=
        zoneAt_entry_of_zero (T := .dind) h0 ⟨_, hlt⟩
      rw [State.blocks, leafPath_dind h7 h512 hlt]
      exact (zoneAt_entry_of_zero hentry _).symm
    · refine (ensures_bmapTable hs₁.tree hs₁.buffered .dind h0 hlt).bind fun i s₂ hs₂ => ?_
      obtain ⟨hs₂, rfl⟩ := hs₂
      have hsecond := Grown.blocks_of_table (T := .two ⟨_, hlt⟩) hs₂
      refine ensures_ite (fun hentry => ensures_pure.mpr ?_) fun hentry => ?_
      · refine ⟨hs₂.tree, hs₂.buffered, ?_, fun m _ _ => (hsecond m).trans (hfirst m)⟩
        rw [State.blocks, leafPath_dind h7 h512 hlt]
        exact (zoneAt_entry_of_zero (T := .two _) hentry _).symm
      · refine (ensures_bmapTable hs₂.tree hs₂.buffered (.two ⟨_, hlt⟩) hentry
          (Nat.mod_lt _ (by omega))).mono fun z s₃ hs₃ => ?_
        rw [← leafPath_dind h7 h512 hlt] at hs₃
        exact ⟨hs₃.1.tree, hs₃.1.buffered, hs₃.2, fun m hm hne =>
          (hs₃.1.blocks_of_block hk hm hne).trans ((hsecond m).trans (hfirst m))⟩

/-! ### Calls without a buffer in hand -/

theorem Cache.Held.buffered {l : List ℕ} (h : s.cache.Held l) (hl : l.length ≤ 1) : s.Buffered := by
  refine ⟨h.sound, fun x => ?_⟩
  rw [State.bcount, h.count]
  exact (List.count_le_length.trans hl).trans_lt (by omega)

theorem Fresh.held {s₁ : State} {l : List ℕ} (hfresh : Fresh sb s z s₁) (h : s.cache.Held l) :
    s₁.cache.Held l :=
  ⟨hfresh.buffered.1, fun x => (congrFun hfresh.count x).trans (h.count x),
    hfresh.length ▸ h.two_le⟩

/-- `new_block` returns if at most one buffer is held, and that is one of a zone in use. -/
theorem succeeds_newBlock {l : List ℕ} (h : s.cache.Held l) (hl : l.length ≤ 1)
    (hmarked : ∀ t ∈ l, s.Marked sb t) : Succeeds (newBlock sb) s (Fresh sb s) := by
  refine (ensures_newBlock (h.buffered hl)).succeeds ?_
  suffices hrun : Succeeds (newBlock sb) s fun _ _ => True by
    obtain ⟨z, s', hrun, -⟩ := hrun
    exact ⟨(z, s'), hrun⟩
  rw [newBlock, succeeds_get_bind]
  cases hbit : newBit s.zmap sb.zmapBlocks 8 with
  | none => exact succeeds_pure trivial
  | some j =>
    have hclear := newBit_clear hbit
    dsimp only
    rw [succeeds_modify_bind]
    set z := j + (sb.firstdatazone - 1) with hz
    split_ifs
    · exact succeeds_pure trivial
    · have hfree : s.cache.count z = 0 := by
        rw [h.count, List.count_eq_zero]
        intro hmem
        have hset := (hmarked z hmem).2.2
        rw [show sb.bit z = j from Nat.add_sub_cancel .., hclear] at hset
        cases hset
      obtain ⟨c₁, hget⟩ := Cache.exists_getblk (z := z) (h.roomy hl)
      have hone : c₁.count z = 1 := by
        rw [Cache.count_getblk hget, Function.update_self, hfree]
      have hheld : (c₁.store z fun _ => zeroBlock).count z ≠ 0 := by
        rw [Cache.count_store, hone]
        exact one_ne_zero
      refine (succeeds_onCache hget).bind fun _ s₁ hs₁ => ?_
      have hone₁ : ¬ s₁.bcount z ≠ 1 := by
        rw [hs₁]
        exact not_not.mpr hone
      rw [succeeds_get_bind, if_neg hone₁, store, succeeds_modify_bind, hs₁]
      exact (succeeds_onCache (if_neg hheld)).bind fun _ _ _ => succeeds_pure trivial

/-- `bmapZone` returns if no buffer is held. -/
theorem succeeds_bmapZone (h : s.cache.Held []) (k : ℕ) :
    Succeeds (bmapZone sb n k true) s fun _ s' => s'.cache.Held [] := by
  rw [bmapZone, succeeds_get_bind]
  split_ifs
  · refine (succeeds_newBlock h (by decide) fun t ht => absurd ht List.not_mem_nil).bind
      fun z s₁ hfresh => ?_
    have hheld := hfresh.held h
    rw [edit, succeeds_modify_bind]
    split_ifs
    · exact succeeds_modify hheld
    · exact succeeds_pure hheld
  · exact succeeds_pure h

/-- `bmapTable` returns if no buffer is held and the table is in use. -/
theorem succeeds_bmapTable_create (h : s.cache.Held []) (ht : s.Marked sb t) :
    Succeeds (bmapTable sb t k true) s fun _ s' => s'.cache.Held [] := by
  have hrelease {s₁ : State} (hs₁ : s₁.cache.Held [t]) (w : ℕ) :
      Succeeds (brelse t >>= fun _ => pure w) s₁ fun _ s' => s'.cache.Held [] :=
    (succeeds_brelse hs₁ List.mem_cons_self).bind fun _ s' hs' => succeeds_pure (by
      have := hs'.held
      rwa [List.erase_cons_head] at this)
  rw [bmapTable]
  refine (succeeds_bread h (by decide) t).bind fun _ s₁ hs₁ => ?_
  rw [succeeds_get_bind]
  split_ifs
  · have hmarked : ∀ w ∈ [t], s₁.Marked sb w := by
      intro w hw
      obtain rfl := List.mem_singleton.mp hw
      obtain ⟨c₁, rfl, -⟩ := hs₁
      exact ht
    refine (succeeds_newBlock hs₁.held le_rfl hmarked).bind fun z s₂ hfresh => ?_
    have hheld := hfresh.held hs₁.held
    split_ifs
    · have hstored : (s₂.cache.store t fun b => setWord b k z).Held [t] := by
        refine ⟨hheld.sound.store _, fun x => ?_, hheld.two_le⟩
        rw [Cache.count_store]
        exact hheld.count x
      rw [store, succeeds_modify_bind]
      exact hrelease hstored z
    · exact hrelease hheld z
  · exact hrelease hs₁.held _

/-- `create_block` returns if no buffer is held. -/
theorem succeeds_createBlock (h : s.Tree sb n) (hheld : s.cache.Held []) (hk : k < maxBlocks) :
    Succeeds (createBlock sb n k) s fun _ s' => s'.cache.Held [] := by
  have hbig : ¬7 + 512 + 512 * 512 ≤ k := Nat.not_le.mpr hk
  have hzone (j : Fin 9) := (succeeds_bmapZone hheld j).and
    (ensures_bmapZone h (hheld.buffered (by decide)) j)
  have htable {s₁ : State} (h₁ : s₁.Tree sb n) (hheld₁ : s₁.cache.Held []) (T : Table) {i : ℕ}
      (hi : i < 512) (ht : s₁.place n T.path ≠ 0) :=
    (succeeds_bmapTable_create (k := i) hheld₁ (h₁.marked _ ht)).and
      (ensures_bmapTable h₁ (hheld₁.buffered (by decide)) T ht hi)
  rw [createBlock, bmapAux, if_neg hbig]
  split_ifs with h7 h512
  · exact (hzone ⟨k, lt_nine h7⟩).bind fun _ s₁ hs₁ => succeeds_pure hs₁.1
  · refine (hzone 7).bind fun _ s₁ hs₁ => ?_
    rw [succeeds_get_bind]
    split_ifs with h0
    · exact succeeds_pure hs₁.1
    · exact (htable hs₁.2.tree hs₁.1 .ind h512 h0).mono fun _ s₂ hs₂ => hs₂.1
  · have hlt : (k - 7 - 512) / 512 < 512 := row_lt hk
    refine (hzone 8).bind fun _ s₁ hs₁ => ?_
    rw [succeeds_get_bind]
    split_ifs with h0
    · exact succeeds_pure hs₁.1
    · refine (htable hs₁.2.tree hs₁.1 .dind hlt h0).bind fun i s₂ hs₂ => ?_
      obtain ⟨hheld₂, hgrown, rfl⟩ := hs₂
      split_ifs with hentry
      · exact succeeds_pure hheld₂
      · exact (htable hgrown.tree hheld₂ (.two ⟨_, hlt⟩) (Nat.mod_lt _ (by omega)) hentry).mono
          fun _ s₃ hs₃ => hs₃.1

/-! ### Main theorem -/

/-- The numbers of the blocks are what `bmap` returns. -/
theorem State.Tree.mapped (h : s.Tree sb n) (hb : s.Buffered) : s.Mapped sb n (s.blocks n) where
  ensures m hm := ensures_bmapAux_of_ne hb hm fun hc => absurd hc Bool.false_ne_true
  returns hheld m hm := by
    have hbmap : Succeeds (bmap sb n m) s _ := succeeds_bmap hheld (by decide) hm
    obtain ⟨w, s', hrun, rfl, -⟩ := hbmap
    exact ⟨s', hrun⟩
  inj m hm m' hm' h0 heq := leafPath_inj hm hm' (h.inj _ _ h0 heq)

theorem State.Mapped.congr {f g : ℕ → ℕ} (h : s.Mapped sb n f) (hfg : ∀ m < maxBlocks, g m = f m) :
    s.Mapped sb n g where
  ensures m hm := by
    rw [hfg m hm]
    exact h.ensures m hm
  returns hheld m hm := by
    rw [hfg m hm]
    exact h.returns hheld m hm
  inj m hm m' hm' := by
    rw [hfg m hm, hfg m' hm']
    exact h.inj m hm m' hm'

/-- **The block map is a map.** `bmap` gives different zones to different blocks. `create_block`
returns what `bmap` returns for the block afterwards, keeps the map at the other blocks, whether
there is a zone left or not, and does nothing if the block is there. -/
theorem createBlock_mapped (sb : Super) (h : s.Tree sb n) (hb : s.Buffered) :
    s.Mapped sb n (s.blocks n) ∧ ∀ k < maxBlocks,
      (Ensures (createBlock sb n k) s fun z s' =>
        s'.Tree sb n ∧ s'.Buffered ∧ s'.Mapped sb n (Function.update (s.blocks n) k z) ∧
          (z ≠ 0 → Ensures (createBlock sb n k) s' fun w s'' => w = z ∧ Unchanged s' s'')) ∧
      (s.cache.Held [] → ∃ z s', createBlock sb n k s = .ok (z, s') ∧ s'.cache.Held []) := by
  refine ⟨h.mapped hb, fun k hk => ⟨(ensures_createBlock h hb hk).mono fun z s' hs' => ?_,
    fun hheld => ?_⟩⟩
  · obtain ⟨h', hb', rfl, hkept⟩ := hs'
    refine ⟨h', hb', (h'.mapped hb').congr fun m hm => ?_, fun hz => ?_⟩
    · rw [Function.update_apply]
      split_ifs with hmk
      · rw [hmk]
      · exact (hkept m hm hmk).symm
    · exact ensures_bmapAux_of_ne hb' hk fun _ => hz
  · exact succeeds_createBlock h hheld hk

/-- A file with one block, on a device the other zones of which are free. -/
def oneMarked : State := { oneBlock 0 with zmap := fun j => decide (j ≤ 1) }

theorem tree_oneMarked : oneMarked.Tree smallSuper 2 := by
  have honly : ∀ p, oneMarked.place 2 p ≠ 0 → p = .zone 0 :=
    fun _ hp => eq_zone_zero (fun _ hi => if_neg hi) hp
  refine ⟨fun p hp => ?_, fun p q hp heq => (honly p hp).trans (honly q (heq ▸ hp)).symm⟩
  rw [honly p hp]
  exact ⟨by decide, by decide, rfl⟩

theorem buffered_oneMarked : oneMarked.Buffered := by
  have hcount : oneMarked.bcount = fun _ => 0 := by
    funext z
    exact (bcount_oneBlock 0 z).trans (ite_self 0)
  refine ⟨⟨fun z hz => absurd (congrFun hcount z) hz, fun z => ?_⟩, fun z => ?_⟩
  · by_cases hz : z = 5
    · rw [hz]
      rfl
    · have hbuf : oneMarked.cache.buf z = none := if_neg hz
      have hmem : some z ∉ [none, some 5] := by simpa using hz
      rw [hbuf]
      exact List.count_eq_zero.mpr hmem
  · exact (congrFun hcount z).trans_lt (by decide)

/-- The file gets another block, or one by way of tables. -/
theorem createBlock_mapped_one :
    oneMarked.Mapped smallSuper 2 (oneMarked.blocks 2) ∧ ∀ k < maxBlocks,
      (Ensures (createBlock smallSuper 2 k) oneMarked fun z s' =>
        s'.Tree smallSuper 2 ∧ s'.Buffered ∧
        s'.Mapped smallSuper 2 (Function.update (oneMarked.blocks 2) k z) ∧
          (z ≠ 0 → Ensures (createBlock smallSuper 2 k) s' fun w s'' => w = z ∧ Unchanged s' s'')) ∧
      (oneMarked.cache.Held [] → ∃ z s', createBlock smallSuper 2 k oneMarked = .ok (z, s') ∧
        s'.cache.Held []) :=
  createBlock_mapped smallSuper tree_oneMarked buffered_oneMarked

end Linux001.Fs
