import Linux001.Fs.Model
import Linux001.Lib.Ownership

/-!
# The zones of an inode

The zones of a regular file or directory form a tree of three levels: the nine zone numbers of the
inode, the entries of the table in `i_zone[7]`, and the entries of the table in `i_zone[8]`, which
are themselves tables. A place in this tree is a `Path`. The places of all allocated inodes own
their zones exclusively: the zones are marked in the bitmap, and no zone is at two places.

The file system sees the blocks of an inode through `bmap`: block `m` of the inode `n` is stored at
`V.leaf n m`, and has the bytes `V.content n m`, which are zero while the block is missing.

## Main definitions

* `Path`, `View.zoneAt`: the places of zone numbers, and the zone stored at a place.
* `View.leaf`, `View.content`: the blocks of an inode.
* `View.Owned`: the zones are owned exclusively.
* `View.Extends`: a missing zone may have been filled in, and nothing else has changed.

## Main results

* `View.Attached.owned`, `View.Attached.extended`: storing a new zone at a vacant place.
* `View.Owned.stored`: writing into a block of an inode changes that block of that inode only.
-/

namespace Linux001.Fs

/-- The places of zone numbers in the tree of an inode: `i_zone[k]`, the entries of the tables in
`i_zone[7]` and in `i_zone[8]`, and the entries of the tables that the latter names. -/
inductive Path
  | zone (k : Fin 9)
  | ind (i : Fin 512)
  | dind (i : Fin 512)
  | two (i j : Fin 512)
  deriving DecidableEq

/-- The tables in the tree of an inode. -/
inductive Table
  | ind
  | dind
  | two (i : Fin 512)

/-- The place where a table is stored. -/
def Table.path : Table → Path
  | .ind => .zone 7
  | .dind => .zone 8
  | .two i => .dind i

/-- The entries of a table. -/
def Table.entry : Table → Fin 512 → Path
  | .ind, i => .ind i
  | .dind, i => .dind i
  | .two i, j => .two i j

theorem Table.entry_inj {T T' : Table} {i i' : Fin 512} (h : T.entry i = T'.entry i') :
    T = T' ∧ i = i' := by
  cases T <;> cases T' <;> simp_all [Table.entry]

theorem Table.path_inj {T T' : Table} (h : T.path = T'.path) : T = T' := by
  cases T <;> cases T' <;> simp_all [Table.path]

/-- The `i`-th entry of the table in block `t`, if there is one. -/
def tableAt (data : ℕ → Block) (t i : ℕ) : ℕ := if t = 0 then 0 else word (data t) i

/-- The zone stored at a place. -/
def zoneAt (data : ℕ → Block) (zone : ℕ → ℕ) : Path → ℕ
  | .zone k => zone k
  | .ind i => tableAt data (zone 7) i
  | .dind i => tableAt data (zone 8) i
  | .two i j => tableAt data (tableAt data (zone 8) i) j

theorem zoneAt_entry (data : ℕ → Block) (zone : ℕ → ℕ) (T : Table) (i : Fin 512) :
    zoneAt data zone (T.entry i) = tableAt data (zoneAt data zone T.path) i := by
  cases T <;> rfl

theorem tableAt_congr {data data' : ℕ → Block} {t : ℕ} (h : t ≠ 0 → data' t = data t) (i : ℕ) :
    tableAt data' t i = tableAt data t i := by
  unfold tableAt
  split
  · rfl
  · rw [h ‹_›]

/-- A place that is not an entry of `i_zone` is an entry of a table. -/
theorem Path.cases_entry (p : Path) : (∃ k, p = .zone k) ∨ ∃ (T : Table) (i : Fin 512),
    p = T.entry i := by
  cases p with
  | zone k => exact .inl ⟨k, rfl⟩
  | ind i => exact .inr ⟨.ind, i, rfl⟩
  | dind i => exact .inr ⟨.dind, i, rfl⟩
  | two i j => exact .inr ⟨.two i, j, rfl⟩

/-- The tree depends on the contents of its tables only. -/
theorem zoneAt_congr {data data' : ℕ → Block} {zone : ℕ → ℕ}
    (h : ∀ T : Table, zoneAt data zone T.path ≠ 0 →
      data' (zoneAt data zone T.path) = data (zoneAt data zone T.path)) (p : Path) :
    zoneAt data' zone p = zoneAt data zone p := by
  have hind (i : Fin 512) : zoneAt data' zone (.ind i) = zoneAt data zone (.ind i) :=
    tableAt_congr (h .ind) i
  have hdind (i : Fin 512) : zoneAt data' zone (.dind i) = zoneAt data zone (.dind i) :=
    tableAt_congr (h .dind) i
  cases p with
  | zone k => rfl
  | ind i => exact hind i
  | dind i => exact hdind i
  | two i j =>
    change tableAt data' (zoneAt data' zone (.dind i)) j = tableAt data
      (zoneAt data zone (.dind i)) j
    rw [hdind]
    exact tableAt_congr (h (.two i)) j

/-- The only place that is in use when `i_zone[0]` is the only zone number of the inode. -/
theorem eq_zone_zero {data : ℕ → Block} {zone : ℕ → ℕ} {p : Path} (h : ∀ k, k ≠ 0 → zone k = 0)
    (hp : zoneAt data zone p ≠ 0) : p = .zone 0 := by
  have htable (i : ℕ) : tableAt data 0 i = 0 := if_pos rfl
  cases p with
  | zone k =>
    by_cases hk : k.val = 0
    · exact congrArg Path.zone (Fin.ext hk)
    · exact absurd (h k hk) hp
  | ind i =>
    rw [zoneAt, h 7 (by omega), htable] at hp
    exact absurd rfl hp
  | dind i =>
    rw [zoneAt, h 8 (by omega), htable] at hp
    exact absurd rfl hp
  | two i j =>
    rw [zoneAt, h 8 (by omega), htable, htable] at hp
    exact absurd rfl hp

theorem tableAt_eq_zero {data : ℕ → Block} {t : ℕ} (h : t ≠ 0 → data t = zeroBlock) (i : ℕ) :
    tableAt data t i = 0 := by
  unfold tableAt
  split
  · rfl
  · rw [h ‹_›, word_zeroBlock]

/-- An empty block is stored as the number `z` at a vacant place of the inode. -/
theorem zoneAt_set_zone {data data' : ℕ → Block} {zone : ℕ → ℕ} {k : Fin 9} {z : ℕ}
    (hvacant : zone k = 0) (hz : data' z = zeroBlock)
    (hdata : ∀ T : Table, zoneAt data zone T.path ≠ 0 →
      data' (zoneAt data zone T.path) = data (zoneAt data zone T.path)) (p : Path) :
    zoneAt data' (Function.update zone k z) p = if p = .zone k then z else zoneAt data zone p := by
  -- The entries of a table of which the place is `i_zone[l]`.
  have htable {T : Table} {l : Fin 9} (hT : T.path = .zone l) (i : Fin 512) :
      tableAt data' (Function.update zone (k : ℕ) z l) i = tableAt data (zone l) i := by
    by_cases hl : (l : ℕ) = k
    · rw [hl, Function.update_self, hvacant, tableAt_eq_zero fun _ => hz, tableAt, if_pos rfl]
    · have hzone : zoneAt data zone T.path = zone l := by rw [hT]; rfl
      rw [Function.update_of_ne hl]
      exact tableAt_congr (hzone ▸ hdata T) i
  have hdind (i : Fin 512) := htable (T := .dind) (l := 8) rfl i
  cases p with
  | zone l =>
    change Function.update zone (k : ℕ) z l = _
    rw [Function.update_apply]
    exact if_congr (by rw [Path.zone.injEq, Fin.ext_iff]) rfl rfl
  | ind i => exact htable (T := .ind) (l := 7) rfl i
  | dind i => exact hdind i
  | two i j =>
    change tableAt data' (tableAt data' (Function.update zone (k : ℕ) z 8) i) j = _
    rw [show tableAt data' (Function.update zone (k : ℕ) z 8) i = tableAt data (zone 8) i from hdind
      i]
    exact tableAt_congr (hdata (.two i)) j

/-- An empty block is stored as the number `z` at a vacant place of a table. -/
theorem zoneAt_set_entry {data data' : ℕ → Block} {zone : ℕ → ℕ} {T : Table} {k : Fin 512} {z : ℕ}
    (ht : zoneAt data zone T.path ≠ 0) (hvacant : zoneAt data zone (T.entry k) = 0)
    (hz : data' z = zeroBlock) (hlt : z < 65536)
    (htable : data' (zoneAt data zone T.path) = setWord (data (zoneAt data zone T.path)) k z)
    (hdata : ∀ T' : Table, T' ≠ T → zoneAt data zone T'.path ≠ 0 →
      data' (zoneAt data zone T'.path) = data (zoneAt data zone T'.path)) (p : Path) :
    zoneAt data' zone p = if p = T.entry k then z else zoneAt data zone p := by
  -- The entries of the tables whose places are kept.
  have hentry {T' : Table} (i : Fin 512)
      (hT' : zoneAt data' zone T'.path = zoneAt data zone T'.path) :
      zoneAt data' zone (T'.entry i) =
        if T'.entry i = T.entry k then z else zoneAt data zone (T'.entry i) := by
    rw [zoneAt_entry, zoneAt_entry, hT']
    by_cases hTT : T' = T
    · subst hTT
      rw [tableAt, if_neg ht, htable, word_setWord, Nat.mod_eq_of_lt hlt, tableAt, if_neg ht]
      refine if_congr ⟨fun hik => ?_, fun hik => ?_⟩ rfl rfl
      · rw [Fin.ext hik]
      · rw [(Table.entry_inj hik).2]
    · rw [if_neg fun h => hTT (Table.entry_inj h).1]
      exact tableAt_congr (hdata T' hTT) i
  cases p with
  | zone l =>
    rw [if_neg]
    · rfl
    · cases T <;> exact (nomatch ·)
  | ind i => exact @hentry .ind i rfl
  | dind i => exact @hentry .dind i rfl
  | two i j =>
    have hpath := @hentry .dind i rfl
    split_ifs at hpath with hi
    · -- The table of the entry is the new block.
      have hold : zoneAt data zone (.dind i) = 0 := by
        rw [show Path.dind i = T.entry k from hi]
        exact hvacant
      rw [if_neg]
      · change tableAt data' (zoneAt data' zone (.dind i)) j = tableAt data
          (zoneAt data zone (.dind i)) j
        rw [show zoneAt data' zone (.dind i) = z from hpath, hold, tableAt_eq_zero fun _ => hz]
        rfl
      · intro hij
        have hT : T = .dind := (Table.entry_inj (T := .dind) (i := i) hi).1.symm
        rw [hT] at hij
        cases hij
    · exact @hentry (.two i) j hpath

/-! ### Blocks of an inode -/

/-- The number of blocks that `_bmap` can address. -/
def maxBlocks : ℕ := 7 + 512 + 512 * 512

theorem row_lt {k : ℕ} (hk : k < maxBlocks) : (k - 7 - 512) / 512 < 512 := by
  unfold maxBlocks at hk
  omega

/-- The place where `_bmap` looks for block `m`. -/
def leafPath (m : ℕ) : Path :=
  if h : m < 7 then .zone ⟨m, lt_nine h⟩
  else if h : m - 7 < 512 then .ind ⟨m - 7, h⟩
  else .two (Fin.ofNat 512 ((m - 7 - 512) / 512)) (Fin.ofNat 512 ((m - 7 - 512) % 512))

theorem leafPath_direct {k : ℕ} (hk : k < 7) : leafPath k = .zone ⟨k, lt_nine hk⟩ := dif_pos hk

theorem leafPath_ind {k : ℕ} (hk : ¬k < 7) (hk' : k - 7 < 512) :
    leafPath k = Table.ind.entry ⟨k - 7, hk'⟩ := by
  rw [leafPath, dif_neg hk, dif_pos hk']
  rfl

theorem leafPath_dind {k : ℕ} (hk : ¬k < 7) (hk' : ¬k - 7 < 512) (hlt : (k - 7 - 512) / 512 < 512) :
    leafPath k =
      (Table.two ⟨(k - 7 - 512) / 512, hlt⟩).entry
        ⟨(k - 7 - 512) % 512, Nat.mod_lt _ (by omega)⟩ := by
  have hfirst : Fin.ofNat 512 ((k - 7 - 512) / 512) = ⟨(k - 7 - 512) / 512, hlt⟩ :=
    Fin.ext (Nat.mod_eq_of_lt hlt)
  have hlast : Fin.ofNat 512 ((k - 7 - 512) % 512) =
      ⟨(k - 7 - 512) % 512, Nat.mod_lt _ (by omega)⟩ :=
    Fin.ext (Nat.mod_mod _ _)
  rw [leafPath, dif_neg hk, dif_neg hk', hfirst, hlast]
  rfl

theorem leafPath_inj {m m' : ℕ} (hm : m < maxBlocks) (hm' : m' < maxBlocks)
    (h : leafPath m = leafPath m') : m = m' := by
  unfold maxBlocks at hm hm'
  unfold leafPath at h
  split_ifs at h
  · simpa using h
  · have := congrArg Fin.val (Path.ind.inj h)
    simp only at this
    omega
  · obtain ⟨h₁, h₂⟩ := Path.two.inj h
    have h₁ := congrArg Fin.val h₁
    have h₂ := congrArg Fin.val h₂
    simp only [Fin.val_ofNat] at h₁ h₂
    omega

/-- The places of blocks are not places of tables. -/
theorem leafPath_ne_path (m : ℕ) (T : Table) : leafPath m ≠ T.path := by
  unfold leafPath
  split_ifs <;> cases T <;> simp [Table.path, Fin.ext_iff] <;> omega

namespace View

variable (sb : Super) (V : View)

/-- The zone stored at the place `p` of the inode `n`. -/
def zoneAt (n : ℕ) (p : Path) : ℕ := Fs.zoneAt V.data (V.ino n).zone p

/-- The inode `n` is allocated. -/
def Alloc (n : ℕ) : Prop := 1 ≤ n ∧ n ≤ sb.ninodes ∧ V.imap n = true

instance (n : ℕ) : Decidable (V.Alloc sb n) := inferInstanceAs (Decidable (_ ∧ _))

/-- The inode `n` is an allocated regular file or directory: the zone numbers in it are zones. -/
def HasZones (n : ℕ) : Prop :=
  V.Alloc sb n ∧ (sIsreg (V.ino n).mode = true ∨ sIsdir (V.ino n).mode = true)

/-- The place `a.2` of the inode `a.1` holds the zone `z`. -/
def Owns (a : ℕ × Path) (z : ℕ) : Prop := V.HasZones sb a.1 ∧ V.zoneAt a.1 a.2 = z ∧ z ≠ 0

/-- The zone `z` is marked in the bitmap. -/
def Used (z : ℕ) : Prop := sb.firstdatazone ≤ z ∧ z < sb.nzones ∧ V.zmap (sb.bit z) = true

/-- The zones of the inodes are owned exclusively, with one that may be in hand, and bit 0 of the
bitmap, which stands for no zone, is set. -/
structure Owned (hand : Option ℕ) : Prop where
  exclusive : Exclusive (V.Owns sb) (V.Used sb) hand
  reserved : V.zmap 0 = true

/-- Block `m` of the inode `n`, or 0 if it is missing. -/
def leaf (n m : ℕ) : ℕ := if m < maxBlocks then V.zoneAt n (leafPath m) else 0

/-- The bytes of block `m` of the inode `n`. -/
def content (n m : ℕ) : Block := if V.leaf n m = 0 then zeroBlock else V.data (V.leaf n m)

end View

/-- An inode without its zones. -/
def Inode.bare (i : Inode) : Inode := { i with zone := fun _ => 0 }

theorem mode_of_bare {i i' : Inode} (h : i'.bare = i.bare) : i'.mode = i.mode := by
  have hbare := congrArg Inode.mode h
  exact hbare

namespace View

variable {sb : Super} {V V' : View} {n m : ℕ} {z : ℕ}

theorem firstdatazone_pos (sb : Super) : 2 ≤ sb.firstdatazone := by
  have := sb.layout
  omega

theorem leaf_ne_zero (h : V.leaf n m ≠ 0) :
    m < maxBlocks ∧ V.leaf n m = V.zoneAt n (leafPath m) := by
  unfold leaf at *
  split_ifs at h with hm
  · exact ⟨hm, if_pos hm⟩
  · exact absurd rfl h

theorem owns_leaf (hn : V.HasZones sb n) (h : V.leaf n m ≠ 0) :
    V.Owns sb (n, leafPath m) (V.leaf n m) :=
  ⟨hn, (leaf_ne_zero h).2.symm, h⟩

theorem owns_path (hn : V.HasZones sb n) {p : Path} (h : V.zoneAt n p ≠ 0) :
    V.Owns sb (n, p) (V.zoneAt n p) :=
  ⟨hn, rfl, h⟩

namespace Owned

variable {hand : Option ℕ}

theorem unique (h : V.Owned sb hand) {a b : ℕ × Path} (ha : V.Owns sb a z) (hb : V.Owns sb b z) :
    a = b :=
  h.exclusive.unique ha hb

/-- Blocks of inodes are stored at different zones. -/
theorem leaf_inj (h : V.Owned sb hand) {n' m' : ℕ} (hn : V.HasZones sb n)
    (hn' : V.HasZones sb n') (hz : V.leaf n m ≠ 0) (heq : V.leaf n m = V.leaf n' m') :
    n = n' ∧ m = m' := by
  have hz' : V.leaf n' m' ≠ 0 := heq ▸ hz
  obtain ⟨rfl, hp⟩ := Prod.mk.inj (h.unique (owns_leaf hn hz) (heq ▸ owns_leaf hn' hz'))
  exact ⟨rfl, leafPath_inj (leaf_ne_zero hz).1 (leaf_ne_zero hz').1 hp⟩

/-- A block of an inode is not a table of an inode. -/
theorem leaf_ne_table (h : V.Owned sb hand) {n' : ℕ} (hn : V.HasZones sb n)
    (hn' : V.HasZones sb n') (hz : V.leaf n m ≠ 0) (T : Table) :
    V.zoneAt n' T.path ≠ V.leaf n m := by
  intro heq
  have hT : V.Owns sb (n', T.path) (V.leaf n m) := ⟨hn', heq, hz⟩
  exact leafPath_ne_path m T (Prod.mk.inj (h.unique (owns_leaf hn hz) hT)).2

end Owned

/-- The trees of the inodes, when the contents of their tables are kept. -/
theorem zoneAt_congr (hino : (V'.ino n).zone = (V.ino n).zone)
    (hdata : ∀ T : Table, V.zoneAt n T.path ≠ 0 →
      V'.data (V.zoneAt n T.path) = V.data (V.zoneAt n T.path)) (p : Path) :
    V'.zoneAt n p = V.zoneAt n p := by
  unfold zoneAt
  rw [hino]
  exact Fs.zoneAt_congr hdata p

theorem leaf_congr (h : V'.zoneAt n (leafPath m) = V.zoneAt n (leafPath m)) :
    V'.leaf n m = V.leaf n m := by
  unfold leaf
  rw [h]

theorem content_congr (hleaf : V'.leaf n m = V.leaf n m)
    (hdata : V.leaf n m ≠ 0 → V'.data (V.leaf n m) = V.data (V.leaf n m)) :
    V'.content n m = V.content n m := by
  unfold content
  rw [hleaf]
  split
  · rfl
  · exact hdata ‹_›

theorem hasZones_congr (himap : V'.imap = V.imap) (hmode : (V'.ino n).mode = (V.ino n).mode) :
    V'.HasZones sb n ↔ V.HasZones sb n := by
  unfold HasZones Alloc
  rw [himap, hmode]

/-! ### Storing a new zone -/

/-- Missing zones may have been filled in, with empty blocks and tables; nothing else of the files
and directories has changed. -/
structure Extends (sb : Super) (V V' : View) : Prop where
  imap : V'.imap = V.imap
  bare : ∀ n, (V'.ino n).bare = (V.ino n).bare
  leaf : ∀ n m, V.HasZones sb n → V.leaf n m ≠ 0 → V'.leaf n m = V.leaf n m
  content : ∀ n m, V.HasZones sb n → V'.content n m = V.content n m

namespace Extends

theorem refl : V.Extends sb V := ⟨rfl, fun _ => rfl, fun _ _ _ _ => rfl, fun _ _ _ => rfl⟩

theorem mode (h : V.Extends sb V') (n : ℕ) : (V'.ino n).mode = (V.ino n).mode :=
  mode_of_bare (h.bare n)

theorem size (h : V.Extends sb V') (n : ℕ) : (V'.ino n).size = (V.ino n).size := by
  have hbare := congrArg Inode.size (h.bare n)
  exact hbare

theorem hasZones (h : V.Extends sb V') : V'.HasZones sb n ↔ V.HasZones sb n :=
  hasZones_congr h.imap (h.mode n)

theorem trans {V'' : View} (h : V.Extends sb V') (h' : V'.Extends sb V'') : V.Extends sb V'' where
  imap := h'.imap.trans h.imap
  bare n := (h'.bare n).trans (h.bare n)
  leaf n m hn hz := by
    have hleaf := h.leaf n m hn hz
    exact (h'.leaf n m (h.hasZones.mpr hn) (hleaf ▸ hz)).trans hleaf
  content n m hn := (h'.content n m (h.hasZones.mpr hn)).trans (h.content n m hn)

end Extends

/-- The zone `z`, an empty block, has been stored at the vacant place `a`. -/
structure Attached (sb : Super) (V V' : View) (a : ℕ × Path) (z : ℕ) : Prop where
  imap : V'.imap = V.imap
  zmap : V'.zmap = V.zmap
  bare : ∀ n, (V'.ino n).bare = (V.ino n).bare
  place : V.HasZones sb a.1
  vacant : V.zoneAt a.1 a.2 = 0
  zoneAt : ∀ n p, V.HasZones sb n → V'.zoneAt n p = if (n, p) = a then z else V.zoneAt n p
  data : ∀ n m, V.HasZones sb n → V.leaf n m ≠ 0 → V'.data (V.leaf n m) = V.data (V.leaf n m)
  fresh : V'.data z = zeroBlock

namespace Attached

variable {a : ℕ × Path}

theorem hasZones (h : V.Attached sb V' a z) : V'.HasZones sb n ↔ V.HasZones sb n :=
  hasZones_congr h.imap (mode_of_bare (h.bare n))

/-- The zone in hand is owned by the place where it has been stored. -/
theorem owned (h : V.Attached sb V' a z) (hO : V.Owned sb (some z)) : V'.Owned sb none where
  exclusive := by
    have hgive : Exclusive (V'.Owns sb) (V.Used sb) none := by
      refine hO.exclusive.give (c := a) fun b w ⟨hn, hw, hw0⟩ => ?_
      obtain ⟨n, p⟩ := b
      rw [h.hasZones] at hn
      rw [h.zoneAt n p hn] at hw
      split_ifs at hw with hnp
      · exact .inr ⟨hnp, hw.symm⟩
      · exact .inl ⟨hn, hw, hw0⟩
    refine hgive.mono (fun _ _ => id) fun w hw => ?_
    unfold Used
    rwa [h.zmap]
  reserved := h.zmap ▸ hO.reserved

theorem extended (h : V.Attached sb V' a z) : V.Extends sb V' := by
  have hleaf (n m : ℕ) (hn : V.HasZones sb n) (hz : V.leaf n m ≠ 0) : V'.leaf n m = V.leaf n m := by
    refine leaf_congr ?_
    rw [h.zoneAt n _ hn, if_neg]
    rintro rfl
    exact hz ((leaf_ne_zero hz).2.trans h.vacant)
  refine ⟨h.imap, h.bare, hleaf, fun n m hn => ?_⟩
  by_cases hz : V.leaf n m = 0
  · -- The block was missing. If it is the new one, it is empty.
    have hzero : V.content n m = zeroBlock := if_pos hz
    rw [hzero]
    unfold content
    split
    · rfl
    · have hl := leaf_ne_zero ‹_›
      have hnew := h.zoneAt n (leafPath m) hn
      split_ifs at hnew with ha
      · rw [hl.2, hnew, h.fresh]
      · exact absurd (hl.2.trans (hnew.trans ((if_pos hl.1).symm.trans hz))) ‹_›
  · exact content_congr (hleaf n m hn hz) fun _ => h.data n m hn hz

end Attached

end View

end Linux001.Fs
