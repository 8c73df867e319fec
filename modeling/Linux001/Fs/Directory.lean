import Linux001.Fs.DirectoryBlocks
import Linux001.Fs.Searches
import Mathlib.Data.List.GetD
import Mathlib.Order.Interval.Finset.Nat

/-!
# A directory is a finite map

The model of `find_entry` and `add_entry` of `fs/namei.c` for one directory whose transfers all
succeed, with what their callers do: they store the number of an inode in the entry that has been
added, and 0 in one that they remove. Names are parts of path names: they have no zero bytes.

## Main definitions

* `findEntry`, `addEntry`: the functions.
* `Op`, `runs`: sequences of additions and removals.
* `recorded`: what has been stored last under a name.
* `Represents`: the directory has the entries of a map.

## Main results

* `Represents.find`, `Represents.run`: a search and an operation.
* `directory_map`: what is found after any sequence of operations.
-/

namespace Linux001.Fs.Directory

/-! ### `find_entry` -/

/-- The block of the `i`-th entry in `find_entry`: `bh` until its entries are used up, then the
next one, which may be missing. -/
def findBlock (i : ℕ) (bh : Option ℕ) : D (Option ℕ) :=
  if i % 64 = 0 ∧ i ≠ 0 then do
    let block ← bmap (i / 64)
    pure (if block = 0 then none else some block)
  else pure bh

/-- The loop of `find_entry` from entry `i` on. Every turn uses up at least one of the `entries`,
which bounds their number by `fuel`. -/
def findFrom (name : List UInt8) (entries : ℕ) : ℕ → ℕ → Option ℕ → D (Option (ℕ × ℕ))
  | 0, _, _ => pure none
  | fuel + 1, i, bh =>
    if i < entries then do
      match ← findBlock i bh with
      | none => findFrom name entries fuel (i + 64) none
      | some z => do
        let d ← get
        if matchEntry name (d.data z) (i % 64) then pure (some (z, i % 64))
        else findFrom name entries fuel (i + 1) (some z)
    else pure none

/-- `find_entry(dir, name, namelen, res_dir)`: the block of the entry, and its index there. -/
def findEntry (name : List UInt8) : D (Option (ℕ × ℕ)) := do
  let d ← get
  if name.take 14 = [] then pure none
  else if d.zone 0 = 0 then pure none
  else findFrom (name.take 14) (d.size / 16) (d.size / 16) 0 (some (d.zone 0))

/-! ### `add_entry` -/

/-- The block of the `i`-th entry in `add_entry`, created when it is missing. -/
def addBlock (i bh : ℕ) : D (Option ℕ) :=
  if i % 64 = 0 ∧ i ≠ 0 then do
    let block ← createBlock (i / 64)
    pure (if block = 0 then none else some block)
  else pure (some bh)

/-- Stores to a block. -/
def store (z : ℕ) (f : Block → Block) (d : Dir) : Dir :=
  { d with data := Function.update d.data z (f (d.data z)) }

/-- Beyond the end of the directory, `add_entry` clears the entry and moves the end behind it. -/
def grow (i z : ℕ) (d : Dir) : Dir :=
  if d.size ≤ i * 16 then
    { store z (fun b => setEntryInode b (i % 64) 0) d with size := (i + 1) * 16 }
  else d

/-- The loop of `add_entry` from entry `i` on. The first entry beyond the end of the directory is
taken at the latest, so that `i_size / 16 + 1` turns are enough. -/
def addFrom (name : List UInt8) : ℕ → ℕ → ℕ → D (Option (ℕ × ℕ))
  | fuel, i, bh => do
    match ← addBlock i bh with
    | none => pure none
    | some z => do
      modify (grow i z)
      let d ← get
      if entryInode (d.data z) (i % 64) = 0 then do
        modify (store z fun b =>
          setEntryName b (i % 64) ((List.range 14).map fun j => name.getD j 0))
        pure (some (z, i % 64))
      else
        match fuel with
        | 0 => throw (.panic "add_entry: end of directory")
        | fuel + 1 => addFrom name fuel (i + 1) z

/-- `add_entry(dir, name, namelen, res_dir)`. -/
def addEntry (name : List UInt8) : D (Option (ℕ × ℕ)) := do
  let d ← get
  if name.take 14 = [] then pure none
  else if d.zone 0 = 0 then pure none
  else addFrom (name.take 14) (d.size / 16 + 1) 0 (d.zone 0)

/-! ### Sequences of operations -/

/-- A name in a path: not empty and without zero bytes. -/
structure Name where
  bytes : List UInt8
  ne_nil : bytes ≠ []
  zero_notMem : 0 ∉ bytes

/-- What an entry has of a name. -/
def Name.key (nm : Name) : List UInt8 := nm.bytes.take 14

/-- The operations on a directory. An entry in use has the number of an inode, which is not 0. -/
inductive Op
  | add (nm : Name) (n : UInt16) (hn : n ≠ 0)
  | remove (nm : Name)

/-- The name of an operation. -/
def Op.name : Op → Name
  | .add nm _ _ => nm
  | .remove nm => nm

/-- `de->inode = n`. -/
def setDe (de : ℕ × ℕ) (n : ℕ) : D Unit := modify (store de.1 fun b => setEntryInode b de.2 n)

/-- An operation, and whether it has been done: an entry is not added if `find_entry` finds one or
`add_entry` returns `NULL`, and not removed if `find_entry` finds none. -/
def Op.run : Op → D Bool
  | .add nm n _ => do
    match ← findEntry nm.bytes with
    | some _ => pure false
    | none => do
      match ← addEntry nm.bytes with
      | none => pure false
      | some de => do
        setDe de n.toNat
        pure true
  | .remove nm => do
    match ← findEntry nm.bytes with
    | none => pure false
    | some de => do
      setDe de 0
      pure true

/-- A sequence of operations, and which of them have been done. -/
def runs : List Op → D (List Bool)
  | [] => pure []
  | op :: ops => do
    let done ← op.run
    let rest ← runs ops
    pure (done :: rest)

/-! ### The map -/

/-- A finite map from names to numbers of inodes. -/
abbrev Entries := List UInt8 → Option ℕ

/-- The map after an operation. -/
def Op.apply (M : Entries) : Op → Entries
  | .add nm n _ => Function.update M nm.key (some n.toNat)
  | .remove nm => Function.update M nm.key none

/-- The operation can be done: a name that is not there is added, and one that is there removed. -/
def Op.possible (M : Entries) : Op → Bool
  | .add nm _ _ => (M nm.key).isNone
  | .remove nm => (M nm.key).isSome

/-- The map after the operations that have been done. -/
def recorded : Entries → List Op → List Bool → Entries
  | M, op :: ops, done :: rest => recorded (if done then op.apply M else M) ops rest
  | M, _, _ => M

/-- Which operations can be done, one after the other. -/
def expected : Entries → List Op → List Bool
  | _, [] => []
  | M, op :: ops =>
    op.possible M :: expected (if op.possible M then op.apply M else M) ops

/-- `find_entry` returns, and finds an entry with the number of an inode, or none. -/
def Finds (d : Dir) (nm : Name) (r : Option ℕ) : Prop :=
  ∃ de, findEntry nm.bytes d = .ok (de, d) ∧
    de.map (fun de => entryInode (d.data de.1) de.2) = r

/-! ### Entries -/

namespace Dir

variable (d : Dir)

/-- The inode number of the `i`-th entry. -/
def inode (i : ℕ) : ℕ := entryInode (d.data (d.leaf (i / 64))) (i % 64)

/-- A byte of the name of the `i`-th entry. -/
def nameAt (i j : ℕ) : UInt8 := entryName (d.data (d.leaf (i / 64))) (i % 64) j

/-- The `i`-th entry is in use and has the name `key`, which is filled up with zeros. -/
def Has (i : ℕ) (key : List UInt8) : Prop :=
  d.inode i ≠ 0 ∧ ∀ j < 14, d.nameAt i j = key.getD j 0

/-- The blocks of the first `m` entries, which are all entries of the directory. -/
structure Formed (m : ℕ) : Prop where
  sound : d.Sound
  size : d.size = 16 * m
  first : d.zone 0 ≠ 0
  mapped : ∀ k, 64 * k < m → d.leaf k ≠ 0

end Dir

/-- A name as an entry has it: not empty, at most 14 bytes, none of them zero. -/
structure IsKey (key : List UInt8) : Prop where
  ne_nil : key ≠ []
  zero_notMem : 0 ∉ key
  length_le : key.length ≤ 14

/-- The directory has the entries of the map `M`, each at one place. -/
structure Represents (d : Dir) (m : ℕ) (M : Entries) : Prop extends d.Formed m where
  keys : ∀ i < m, d.inode i ≠ 0 → ∃ key, IsKey key ∧ d.Has i key
  unique : ∀ i < m, ∀ j < m, ∀ key, d.Has i key → d.Has j key → i = j
  map : ∀ key, IsKey key → ∀ n, M key = some n ↔ ∃ i < m, d.Has i key ∧ d.inode i = n

variable {d d' d₁ : Dir} {m i j k z n : ℕ} {M : Entries} {key key' : List UInt8} {nm : Name}

theorem Name.isKey (nm : Name) : IsKey nm.key := by
  refine ⟨?_, fun h => nm.zero_notMem (List.mem_of_mem_take h), List.length_take_le 14 _⟩
  rw [Name.key, ne_eq, List.take_eq_nil_iff, not_or]
  exact ⟨by omega, nm.ne_nil⟩

theorem IsKey.getD_ne (h : IsKey key) (hj : j < key.length) : key.getD j 0 ≠ 0 := by
  rw [List.getD_eq_getElem _ _ hj]
  exact fun h0 => h.zero_notMem (h0 ▸ List.getElem_mem hj)

theorem getD_of_length_le (h : key.length ≤ j) : key.getD j 0 = 0 :=
  List.getD_eq_default _ _ h

/-- Names that are filled up with zeros are the same only if the names are. -/
theorem IsKey.ext (h : IsKey key) (h' : IsKey key')
    (heq : ∀ j < 14, key.getD j 0 = key'.getD j 0) : key = key' := by
  -- No byte of one name is beyond the end of the other one.
  have hle : ∀ {a b : List UInt8}, IsKey a → (∀ j < 14, a.getD j 0 = b.getD j 0) →
      a.length ≤ b.length := fun {a b} ha hab => by
    by_contra hlt
    have hlen := ha.length_le
    refine ha.getD_ne (j := b.length) (by omega) ((hab _ (by omega)).trans ?_)
    exact getD_of_length_le le_rfl
  have hlength := le_antisymm (hle h heq) (hle h' fun j hj => (heq j hj).symm)
  refine List.ext_getElem hlength fun j hj hj' => ?_
  rw [← List.getD_eq_getElem _ 0 hj, ← List.getD_eq_getElem _ 0 hj']
  exact heq j (hj.trans_le h.length_le)

/-- What `match` finds out about an entry that has a name. -/
theorem matchEntry_iff {b : Block} (h : IsKey key) (hname : entryInode b k ≠ 0 →
    ∃ key', IsKey key' ∧ ∀ j < 14, entryName b k j = key'.getD j 0) :
    matchEntry key b k = true ↔
      entryInode b k ≠ 0 ∧ ∀ j < 14, entryName b k j = key.getD j 0 := by
  simp only [matchEntry, Bool.and_eq_true, Bool.or_eq_true, decide_eq_true_eq, List.all_eq_true,
    List.mem_range]
  constructor
  · rintro ⟨⟨⟨hne, -⟩, hlast⟩, hbytes⟩
    refine ⟨hne, fun j hj => ?_⟩
    rcases Nat.lt_or_ge j key.length with hlt | hge
    · exact hbytes j hlt
    · -- The entry has no bytes behind the zero.
      obtain ⟨key', hkey', heq⟩ := hname hne
      have hzero : key'.getD key.length 0 = 0 := by
        rw [← heq _ (by omega)]
        exact hlast.resolve_left (by omega)
      have hlength : key'.length ≤ key.length := by
        by_contra hlt
        exact hkey'.getD_ne (by omega) hzero
      rw [heq j hj, getD_of_length_le hge, getD_of_length_le (hlength.trans hge)]
  · rintro ⟨hne, heq⟩
    refine ⟨⟨⟨hne, h.length_le⟩, ?_⟩, fun j hj => heq j (hj.trans_le h.length_le)⟩
    rcases Nat.lt_or_ge key.length 14 with hlt | hge
    · exact .inr ((heq _ hlt).trans (getD_of_length_le le_rfl))
    · exact .inl (le_antisymm h.length_le hge)

/-! ### Blocks of entries -/

theorem Dir.Sound.place_lt (h : d.Sound) (p : Path) : d.place p < 65536 := by
  rcases p.cases_entry with ⟨k, rfl⟩ | ⟨T, i, rfl⟩
  · exact h.zone_lt k k.isLt
  · rw [Dir.place, zoneAt_entry, tableAt]
    split_ifs
    · omega
    · exact word_lt _ _

/-- There are no more blocks with zones than zones. -/
theorem Dir.Formed.block_lt (h : d.Formed m) (hk : 64 * k < m) : k < 65536 := by
  by_contra hge
  have hne : ∀ b < 65536, d.leaf b ≠ 0 := fun b hb => h.mapped b (by omega)
  have hmaps : Set.MapsTo d.leaf (Finset.range 65536) (Finset.Ico 1 65536) := fun b hb => by
    rw [Finset.mem_coe, Finset.mem_range] at hb
    rw [Finset.mem_coe, Finset.mem_Ico]
    exact ⟨Nat.one_le_iff_ne_zero.mpr (hne b hb), h.sound.place_lt _⟩
  have hinj : Set.InjOn d.leaf (Finset.range 65536) := fun b hb b' hb' heq => by
    rw [Finset.mem_coe, Finset.mem_range] at hb hb'
    refine leafPath_inj ?_ ?_ (h.sound.distinct _ _ heq (hne b hb))
    · rw [maxBlocks]
      omega
    · rw [maxBlocks]
      omega
  have hcard := Finset.card_le_card_of_injOn d.leaf hmaps hinj
  rw [Finset.card_range, Nat.card_Ico] at hcard
  omega

/-- The block of an entry, and the block behind the last entry, are not too big for `_bmap`. -/
theorem Dir.Formed.lt_maxBlocks (h : d.Formed m) (hi : i ≤ m) : i / 64 < maxBlocks := by
  rw [maxBlocks]
  by_contra hge
  have := h.block_lt (k := i / 64 - 1) (by omega)
  omega

theorem Dir.Formed.leaf_ne (h : d.Formed m) (hi : i < m) : d.leaf (i / 64) ≠ 0 :=
  h.mapped _ (by omega)

theorem leaf_zero (d : Dir) : d.leaf 0 = d.zone 0 := rfl

/-! ### Searching -/

/-- The buffer that the loops have before they look at an entry. -/
def Dir.At (d : Dir) (i z : ℕ) : Prop := i % 64 ≠ 0 ∨ i = 0 → z = d.leaf (i / 64)

theorem Dir.At.next (d : Dir) (i : ℕ) : d.At (i + 1) (d.leaf (i / 64)) := fun h => by
  have hdiv : (i + 1) / 64 = i / 64 := by omega
  rw [hdiv]

/-- What `match` finds out about an entry. -/
theorem Represents.matchEntry_iff (h : Represents d m M) (hkey : IsKey key) (hi : i < m) :
    matchEntry key (d.data (d.leaf (i / 64))) (i % 64) = true ↔ d.Has i key :=
  Directory.matchEntry_iff hkey fun hne => by
    obtain ⟨key', hkey', -, heq⟩ := h.keys i hi hne
    exact ⟨key', hkey', heq⟩

section Search

variable {v : Inode} {data : ℕ → Block} {free : List ℕ} {bh : Option ℕ}

theorem findBlock_eq (h : v.Fits) (hi : i < v.size / 16) (hbh : v.At data i bh) :
    findBlock i bh ⟨v.size, v.zone, data, free⟩ = .ok
      (if v.block data (i / 64) = 0 then none else some (v.block data (i / 64)),
        ⟨v.size, v.zone, data, free⟩) := by
  rw [findBlock]
  by_cases hnext : i % 64 = 0 ∧ i ≠ 0
  · rw [if_pos hnext, run_bind (bmap_eq (h.lt_maxBlocks hi) _)]
    rfl
  · obtain ⟨rfl, hne⟩ := hbh (by omega)
    rw [if_neg hnext, if_neg hne]
    rfl

/-- The loop of `find_entry` finds the first entry that matches. -/
theorem findFrom_eq (h : v.Fits) (name : List UInt8) (free : List ℕ) (fuel : ℕ)
    (hfuel : v.size / 16 ≤ i + fuel) (hbh : v.At data i bh) :
    ∃ r, findFrom name (v.size / 16) fuel i bh ⟨v.size, v.zone, data, free⟩ =
        .ok (r, ⟨v.size, v.zone, data, free⟩) ∧
      v.Found data name i r := by
  induction fuel generalizing i bh with
  | zero => exact ⟨none, rfl, .inl ⟨rfl, fun j hj hlt => by omega⟩⟩
  | succ fuel ih =>
    rw [findFrom]
    by_cases hi : i < v.size / 16
    swap
    · rw [if_neg hi]
      exact ⟨none, rfl, .inl ⟨rfl, fun j hj hlt => by omega⟩⟩
    rw [if_pos hi, run_bind (findBlock_eq h hi hbh)]
    by_cases h0 : v.block data (i / 64) = 0
    · have hnext : i % 64 = 0 := by
        by_contra hne
        exact (hbh (.inl hne)).2 h0
      rw [if_pos h0]
      have hat : v.At data (i + 64) none := fun hnot => by omega
      obtain ⟨r, hrun, hr⟩ := ih (by omega) hat
      refine ⟨r, hrun, hr.skip (by omega) fun j hj hlt => ?_⟩
      have hdiv : j / 64 = i / 64 := by omega
      rw [Inode.matchesAt, hdiv, h0]
      rfl
    · rw [if_neg h0]
      change ∃ r, (ite (matchEntry name (data (v.block data (i / 64))) (i % 64) = true)
        (pure _ : D _) (_ : D _) : D _) _ = _ ∧ _
      rw [← Inode.matchesAt_of_ne h0]
      split_ifs with hmatch
      · exact ⟨_, rfl, .inr ⟨i, le_rfl, hi, hmatch, fun j hj hlt => by omega, rfl⟩⟩
      · obtain ⟨r, hrun, hr⟩ := ih (by omega) (.next h0)
        refine ⟨r, hrun, hr.skip (Nat.le_succ i) fun j hj hlt => ?_⟩
        obtain rfl : j = i := by omega
        exact Bool.eq_false_iff.mpr hmatch

theorem findEntry_find (h : v.Fits) (name : List UInt8) :
    findEntry name ⟨v.size, v.zone, data, free⟩ =
      .ok (v.find data name, ⟨v.size, v.zone, data, free⟩) := by
  have hnil : name.take 14 = [] ↔ name = [] := by
    rw [List.take_eq_nil_iff, or_iff_right (by omega)]
  change (ite (name.take 14 = []) (pure none : D _) (ite (v.zone 0 = 0) (pure none : D _)
    (findFrom (name.take 14) (v.size / 16) (v.size / 16) 0 (some (v.zone 0)))) : D _) _ = _
  rw [Inode.find]
  by_cases hname : name = []
  · rw [if_pos (hnil.mpr hname), if_pos (.inl hname)]
    rfl
  by_cases h0 : v.zone 0 = 0
  · rw [if_neg (hnil.not.mpr hname), if_pos h0, if_pos (.inr h0)]
    rfl
  have hat : v.At data 0 (some (v.zone 0)) := fun _ => ⟨rfl, h0⟩
  obtain ⟨r, hrun, hr⟩ := findFrom_eq h (name.take 14) free (v.size / 16) (Nat.zero_add _).ge hat
  rw [if_neg (hnil.not.mpr hname), if_neg h0, if_neg (not_or.mpr ⟨hname, h0⟩), hrun, hr.eq]

/-- `find_entry` of the calls, on buffers, returns what it returns here. -/
theorem succeeds_findEntry {sb : Super} {s : State} (h : s.cache.Held [])
    (hfits : (s.ino n).Fits) (name : List UInt8) (free : List ℕ) :
    Succeeds (Fs.findEntry sb n name) s fun r s' => Cached s s' (entryBuffer r) ∧
      findEntry name ⟨(s.ino n).size, (s.ino n).zone, s.data, free⟩ =
        .ok (r, ⟨(s.ino n).size, (s.ino n).zone, s.data, free⟩) :=
  (Fs.succeeds_findEntry h hfits name).mono fun _ _ ⟨hr, hs'⟩ =>
    ⟨hs', hr ▸ findEntry_find hfits name⟩

end Search

/-- `find_entry` finds an entry with the name if there is one. -/
theorem findEntry_eq (h : Represents d m M) (nm : Name) :
    ∃ r, findEntry nm.bytes d = .ok (r, d) ∧ (r = none ∧ M nm.key = none ∨
      ∃ i < m, d.Has i nm.key ∧ r = some (d.leaf (i / 64), i % 64) ∧
        M nm.key = some (d.inode i)) := by
  have hkey := nm.isKey
  let v : Inode := { Inode.zero with size := d.size, zone := d.zone }
  have hsize : v.size = 16 * m := h.size
  have hfits : v.Fits := by
    have hlt := h.lt_maxBlocks le_rfl
    rw [Inode.Fits, hsize]
    omega
  have hmatches {i : ℕ} (hi : i < m) : v.matchesAt d.data nm.key i = true ↔ d.Has i nm.key := by
    have hne : v.block d.data (i / 64) ≠ 0 := h.leaf_ne hi
    rw [← h.matchEntry_iff hkey hi, Inode.matchesAt_of_ne hne]
    rfl
  refine ⟨_, findEntry_find hfits nm.bytes, ?_⟩
  rw [Inode.find, if_neg (not_or.mpr ⟨nm.ne_nil, h.first⟩)]
  cases hfind : (List.range (v.size / 16)).find? (v.matchesAt d.data (nm.bytes.take 14)) with
  | none =>
    refine .inl ⟨rfl, Option.eq_none_iff_forall_ne_some.mpr fun n hn => ?_⟩
    obtain ⟨i, hi, hhas, -⟩ := (h.map nm.key hkey n).mp hn
    exact List.find?_eq_none.mp hfind i (List.mem_range.mpr (by omega)) ((hmatches hi).mpr hhas)
  | some i =>
    have hi : i < m := by
      have := List.mem_range.mp (List.mem_of_find?_eq_some hfind)
      omega
    have hhas := (hmatches hi).mp (List.find?_some hfind)
    exact .inr ⟨i, hi, hhas, rfl, (h.map nm.key hkey _).mpr ⟨i, hi, hhas, rfl⟩⟩

/-- A search finds what the map has. -/
theorem Represents.find (h : Represents d m M) (nm : Name) : Finds d nm (M nm.key) := by
  obtain ⟨r, hrun, hr⟩ := findEntry_eq h nm
  refine ⟨r, hrun, ?_⟩
  rcases hr with ⟨rfl, hnone⟩ | ⟨i, -, -, rfl, hsome⟩
  · exact hnone.symm
  · exact hsome.symm

/-! ### Writing an entry -/

/-- A change of a block that leaves all entries but one alone. -/
def Touches (f : Block → Block) (k : ℕ) : Prop := ∀ b j, j ≠ k →
  entryInode (f b) j = entryInode b j ∧ ∀ t < 14, entryName (f b) j t = entryName b j t

/-- The name of an entry, filled up with zeros. -/
def padded (key : List UInt8) : List UInt8 := (List.range 14).map fun j => key.getD j 0

theorem length_padded (key : List UInt8) : (padded key).length = 14 := by
  rw [padded, List.length_map, List.length_range]

theorem getD_padded (key : List UInt8) (hj : j < 14) : (padded key).getD j 0 = key.getD j 0 := by
  rw [List.getD_eq_getElem _ _ (by rw [length_padded]; exact hj)]
  simp only [padded, List.getElem_map, List.getElem_range]

theorem touches_setEntryInode (k n : ℕ) : Touches (fun b => setEntryInode b k n) k := fun b j hj =>
  ⟨entryInode_setEntryInode_of_ne hj, fun _ ht => entryName_setEntryInode b k n j ht⟩

theorem touches_setEntryName (k : ℕ) (key : List UInt8) :
    Touches (fun b => setEntryName b k (padded key)) k := fun _ j hj =>
  ⟨entryInode_setEntryName (length_padded key).le j,
    fun _ ht => entryName_setEntryName_of_ne (length_padded key).le hj ht⟩

theorem Touches.comp {f g : Block → Block} (hg : Touches g k) (hf : Touches f k) :
    Touches (g ∘ f) k := fun b j hj =>
  ⟨(hg (f b) j hj).1.trans (hf b j hj).1,
    fun t ht => ((hg (f b) j hj).2 t ht).trans ((hf b j hj).2 t ht)⟩

/-- The block `z` of the `k`-th entry has been changed in a directory that may have grown before. -/
def Written (d d' : Dir) (m z k : ℕ) (f : Block → Block) : Prop :=
  ∃ d₁, Grown d d₁ ∧ d₁.leaf (k / 64) = z ∧ z ≠ 0 ∧
    d' = { store z f d₁ with size := 16 * max m (k + 1) }

/-- Stores to a block of the directory change no table. -/
theorem place_store (h : d.Sound) (hk : d.leaf k ≠ 0) (f : Block → Block) (p : Path) :
    (store (d.leaf k) f d).place p = d.place p := by
  refine zoneAt_congr (fun T hT => Function.update_of_ne (fun heq => ?_) ..) p
  exact leafPath_ne_path k T (h.distinct _ _ heq.symm hk)

theorem Dir.Sound.store (h : d.Sound) (hk : d.leaf k ≠ 0) (f : Block → Block) (size : ℕ) :
    Dir.Sound { Directory.store (d.leaf k) f d with size := size } where
  distinct p q heq hne := by
    change (Directory.store (d.leaf k) f d).place p =
      (Directory.store (d.leaf k) f d).place q at heq
    change (Directory.store (d.leaf k) f d).place p ≠ 0 at hne
    rw [place_store h hk] at hne
    rw [place_store h hk, place_store h hk] at heq
    exact h.distinct p q heq hne
  zone_lt := h.zone_lt
  nodup := h.nodup
  free_ne := h.free_ne
  fresh z hz p := by
    change (Directory.store (d.leaf k) f d).place p ≠ z
    rw [place_store h hk]
    exact h.fresh z hz p

/-- The `i`-th entry has been written, and no other one. -/
structure Rewritten (d d' : Dir) (m m' i : ℕ) : Prop extends d'.Formed m' where
  le : m ≤ m'
  lt : i < m'
  old : ∀ j < m', j ≠ i → j < m
  inode : ∀ j < m, j ≠ i → d'.inode j = d.inode j
  nameAt : ∀ j < m, j ≠ i → ∀ t < 14, d'.nameAt j t = d.nameAt j t

theorem Rewritten.has_iff {m' : ℕ} (h : Rewritten d d' m m' i) (hj : j < m) (hne : j ≠ i) :
    d'.Has j key ↔ d.Has j key := by
  rw [Dir.Has, Dir.Has, h.inode j hj hne]
  refine and_congr_right fun _ => forall₂_congr fun t ht => ?_
  rw [h.nameAt j hj hne t ht]

/-- What has been written is there, and the other entries are what they were. -/
theorem Written.rewritten {f : Block → Block} (h : d.Formed m) (hw : Written d d' m z k f)
    (hf : Touches f (k % 64)) (hk : k ≤ m) : Rewritten d d' m (max m (k + 1)) k ∧
      (∃ b, d'.inode k = entryInode (f b) (k % 64) ∧
        ∀ t, d'.nameAt k t = entryName (f b) (k % 64) t) := by
  obtain ⟨d₁, hgrown, rfl, hne, hd'⟩ := hw
  have hleaf : ∀ b, d'.leaf b = d₁.leaf b := fun b => by
    rw [hd']
    exact place_store hgrown.sound hne f _
  have hdata : d'.data =
      Function.update d₁.data (d₁.leaf (k / 64)) (f (d₁.data (d₁.leaf (k / 64)))) := by
    rw [hd']
    rfl
  -- The block that an entry is in afterwards.
  have hself : ∀ j, j / 64 = k / 64 →
      d'.data (d'.leaf (j / 64)) = f (d₁.data (d₁.leaf (j / 64))) := fun j hj => by
    rw [hleaf, hdata, hj, Function.update_self]
  have hother : ∀ j < m, j / 64 ≠ k / 64 →
      d'.data (d'.leaf (j / 64)) = d₁.data (d₁.leaf (j / 64)) := fun j hj hjk => by
    rw [hleaf, hdata, Function.update_of_ne]
    refine fun heq => hjk (leafPath_inj (h.lt_maxBlocks hj.le) (h.lt_maxBlocks hk) ?_)
    exact hgrown.sound.distinct _ _ heq (hgrown.leaf_ne (h.leaf_ne hj))
  have hold : ∀ j < m, d₁.data (d₁.leaf (j / 64)) = d.data (d.leaf (j / 64)) := fun j hj => by
    rw [hgrown.leaf (h.leaf_ne hj), hgrown.data _ (h.leaf_ne hj)]
  refine ⟨⟨⟨?_, by rw [hd'], ?_, fun b hb => ?_⟩, le_max_left _ _, by omega,
    fun j hj hjk => by omega, fun j hj hjk => ?_, fun j hj hjk t ht => ?_⟩,
    d₁.data (d₁.leaf (k / 64)), ?_, fun t => ?_⟩
  · rw [hd']
    exact hgrown.sound.store hne f _
  · change d'.leaf 0 ≠ 0
    rw [hleaf]
    exact hgrown.leaf_ne h.first
  · rw [hleaf]
    rcases Nat.lt_or_ge (64 * b) m with hlt | hge
    · exact hgrown.leaf_ne (h.mapped b hlt)
    · obtain rfl : b = k / 64 := by omega
      exact hne
  · rw [Dir.inode, Dir.inode, ← hold j hj]
    by_cases hblock : j / 64 = k / 64
    · rw [hself j hblock]
      exact (hf _ _ (by omega)).1
    · rw [hother j hj hblock]
  · rw [Dir.nameAt, Dir.nameAt, ← hold j hj]
    by_cases hblock : j / 64 = k / 64
    · rw [hself j hblock]
      exact (hf _ _ (by omega)).2 t ht
    · rw [hother j hj hblock]
  · rw [Dir.inode, hself k rfl]
  · rw [Dir.nameAt, hself k rfl]

/-- Another change of the same block. -/
theorem Written.comp {f : Block → Block} (hw : Written d d' m z k f) (g : Block → Block) :
    Written d (store z g d') m z k (g ∘ f) := by
  obtain ⟨d₁, hgrown, hz, hne, rfl⟩ := hw
  refine ⟨d₁, hgrown, hz, hne, ?_⟩
  simp only [store, Function.update_self, Function.update_idem, Function.comp_apply]

theorem Written.of_grown {f : Block → Block} (hg : Grown d d₁) (hw : Written d₁ d' m z k f) :
    Written d d' m z k f := by
  obtain ⟨d₂, hgrown, hz, hne, hd'⟩ := hw
  exact ⟨d₂, hg.trans hgrown, hz, hne, hd'⟩

theorem Grown.inode (hg : Grown d d₁) (h : d.Formed m) (hj : j < m) : d₁.inode j = d.inode j := by
  rw [Dir.inode, Dir.inode, hg.leaf (h.leaf_ne hj), hg.data _ (h.leaf_ne hj)]

theorem Grown.formed (hg : Grown d d₁) (h : d.Formed m) : d₁.Formed m where
  sound := hg.sound
  size := hg.size.trans h.size
  first := by
    rw [← leaf_zero]
    exact hg.leaf_ne (k := 0) h.first
  mapped b hb := hg.leaf_ne (h.mapped b hb)

theorem Grown.has_iff (hg : Grown d d₁) (h : d.Formed m) (hj : j < m) :
    d₁.Has j key ↔ d.Has j key := by
  unfold Dir.Has Dir.nameAt
  rw [hg.inode h hj, hg.leaf (h.leaf_ne hj), hg.data _ (h.leaf_ne hj)]

theorem Represents.grown (h : Represents d m M) (hg : Grown d d₁) : Represents d₁ m M where
  toFormed := hg.formed h.toFormed
  keys i hi hne := by
    rw [hg.inode h.toFormed hi] at hne
    obtain ⟨key, hkey, hhas⟩ := h.keys i hi hne
    exact ⟨key, hkey, (hg.has_iff h.toFormed hi).mpr hhas⟩
  unique i hi j hj key hki hkj :=
    h.unique i hi j hj key ((hg.has_iff h.toFormed hi).mp hki) ((hg.has_iff h.toFormed hj).mp hkj)
  map key hkey n := by
    rw [h.map key hkey n]
    refine exists_congr fun i => and_congr_right fun hi => ?_
    rw [hg.has_iff h.toFormed hi, hg.inode h.toFormed hi]

/-! ### Adding -/

/-- The block of an entry is there, or there is no zone left for it. -/
theorem addBlock_eq (h : d.Formed m) (hi : i ≤ m) (hz : d.At i z) : ∃ d₁, Grown d d₁ ∧
    (addBlock i z d = .ok (none, d₁) ∧ d₁.free = [] ∨
      addBlock i z d = .ok (some (d₁.leaf (i / 64)), d₁) ∧ d₁.leaf (i / 64) ≠ 0) := by
  rw [addBlock]
  split_ifs with hblock
  · obtain ⟨d₁, hrun, hgrown, hfull⟩ := createBlock_eq h.sound (h.lt_maxBlocks hi)
    rw [run_bind hrun]
    refine ⟨d₁, hgrown, ?_⟩
    by_cases h0 : d₁.leaf (i / 64) = 0
    · rw [if_pos h0]
      exact .inl ⟨rfl, hfull h0⟩
    · rw [if_neg h0]
      exact .inr ⟨rfl, h0⟩
  · rw [hz (by omega)]
    refine ⟨d, .refl h.sound, .inr ⟨rfl, ?_⟩⟩
    by_cases h0 : i = 0
    · rw [h0]
      exact h.first
    · exact h.mapped _ (by omega)

/-- The name of the `k`-th entry becomes `key`. -/
def Names (f : Block → Block) (k : ℕ) (key : List UInt8) : Prop :=
  ∀ b, ∀ t < 14, entryName (f b) k t = key.getD t 0

/-- What `add_entry` leaves: an entry that was not in use has the name, or no zone was left. -/
def Added (d d' : Dir) (m : ℕ) (key : List UInt8) (r : Option (ℕ × ℕ)) : Prop :=
  r = none ∧ Grown d d' ∧ d'.free = [] ∨
    ∃ z k f, k ≤ m ∧ (k < m → d.inode k = 0) ∧ r = some (z, k % 64) ∧ Written d d' m z k f ∧
      Touches f (k % 64) ∧ Names f (k % 64) key

theorem Added.of_grown {r : Option (ℕ × ℕ)} (h : d.Formed m) (hg : Grown d d₁)
    (ha : Added d₁ d' m key r) : Added d d' m key r := by
  rcases ha with ⟨hr, hgrown, hfull⟩ | ⟨z, k, f, hk, h0, hr, hw, hf⟩
  · exact .inl ⟨hr, hg.trans hgrown, hfull⟩
  · exact .inr ⟨z, k, f, hk, fun hlt => (hg.inode h hlt).symm.trans (h0 hlt), hr,
      hw.of_grown hg, hf⟩

theorem names_setEntryName (k : ℕ) (key : List UInt8) :
    Names (fun b => setEntryName b k (padded key)) k key := fun b t ht => by
  rw [entryName_setEntryName_self (ht.trans_eq (length_padded key).symm), getD_padded key ht]

theorem grow_of_lt (hsize : d.size = 16 * m) (hi : i < m) (z : ℕ) : grow i z d = d := by
  rw [grow, if_neg (by omega)]

theorem grow_self (hsize : d.size = 16 * m) (z : ℕ) : grow m z d =
    { store z (fun b => setEntryInode b (m % 64) 0) d with size := (m + 1) * 16 } := by
  rw [grow, if_pos (by omega)]

theorem entryInode_grow_self (hsize : d.size = 16 * m) (z : ℕ) :
    entryInode ((grow m z d).data z) (m % 64) = 0 := by
  rw [grow_self hsize]
  change entryInode (Function.update d.data z _ z) (m % 64) = 0
  rw [Function.update_self]
  exact entryInode_setEntryInode_self (by omega)

/-- The entry at which the loop ends gets the name. -/
theorem added_of_inode_zero (h : d.Formed m) (hg : Grown d d₁) (hne : d₁.leaf (i / 64) ≠ 0)
    (hi : i ≤ m) (h0 : i < m → d.inode i = 0) (key : List UInt8) :
    Added d (store (d₁.leaf (i / 64)) (fun b => setEntryName b (i % 64) (padded key))
      (grow i (d₁.leaf (i / 64)) d₁)) m key (some (d₁.leaf (i / 64), i % 64)) := by
  have hsize := (hg.formed h).size
  obtain ⟨f, hw, hf⟩ : ∃ f, Written d (grow i (d₁.leaf (i / 64)) d₁) m (d₁.leaf (i / 64)) i f ∧
      Touches f (i % 64) := by
    rcases hi.eq_or_lt with rfl | hlt
    · refine ⟨_, ⟨d₁, hg, rfl, hne, ?_⟩, touches_setEntryInode _ 0⟩
      rw [grow_self hsize, max_eq_right (Nat.le_succ i), Nat.mul_comm]
    · refine ⟨id, ⟨d₁, hg, rfl, hne, ?_⟩, fun _ _ _ => ⟨rfl, fun _ _ => rfl⟩⟩
      rw [grow_of_lt hsize hlt, max_eq_left hlt, ← hsize, store, id, Function.update_eq_self]
  exact .inr ⟨_, i, _, hi, h0, rfl, hw.comp _, (touches_setEntryName _ key).comp hf,
    fun b => names_setEntryName (i % 64) key (f b)⟩

theorem addFrom_none {fuel : ℕ} (hrun : addBlock i z d = .ok (none, d₁)) :
    addFrom key fuel i z d = .ok (none, d₁) := by
  rw [addFrom, run_bind hrun]
  rfl

theorem addFrom_taken {fuel z' : ℕ} (hrun : addBlock i z d = .ok (some z', d₁))
    (h0 : entryInode ((grow i z' d₁).data z') (i % 64) = 0) :
    addFrom key fuel i z d = .ok (some (z', i % 64),
      store z' (fun b => setEntryName b (i % 64) (padded key)) (grow i z' d₁)) := by
  rw [addFrom, run_bind hrun]
  change (ite (entryInode ((grow i z' d₁).data z') (i % 64) = 0) (_ : D _) (_ : D _) : D _) _ = _
  rw [if_pos h0]
  rfl

theorem addFrom_next {fuel z' : ℕ} (hrun : addBlock i z d = .ok (some z', d₁))
    (h0 : entryInode ((grow i z' d₁).data z') (i % 64) ≠ 0) :
    addFrom key (fuel + 1) i z d = addFrom key fuel (i + 1) z' (grow i z' d₁) := by
  rw [addFrom, run_bind hrun]
  change (ite (entryInode ((grow i z' d₁).data z') (i % 64) = 0) (_ : D _) (_ : D _) : D _) _ = _
  rw [if_neg h0]

/-- The first entry that is not in use is taken, or the first one beyond the end. -/
theorem addFrom_eq (key : List UInt8) {fuel : ℕ} (h : d.Formed m) (hi : i ≤ m)
    (hfuel : m ≤ i + fuel) (hz : d.At i z) :
    ∃ r d', addFrom key fuel i z d = .ok (r, d') ∧ Added d d' m key r := by
  induction fuel generalizing d i z with
  | zero =>
    obtain ⟨d₁, hg, ⟨hrun, hfull⟩ | ⟨hrun, hne⟩⟩ := addBlock_eq h hi hz
    · exact ⟨none, d₁, addFrom_none hrun, .inl ⟨rfl, hg, hfull⟩⟩
    · obtain rfl : i = m := by omega
      exact ⟨_, _, addFrom_taken hrun (entryInode_grow_self (hg.formed h).size _),
        added_of_inode_zero h hg hne hi (fun hlt => absurd hlt (lt_irrefl i)) key⟩
  | succ fuel ih =>
    obtain ⟨d₁, hg, ⟨hrun, hfull⟩ | ⟨hrun, hne⟩⟩ := addBlock_eq h hi hz
    · exact ⟨none, d₁, addFrom_none hrun, .inl ⟨rfl, hg, hfull⟩⟩
    · have hsize := (hg.formed h).size
      by_cases h0 : entryInode ((grow i (d₁.leaf (i / 64)) d₁).data (d₁.leaf (i / 64))) (i % 64) = 0
      · refine ⟨_, _, addFrom_taken hrun h0, added_of_inode_zero h hg hne hi (fun hlt => ?_) key⟩
        rw [grow_of_lt hsize hlt] at h0
        exact (hg.inode h hlt).symm.trans h0
      · have hlt : i < m := by
          refine lt_of_le_of_ne hi fun heq => h0 ?_
          subst heq
          exact entryInode_grow_self hsize _
        rw [addFrom_next hrun h0, grow_of_lt hsize hlt]
        obtain ⟨r, d', hrun', hadded⟩ := ih (hg.formed h) hlt (by omega) (Dir.At.next d₁ i)
        exact ⟨r, d', hrun', hadded.of_grown h hg⟩

/-- What `add_entry` does. -/
theorem addEntry_eq (h : d.Formed m) (nm : Name) :
    ∃ r d', addEntry nm.bytes d = .ok (r, d') ∧ Added d d' m nm.key r := by
  have hentries : d.size / 16 = m := by
    rw [h.size]
    omega
  have hfuel : m ≤ 0 + (m + 1) := by omega
  have hfirst : d.At 0 (d.zone 0) := fun _ => (leaf_zero d).symm
  obtain ⟨r, d', hrun, hadded⟩ := addFrom_eq nm.key h (Nat.zero_le m) hfuel hfirst
  refine ⟨r, d', ?_, hadded⟩
  change (ite (nm.key = []) (pure none : D _) (ite (d.zone 0 = 0) (pure none : D _)
    (addFrom nm.key (d.size / 16 + 1) 0 (d.zone 0))) : D _) d = _
  rw [if_neg nm.isKey.ne_nil, if_neg h.first, hentries]
  exact hrun

/-! ### The map after an operation -/

/-- Only one name is the name of an entry. -/
theorem Dir.Has.eq (hhas : d.Has i key) (hhas' : d.Has i key') (hkey : IsKey key)
    (hkey' : IsKey key') : key = key' :=
  hkey.ext hkey' fun j hj => (hhas.2 j hj).symm.trans (hhas'.2 j hj)

theorem Represents.map_of_has (h : Represents d m M) (hkey : IsKey key) (hi : i < m)
    (hhas : d.Has i key) : M key = some (d.inode i) :=
  (h.map key hkey _).mpr ⟨i, hi, hhas, rfl⟩

/-- An entry that was not in use gets a name that was not there. -/
theorem Represents.add {m' : ℕ} (h : Represents d m M) (hkey : IsKey key) (hnone : M key = none)
    (hw : Rewritten d d' m m' k) (hunused : k < m → d.inode k = 0) (hhas : d'.Has k key) :
    Represents d' m' (Function.update M key (some (d'.inode k))) where
  toFormed := hw.toFormed
  keys i hi hne := by
    by_cases hik : i = k
    · exact ⟨key, hkey, hik ▸ hhas⟩
    · have him := hw.old i hi hik
      rw [hw.inode i him hik] at hne
      obtain ⟨key', hkey', hhas'⟩ := h.keys i him hne
      exact ⟨key', hkey', (hw.has_iff him hik).mpr hhas'⟩
  unique i hi j hj key' hki hkj := by
    -- No other entry has the name.
    have hnot : ∀ l < m', l ≠ k → d'.Has l key' → ¬d'.Has k key' := fun l hl hlk hkl hkk => by
      have hlm := hw.old l hl hlk
      rw [hw.has_iff hlm hlk] at hkl
      have hsome := h.map_of_has hkey hlm
        ⟨hkl.1, fun t ht => (hkl.2 t ht).trans ((hkk.2 t ht).symm.trans (hhas.2 t ht))⟩
      rw [hnone] at hsome
      cases hsome
    by_cases hik : i = k
    · by_cases hjk : j = k
      · rw [hik, hjk]
      · exact absurd (hik ▸ hki) (hnot j hj hjk hkj)
    · by_cases hjk : j = k
      · exact absurd (hjk ▸ hkj) (hnot i hi hik hki)
      · have him := hw.old i hi hik
        have hjm := hw.old j hj hjk
        exact h.unique i him j hjm key' ((hw.has_iff him hik).mp hki) ((hw.has_iff hjm hjk).mp hkj)
  map key' hkey' n := by
    by_cases heq : key' = key
    · subst heq
      rw [Function.update_self]
      constructor
      · rintro hn
        exact ⟨k, hw.lt, hhas, Option.some.inj hn⟩
      · rintro ⟨i, hi, hki, rfl⟩
        by_cases hik : i = k
        · rw [hik]
        · have him := hw.old i hi hik
          have hsome := h.map_of_has hkey' him ((hw.has_iff him hik).mp hki)
          rw [hnone] at hsome
          cases hsome
    · rw [Function.update_of_ne heq, h.map key' hkey' n]
      constructor
      · rintro ⟨i, hi, hki, hn⟩
        have hik : i ≠ k := fun hik => hki.1 (hik ▸ hunused (hik ▸ hi))
        exact ⟨i, hi.trans_le hw.le, (hw.has_iff hi hik).mpr hki, (hw.inode i hi hik).trans hn⟩
      · rintro ⟨i, hi, hki, hn⟩
        have hik : i ≠ k := fun hik => heq ((hik ▸ hki).eq hhas hkey' hkey)
        have him := hw.old i hi hik
        exact ⟨i, him, (hw.has_iff him hik).mp hki, (hw.inode i him hik).symm.trans hn⟩

/-- The entry with a name gets the number 0. -/
theorem Represents.remove {m' : ℕ} (h : Represents d m M) (hkey : IsKey key) (hk : k < m)
    (hhas : d.Has k key) (hw : Rewritten d d' m m' k) (h0 : d'.inode k = 0) :
    Represents d' m' (Function.update M key none) := by
  -- The entries in use are old ones.
  have hold : ∀ i < m', ∀ key', d'.Has i key' → i < m ∧ i ≠ k ∧ d.Has i key' :=
    fun i hi key' hki => by
      have hik : i ≠ k := fun hik => hki.1 (hik ▸ h0)
      have him := hw.old i hi hik
      exact ⟨him, hik, (hw.has_iff him hik).mp hki⟩
  refine ⟨hw.toFormed, fun i hi hne => ?_, fun i hi j hj key' hki hkj => ?_, fun key' hkey' n => ?_⟩
  · have hik : i ≠ k := fun hik => hne (hik ▸ h0)
    have him := hw.old i hi hik
    rw [hw.inode i him hik] at hne
    obtain ⟨key', hkey', hhas'⟩ := h.keys i him hne
    exact ⟨key', hkey', (hw.has_iff him hik).mpr hhas'⟩
  · obtain ⟨him, -, hki'⟩ := hold i hi key' hki
    obtain ⟨hjm, -, hkj'⟩ := hold j hj key' hkj
    exact h.unique i him j hjm key' hki' hkj'
  · by_cases heq : key' = key
    · subst heq
      rw [Function.update_self]
      refine ⟨fun hn => (nomatch hn), fun ⟨i, hi, hki, _⟩ => ?_⟩
      obtain ⟨him, hik, hki'⟩ := hold i hi key' hki
      exact absurd (h.unique i him k hk key' hki' hhas) hik
    · rw [Function.update_of_ne heq, h.map key' hkey' n]
      constructor
      · rintro ⟨i, hi, hki, hn⟩
        have hik : i ≠ k := fun hik => heq ((hik ▸ hki).eq hhas hkey' hkey)
        exact ⟨i, hi.trans_le hw.le, (hw.has_iff hi hik).mpr hki, (hw.inode i hi hik).trans hn⟩
      · rintro ⟨i, hi, hki, hn⟩
        obtain ⟨him, hik, hki'⟩ := hold i hi key' hki
        exact ⟨i, him, hki', (hw.inode i him hik).symm.trans hn⟩

/-! ### Operations -/

/-- An operation keeps the directory a map. It is done when the map allows it, as long as there are
zones. -/
theorem Represents.run (h : Represents d m M) (op : Op) :
    ∃ done d' m', op.run d = .ok (done, d') ∧
      Represents d' m' (if done then op.apply M else M) ∧
      (d'.free ≠ [] → d.free ≠ [] ∧ done = op.possible M) := by
  cases op with
  | add nm n hn =>
    obtain ⟨r, hfind, hr⟩ := findEntry_eq h nm
    rw [Op.run, run_bind hfind]
    rcases hr with ⟨rfl, hnone⟩ | ⟨i, hi, -, rfl, hsome⟩
    · obtain ⟨r, d₁, hadd, hadded⟩ := addEntry_eq h.toFormed nm
      change ∃ done d' m', (addEntry nm.bytes >>= _) d = _ ∧ _
      rw [run_bind hadd]
      have hpossible : (Op.add nm n hn).possible M = true := by
        rw [Op.possible, hnone]
        rfl
      rcases hadded with ⟨rfl, hgrown, hfull⟩ | ⟨z, k, f, hk, hunused, rfl, hw, hf, hname⟩
      · exact ⟨false, d₁, m, rfl, h.grown hgrown, fun hne => absurd hfull hne⟩
      · have hw' := hw.comp fun b => setEntryInode b (k % 64) n.toNat
        obtain ⟨hrw, b, hinode, hnameAt⟩ := hw'.rewritten h.toFormed
          ((touches_setEntryInode _ n.toNat).comp hf) hk
        have hnumber := hinode.trans (entryInode_setEntryInode_self n.toNat_lt)
        refine ⟨true, _, max m (k + 1), rfl, ?_, fun hne => ⟨fun hnil => hne ?_, hpossible.symm⟩⟩
        · have hrep := h.add nm.isKey hnone hrw hunused ⟨?_, fun t ht => ?_⟩
          · rw [hnumber] at hrep
            exact hrep
          · rw [hnumber]
            exact fun h0 => hn (UInt16.toNat_inj.mp h0)
          · exact (hnameAt t).trans ((entryName_setEntryInode _ _ _ _ ht).trans (hname b t ht))
        · obtain ⟨d₂, hgrown, -, -, rfl⟩ := hw
          exact hgrown.free hnil
    · refine ⟨false, d, m, rfl, h, fun hne => ⟨hne, ?_⟩⟩
      rw [Op.possible, hsome]
      rfl
  | remove nm =>
    obtain ⟨r, hfind, hr⟩ := findEntry_eq h nm
    rw [Op.run, run_bind hfind]
    rcases hr with ⟨rfl, hnone⟩ | ⟨i, hi, hhas, rfl, hsome⟩
    · refine ⟨false, d, m, rfl, h, fun hne => ⟨hne, ?_⟩⟩
      rw [Op.possible, hnone]
      rfl
    · have hw : Written d (store (d.leaf (i / 64)) (fun b => setEntryInode b (i % 64) 0) d) m
          (d.leaf (i / 64)) i fun b => setEntryInode b (i % 64) 0 := by
        refine ⟨d, .refl h.sound, rfl, h.leaf_ne hi, ?_⟩
        rw [max_eq_left hi, ← h.size]
        rfl
      obtain ⟨hrw, b, hinode, -⟩ := hw.rewritten h.toFormed (touches_setEntryInode _ 0) hi.le
      have h0 := hinode.trans (entryInode_setEntryInode_self (by omega))
      refine ⟨true, _, max m (i + 1), rfl, h.remove nm.isKey hi hhas hrw h0, fun hne => ⟨hne, ?_⟩⟩
      rw [Op.possible, hsome]
      rfl

/-- A sequence of operations. -/
theorem Represents.runs (h : Represents d m M) (ops : List Op) :
    ∃ outs d' m', runs ops d = .ok (outs, d') ∧ outs.length = ops.length ∧
      Represents d' m' (recorded M ops outs) ∧
      (d'.free ≠ [] → d.free ≠ [] ∧ outs = expected M ops) := by
  induction ops generalizing d m M with
  | nil => exact ⟨[], d, m, rfl, rfl, h, fun hne => ⟨hne, rfl⟩⟩
  | cons op ops ih =>
    obtain ⟨done, d₁, m₁, hrun, hrep, hdone⟩ := h.run op
    obtain ⟨outs, d', m', hruns, hlength, hrep', houts⟩ := ih hrep
    refine ⟨done :: outs, d', m', ?_, congrArg Nat.succ hlength, hrep', fun hne => ?_⟩
    · rw [Directory.runs, run_bind hrun, run_bind hruns]
      rfl
    · obtain ⟨hne₁, hrest⟩ := houts hne
      obtain ⟨hne₀, rfl⟩ := hdone hne₁
      exact ⟨hne₀, by rw [hrest, expected]⟩

/-- A directory of size 0 represents the empty map. -/
theorem represents_empty (h : d.Sound) (hfirst : d.zone 0 ≠ 0) (hsize : d.size = 0) :
    Represents d 0 fun _ => none where
  sound := h
  size := hsize
  first := hfirst
  mapped _ hk := absurd hk (Nat.not_lt_zero _)
  keys _ hi := absurd hi (Nat.not_lt_zero _)
  unique _ hi := absurd hi (Nat.not_lt_zero _)
  map _ _ _ := ⟨fun hn => (nomatch hn), fun ⟨_, hi, _⟩ => absurd hi (Nat.not_lt_zero _)⟩

theorem Op.apply_of_ne {op : Op} (h : key ≠ op.name.key) (M : Entries) :
    op.apply M key = M key := by
  cases op with
  | add nm n hn | remove nm => exact Function.update_of_ne h ..

theorem Finds.unique {r r' : Option ℕ} (h : Finds d nm r) (h' : Finds d nm r') : r = r' := by
  obtain ⟨de, hrun, rfl⟩ := h
  obtain ⟨de', hrun', rfl⟩ := h'
  rw [hrun] at hrun'
  cases hrun'
  rfl

/-- A directory that began with size 0 is a finite map. After any sequence of operations a name is
found if it has been added and not been removed since, with the number that has been stored for it;
operations fail only where the map says so, unless the zones are used up. A further operation
changes nothing for the other names. -/
theorem directory_map {d₀ : Dir} (h : d₀.Sound) (hfirst : d₀.zone 0 ≠ 0) (hsize : d₀.size = 0)
    (ops : List Op) : ∃ outs d, runs ops d₀ = .ok (outs, d) ∧ outs.length = ops.length ∧
      (∀ nm : Name, Finds d nm (recorded (fun _ => none) ops outs nm.key)) ∧
      (d.free ≠ [] → outs = expected (fun _ => none) ops) ∧
      ∀ op : Op, ∃ done d', op.run d = .ok (done, d') ∧
        ∀ nm : Name, nm.key ≠ op.name.key → ∀ r, Finds d nm r ↔ Finds d' nm r := by
  obtain ⟨outs, d, m, hruns, hlength, hrep, houts⟩ := (represents_empty h hfirst hsize).runs ops
  refine ⟨outs, d, hruns, hlength, hrep.find, fun hne => (houts hne).2, fun op => ?_⟩
  obtain ⟨done, d', m', hrun, hrep', -⟩ := hrep.run op
  refine ⟨done, d', hrun, fun nm hne r => ?_⟩
  have hsame : (if done then op.apply (recorded (fun _ => none) ops outs) else
      recorded (fun _ => none) ops outs) nm.key = recorded (fun _ => none) ops outs nm.key := by
    split_ifs
    · exact Op.apply_of_ne hne _
    · rfl
  have hfind := hrep.find nm
  have hfind' := hrep'.find nm
  rw [hsame] at hfind'
  exact ⟨fun hr => hr.unique hfind ▸ hfind', fun hr => hr.unique hfind' ▸ hfind⟩

/-- A directory of size 0 with block 5, on a device with two more zones. -/
def oneZone : Dir where
  size := 0
  zone k := if k = 0 then 5 else 0
  data _ := zeroBlock
  free := [6, 7]

theorem sound_oneZone : oneZone.Sound :=
  Dir.sound_of_first (fun _ hk => if_neg hk) (by decide) (by decide) (by decide) (by decide)

/-- The name `a`. -/
def nameA : Name := ⟨[97], by decide, by decide⟩

theorem directory_map_oneZone : ∃ d,
    runs [.add nameA 2 (by decide), .add nameA 3 (by decide)] oneZone = .ok ([true, false], d) ∧
      Finds d nameA (some 2) := by
  obtain ⟨outs, d, hruns, -, hfinds, houts, -⟩ := directory_map sound_oneZone (by decide) rfl
    [.add nameA 2 (by decide), .add nameA 3 (by decide)]
  have hzones : (runs [.add nameA 2 (by decide), .add nameA 3 (by decide)] oneZone).toOption.map
      (fun x => x.2.free) = some [6, 7] := by decide +kernel
  rw [hruns] at hzones
  have hfree : d.free = [6, 7] := Option.some.inj hzones
  have hfind := hfinds nameA
  obtain rfl := houts (by rw [hfree]; decide)
  exact ⟨d, hruns, hfind⟩

end Linux001.Fs.Directory
