import Linux001.Mm.ExactCounts

/-!
# User accesses through the page tables

The processor translates the linear addresses of user programs with the directory and the tables in
physical memory: an access needs the present bit and the user bit, and a store the write bit, in
both the directory entry and the table entry. An access that the entries do not allow makes a fault,
`page.s` calls `do_no_page` when a present bit is missing and `do_wp_page` otherwise, and the
instruction is restarted.

## Main definitions

* `Memory.touch`: an access up to the end of its fault.
* `Memory.userRead`, `Memory.userWrite`: loads and stores of a byte.
* `Flagged`: the flags of user entries; in particular a writable page has one user.
* `Memory.Shows`: what a page of a user slot contains.
* `Touched`: one entry has been made to allow an access, and no page has changed its contents.

## Main results

* `Exact.doNoPage_touched`, `Exact.unWpPage_touched`: what the fault handlers do.
* `Exact.touch`: an access that meets a fault is allowed after it.
-/

namespace Linux001.Mm

/-! ### Bytes of a word -/

/-- The byte `j` of a word, the lowest being byte 0. -/
def byteOf (w : Word) (j : ℕ) : BitVec 8 := (w >>> (8 * j)).setWidth 8

/-- The word with byte `j` replaced. -/
def setByte (w : Word) (j : ℕ) (b : BitVec 8) : Word :=
  w &&& ~~~((0xff : Word) <<< (8 * j)) ||| b.setWidth 32 <<< (8 * j)

private theorem getElem_byteOf (w : Word) (j : ℕ) {i : ℕ} (hi : i < 8) :
    (byteOf w j)[i] = w.getLsbD (8 * j + i) := by
  simp [byteOf, BitVec.getElem_setWidth, BitVec.getLsbD_ushiftRight]

private theorem getLsbD_setByte (w : Word) (j : ℕ) (b : BitVec 8) {m : ℕ} (hm : m < 32) :
    (setByte w j b).getLsbD m =
      if 8 * j ≤ m ∧ m < 8 * j + 8 then b.getLsbD (m - 8 * j) else w.getLsbD m := by
  have hmask : (0xff : Word).getLsbD (m - 8 * j) = decide (m - 8 * j < 8) := by
    rw [BitVec.getLsbD, show (0xff : Word).toNat = 2 ^ 8 - 1 from rfl, Nat.testBit_two_pow_sub_one]
  rw [setByte, BitVec.getLsbD_or, BitVec.getLsbD_and, BitVec.getLsbD_not, BitVec.getLsbD_shiftLeft,
    BitVec.getLsbD_shiftLeft, hmask, BitVec.getLsbD_setWidth]
  by_cases hlo : m < 8 * j
  · have hcond : ¬ (8 * j ≤ m ∧ m < 8 * j + 8) := by omega
    simp [hm, hlo, hcond]
  · by_cases hhi : m - 8 * j < 8
    · have hcond : 8 * j ≤ m ∧ m < 8 * j + 8 := by omega
      have hlt : m - 8 * j < 32 := by omega
      simp [hm, hlo, hhi, hcond, hlt]
    · have hcond : ¬ (8 * j ≤ m ∧ m < 8 * j + 8) := by omega
      simp [hm, hlo, hhi, hcond, BitVec.getLsbD_of_ge b (m - 8 * j) (by omega)]

theorem byteOf_setByte (w : Word) (b : BitVec 8) {j j' : ℕ} (hj' : j' < 4) :
    byteOf (setByte w j b) j' = if j' = j then b else byteOf w j' := by
  ext i hi
  rw [getElem_byteOf _ _ hi, getLsbD_setByte w j b (by omega)]
  by_cases h : j' = j
  · subst h
    have hcond : 8 * j' ≤ 8 * j' + i ∧ 8 * j' + i < 8 * j' + 8 := by omega
    rw [if_pos hcond, if_pos rfl, Nat.add_sub_cancel_left]
    rfl
  · have hcond : ¬ (8 * j ≤ 8 * j' + i ∧ 8 * j' + i < 8 * j + 8) := by omega
    rw [if_neg hcond, if_neg h, getElem_byteOf _ _ hi]

/-- The user bit of an entry. -/
def userBit (e : Word) : Bool := e.getLsbD 2

@[simp] theorem userBit_entryFor (p : ℕ) : userBit (entryFor p) = true := by
  rw [userBit, entryFor, BitVec.getLsbD_or, show (7 : Word).getLsbD 2 = true by decide,
    Bool.or_true]

@[simp] theorem userBit_clear (e : Word) : userBit (e &&& ~~~2) = userBit e := by
  rw [userBit, userBit, BitVec.getLsbD_and, show (~~~2 : Word).getLsbD 2 = true by decide,
    Bool.and_true]

@[simp] theorem userBit_set (e : Word) : userBit (e ||| 2) = userBit e := by
  rw [userBit, userBit, BitVec.getLsbD_or, show (2 : Word).getLsbD 2 = false by decide,
    Bool.or_false]

/-! ### Accesses -/

namespace Memory

variable (s : Memory)

/-- The entry `i` of the table of the directory entry `d` is present, and so is the table. -/
def mapped (d i : ℕ) : Bool := present (s.word d) && present (s.pte d i)

/-- The flags of a mapped address do not allow the access. -/
def protection (write : Bool) (d i : ℕ) : Bool :=
  !(userBit (s.word d) && userBit (s.pte d i)) ||
    (write && !(writable (s.word d) && writable (s.pte d i)))

/-- A user access to `address` up to the end of the fault it meets, if any. -/
def touch (write : Bool) (address : Word) : Except Halt Memory :=
  if s.mapped (dirOf address) (indexOf address) then
    if s.protection write (dirOf address) (indexOf address) then s.doWpPage address else .ok s
  else s.doNoPage address

/-- The word of physical memory that holds the byte at a mapped address. -/
def wordOf (address : Word) : ℕ :=
  frameOf (s.pte (dirOf address) (indexOf address)) * 1024 + address.toNat % 4096 / 4

/-- A load of the byte at `address` by a user program. -/
def userRead (address : Word) : Except Halt (BitVec 8 × Memory) := do
  let s' ← s.touch false address
  return (byteOf (s'.word (s'.wordOf address)) (address.toNat % 4), s')

/-- A store of the byte `b` to `address` by a user program. -/
def userWrite (address : Word) (b : BitVec 8) : Except Halt Memory := do
  let s' ← s.touch true address
  return s'.store (s'.wordOf address)
    (setByte (s'.word (s'.wordOf address)) (address.toNat % 4) b)

theorem mapped_iff {d i : ℕ} :
    s.mapped d i = true ↔ present (s.word d) = true ∧ present (s.pte d i) = true :=
  Bool.and_eq_true_iff

theorem mapsPage_iff_mapped {x : ℕ × ℕ} {p : ℕ} :
    s.MapsPage p x ↔ s.mapped x.1 x.2 = true ∧ frameOf (s.pte x.1 x.2) = p := by
  rw [mapped_iff, MapsPage, and_assoc]

/-- The entry at `y` is mapped as before, and what is mapped has not changed. -/
def EntryKept (s s' : Memory) (y : ℕ × ℕ) : Prop :=
  s'.mapped y.1 y.2 = s.mapped y.1 y.2 ∧ (s.mapped y.1 y.2 = true → s'.pte y.1 y.2 = s.pte y.1 y.2)

theorem entryKept_of_word {s s' : Memory} {y : ℕ × ℕ} (hdir : s'.word y.1 = s.word y.1)
    (hpte : present (s.word y.1) = true → s'.pte y.1 y.2 = s.pte y.1 y.2) : s.EntryKept s' y := by
  unfold EntryKept mapped
  rw [hdir]
  cases hp : present (s.word y.1) with
  | false => exact ⟨rfl, fun h => absurd h Bool.false_ne_true⟩
  | true =>
    rw [hpte hp]
    exact ⟨rfl, fun _ => rfl⟩

/-- The entry at `y` is mapped and write-protected. -/
def Protected (y : ℕ × ℕ) : Prop := s.mapped y.1 y.2 = true ∧ writable (s.pte y.1 y.2) = false

theorem EntryKept.isProtected {s s' : Memory} {y : ℕ × ℕ} (h : s.EntryKept s' y)
    (hp : s'.Protected y) : s.Protected y := by
  have hm := h.1.symm.trans hp.1
  exact ⟨hm, (congrArg writable (h.2 hm)).symm.trans hp.2⟩

theorem EntryKept.trans {s s' s'' : Memory} {y : ℕ × ℕ} (h : s.EntryKept s' y)
    (h' : s'.EntryKept s'' y) : s.EntryKept s'' y :=
  ⟨h'.1.trans h.1, fun hm => (h'.2 (h.1.trans hm)).trans (h.2 hm)⟩

/-- Two frames are free. -/
def TwoFree : Prop :=
  ∃ m n, m ≠ n ∧ m < pagingPages ∧ n < pagingPages ∧ s.memMap m = 0 ∧ s.memMap n = 0

/-- The page at the position `x` shows the word `w` at the index `k`: it is mapped, to another frame
than the page directory, and `w` is in the frame, or it is not mapped and `w` is zero. -/
def Shows (x : ℕ × ℕ) (k : ℕ) (w : Word) : Prop :=
  s.mapped x.1 x.2 = true ∧ frameOf (s.pte x.1 x.2) ≠ 0 ∧
      s.word (frameOf (s.pte x.1 x.2) * 1024 + k) = w ∨
    s.mapped x.1 x.2 = false ∧ w = 0

end Memory

/-- The flags of the entries of user slots: directory entries have all three flags, table entries
the user bit, and a writable table entry is the only user of a counted frame. -/
structure Flagged (s : Memory) : Prop where
  dir : ∀ d ∈ userDirs, present (s.word d) = true → s.word d = entryFor (frameOf (s.word d))
  user : ∀ x ∈ userEntries, s.mapped x.1 x.2 = true → userBit (s.pte x.1 x.2) = true
  counted : ∀ x ∈ userEntries, s.mapped x.1 x.2 = true → writable (s.pte x.1 x.2) = true →
    512 ≤ frameOf (s.pte x.1 x.2)
  own : ∀ x ∈ userEntries, s.mapped x.1 x.2 = true → writable (s.pte x.1 x.2) = true →
    ∀ y ∈ userEntries, s.MapsPage (frameOf (s.pte x.1 x.2)) y → y = x

/-- The flags stay in order when the entries that are still mapped have not changed. -/
theorem Flagged.of_agree {s s' : Memory} (hf : Flagged s)
    (hdir : ∀ d ∈ userDirs, present (s'.word d) = true → s'.word d = s.word d)
    (hpte : ∀ y ∈ userEntries, s'.mapped y.1 y.2 = true →
      s.mapped y.1 y.2 = true ∧ s'.pte y.1 y.2 = s.pte y.1 y.2) : Flagged s' := by
  refine ⟨fun d hd hp => ?_, fun y hy hm => ?_, fun y hy hm hw => ?_, fun y hy hm hw z hz hmz => ?_⟩
  · have hp' := hp
    rw [hdir d hd hp] at hp' ⊢
    exact hf.dir d hd hp'
  · obtain ⟨hm', heq⟩ := hpte y hy hm
    rw [heq]
    exact hf.user y hy hm'
  · obtain ⟨hm', heq⟩ := hpte y hy hm
    rw [heq] at hw ⊢
    exact hf.counted y hy hm' hw
  · obtain ⟨hm', heq⟩ := hpte y hy hm
    rw [heq] at hw hmz
    obtain ⟨hz', hzf⟩ := (Memory.mapsPage_iff_mapped s').mp hmz
    obtain ⟨hzm, hzeq⟩ := hpte z hz hz'
    rw [hzeq] at hzf
    exact hf.own y hy hm' hw z hz ((Memory.mapsPage_iff_mapped s).mpr ⟨hzm, hzf⟩)

/-- Only the entry at `x` has changed, it is mapped now, and no page shows anything else. -/
structure Touched (s s' : Memory) (x : ℕ × ℕ) : Prop where
  low : ∀ a, a / 1024 ≠ 0 → a / 1024 < 512 → s'.word a = s.word a
  dir_other : ∀ d < 1024, d ≠ x.1 → s'.word d = s.word d
  dir : s'.word x.1 = entryFor (frameOf (s'.word x.1))
  mapped : s'.mapped x.1 x.2 = true
  user : userBit (s'.pte x.1 x.2) = true
  other : ∀ y ∈ userEntries, y ≠ x → s.EntryKept s' y
  page : ∀ y ∈ userEntries, y ≠ x → s.mapped y.1 y.2 = true → frameOf (s.pte y.1 y.2) ≠ 0 →
    ∀ k < 1024, s'.word (frameOf (s.pte y.1 y.2) * 1024 + k) =
      s.word (frameOf (s.pte y.1 y.2) * 1024 + k)
  shows : ∀ k < 1024, ∀ w, s.Shows x k w → s'.Shows x k w
  own : writable (s'.pte x.1 x.2) = true → 512 ≤ frameOf (s'.pte x.1 x.2) ∧
    ∀ y ∈ userEntries, y ≠ x → ¬ s.MapsPage (frameOf (s'.pte x.1 x.2)) y
  frame : s.MapsPage (frameOf (s'.pte x.1 x.2)) x ∨
    ∀ y ∈ userEntries, ¬ s.MapsPage (frameOf (s'.pte x.1 x.2)) y

namespace Touched

variable {s s' : Memory} {x : ℕ × ℕ}

/-- No other entry becomes write-protected. -/
theorem isProtected (h : Touched s s' x) (hw : writable (s'.pte x.1 x.2) = true) :
    ∀ y ∈ userEntries, s'.Protected y → s.Protected y := fun y hy hp => by
  by_cases hne : y = x
  · subst hne
    exact absurd (hp.2.symm.trans hw) Bool.false_ne_true
  · exact (h.other y hy hne).isProtected hp

theorem mapsPage_iff (h : Touched s s' x) {y : ℕ × ℕ} (hy : y ∈ userEntries) (hne : y ≠ x)
    (p : ℕ) : s'.MapsPage p y ↔ s.MapsPage p y := by
  obtain ⟨hm, hpte⟩ := h.other y hy hne
  rw [Memory.mapsPage_iff_mapped, Memory.mapsPage_iff_mapped, hm]
  refine and_congr_right fun hmap => ?_
  rw [hpte hmap]

theorem shows_of (h : Touched s s' x) {y : ℕ × ℕ} (hy : y ∈ userEntries) {k : ℕ} (hk : k < 1024)
    {w : Word} (hs : s.Shows y k w) : s'.Shows y k w := by
  by_cases hne : y = x
  · subst hne
    exact h.shows k hk w hs
  · obtain ⟨hm, hpte⟩ := h.other y hy hne
    rcases hs with ⟨hmap, hzero, hw⟩ | ⟨hmap, hw⟩
    · refine .inl ⟨by rw [hm]; exact hmap, ?_, ?_⟩ <;> rw [hpte hmap]
      · exact hzero
      · rw [h.page y hy hne hmap hzero k hk]
        exact hw
    · exact .inr ⟨by rw [hm]; exact hmap, hw⟩

/-- The flags stay in order when the entry `x` is touched. -/
theorem flagged (h : Touched s s' x) (hf : Flagged s) : Flagged s' where
  dir d hd hp := by
    by_cases hne : d = x.1
    · subst hne
      exact h.dir
    · rw [h.dir_other d (mem_userDirs.mp hd).2 hne] at hp ⊢
      exact hf.dir d hd hp
  user y hy hm := by
    by_cases hne : y = x
    · subst hne
      exact h.user
    · obtain ⟨hmap, hpte⟩ := h.other y hy hne
      rw [hmap] at hm
      rw [hpte hm]
      exact hf.user y hy hm
  counted y hy hm hw := by
    by_cases hne : y = x
    · subst hne
      exact (h.own hw).1
    · obtain ⟨hmap, hpte⟩ := h.other y hy hne
      rw [hmap] at hm
      rw [hpte hm] at hw ⊢
      exact hf.counted y hy hm hw
  own y hy hm hw z hz hz' := by
    by_cases hne : y = x
    · subst hne
      by_contra hzy
      exact (h.own hw).2 z hz hzy ((h.mapsPage_iff hz hzy _).mp hz')
    · obtain ⟨hmap, hpte⟩ := h.other y hy hne
      rw [hmap] at hm
      rw [hpte hm] at hw hz'
      by_cases hzx : z = x
      · subst hzx
        -- The frame of `z` is the one it had, or one that no entry had.
        obtain ⟨-, -, hframe⟩ := hz'
        rcases h.frame with hold | hnew
        · rw [hframe] at hold
          exact hf.own y hy hm hw z hz hold
        · rw [hframe] at hnew
          exact absurd ((Memory.mapsPage_iff_mapped s).mpr ⟨hm, rfl⟩) (hnew y hy)
      · exact hf.own y hy hm hw z hz ((h.mapsPage_iff hz hzx _).mp hz')

end Touched

/-! ### The fault handlers -/

section Handlers

variable {s s' : Memory} {held : Finset ℕ} {x : ℕ × ℕ}

/-- The directory entry of `x` has been kept, or it has been given a fresh table that is empty
except for the entry of `x`. -/
def Tabled (s s' : Memory) (held : Finset ℕ) (x : ℕ × ℕ) : Prop :=
  present (s.word x.1) = true ∧ s'.word x.1 = s.word x.1 ∨
    present (s.word x.1) = false ∧ ∃ t, 512 ≤ t ∧ t < 2048 ∧ s.refs held t = 0 ∧
      s'.word x.1 = entryFor t ∧ ∀ i < 1024, i ≠ x.2 → s'.word (t * 1024 + i) = 0

namespace Exact

private theorem refs_pos_of_mapsPage {p : ℕ} (hx : x ∈ userEntries) (hm : s.MapsPage p x) :
    s.refs held p ≠ 0 :=
  fun hc => not_mapsPage_of_refs hc hx hm

private theorem refs_pos_of_table {d : ℕ} (hd : d ∈ userDirs) (hp : present (s.word d) = true) :
    s.refs held (frameOf (s.word d)) ≠ 0 :=
  fun hc => not_usesTable_of_refs hc hd ⟨hp, rfl⟩

/-- The frame of the table of `x` is counted, and it is no page and no other table. -/
private theorem tabled_frame (h : Exact s held) (hx : x ∈ userEntries) (ht : Tabled s s' held x) :
    512 ≤ frameOf (s'.word x.1) ∧
      (∀ y ∈ userEntries, ¬ s.MapsPage (frameOf (s'.word x.1)) y) ∧
      ∀ d ∈ userDirs, present (s.word d) = true → frameOf (s.word d) = frameOf (s'.word x.1) →
        d = x.1 := by
  obtain ⟨hxd, -⟩ := mem_userEntries.mp hx
  rcases ht with ⟨hp, hw⟩ | ⟨-, t, hlo, hhi, hrefs, hw, -⟩
  · rw [hw]
    exact ⟨(h.table_mem _ hxd hp).1, fun y hy => h.table_not_mapped hxd hp hy,
      fun d hd hpd heq => h.table_inj hd hpd hxd hp heq⟩
  · rw [hw, frameOf_entryFor (by omega)]
    exact ⟨hlo, fun y hy => not_mapsPage_of_refs hrefs hy,
      fun d hd hpd heq => absurd ⟨hpd, heq⟩ (not_usesTable_of_refs hrefs hd)⟩

/-- A fault handler has touched the entry `x` when it stores to this entry, to frames without
users and, where the table was missing, to the directory entry. -/
private theorem touched_of_word (h : Exact s held) (hf : Flagged s) (hx : x ∈ userEntries)
    (ht : Tabled s s' held x)
    (hword : ∀ a, a ≠ x.1 → a ≠ frameOf (s'.word x.1) * 1024 + x.2 →
      (a / 1024 < 512 ∨ s.refs held (a / 1024) ≠ 0) → s'.word a = s.word a)
    (hmapped : present (s'.pte x.1 x.2) = true) (huser : userBit (s'.pte x.1 x.2) = true)
    (hshows : ∀ k < 1024, ∀ w, s.Shows x k w → s'.Shows x k w)
    (hown : writable (s'.pte x.1 x.2) = true → 512 ≤ frameOf (s'.pte x.1 x.2) ∧
      ∀ y ∈ userEntries, y ≠ x → ¬ s.MapsPage (frameOf (s'.pte x.1 x.2)) y)
    (hframe : s.MapsPage (frameOf (s'.pte x.1 x.2)) x ∨
      ∀ y ∈ userEntries, ¬ s.MapsPage (frameOf (s'.pte x.1 x.2)) y) : Touched s s' x := by
  obtain ⟨hxd, hxi⟩ := mem_userEntries.mp hx
  have hxlt := mem_userDirs.mp hxd
  obtain ⟨htlo, htmap, htinj⟩ := h.tabled_frame hx ht
  have hdirother : ∀ d < 1024, d ≠ x.1 → s'.word d = s.word d := fun d hd hne =>
    hword d hne (by omega) (.inl (by omega))
  have hdir : s'.word x.1 = entryFor (frameOf (s'.word x.1)) := by
    rcases ht with ⟨hp, hw⟩ | ⟨-, t, -, hhi, -, hw, -⟩
    · rw [hw]
      exact hf.dir _ hxd hp
    · rw [hw, frameOf_entryFor (by omega)]
  refine ⟨fun a h0 hlo => ?_, hdirother, hdir, ?_, huser, fun y hy hne => ?_,
    fun y hy hne hm hzero k hk => ?_, hshows, hown, hframe⟩
  · exact hword a (by omega) (by omega) (.inl hlo)
  · rw [Memory.mapped_iff, hdir, present_entryFor]
    exact ⟨rfl, hmapped⟩
  · obtain ⟨hyd, hyi⟩ := mem_userEntries.mp hy
    -- The entry at `y` is kept when its table was there before.
    have hkept : present (s.word y.1) = true → s'.word y.1 = s.word y.1 →
        s'.pte y.1 y.2 = s.pte y.1 y.2 := fun hp hw => by
      have hlt := mem_userDirs.mp hyd
      have htab := (h.table_mem y.1 hyd hp).1
      rw [Memory.pte, Memory.pte, hw]
      refine hword _ (by omega) (fun hc => hne ?_) (.inr ?_)
      · have hdiv := congrArg (· / 1024) hc
        have hmod := congrArg (· % 1024) hc
        simp only [entry_div hyi, entry_div hxi, entry_mod hyi, entry_mod hxi] at hdiv hmod
        exact Prod.ext (htinj y.1 hyd hp hdiv) hmod
      · rw [entry_div hyi]
        exact refs_pos_of_table hyd hp
    by_cases hyx : y.1 = x.1
    · rcases ht with ⟨hp, hw⟩ | ⟨hp, t, hlo, hhi, -, hw, hempty⟩
      · rw [← hyx] at hw
        exact Memory.entryKept_of_word hw fun hp => hkept hp hw
      · have hy2 : y.2 ≠ x.2 := fun hc => hne (Prod.ext hyx hc)
        have hpte : s'.pte y.1 y.2 = 0 := by
          rw [Memory.pte, hyx, hw, frameOf_entryFor (by omega)]
          exact hempty _ hyi hy2
        have hmap : s.mapped y.1 y.2 = false := by
          rw [Memory.mapped, hyx, hp, Bool.false_and]
        refine ⟨?_, fun hc => absurd (hmap.symm.trans hc) (by decide)⟩
        rw [hmap, Memory.mapped, hpte]
        exact Bool.and_false _
    · have hw := hdirother y.1 (mem_userDirs.mp hyd).2 hyx
      exact Memory.entryKept_of_word hw fun hp => hkept hp hw
  · have hmy : s.MapsPage (frameOf (s.pte y.1 y.2)) y :=
      (Memory.mapsPage_iff_mapped s).mpr ⟨hm, rfl⟩
    refine hword _ (by omega) (fun hc => ?_) (.inr ?_)
    · have hdiv := congrArg (· / 1024) hc
      simp only [entry_div hk, entry_div hxi] at hdiv
      exact htmap y hy (hdiv ▸ hmy)
    · rw [entry_div hk]
      exact refs_pos_of_mapsPage hy hmy

/-- The touched entry when it maps a frame that had no users. -/
private theorem touched_of_fresh (h : Exact s held) (hf : Flagged s) (hx : x ∈ userEntries)
    (ht : Tabled s s' held x) {q : ℕ} (hlo : 512 ≤ q) (hhi : q < 2048) (hrefs : s.refs held q = 0)
    (hword : ∀ a, a ≠ x.1 → a ≠ frameOf (s'.word x.1) * 1024 + x.2 →
      (a / 1024 < 512 ∨ s.refs held (a / 1024) ≠ 0) → s'.word a = s.word a)
    (hpte : s'.pte x.1 x.2 = entryFor q)
    (hpage : ∀ k < 1024, ∀ w, s.Shows x k w → s'.word (q * 1024 + k) = w) :
    Touched s s' x ∧ writable (s'.pte x.1 x.2) = true := by
  have hframe : frameOf (entryFor q) = q := frameOf_entryFor (by omega)
  have hnot : ∀ y ∈ userEntries, ¬ s.MapsPage (frameOf (s'.pte x.1 x.2)) y := by
    rw [hpte, hframe]
    exact fun y hy => not_mapsPage_of_refs hrefs hy
  have hdir : present (s'.word x.1) = true := by
    rcases ht with ⟨hp, hw⟩ | ⟨-, t, -, -, -, hw, -⟩
    · rw [hw]
      exact hp
    · rw [hw, present_entryFor]
  have hpres : present (s'.pte x.1 x.2) = true := by rw [hpte, present_entryFor]
  refine ⟨h.touched_of_word hf hx ht hword hpres (by rw [hpte, userBit_entryFor])
    (fun k hk w hw => .inl ⟨(Memory.mapped_iff s').mpr ⟨hdir, hpres⟩, ?_, ?_⟩)
    (fun _ => ⟨by rw [hpte, hframe]; exact hlo, fun y hy _ => hnot y hy⟩) (.inr hnot),
    by rw [hpte, writable_entryFor]⟩
  · rw [hpte, hframe]
    omega
  · rw [hpte, hframe]
    exact hpage k hk w hw

/-- `un_wp_page` touches the entry, which is writable afterwards. A page of a user, whose contents
are kept, is not the page directory. -/
theorem unWpPage_touched (h : Exact s held) (hf : Flagged s) (hx : x ∈ userEntries)
    (hdir : present (s.word x.1) = true) (hpres : present (s.pte x.1 x.2) = true)
    (hok : Memory.unWpPage (frameOf (s.word x.1) * 1024 + x.2) s = .ok s') :
    Exact s' held ∧ Touched s s' x ∧ writable (s'.pte x.1 x.2) = true := by
  obtain ⟨hxd, hxi⟩ := mem_userEntries.mp hx
  have hxlt := mem_userDirs.mp hxd
  have htab := h.table_mem x.1 hxd hdir
  have hmapped : s.MapsPage (frameOf (s.pte x.1 x.2)) x := ⟨hdir, hpres, rfl⟩
  -- The words of the page are neither directory entries nor entries of the table.
  have hpage : ∀ k < 1024, frameOf (s.pte x.1 x.2) * 1024 + k ≠
      frameOf (s.word x.1) * 1024 + x.2 := fun k hk hc => by
    have hdiv := congrArg (· / 1024) hc
    simp only [entry_div hk, entry_div hxi] at hdiv
    exact h.table_not_mapped hxd hdir hx (hdiv ▸ hmapped)
  rcases h.unWpPage hx hdir hpres with ⟨he, -⟩ | ⟨m, hm, hex, hcase⟩
  · exact absurd (he.symm.trans hok) (by simp)
  obtain rfl := Except.ok.inj (hm.symm.trans hok)
  refine ⟨hex, ?_⟩
  rcases hcase with ⟨hlo, hone, hw⟩ | ⟨q, hlo, hhi, hrefs, hw⟩
  · have hwx : m.word x.1 = s.word x.1 := by
      rw [hw, Memory.store_word_of_ne _ (by omega)]
    have hpte : m.pte x.1 x.2 = s.pte x.1 x.2 ||| 2 := by
      rw [Memory.pte, hwx, hw, Memory.store_word_self]
    have hframe : frameOf (m.pte x.1 x.2) = frameOf (s.pte x.1 x.2) := by
      rw [hpte, frameOf_set]
    have hpres' : present (m.pte x.1 x.2) = true := by rw [hpte, present_set]; exact hpres
    have hmap' : m.mapped x.1 x.2 = true :=
      (Memory.mapped_iff m).mpr ⟨by rw [hwx]; exact hdir, hpres'⟩
    refine ⟨h.touched_of_word hf hx (.inl ⟨hdir, hwx⟩) (fun a _ hne _ => ?_) hpres' ?_
      (fun k hk w hs => ?_) (fun _ => ?_) (.inl (by rw [hframe]; exact hmapped)),
      by rw [hpte, writable_set]⟩
    · rw [hwx] at hne
      rw [hw, Memory.store_word_of_ne _ hne]
    · rw [hpte, userBit_set]
      exact hf.user x hx ((Memory.mapped_iff s).mpr ⟨hdir, hpres⟩)
    · rcases hs with ⟨-, hzero, hs⟩ | ⟨hno, -⟩
      · refine .inl ⟨hmap', by rw [hframe]; exact hzero, ?_⟩
        rw [hframe, hw, Memory.store_word_of_ne _ (hpage k hk)]
        exact hs
      · exact absurd ((Memory.mapped_iff s).mpr ⟨hdir, hpres⟩) (by rw [hno]; decide)
    · rw [hframe]
      refine ⟨hlo, fun y hy hne hmy => ?_⟩
      -- The count is one, so there is no second user.
      rw [h.count _ hlo (h.page_lt x hx hdir hpres), Memory.refs] at hone
      have hle : (userEntries.filter (s.MapsPage (frameOf (s.pte x.1 x.2)))).card ≤ 1 := by omega
      exact hne (Finset.card_le_one.mp hle y (Finset.mem_filter.mpr ⟨hy, hmy⟩) x
        (Finset.mem_filter.mpr ⟨hx, hmapped⟩))
  · have hdirq : x.1 / 1024 ≠ q := by omega
    have hwx : m.word x.1 = s.word x.1 := by
      rw [hw, if_neg (by omega), if_neg hdirq]
    have hpte : m.pte x.1 x.2 = entryFor q := by
      rw [Memory.pte, hwx, hw, if_pos rfl]
    refine h.touched_of_fresh hf hx (.inl ⟨hdir, hwx⟩) hlo hhi hrefs (fun a _ hne hr => ?_) hpte
      fun k hk w hs => ?_
    · rw [hwx] at hne
      rw [hw, if_neg hne, if_neg]
      rintro rfl
      omega
    · have hq : q * 1024 + k ≠ frameOf (s.word x.1) * 1024 + x.2 := fun hc => by
        have hdiv := congrArg (· / 1024) hc
        simp only [entry_div hk, entry_div hxi] at hdiv
        exact not_usesTable_of_refs hrefs hxd ⟨hdir, hdiv.symm⟩
      rw [hw, if_neg hq, if_pos (entry_div hk q), entry_mod hk]
      rcases hs with ⟨-, -, hs⟩ | ⟨hno, -⟩
      · exact hs
      · exact absurd ((Memory.mapped_iff s).mpr ⟨hdir, hpres⟩) (by rw [hno]; decide)

/-- `do_no_page` touches the entry of an address that is not mapped; it is writable afterwards. -/
theorem doNoPage_touched (h : Exact s held) (hf : Flagged s) {address : Word}
    (hd : dirOf address ∈ userDirs) (hno : s.mapped (dirOf address) (indexOf address) = false)
    (hok : s.doNoPage address = .ok s') :
    Exact s' held ∧ Touched s s' (dirOf address, indexOf address) ∧
      writable (s'.pte (dirOf address) (indexOf address)) = true := by
  have hi := indexOf_lt address
  have hdlt := mem_userDirs.mp hd
  have hx : ((dirOf address, indexOf address) : ℕ × ℕ) ∈ userEntries := mem_userEntries.mpr ⟨hd, hi⟩
  rw [Memory.doNoPage] at hok
  cases hg : s.getFreePage with
  | none => simp [hg] at hok
  | some r =>
    obtain ⟨page, s₁⟩ := r
    obtain ⟨p, rfl, hlo, hhi, hrefs, hex₁, hmap₁, hw₁⟩ := h.getFreePage hg
    simp only [hg] at hok
    have hdir₁ : s₁.word (dirOf address) = s.word (dirOf address) := by
      rw [hw₁, if_neg (by omega)]
    have habs : present (s.word (dirOf address)) = true →
        present (s.pte (dirOf address) (indexOf address)) = false := fun hp => by
      rw [Memory.mapped, hp, Bool.true_and] at hno
      exact hno
    have hpte₁ : present (s.word (dirOf address)) = true →
        s₁.pte (dirOf address) (indexOf address) = s.pte (dirOf address) (indexOf address) := by
      intro hp
      rw [Memory.pte, hdir₁, hw₁, entry_div hi,
        if_neg fun hc => not_usesTable_of_refs hrefs hd ⟨hp, hc⟩]
      rfl
    rcases hex₁.putPage (Finset.mem_insert_self p held) hd fun hp => by
        rw [hdir₁] at hp
        rw [hpte₁ hp]
        exact habs hp with ⟨hput, -⟩ | ⟨m, hput, hex, hcase⟩
    · simp [hput] at hok
    simp only [hput] at hok
    obtain rfl := Except.ok.inj hok
    rw [Finset.erase_insert (not_mem_of_refs hrefs)] at hex
    rw [hdir₁] at hcase
    refine ⟨hex, ?_⟩
    have hempty : ∀ k < 1024, ∀ w, s.Shows (dirOf address, indexOf address) k w → w = 0 := by
      rintro k - w (⟨hm, -⟩ | ⟨-, rfl⟩)
      · exact absurd (hno.symm.trans hm) (by decide)
      · rfl
    rcases hcase with ⟨hp, hw⟩ | ⟨hp, t, htlo, hthi, htrefs, hw⟩
    · have htab := (h.table_mem _ hd hp).1
      have hwx : m.word (dirOf address) = s.word (dirOf address) := by
        rw [hw, Memory.store_word_of_ne _ (by omega), hdir₁]
      have hpt : ∀ k < 1024, p * 1024 + k ≠
          frameOf (s.word (dirOf address)) * 1024 + indexOf address := fun k hk hc => by
        have hdiv := congrArg (· / 1024) hc
        simp only [entry_div hk, entry_div hi] at hdiv
        exact not_usesTable_of_refs hrefs hd ⟨hp, hdiv.symm⟩
      refine h.touched_of_fresh hf hx (.inl ⟨hp, hwx⟩) hlo hhi hrefs (fun a _ hne hr => ?_) ?_
        fun k hk w hs => ?_
      · dsimp only at hne
        rw [hwx] at hne
        rw [hw, Memory.store_word_of_ne _ hne, hw₁, if_neg]
        rintro rfl
        omega
      · dsimp only
        rw [Memory.pte, hwx, hw, Memory.store_word_self]
      · rw [hempty k hk w hs, hw, Memory.store_word_of_ne _ (hpt k hk), hw₁,
          if_pos (entry_div hk p)]
    · have hwx : m.word (dirOf address) = entryFor t := by
        rw [hw, if_neg (by omega), if_pos rfl]
      have hframe : frameOf (entryFor t) = t := frameOf_entryFor (by omega)
      have hne : t ≠ p := by
        rintro rfl
        have hmem := Finset.mem_insert_self t held
        rw [Memory.refs, if_pos hmem] at htrefs
        omega
      -- The table is a frame without users in the memory before the fault too.
      have htrefs' : s.refs held t = 0 := by
        rw [← hex₁.count t htlo hthi, hmap₁, Function.update_of_ne (by omega)] at htrefs
        rw [← h.count t htlo hthi]
        exact htrefs
      refine h.touched_of_fresh hf hx (.inr ⟨hp, t, htlo, hthi, htrefs', hwx, fun i hi' hne' => ?_⟩)
        hlo hhi hrefs (fun a hne₁ hne₂ hr => ?_) ?_ fun k hk w hs => ?_
      · have h1 : t * 1024 + i ≠ t * 1024 + indexOf address := by
          dsimp only at hne'
          omega
        rw [hw, if_neg h1, if_neg (by omega), if_pos (entry_div hi' t)]
      · dsimp only at hne₁ hne₂
        rw [hwx, hframe] at hne₂
        rw [hw, if_neg hne₂, if_neg hne₁, if_neg, hw₁, if_neg]
        · rintro rfl
          omega
        · rintro rfl
          omega
      · dsimp only
        rw [Memory.pte, hwx, hframe, hw, if_pos rfl]
      · have h1 : p * 1024 + k ≠ t * 1024 + indexOf address := fun hc => by
          have hdiv := congrArg (· / 1024) hc
          simp only [entry_div hk, entry_div hi] at hdiv
          exact hne hdiv.symm
        rw [hempty k hk w hs, hw, if_neg h1, if_neg (by omega), if_neg, hw₁,
          if_pos (entry_div hk p)]
        rw [entry_div hk]
        exact hne.symm

/-- After an access that meets a fault, or none, the page is mapped and the access allowed. -/
theorem touch (h : Exact s held) (hf : Flagged s) {address : Word} {write : Bool}
    (hd : dirOf address ∈ userDirs) (hok : s.touch write address = .ok s') :
    Exact s' held ∧ (s' = s ∨ Touched s s' (dirOf address, indexOf address) ∧
        writable (s'.pte (dirOf address) (indexOf address)) = true) ∧
      s'.mapped (dirOf address) (indexOf address) = true ∧
      (write = true → writable (s'.pte (dirOf address) (indexOf address)) = true) := by
  have hx : ((dirOf address, indexOf address) : ℕ × ℕ) ∈ userEntries :=
    mem_userEntries.mpr ⟨hd, indexOf_lt address⟩
  rw [Memory.touch] at hok
  split_ifs at hok with hm hprot
  · obtain ⟨hdir, hpres⟩ := (Memory.mapped_iff s).mp hm
    rw [Memory.doWpPage, Memory.entryOf_eq] at hok
    obtain ⟨hex, ht, hw⟩ := h.unWpPage_touched (x := (dirOf address, indexOf address)) hf hx hdir
      hpres hok
    exact ⟨hex, .inr ⟨ht, hw⟩, ht.mapped, fun _ => hw⟩
  · obtain rfl := Except.ok.inj hok
    refine ⟨h, .inl rfl, hm, fun hwr => ?_⟩
    rw [Memory.protection, hwr] at hprot
    simp only [Bool.true_and, Bool.or_eq_true, Bool.not_eq_true', Bool.and_eq_false_iff,
      not_or, Bool.not_eq_false] at hprot
    exact hprot.2.2
  · rw [Bool.not_eq_true] at hm
    obtain ⟨hex, ht, hw⟩ := h.doNoPage_touched hf hd hm hok
    exact ⟨hex, .inr ⟨ht, hw⟩, ht.mapped, fun _ => hw⟩

private theorem getFreePage_isSome {nr : ℕ} (hnr : nr < pagingPages) (hfree : s.memMap nr = 0) :
    ∃ r, s.getFreePage = some r := by
  cases hg : s.getFreePage with
  | some r => exact ⟨r, rfl⟩
  | none =>
    rw [Memory.getFreePage, Option.map_eq_none_iff] at hg
    exact absurd hfree (scanFree_eq_none hg hnr)

/-- With two free frames, one for the page and one for its table, an access does not run out of
memory. -/
theorem touch_ok (h : Exact s held) (hfree : s.TwoFree) {address : Word} (write : Bool)
    (hd : dirOf address ∈ userDirs) : ∃ s', s.touch write address = .ok s' := by
  obtain ⟨m, n, hne, hm, hn, hm0, hn0⟩ := hfree
  have hx : ((dirOf address, indexOf address) : ℕ × ℕ) ∈ userEntries :=
    mem_userEntries.mpr ⟨hd, indexOf_lt address⟩
  obtain ⟨⟨page, s₁⟩, hg⟩ := getFreePage_isSome hm hm0
  rw [Memory.touch]
  split_ifs with hmap
  · obtain ⟨hdir, hpres⟩ := (Memory.mapped_iff s).mp hmap
    rw [Memory.doWpPage, Memory.entryOf_eq]
    rcases h.unWpPage (x := (dirOf address, indexOf address)) hx hdir hpres with
      ⟨-, hnone⟩ | ⟨s', hs', -⟩
    · exact absurd (hg.symm.trans hnone) (by simp)
    · exact ⟨s', hs'⟩
  · exact ⟨s, rfl⟩
  · obtain ⟨p, rfl, hlo, -, hrefs, hex₁, hmap₁, hw₁⟩ := h.getFreePage hg
    -- One of the two frames is still free after the page has been taken.
    have hsome : ∃ r, s₁.getFreePage = some r := by
      by_cases hmp : m = p - 512
      · refine getFreePage_isSome hn ?_
        rw [hmap₁, Function.update_of_ne (by omega), hn0]
      · refine getFreePage_isSome hm ?_
        rw [hmap₁, Function.update_of_ne hmp, hm0]
    obtain ⟨⟨tmp, s₂⟩, hg₂⟩ := hsome
    rw [Memory.doNoPage, hg]
    dsimp only
    rw [Memory.putPage]
    by_cases hpres : present (s₁.word (dirOf address)) = true
    · rw [if_pos hpres]
      exact ⟨_, rfl⟩
    · rw [if_neg hpres, hg₂]
      exact ⟨_, rfl⟩

end Exact

end Handlers

end Linux001.Mm
