import Linux001.Mm.Memory
import Mathlib.Tactic.IntervalCases

/-!
# Entries of the page tables

How the bit operations of `mm/memory.c` act on the parts of an entry: the frame number in its upper
20 bits, the present bit and the write bit. Directory entries are words below the word address
1024; the entry `i` of the table that the directory entry `d` points to is `Memory.pte s d i`.

## Main definitions

* `frameOf`, `writable`: the frame number and the write bit of an entry.
* `Memory.pte`: the entries of the table of a directory entry.

## Main results

* `pageOf_eq`, `present_iff`: the masks of the source in terms of the frame and the present bit.
* `frameOf_clear`, `frameOf_set`, `frameOf_entry`: the frames of the entries the source builds.
* `lowMem_lt_iff`: the comparison of `copy_page_tables` with `LOW_MEM`, flag bits included, decides
  whether the frame of a present entry is at or above `LOW_MEM`.
-/

namespace Linux001.Mm

/-- The frame number in an entry. -/
def frameOf (e : Word) : ℕ := e.toNat / 4096

/-- The write bit of an entry. -/
def writable (e : Word) : Bool := e.getLsbD 1

/-- The entry the source writes for a page or a table: `page | 7`. -/
def entryFor (p : ℕ) : Word := BitVec.ofNat 32 (p * 4096) ||| 7

theorem ofNat_or_seven (p : ℕ) : BitVec.ofNat 32 (p * 4096) ||| 7 = entryFor p := rfl

private theorem mask_eq {n : ℕ} (h : n < 2 ^ 32) : 0xfffff000 &&& n = n / 4096 * 4096 := by
  refine Nat.eq_of_testBit_eq fun i => ?_
  rw [Nat.testBit_and, show (0xfffff000 : ℕ) = (2 ^ 20 - 1) <<< 12 from rfl,
    show n / 4096 * 4096 = (n >>> 12) <<< 12 by rw [Nat.shiftRight_eq_div_pow, Nat.shiftLeft_eq]]
  simp only [Nat.testBit_shiftLeft, Nat.testBit_shiftRight, Nat.testBit_two_pow_sub_one]
  by_cases hi : 12 ≤ i
  · rw [show 12 + (i - 12) = i by omega]
    by_cases hi' : i - 12 < 20
    · simp [hi, hi']
    · have hbit : n.testBit i = false := Nat.testBit_lt_two_pow
        (lt_of_lt_of_le h (Nat.pow_le_pow_right (by norm_num) (by omega)))
      simp [hbit]
  · simp [hi]

theorem pageOf_eq (e : Word) : pageOf e = frameOf e * 4096 := by
  rw [pageOf, BitVec.toNat_and]
  exact mask_eq e.isLt

theorem frameOf_lt (e : Word) : frameOf e < 2 ^ 20 := by
  have := e.isLt
  rw [frameOf]
  omega

theorem present_iff (e : Word) : present e = true ↔ e.toNat % 2 = 1 := by
  rw [present, bne_iff_ne, ne_eq, ← BitVec.toNat_inj, BitVec.toNat_and]
  have hand : (1 : Word).toNat &&& e.toNat = e.toNat % 2 := by
    rw [Nat.and_comm]
    exact Nat.and_one_is_mod _
  rw [hand]
  simp

@[simp] theorem not_present_zero : present 0#32 = false := by decide

private theorem frameOf_eq_shift (e : Word) : frameOf e = (e >>> 12).toNat := by
  rw [frameOf, BitVec.toNat_ushiftRight, Nat.shiftRight_eq_div_pow]

/-- Clearing the write bit keeps the frame. -/
@[simp] theorem frameOf_clear (e : Word) : frameOf (e &&& ~~~2) = frameOf e := by
  rw [frameOf_eq_shift, frameOf_eq_shift]
  congr 1
  ext i hi
  rw [BitVec.getElem_ushiftRight, BitVec.getElem_ushiftRight, BitVec.getLsbD_and]
  by_cases h : i + 12 < 32
  · have hbit : ∀ j : Fin 20, (~~~2 : Word).getLsbD (12 + j) = true := by decide
    rw [hbit ⟨i, by omega⟩, Bool.and_true]
  · simp [BitVec.getLsbD_of_ge e (12 + i) (by omega)]

/-- Setting the write bit keeps the frame. -/
@[simp] theorem frameOf_set (e : Word) : frameOf (e ||| 2) = frameOf e := by
  rw [frameOf_eq_shift, frameOf_eq_shift]
  congr 1
  ext i hi
  have hbit : (2 : Word).getLsbD (12 + i) = false := by
    by_cases h : i + 12 < 32
    · have hbit : ∀ j : Fin 20, (2 : Word).getLsbD (12 + j) = false := by decide
      exact hbit ⟨i, by omega⟩
    · exact BitVec.getLsbD_of_ge _ _ (by omega)
  rw [BitVec.getElem_ushiftRight, BitVec.getElem_ushiftRight, BitVec.getLsbD_or, hbit,
    Bool.or_false]

private theorem present_eq_getLsbD (e : Word) : present e = e.getLsbD 0 := by
  rw [Bool.eq_iff_iff, present_iff, BitVec.getLsbD, Nat.testBit_zero]
  simp

@[simp] theorem present_clear (e : Word) : present (e &&& ~~~2) = present e := by
  rw [present_eq_getLsbD, present_eq_getLsbD, BitVec.getLsbD_and,
    show (~~~2 : Word).getLsbD 0 = true by decide, Bool.and_true]

@[simp] theorem present_set (e : Word) : present (e ||| 2) = present e := by
  rw [present_eq_getLsbD, present_eq_getLsbD, BitVec.getLsbD_or,
    show (2 : Word).getLsbD 0 = false by decide, Bool.or_false]

@[simp] theorem not_writable_clear (e : Word) : writable (e &&& ~~~2) = false := by
  rw [writable, BitVec.getLsbD_and, show (~~~2 : Word).getLsbD 1 = false by decide, Bool.and_false]

@[simp] theorem writable_set (e : Word) : writable (e ||| 2) = true := by
  rw [writable, BitVec.getLsbD_or, show (2 : Word).getLsbD 1 = true by decide, Bool.or_true]

@[simp] theorem present_entryFor (p : ℕ) : present (entryFor p) = true := by
  rw [present_eq_getLsbD, entryFor, BitVec.getLsbD_or, show (7 : Word).getLsbD 0 = true by decide,
    Bool.or_true]

@[simp] theorem writable_entryFor (p : ℕ) : writable (entryFor p) = true := by
  rw [writable, entryFor, BitVec.getLsbD_or, show (7 : Word).getLsbD 1 = true by decide,
    Bool.or_true]

theorem frameOf_entryFor {p : ℕ} (h : p < 2 ^ 20) : frameOf (entryFor p) = p := by
  rw [frameOf, entryFor, BitVec.toNat_or, BitVec.toNat_ofNat, Nat.mod_eq_of_lt (by omega),
    show p * 4096 = 2 ^ 12 * p by ring, show (7 : Word).toNat = 7 from rfl,
    ← Nat.two_pow_add_eq_or_of_lt (by norm_num)]
  omega

/-- For a present entry the comparison `this_page > LOW_MEM`, with the flag bits still in
`this_page`, says that its frame is not below `LOW_MEM`. -/
theorem lowMem_lt_iff {e : Word} (h : present e = true) : lowMem < e.toNat ↔ 512 ≤ frameOf e := by
  rw [present_iff] at h
  rw [lowMem, frameOf]
  omega

theorem lowMem_le_pageOf_iff (e : Word) : lowMem ≤ pageOf e ↔ 512 ≤ frameOf e := by
  rw [pageOf_eq, lowMem]
  omega

theorem mapNr_pageOf (e : Word) : mapNr (pageOf e) = frameOf e - 512 := by
  rw [pageOf_eq, mapNr, lowMem, Nat.shiftRight_eq_div_pow]
  omega

/-- The index into `mem_map` that `copy_page_tables` computes from an entry with flag bits. -/
theorem mapNr_toNat (e : Word) : (e.toNat - lowMem) >>> 12 = frameOf e - 512 := by
  rw [frameOf, lowMem, Nat.shiftRight_eq_div_pow]
  omega

/-! ### Word addresses of table entries -/

theorem entry_div {i : ℕ} (hi : i < 1024) (t : ℕ) : (t * 1024 + i) / 1024 = t := by omega

theorem entry_mod {i : ℕ} (hi : i < 1024) (t : ℕ) : (t * 1024 + i) % 1024 = i := by omega

/-! ### Indices of linear addresses -/

theorem dirOf_eq (a : Word) : dirOf a = a.toNat / 2 ^ 22 := by
  have hlt := a.isLt
  rw [dirOf, BitVec.toNat_and, BitVec.toNat_ushiftRight, Nat.shiftRight_eq_div_pow,
    show (0xffc : Word).toNat = (2 ^ 10 - 1) <<< 2 from rfl]
  have hand : a.toNat / 2 ^ 20 &&& (2 ^ 10 - 1) <<< 2 = a.toNat / 2 ^ 22 * 4 := by
    refine Nat.eq_of_testBit_eq fun i => ?_
    rw [Nat.testBit_and, show a.toNat / 2 ^ 22 * 4 = (a.toNat >>> 22) <<< 2 by
        rw [Nat.shiftRight_eq_div_pow, Nat.shiftLeft_eq], ← Nat.shiftRight_eq_div_pow]
    simp only [Nat.testBit_shiftLeft, Nat.testBit_shiftRight, Nat.testBit_two_pow_sub_one]
    by_cases hi : 2 ≤ i
    · rw [show 22 + (i - 2) = 20 + i by omega]
      by_cases hi' : i - 2 < 10
      · simp [hi, hi']
      · have hbit : a.toNat.testBit (20 + i) = false := Nat.testBit_lt_two_pow
          (lt_of_lt_of_le hlt (Nat.pow_le_pow_right (by norm_num) (by omega)))
        simp [hbit]
    · simp [hi]
  rw [hand]
  omega

/-- The index of the table entry of a linear address. -/
def indexOf (a : Word) : ℕ := a.toNat / 4096 % 1024

theorem indexOf_lt (a : Word) : indexOf a < 1024 := Nat.mod_lt _ (by norm_num)

theorem toNat_index (a : Word) : ((a >>> 12) &&& 0x3ff).toNat = indexOf a := by
  rw [BitVec.toNat_and, BitVec.toNat_ushiftRight, Nat.shiftRight_eq_div_pow,
    show (0x3ff : Word).toNat = 2 ^ 10 - 1 from rfl, Nat.and_two_pow_sub_one_eq_mod, indexOf]

theorem toNat_and_align (a : Word) : a &&& 0x3fffff = 0 ↔ a.toNat % 2 ^ 22 = 0 := by
  rw [← BitVec.toNat_inj, BitVec.toNat_and, show (0x3fffff : Word).toNat = 2 ^ 22 - 1 from rfl,
    Nat.and_two_pow_sub_one_eq_mod]
  simp

namespace Memory

variable (s : Memory)

/-- The entry `i` of the table that the directory entry `d` points to. -/
def pte (d i : ℕ) : Word := s.word (frameOf (s.word d) * 1024 + i)

theorem pageTable_eq (e : Word) : pageOf e / 4 = frameOf e * 1024 := by
  rw [pageOf_eq]
  omega

@[simp] theorem store_memMap (a : ℕ) (v : Word) : (s.store a v).memMap = s.memMap := rfl

theorem store_word (a : ℕ) (v : Word) (b : ℕ) :
    (s.store a v).word b = if b = a then v else s.word b := by
  simp only [store, Function.update_apply]

@[simp] theorem store_word_self (a : ℕ) (v : Word) : (s.store a v).word a = v := by
  simp [store_word]

theorem store_word_of_ne {a b : ℕ} (h : b ≠ a) (v : Word) :
    (s.store a v).word b = s.word b := by
  simp [store_word, h]

@[simp] theorem setMap_word (nr c : ℕ) : (s.setMap nr c).word = s.word := rfl

theorem setMap_memMap (nr c k : ℕ) :
    (s.setMap nr c).memMap k = if k = nr then c else s.memMap k := by
  simp only [setMap, Function.update_apply]

theorem setMap_store (nr c a : ℕ) (v : Word) :
    (s.setMap nr c).store a v = (s.store a v).setMap nr c := rfl

theorem entryOf_eq (a : Word) :
    s.entryOf a = frameOf (s.word (dirOf a)) * 1024 + indexOf a := by
  have hpage : (0xfffff000 &&& s.word (dirOf a)).toNat = frameOf (s.word (dirOf a)) * 4096 :=
    pageOf_eq _
  have hframe := frameOf_lt (s.word (dirOf a))
  have hidx : ((a >>> 10) &&& 0xffc).toNat = indexOf a * 4 := by
    rw [BitVec.toNat_and, BitVec.toNat_ushiftRight, Nat.shiftRight_eq_div_pow,
      show (0xffc : Word).toNat = (2 ^ 10 - 1) <<< 2 from rfl, indexOf]
    refine Nat.eq_of_testBit_eq fun i => ?_
    rw [Nat.testBit_and, show a.toNat / 4096 % 1024 * 4 = (a.toNat >>> 12 % 2 ^ 10) <<< 2 by
        rw [Nat.shiftRight_eq_div_pow, Nat.shiftLeft_eq]
        norm_num, ← Nat.shiftRight_eq_div_pow]
    simp only [Nat.testBit_shiftLeft, Nat.testBit_shiftRight, Nat.testBit_two_pow_sub_one,
      Nat.testBit_mod_two_pow]
    by_cases hi : 2 ≤ i
    · rw [show 12 + (i - 2) = 10 + i by omega]
      by_cases hi' : i - 2 < 10 <;> simp [hi, hi']
    · simp [hi]
  have hlt := indexOf_lt a
  rw [entryOf, BitVec.toNat_add, hpage, hidx, Nat.mod_eq_of_lt (by omega)]
  omega

theorem dirCount_eq {size : Word} (h : size.toNat ≤ 2 ^ 32 - 2 ^ 22) :
    dirCount size = (size.toNat + 0x3fffff) / 2 ^ 22 := by
  rw [dirCount, BitVec.toNat_ushiftRight, BitVec.toNat_add, Nat.shiftRight_eq_div_pow,
    show (0x3fffff : Word).toNat = 0x3fffff from rfl, Nat.mod_eq_of_lt (by omega)]

end Memory

end Linux001.Mm
