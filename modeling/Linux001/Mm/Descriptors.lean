import Linux001.Mm.Segment
import Linux001.Lib.Sizes
import Mathlib.Data.Fin.VecNotation
import Mathlib.Order.Interval.Finset.Nat
import Mathlib.Tactic.FinCases

/-!
# Segment descriptors in memory

The macros `_set_base`, `_set_limit`, `_get_base` and `get_limit` of `linux/sched.h` as they are
written, in assembler: they move the pieces of a base or of a limit between the register `%edx` and
the eight bytes of a descriptor. On the two words of a descriptor they are the functions of
`Linux001.Mm.Segment`.

## Main definitions

* `Descriptor`: the bytes of a descriptor, with `Descriptor.words` for the two words.
* `Descriptor.setBase`, `Descriptor.setLimit`, `Descriptor.getBase`, `Descriptor.getLimit`: the
  macros.
* `baseBits`, `limitBits`: where the two fields are.

## Main results

* `Descriptor.words_setBase`, `Descriptor.words_setLimit`: what the macros do to the words.
* `Descriptor.fields_consistent`: the fields are read as they have been written, and do not overlap.
-/

namespace Linux001.Mm

/-- The eight bytes of a descriptor. -/
abbrev Descriptor := Fin 8 → BitVec 8

namespace Descriptor

/-! ### Parts of a register -/

section Register

variable (edx : Word)

/-- `%dx`. -/
def dx : BitVec 16 := edx.setWidth 16

/-- `%dl`. -/
def dl : BitVec 8 := edx.setWidth 8

/-- `%dh`. -/
def dh : BitVec 8 := edx.extractLsb' 8 8

/-- `%edx` after a move to `%dx`. -/
def toDx (v : BitVec 16) : Word := (edx &&& 0xffff0000) ||| v.setWidth 32

/-- `%edx` after a move to `%dl`. -/
def toDl (v : BitVec 8) : Word := (edx &&& 0xffffff00) ||| v.setWidth 32

/-- `%edx` after a move to `%dh`. -/
def toDh (v : BitVec 8) : Word := (edx &&& 0xffff00ff) ||| v.setWidth 32 <<< 8

@[simp] theorem dl_toDh (v : BitVec 8) : dl (toDh edx v) = dl edx := by
  ext i hi
  interval_cases i <;> simp [dl, toDh]

@[simp] theorem dh_toDh (v : BitVec 8) : dh (toDh edx v) = v := by
  ext i hi
  interval_cases i <;> simp [dh, toDh]

@[simp] theorem dl_toDl (v : BitVec 8) : dl (toDl edx v) = v := by
  ext i hi
  interval_cases i <;> simp [dl, toDl]

end Register

/-- A word from its bytes. -/
def word (b₃ b₂ b₁ b₀ : BitVec 8) : Word := b₃ ++ b₂ ++ b₁ ++ b₀

/-! ### The macros -/

variable (m : Descriptor)

/-- `movb`, to the byte `k`. -/
def movb (v : BitVec 8) (k : Fin 8) : Descriptor := Function.update m k v

/-- `movw`, to the byte `k` and the next one. -/
def movw (v : BitVec 16) (k : Fin 8) : Descriptor :=
  (m.movb (v.setWidth 8) k).movb (v.extractLsb' 8 8) (k + 1)

/-- What `movw` loads, from the byte `k` and the next one. -/
def loadw (k : Fin 8) : BitVec 16 := (m (k + 1)).setWidth 16 <<< 8 ||| (m k).setWidth 16

/-- `_set_base`. -/
def setBase (base : Word) : Descriptor :=
  let edx := base
  let m := m.movw (dx edx) 2
  let edx := edx.rotateRight 16
  let m := m.movb (dl edx) 4
  m.movb (dh edx) 7

/-- `_set_limit`. -/
def setLimitField (limit : Word) : Descriptor :=
  let edx := limit
  let m := m.movw (dx edx) 0
  let edx := edx.rotateRight 16
  let edx := toDh edx (m 6)
  let edx := toDh edx (dh edx &&& 0xf0)
  let edx := toDl edx (dl edx ||| dh edx)
  m.movb (dl edx) 6

/-- `set_limit`. -/
def setLimit (limit : Word) : Descriptor := m.setLimitField ((limit - 1) >>> 12)

/-- `_get_base`, with what is in `%edx` before. -/
def getBase (edx : Word) : Word :=
  let edx := toDh edx (m 7)
  let edx := toDl edx (m 4)
  let edx := edx <<< 16
  toDx edx (m.loadw 2)

/-- The granularity bit. -/
def granular : Bool := (m 6).getLsbD 7

/-- The limit that `lsll` loads. -/
def lsll : Word :=
  let field := word 0 (m 6 &&& 0x0f) (m 1) (m 0)
  if m.granular then (field <<< 12) ||| 0xfff else field

/-- `get_limit`: `lsll` and `incl`. -/
def getLimit : Word := m.lsll + 1

/-- The two words of a descriptor, with their low bytes first. -/
def words : Desc := ⟨word (m 3) (m 2) (m 1) (m 0), word (m 7) (m 6) (m 5) (m 4)⟩

/-! ### What they do to the words -/

theorem getElem_word (b₃ b₂ b₁ b₀ : BitVec 8) (i : ℕ) (hi : i < 32) : (word b₃ b₂ b₁ b₀)[i] =
    if i < 8 then b₀.getLsbD i else if i < 16 then b₁.getLsbD (i - 8)
    else if i < 24 then b₂.getLsbD (i - 16) else b₃.getLsbD (i - 24) := by
  rw [← BitVec.getLsbD_eq_getElem, word, BitVec.getLsbD_append, BitVec.getLsbD_append,
    BitVec.getLsbD_append, Nat.sub_sub, Nat.sub_sub]
  split_ifs <;> first | rfl | omega

theorem dl_rotateRight (w : Word) : dl (w.rotateRight 16) = w.extractLsb' 16 8 := by
  ext i hi
  interval_cases i <;> simp [dl]

theorem dh_rotateRight (w : Word) : dh (w.rotateRight 16) = w.extractLsb' 24 8 := by
  ext i hi
  interval_cases i <;> simp [dh]

theorem words_setBase (base : Word) : (m.setBase base).words = m.words.setBase base := by
  refine congrArg₂ Desc.mk ?_ ?_
  · change word ((dx base).extractLsb' 8 8) ((dx base).setWidth 8) (m 1) (m 0) = _
    ext i hi
    interval_cases i <;> simp [getElem_word, dx, words]
  · change word (dh (base.rotateRight 16)) (m 6) (m 5) (dl (base.rotateRight 16)) = _
    rw [dh_rotateRight, dl_rotateRight]
    ext i hi
    interval_cases i <;> simp [getElem_word, words]

/-- The byte that `_set_limit` shares with the flags. -/
theorem setLimitField_six (limit : Word) :
    m.setLimitField limit 6 = limit.extractLsb' 16 8 ||| (m 6 &&& 0xf0) := by
  change dl (toDl _ _) = _
  rw [dl_toDl, dl_toDh, dl_toDh, dh_toDh, dh_toDh, dl_rotateRight]
  rfl

theorem words_setLimitField (limit : Word) :
    (m.setLimitField limit).words = m.words.setLimitField limit := by
  refine congrArg₂ Desc.mk ?_ ?_
  · change word (m 3) (m 2) ((dx limit).extractLsb' 8 8) ((dx limit).setWidth 8) = _
    ext i hi
    interval_cases i <;> simp [getElem_word, dx, words]
  · change word (m 7) (m.setLimitField limit 6) (m 5) (m 4) = _
    rw [setLimitField_six, BitVec.or_comm]
    ext i hi
    interval_cases i <;> simp [getElem_word, words]

theorem words_setLimit (limit : Word) : (m.setLimit limit).words = m.words.setLimit limit :=
  m.words_setLimitField _

theorem getBase_eq (edx : Word) : m.getBase edx = m.words.getBase := by
  ext i hi
  interval_cases i <;> simp [getBase, Desc.getBase, toDx, toDl, toDh, loadw, words, getElem_word]

theorem granular_eq : m.granular = m.words.granular := by
  simp [granular, Desc.granular, words, getElem_word]

theorem getLimit_eq : m.getLimit = m.words.getLimit := by
  have hfield : word 0 (m 6 &&& 0x0f) (m 1) (m 0) = m.words.limitField := by
    ext i hi
    interval_cases i <;> simp [Desc.limitField, words, getElem_word]
  rw [getLimit, lsll, Desc.getLimit, granular_eq, hfield]

/-! ### Where the fields are -/

/-- The bits of the base. -/
def baseBits : Finset ℕ := Finset.Ico 16 40 ∪ Finset.Ico 56 64

/-- The bits of the limit. -/
def limitBits : Finset ℕ := Finset.Ico 0 16 ∪ Finset.Ico 48 52

variable {m}

/-- `_set_base` stores to the bytes of the base only. -/
theorem getLsbD_setBase {base : Word} {k : Fin 8} {j : ℕ} (hj : j < 8)
    (h : 8 * k.val + j ∉ baseBits) : (m.setBase base k).getLsbD j = (m k).getLsbD j := by
  simp only [baseBits, Finset.mem_union, Finset.mem_Ico] at h
  fin_cases k
  all_goals first
    | rfl
    | exact absurd h (by simp only []; omega)

/-- `_set_limit` keeps the upper half of the byte that it shares. -/
theorem getLsbD_setLimit {limit : Word} {k : Fin 8} {j : ℕ} (hj : j < 8)
    (h : 8 * k.val + j ∉ limitBits) : (m.setLimit limit k).getLsbD j = (m k).getLsbD j := by
  simp only [limitBits, Finset.mem_union, Finset.mem_Ico] at h
  fin_cases k
  case «6» =>
    have hle : 4 ≤ j := by
      simp only [] at h
      omega
    change (m.setLimitField _ 6).getLsbD j = _
    rw [setLimitField_six, BitVec.getLsbD_or, BitVec.getLsbD_extractLsb',
      Desc.getLsbD_pages limit _ (by omega), Bool.and_false, Bool.false_or]
    interval_cases j <;> simp
  all_goals first
    | rfl
    | exact absurd h (by simp only []; omega)

theorem setBase_setLimitField (base limit : Word) :
    (m.setLimitField limit).setBase base = (m.setBase base).setLimitField limit := by
  funext k
  fin_cases k <;> rfl

/-- **Base and limit of a descriptor are consistent.** They are read as they have been written, the
limit in whole pages if the granularity bit is set; the macros that write them commute, and do not
touch any bits but those of their own field. -/
theorem fields_consistent (m : Descriptor) (base limit edx : Word) (hle : 4096 ≤ limit.toNat)
    (hdvd : 4096 ∣ limit.toNat) :
    (m.setBase base).getBase edx = base ∧
      (m.granular = true → (m.setLimit limit).getLimit = limit) ∧
      (m.setLimit limit).setBase base = (m.setBase base).setLimit limit ∧
      (∀ (k : Fin 8) (j : ℕ), j < 8 → 8 * k.val + j ∉ baseBits →
        (m.setBase base k).getLsbD j = (m k).getLsbD j) ∧
      ∀ (k : Fin 8) (j : ℕ), j < 8 → 8 * k.val + j ∉ limitBits →
        (m.setLimit limit k).getLsbD j = (m k).getLsbD j := by
  refine ⟨?_, fun hgranular => ?_, setBase_setLimitField base _, fun k j => getLsbD_setBase,
    fun k j => getLsbD_setLimit⟩
  · rw [getBase_eq, words_setBase, Desc.getBase_setBase]
  · rw [granular_eq] at hgranular
    rw [getLimit_eq, words_setLimit]
    exact Desc.getLimit_setLimit _ _ hgranular (by omega) (Nat.mod_eq_zero_of_dvd hdvd)

/-- The code segment of `INIT_TASK`. -/
def initCode : Descriptor := ![0x9f, 0x00, 0x00, 0x00, 0x00, 0xfa, 0xc0, 0x00]

/-- It gets another base, and the largest limit. -/
theorem fields_consistent_initCode : (initCode.setBase 0x04000000).getBase 0 = 0x04000000 ∧
    (initCode.setLimit 0xFFFFF000).getLimit = 0xFFFFF000 := by
  obtain ⟨hbase, hlimit, -⟩ :=
    fields_consistent initCode 0x04000000 0xFFFFF000 0 (by decide) (by decide)
  exact ⟨hbase, hlimit (by decide)⟩

end Descriptor

end Linux001.Mm
