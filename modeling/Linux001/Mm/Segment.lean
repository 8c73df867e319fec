import Linux001.Mm.Memory
import Mathlib.Tactic.IntervalCases
import Mathlib.Tactic.NormNum

/-!
# Segment descriptors

The local descriptor table of a task gives its code and its data segment a base and a limit. The
macros of `linux/sched.h` read and write these fields where the processor has them, scattered over
the eight bytes of a descriptor; the limit is counted in pages, as the granularity bit says.

## Main definitions

* `Desc`: a descriptor, `struct desc_struct`.
* `Desc.getBase`, `Desc.setBase`, `Desc.getLimit`, `Desc.setLimit`: the macros.

## Main results

* `Desc.getBase_setBase`, `Desc.getLimit_setLimit`: what is written is read back.
* `Desc.getBase_setLimit`, `Desc.getLimit_setBase`: the two fields do not overlap.
-/

namespace Linux001.Mm

/-- `struct desc_struct`: the two halves of a descriptor. -/
structure Desc where
  a : Word
  b : Word
  deriving DecidableEq, Repr

namespace Desc

/-- `_get_base`: bytes 7 and 4 of the descriptor above its bytes 2 and 3. -/
def getBase (d : Desc) : Word :=
  (d.b &&& 0xff000000) ||| ((d.b &&& 0xff) <<< 16) ||| (d.a >>> 16)

/-- `_set_base`: bytes 2 and 3, byte 4 and byte 7 of the descriptor. -/
def setBase (base : Word) (d : Desc) : Desc where
  a := (d.a &&& 0xffff) ||| (base <<< 16)
  b := (d.b &&& 0xffff00) ||| ((base >>> 16) &&& 0xff) ||| (base &&& 0xff000000)

/-- The granularity bit: the limit is counted in pages. -/
def granular (d : Desc) : Bool := d.b.getLsbD 23

/-- The limit field: bytes 0 and 1, and the lower half of byte 6. -/
def limitField (d : Desc) : Word := (d.a &&& 0xffff) ||| (d.b &&& 0xf0000)

/-- `get_limit`: what `lsl` loads, scaled if the granularity bit says so, plus one. -/
def getLimit (d : Desc) : Word :=
  (if d.granular then (d.limitField <<< 12) ||| 0xfff else d.limitField) + 1

/-- `_set_limit`: bytes 0 and 1, and byte 6, whose upper half is kept by the mask 0xf0. -/
def setLimitField (limit : Word) (d : Desc) : Desc where
  a := (d.a &&& 0xffff0000) ||| (limit &&& 0xffff)
  b := (d.b &&& 0xfff0ffff) ||| (limit &&& 0xff0000)

/-- `set_limit`. -/
def setLimit (limit : Word) (d : Desc) : Desc := d.setLimitField ((limit - 1) >>> 12)

variable (d : Desc) (base limit : Word)

@[simp] theorem getBase_setBase : (d.setBase base).getBase = base := by
  ext i hi
  simp only [getBase, setBase, BitVec.getElem_or, BitVec.getElem_and, BitVec.getElem_shiftLeft,
    BitVec.getElem_ushiftRight, BitVec.getLsbD_or, BitVec.getLsbD_and, BitVec.getLsbD_shiftLeft]
  interval_cases i <;> simp

@[simp] theorem granular_setBase : (d.setBase base).granular = d.granular := by
  simp [granular, setBase]

@[simp] theorem getLimit_setBase : (d.setBase base).getLimit = d.getLimit := by
  have hfield : (d.setBase base).limitField = d.limitField := by
    ext i hi
    simp only [limitField, setBase, BitVec.getElem_or, BitVec.getElem_and,
      BitVec.getElem_shiftLeft, BitVec.getElem_ushiftRight]
    interval_cases i <;> simp
  rw [getLimit, getLimit, granular_setBase, hfield]

@[simp] theorem getBase_setLimit : (d.setLimit limit).getBase = d.getBase := by
  ext i hi
  simp only [getBase, setLimit, setLimitField, BitVec.getElem_or, BitVec.getElem_and,
    BitVec.getElem_shiftLeft, BitVec.getElem_ushiftRight, BitVec.getLsbD_or, BitVec.getLsbD_and]
  interval_cases i <;> simp

/-- A limit counted in pages has 20 bits. -/
theorem getLsbD_pages (i : ℕ) (hi : 20 ≤ i) : ((limit - 1) >>> 12).getLsbD i = false := by
  rw [BitVec.getLsbD_ushiftRight]
  exact BitVec.getLsbD_of_ge _ _ (by omega)

@[simp] theorem granular_setLimit : (d.setLimit limit).granular = d.granular := by
  have hbit := getLsbD_pages limit 23 (by norm_num)
  simp only [granular, setLimit, setLimitField, BitVec.getLsbD_or, BitVec.getLsbD_and, hbit]
  simp

theorem limitField_setLimitField (hfield : ∀ i, 20 ≤ i → limit.getLsbD i = false) :
    (d.setLimitField limit).limitField = limit := by
  ext i hi
  simp only [limitField, setLimitField, BitVec.getElem_or, BitVec.getElem_and]
  by_cases h : i < 20
  · interval_cases i <;> simp
  · have hbit : limit[i] = false := hfield i (by omega)
    rw [hbit]
    interval_cases i <;> simp

/-- A limit of whole pages is read back. -/
theorem getLimit_setLimit (hd : d.granular = true) (hpos : 0 < limit.toNat)
    (hmod : limit.toNat % 4096 = 0) : (d.setLimit limit).getLimit = limit := by
  have hlt := limit.isLt
  have hsub : (limit - 1).toNat = limit.toNat - 1 := by
    rw [BitVec.toNat_sub_of_le]
    · rfl
    · rw [BitVec.le_def]
      exact hpos
  have hlow : ((limit - 1) >>> 12 <<< 12) ||| 0xfff = limit - 1 := by
    refine BitVec.eq_of_toNat_eq ?_
    rw [BitVec.toNat_or, BitVec.toNat_shiftLeft, BitVec.toNat_ushiftRight, hsub,
      Nat.shiftRight_eq_div_pow, Nat.shiftLeft_eq, Nat.mod_eq_of_lt (by omega), Nat.mul_comm,
      show (0xfff : Word).toNat = 0xfff from rfl, ← Nat.two_pow_add_eq_or_of_lt (by norm_num)]
    omega
  rw [getLimit, granular_setLimit, if_pos hd, setLimit,
    limitField_setLimitField _ _ (getLsbD_pages limit), hlow]
  exact BitVec.sub_add_cancel limit 1

end Desc

end Linux001.Mm
