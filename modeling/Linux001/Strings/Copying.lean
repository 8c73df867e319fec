import Linux001.Lib.StringOps

/-!
# Copying memory

`memcpy` and `memmove` of `string.h`. `memcpy` always copies upwards, `memmove` looks at the order
of the two areas.

## Main definitions

* `memcpy`, `memmove`: the functions, with the value they return and the memory.

## Main results

* `memmove_copied`: `memmove` copies whatever the two areas have in common.
* `memcpy_copied_iff`: when `memcpy` copies.
-/

namespace Linux001.Strings

open I386

/-- `memcpy`. -/
def memcpy (dest src n : Word) (m : Bytes) : Word × Bytes :=
  (dest, repMovsb true n.toNat src dest m)

/-- `memmove`. -/
def memmove (dest src n : Word) (m : Bytes) : Word × Bytes :=
  if dest < src then (dest, repMovsb true n.toNat src dest m)
  else (dest, repMovsb false n.toNat (src + n - 1) (dest + n - 1) m)

section Moves

variable {dest src n : Word} {m : Bytes}

/-- Bytes of two areas that do not run around the end of memory. -/
theorem bytes_ne {i j : ℕ} (hdest : dest.toNat + n.toNat ≤ 2 ^ 32)
    (hsrc : src.toNat + n.toNat ≤ 2 ^ 32) (hi : i < n.toNat) (hj : j < n.toNat)
    (hne : dest.toNat + i ≠ src.toNat + j) :
    dest + BitVec.ofNat 32 i ≠ src + BitVec.ofNat 32 j := fun heq => by
  have hnat := congrArg BitVec.toNat heq
  rw [toNat_add_ofNat (by omega), toNat_add_ofNat (by omega)] at hnat
  exact hne hnat

/-- **`memmove` copies overlapping areas.** The destination gets what the source held before, and
nothing else is changed. -/
theorem memmove_copied (hdest : dest.toNat + n.toNat ≤ 2 ^ 32)
    (hsrc : src.toNat + n.toNat ≤ 2 ^ 32) (m : Bytes) :
    (memmove dest src n m).1 = dest ∧ Copied m (memmove dest src n m).2 dest src n.toNat := by
  have hn : n.toNat ≤ 2 ^ 32 := n.isLt.le
  rw [memmove]
  split_ifs with hlt
  · rw [BitVec.lt_def] at hlt
    refine ⟨rfl, copied_up hn fun i j hij hj => ?_⟩
    exact bytes_ne hdest hsrc (by omega) hj (by omega)
  · rw [BitVec.lt_def] at hlt
    have hlater (i j : ℕ) (hji : j < i) (hi : i < n.toNat) :
        dest + BitVec.ofNat 32 i ≠ src + BitVec.ofNat 32 j :=
      bytes_ne hdest hsrc hi (by omega) (by omega)
    have hcopied := copied_down (m := m) hn hlater
    rw [BitVec.ofNat_toNat, BitVec.setWidth_eq] at hcopied
    exact ⟨rfl, hcopied⟩

theorem memmove_copied_overlap : (memmove 9 8 2 fun x => x.setWidth 8).1 = 9 ∧
    Copied (fun x => x.setWidth 8) (memmove 9 8 2 fun x => x.setWidth 8).2 9 8 2 :=
  memmove_copied (n := 2) (by decide) (by decide) _

/-- **When `memcpy` copies.** It does for every contents of memory if and only if the destination
does not begin within the source. -/
theorem memcpy_copied_iff (hdest : dest.toNat + n.toNat ≤ 2 ^ 32)
    (hsrc : src.toNat + n.toNat ≤ 2 ^ 32) :
    (∀ m, Copied m (memcpy dest src n m).2 dest src n.toNat) ↔
      ¬(src.toNat < dest.toNat ∧ dest.toNat < src.toNat + n.toNat) := by
  constructor
  · rintro hall ⟨hlt, hin⟩
    obtain ⟨gap, hgap⟩ := Nat.exists_eq_add_of_lt hlt
    have hdst : dest = src + BitVec.ofNat 32 (gap + 1) := by
      refine BitVec.eq_of_toNat_eq ?_
      rw [toNat_add_ofNat (by omega)]
      omega
    have hne : dest ≠ src := fun heq => by
      rw [heq] at hlt
      exact lt_irrefl _ hlt
    -- The first byte of the source differs from the first byte of the destination.
    have hcopied := (hall fun x => if x = src then 1 else 0).copied (gap + 1) (by omega)
    have hrepeats := repMovsb_repeats (m := fun x => if x = src then 1 else 0) (i := gap + 1)
      (by omega) (by omega) n.isLt.le hdst (by omega)
    rw [Nat.mod_self, BitVec.add_zero, if_pos rfl] at hrepeats
    rw [← hdst, if_neg hne] at hcopied
    exact absurd (hrepeats.symm.trans hcopied) (by decide)
  · intro hnot m
    exact copied_up n.isLt.le fun i j hij hj => bytes_ne hdest hsrc (by omega) hj (by omega)

theorem memcpy_copied_iff_overlap :
    (∀ m, Copied m (memcpy 9 8 2 m).2 9 8 2) ↔ ¬(8 < 9 ∧ 9 < 8 + 2) :=
  memcpy_copied_iff (n := 2) (by decide) (by decide)

end Moves

end Linux001.Strings
