import Mathlib.Algebra.GroupWithZero.Nat

/-!
# Sizes of tables

A numeral of `Fin n` comes with a proof that `n` is not zero. There is an instance for each size
that a table has, so that the numerals of all tables of a size go back to the same fact.
-/

namespace Linux001

instance neZero1 : NeZero 1 := ⟨by decide⟩

instance neZero2 : NeZero 2 := ⟨by decide⟩

instance neZero3 : NeZero 3 := ⟨by decide⟩

instance neZero4 : NeZero 4 := ⟨by decide⟩

instance neZero8 : NeZero 8 := ⟨by decide⟩

instance neZero9 : NeZero 9 := ⟨by decide⟩

instance neZero10 : NeZero 10 := ⟨by decide⟩

instance neZero17 : NeZero 17 := ⟨by decide⟩

instance neZero20 : NeZero 20 := ⟨by decide⟩

instance neZero32 : NeZero 32 := ⟨by decide⟩

instance neZero64 : NeZero 64 := ⟨by decide⟩

instance neZero512 : NeZero 512 := ⟨by decide⟩

instance neZero1024 : NeZero 1024 := ⟨by decide⟩

theorem lt_nine {n : ℕ} (h : n < 7) : n < 9 := by omega

end Linux001
