import Mathlib.Data.Nat.Basic
import Mathlib.Data.Nat.Notation
import Mathlib.Logic.Function.Basic
import Mathlib.Tactic.SplitIfs

/-!
# Copying into a sequence

A loop that copies `len` items to consecutive places of a sequence, from the place `off` on, leaves
the items there and everything else as it was. Loops of single stores build such a copy one item at
a time, and copies to adjacent places join.

## Main definitions

* `overlay F off len f`: the sequence `F` with the first `len` items of `f` at `off`.

## Main results

* `overlay_succ`: one more item.
* `overlay_add`: a copy that is made in two parts.
-/

namespace Linux001

variable {α : Type*}

/-- The items of `F`, with those of `f` in the `len` places from `off` on. -/
def overlay (F : ℕ → α) (off len : ℕ) (f : ℕ → α) : ℕ → α := fun o =>
  if off ≤ o ∧ o < off + len then f (o - off) else F o

variable {F f : ℕ → α} {off len o : ℕ}

theorem overlay_zero (F f : ℕ → α) (off : ℕ) : overlay F off 0 f = F := by
  funext o
  rw [overlay, if_neg (by omega)]

theorem overlay_succ (F f : ℕ → α) (off k : ℕ) :
    Function.update (overlay F off k f) (off + k) (f k) = overlay F off (k + 1) f := by
  funext o
  rw [Function.update_apply, overlay, overlay]
  split_ifs with h₁ h₂ h₃ h₄ h₅
  · rw [h₁, Nat.add_sub_cancel_left]
  · omega
  · rfl
  · omega
  · omega
  · rfl

theorem overlay_of_mem (h₁ : off ≤ o) (h₂ : o < off + len) : overlay F off len f o = f (o - off) :=
  if_pos ⟨h₁, h₂⟩

theorem overlay_of_notMem (h : o < off ∨ off + len ≤ o) : overlay F off len f o = F o :=
  if_neg (by omega)

/-- A copy that is made in two parts. -/
theorem overlay_add (F f : ℕ → α) (off len len' : ℕ) :
    overlay (overlay F off len f) (off + len) len' (fun i => f (len + i)) =
      overlay F off (len + len') f := by
  funext o
  rw [overlay, overlay, overlay]
  split_ifs with h₁ h₂ h₃ h₄ h₅
  · exact congrArg f (by omega)
  · omega
  · rfl
  · omega
  · omega
  · rfl

end Linux001
