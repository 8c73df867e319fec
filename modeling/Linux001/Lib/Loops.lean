import Mathlib.Data.List.Range
import Mathlib.Tactic.Cases

/-!
# Counted loops

A `for` loop of the source whose counter runs through `0, …, n - 1` is a fold over `List.range n`.
The rules of this file prove a property of its result from an invariant indexed by the counter: it
holds with counter 0 before the loop, and every turn carries it from `k` to `k + 1`.

## Main results

* `foldl_range`: loops that always go through.
* `foldlM_range_ok`: loops whose turns may fail, when the invariant excludes failure.
-/

namespace Linux001

variable {σ ε : Type*}

/-- The invariant of a counted loop holds at its end. -/
theorem foldl_range {f : σ → ℕ → σ} {n : ℕ} (P : ℕ → σ → Prop) {s : σ} (h₀ : P 0 s)
    (hstep : ∀ k < n, ∀ s, P k s → P (k + 1) (f s k)) : P n ((List.range n).foldl f s) := by
  induction n with
  | zero => exact h₀
  | succ n ih =>
    rw [List.range_succ, List.foldl_append]
    exact hstep n (Nat.lt_succ_self n) _ (ih fun k hk => hstep k (Nat.lt_succ_of_lt hk))

/-- A counted loop whose invariant excludes the failure of every turn does not fail, and its
invariant holds at its end. -/
theorem foldlM_range_ok {f : σ → ℕ → Except ε σ} {n : ℕ} (P : ℕ → σ → Prop) {s : σ}
    (h₀ : P 0 s) (hstep : ∀ k < n, ∀ s, P k s → ∃ s', f s k = .ok s' ∧ P (k + 1) s') :
    ∃ s', (List.range n).foldlM f s = .ok s' ∧ P n s' := by
  induction n with
  | zero => exact ⟨s, rfl, h₀⟩
  | succ n ih =>
    obtain ⟨s₁, hs₁, hP₁⟩ := ih fun k hk => hstep k (Nat.lt_succ_of_lt hk)
    obtain ⟨s₂, hs₂, hP₂⟩ := hstep n (Nat.lt_succ_self n) s₁ hP₁
    refine ⟨s₂, ?_, hP₂⟩
    rw [List.range_succ, List.foldlM_append, hs₁]
    change (List.foldlM f s₁ [n]) = _
    rw [List.foldlM_cons, hs₂]
    rfl

end Linux001
