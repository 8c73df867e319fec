import Linux001.Lib.Panics
import Mathlib.Algebra.BigOperators.Group.List.Basic

/-!
# Ledgers

A ledger assigns to every state of a program a balance `v s` in a commutative group. Code *charges*
`δ` if it changes the balance by an amount that depends on its result only. Amounts of consecutive
parts add up, so that the amount of a function is found by following its control flow and needs no
knowledge of the states in between.

## Main definitions

* `Charges v m δ`: running `m` adds `δ a` to the balance, where `a` is the result.

## Main results

* `Charges.bind`, `Charges.seq`: sequencing.
* `Charges.forM`: a loop over a list charges the sum of what its turns charge.
-/

namespace Linux001

variable {σ ε α β G : Type} [AddCommGroup G] {v : σ → G}

/-- Unless it panics, `m` adds `δ a` to the balance `v`, where `a` is its result. -/
def Charges (v : σ → G) (m : StateT σ (Except ε) α) (δ : α → G) : Prop :=
  ∀ s, Ensures m s fun a s' => v s' = v s + δ a

namespace Charges

variable {m m' : StateT σ (Except ε) α} {f : α → StateT σ (Except ε) β} {δ : α → G} {ρ : β → G}

/-- The amount may be rewritten. -/
theorem congr {δ' : α → G} (h : Charges v m δ) (hδ : ∀ a, δ a = δ' a) : Charges v m δ' :=
  fun s => (h s).mono fun a _ hs => by rw [hs, hδ]

theorem pure {a : α} (h : δ a = 0) :
    Charges v (Pure.pure a : StateT σ (Except ε) α) δ :=
  fun s => ensures_pure.mpr (by rw [h, add_zero])

theorem throw {e : ε} : Charges v (MonadExcept.throw e : StateT σ (Except ε) α) δ :=
  fun _ => ensures_throw

/-- After `m` has charged `δ a`, the rest charges what is missing. -/
theorem bind (h : Charges v m δ) (hf : ∀ a, Charges v (f a) fun b => ρ b - δ a) :
    Charges v (m >>= f) ρ :=
  fun s => (h s).bind fun a s' hs => (hf a s').mono fun b s'' hs' => by
    rw [hs', hs, add_assoc, add_sub_cancel]

/-- A part that charges nothing. -/
theorem seq (h : Charges v m fun _ => 0) (hf : ∀ a, Charges v (f a) ρ) :
    Charges v (m >>= f) ρ :=
  h.bind fun a => (hf a).congr fun _ => (sub_zero _).symm

/-- Reading the state. -/
theorem get_bind {f : σ → StateT σ (Except ε) β} (hf : ∀ s, Charges v (f s) ρ) :
    Charges v (get >>= f) ρ :=
  fun s => hf s s

/-- An update of the state that keeps the balance. -/
theorem update {g : σ → σ} (hg : ∀ s, v (g s) = v s) :
    Charges v (modify g : StateT σ (Except ε) PUnit) fun _ => 0 :=
  fun s => ensures_modify.mpr (by rw [hg, add_zero])

theorem ite {c : Prop} [Decidable c] (ht : c → Charges v m δ) (hf : ¬ c → Charges v m' δ) :
    Charges v (if c then m else m') δ := by
  split
  · exact ht ‹_›
  · exact hf ‹_›

/-- The turns of a loop over a list add up. -/
theorem forM {γ : Type} {l : List γ} {f : γ → StateT σ (Except ε) PUnit} {d : γ → G}
    (h : ∀ c ∈ l, Charges v (f c) fun _ => d c) :
    Charges v (l.forM f) fun _ => (l.map d).sum := by
  induction l with
  | nil => exact .pure rfl
  | cons c l ih =>
    refine (h c List.mem_cons_self).bind fun _ => ?_
    refine (ih fun c hc => h c (List.mem_cons_of_mem _ hc)).congr fun _ => ?_
    rw [List.map_cons, List.sum_cons, add_sub_cancel_left]

end Charges

end Linux001
