import Linux001.Lib.Panics

/-!
# Code that leaves a part of the state alone

A function of the kernel changes little of what it can reach. What it leaves alone is a view `v` of
the state that it *fixes*: after it has run, the view is what it was before. The views that code
fixes are found by following its control flow.

## Main definitions

* `Fixes v m`: running `m` does not change the view `v`.

## Main results

* `Fixes.bind`, `Fixes.ite`, `Fixes.forM`: sequencing, branches and loops.
-/

namespace Linux001

variable {σ ε α β τ : Type} {v : σ → τ}

/-- Unless it panics, `m` does not change the view `v`. -/
def Fixes (v : σ → τ) (m : StateT σ (Except ε) α) : Prop :=
  ∀ s, Ensures m s fun _ s' => v s' = v s

namespace Fixes

variable {m m' : StateT σ (Except ε) α} {f : α → StateT σ (Except ε) β}

theorem pure (a : α) : Fixes v (Pure.pure a : StateT σ (Except ε) α) :=
  fun _ => ensures_pure.mpr rfl

theorem throw (e : ε) : Fixes v (MonadExcept.throw e : StateT σ (Except ε) α) :=
  fun _ => ensures_throw

theorem bind (h : Fixes v m) (hf : ∀ a, Fixes v (f a)) : Fixes v (m >>= f) :=
  fun s => (h s).bind fun a s' hs => (hf a s').mono fun _ _ hs' => hs'.trans hs

/-- Reading the state. -/
theorem get_bind {f : σ → StateT σ (Except ε) β} (hf : ∀ s, Fixes v (f s)) :
    Fixes v (get >>= f) :=
  fun s => hf s s

theorem update {g : σ → σ} (hg : ∀ s, v (g s) = v s) :
    Fixes v (modify g : StateT σ (Except ε) PUnit) :=
  fun s => ensures_modify.mpr (hg s)

theorem ite {c : Prop} [Decidable c] (ht : Fixes v m) (hf : Fixes v m') :
    Fixes v (if c then m else m') := by
  split
  · exact ht
  · exact hf

theorem dite {c : Prop} [Decidable c] {m : c → StateT σ (Except ε) α}
    {m' : ¬ c → StateT σ (Except ε) α} (ht : ∀ h, Fixes v (m h)) (hf : ∀ h, Fixes v (m' h)) :
    Fixes v (if h : c then m h else m' h) := by
  split
  · exact ht _
  · exact hf _

theorem forM {γ : Type} {l : List γ} {f : γ → StateT σ (Except ε) PUnit}
    (h : ∀ c, Fixes v (f c)) : Fixes v (l.forM f) := by
  induction l with
  | nil => exact pure _
  | cons c l ih => exact (h c).bind fun _ => ih

end Fixes

end Linux001
