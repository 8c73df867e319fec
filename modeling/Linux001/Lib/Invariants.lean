import Linux001.Lib.Panics

/-!
# Invariants of sequential code

An invariant of a term of `StateT σ (Except ε) α` holds after it has run if it held before. The
invariants of a function are found by following its control flow; where a branch depends on the
state, the invariant itself may be used to see which branch is taken.

## Main definitions

* `Maintains I m`: `I` is an invariant of `m`.

## Main results

* `Maintains.bind`, `Maintains.get_bind`, `Maintains.ite`: sequencing, reading the state, branches.
* `Maintains.forM`: loops.
-/

namespace Linux001

variable {σ ε α β : Type} {I : σ → Prop}

/-- Unless it panics, `m` leaves a state with `I` when it is started in one. -/
def Maintains (I : σ → Prop) (m : StateT σ (Except ε) α) : Prop :=
  ∀ s, I s → Ensures m s fun _ s' => I s'

namespace Maintains

variable {m m' : StateT σ (Except ε) α} {f : α → StateT σ (Except ε) β}

theorem pure (a : α) : Maintains I (Pure.pure a : StateT σ (Except ε) α) :=
  fun _ h => ensures_pure.mpr h

theorem throw (e : ε) : Maintains I (MonadExcept.throw e : StateT σ (Except ε) α) :=
  fun _ _ => ensures_throw

theorem bind (h : Maintains I m) (hf : ∀ a, Maintains I (f a)) : Maintains I (m >>= f) :=
  fun s hs => (h s hs).bind fun a s' hs' => hf a s' hs'

/-- Reading the state, which satisfies the invariant. -/
theorem get_bind {f : σ → StateT σ (Except ε) β}
    (hf : ∀ s, I s → Ensures (f s) s fun _ s' => I s') :
    Maintains I (get >>= f) :=
  fun s hs => hf s hs

/-- Reading the state, when what is read does not matter. -/
theorem read_bind {f : σ → StateT σ (Except ε) β} (hf : ∀ s, Maintains I (f s)) :
    Maintains I (get >>= f) :=
  fun s hs => hf s s hs

theorem update {g : σ → σ} (hg : ∀ s, I s → I (g s)) :
    Maintains I (modify g : StateT σ (Except ε) PUnit) :=
  fun s hs => ensures_modify.mpr (hg s hs)

theorem ite {c : Prop} [Decidable c] (ht : Maintains I m) (hf : Maintains I m') :
    Maintains I (if c then m else m') := by
  split
  · exact ht
  · exact hf

theorem forM {γ : Type} {l : List γ} {f : γ → StateT σ (Except ε) PUnit}
    (h : ∀ c, Maintains I (f c)) : Maintains I (l.forM f) := by
  induction l with
  | nil => exact pure _
  | cons c l ih => exact (h c).bind fun _ => ih

end Maintains

end Linux001
