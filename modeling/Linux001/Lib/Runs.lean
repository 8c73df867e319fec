import Mathlib.Tactic.Basic
import Mathlib.Logic.Basic
import Mathlib.Tactic.TypeStar

/-!
# Runs of labelled transition systems

A labelled transition system is given by a relation `step s e s'`: in the state `s` the event `e`
may happen and leads to `s'`. A *run* from `s₀` is a finite sequence of such steps, recorded as the
list of its events with the most recent event first. The events of a run are its history: what an
abstract specification says about a state is a function of that list.

Deterministic systems are given by a partial function `next : σ → ε → Option σ`; for them a run can
be computed from the list of events (`exec`), which is how concrete schedules are replayed.

## Main definitions

* `Runs step s₀ es s`: the events `es`, most recent first, lead from `s₀` to `s`.
* `exec next s es`: the state after the events `es`, oldest first, if all of them are enabled.

## Main results

* `Runs.invariant`: a property kept by every step holds at the end of every run.
* `Runs.simulation`: a relation to a function of the history, kept by every step, holds at the
  end of every run.
* `Runs.guard_congr`: two conditions on the steps that agree wherever an invariant holds allow the
  same runs.
* `runs_of_exec`, `runs_of_exec_guarded`: an executed schedule is a run.
-/

namespace Linux001

variable {σ ε : Type*}

/-- The events `es`, most recent first, lead from `s₀` to the last state. -/
inductive Runs (step : σ → ε → σ → Prop) (s₀ : σ) : List ε → σ → Prop
  | nil : Runs step s₀ [] s₀
  | cons {es : List ε} {e : ε} {s s' : σ} (h : Runs step s₀ es s) (hs : step s e s') :
      Runs step s₀ (e :: es) s'

namespace Runs

variable {step : σ → ε → σ → Prop} {s₀ s : σ} {es : List ε}

/-- A property of states that every step keeps holds at the end of every run. -/
theorem invariant {I : σ → Prop} (hI : ∀ s e s', I s → step s e s' → I s')
    (h₀ : I s₀) (h : Runs step s₀ es s) : I s := by
  induction h with
  | nil => exact h₀
  | cons _ hs ih => exact hI _ _ _ ih hs

/-- A relation between states and histories that every step keeps holds at the end of every run. -/
theorem simulation {R : List ε → σ → Prop}
    (hR : ∀ es s e s', R es s → step s e s' → R (e :: es) s')
    (h₀ : R [] s₀) (h : Runs step s₀ es s) : R es s := by
  induction h with
  | nil => exact h₀
  | cons _ hs ih => exact hR _ _ _ _ ih hs

/-- A run is a run of every system that has its steps. -/
theorem mono {step' : σ → ε → σ → Prop} (hstep : ∀ s e s', step s e s' → step' s e s')
    (h : Runs step s₀ es s) : Runs step' s₀ es s := by
  induction h with
  | nil => exact nil
  | cons _ hs ih => exact ih.cons (hstep _ _ _ hs)

/-- A run that goes on from the end of another one. -/
theorem append {es' : List ε} {s' : σ} (h : Runs step s₀ es s) (h' : Runs step s es' s') :
    Runs step s₀ (es' ++ es) s' := by
  induction h' with
  | nil => exact h
  | cons _ hs ih => exact ih.cons hs

/-- Two conditions on the steps allow the same runs when they agree in the states with an invariant
that the steps with the first condition keep. -/
theorem guard_congr {C C' : σ → ε → σ → Prop} {I : σ → Prop}
    (hC : ∀ s e s', I s → step s e s' → (C s e s' ↔ C' s e s'))
    (hI : ∀ s e s', I s → step s e s' ∧ C s e s' → I s') (h₀ : I s₀) :
    Runs (fun s e s' => step s e s' ∧ C s e s') s₀ es s ↔
      Runs (fun s e s' => step s e s' ∧ C' s e s') s₀ es s := by
  constructor
  · intro h
    have hboth : I s ∧ Runs (fun s e s' => step s e s' ∧ C' s e s') s₀ es s := by
      induction h with
      | nil => exact ⟨h₀, nil⟩
      | cons _ hs ih =>
        exact ⟨hI _ _ _ ih.1 hs, ih.2.cons ⟨hs.1, (hC _ _ _ ih.1 hs.1).mp hs.2⟩⟩
    exact hboth.2
  · intro h
    have hboth : I s ∧ Runs (fun s e s' => step s e s' ∧ C s e s') s₀ es s := by
      induction h with
      | nil => exact ⟨h₀, nil⟩
      | cons _ hs ih =>
        have hs' := (⟨hs.1, (hC _ _ _ ih.1 hs.1).mpr hs.2⟩ : _ ∧ _)
        exact ⟨hI _ _ _ ih.1 hs', ih.2.cons hs'⟩
    exact hboth.2

end Runs

/-- The state after the events `es`, oldest first, when each of them is enabled in turn. -/
def exec (next : σ → ε → Option σ) (s : σ) : List ε → Option σ
  | [] => some s
  | e :: es => (next s e).bind fun s' => exec next s' es

theorem exec_append {next : σ → ε → Option σ} {s : σ} (es es' : List ε) :
    exec next s (es ++ es') = (exec next s es).bind fun s' => exec next s' es' := by
  induction es generalizing s with
  | nil => rfl
  | cons e es ih =>
    simp only [List.cons_append, exec, ih, Option.bind_assoc]

private theorem runs_of_exec_aux {next : σ → ε → Option σ} {s₀ : σ} :
    ∀ {es past : List ε} {s s' : σ}, Runs (fun s e s' => next s e = some s') s₀ past s →
      exec next s es = some s' →
        Runs (fun s e s' => next s e = some s') s₀ (es.reverse ++ past) s'
  | [], _, _, _, hp, h => by
    obtain rfl := Option.some.inj h
    exact hp
  | e :: es, past, s, s', hp, h => by
    obtain ⟨s₁, hs₁, h⟩ := Option.bind_eq_some_iff.mp h
    simpa using runs_of_exec_aux (hp.cons hs₁) h

/-- A schedule executed with a condition on its steps is a run in which all of them meet it. -/
theorem runs_of_exec_guarded {next : σ → ε → Option σ} {C : σ → ε → σ → Prop}
    [∀ s e s', Decidable (C s e s')] {s₀ s : σ} {es : List ε}
    (h : exec (fun s e => (next s e).filter fun s' => C s e s') s₀ es = some s) :
    Runs (fun s e s' => next s e = some s' ∧ C s e s') s₀ es.reverse s := by
  have hrun := runs_of_exec_aux Runs.nil h
  rw [List.append_nil] at hrun
  refine hrun.mono fun s e s' hs => ?_
  obtain ⟨hnext, hC⟩ := Option.filter_eq_some_iff.mp hs
  exact ⟨hnext, of_decide_eq_true hC⟩

/-- An executed schedule is a run. -/
theorem runs_of_exec {next : σ → ε → Option σ} {s₀ s : σ} {es : List ε}
    (h : exec next s₀ es = some s) :
    Runs (fun s e s' => next s e = some s') s₀ es.reverse s := by
  simpa using runs_of_exec_aux Runs.nil h

end Linux001
