import Mathlib.Logic.Function.Basic
import Mathlib.Order.Basic
import Mathlib.Tactic.Linarith
import Linux001.Lib.Runs
import Linux001.Lib.Sizes

/-!
# The wait queue of `sleep_on` and `wake_up`

The model of `sleep_on` and `wake_up` of `kernel/sched.c` on one wait queue `p`. The queue has no
memory of its own but `*p`: each sleeper keeps the previous value of `*p` in its local variable
`tmp`, and when it runs again it makes that task runnable. Tasks switch only inside `schedule`, so
that `sleep_on` is one step up to its call of `schedule`, and what follows is part of the step that
switches back to the sleeper. `schedule` may pick any task whose state is `TASK_RUNNING`, or task 0.

Two fields record the past: `slept` counts the calls of `sleep_on` of a task, and `woken t k` counts
how often `state = 0` has been stored for the task `t` during its `k`-th sleep.

A pointer to a sleeper is in exactly one place, `*p` or the `tmp` of a later sleeper. This holds
the several chains together into which the queue falls apart when new sleepers arrive before the
woken ones have run.

## Main definitions

* `State`, `sleepOn`, `wakeUp`, `switchTo`, `next`: the queue and its steps.
* `Reaches`: a task is found by following the saved `tmp` pointers.

## Main results

* `sleepers_woken`: no sleeper is lost, and each is made runnable exactly once.
-/

namespace Linux001.Sched

variable {T : Type*} [DecidableEq T]

/-- The wait queue and the tasks that use it. -/
structure State (T : Type*) where
  /-- `*p`. -/
  head : Option T
  /-- The local variable `tmp` of a task inside `sleep_on`. -/
  tmp : T → Option (Option T)
  /-- The state of the task is `TASK_UNINTERRUPTIBLE`, and not `TASK_RUNNING`. -/
  asleep : T → Bool
  current : T
  slept : T → ℕ
  woken : T → ℕ → ℕ

/-- Nobody has slept yet. -/
def State.init (current : T) : State T :=
  { head := none
    tmp := fun _ => none
    asleep := fun _ => false
    current := current
    slept := fun _ => 0
    woken := fun _ _ => 0 }

/-- `t->state = 0`. -/
def State.setRunning (s : State T) (t : T) : State T :=
  { s with
    asleep := Function.update s.asleep t false
    woken := Function.update s.woken t
      (Function.update (s.woken t) (s.slept t) (s.woken t (s.slept t) + 1)) }

/-- `wake_up(p)`. -/
def State.wakeUp (s : State T) : State T :=
  match s.head with
  | none => s
  | some t => { s.setRunning t with head := none }

/-- The end of `schedule`, which switches to `next`: a task in `sleep_on` runs to the end of it. -/
def State.switchTo (s : State T) (idle next : T) : Option (State T) :=
  if s.asleep next = true ∧ next ≠ idle then none
  else
    match s.tmp next with
    | none => some { s with current := next }
    | some x =>
      let s := { s with current := next, tmp := Function.update s.tmp next none }
      match x with
      | none => some s
      | some t => some (s.setRunning t)

/-- `sleep_on(p)` of the current task up to its call of `schedule`. -/
def State.enter (s : State T) : State T :=
  { s with
    head := some s.current
    tmp := Function.update s.tmp s.current (some s.head)
    asleep := Function.update s.asleep s.current true
    slept := Function.update s.slept s.current (s.slept s.current + 1) }

/-- What the current task does. -/
inductive Event (T : Type*)
  /-- It calls `sleep_on(p)`, and `schedule` switches to `next`. -/
  | sleepOn (next : T)
  /-- It calls `wake_up(p)`. -/
  | wakeUp
  /-- It calls `schedule` elsewhere. -/
  | schedule (next : T)

/-- The step of an event; task 0 (`idle`) panics when it tries to sleep. -/
def State.next (idle : T) (s : State T) : Event T → Option (State T)
  | .sleepOn next => if s.current = idle then none else s.enter.switchTo idle next
  | .wakeUp => some s.wakeUp
  | .schedule next => s.switchTo idle next

/-- The steps of the system. -/
def Step (idle : T) (s : State T) (e : Event T) (s' : State T) : Prop := s.next idle e = some s'

/-- The task `t` is found from the pointer `x` by following the saved `tmp` pointers. -/
inductive Reaches (s : State T) : Option T → T → Prop
  | here (t : T) : Reaches s (some t) t
  | next {u t : T} {x : Option T} (hu : s.tmp u = some x) (h : Reaches s x t) :
      Reaches s (some u) t

/-! ### Steps -/

/-- A step is one of three: a task enters `sleep_on` and another runs on, the queue is woken, or a
task runs on. -/
theorem next_cases {idle : T} {s s' : State T} {e : Event T} (h : s.next idle e = some s') :
    (s.current ≠ idle ∧ ∃ u, s.enter.switchTo idle u = some s') ∨ s' = s.wakeUp ∨
      ∃ u, s.switchTo idle u = some s' := by
  cases e with
  | sleepOn u =>
    simp only [State.next] at h
    split at h
    · cases h
    · exact .inl ⟨‹_›, u, h⟩
  | wakeUp => exact .inr (.inl (Option.some.inj h).symm)
  | schedule u => exact .inr (.inr ⟨u, h⟩)

/-- What follows the switch to a task that is not asleep. -/
theorem switchTo_cases {idle u : T} {s s' : State T} (hidle : s.tmp idle = none)
    (h : s.switchTo idle u = some s') :
    (s.tmp u = none ∧ s' = { s with current := u }) ∨
    (s.asleep u = false ∧ s.tmp u = some none ∧
      s' = { s with current := u, tmp := Function.update s.tmp u none }) ∨
    (s.asleep u = false ∧ ∃ t, s.tmp u = some (some t) ∧
      s' = State.setRunning { s with current := u, tmp := Function.update s.tmp u none } t) := by
  unfold State.switchTo at h
  split at h
  · cases h
  · rename_i hrun
    have hu (x : Option T) (hx : s.tmp u = some x) : s.asleep u = false := by
      by_contra hne
      refine hrun ⟨by simpa using hne, ?_⟩
      rintro rfl
      rw [hidle] at hx
      cases hx
    split at h
    · rename_i htmp
      cases h
      exact .inl ⟨htmp, rfl⟩
    · rename_i x htmp
      refine .inr ?_
      cases x with
      | none =>
        cases h
        exact .inl ⟨hu _ htmp, htmp, rfl⟩
      | some t =>
        cases h
        exact .inr ⟨hu _ htmp, t, htmp, rfl⟩

/-! ### Where the pointers are -/

/-- Every sleeper is named by exactly one pointer, `*p` or the `tmp` of a later sleeper. The tasks
in `sleep_on` are ranked by the time they entered it, up to `bound`. -/
structure Inv (idle : T) (s : State T) (rank : T → ℕ) (bound : ℕ) : Prop where
  idle : s.tmp idle = none
  frame : ∀ {t}, s.asleep t = true → s.tmp t ≠ none
  rank_le : ∀ {t}, s.tmp t ≠ none → rank t ≤ bound
  slept : ∀ {t}, s.tmp t ≠ none → 1 ≤ s.slept t
  head : ∀ {t}, s.head = some t → s.asleep t = true
  tmp : ∀ {t u}, s.tmp u = some (some t) → s.asleep t = true ∧ rank t < rank u
  head_tmp : ∀ {t u}, s.head = some t → s.tmp u ≠ some (some t)
  tmp_inj : ∀ {t u v}, s.tmp u = some (some t) → s.tmp v = some (some t) → u = v
  pointed : ∀ {t}, s.asleep t = true → s.head = some t ∨ ∃ u, s.tmp u = some (some t)
  count : ∀ t k, s.woken t k =
    if 1 ≤ k ∧ (k < s.slept t ∨ k = s.slept t ∧ s.asleep t = false) then 1 else 0

namespace Inv

variable {idle : T} {s s' : State T} {rank : T → ℕ} {bound : ℕ}

omit [DecidableEq T] in
theorem init (c : T) : Inv idle (State.init c) (fun _ => 0) 0 where
  idle := rfl
  frame h := nomatch h
  rank_le h := absurd rfl h
  slept h := absurd rfl h
  head h := nomatch h
  tmp h := nomatch h
  head_tmp h := nomatch h
  tmp_inj h := nomatch h
  pointed h := nomatch h
  count t k := by
    simp only [State.init]
    rw [if_neg]
    omega

/-- A task that is not in `sleep_on` enters it. -/
theorem enter (h : Inv idle s rank bound) (hcur : s.tmp s.current = none)
    (hne : s.current ≠ idle) :
    Inv idle s.enter (Function.update rank s.current (bound + 1)) (bound + 1) := by
  set c := s.current with hc
  have hawake : s.asleep c = false := by
    by_contra hcon
    exact h.frame (by simpa using hcon) hcur
  have hsleeper {t : T} (ht : s.asleep t = true) : t ≠ c := by
    rintro rfl
    rw [hawake] at ht
    cases ht
  have htmp {u : T} {x : Option T} (hu : s.enter.tmp u = some x) :
      (u = c ∧ x = s.head) ∨ (u ≠ c ∧ s.tmp u = some x) := by
    simp only [State.enter, ← hc, Function.update_apply] at hu
    split_ifs at hu with huc
    · exact .inl ⟨huc, (Option.some.inj hu).symm⟩
    · exact .inr ⟨huc, hu⟩
  have hasleep {t : T} : s.enter.asleep t = true ↔ t = c ∨ s.asleep t = true := by
    simp only [State.enter, ← hc, Function.update_apply]
    split_ifs with htc
    · simp [htc]
    · simp [htc]
  refine ⟨?_, ?_, ?_, ?_, ?_, ?_, ?_, ?_, ?_, ?_⟩
  · simp only [State.enter, ← hc, Function.update_of_ne hne.symm]
    exact h.idle
  · intro t ht
    simp only [State.enter, ← hc, Function.update_apply]
    split_ifs with htc
    · simp
    · exact h.frame ((hasleep.mp ht).resolve_left htc)
  · intro t ht
    simp only [Function.update_apply]
    split_ifs with htc
    · exact le_rfl
    · simp only [State.enter, ← hc, Function.update_of_ne htc] at ht
      exact (h.rank_le ht).trans (Nat.le_succ _)
  · intro t ht
    simp only [State.enter, ← hc, Function.update_apply] at ht ⊢
    split_ifs at ht ⊢ with htc
    · omega
    · exact h.slept ht
  · intro t ht
    exact hasleep.mpr (.inl (Option.some.inj ht).symm)
  · intro t u hu
    rcases htmp hu with ⟨rfl, hx⟩ | ⟨huc, hx⟩
    · have ht := h.head hx.symm
      refine ⟨hasleep.mpr (.inr ht), ?_⟩
      rw [Function.update_self, Function.update_of_ne (hsleeper ht)]
      exact Nat.lt_succ_of_le (h.rank_le (h.frame ht))
    · obtain ⟨ht, hlt⟩ := h.tmp hx
      refine ⟨hasleep.mpr (.inr ht), ?_⟩
      rwa [Function.update_of_ne huc, Function.update_of_ne (hsleeper ht)]
  · intro t u ht hu
    obtain rfl : c = t := Option.some.inj ht
    rcases htmp hu with ⟨-, hx⟩ | ⟨-, hx⟩
    · exact hsleeper (h.head hx.symm) rfl
    · exact hsleeper (h.tmp hx).1 rfl
  · intro t u v hu hv
    rcases htmp hu with ⟨rfl, hx⟩ | ⟨-, hx⟩ <;> rcases htmp hv with ⟨rfl, hy⟩ | ⟨-, hy⟩
    · rfl
    · exact absurd hy (h.head_tmp hx.symm)
    · exact absurd hx (h.head_tmp hy.symm)
    · exact h.tmp_inj hx hy
  · intro t ht
    rcases hasleep.mp ht with rfl | ht
    · exact .inl rfl
    · right
      rcases h.pointed ht with hhead | ⟨u, hu⟩
      · refine ⟨c, ?_⟩
        simp only [State.enter, ← hc, Function.update_self, hhead]
      · refine ⟨u, ?_⟩
        have huc : u ≠ c := by
          rintro rfl
          rw [hcur] at hu
          cases hu
        simp only [State.enter, ← hc, Function.update_of_ne huc, hu]
  · intro t k
    have hk := h.count t k
    simp only [State.enter, ← hc, Function.update_apply]
    split_ifs at hk ⊢ with h₁ h₂ h₃ h₄ <;> grind

/-- The store `state = 0` for a sleeper is counted for its current sleep. -/
theorem count_setRunning (h : Inv idle s rank bound) {t : T} (ht : s.asleep t = true) (v : T)
    (k : ℕ) : (s.setRunning t).woken v k =
      if 1 ≤ k ∧ (k < s.slept v ∨ k = s.slept v ∧ (s.setRunning t).asleep v = false)
      then 1 else 0 := by
  have hslept : 1 ≤ s.slept t := h.slept (h.frame ht)
  have hk := h.count v k
  simp only [State.setRunning, Function.update_apply]
  split_ifs at hk ⊢ with h₁ h₂ h₃ h₄ <;> grind

/-- `*p` is made runnable and removed. -/
theorem wakeUp (h : Inv idle s rank bound) : Inv idle s.wakeUp rank bound := by
  unfold State.wakeUp
  split
  · exact h
  · rename_i t ht
    have hne {u v : T} (hu : s.tmp u = some (some v)) : v ≠ t := by
      rintro rfl
      exact h.head_tmp ht hu
    have hasleep {v : T} : (s.setRunning t).asleep v = true ↔ v ≠ t ∧ s.asleep v = true := by
      simp only [State.setRunning, Function.update_apply]
      split_ifs with hv <;> simp [hv]
    refine ⟨h.idle, fun hv => h.frame (hasleep.mp hv).2, h.rank_le, h.slept, (nomatch ·),
      fun hu => ⟨hasleep.mpr ⟨hne hu, (h.tmp hu).1⟩, (h.tmp hu).2⟩, (nomatch ·),
      h.tmp_inj, fun {v} hv => ?_, h.count_setRunning (h.head ht)⟩
    obtain ⟨hvt, hv⟩ := hasleep.mp hv
    rcases h.pointed hv with hhead | hu
    · exact absurd (Option.some.inj (hhead.symm.trans ht)) hvt
    · exact .inr hu

omit [DecidableEq T] in
/-- Sleepers are not named by the frame of a task that has nobody to wake. -/
theorem ne_of_tmp_none (h : Inv idle s rank bound) {u t : T} (htmp : s.tmp u = some none)
    (ht : s.asleep t = true) : s.head = some t ∨ ∃ v, v ≠ u ∧ s.tmp v = some (some t) := by
  rcases h.pointed ht with hhead | ⟨v, hv⟩
  · exact .inl hhead
  · refine .inr ⟨v, ?_, hv⟩
    rintro rfl
    rw [htmp] at hv
    cases hv

/-- A task that has been made runnable leaves `sleep_on`, with nobody to wake. -/
theorem leave (h : Inv idle s rank bound) {u : T} (hu : s.asleep u = false)
    (htmp : s.tmp u = some none) :
    Inv idle { s with current := u, tmp := Function.update s.tmp u none } rank bound := by
  have hold {v : T} {x : Option T} (hv : Function.update s.tmp u none v = some x) :
      s.tmp v = some x := by
    rw [Function.update_apply] at hv
    split_ifs at hv
    exact hv
  have hold' {v : T} (hv : Function.update s.tmp u none v ≠ none) : s.tmp v ≠ none := by
    obtain ⟨x, hx⟩ := Option.ne_none_iff_exists'.mp hv
    rw [hold hx]
    simp
  have hne {v : T} (hv : s.asleep v = true) : v ≠ u := by
    rintro rfl
    rw [hu] at hv
    cases hv
  refine ⟨?_, fun {v} hv => ?_, fun hv => h.rank_le (hold' hv), fun hv =>
    h.slept (hold' hv), h.head,
    fun hv => h.tmp (hold hv), fun ht hv => h.head_tmp ht (hold hv),
    fun hv hw => h.tmp_inj (hold hv) (hold hw), fun hv => ?_, h.count⟩
  · simp only [Function.update_apply, h.idle, ite_self]
  · simp only [Function.update_of_ne (hne hv)]
    exact h.frame hv
  · rcases h.ne_of_tmp_none htmp hv with hhead | ⟨w, hwu, hw⟩
    · exact .inl hhead
    · refine .inr ⟨w, ?_⟩
      simp only [Function.update_of_ne hwu, hw]

/-- A task that has been made runnable leaves `sleep_on` and makes the next sleeper runnable. -/
theorem pass (h : Inv idle s rank bound) {u t : T} (hu : s.asleep u = false)
    (htmp : s.tmp u = some (some t)) :
    Inv idle (State.setRunning { s with current := u, tmp := Function.update s.tmp u none } t)
      rank bound := by
  have hold {v : T} {x : Option T} (hv : Function.update s.tmp u none v = some x) :
      v ≠ u ∧ s.tmp v = some x := by
    rw [Function.update_apply] at hv
    split_ifs at hv with hvu
    exact ⟨hvu, hv⟩
  have hold' {v : T} (hv : Function.update s.tmp u none v ≠ none) : s.tmp v ≠ none := by
    obtain ⟨x, hx⟩ := Option.ne_none_iff_exists'.mp hv
    rw [(hold hx).2]
    simp
  have hne {v : T} (hv : s.asleep v = true) : v ≠ u := by
    rintro rfl
    rw [hu] at hv
    cases hv
  have hasleep {v : T} : (s.setRunning t).asleep v = true ↔ v ≠ t ∧ s.asleep v = true := by
    simp only [State.setRunning, Function.update_apply]
    split_ifs with hv <;> simp [hv]
  -- The frame that is dropped held the only pointer to `t`.
  have htarget {v w : T} (hv : Function.update s.tmp u none v = some (some w)) : w ≠ t := by
    rintro rfl
    exact (hold hv).1 (h.tmp_inj (hold hv).2 htmp)
  refine ⟨?_, fun {v} hv => ?_, fun hv => h.rank_le (hold' hv), fun hv => h.slept (hold' hv),
    fun {v} hv => ?_, fun hv => ?_, fun ht hv => h.head_tmp ht (hold hv).2,
    fun hv hw => h.tmp_inj (hold hv).2 (hold hw).2, fun {v} hv => ?_,
    h.count_setRunning (h.tmp htmp).1⟩
  · simp only [State.setRunning, Function.update_apply, h.idle, ite_self]
  · have hv := (hasleep.mp hv).2
    simp only [State.setRunning, Function.update_of_ne (hne hv)]
    exact h.frame hv
  · refine hasleep.mpr ⟨?_, h.head hv⟩
    rintro rfl
    exact h.head_tmp hv htmp
  · have hold := hold hv
    exact ⟨hasleep.mpr ⟨htarget hv, (h.tmp hold.2).1⟩, (h.tmp hold.2).2⟩
  · obtain ⟨hvt, hv⟩ := hasleep.mp hv
    rcases h.pointed hv with hhead | ⟨w, hw⟩
    · exact .inl hhead
    · refine .inr ⟨w, ?_⟩
      have hwu : w ≠ u := by
        rintro rfl
        exact hvt (Option.some.inj (Option.some.inj (hw.symm.trans htmp)))
      simp only [State.setRunning, Function.update_of_ne hwu, hw]

theorem switchTo (h : Inv idle s rank bound) {u : T} (hs : s.switchTo idle u = some s') :
    Inv idle s' rank bound ∧ s'.tmp s'.current = none := by
  rcases switchTo_cases h.idle hs with ⟨htmp, rfl⟩ | ⟨hu, htmp, rfl⟩ | ⟨hu, t, htmp, rfl⟩
  · exact ⟨⟨h.idle, h.frame, h.rank_le, h.slept, h.head, h.tmp, h.head_tmp, h.tmp_inj, h.pointed,
      h.count⟩, htmp⟩
  · exact ⟨h.leave hu htmp, Function.update_self ..⟩
  · exact ⟨h.pass hu htmp, Function.update_self ..⟩

end Inv

/-- The invariant of all reachable states. -/
def Reachable (idle : T) (s : State T) : Prop :=
  (∃ rank bound, Inv idle s rank bound) ∧ s.tmp s.current = none

theorem Reachable.step {idle : T} {s s' : State T} {e : Event T} (h : Reachable idle s)
    (hs : Step idle s e s') : Reachable idle s' := by
  obtain ⟨⟨rank, bound, hinv⟩, hcur⟩ := h
  rcases next_cases hs with ⟨hne, u, hu⟩ | rfl | ⟨u, hu⟩
  · obtain ⟨hinv', hcur'⟩ := (hinv.enter hcur hne).switchTo hu
    exact ⟨⟨_, _, hinv'⟩, hcur'⟩
  · refine ⟨⟨_, _, hinv.wakeUp⟩, ?_⟩
    unfold State.wakeUp
    split
    · exact hcur
    · exact hcur
  · obtain ⟨hinv', hcur'⟩ := hinv.switchTo hu
    exact ⟨⟨_, _, hinv'⟩, hcur'⟩

/-! ### No sleeper is lost -/

omit [DecidableEq T] in
theorem Reaches.tmp {s : State T} {x : Option T} {u t : T} (h : Reaches s x u)
    (hu : s.tmp u = some (some t)) : Reaches s x t := by
  induction h with
  | here u => exact .next hu (.here t)
  | next hv _ ih => exact .next hv (ih hu)

omit [DecidableEq T] in
/-- Every sleeper is found from `*p`, or from the `tmp` of a task that is about to leave
`sleep_on`. -/
theorem Inv.reaches {idle : T} {s : State T} {rank : T → ℕ} {bound : ℕ}
    (h : Inv idle s rank bound) {t : T} (ht : s.asleep t = true) :
    Reaches s s.head t ∨ ∃ r x, s.tmp r = some x ∧ s.asleep r = false ∧ Reaches s x t := by
  -- The pointer to `t` is in the frame of a task that went to sleep later: induction on its rank.
  induction hk : bound - rank t using Nat.strong_induction_on generalizing t with
  | _ k ih =>
    subst hk
    rcases h.pointed ht with hhead | ⟨u, hu⟩
    · exact .inl (hhead ▸ .here t)
    · cases hasleep : s.asleep u with
      | false => exact .inr ⟨u, some t, hu, hasleep, .here t⟩
      | true =>
        have hlt := (h.tmp hu).2
        have hle := h.rank_le (h.frame hasleep)
        rcases ih (bound - rank u) (by omega) hasleep rfl with hr | ⟨r, x, hr, hrun, hx⟩
        · exact .inl (hr.tmp hu)
        · exact .inr ⟨r, x, hr, hrun, hx.tmp hu⟩

/-- The task `t` has not been made runnable since the state `s₀`, in which it was asleep. -/
def Old (s₀ s : State T) (t : T) : Prop :=
  s₀.asleep t = true ∧ s.asleep t = true ∧ s.slept t = s₀.slept t

/-- The sleepers since `s₀` are named by sleepers since `s₀` and by tasks that will wake them. -/
structure Waking (s₀ s : State T) : Prop where
  slept : ∀ t, s₀.slept t ≤ s.slept t
  old : ∀ t, Old s₀ s t → ∃ u, s.tmp u = some (some t) ∧ (s.asleep u = true → Old s₀ s u)

namespace Waking

variable {idle : T} {s₀ s s' : State T}

/-- After a `wake_up` in `s₀`. -/
theorem wakeUp_self {rank : T → ℕ} {bound : ℕ} (h : Inv idle s₀ rank bound) :
    Waking s₀ s₀.wakeUp := by
  unfold State.wakeUp
  split
  · rename_i hhead
    refine ⟨fun t => le_rfl, fun t ht => ?_⟩
    rcases h.pointed ht.1 with hp | ⟨u, hu⟩
    · rw [hhead] at hp
      cases hp
    · exact ⟨u, hu, fun hasleep => ⟨hasleep, hasleep, rfl⟩⟩
  · rename_i v hhead
    refine ⟨fun t => le_rfl, fun t ht => ?_⟩
    have htv : t ≠ v := by
      rintro rfl
      simpa [State.setRunning] using ht.2.1
    rcases h.pointed ht.1 with hp | ⟨u, hu⟩
    · exact absurd (Option.some.inj (hp.symm.trans hhead)) htv
    · refine ⟨u, hu, fun hasleep => ⟨?_, hasleep, rfl⟩⟩
      simp only [State.setRunning, Function.update_apply] at hasleep
      split_ifs at hasleep
      exact hasleep

theorem enter (h : Waking s₀ s) (hcur : s.tmp s.current = none) : Waking s₀ s.enter := by
  refine ⟨fun t => ?_, fun t ht => ?_⟩
  · have := h.slept t
    simp only [State.enter, Function.update_apply]
    split_ifs with htc
    · subst htc
      omega
    · exact this
  · have hkept {v : T} (hv : v ≠ s.current) : Old s₀ s.enter v ↔ Old s₀ s v := by
      simp only [Old, State.enter, Function.update_of_ne hv]
    have htc : t ≠ s.current := by
      rintro rfl
      have hslept := ht.2.2
      simp only [State.enter, Function.update_self] at hslept
      have := h.slept s.current
      omega
    obtain ⟨u, hu, hold⟩ := h.old t ((hkept htc).mp ht)
    have huc : u ≠ s.current := by
      rintro rfl
      rw [hcur] at hu
      cases hu
    refine ⟨u, ?_, fun hasleep => (hkept huc).mpr (hold ?_)⟩
    · simp only [State.enter, Function.update_of_ne huc, hu]
    · simpa only [State.enter, Function.update_of_ne huc] using hasleep

/-- Making a task runnable that no frame of interest names keeps the others. -/
theorem setRunning (h : Waking s₀ s) {v : T} {tmp : T → Option (Option T)} {head : Option T}
    {c : T} (htmp : ∀ t u, t ≠ v → s.tmp u = some (some t) → tmp u = some (some t)) :
    Waking s₀ (State.setRunning { s with head := head, tmp := tmp, current := c } v) := by
  refine ⟨h.slept, fun t ht => ?_⟩
  have hasleep {w : T} (hw : (s.setRunning v).asleep w = true) : w ≠ v ∧ s.asleep w = true := by
    simp only [State.setRunning, Function.update_apply] at hw
    split_ifs at hw with hwv
    exact ⟨hwv, hw⟩
  obtain ⟨htv, hts⟩ := hasleep ht.2.1
  obtain ⟨u, hu, hold⟩ := h.old t ⟨ht.1, hts, ht.2.2⟩
  refine ⟨u, htmp t u htv hu, fun hw => ?_⟩
  have hold := hold (hasleep hw).2
  exact ⟨hold.1, hw, hold.2.2⟩

theorem switchTo (h : Waking s₀ s) (hidle : s.tmp idle = none) {u : T}
    (hs : s.switchTo idle u = some s') : Waking s₀ s' := by
  rcases switchTo_cases hidle hs with ⟨-, rfl⟩ | ⟨-, htmp, rfl⟩ | ⟨-, v, htmp, rfl⟩
  · exact ⟨h.slept, h.old⟩
  · refine ⟨h.slept, fun t ht => ?_⟩
    obtain ⟨w, hw, hold⟩ := h.old t ht
    refine ⟨w, ?_, hold⟩
    have hwu : w ≠ u := by
      rintro rfl
      rw [htmp] at hw
      cases hw
    simp only [Function.update_of_ne hwu, hw]
  · refine h.setRunning fun t w htv hw => ?_
    have hwu : w ≠ u := by
      rintro rfl
      exact htv (Option.some.inj (Option.some.inj (hw.symm.trans htmp)))
    rw [Function.update_of_ne hwu, hw]

theorem step {e : Event T} (h : Waking s₀ s) (hr : Reachable idle s) (hs : Step idle s e s') :
    Waking s₀ s' := by
  obtain ⟨⟨rank, bound, hinv⟩, hcur⟩ := hr
  rcases next_cases hs with ⟨hne, u, hu⟩ | rfl | ⟨u, hu⟩
  · exact (h.enter hcur).switchTo (hinv.enter hcur hne).idle hu
  · unfold State.wakeUp
    split
    · exact h
    · exact h.setRunning fun _ _ _ hu => hu
  · exact h.switchTo hinv.idle hu

omit [DecidableEq T] in
/-- When every task in `sleep_on` is asleep, nobody has slept since `s₀`. -/
theorem not_old {rank : T → ℕ} {bound : ℕ} (h : Waking s₀ s) (hinv : Inv idle s rank bound)
    (hall : ∀ r, s.tmp r ≠ none → s.asleep r = true) (t : T) : ¬ Old s₀ s t := by
  intro ht
  induction hk : bound - rank t using Nat.strong_induction_on generalizing t with
  | _ k ih =>
    subst hk
    obtain ⟨u, hu, hold⟩ := h.old t ht
    have hasleep : s.asleep u = true := hall u (by simp [hu])
    have hlt := (hinv.tmp hu).2
    have hle := hinv.rank_le (hinv.frame hasleep)
    exact ih (bound - rank u) (by omega) u (hold hasleep) rfl

end Waking

theorem reachable_of_runs {idle c : T} {es : List (Event T)} {s : State T}
    (h : Runs (Step idle) (State.init c) es s) : Reachable idle s :=
  h.invariant (fun _ _ _ hI hs => hI.step hs) ⟨⟨_, _, Inv.init c⟩, rfl⟩

/-- In every reachable state each sleeper is found by following the saved pointers from `*p` or
from the frame of a task that has been made runnable and has not run yet. After a `wake_up`, once
all tasks that have been made runnable have left `sleep_on`, every task that slept at the `wake_up`
has been made runnable exactly once in that sleep. -/
theorem sleepers_woken {idle c : T} {es : List (Event T)} {s : State T}
    (h : Runs (Step idle) (State.init c) es s) :
    (∀ t, s.asleep t = true →
      Reaches s s.head t ∨ ∃ r x, s.tmp r = some x ∧ s.asleep r = false ∧ Reaches s x t) ∧
    ∀ s₁ es' s₂, Step idle s .wakeUp s₁ → Runs (Step idle) s₁ es' s₂ →
      (∀ r, s₂.tmp r ≠ none → s₂.asleep r = true) →
      ∀ t, s.asleep t = true → s₂.woken t (s.slept t) = 1 := by
  have hr := reachable_of_runs h
  obtain ⟨rank, bound, hinv⟩ := hr.1
  refine ⟨fun t ht => hinv.reaches ht, fun s₁ es' s₂ hwake hrun hall t ht => ?_⟩
  have hs₁ : s₁ = s.wakeUp := (Option.some.inj hwake).symm
  have hstart : Reachable idle s₁ ∧ Waking s s₁ :=
    ⟨hr.step hwake, hs₁ ▸ Waking.wakeUp_self hinv⟩
  obtain ⟨⟨⟨rank', bound', hinv'⟩, -⟩, hwaking⟩ :=
    hrun.invariant (I := fun s' => Reachable idle s' ∧ Waking s s')
      (fun _ _ _ hI hs => ⟨hI.1.step hs, hI.2.step hI.1 hs⟩) hstart
  have hold := hwaking.not_old hinv' hall t
  have hge := hwaking.slept t
  have hone := hinv.slept (hinv.frame ht)
  rw [hinv'.count, if_pos]
  refine ⟨hone, ?_⟩
  by_cases heq : s.slept t = s₂.slept t
  · refine .inr ⟨heq, ?_⟩
    by_contra hasleep
    exact hold ⟨ht, by simpa using hasleep, heq.symm⟩
  · exact .inl (by omega)

/-- Tasks 1 and 2 sleep; task 3 wakes the queue, and both run again. -/
theorem sleepers_woken_two : ∃ s s₂ : State (Fin 4),
    exec (State.next 0) (State.init 1) [.sleepOn 2, .sleepOn 3] = some s ∧
      exec (State.next 0) s.wakeUp [.schedule 2, .schedule 1] = some s₂ ∧ s.asleep 1 = true ∧
      s₂.woken 1 (s.slept 1) = 1 := by
  have hrun : ((exec (State.next (0 : Fin 4)) (State.init 1) [.sleepOn 2, .sleepOn 3]).bind fun s =>
      (exec (State.next 0) s.wakeUp [.schedule 2, .schedule 1]).map fun s₂ =>
        (s.asleep 1, decide (∀ r, s₂.tmp r ≠ none → s₂.asleep r = true))) = some (true, true) := rfl
  obtain ⟨s, hs, h⟩ := Option.bind_eq_some_iff.mp hrun
  obtain ⟨s₂, hs₂, h⟩ := Option.map_eq_some_iff.mp h
  obtain ⟨hasleep, hall⟩ := Prod.mk.inj h
  refine ⟨s, s₂, hs, hs₂, hasleep, ?_⟩
  exact (sleepers_woken (runs_of_exec hs)).2 _ _ s₂ rfl (runs_of_exec hs₂)
    (of_decide_eq_true hall) 1 hasleep

end Linux001.Sched
