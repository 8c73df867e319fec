import Linux001.Sched.WaitQueue

/-!
# The wait queue of `interruptible_sleep_on`

`interruptible_sleep_on` of `kernel/sched.c` on the queue `p` of `Linux001.Sched.WaitQueue`, whose
state and `wake_up` it shares. A sleeper also becomes runnable when `schedule` finds a signal for
it. A sleeper that runs again and finds another task in `*p` makes that task runnable and goes back
to sleep; otherwise it stores `NULL` in `*p`, makes the task in its `tmp` runnable and leaves.

A task that goes back to sleep relies on being in the chain that begins at `*p`. It is not when
`wake_up` has taken it off the queue before and another task has entered the queue since.

The pointers do not go round in a circle, although a task may leave while another one still names it
in its `tmp`, and enter again: whenever a task leaves, `*p` is empty, so that a pointer leads to an
older task that has entered since `*p` was last empty, or to a task that has entered after that.

## Main definitions

* `State.resume`, `State.switch`, `State.step`: the steps of the tasks.
* `Found`: a task is found by following the saved pointers.
* `Traced`: the tasks that have been taken off the queue.
* `Undisturbed`: a task that has been taken off the queue does not find another one in `*p`.

## Main results

* `interruptible_found`: no sleeper is lost in any state of a run if and only if its steps are
  undisturbed.
* `interruptible_lost`: a sleeper is lost.
-/

namespace Linux001.Sched

variable {T : Type*} [DecidableEq T]

/-- The loop of `schedule` that makes the sleepers with a signal runnable. `sig` tells which tasks
have one. -/
def State.signalled (s : State T) (sig : T → Bool) : State T :=
  { s with asleep := fun t => s.asleep t && !sig t }

/-- The end of `interruptible_sleep_on(p)` of the task `u` with the previous value `x` of `*p`. -/
def State.leave (s : State T) (u : T) (x : Option T) : State T :=
  let s := { s with head := none, tmp := Function.update s.tmp u none }
  match x with
  | none => s
  | some t => s.setRunning t

/-- What the task `u` does after the `schedule` of `interruptible_sleep_on(p)`, up to the next
`schedule` or the end. -/
def State.resume (s : State T) (u : T) : State T :=
  match s.tmp u with
  | none => s
  | some x =>
    match s.head with
    | none => s.leave u x
    | some h =>
      if h = u then s.leave u x
      else
        let s := s.setRunning h
        { s with asleep := Function.update s.asleep u true }

/-- `schedule` switches to `next`. -/
def State.switch (s : State T) (idle next : T) : Option (State T) :=
  if s.asleep next = true ∧ next ≠ idle then none
  else some ({ s with current := next }.resume next)

/-- What happens: the current task calls `interruptible_sleep_on(p)`, or it or an interrupt calls
`wake_up(p)`, or the current task calls `schedule`, in the loop of `interruptible_sleep_on` or
elsewhere. -/
inductive IntEvent (T : Type*)
  | sleepOn (sig : T → Bool) (next : T)
  | wakeUp
  | schedule (sig : T → Bool) (next : T)

/-- The state in which `schedule` switches to another task, and this task. -/
def State.scheduled (s : State T) : IntEvent T → Option (State T × T)
  | .sleepOn sig next => some (s.enter.signalled sig, next)
  | .wakeUp => none
  | .schedule sig next => some (s.signalled sig, next)

/-- The step of an event; task 0 (`idle`) panics when it tries to sleep. -/
def State.step (idle : T) (s : State T) (e : IntEvent T) : Option (State T) :=
  match e with
  | .sleepOn sig next =>
    if s.current = idle ∨ s.tmp s.current ≠ none then none
    else (s.enter.signalled sig).switch idle next
  | .wakeUp => some s.wakeUp
  | .schedule sig next => (s.signalled sig).switch idle next

/-- A task is found from `*p`, or from the `tmp` of a runnable task that has not left the function
yet, by following the saved pointers. -/
def Found (s : State T) (t : T) : Prop :=
  Reaches s s.head t ∨ ∃ u x, s.asleep u = false ∧ s.tmp u = some x ∧ Reaches s x t

/-- No sleeper is lost. So after a `wake_up` nobody sleeps any more once all runnable tasks have
left the function, unless another task has entered it. -/
structure AllFound (s : State T) : Prop where
  found : ∀ t, s.asleep t = true → Found s t
  drained : s.head = none → (∀ r, s.tmp r ≠ none → s.asleep r = true) → ∀ t, s.asleep t = false

/-- The state, and the tasks that have been taken off the queue since they have entered it, by
`wake_up` or by a task that has left. -/
structure Traced (T : Type*) where
  state : State T
  taken : T → Bool

/-- The tasks that have been taken off the queue when the task `u` has run on. -/
def State.takenOff (s : State T) (u : T) (taken : T → Bool) : T → Bool :=
  match s.tmp u with
  | some (some t) =>
    if s.head = none ∨ s.head = some u then Function.update taken t true else taken
  | _ => taken

/-- The tasks that have been taken off the queue after an event. -/
def Traced.next (s : Traced T) : IntEvent T → T → Bool
  | .sleepOn sig u =>
    (s.state.enter.signalled sig).takenOff u (Function.update s.taken s.state.current false)
  | .wakeUp =>
    match s.state.head with
    | none => s.taken
    | some t => Function.update s.taken t true
  | .schedule sig u => (s.state.signalled sig).takenOff u s.taken

/-- The step of an event, with its history. -/
def Traced.step (idle : T) (s : Traced T) (e : IntEvent T) : Option (Traced T) :=
  (s.state.step idle e).map fun s' => ⟨s', s.next e⟩

/-- A task that runs again and finds another task in `*p` has not been taken off the queue, or some
task in the function still names it. -/
def Undisturbed (s : Traced T) (e : IntEvent T) : Prop :=
  ∀ s₁ u h, s.state.scheduled e = some (s₁, u) → s₁.tmp u ≠ none → s₁.head = some h → h ≠ u →
    s.taken u = false ∨ ∃ v, s₁.tmp v = some (some u)

/-! ### Following the pointers -/

section Reaches

variable {s s' : State T}

omit [DecidableEq T]

/-- More saved pointers lead to more tasks. -/
theorem Reaches.mono (htmp : ∀ u x, s.tmp u = some x → s'.tmp u = some x) {r : Option T} {t : T}
    (h : Reaches s r t) : Reaches s' r t := by
  induction h with
  | here => exact .here _
  | next hu _ ih => exact .next (htmp _ _ hu) ih

theorem Reaches.trans {r x : Option T} {u t : T} (h : Reaches s r u) (hu : s.tmp u = some x)
    (ht : Reaches s x t) : Reaches s r t := by
  induction h with
  | here => exact .next hu ht
  | next hv _ ih => exact .next hv (ih hu)

/-- When the pointer saved by `u` is gone, what was found is found without it or from it. -/
theorem Reaches.without {u : T} {x : Option T} (hu : s.tmp u = some x)
    (htmp : ∀ v ≠ u, s'.tmp v = s.tmp v) {r : Option T} {t : T} (h : Reaches s r t) :
    Reaches s' r t ∨ Reaches s' x t := by
  induction h with
  | here => exact .inl (.here _)
  | @next v t y hv _ ih =>
    rcases ih with ih | ih
    · by_cases hvu : v = u
      · subst hvu
        obtain rfl : x = y := Option.some.inj (hu.symm.trans hv)
        exact .inr ih
      · exact .inl (.next ((htmp v hvu).trans hv) ih)
    · exact .inr ih

end Reaches

/-! ### Steps -/

/-- No sleeper is lost, and task 0 is not in the function. -/
structure NoneLost (idle : T) (s : State T) : Prop where
  idle : s.tmp idle = none
  found : ∀ t, s.asleep t = true → Found s t

namespace NoneLost

variable {idle : T} {s s' : State T}

omit [DecidableEq T] in
theorem init (c : T) : NoneLost idle (State.init c) := ⟨rfl, fun _ => (nomatch ·)⟩

/-- The current task enters the function. -/
theorem enter (h : NoneLost idle s) (hcur : s.tmp s.current = none) (hne : s.current ≠ idle) :
    NoneLost idle s.enter := by
  have hself : s.enter.tmp s.current = some s.head := Function.update_self ..
  have hmono (u : T) (x : Option T) (hu : s.tmp u = some x) : s.enter.tmp u = some x := by
    refine (Function.update_of_ne ?_ ..).trans hu
    rintro rfl
    rw [hcur] at hu
    cases hu
  refine ⟨(Function.update_of_ne hne.symm ..).trans h.idle, fun t ht => ?_⟩
  by_cases htc : t = s.current
  · exact .inl (htc ▸ .here s.current)
  · have hold : s.asleep t = true := by
      rw [← ht]
      exact (Function.update_of_ne htc ..).symm
    rcases h.found t hold with hhead | ⟨u, x, hawake, hu, hx⟩
    · exact .inl (.next hself (hhead.mono hmono))
    · refine .inr ⟨u, x, ?_, hmono u x hu, hx.mono hmono⟩
      refine (Function.update_of_ne ?_ ..).trans hawake
      rintro rfl
      rw [hcur] at hu
      cases hu

omit [DecidableEq T] in
/-- `schedule` makes tasks with a signal runnable. -/
theorem signalled (h : NoneLost idle s) (sig : T → Bool) : NoneLost idle (s.signalled sig) := by
  refine ⟨h.idle, fun t ht => ?_⟩
  have hmono (u : T) (x : Option T) (hu : s.tmp u = some x) :
      (s.signalled sig).tmp u = some x := hu
  rcases h.found t (Bool.and_eq_true_iff.mp ht).1 with hhead | ⟨u, x, hawake, hu, hx⟩
  · exact .inl (hhead.mono hmono)
  · refine .inr ⟨u, x, ?_, hu, hx.mono hmono⟩
    change (s.asleep u && !sig u) = false
    rw [hawake, Bool.false_and]

theorem wakeUp (h : NoneLost idle s) : NoneLost idle s.wakeUp := by
  unfold State.wakeUp
  split
  · exact h
  · rename_i w hw
    refine ⟨h.idle, fun t ht => ?_⟩
    have htw : t ≠ w := by
      rintro rfl
      rw [show ({ s.setRunning t with head := none } : State T).asleep t = false from
        Function.update_self ..] at ht
      cases ht
    have hawake (u : T) (hu : u = w ∨ s.asleep u = false) : (s.setRunning w).asleep u = false := by
      change Function.update s.asleep w false u = false
      rw [Function.update_apply]
      split_ifs with huw
      · rfl
      · exact hu.resolve_left huw
    have hold : s.asleep t = true := by
      rw [← ht]
      exact (Function.update_of_ne htw ..).symm
    have hmono (u : T) (x : Option T) (hu : s.tmp u = some x) :
        ({ s.setRunning w with head := none } : State T).tmp u = some x := hu
    rcases h.found t hold with hhead | ⟨u, x, hu, htmp, hx⟩
    · rw [hw] at hhead
      cases hhead with
      | here => exact absurd rfl htw
      | next htmp hx => exact .inr ⟨w, _, hawake w (.inl rfl), htmp, hx.mono hmono⟩
    · exact .inr ⟨u, x, hawake u (.inr hu), htmp, hx.mono hmono⟩

/-- A task leaves the function when `*p` is empty or names it. -/
theorem leave (h : NoneLost idle s) {u : T} {x : Option T} (hu : s.tmp u = some x)
    (hawake : s.asleep u = false) (hhead : ∀ w, s.head = some w → w = u) :
    NoneLost idle (s.leave u x) := by
  have htmp : (s.leave u x).tmp = Function.update s.tmp u none := by
    cases x <;> rfl
  have hnext (v : T) : (s.leave u x).asleep v = if x = some v then false else s.asleep v := by
    cases x with
    | none => rfl
    | some w =>
      change Function.update s.asleep w false v = _
      rw [Function.update_apply]
      exact if_congr (by rw [Option.some.injEq, eq_comm]) rfl rfl
  have hother (v : T) (hv : v ≠ u) : (s.leave u x).tmp v = s.tmp v := by
    rw [htmp]
    exact Function.update_of_ne hv ..
  refine ⟨?_, fun t ht => ?_⟩
  · rw [htmp, Function.update_apply]
    split_ifs
    · rfl
    · exact h.idle
  · rw [hnext] at ht
    split_ifs at ht with hxt
    have htu : t ≠ u := by
      rintro rfl
      rw [hawake] at ht
      cases ht
    -- What is found from the saved pointer is found from the task that it names.
    have hfrom (hr : Reaches (s.leave u x) x t) : Found (s.leave u x) t := by
      cases hr with
      | here => exact absurd rfl hxt
      | @next w _ y hw hr =>
        refine .inr ⟨w, y, ?_, hw, hr⟩
        rw [hnext, if_pos rfl]
    rcases h.found t ht with hr | ⟨v, y, hv, hy, hr⟩
    · rcases hr.without hu hother with hr | hr
      · cases hh : s.head with
        | none =>
          rw [hh] at hr
          cases hr
        | some w =>
          obtain rfl := hhead w hh
          rw [hh] at hr
          cases hr with
          | here => exact absurd rfl htu
          | next hw =>
            rw [htmp, Function.update_self] at hw
            cases hw
      · exact hfrom hr
    · rcases hr.without hu hother with hr | hr
      · by_cases hvu : v = u
        · subst hvu
          obtain rfl : x = y := Option.some.inj (hu.symm.trans hy)
          exact hfrom hr
        · refine .inr ⟨v, y, ?_, (hother v hvu).trans hy, hr⟩
          rw [hnext, hv, ite_self]
      · exact hfrom hr

/-- A task that is found goes back to sleep. -/
theorem sleepAgain (h : NoneLost idle s) {u w : T} {x : Option T} (hu : s.tmp u = some x)
    (hlinked : Reaches s s.head u ∨
      ∃ v y, v ≠ u ∧ s.asleep v = false ∧ s.tmp v = some y ∧ Reaches s y u) :
    NoneLost idle { s.setRunning w with
      asleep := Function.update (s.setRunning w).asleep u true } := by
  set s' : State T := { s.setRunning w with
    asleep := Function.update (s.setRunning w).asleep u true } with hs'
  have hmono (v : T) (y : Option T) (hv : s.tmp v = some y) : s'.tmp v = some y := hv
  have hawake (v : T) (hvu : v ≠ u) (hv : s.asleep v = false) : s'.asleep v = false := by
    refine (Function.update_of_ne hvu ..).trans ?_
    change Function.update s.asleep w false v = false
    rw [Function.update_apply, hv, ite_self]
  have hself : Found s' u := by
    rcases hlinked with hr | ⟨v, y, hvu, hv, hy, hr⟩
    · exact .inl (hr.mono hmono)
    · exact .inr ⟨v, y, hawake v hvu hv, hy, hr.mono hmono⟩
  refine ⟨h.idle, fun t ht => ?_⟩
  by_cases htu : t = u
  · rwa [htu]
  · have hold : s.asleep t = true := by
      have ht : Function.update s.asleep w false t = true :=
        (Function.update_of_ne htu ..).symm.trans ht
      rw [Function.update_apply] at ht
      split_ifs at ht
      exact ht
    rcases h.found t hold with hr | ⟨v, y, hv, hy, hr⟩
    · exact .inl (hr.mono hmono)
    · by_cases hvu : v = u
      · -- The task that held the pointer sleeps again, and is found.
        subst hvu
        rcases hself with hs | ⟨v', y', hv', hy', hs⟩
        · exact .inl (hs.trans hy (hr.mono hmono))
        · exact .inr ⟨v', y', hv', hy', hs.trans hy (hr.mono hmono)⟩
      · exact .inr ⟨v, y, hawake v hvu hv, hy, hr.mono hmono⟩

/-- `schedule` switches to a task that is linked. -/
theorem switch (h : NoneLost idle s) {u : T} (hs : s.switch idle u = some s')
    (hlinked : ∀ w, s.tmp u ≠ none → s.head = some w → w ≠ u → Reaches s s.head u ∨
      ∃ v y, v ≠ u ∧ s.asleep v = false ∧ s.tmp v = some y ∧ Reaches s y u) :
    NoneLost idle s' := by
  unfold State.switch at hs
  split_ifs at hs with hrun
  rw [← Option.some.inj hs]
  have hsame {r : Option T} {t : T} (hr : Reaches s r t) :
      Reaches { s with current := u } r t := by
    refine Reaches.mono ?_ hr
    exact fun _ _ h => h
  have hcur : NoneLost idle { s with current := u } := by
    refine ⟨h.idle, fun t ht => ?_⟩
    rcases h.found t ht with hr | ⟨v, y, hv, hy, hr⟩
    · exact .inl (hsame hr)
    · exact .inr ⟨v, y, hv, hy, hsame hr⟩
  unfold State.resume
  split
  · exact hcur
  · rename_i x hx
    have hx : s.tmp u = some x := hx
    have hawake : s.asleep u = false := by
      by_contra hne
      refine hrun ⟨by simpa using hne, ?_⟩
      rintro rfl
      rw [h.idle] at hx
      cases hx
    split
    · rename_i hhead
      have hhead : s.head = none := hhead
      refine hcur.leave hx hawake fun w hw => ?_
      rw [show s.head = some w from hw] at hhead
      cases hhead
    · rename_i w hhead
      have hhead : s.head = some w := hhead
      split_ifs with hwu
      · refine hcur.leave hx hawake fun w' hw' => ?_
        obtain rfl : w = w' := Option.some.inj (hhead.symm.trans hw')
        exact hwu
      · refine hcur.sleepAgain hx ?_
        rcases hlinked w (by simp [hx]) hhead hwu with hr | ⟨v, y, hvu, hv, hy, hr⟩
        · exact .inl (hsame hr)
        · exact .inr ⟨v, y, hvu, hv, hy, hsame hr⟩

omit [DecidableEq T] in
theorem allFound (h : NoneLost idle s) : AllFound s := by
  refine ⟨h.found, fun hhead hall t => Bool.eq_false_iff.mpr fun ht => ?_⟩
  rcases h.found t ht with hr | ⟨u, x, hu, hx, -⟩
  · rw [hhead] at hr
    cases hr
  · rw [hall u (by simp [hx])] at hu
    cases hu

end NoneLost

/-! ### The order of the tasks -/

/-- The order in which pointers lead from task to task. -/
def Before (gen rank : T → ℕ) (u t : T) : Prop := gen u < gen t ∨ gen u = gen t ∧ rank t < rank u

omit [DecidableEq T] in
theorem Before.trans {gen rank : T → ℕ} {u v t : T} (h : Before gen rank u v)
    (h' : Before gen rank v t) : Before gen rank u t := by
  unfold Before at *
  omega

omit [DecidableEq T] in
theorem Before.irrefl {gen rank : T → ℕ} {u : T} : ¬Before gen rank u u := by
  unfold Before
  omega

/-- `gen` counts how often `*p` has been emptied before a task entered, `g` times up to now, and
`rank` how many tasks have entered before it, out of `n`. A pointer to a task that has left comes
from a task that has entered before `*p` was last emptied. -/
structure Ranked (s : State T) (gen rank : T → ℕ) (g n : ℕ) : Prop where
  gen_le : ∀ t, s.tmp t ≠ none → gen t ≤ g
  rank_le : ∀ t, s.tmp t ≠ none → rank t ≤ n
  head : ∀ t, s.head = some t → s.tmp t ≠ none ∧ gen t = g
  tmp : ∀ u t, s.tmp u = some (some t) → s.tmp t ≠ none → Before gen rank u t
  gone : ∀ u t, s.tmp u = some (some t) → s.tmp t = none → gen u < g

namespace Ranked

variable {s s' : State T} {gen rank : T → ℕ} {g n : ℕ}

omit [DecidableEq T] in
theorem init (c : T) : Ranked (State.init c) gen rank g n where
  gen_le _ h := absurd rfl h
  rank_le _ h := absurd rfl h
  head _ h := nomatch h
  tmp _ _ h := nomatch h
  gone _ _ h := nomatch h

omit [DecidableEq T] in
theorem congr (h : Ranked s gen rank g n) (hhead : s'.head = s.head) (htmp : s'.tmp = s.tmp) :
    Ranked s' gen rank g n := by
  refine ⟨?_, ?_, ?_, ?_, ?_⟩
  · rw [htmp]
    exact h.gen_le
  · rw [htmp]
    exact h.rank_le
  · rw [htmp, hhead]
    exact h.head
  · rw [htmp]
    exact h.tmp
  · rw [htmp]
    exact h.gone

omit [DecidableEq T] in
/-- `*p` is emptied. -/
theorem emptied (h : Ranked s gen rank g n) (hhead : s'.head = none) (htmp : s'.tmp = s.tmp) :
    Ranked s' gen rank (g + 1) n := by
  refine ⟨?_, ?_, ?_, ?_, ?_⟩
  · rw [htmp]
    exact fun t ht => (h.gen_le t ht).trans (Nat.le_succ g)
  · rw [htmp]
    exact h.rank_le
  · rw [hhead]
    exact fun _ ht => nomatch ht
  · rw [htmp]
    exact h.tmp
  · rw [htmp]
    exact fun u t hu ht => (h.gone u t hu ht).trans (Nat.lt_succ_self g)

/-- A task enters: the others that name it have entered before `*p` was last emptied. -/
theorem enter (h : Ranked s gen rank g n) (hcur : s.tmp s.current = none) :
    Ranked s.enter (Function.update gen s.current g) (Function.update rank s.current (n + 1)) g
      (n + 1) := by
  set c := s.current with hc
  have hself : s.enter.tmp c = some s.head := Function.update_self ..
  have hother {t : T} (ht : t ≠ c) : s.enter.tmp t = s.tmp t := Function.update_of_ne ht ..
  have hhead {t : T} (ht : s.head = some t) : t ≠ c := by
    rintro rfl
    exact (h.head c ht).1 hcur
  refine ⟨fun t ht => ?_, fun t ht => ?_, fun t ht => ?_, fun u t hu ht => ?_, fun u t hu ht => ?_⟩
  · rw [Function.update_apply]
    split_ifs with htc
    · exact le_rfl
    · exact h.gen_le t (hother htc ▸ ht)
  · rw [Function.update_apply]
    split_ifs with htc
    · exact le_rfl
    · exact (h.rank_le t (hother htc ▸ ht)).trans (Nat.le_succ n)
  · obtain rfl : c = t := Option.some.inj ht
    rw [hself]
    exact ⟨Option.some_ne_none _, Function.update_self ..⟩
  · unfold Before
    by_cases huc : u = c
    · subst huc
      rw [hself] at hu
      have hu := Option.some.inj hu
      obtain ⟨htmp, hgen⟩ := h.head t hu
      have htc := hhead hu
      rw [Function.update_self, Function.update_self, Function.update_of_ne htc,
        Function.update_of_ne htc]
      exact .inr ⟨hgen.symm, Nat.lt_succ_of_le (h.rank_le t htmp)⟩
    · rw [hother huc] at hu
      rw [Function.update_of_ne huc, Function.update_of_ne huc]
      by_cases htc : t = c
      · subst htc
        rw [Function.update_self]
        exact .inl (h.gone u _ hu hcur)
      · rw [Function.update_of_ne htc, Function.update_of_ne htc]
        exact h.tmp u t hu (hother htc ▸ ht)
  · have htc : t ≠ c := by
      rintro rfl
      rw [hself] at ht
      cases ht
    rw [hother htc] at ht
    by_cases huc : u = c
    · subst huc
      rw [hself] at hu
      exact absurd ht (h.head t (Option.some.inj hu)).1
    · rw [Function.update_of_ne huc]
      exact h.gone u t (hother huc ▸ hu) ht

/-- A task leaves and empties `*p`. -/
theorem leave (h : Ranked s gen rank g n) (u : T) (x : Option T) :
    Ranked (s.leave u x) gen rank (g + 1) n := by
  have hhead : (s.leave u x).head = none := by cases x <;> rfl
  have htmp : (s.leave u x).tmp = Function.update s.tmp u none := by cases x <;> rfl
  have hin {t : T} (ht : (s.leave u x).tmp t ≠ none) : t ≠ u ∧ s.tmp t ≠ none := by
    rw [htmp, Function.update_apply] at ht
    split_ifs at ht with htu
    · exact absurd rfl ht
    · exact ⟨htu, ht⟩
  have hold {v t : T} (hv : (s.leave u x).tmp v = some (some t)) : s.tmp v = some (some t) := by
    have hvu := (hin (by rw [hv]; exact Option.some_ne_none _)).1
    rw [htmp, Function.update_of_ne hvu] at hv
    exact hv
  refine ⟨fun t ht => ?_, fun t ht => h.rank_le t (hin ht).2, fun t ht => ?_, fun v t hv ht =>
    h.tmp v t (hold hv) (hin ht).2, fun v t hv _ => ?_⟩
  · exact (h.gen_le t (hin ht).2).trans (Nat.le_succ g)
  · rw [hhead] at ht
    cases ht
  · exact Nat.lt_succ_of_le (h.gen_le v (by rw [hold hv]; exact Option.some_ne_none _))

omit [DecidableEq T] in
/-- What is found from the `tmp` of a task comes after it. -/
theorem before (h : Ranked s gen rank g n) {u t : T} {x : Option T} (hu : s.tmp u = some x)
    (hr : Reaches s x t) (ht : s.tmp t ≠ none) : Before gen rank u t := by
  induction hr generalizing u with
  | here => exact h.tmp u _ hu ht
  | next hw _ ih =>
    exact (h.tmp u _ hu (by rw [hw]; exact Option.some_ne_none _)).trans (ih hw ht)

end Ranked

/-! ### Undisturbed runs -/

/-- No sleeper is lost, and a task that has not been taken off the queue is named by `*p` or by
another task. -/
structure Chained (idle : T) (s : State T) (taken : T → Bool) : Prop where
  noneLost : NoneLost idle s
  ranked : ∃ gen rank g n, Ranked s gen rank g n
  named : ∀ t, s.tmp t ≠ none → taken t = false →
    s.head = some t ∨ ∃ v, s.tmp v = some (some t)

namespace Chained

variable {idle : T} {s s' : State T} {taken : T → Bool}

omit [DecidableEq T] in
theorem init (c : T) (taken : T → Bool) : Chained idle (State.init c) taken :=
  ⟨.init c, ⟨fun _ => 0, fun _ => 0, 0, 0, .init c⟩, fun _ h => absurd rfl h⟩

omit [DecidableEq T] in
/-- A runnable task that some task names is found, and not only by its own pointer. -/
theorem linked (h : Chained idle s taken) {u v : T} (hu : s.tmp u ≠ none)
    (hv : s.tmp v = some (some u)) : Reaches s s.head u ∨
      ∃ v x, v ≠ u ∧ s.asleep v = false ∧ s.tmp v = some x ∧ Reaches s x u := by
  obtain ⟨gen, rank, g, n, hranked⟩ := h.ranked
  have hbefore : Before gen rank v u := hranked.tmp v u hv hu
  have hvu : v ≠ u := by
    rintro rfl
    exact Before.irrefl hbefore
  cases hawake : s.asleep v with
  | false => exact .inr ⟨v, some u, hvu, hawake, hv, .here u⟩
  | true =>
    rcases h.noneLost.found v hawake with hr | ⟨r, x, hr, hx, hreach⟩
    · exact .inl (hr.trans hv (.here u))
    · refine .inr ⟨r, x, ?_, hr, hx, hreach.trans hv (.here u)⟩
      rintro rfl
      -- A pointer of the task leads to a task that names it.
      have hafter := hranked.before hx hreach (by rw [hv]; exact Option.some_ne_none _)
      exact Before.irrefl (hbefore.trans hafter)

theorem enter (h : Chained idle s taken) (hcur : s.tmp s.current = none) (hne : s.current ≠ idle) :
    Chained idle s.enter (Function.update taken s.current false) := by
  obtain ⟨gen, rank, g, n, hranked⟩ := h.ranked
  refine ⟨h.noneLost.enter hcur hne, ⟨_, _, _, _, hranked.enter hcur⟩, fun t ht htaken => ?_⟩
  by_cases htc : t = s.current
  · exact .inl (congrArg some htc.symm)
  · rw [Function.update_of_ne htc] at htaken
    have ht : s.tmp t ≠ none := by
      rw [← show s.enter.tmp t = s.tmp t from Function.update_of_ne htc ..]
      exact ht
    rcases h.named t ht htaken with hhead | ⟨v, hv⟩
    · refine .inr ⟨s.current, (Function.update_self ..).trans (congrArg some hhead)⟩
    · refine .inr ⟨v, (Function.update_of_ne ?_ ..).trans hv⟩
      rintro rfl
      rw [hcur] at hv
      cases hv

omit [DecidableEq T] in
theorem signalled (h : Chained idle s taken) (sig : T → Bool) :
    Chained idle (s.signalled sig) taken := by
  obtain ⟨gen, rank, g, n, hranked⟩ := h.ranked
  exact ⟨h.noneLost.signalled sig, ⟨gen, rank, g, n, hranked.congr rfl rfl⟩, h.named⟩

theorem wakeUp (h : Chained idle s taken) : Chained idle s.wakeUp (match s.head with
    | none => taken
    | some t => Function.update taken t true) := by
  have hlost := h.noneLost.wakeUp
  obtain ⟨gen, rank, g, n, hranked⟩ := h.ranked
  unfold State.wakeUp at hlost ⊢
  cases hhead : s.head with
  | none => exact h
  | some w =>
    rw [hhead] at hlost
    refine ⟨hlost, ⟨gen, rank, g + 1, n, hranked.emptied rfl rfl⟩, fun t ht htaken => ?_⟩
    have htaken : Function.update taken w true t = false := htaken
    rw [Function.update_apply] at htaken
    split_ifs at htaken with htw
    refine .inr ((h.named t ht htaken).resolve_left fun hc => htw ?_)
    exact Option.some.inj (hc.symm.trans hhead)

/-- What a task does when it runs again. -/
theorem resume_cases (s : State T) (u : T) :
    s.tmp u = none ∧ s.resume u = s ∨
    (∃ x, s.tmp u = some x ∧ (s.head = none ∨ s.head = some u) ∧ s.resume u = s.leave u x) ∨
    ∃ x w, s.tmp u = some x ∧ s.head = some w ∧ w ≠ u ∧ s.resume u = { s.setRunning w with
      asleep := Function.update (s.setRunning w).asleep u true } := by
  unfold State.resume
  cases s.tmp u with
  | none => exact .inl ⟨rfl, rfl⟩
  | some x =>
    refine .inr ?_
    cases s.head with
    | none => exact .inl ⟨x, rfl, .inl rfl, rfl⟩
    | some w =>
      dsimp only
      split_ifs with hwu
      · exact .inl ⟨x, rfl, .inr (congrArg some hwu), rfl⟩
      · exact .inr ⟨x, w, rfl, rfl, hwu, rfl⟩

theorem switch (h : Chained idle s taken) {u : T} (hs : s.switch idle u = some s')
    (hkept : ∀ w, s.tmp u ≠ none → s.head = some w → w ≠ u →
      taken u = false ∨ ∃ v, s.tmp v = some (some u)) :
    Chained idle s' (s.takenOff u taken) := by
  obtain ⟨gen, rank, g, n, hranked⟩ := h.ranked
  have hlost : NoneLost idle s' := h.noneLost.switch hs fun w hu hw hwu => by
    rcases hkept w hu hw hwu with htaken | ⟨v, hv⟩
    · rcases h.named u hu htaken with hhead | ⟨v, hv⟩
      · exact absurd (Option.some.inj (hw.symm.trans hhead)) hwu
      · exact h.linked hu hv
    · exact h.linked hu hv
  unfold State.switch at hs
  split_ifs at hs
  obtain rfl := Option.some.inj hs
  have hsame {r : State T} (hhead : r.head = s.head) (htmp : r.tmp = s.tmp)
      (htaken : s.takenOff u taken = taken) (hr : NoneLost idle r) :
      Chained idle r (s.takenOff u taken) := by
    refine ⟨hr, ⟨gen, rank, g, n, hranked.congr hhead htmp⟩, ?_⟩
    rw [htaken, hhead, htmp]
    exact h.named
  rcases resume_cases { s with current := u } u with
    ⟨hu, hres⟩ | ⟨x, hu, hhead, hres⟩ | ⟨x, w, hu, hw, hwu, hres⟩
  · rw [hres] at hlost ⊢
    have hu : s.tmp u = none := hu
    refine hsame rfl rfl ?_ hlost
    rw [State.takenOff, hu]
  · rw [hres] at hlost ⊢
    have hu : s.tmp u = some x := hu
    have hhead : s.head = none ∨ s.head = some u := hhead
    have hcur : Ranked { s with current := u } gen rank g n := hranked.congr rfl rfl
    refine ⟨hlost, ⟨gen, rank, g + 1, n, hcur.leave u x⟩, fun t ht htaken => .inr ?_⟩
    have htmp : (State.leave { s with current := u } u x).tmp = Function.update s.tmp u none := by
      cases x <;> rfl
    rw [htmp] at ht ⊢
    rw [Function.update_apply] at ht
    split_ifs at ht with htu
    · exact absurd rfl ht
    -- The task that is named by the one that leaves is taken off the queue.
    have hxt : x ≠ some t ∧ taken t = false := by
      rw [State.takenOff, hu] at htaken
      cases x with
      | none => exact ⟨(nomatch ·), htaken⟩
      | some y =>
        dsimp only at htaken
        rw [if_pos hhead, Function.update_apply] at htaken
        split_ifs at htaken with hty
        exact ⟨fun hc => hty (Option.some.inj hc).symm, htaken⟩
    have hnamed : ∃ v, s.tmp v = some (some t) := by
      refine (h.named t ht hxt.2).resolve_left fun hc => ?_
      rcases hhead with hnone | hself
      · rw [hnone] at hc
        cases hc
      · exact htu (Option.some.inj (hc.symm.trans hself))
    obtain ⟨v, hv⟩ := hnamed
    refine ⟨v, (Function.update_of_ne ?_ ..).trans hv⟩
    rintro rfl
    exact hxt.1 (Option.some.inj (hu.symm.trans hv))
  · rw [hres] at hlost ⊢
    have hu : s.tmp u = some x := hu
    have hw : s.head = some w := hw
    refine hsame rfl rfl ?_ hlost
    rw [State.takenOff, hu]
    cases x with
    | none => rfl
    | some y =>
      refine if_neg ?_
      rintro (hc | hc)
      · rw [hw] at hc
        cases hc
      · exact hwu (Option.some.inj (hw.symm.trans hc))

end Chained

/-! ### All runs -/

section Runs

variable {idle : T} {s s' : Traced T} {e : IntEvent T}

theorem switch_of_scheduled {s s' s₁ : State T} {u : T} (h : s.scheduled e = some (s₁, u))
    (hs : s.step idle e = some s') : s₁.switch idle u = some s' := by
  cases e with
  | sleepOn sig v =>
    obtain ⟨rfl, rfl⟩ := Prod.mk.inj (Option.some.inj h)
    simp only [State.step] at hs
    split_ifs at hs
    exact hs
  | wakeUp => cases h
  | schedule sig v =>
    obtain ⟨rfl, rfl⟩ := Prod.mk.inj (Option.some.inj h)
    exact hs

/-- **Step lemma.** An undisturbed step loses no sleeper. -/
theorem Chained.step (h : Chained idle s.state s.taken) (hs : s.step idle e = some s')
    (hkept : Undisturbed s e) : Chained idle s'.state s'.taken := by
  obtain ⟨s₂, hstep, rfl⟩ := Option.map_eq_some_iff.mp hs
  dsimp only
  cases e with
  | sleepOn sig u =>
    simp only [State.step] at hstep
    split_ifs at hstep with hcur
    obtain ⟨hne, hcur⟩ := not_or.mp hcur
    refine ((h.enter (not_not.mp hcur) hne).signalled sig).switch hstep fun w hu hw hwu => ?_
    rw [Function.update_of_ne fun hc => hwu ?_]
    · exact hkept _ u w rfl hu hw hwu
    · exact (Option.some.inj hw).symm.trans hc.symm
  | wakeUp =>
    obtain rfl := Option.some.inj hstep
    exact h.wakeUp
  | schedule sig u =>
    exact (h.signalled sig).switch hstep fun w hu hw hwu => hkept _ u w rfl hu hw hwu

omit [DecidableEq T] in
/-- A task that is found is named by the pointer where the search begins, or by another task. -/
theorem Reaches.named {s : State T} {r : Option T} {t : T} (h : Reaches s r t) :
    r = some t ∨ ∃ v, s.tmp v = some (some t) := by
  induction h with
  | here => exact .inl rfl
  | @next u t x hu _ ih =>
    rcases ih with rfl | hv
    · exact .inr ⟨u, hu⟩
    · exact .inr hv

/-- A step is undisturbed exactly if no sleeper is lost after it. -/
theorem undisturbed_iff (h : Chained idle s.state s.taken) (hs : s.step idle e = some s') :
    Undisturbed s e ↔ AllFound s'.state := by
  refine ⟨fun hkept => (h.step hs hkept).noneLost.allFound, fun hall s₁ u w hsched hu hw hwu => ?_⟩
  obtain ⟨s₂, hstep, rfl⟩ := Option.map_eq_some_iff.mp hs
  have hswitch := switch_of_scheduled hsched hstep
  unfold State.switch at hswitch
  split_ifs at hswitch
  obtain rfl := Option.some.inj hswitch
  rcases Chained.resume_cases { s₁ with current := u } u with
    ⟨hnone, -⟩ | ⟨-, -, hhead, -⟩ | ⟨x, w', -, -, -, hres⟩
  · exact absurd hnone hu
  · rcases hhead with hc | hc
    · cases hw.symm.trans hc
    · exact absurd (Option.some.inj (hw.symm.trans hc)) hwu
  · -- The task sleeps again, with the pointers as they were.
    have hasleep : (State.resume { s₁ with current := u } u).asleep u = true := by
      rw [hres]
      exact Function.update_self ..
    have hfound := hall.found u hasleep
    rw [hres] at hfound
    refine .inr ?_
    rcases hfound with hr | ⟨v, y, -, hy, hr⟩
    · rcases hr.named with hc | hv
      · exact absurd (Option.some.inj (hw.symm.trans hc)) hwu
      · exact hv
    · rcases hr.named with rfl | hv
      · exact ⟨v, hy⟩
      · exact hv

end Runs

/-- **No sleeper is lost.** In every run, all steps are undisturbed if and only if in every state
that the run reaches each sleeper is found from `*p`, or from the `tmp` of a runnable task that has
not left the function yet. -/
theorem interruptible_found (idle c : T) (es : List (IntEvent T)) (s : Traced T) :
    Runs (fun s e s' => s.step idle e = some s' ∧ Undisturbed s e)
        ⟨State.init c, fun _ => false⟩ es s ↔
      Runs (fun s e s' => s.step idle e = some s' ∧ AllFound s'.state)
        ⟨State.init c, fun _ => false⟩ es s :=
  Runs.guard_congr (I := fun s => Chained idle s.state s.taken)
    (fun _ _ _ h hs => undisturbed_iff h hs) (fun _ _ _ h hs => h.step hs.1 hs.2) (.init c _)

/-- Task 1 sleeps and task 2 after it. A signal makes task 1 run, which finds task 2 in `*p` and
sleeps again. -/
theorem interruptible_found_three : ∃ es s,
    Runs (fun s e s' => Traced.step (0 : Fin 4) s e = some s' ∧ AllFound s'.state)
      ⟨State.init 1, fun _ => false⟩ es s ∧ s.state.asleep 1 = true ∧ s.state.head = some 2 := by
  have hexec : ∃ s, exec (fun s e => (Traced.step (0 : Fin 4) s e).filter fun _ =>
      ∀ s₁ ∈ s.state.scheduled e, s.taken s₁.2 = false)
        ⟨State.init 1, fun _ => false⟩ [.sleepOn (fun _ => false) 2, .sleepOn (fun _ => false) 3,
          .schedule (fun t => t = 1) 1] = some s ∧ s.state.asleep 1 = true ∧
      s.state.head = some 2 := ⟨_, rfl, rfl, rfl⟩
  obtain ⟨s, hs, hasleep, hhead⟩ := hexec
  refine ⟨_, s, (interruptible_found 0 1 _ s).mp ((runs_of_exec_guarded hs).mono ?_), hasleep,
    hhead⟩
  exact fun s e s' ⟨hstep, hguard⟩ => ⟨hstep, fun s₁ u h hsched _ _ _ => .inl (hguard _ hsched)⟩

/-- Task 1 sleeps. Task 3 wakes the queue, and before task 1 runs, task 2 enters the queue. Task 1
finds it in `*p` and sleeps again, without being in its chain. -/
theorem interruptible_lost : ∃ es s,
    Runs (fun s e s' => State.step (0 : Fin 4) s e = some s') (State.init 1) es s ∧
      s.asleep 1 = true ∧ ¬ Found s 1 := by
  have hexec : ∃ s, exec (State.step (0 : Fin 4)) (State.init 1)
      [.sleepOn (fun _ => false) 3, .wakeUp, .schedule (fun _ => false) 2,
        .sleepOn (fun _ => false) 1] = some s ∧
      s.asleep 1 = true ∧ s.head = some 2 ∧ s.tmp 2 = some none ∧
        ∀ u, u = 1 ∨ u = 2 ∨ s.tmp u = none := ⟨_, rfl, rfl, rfl, rfl, by decide⟩
  obtain ⟨s, hs, hasleep, hhead, htmp, hout⟩ := hexec
  refine ⟨_, s, runs_of_exec hs, hasleep, ?_⟩
  have hnot : ¬ Reaches s (some 2) 1 := by
    intro hr
    cases hr with
    | next hu hr =>
      rw [htmp] at hu
      cases hu
      cases hr
  rintro (hr | ⟨u, x, hu, hx, hr⟩)
  · exact hnot (hhead ▸ hr)
  · rcases hout u with rfl | rfl | hnone
    · rw [hasleep] at hu
      cases hu
    · rw [htmp] at hx
      cases hx
      cases hr
    · rw [hnone] at hx
      cases hx

end Linux001.Sched
