import Linux001.Lib.Runs
import Linux001.Sched.Schedule
import Mathlib.Algebra.BigOperators.Group.Finset.Basic
import Mathlib.Algebra.Order.BigOperators.Group.Finset
import Mathlib.Data.Prod.Lex
import Mathlib.Order.OrderIsoNat

/-!
# Time slices

The counters and priorities of the tasks under `sys_nice`, `do_timer` and `schedule` of
`kernel/sched.c` and `copy_process` of `kernel/fork.c`. A step may also change the state, the
signals and the alarm of a task, which happens when tasks sleep, wake up and exit.

`schedule` adds the priority to half of the counter of every task, and `sys_nice` lets a process
raise its priority to the largest `long`. Then the sum overflows, the counter is negative, and the
task is not selected although it is running.

## Main definitions

* `State.next`, `Step`: the steps.
* `NoOverflow`: no counter overflows when `schedule` recomputes them.
* `Proper`: the counters are not negative, and the priorities are positive.

## Main results

* `time_slices`: in the runs in which no counter overflows, every state is proper, a running task is
  preferred to the idle task, and every running task is selected again and again.
-/

namespace Linux001.Sched

/-- The counters are not negative, and the priorities are positive. -/
def Proper (t : Table) : Prop := ∀ i p, t i = some p → 1 ≤ p.priority.toInt ∧ 0 ≤ p.counter.toInt

variable {t t' : Table} {p q : Task} {i n next : ℕ} {jiffies : Int32}

namespace Proper

theorem sound (h : Proper t) : t.Sound := fun i p _ hp => (h i p hp).symm

theorem update (h : Proper t) (i : ℕ) {o : Option Task}
    (ho : ∀ p ∈ o, 1 ≤ p.priority.toInt ∧ 0 ≤ p.counter.toInt) :
    Proper (Function.update t i o) := by
  intro j q hq
  rw [Function.update_apply] at hq
  split_ifs at hq
  · exact ho q hq
  · exact h j q hq

theorem wakeUp (h : Proper t) (jiffies : Int32) : Proper (t.wakeUp jiffies) := by
  intro i q hq
  obtain ⟨p, hp, hcounter, hpriority⟩ := Table.wakeUp_eq_some hq
  rw [hcounter, hpriority]
  exact h i p hp

theorem recompute (h : Proper t) (hfit : t.Fits) : Proper t.recompute := by
  intro i q hq
  by_cases hi : Table.Slot i
  · exact (h.sound.recompute hfit i q hi hq).symm
  · rw [Table.recompute_apply, if_neg hi] at hq
    exact h i q hq

end Proper

/-! ### `schedule` -/

theorem Table.Decision.eq_recompute (h : t.Decision t' next) (hused : t.UsedUp) :
    t' = t.recompute := by
  funext i
  rw [h.recomputed hused, Table.recompute_apply]
  congr 2
  funext p
  rw [← Table.recompute_counter]
  rfl

theorem Table.Decision.proper (h : t.Decision t' next) (ht : Proper t) (hfit : t.UsedUp → t.Fits) :
    Proper t' := by
  by_cases hused : t.UsedUp
  · rw [h.eq_recompute hused]
    exact ht.recompute (hfit hused)
  · rw [h.kept hused]
    exact ht

/-- The slots that are in use do not change. -/
theorem Table.Decision.eq_none_iff (h : t.Decision t' next) (i : ℕ) : t' i = none ↔ t i = none := by
  by_cases hused : t.UsedUp
  · rw [h.recomputed hused]
    split_ifs
    · exact Option.map_eq_none_iff
    · exact Iff.rfl
  · rw [h.kept hused]

theorem wakeUp_eq_none_iff : t.wakeUp jiffies i = none ↔ t i = none := by
  rw [Table.wakeUp_apply]
  split_ifs
  · exact Option.map_eq_none_iff
  · exact Iff.rfl

/-- A call of `schedule` that returns has decided. -/
theorem schedule_decided (ht : Proper t)
    (hfit : (t.wakeUp jiffies).UsedUp → (t.wakeUp jiffies).Fits)
    {r : Table × ℕ} (h : t.schedule n jiffies = some r) :
    (t.wakeUp jiffies).Decision r.1 r.2 := by
  obtain ⟨t', next, hall, -, hdec⟩ := Table.select_decision (ht.wakeUp jiffies).sound hfit
  obtain rfl : r = (t', next) := Option.some.inj ((Table.select_add h 2).symm.trans (hall n))
  exact hdec

/-! ### The time that is left -/

/-- The time that the task in a slot has left. -/
def timeLeft (t : Table) (i : ℕ) : ℕ := ((t i).map fun p => p.counter.toInt.toNat).getD 0

/-- The number of free slots. -/
def freeSlots (t : Table) : ℕ := ∑ i ∈ Finset.range 64, if t i = none then 1 else 0

/-- The time that all tasks have left. -/
def totalTime (t : Table) : ℕ := ∑ i ∈ Finset.range 64, timeLeft t i

theorem timeLeft_of_some (hp : t i = some p) : timeLeft t i = p.counter.toInt.toNat := by
  rw [timeLeft, hp]
  rfl

theorem timeLeft_congr (h : (t' i).map Task.counter = (t i).map Task.counter) :
    timeLeft t' i = timeLeft t i := by
  have hmap (o : Option Task) : o.map (fun p => p.counter.toInt.toNat) =
      (o.map Task.counter).map fun c => c.toInt.toNat := by
    rw [Option.map_map]
    rfl
  rw [timeLeft, timeLeft, hmap, hmap, h]

theorem freeSlots_congr (h : ∀ i, t' i = none ↔ t i = none) : freeSlots t' = freeSlots t :=
  Finset.sum_congr rfl fun i _ => if_congr (h i) rfl rfl

/-- A slot is filled. -/
theorem freeSlots_update (hi : Table.Slot i) (hnone : t i = none) (p : Task) :
    freeSlots (Function.update t i (some p)) < freeSlots t := by
  have hmem : i ∈ Finset.range 64 := Finset.mem_range.mpr (Nat.lt_succ_of_le hi.2)
  refine Finset.sum_lt_sum (fun j _ => ?_) ⟨i, hmem, ?_⟩
  · rcases eq_or_ne j i with rfl | hj
    · rw [Function.update_self, if_neg (nomatch ·)]
      exact Nat.zero_le _
    · rw [Function.update_of_ne hj]
  · rw [Function.update_self, if_neg (nomatch ·), if_pos hnone]
    exact Nat.one_pos

theorem totalTime_congr (h : ∀ i, timeLeft t' i = timeLeft t i) : totalTime t' = totalTime t :=
  Finset.sum_congr rfl fun i _ => h i

/-- The time of one task becomes less. -/
theorem totalTime_update (hi : i ≤ 63) (h : ∀ j, j ≠ i → t' j = t j) :
    totalTime t' + timeLeft t i = totalTime t + timeLeft t' i := by
  have hmem : i ∈ Finset.range 64 := Finset.mem_range.mpr (by omega)
  have hrest : ∑ j ∈ (Finset.range 64).erase i, timeLeft t' j =
      ∑ j ∈ (Finset.range 64).erase i, timeLeft t j :=
    Finset.sum_congr rfl fun j hj => by rw [timeLeft, timeLeft, h j (Finset.ne_of_mem_erase hj)]
  have hsum := Finset.add_sum_erase _ (timeLeft t) hmem
  have hsum' := Finset.add_sum_erase _ (timeLeft t') hmem
  unfold totalTime
  omega

theorem timeLeft_wakeUp (t : Table) (i : ℕ) : timeLeft (t.wakeUp jiffies) i = timeLeft t i := by
  cases hp : t i with
  | none => rw [timeLeft, wakeUp_eq_none_iff.mpr hp, timeLeft, hp]
  | some p =>
    obtain ⟨q, hq, hwoken⟩ := t.wakeUp_woken jiffies hp
    rw [timeLeft_of_some hp, timeLeft_of_some hq, hwoken.counter]

/-- A task that is running before the first loop of `schedule` is so after it. -/
theorem running_wakeUp (h : t.Running i p) (jiffies : Int32) :
    ∃ q, (t.wakeUp jiffies).Running i q ∧ q.counter = p.counter := by
  obtain ⟨q, hq, hwoken⟩ := t.wakeUp_woken jiffies h.2.1
  refine ⟨q, ⟨h.1, hq, ?_⟩, hwoken.counter⟩
  rw [hwoken.state, if_neg]
  · exact h.2.2
  · rintro ⟨-, -, hsleep⟩
    rw [h.2.2] at hsleep
    cases hsleep

/-- If `schedule` does not recompute the counters, it switches to a task with time; else the task in
slot `i`, which had none, has some then. -/
theorem Table.Decision.time (h : t.Decision t' next) (ht : t.Sound) (hfit : t.UsedUp → t.Fits)
    (hp : t.Running i p) :
    (t.UsedUp ∧ timeLeft t i = 0 ∧ timeLeft t' i ≠ 0) ∨ t' = t ∧ timeLeft t next ≠ 0 := by
  by_cases hused : t.UsedUp
  · refine .inl ⟨hused, ?_, ?_⟩
    · rw [timeLeft_of_some hp.2.1, hused.2 i p hp, Int32.toInt_zero]
      rfl
    · have hrec : t' i = some p.recompute := by
        rw [h.eq_recompute hused, Table.recompute_apply, if_pos hp.1, hp.2.1]
        rfl
      have hbounds := ht i p hp.1 hp.2.1
      rw [timeLeft_of_some hrec, Table.recompute_toInt ht (hfit hused) hp.1 hp.2.1]
      omega
  · obtain rfl := h.kept hused
    refine .inr ⟨rfl, fun hzero => hused ⟨⟨i, p, hp⟩, fun j q hq => ?_⟩⟩
    obtain ⟨r, hr, hall⟩ := h.best fun hnext => h.idle_iff.mp hnext i p hp
    rw [timeLeft_of_some hr.2.1] at hzero
    have hle := (hall j q hq).1
    have hnonneg := (ht j q hq.1 hq.2.1).1
    refine Int32.toInt_inj.mp ?_
    rw [Int32.toInt_zero]
    omega

/-! ### Overflows -/

/-- The counter that does not fit is negative. -/
theorem recompute_overflow (h : 1 ≤ p.priority.toInt ∧ 0 ≤ p.counter.toInt)
    (hfit : ¬ p.counter.toInt / 2 + p.priority.toInt < 2 ^ 31) : p.recompute.counter.toInt < 0 := by
  have hc := p.counter.toInt_lt
  have hp := p.priority.toInt_lt
  rw [Task.recompute, Int32.toInt_add, Table.toInt_half]
  have hmod : (p.counter.toInt / 2 + p.priority.toInt).bmod (2 ^ 32) =
      p.counter.toInt / 2 + p.priority.toInt - 2 ^ 32 := by
    rw [← Int.sub_bmod_right]
    exact Int.bmod_eq_of_le (by omega) (by omega)
  rw [hmod]
  omega

/-- The loop of `schedule` also ends when a counter overflows. -/
theorem select_of_not_fits (ht : Proper t) (hused : t.UsedUp) {r : Table × ℕ}
    (h : Table.select n t = some r) : r.1 = t.recompute := by
  obtain ⟨⟨i, p, hp⟩, hall⟩ := hused
  -- The running tasks get their priorities as time slices.
  have hbest := Table.scan_all t.recompute
  have hrun : t.recompute.Running i p.recompute := Table.running_recompute.mpr ⟨p, hp, rfl⟩
  have hcounter : 1 ≤ p.recompute.counter.toInt := by
    have hprio := (ht i p hp.2.1).1
    have hlt := p.priority.toInt_lt
    rw [Task.recompute, Int32.toInt_add, Table.toInt_half, hall i p hp, Int32.toInt_zero,
      Int.bmod_eq_of_le (by omega) (by omega)]
    omega
  have hc : (t.recompute.scan 63 (-1) 0).1 ≠ 0 := by
    intro hzero
    have hle := hbest.le i _ hrun hrun.1.1
    rw [hzero, Int32.toInt_zero] at hle
    omega
  have h := Table.select_add h 2
  rw [show n + 2 = n + 1 + 1 from rfl, Table.select_of_usedUp ht.sound ⟨⟨i, p, hp⟩, hall⟩,
    Table.select_succ, if_pos hc] at h
  exact congrArg Prod.fst (Option.some.inj h).symm

end Linux001.Sched

namespace Linux001.Sched.Slices

/-- The task table and the slot of the current task. -/
structure State where
  task : Table
  current : ℕ

/-- What happens: the current process calls `sys_nice` or `sys_fork` or `schedule`, the timer
interrupts it in user mode or in the kernel, or the fields of the task in a slot that are not about
time slices change. -/
inductive Event
  | nice (increment : Int32)
  | fork
  | tick (user : Bool) (jiffies : Int32)
  | schedule (jiffies : Int32)
  | set (i : ℕ) (state : TaskState) (signal : UInt32) (alarm : Int32)

namespace State

/-- The state after `sched_init`: there is the idle task. -/
def init : State := ⟨fun i => if i = 0 then some ⟨.running, 15, 15, 0, 0⟩ else none, 0⟩

variable (s : State)

/-- Stores to fields of the current task. -/
def setCurrent (p : Task) : State := { s with task := Function.update s.task s.current (some p) }

/-- `sys_nice(increment)`. -/
def sysNice (increment : Int32) : Option State :=
  (s.task s.current).map fun p =>
    if p.priority - increment > 0 then s.setCurrent { p with priority := p.priority - increment }
    else s

/-- The loop of `find_empty_process` that looks for a slot. -/
def findEmptyProcess : Option ℕ := (List.range' 1 63).find? fun i => s.task i = none

/-- `find_empty_process` and `copy_process`. -/
def fork : Option State :=
  (s.task s.current).map fun p =>
    match s.findEmptyProcess with
    | none => s
    | some nr =>
      { s with
        task := Function.update s.task nr
          (some { p with state := .running, counter := p.priority, signal := 0, alarm := 0 }) }

/-- `schedule()`, when its loop ends within `n` turns. -/
def schedule (n : ℕ) (jiffies : Int32) : Option State :=
  (s.task.schedule n jiffies).map fun r => ⟨r.1, r.2⟩

/-- `do_timer(cpl)`; `user` tells that `cpl` is not 0. -/
def doTimer (n : ℕ) (user : Bool) (jiffies : Int32) : Option State :=
  (s.task s.current).bind fun p =>
    if p.counter - 1 > 0 then some (s.setCurrent { p with counter := p.counter - 1 })
    else
      let s := s.setCurrent { p with counter := 0 }
      if user then s.schedule n jiffies else some s

/-- The step of an event. -/
def next (n : ℕ) : Event → Option State
  | .nice increment => s.sysNice increment
  | .fork => s.fork
  | .tick user jiffies => s.doTimer n user jiffies
  | .schedule jiffies => s.schedule n jiffies
  | .set i state signal alarm =>
    some { s with
      task := Function.update s.task i ((s.task i).map fun p =>
        { p with state := state, signal := signal, alarm := alarm }) }

/-- The table with which the event calls `schedule`, and the time. -/
def calls : Event → Option (Table × Int32)
  | .tick user jiffies =>
    (s.task s.current).bind fun p =>
      if user ∧ ¬ p.counter - 1 > 0 then some ((s.setCurrent { p with counter := 0 }).task, jiffies)
      else none
  | .schedule jiffies => some (s.task, jiffies)
  | .nice _ | .fork | .set _ _ _ _ => none

end State

/-- The steps of the system. -/
def Step (s : State) (e : Event) (s' : State) : Prop := ∃ n, s.next n e = some s'

/-- If the event makes `schedule` recompute the counters, no sum exceeds the largest `long`. -/
def NoOverflow (s : State) (e : Event) : Prop :=
  ∀ t jiffies, s.calls e = some (t, jiffies) → (t.wakeUp jiffies).UsedUp → (t.wakeUp jiffies).Fits

/-- The table is proper, and there are an idle and a current task. -/
structure Good (s : State) : Prop where
  proper : Proper s.task
  idle : s.task 0 ≠ none
  current : s.task s.current ≠ none
  current_le : s.current ≤ 63

variable {s s' : State} {e : Event} {t t' : Table} {p q : Task} {i n next : ℕ} {jiffies : Int32}

/-! ### Steps -/

/-- What a step does: it calls `schedule`, the timer takes time from the current task, a slot is
filled, or the counters are as before. -/
inductive Effect (s : State) : Event → State → Prop
  | scheduled {e : Event} {t t' : Table} {jiffies : Int32} {next : ℕ}
      (hcall : s.calls e = some (t, jiffies)) (hdec : (t.wakeUp jiffies).Decision t' next) :
      Effect s e ⟨t', next⟩
  | ticked {user : Bool} {jiffies c : Int32} {p : Task} (hp : s.task s.current = some p)
      (hc : c.toInt = max (p.counter.toInt - 1) 0) (huser : user = true → 0 < c.toInt) :
      Effect s (.tick user jiffies) (s.setCurrent { p with counter := c })
  | forked {nr : ℕ} {p : Task} (hnr : Table.Slot nr) (hnone : s.task nr = none)
      (hproper : 1 ≤ p.priority.toInt ∧ 0 ≤ p.counter.toInt) :
      Effect s .fork { s with task := Function.update s.task nr (some p) }
  | other {e : Event} {t : Table} (huser : ∀ jiffies, e ≠ .tick true jiffies) (hproper : Proper t)
      (hcounter : ∀ i, (t i).map Task.counter = (s.task i).map Task.counter) :
      Effect s e { s with task := t }

theorem findEmptyProcess_eq_some {nr : ℕ} (h : s.findEmptyProcess = some nr) :
    Table.Slot nr ∧ s.task nr = none := by
  have hmem := List.mem_of_find?_eq_some h
  rw [List.mem_range'_1] at hmem
  exact ⟨⟨hmem.1, by omega⟩, by simpa using List.find?_some h⟩

/-- The counter that the timer leaves, of a counter that is not negative. -/
theorem toInt_sub_one {c : Int32} (hc : 0 ≤ c.toInt) :
    (c - 1).toInt = c.toInt - 1 ∧ (c - 1 > 0 ↔ 1 < c.toInt) := by
  have hlt := c.toInt_lt
  have hsub : (c - 1).toInt = c.toInt - 1 := by
    rw [Int32.toInt_sub]
    exact Int.bmod_eq_of_le (by simp; omega) (by simp; omega)
  refine ⟨hsub, ?_⟩
  rw [gt_iff_lt, Int32.lt_iff_toInt_lt, hsub, Int32.toInt_zero]
  omega

/-- A store to the current task that keeps its counter. -/
theorem Effect.store (h : Good s) (huser : ∀ jiffies, e ≠ .tick true jiffies) (i : ℕ)
    {f : Task → Task} (hf : ∀ p, (f p).counter = p.counter)
    (hpriority : ∀ p, s.task i = some p → 1 ≤ (f p).priority.toInt) :
    Effect s e { s with task := Function.update s.task i ((s.task i).map f) } := by
  refine .other huser (h.proper.update i fun q hq => ?_) fun j => ?_
  · obtain ⟨p, hp, rfl⟩ := Option.map_eq_some_iff.mp hq
    rw [hf]
    exact ⟨hpriority p hp, (h.proper i p hp).2⟩
  · rw [Function.update_apply]
    split_ifs with hj
    · subst hj
      rw [Option.map_map]
      exact congrArg (fun g => Option.map g (s.task j)) (funext hf)
    · rfl

theorem step_effect (h : Good s) (hno : NoOverflow s e) (hs : Step s e s') : Effect s e s' := by
  obtain ⟨n, hs⟩ := hs
  -- A call of `schedule` from the table `t`.
  have hschedule : ∀ {t : Table} {c : ℕ} {jiffies : Int32}, Proper t →
      s.calls e = some (t, jiffies) → (State.mk t c).schedule n jiffies = some s' →
        Effect s e s' := by
    intro t c jiffies ht hcall hsched
    obtain ⟨r, hr, rfl⟩ := Option.map_eq_some_iff.mp hsched
    exact .scheduled hcall (schedule_decided ht (hno t jiffies hcall) hr)
  cases e with
  | nice increment =>
    obtain ⟨p, hp, hs'⟩ := Option.map_eq_some_iff.mp hs
    split_ifs at hs' with hpos
    · subst hs'
      have hstore := Effect.store (e := .nice increment) h (fun _ => (nomatch ·)) s.current
        (f := fun p => { p with priority := p.priority - increment }) (fun _ => rfl) fun q hq => by
          obtain rfl := Option.some.inj (hp.symm.trans hq)
          have hlt := Int32.lt_iff_toInt_lt.mp hpos
          rw [Int32.toInt_zero] at hlt
          exact hlt
      rw [hp] at hstore
      exact hstore
    · subst hs'
      exact .other (fun _ => (nomatch ·)) h.proper fun _ => rfl
  | fork =>
    obtain ⟨p, hp, hs'⟩ := Option.map_eq_some_iff.mp hs
    have hproper := h.proper _ p hp
    cases hnr : s.findEmptyProcess with
    | none =>
      rw [hnr] at hs'
      subst hs'
      exact .other (fun _ => (nomatch ·)) h.proper fun _ => rfl
    | some nr =>
      rw [hnr] at hs'
      subst hs'
      obtain ⟨hslot, hnone⟩ := findEmptyProcess_eq_some hnr
      exact .forked hslot hnone ⟨hproper.1, by dsimp only; omega⟩
  | tick user jiffies =>
    obtain ⟨p, hp, hs'⟩ := Option.bind_eq_some_iff.mp hs
    have hproper := h.proper _ p hp
    obtain ⟨hsub, hpos⟩ := toInt_sub_one hproper.2
    split_ifs at hs' with hgt huser
    · obtain rfl := Option.some.inj hs'
      have hlt := hpos.mp hgt
      exact .ticked hp (by omega) fun _ => by omega
    · have hcall : s.calls (.tick user jiffies) =
          some ((s.setCurrent { p with counter := 0 }).task, jiffies) := by
        rw [State.calls, hp, Option.bind_some, if_pos ⟨huser, hgt⟩]
      refine hschedule (h.proper.update _ fun q hq => ?_) hcall hs'
      cases hq
      exact ⟨hproper.1, le_rfl⟩
    · obtain rfl := Option.some.inj hs'
      rw [hpos] at hgt
      refine .ticked hp ?_ fun hc => absurd hc huser
      rw [Int32.toInt_zero]
      omega
  | schedule jiffies => exact hschedule h.proper rfl hs
  | set i state signal alarm =>
    obtain rfl := Option.some.inj hs
    have huser : ∀ jiffies, Event.set i state signal alarm ≠ .tick true jiffies :=
      fun _ => (nomatch ·)
    exact .store h huser i (fun _ => rfl) fun p hp => (h.proper i p hp).1

/-! ### States -/

/-- The tables with which `schedule` is called. -/
theorem Good.calls (h : Good s) (hcall : s.calls e = some (t, jiffies)) :
    Proper t ∧ (∀ i, t i = none ↔ s.task i = none) ∧ ∀ i, i ≠ s.current → t i = s.task i := by
  cases e with
  | tick user j =>
    obtain ⟨p, hp, hs⟩ := Option.bind_eq_some_iff.mp hcall
    split_ifs at hs
    cases hs
    refine ⟨h.proper.update _ fun q hq => ?_, fun i => ?_, fun i hi => Function.update_of_ne hi ..⟩
    · cases hq
      exact ⟨(h.proper _ p hp).1, le_rfl⟩
    · simp only [State.setCurrent, Function.update_apply]
      split_ifs with hi
      · rw [hi, hp]
        exact ⟨(nomatch ·), (nomatch ·)⟩
      · exact Iff.rfl
  | schedule j =>
    cases hcall
    exact ⟨h.proper, fun _ => Iff.rfl, fun _ _ => rfl⟩
  | nice | fork | set => cases hcall

theorem Good.step (h : Good s) (hno : NoOverflow s e) (hs : Step s e s') : Good s' := by
  cases step_effect h hno hs with
  | @scheduled _ t t' jiffies next hcall hdec =>
    obtain ⟨ht, hnone, -⟩ := h.calls hcall
    have hnone' (i : ℕ) : t' i = none ↔ s.task i = none :=
      (hdec.eq_none_iff i).trans (wakeUp_eq_none_iff.trans (hnone i))
    refine ⟨hdec.proper (ht.wakeUp jiffies) (hno t jiffies hcall), mt (hnone' 0).mp h.idle, ?_, ?_⟩
    · rcases eq_or_ne next 0 with rfl | hnext
      · exact mt (hnone' 0).mp h.idle
      · obtain ⟨p, hp, -⟩ := hdec.best hnext
        exact Option.ne_none_iff_exists'.mpr ⟨p, hp.2.1⟩
    · rcases eq_or_ne next 0 with rfl | hnext
      · exact Nat.zero_le _
      · obtain ⟨p, hp, -⟩ := hdec.best hnext
        exact hp.1.2
  | @ticked user jiffies c p hp hc huser =>
    refine ⟨h.proper.update _ fun q hq => ?_, ?_, ?_, h.current_le⟩
    · cases hq
      exact ⟨(h.proper _ p hp).1, by dsimp only; omega⟩
    · simp only [State.setCurrent, Function.update_apply]
      split_ifs
      · exact (nomatch ·)
      · exact h.idle
    · simp only [State.setCurrent, Function.update_self]
      exact (nomatch ·)
  | @forked nr p hnr hnone hproper =>
    have hother {i : ℕ} (hi : s.task i ≠ none) : Function.update s.task nr (some p) i ≠ none := by
      rw [Function.update_apply]
      split_ifs
      · exact (nomatch ·)
      · exact hi
    refine ⟨h.proper.update _ fun q hq => ?_, hother h.idle, hother h.current, h.current_le⟩
    cases hq
    exact hproper
  | @other _ t huser hproper hcounter =>
    have hother {i : ℕ} (hi : s.task i ≠ none) : t i ≠ none := by
      intro hnone
      have hmap := hcounter i
      rw [hnone] at hmap
      exact hi (Option.map_eq_none_iff.mp hmap.symm)
    exact ⟨hproper, hother h.idle, hother h.current, h.current_le⟩

theorem Good.init : Good State.init := by
  refine ⟨fun i p hp => ?_, by decide, by decide, by decide⟩
  unfold State.init at hp
  dsimp only at hp
  split_ifs at hp
  cases hp
  exact ⟨by decide, by decide⟩

/-- Every event can happen, as long as no counter overflows. -/
theorem Good.total (h : Good s) (hno : NoOverflow s e) : ∃ s', Step s e s' := by
  -- The loop of `schedule` ends.
  have hschedule : ∀ {t : Table} (c : ℕ) {jiffies : Int32}, s.calls e = some (t, jiffies) →
      ∃ s', (State.mk t c).schedule 2 jiffies = some s' := by
    intro t c jiffies hcall
    obtain ⟨t', next, hall, -⟩ := Table.select_decision ((h.calls hcall).1.wakeUp jiffies).sound
      (hno t jiffies hcall)
    exact ⟨⟨t', next⟩, Option.map_eq_some_iff.mpr ⟨(t', next), hall 0, rfl⟩⟩
  obtain ⟨p, hp⟩ := Option.ne_none_iff_exists'.mp h.current
  cases e with
  | nice increment | fork => exact ⟨_, 0, Option.map_eq_some_iff.mpr ⟨p, hp, rfl⟩⟩
  | tick user jiffies =>
    by_cases hgt : p.counter - 1 > 0
    · exact ⟨_, 0, Option.bind_eq_some_iff.mpr ⟨p, hp, if_pos hgt⟩⟩
    · cases user with
      | true =>
        have hcall : s.calls (.tick true jiffies) =
            some ((s.setCurrent { p with counter := 0 }).task, jiffies) := by
          rw [State.calls, hp, Option.bind_some, if_pos ⟨rfl, hgt⟩]
        obtain ⟨s', hs'⟩ := hschedule s.current hcall
        refine ⟨s', 2, Option.bind_eq_some_iff.mpr ⟨p, hp, ?_⟩⟩
        rw [if_neg hgt]
        exact hs'
      | false => exact ⟨_, 0, Option.bind_eq_some_iff.mpr ⟨p, hp, if_neg hgt⟩⟩
  | schedule jiffies =>
    obtain ⟨s', hs'⟩ := hschedule s.current rfl
    exact ⟨s', 2, hs'⟩
  | set i state signal alarm => exact ⟨_, 0, rfl⟩

/-! ### Waiting -/

/-- What is used up as long as the running task in slot `i` is not selected: the free slots, the one
recomputation that can come before the task has time, and the time of the other tasks. -/
def waiting (i : ℕ) (s : State) : ℕ ×ₗ ℕ ×ₗ ℕ :=
  toLex (freeSlots s.task, toLex (if timeLeft s.task i = 0 then 1 else 0,
    2 * totalTime s.task + if timeLeft s.task s.current = 0 then 1 else 0))

theorem setCurrent_self (s : State) (p : Task) : (s.setCurrent p).task s.current = some p :=
  Function.update_self ..

theorem setCurrent_of_ne (p : Task) (hi : i ≠ s.current) : (s.setCurrent p).task i = s.task i :=
  Function.update_of_ne hi ..

theorem totalTime_setCurrent (h : s.current ≤ 63) (p : Task) :
    totalTime (s.setCurrent p).task + timeLeft s.task s.current =
      totalTime s.task + p.counter.toInt.toNat := by
  have hother : ∀ j, j ≠ s.current → (s.setCurrent p).task j = s.task j := fun j hj =>
    setCurrent_of_ne p hj
  have hsum := totalTime_update h hother
  rw [hsum, timeLeft_of_some (setCurrent_self s p)]

/-- The time with which `schedule` is called. -/
theorem Good.calls_time (h : Good s) (hcall : s.calls e = some (t, jiffies)) :
    totalTime t ≤ totalTime s.task ∧ ∀ j, e = .tick true j →
      2 * totalTime t < 2 * totalTime s.task + if timeLeft s.task s.current = 0 then 1 else 0 := by
  cases e with
  | tick user k =>
    obtain ⟨p, hp, hs⟩ := Option.bind_eq_some_iff.mp hcall
    split_ifs at hs
    cases hs
    have hsum := totalTime_setCurrent h.current_le { p with counter := 0 }
    rw [Int32.toInt_zero, Int.toNat_zero] at hsum
    refine ⟨by omega, fun j _ => ?_⟩
    split_ifs <;> omega
  | schedule k =>
    cases hcall
    exact ⟨le_rfl, fun _ hc => nomatch hc⟩
  | nice | fork | set => cases hcall

theorem waiting_lt_of_lt (hfree : freeSlots s'.task = freeSlots s.task)
    (htime : timeLeft s.task i = 0 ∧ timeLeft s'.task i ≠ 0 ∨
      timeLeft s'.task i = timeLeft s.task i ∧
        2 * totalTime s'.task + (if timeLeft s'.task s'.current = 0 then 1 else 0) <
          2 * totalTime s.task + if timeLeft s.task s.current = 0 then 1 else 0) :
    waiting i s' < waiting i s := by
  refine Prod.Lex.toLex_lt_toLex.mpr (.inr ⟨hfree, Prod.Lex.toLex_lt_toLex.mpr ?_⟩)
  rcases htime with ⟨hzero, hpos⟩ | ⟨heq, hlt⟩
  · refine .inl ?_
    dsimp only
    rw [if_neg hpos, if_pos hzero]
    exact Nat.one_pos
  · refine .inr ⟨?_, hlt⟩
    dsimp only
    rw [heq]

theorem waiting_congr (hfree : freeSlots s'.task = freeSlots s.task)
    (htime : timeLeft s'.task i = timeLeft s.task i)
    (htotal : 2 * totalTime s'.task + (if timeLeft s'.task s'.current = 0 then 1 else 0) =
      2 * totalTime s.task + if timeLeft s.task s.current = 0 then 1 else 0) :
    waiting i s' = waiting i s := by
  rw [waiting, waiting, hfree, htime, htotal]

/-- As long as a running task is not selected, something is used up by each tick in user mode. -/
theorem waiting_step (h : Good s) (hno : NoOverflow s e) (hs : Step s e s')
    (hrun : s.task.Running i p) (hcur : s.current ≠ i) :
    waiting i s' ≤ waiting i s ∧ ∀ j, e = .tick true j → waiting i s' < waiting i s := by
  cases step_effect h hno hs with
  | @scheduled _ t t' jiffies next hcall hdec =>
    obtain ⟨ht, hnone, hother⟩ := h.calls hcall
    obtain ⟨hle, hlt⟩ := h.calls_time hcall
    have hi : t i = s.task i := hother i hcur.symm
    have hself : timeLeft t i = timeLeft s.task i := by rw [timeLeft, hi, timeLeft]
    obtain ⟨q, hq, -⟩ := running_wakeUp ⟨hrun.1, hi.trans hrun.2.1, hrun.2.2⟩ jiffies
    have hfree : freeSlots t' = freeSlots s.task := freeSlots_congr fun j =>
      (hdec.eq_none_iff j).trans (wakeUp_eq_none_iff.trans (hnone j))
    rcases hdec.time (ht.wakeUp jiffies).sound (hno t jiffies hcall) hq with
      ⟨-, hzero, hpos⟩ | ⟨rfl, hnext⟩
    · rw [timeLeft_wakeUp, hself] at hzero
      have hlt : waiting i ⟨t', next⟩ < waiting i s := waiting_lt_of_lt hfree (.inl ⟨hzero, hpos⟩)
      exact ⟨hlt.le, fun _ _ => hlt⟩
    · have htotal : totalTime (t.wakeUp jiffies) = totalTime t :=
        totalTime_congr (timeLeft_wakeUp t)
      have htime : timeLeft (t.wakeUp jiffies) i = timeLeft s.task i :=
        (timeLeft_wakeUp t i).trans hself
      have hflag : (if timeLeft (t.wakeUp jiffies) next = 0 then 1 else 0) = 0 := if_neg hnext
      refine ⟨?_, fun j he => ?_⟩
      · rcases Nat.lt_or_ge (2 * totalTime t)
          (2 * totalTime s.task + if timeLeft s.task s.current = 0 then 1 else 0) with hlt | hge
        · have hwait : waiting i ⟨t.wakeUp jiffies, next⟩ < waiting i s :=
            waiting_lt_of_lt hfree (.inr ⟨htime, by dsimp only; omega⟩)
          exact hwait.le
        · have hwait : waiting i ⟨t.wakeUp jiffies, next⟩ = waiting i s :=
            waiting_congr hfree htime (by dsimp only; omega)
          exact hwait.le
      · have hlt := hlt j he
        exact waiting_lt_of_lt hfree (.inr ⟨htime, by dsimp only; omega⟩)
  | @ticked user jiffies c q hq hc huser =>
    have hproper := (h.proper _ q hq).2
    have hother : ∀ j, j ≠ s.current →
        (s.setCurrent { q with counter := c }).task j = s.task j := fun j hj =>
      setCurrent_of_ne _ hj
    have hfree : freeSlots (s.setCurrent { q with counter := c }).task = freeSlots s.task := by
      refine freeSlots_congr fun j => ?_
      rcases eq_or_ne j s.current with rfl | hj
      · rw [setCurrent_self, hq]
        exact ⟨(nomatch ·), (nomatch ·)⟩
      · rw [hother j hj]
    have htime : timeLeft (s.setCurrent { q with counter := c }).task i = timeLeft s.task i := by
      rw [timeLeft, hother i hcur.symm, timeLeft]
    have hsum := totalTime_setCurrent h.current_le { q with counter := c }
    dsimp only at hsum
    have hbefore := timeLeft_of_some hq
    have hafter : timeLeft (s.setCurrent { q with counter := c }).task s.current = c.toInt.toNat :=
      timeLeft_of_some (setCurrent_self ..)
    have hcurrent : (s.setCurrent { q with counter := c }).current = s.current := rfl
    by_cases hpos : 0 < q.counter.toInt
    · have hlt : waiting i (s.setCurrent { q with counter := c }) < waiting i s := by
        refine waiting_lt_of_lt hfree (.inr ⟨htime, ?_⟩)
        rw [hcurrent]
        split_ifs <;> omega
      exact ⟨hlt.le, fun _ _ => hlt⟩
    · have hwait : waiting i (s.setCurrent { q with counter := c }) = waiting i s := by
        refine waiting_congr hfree htime ?_
        rw [hcurrent]
        split_ifs <;> omega
      refine ⟨hwait.le, fun j he => ?_⟩
      cases he
      have := huser rfl
      omega
  | @forked nr q hnr hnone hproper =>
    have hlt : waiting i ⟨Function.update s.task nr (some q), s.current⟩ < waiting i s :=
      Prod.Lex.toLex_lt_toLex.mpr (.inl (freeSlots_update hnr hnone q))
    exact ⟨hlt.le, fun _ _ => hlt⟩
  | @other _ t huser hproper hcounter =>
    have htime (j : ℕ) : timeLeft t j = timeLeft s.task j := timeLeft_congr (hcounter j)
    have hfree : freeSlots t = freeSlots s.task := freeSlots_congr fun j => by
      rw [← Option.map_eq_none_iff (f := Task.counter), hcounter j, Option.map_eq_none_iff]
    have hwait : waiting i ⟨t, s.current⟩ = waiting i s := by
      refine waiting_congr hfree (htime i) ?_
      dsimp only
      rw [totalTime_congr htime, htime]
    exact ⟨hwait.le, fun j he => absurd he (huser j)⟩

/-- The step of an event that calls `schedule` is that call. -/
theorem Step.call (hs : Step s e s') (hcall : s.calls e = some (t, jiffies)) :
    ∃ n, t.schedule n jiffies = some (s'.task, s'.current) := by
  obtain ⟨n, hs⟩ := hs
  cases e with
  | tick user j =>
    obtain ⟨p, hp, hcall⟩ := Option.bind_eq_some_iff.mp hcall
    split_ifs at hcall with hif
    obtain ⟨q, hq, hs⟩ := Option.bind_eq_some_iff.mp hs
    obtain rfl := Option.some.inj (hp.symm.trans hq)
    rw [if_neg hif.2] at hs
    dsimp only at hs
    rw [if_pos hif.1] at hs
    obtain ⟨r, hr, rfl⟩ := Option.map_eq_some_iff.mp hs
    cases hcall
    exact ⟨n, hr⟩
  | schedule j =>
    obtain ⟨r, hr, rfl⟩ := Option.map_eq_some_iff.mp hs
    cases hcall
    exact ⟨n, hr⟩
  | nice | fork | set => cases hcall

/-- The table is proper after a step exactly when no counter has overflowed. -/
theorem Good.proper_iff (h : Good s) (hs : Step s e s') : Proper s'.task ↔ NoOverflow s e := by
  refine ⟨fun hproper t jiffies hcall hused => ?_, fun hno => (h.step hno hs).proper⟩
  have ht := (h.calls hcall).1.wakeUp jiffies
  obtain ⟨n, hr⟩ := hs.call hcall
  intro i p hi hp
  by_contra hfit
  have hrec : s'.task i = some p.recompute := by
    rw [show s'.task = _ from select_of_not_fits ht hused hr, Table.recompute_apply, if_pos hi, hp]
    rfl
  have hneg := recompute_overflow (ht i p hp) hfit
  have hnonneg := (hproper i _ hrec).2
  omega

/-! ### Runs -/

/-- In a well-founded order there is no infinite sequence that falls again and again. -/
theorem not_forall_exists_lt {α : Type*} [PartialOrder α] [WellFoundedLT α] {f : ℕ → α}
    (hle : ∀ n, f (n + 1) ≤ f n) : ¬ ∀ n, ∃ m ≥ n, f (m + 1) < f m := by
  intro hlt
  obtain ⟨n, hn⟩ := WellFoundedLT.antitone_chain_condition (antitone_nat_of_succ_le hle)
  obtain ⟨m, hm, hdrop⟩ := hlt n
  rw [← hn m hm, ← hn (m + 1) (Nat.le_succ_of_le hm)] at hdrop
  exact lt_irrefl _ hdrop

/-- `schedule` prefers a running task to the idle task, and selects one with the most time. -/
theorem Good.preferred (h : Good s) (hno : NoOverflow s e) (hs : Step s e s')
    (hcall : s.calls e = some (t, jiffies)) (hp : (t.wakeUp jiffies).Running i p) :
    s'.current ≠ 0 ∧ ∃ q, s'.task.Running s'.current q ∧ 0 < q.counter.toInt ∧
      ∀ j r, s'.task.Running j r → r.counter.toInt ≤ q.counter.toInt := by
  have ht := (h.calls hcall).1
  obtain ⟨n, hr⟩ := hs.call hcall
  have hdec := schedule_decided ht (hno t jiffies hcall) hr
  have hnext : s'.current ≠ 0 := fun hzero => hdec.idle_iff.mp hzero i p hp
  obtain ⟨q, hq, hall⟩ := hdec.best hnext
  refine ⟨hnext, q, hq, ?_, fun j r hr => (hall j r hr).1⟩
  rcases hdec.time (ht.wakeUp jiffies).sound (hno t jiffies hcall) hp with
    ⟨hused, -, hpos⟩ | ⟨heq, hpos⟩
  · -- The task in slot `i` has got time.
    have hrun : s'.task.Running i p.recompute := by
      rw [show s'.task = _ from hdec.eq_recompute hused]
      exact Table.running_recompute.mpr ⟨p, hp, rfl⟩
    have hle := (hall i _ hrun).1
    rw [timeLeft_of_some hrun.2.1] at hpos
    omega
  · rw [← heq, timeLeft_of_some hq.2.1] at hpos
    omega

/-- A running task is selected after finitely many ticks in user mode. -/
theorem selected {σ : ℕ → State} {ev : ℕ → Event} (h₀ : Good (σ 0))
    (hstep : ∀ n, Step (σ n) (ev n) (σ (n + 1)) ∧ NoOverflow (σ n) (ev n))
    (hticks : ∀ n, ∃ m ≥ n, ∃ jiffies, ev m = .tick true jiffies)
    (hrun : ∀ n, ∃ p, (σ n).task.Running i p) : ∃ m, (σ m).current = i := by
  by_contra hnever
  have hgood : ∀ n, Good (σ n) := by
    intro n
    induction n with
    | zero => exact h₀
    | succ n ih => exact ih.step (hstep n).2 (hstep n).1
  have hwait (n : ℕ) : waiting i (σ (n + 1)) ≤ waiting i (σ n) ∧
      ∀ j, ev n = .tick true j → waiting i (σ (n + 1)) < waiting i (σ n) := by
    obtain ⟨p, hp⟩ := hrun n
    exact waiting_step (hgood n) (hstep n).2 (hstep n).1 hp fun hc => hnever ⟨n, hc⟩
  refine not_forall_exists_lt (f := fun n => waiting i (σ n)) (fun n => (hwait n).1) fun n => ?_
  obtain ⟨m, hm, j, hj⟩ := hticks n
  exact ⟨m, hm, (hwait m).2 j hj⟩

/-- The runs in which no counter overflows. -/
abbrev SafeStep (s : State) (e : Event) (s' : State) : Prop := Step s e s' ∧ NoOverflow s e

theorem Good.of_runs {es : List Event} (h : Runs SafeStep State.init es s) : Good s :=
  h.invariant (fun _ _ _ hs h => hs.step h.2 h.1) Good.init

/-- Time slices do not become negative as long as no counter overflows when `schedule` recomputes
them, and they do when one overflows. Until then `schedule` returns and prefers running tasks to the
idle task, and in a run that goes on for ever a task that stays running is selected again and
again. -/
theorem time_slices (es : List Event) (s : State) (σ : ℕ → State) (ev : ℕ → Event) :
    (Runs SafeStep State.init es s → Proper s.task ∧
      ∀ e, (NoOverflow s e → ∃ s', Step s e s') ∧
        ∀ s', Step s e s' → (Proper s'.task ↔ NoOverflow s e) ∧
          ∀ t jiffies, NoOverflow s e → s.calls e = some (t, jiffies) →
            (∃ i p, (t.wakeUp jiffies).Running i p) →
              s'.current ≠ 0 ∧ ∃ q, s'.task.Running s'.current q ∧ 0 < q.counter.toInt ∧
                ∀ j r, s'.task.Running j r → r.counter.toInt ≤ q.counter.toInt) ∧
      (σ 0 = State.init → (∀ n, SafeStep (σ n) (ev n) (σ (n + 1))) →
        (∀ n, ∃ m ≥ n, ∃ jiffies, ev m = .tick true jiffies) →
        ∀ i n, (∀ m ≥ n, ∃ p, (σ m).task.Running i p) → ∃ m ≥ n, (σ m).current = i) := by
  refine ⟨fun h => ?_, fun h₀ hstep hticks i n hrun => ?_⟩
  · have hgood := Good.of_runs h
    exact ⟨hgood.proper, fun e => ⟨hgood.total, fun s' hs => ⟨hgood.proper_iff hs,
      fun t jiffies hno hcall ⟨i, p, hp⟩ => hgood.preferred hno hs hcall hp⟩⟩⟩
  · have hgood : ∀ n, Good (σ n) := by
      intro n
      induction n with
      | zero => exact h₀ ▸ Good.init
      | succ n ih => exact ih.step (hstep n).2 (hstep n).1
    -- The rest of the run, from the time `n` on.
    have hticks' : ∀ m, ∃ k ≥ m, ∃ jiffies, ev (n + k) = .tick true jiffies := by
      intro m
      obtain ⟨k, hk, hj⟩ := hticks (n + m)
      refine ⟨k - n, by omega, ?_⟩
      rw [show n + (k - n) = k by omega]
      exact hj
    have hrun' : ∀ m, ∃ p, (σ (n + m)).task.Running i p := fun m =>
      hrun (n + m) (Nat.le_add_right n m)
    obtain ⟨m, hm⟩ := selected (hgood n) (fun m => hstep (n + m)) hticks' hrun'
    exact ⟨n + m, Nat.le_add_right n m, hm⟩

/-- The idle task and one other task, both of priority 1. -/
def pair (c : Int32) : Table
  | 0 => some ⟨.running, 15, 1, 0, 0⟩
  | 1 => some ⟨.running, c, 1, 0, 0⟩
  | _ + 2 => none

/-- `schedule` selects the other task, with a new time slice if it needs one. -/
theorem schedule_pair {c : Int32} (hc : c = 0 ∨ c = 1) :
    (pair c).schedule 2 0 = some (pair 1, 1) ∧ ((pair c).wakeUp 0).Fits := by
  have hwake : (pair c).wakeUp 0 = pair c := by
    funext i
    rw [Table.wakeUp_apply]
    match i with
    | 0 | 1 | _ + 2 => exact ite_self _
  have hrecompute : (pair 0).recompute = pair 1 := by
    funext i
    rw [Table.recompute_apply]
    match i with
    | 0 | 1 => rfl
    | _ + 2 => exact ite_self _
  have hone : (pair 1).scan 63 (-1) 0 = (1, 1) := by decide +kernel
  have hzero : (pair 0).scan 63 (-1) 0 = (0, 1) := by decide +kernel
  rw [Table.schedule, hwake, Table.select_succ]
  refine ⟨?_, fun i p _ hp => ?_⟩
  · rcases hc with rfl | rfl
    · rw [hzero, if_neg (by decide), Table.select_succ, hrecompute, hone]
      rfl
    · rw [hone]
      rfl
  · match i with
    | 0 =>
      cases hp
      decide
    | 1 =>
      cases hp
      rcases hc with rfl | rfl <;> decide
    | i + 2 => cases hp

/-- Task 0 has made itself less important. -/
def unimportant : State := State.init.setCurrent ⟨.running, 15, 1, 0, 0⟩

theorem next_unimportant : unimportant.next 0 .fork = some ⟨pair 1, 0⟩ := by
  have hfree : unimportant.findEmptyProcess = some 1 := by decide +kernel
  have htask : unimportant.task unimportant.current = some ⟨.running, 15, 1, 0, 0⟩ := rfl
  rw [State.next, State.fork, htask, Option.map_some, hfree]
  refine congrArg some (congrArg (State.mk · 0) (funext fun i => ?_))
  match i with
  | 0 | 1 => rfl
  | i + 2 =>
    have hne : i + 2 ≠ 0 := by omega
    have hone : i + 2 ≠ 1 := by omega
    have hinit : State.init.task (i + 2) = none := by simp [State.init]
    exact (Function.update_of_ne hone _ unimportant.task).trans
      ((setCurrent_of_ne _ hne).trans hinit)

theorem next_pair : (State.mk (pair 1) 1).next 2 (.tick true 0) = some ⟨pair 1, 1⟩ ∧
    NoOverflow ⟨pair 1, 1⟩ (.tick true 0) := by
  have hused : ((State.mk (pair 1) 1).setCurrent ⟨.running, 0, 1, 0, 0⟩).task = pair 0 := by
    funext i
    match i with
    | 0 | 1 => rfl
    | i + 2 =>
      have hone : i + 2 ≠ 1 := by omega
      exact setCurrent_of_ne _ hone
  have htask : (State.mk (pair 1) 1).task (State.mk (pair 1) 1).current =
      some ⟨.running, 1, 1, 0, 0⟩ := rfl
  constructor
  · rw [State.next, State.doTimer, htask, Option.bind_some, if_neg (by decide)]
    dsimp only
    rw [if_pos rfl, State.schedule, hused, (schedule_pair (.inl rfl)).1]
    rfl
  · intro t jiffies hcall _
    rw [State.calls, htask, Option.bind_some, if_pos (by decide), hused] at hcall
    cases hcall
    exact (schedule_pair (.inl rfl)).2

/-- Task 0 makes itself less important and forks, and then its child runs for ever. -/
def childRun : ℕ → State × Event
  | 0 => (State.init, .nice 14)
  | 1 => (unimportant, .fork)
  | 2 => (⟨pair 1, 0⟩, .schedule 0)
  | _ + 3 => (⟨pair 1, 1⟩, .tick true 0)

theorem childRun_step (n : ℕ) :
    SafeStep (childRun n).1 (childRun n).2 (childRun (n + 1)).1 := by
  match n with
  | 0 => exact ⟨⟨0, rfl⟩, fun _ _ hcall => by cases hcall⟩
  | 1 => exact ⟨⟨0, next_unimportant⟩, fun _ _ hcall => by cases hcall⟩
  | 2 =>
    obtain ⟨hrun, hfits⟩ := schedule_pair (c := 1) (.inr rfl)
    have hnext : (State.mk (pair 1) 0).schedule 2 0 = some ⟨pair 1, 1⟩ :=
      Option.map_eq_some_iff.mpr ⟨(pair 1, 1), hrun, rfl⟩
    refine ⟨⟨2, hnext⟩, fun _ _ hcall _ => ?_⟩
    cases hcall
    exact hfits
  | _ + 3 => exact ⟨⟨2, next_pair.1⟩, next_pair.2⟩

theorem time_slices_child : Proper (childRun 3).1.task ∧ ∃ m ≥ 4, (childRun m).1.current = 1 := by
  have hslices := time_slices [.schedule 0, .fork, .nice 14] (childRun 3).1
    (fun n => (childRun n).1) fun n => (childRun n).2
  have hrun : Runs SafeStep State.init [.schedule 0, .fork, .nice 14] (childRun 3).1 :=
    .cons (.cons (.cons .nil (childRun_step 0)) (childRun_step 1)) (childRun_step 2)
  refine ⟨(hslices.1 hrun).1, hslices.2 rfl childRun_step (fun n => ?_) 1 4 fun m hm => ?_⟩
  · exact ⟨n + 3, by omega, 0, rfl⟩
  · obtain ⟨k, rfl⟩ := Nat.exists_eq_add_of_le hm
    rw [show 4 + k = (k + 1) + 3 by omega]
    exact ⟨_, ⟨by decide, by decide⟩, rfl, rfl⟩

/-- Task 1 makes itself as important as possible and goes to sleep. When task 2 has used up its time
slice, task 1 gets more than a `long` holds. -/
def raise : List Event :=
  [.fork, .schedule 0, .nice 14, .fork, .nice (-2147483646), .set 1 .uninterruptible 0 0,
    .schedule 0, .tick true 0, .set 1 .running 0 0, .set 2 .uninterruptible 0 0, .schedule 0]

/-- Then it is running, but the idle task is selected. -/
theorem exec_raise : (exec (fun s e => s.next 2 e) State.init raise).map
      (fun s => (s.current, s.task 1)) =
    some (0, some ⟨.running, -2147483642, 2147483647, 0, 0⟩) := by
  decide +kernel

theorem not_time_slices : ¬ ∀ es s, Runs Step State.init es s →
    ∀ i p, s.task i = some p → 1 ≤ p.priority.toInt ∧ 0 ≤ p.counter.toInt := by
  intro hall
  obtain ⟨s, hs, htask⟩ := Option.map_eq_some_iff.mp exec_raise
  have hruns : Runs Step State.init raise.reverse s :=
    (runs_of_exec hs).mono fun _ _ _ hnext => ⟨2, hnext⟩
  have hcounter := (hall _ s hruns 1 _ (congrArg Prod.snd htask)).2
  exact absurd hcounter (by decide)

end Linux001.Sched.Slices
