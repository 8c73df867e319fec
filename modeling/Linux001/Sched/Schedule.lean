import Linux001.Lib.Sizes
import Mathlib.Algebra.Order.Group.Int
import Mathlib.Algebra.Order.Ring.Nat
import Mathlib.Logic.Function.Basic
import Mathlib.Tactic.Basic
import Mathlib.Tactic.Cases
import Mathlib.Tactic.SplitIfs

/-!
# The scheduler

The model of `schedule` of `kernel/sched.c`. A `long` is a signed number of 32 bits. The table
`task` has the slots 0 to 63; slot 0 is the idle task, which no loop of `schedule` looks at.

## Main definitions

* `Task`, `Table`: the fields of a task that the scheduler uses, and the table `task`.
* `Table.wakeUp`, `Table.scan`, `Table.recompute`: the loops of `schedule`.
* `Table.schedule`: the table that `schedule` leaves and the slot to which it switches.
* `Decision`: what `schedule` decides.

## Main results

* `schedule_decision`: `schedule` recomputes the counters at most once and decides so.
-/

namespace Linux001.Sched

/-- The values of `state`. -/
inductive TaskState
  | running
  | interruptible
  | uninterruptible
  | zombie
  | stopped
  deriving DecidableEq

/-- The fields of `struct task_struct` that the scheduler uses. -/
structure Task where
  state : TaskState
  counter : Int32
  priority : Int32
  signal : UInt32
  alarm : Int32
  deriving DecidableEq

/-- `task[NR_TASKS]`, with its slots 0 to 63. -/
abbrev Table := ℕ → Option Task

/-- The first loop of `schedule`, for one task: an alarm that has expired sends `SIGALRM`, and a
signal wakes up. -/
def Task.wakeUp (jiffies : Int32) (p : Task) : Task :=
  let p := if p.alarm ≠ 0 ∧ p.alarm < jiffies then
      { p with signal := p.signal ||| (1 : UInt32) <<< (14 - 1), alarm := 0 }
    else p
  if p.signal ≠ 0 ∧ p.state = .interruptible then { p with state := .running } else p

/-- `(*p)->counter = ((*p)->counter >> 1) + (*p)->priority`. -/
def Task.recompute (p : Task) : Task := { p with counter := (p.counter >>> 1) + p.priority }

namespace Table

/-- A loop of `schedule` over the slots `n` to 1, in this order. -/
def forTasks (f : Task → Task) : ℕ → Table → Table
  | 0, t => t
  | i + 1, t => forTasks f i (Function.update t (i + 1) ((t (i + 1)).map f))

/-- The loop that checks alarms and signals. -/
def wakeUp (jiffies : Int32) (t : Table) : Table := t.forTasks (Task.wakeUp jiffies) 63

/-- The loop that recomputes the counters. -/
def recompute (t : Table) : Table := t.forTasks Task.recompute 63

/-- The loop that selects a task, over the slots `n` to 1, with the values of `c` and `next`. -/
def scan (t : Table) : ℕ → Int32 → ℕ → Int32 × ℕ
  | 0, c, next => (c, next)
  | i + 1, c, next =>
    match t (i + 1) with
    | none => t.scan i c next
    | some p =>
      if p.state = .running ∧ p.counter > c then t.scan i p.counter (i + 1) else t.scan i c next

/-- The loop `while (1)`, for a given number of turns: the table it leaves, and `next`. -/
def select : ℕ → Table → Option (Table × ℕ)
  | 0, _ => none
  | n + 1, t =>
    let (c, next) := t.scan 63 (-1) 0
    if c ≠ 0 then some (t, next) else select n t.recompute

/-- `schedule()`, up to `switch_to(next)`, when its loop ends within `n` turns. -/
def schedule (n : ℕ) (jiffies : Int32) (t : Table) : Option (Table × ℕ) :=
  select n (t.wakeUp jiffies)

/-! ### What `schedule` decides -/

/-- A slot that the loops of `schedule` look at. -/
def Slot (i : ℕ) : Prop := 1 ≤ i ∧ i ≤ 63

instance : DecidablePred Slot := fun i => inferInstanceAs (Decidable (1 ≤ i ∧ i ≤ 63))

/-- There is a running task in the slot. -/
def Running (t : Table) (i : ℕ) (p : Task) : Prop := Slot i ∧ t i = some p ∧ p.state = .running

/-- All running tasks have used up their time slices. -/
def UsedUp (t : Table) : Prop :=
  (∃ i p, t.Running i p) ∧ ∀ i p, t.Running i p → p.counter = 0

/-- The counters are not negative and the priorities are positive. -/
def Sound (t : Table) : Prop :=
  ∀ i p, Slot i → t i = some p → 0 ≤ p.counter.toInt ∧ 1 ≤ p.priority.toInt

/-- The counters can be recomputed without an overflow. -/
def Fits (t : Table) : Prop :=
  ∀ i p, Slot i → t i = some p → p.counter.toInt / 2 + p.priority.toInt < 2 ^ 31

/-- The table `t`, which the first loop has left, is turned into `t'`, and the slot `next` is
switched to. -/
structure Decision (t t' : Table) (next : ℕ) : Prop where
  idle_iff : next = 0 ↔ ∀ i p, ¬ t.Running i p
  best : next ≠ 0 → ∃ p, t'.Running next p ∧ ∀ i q, t'.Running i q →
    q.counter.toInt ≤ p.counter.toInt ∧ (q.counter = p.counter → i ≤ next)
  recomputed : t.UsedUp → ∀ i, t' i = if Slot i then (t i).map fun p =>
    { p with counter := Int32.ofInt (p.counter.toInt / 2 + p.priority.toInt) } else t i
  kept : ¬ t.UsedUp → t' = t

/-! ### The loops -/

variable {t : Table} {i n next : ℕ} {c : Int32}

theorem forTasks_apply (f : Task → Task) (n : ℕ) (t : Table) (i : ℕ) :
    t.forTasks f n i = if 1 ≤ i ∧ i ≤ n then (t i).map f else t i := by
  induction n generalizing t with
  | zero => rw [forTasks, if_neg (by omega)]
  | succ n ih =>
    rw [forTasks, ih]
    rcases eq_or_ne i (n + 1) with rfl | hne
    · rw [if_neg (by omega), if_pos (by omega), Function.update_self]
    · rw [Function.update_of_ne hne]
      split_ifs <;> first | rfl | omega

theorem wakeUp_apply (jiffies : Int32) (t : Table) (i : ℕ) :
    t.wakeUp jiffies i = if Slot i then (t i).map (Task.wakeUp jiffies) else t i :=
  forTasks_apply _ _ _ _

theorem recompute_apply (t : Table) (i : ℕ) :
    t.recompute i = if Slot i then (t i).map Task.recompute else t i :=
  forTasks_apply _ _ _ _

/-- The values of `c` and `next` are those of the best running task in the slots above `n`, if there
is one with a counter that is not negative. -/
structure Best (t : Table) (n : ℕ) (c : Int32) (next : ℕ) : Prop where
  found : (c = -1 ∧ next = 0) ∨ ∃ p, t.Running next p ∧ n < next ∧ p.counter = c
  le : ∀ i p, t.Running i p → n < i → p.counter.toInt ≤ c.toInt
  slot_le : next ≠ 0 → ∀ i p, t.Running i p → n < i → p.counter = c → i ≤ next

/-- One turn of the scan. -/
theorem Best.step (h : Best t (i + 1) c next) :
    (∃ p, t.Running (i + 1) p ∧ p.counter > c ∧ Best t i p.counter (i + 1)) ∨
      (∀ p, t.Running (i + 1) p → ¬ p.counter > c) ∧ Best t i c next := by
  by_cases hbetter : ∃ p, t.Running (i + 1) p ∧ p.counter > c
  · obtain ⟨p, hp, hlt⟩ := hbetter
    have hlt' := Int32.lt_iff_toInt_lt.mp hlt
    refine .inl ⟨p, hp, hlt, .inr ⟨p, hp, Nat.lt_succ_self i, rfl⟩, fun j q hq hj => ?_,
      fun _ j q hq hj heq => ?_⟩
    · rcases eq_or_ne j (i + 1) with rfl | hne
      · obtain rfl := Option.some.inj (hp.2.1.symm.trans hq.2.1)
        exact le_rfl
      · exact ((h.le j q hq (by omega)).trans_lt hlt').le
    · -- The tasks in the slots above have smaller counters.
      by_contra hgt
      have hle := h.le j q hq (by omega)
      rw [heq] at hle
      omega
  · have hnot : ∀ p, t.Running (i + 1) p → ¬ p.counter > c := fun p hp hgt => hbetter ⟨p, hp, hgt⟩
    refine .inr ⟨hnot, h.found.imp_right fun ⟨p, hp, hgt, hc⟩ => ⟨p, hp, by omega, hc⟩,
      fun j q hq hj => ?_, fun hnext j q hq hj heq => ?_⟩
    · rcases eq_or_ne j (i + 1) with rfl | hne
      · have := hnot q hq
        rw [gt_iff_lt, Int32.lt_iff_toInt_lt] at this
        omega
      · exact h.le j q hq (by omega)
    · rcases eq_or_ne j (i + 1) with rfl | hne
      · obtain ⟨-, hzero⟩ | ⟨p, -, hgt, -⟩ := h.found
        · exact absurd hzero hnext
        · exact hgt.le
      · exact h.slot_le hnext j q hq (by omega) heq

/-- The scan finds the best running task. -/
theorem scan_best (h : Best t n c next) (hn : n ≤ 63) :
    Best t 0 (t.scan n c next).1 (t.scan n c next).2 := by
  induction n generalizing c next with
  | zero => exact h
  | succ n ih =>
    rw [scan]
    rcases h.step with ⟨p, hp, hlt, hbest⟩ | ⟨hnot, hbest⟩
    · rw [hp.2.1]
      dsimp only
      rw [if_pos ⟨hp.2.2, hlt⟩]
      exact ih hbest (by omega)
    · cases hi : t (n + 1) with
      | none => exact ih hbest (by omega)
      | some p =>
        dsimp only
        rw [if_neg fun hc => hnot p ⟨⟨by omega, hn⟩, hi, hc.1⟩ hc.2]
        exact ih hbest (by omega)

theorem scan_all (t : Table) : Best t 0 (t.scan 63 (-1) 0).1 (t.scan 63 (-1) 0).2 :=
  scan_best ⟨.inl ⟨rfl, rfl⟩, fun i p hp hi => absurd hp.1.2 (by omega),
    fun h => absurd rfl h⟩ le_rfl

/-! ### `schedule` -/

/-- `(*p)->counter >> 1` halves the counter. -/
theorem toInt_half (a : Int32) : (a >>> 1).toInt = a.toInt / 2 := by
  have h : (a >>> 1).toBitVec = a.toBitVec.sshiftRight 1 := rfl
  rw [← Int32.toInt_toBitVec, h, BitVec.toInt_sshiftRight, Int.shiftRight_eq_div_pow]
  rfl

theorem recompute_counter (p : Task) :
    p.recompute.counter = Int32.ofInt (p.counter.toInt / 2 + p.priority.toInt) := by
  rw [← Int32.toInt_inj, Int32.toInt_ofInt, Task.recompute, Int32.toInt_add, toInt_half]

/-- The counter is recomputed without an overflow. -/
theorem recompute_toInt (h : t.Sound) (hfit : t.Fits) {p : Task} (hi : Slot i) (hp : t i = some p) :
    p.recompute.counter.toInt = p.counter.toInt / 2 + p.priority.toInt := by
  have hsound := h i p hi hp
  have hlt := hfit i p hi hp
  rw [Task.recompute, Int32.toInt_add, toInt_half]
  exact Int.bmod_eq_of_le (by omega) (by omega)

/-- A running task after the counters have been recomputed. -/
theorem running_recompute {q : Task} :
    t.recompute.Running i q ↔ ∃ p, t.Running i p ∧ q = p.recompute := by
  constructor
  · rintro ⟨hi, hq, hrun⟩
    rw [recompute_apply, if_pos hi] at hq
    obtain ⟨p, hp, rfl⟩ := Option.map_eq_some_iff.mp hq
    exact ⟨p, ⟨hi, hp, hrun⟩, rfl⟩
  · rintro ⟨p, ⟨hi, hp, hrun⟩, rfl⟩
    refine ⟨hi, ?_, hrun⟩
    rw [recompute_apply, if_pos hi, hp]
    rfl

/-- What the values of `c` and `next` say about the running tasks. -/
theorem Best.next_eq_zero_iff (h : Best t 0 c next) (hsound : t.Sound) :
    next = 0 ↔ ∀ i p, ¬ t.Running i p := by
  constructor
  · rintro rfl i p hp
    obtain ⟨rfl, -⟩ | ⟨q, hq, hlt, -⟩ := h.found
    · have hle := h.le i p hp hp.1.1
      have hnonneg := (hsound i p hp.1 hp.2.1).1
      have hminus : (-1 : Int32).toInt = -1 := rfl
      omega
    · omega
  · intro hnone
    obtain ⟨-, hzero⟩ | ⟨q, hq, -⟩ := h.found
    · exact hzero
    · exact absurd hq (hnone next q)

theorem Best.best (h : Best t 0 c next) (hnext : next ≠ 0) :
    ∃ p, t.Running next p ∧ p.counter = c ∧ ∀ i q, t.Running i q →
      q.counter.toInt ≤ p.counter.toInt ∧ (q.counter = p.counter → i ≤ next) := by
  obtain ⟨-, hzero⟩ | ⟨p, hp, -, rfl⟩ := h.found
  · exact absurd hzero hnext
  · exact ⟨p, hp, rfl, fun i q hq => ⟨h.le i q hq hq.1.1, h.slot_le hnext i q hq hq.1.1⟩⟩

/-- The loop goes on exactly when all running tasks have used up their time slices. -/
theorem Best.eq_zero_iff (h : Best t 0 c next) (hsound : t.Sound) : c = 0 ↔ t.UsedUp := by
  constructor
  · rintro rfl
    obtain ⟨hc, -⟩ | ⟨p, hp, -⟩ := h.found
    · exact absurd hc (by decide)
    · refine ⟨⟨next, p, hp⟩, fun i q hq => Int32.toInt_inj.mp ?_⟩
      have hle := h.le i q hq hq.1.1
      have hnonneg := (hsound i q hq.1 hq.2.1).1
      rw [Int32.toInt_zero] at hle ⊢
      omega
  · rintro ⟨⟨i, p, hp⟩, hall⟩
    have hnext : next ≠ 0 := fun hzero => (h.next_eq_zero_iff hsound).mp hzero i p hp
    obtain ⟨q, hq, rfl, -⟩ := h.best hnext
    exact hall next q hq

/-- The counters are not negative after they have been recomputed, and a running task has time. -/
theorem Sound.recompute (h : t.Sound) (hfit : t.Fits) : t.recompute.Sound := by
  intro i q hi hq
  rw [recompute_apply, if_pos hi] at hq
  obtain ⟨p, hp, rfl⟩ := Option.map_eq_some_iff.mp hq
  have hsound := h i p hi hp
  rw [recompute_toInt h hfit hi hp]
  exact ⟨by omega, hsound.2⟩

theorem not_usedUp_recompute (h : t.Sound) (hfit : t.Fits) : ¬ t.recompute.UsedUp := by
  rintro ⟨⟨i, q, hq⟩, hall⟩
  have hzero := hall i q hq
  obtain ⟨p, hp, rfl⟩ := running_recompute.mp hq
  have hsound := h i p hp.1 hp.2.1
  have hcounter := recompute_toInt h hfit hp.1 hp.2.1
  rw [hzero, Int32.toInt_zero] at hcounter
  omega

theorem select_succ (n : ℕ) (t : Table) :
    select (n + 1) t =
      if (t.scan 63 (-1) 0).1 ≠ 0 then some (t, (t.scan 63 (-1) 0).2) else select n t.recompute :=
  rfl

theorem select_of_not_usedUp (h : t.Sound) (hused : ¬ t.UsedUp) (n : ℕ) :
    select (n + 1) t = some (t, (t.scan 63 (-1) 0).2) := by
  rw [select_succ, if_pos fun hc => hused (((scan_all t).eq_zero_iff h).mp hc)]

theorem select_of_usedUp (h : t.Sound) (hused : t.UsedUp) (n : ℕ) :
    select (n + 1) t = select n t.recompute := by
  rw [select_succ, if_neg (not_not.mpr (((scan_all t).eq_zero_iff h).mpr hused))]

/-- More turns do not change how the loop ends. -/
theorem select_add {r : Table × ℕ} (h : select n t = some r) (k : ℕ) :
    select (n + k) t = some r := by
  induction n generalizing t with
  | zero => cases h
  | succ n ih =>
    rw [Nat.add_right_comm, select_succ]
    rw [select_succ] at h
    split_ifs at h ⊢
    · exact h
    · exact ih h

/-- The loop ends after the counters have been recomputed at most once. -/
theorem select_decision (h : t.Sound) (hfit : t.UsedUp → t.Fits) :
    ∃ t' next, (∀ n, select (n + 2) t = some (t', next)) ∧
      (select 1 t = some (t', next) ↔ ¬ t.UsedUp) ∧ Decision t t' next := by
  by_cases hused : t.UsedUp
  · have hsound := h.recompute (hfit hused)
    have hnot := not_usedUp_recompute h (hfit hused)
    have hbest := scan_all t.recompute
    refine ⟨t.recompute, (t.recompute.scan 63 (-1) 0).2, fun n => ?_,
      ⟨fun hone => ?_, fun hc => ?_⟩,
      ⟨?_, fun hnext => ?_, fun _ i => ?_, fun hc => absurd hused hc⟩⟩
    · rw [select_of_usedUp h hused, select_of_not_usedUp hsound hnot]
    · rw [select_of_usedUp h hused] at hone
      cases hone
    · exact absurd hused hc
    · rw [hbest.next_eq_zero_iff hsound]
      constructor
      · exact fun hnone i p hp => hnone i _ (running_recompute.mpr ⟨p, hp, rfl⟩)
      · intro hnone i q hq
        obtain ⟨p, hp, -⟩ := running_recompute.mp hq
        exact hnone i p hp
    · obtain ⟨p, hp, -, hall⟩ := hbest.best hnext
      exact ⟨p, hp, hall⟩
    · rw [recompute_apply]
      congr 2
      funext p
      rw [← recompute_counter]
      rfl
  · have hbest := scan_all t
    refine ⟨t, (t.scan 63 (-1) 0).2, fun n => select_of_not_usedUp h hused (n + 1),
      ⟨fun _ => hused, fun _ => select_of_not_usedUp h hused 0⟩,
      ⟨hbest.next_eq_zero_iff h, fun hnext => ?_, fun hc => absurd hc hused, fun _ => rfl⟩⟩
    obtain ⟨p, hp, -, hall⟩ := hbest.best hnext
    exact ⟨p, hp, hall⟩

end Table

/-! ### Alarms and signals -/

/-- The alarm of the task has expired. -/
def Task.Expired (jiffies : Int32) (p : Task) : Prop := p.alarm ≠ 0 ∧ p.alarm < jiffies

instance (jiffies : Int32) (p : Task) : Decidable (p.Expired jiffies) :=
  inferInstanceAs (Decidable (_ ∧ _))

/-- The first loop wakes up the tasks with an expired alarm or a signal that sleep interruptibly. -/
theorem Task.wakeUp_state (jiffies : Int32) (p : Task) :
    (p.wakeUp jiffies).state =
      if (p.Expired jiffies ∨ p.signal ≠ 0) ∧ p.state = .interruptible then .running
      else p.state := by
  have hsig : p.signal ||| (1 : UInt32) <<< (14 - 1) ≠ 0 := by
    intro hzero
    have hbit := congrArg (fun x : UInt32 => x.toBitVec.getLsbD 13) hzero
    simp at hbit
  unfold wakeUp
  by_cases hexp : p.alarm ≠ 0 ∧ p.alarm < jiffies
  · rw [if_pos hexp]
    dsimp only
    by_cases hstate : p.state = .interruptible
    · rw [if_pos ⟨hsig, hstate⟩, if_pos ⟨.inl hexp, hstate⟩]
    · rw [if_neg fun hc => hstate hc.2, if_neg fun hc => hstate hc.2]
  · rw [if_neg hexp]
    dsimp only
    by_cases hwake : p.signal ≠ 0 ∧ p.state = .interruptible
    · rw [if_pos hwake, if_pos ⟨.inr hwake.1, hwake.2⟩]
    · rw [if_neg hwake, if_neg fun hc => hwake ⟨hc.1.resolve_left hexp, hc.2⟩]

theorem Task.wakeUp_counter (jiffies : Int32) (p : Task) :
    (p.wakeUp jiffies).counter = p.counter ∧ (p.wakeUp jiffies).priority = p.priority := by
  unfold wakeUp
  dsimp only
  split_ifs <;> exact ⟨rfl, rfl⟩

namespace Table

/-- What the first loop leaves of the task in a slot. -/
structure Woken (jiffies : Int32) (i : ℕ) (p q : Task) : Prop where
  state : q.state =
    if Slot i ∧ (p.Expired jiffies ∨ p.signal ≠ 0) ∧ p.state = .interruptible then .running
    else p.state
  counter : q.counter = p.counter
  priority : q.priority = p.priority

theorem wakeUp_woken (jiffies : Int32) (t : Table) {p : Task} (hp : t i = some p) :
    ∃ q, t.wakeUp jiffies i = some q ∧ Woken jiffies i p q := by
  rw [wakeUp_apply, hp]
  by_cases hi : Slot i
  · rw [if_pos hi]
    refine ⟨_, rfl, ?_, (p.wakeUp_counter jiffies).1, (p.wakeUp_counter jiffies).2⟩
    simp only [p.wakeUp_state jiffies, hi, true_and]
  · rw [if_neg hi]
    refine ⟨p, rfl, ?_, rfl, rfl⟩
    rw [if_neg fun hc => hi hc.1]

/-- A task that the first loop leaves. -/
theorem wakeUp_eq_some {jiffies : Int32} {t : Table} {q : Task} (hq : t.wakeUp jiffies i = some q) :
    ∃ p, t i = some p ∧ q.counter = p.counter ∧ q.priority = p.priority := by
  rw [wakeUp_apply] at hq
  split_ifs at hq
  · obtain ⟨p, hp, rfl⟩ := Option.map_eq_some_iff.mp hq
    exact ⟨p, hp, p.wakeUp_counter jiffies⟩
  · exact ⟨q, hq, rfl, rfl⟩

theorem Sound.wakeUp {t : Table} (h : t.Sound) (jiffies : Int32) : (t.wakeUp jiffies).Sound := by
  intro i q hi hq
  obtain ⟨p, hp, hcounter, hpriority⟩ := wakeUp_eq_some hq
  rw [hcounter, hpriority]
  exact h i p hi hp

theorem Fits.wakeUp {t : Table} (h : t.Fits) (jiffies : Int32) : (t.wakeUp jiffies).Fits := by
  intro i q hi hq
  obtain ⟨p, hp, hcounter, hpriority⟩ := wakeUp_eq_some hq
  rw [hcounter, hpriority]
  exact h i p hi hp

/-- What `schedule` decides, for every table in which no recomputation overflows: the first loop
wakes up tasks in the slots 1 to 63, the second one ends after at most one recomputation, and then
the best running task is switched to, or the idle task if there is none. -/
theorem schedule_decision {t : Table} (h : t.Sound) (hfit : t.Fits) (jiffies : Int32) :
    (∀ i p, t i = some p → ∃ q, t.wakeUp jiffies i = some q ∧ Woken jiffies i p q) ∧
      ∃ t' next, (∀ n, t.schedule (n + 2) jiffies = some (t', next)) ∧
        (t.schedule 1 jiffies = some (t', next) ↔ ¬ (t.wakeUp jiffies).UsedUp) ∧
        Decision (t.wakeUp jiffies) t' next :=
  ⟨fun _ _ => wakeUp_woken jiffies t,
    select_decision (h.wakeUp jiffies) fun _ => hfit.wakeUp jiffies⟩

/-- Task 1 with an expired alarm, task 2 with its time slice used up, and a sleeping task 3. -/
def threeTasks : Table := fun i =>
  if i = 1 then some ⟨.interruptible, 0, 15, 0, 5⟩
  else if i = 2 then some ⟨.running, 0, 15, 0, 0⟩
  else if i = 3 then some ⟨.uninterruptible, 20, 15, 0, 0⟩
  else none

theorem schedule_decision_threeTasks : ∃ t' next,
    threeTasks.schedule 2 10 = some (t', next) ∧ Decision (threeTasks.wakeUp 10) t' next := by
  have hcases : ∀ {i p}, threeTasks i = some p → 0 ≤ p.counter.toInt ∧ 1 ≤ p.priority.toInt ∧
      p.counter.toInt / 2 + p.priority.toInt < 2 ^ 31 := by
    intro i p hp
    unfold threeTasks at hp
    split_ifs at hp <;> cases hp <;> decide
  obtain ⟨-, t', next, hrun, -, hdec⟩ := schedule_decision (t := threeTasks)
    (fun i p _ hp => ⟨(hcases hp).1, (hcases hp).2.1⟩) (fun i p _ hp => (hcases hp).2.2) 10
  exact ⟨t', next, hrun 0, hdec⟩

/-- Only the idle task, asleep with a signal. -/
def idleSignalled : Table := fun i => if i = 0 then some ⟨.interruptible, 15, 15, 1, 0⟩ else none

/-- The first loop does not look at the idle task. -/
theorem idle_not_woken : ¬ ∀ (t : Table) (jiffies : Int32), t.Sound → t.Fits →
    ∀ t' next, t.schedule 2 jiffies = some (t', next) → ∀ i p, i ≤ 63 → t i = some p →
      p.state = .interruptible → (p.Expired jiffies ∨ p.signal ≠ 0) →
      ∃ q, t' i = some q ∧ q.state = .running := by
  intro hall
  have hnone : ∀ i p, Slot i → idleSignalled i ≠ some p := by
    intro i p hi
    rw [idleSignalled, if_neg (by have := hi.1; omega)]
    exact (nomatch ·)
  have hsound : idleSignalled.Sound := fun i p hi hp => absurd hp (hnone i p hi)
  have hfit : idleSignalled.Fits := fun i p hi hp => absurd hp (hnone i p hi)
  obtain ⟨t', next, hrun, -, hdec⟩ := select_decision (hsound.wakeUp 0) fun _ => hfit.wakeUp 0
  obtain ⟨q, hq, hstate⟩ := hall idleSignalled 0 hsound hfit t' next (hrun 0) 0
    ⟨.interruptible, 15, 15, 1, 0⟩ (Nat.zero_le _) rfl rfl (.inr (by decide))
  have hused : ¬ (idleSignalled.wakeUp 0).UsedUp := by
    rintro ⟨⟨i, p, hi, hp, -⟩, -⟩
    obtain ⟨r, hr, -⟩ := wakeUp_eq_some hp
    exact hnone i r hi hr
  rw [hdec.kept hused, wakeUp_apply, if_neg (by decide)] at hq
  cases hq
  cases hstate

end Table

end Linux001.Sched
