import Linux001.Processes.Life
import Mathlib.Algebra.Order.BigOperators.Group.Finset

/-!
# Times of processes

Every clock interrupt is charged to the current process, to `utime` or to `stime`. `sys_waitpid`
adds these two of a child to `cutime` and `cstime` of the father, but not the times that the child
has got from its own children. The times of a process are a matter of what has happened since its
`fork`.

## Main definitions

* `timesOf`, `childTimesOf`: what the history says about the times of the process in a slot.
* `Charged`: the times are what the history says.
* `total`: the times of all processes together.

## Main results

* `times_exact`: the times of every process are those of its history, and together they are at most
  the number of clock interrupts.
-/

namespace Linux001.Processes

open Signals (Word)

variable {s s' s₁ : System} {p q q' : Task} {e : Event} {b cpl : Bool} {i j c : ℕ}
  {es : List (ℕ × Event)}

/-! ### Times in the history -/

/-- `utime` or `stime`. -/
def Task.time (q : Task) : Bool → Word
  | true => q.utime
  | false => q.stime

/-- `cutime` or `cstime`. -/
def Task.childTime (q : Task) : Bool → Word
  | true => q.cutime
  | false => q.cstime

/-- The event puts a child into the slot `i`. -/
def Event.forks (i : ℕ) : Event → Bool
  | .fork nr _ => i == nr
  | _ => false

/-- The clock interrupts in an event, from user mode or from the kernel. -/
def Event.ticks (cpl : Bool) : Event → ℕ
  | .tick cpl' => if cpl' = cpl then 1 else 0
  | _ => 0

/-- The clock interrupts from user mode, or from the kernel, while the process in the slot `i` was
the current one, since it has been there. -/
def timesOf (cpl : Bool) (i : ℕ) : List (ℕ × Event) → ℕ
  | [] => 0
  | (c, e) :: es => if e.forks i then 0 else timesOf cpl i es + if i = c then e.ticks cpl else 0

/-- The times of the child that `sys_waitpid` has found. -/
def Event.childTimes (cpl : Bool) (es : List (ℕ × Event)) : Event → ℕ
  | .reap j _ _ _ => timesOf cpl j es
  | _ => 0

/-- The times of the children that the process in the slot `i` has waited for. -/
def childTimesOf (cpl : Bool) (i : ℕ) : List (ℕ × Event) → ℕ
  | [] => 0
  | (c, e) :: es =>
    if e.forks i then 0 else childTimesOf cpl i es + if i = c then e.childTimes cpl es else 0

/-- The number of clock interrupts. -/
def clock (es : List (ℕ × Event)) : ℕ := (es.map fun e => e.2.ticks true + e.2.ticks false).sum

/-- The times of a process are what the history says. -/
def Charged (es : List (ℕ × Event)) (s : System) : Prop := ∀ i q, s.task i = some q → ∀ cpl,
  q.time cpl = BitVec.ofNat 32 (timesOf cpl i es) ∧
    q.childTime cpl = BitVec.ofNat 32 (childTimesOf cpl i es)

/-! ### Steps -/

theorem Task.Stirred.time (h : q.Stirred q') (cpl : Bool) : q'.time cpl = q.time cpl :=
  (congrArg (fun q => Task.time q cpl) h.same).trans (by cases cpl <;> rfl)

theorem Task.Stirred.childTime (h : q.Stirred q') (cpl : Bool) :
    q'.childTime cpl = q.childTime cpl :=
  (congrArg (fun q => Task.childTime q cpl) h.same).trans (by cases cpl <;> rfl)

/-- A clock interrupt is charged to the current process. -/
theorem effect_time (s : System) (p : Task) (i : ℕ) (q : Task) (e : Event) (cpl : Bool) :
    (effect s p i q e).time cpl =
      q.time cpl + if i = s.current then BitVec.ofNat 32 (e.ticks cpl) else 0 := by
  cases e with
  | tick cpl' =>
    by_cases hi : i = s.current <;> cases cpl <;> cases cpl' <;>
      simp [effect, hi, Task.doTimer, Task.time, Event.ticks]
  | fork | forkFails | vanish | setTtyPgrp => simp [effect, Event.ticks]
  | _ =>
    simp only [effect, Task.raise, Event.ticks]
    cases cpl <;> split_ifs <;> simp [Task.time]

/-- The time of the child that `sys_waitpid` has found. -/
def Event.childTime (s : System) (cpl : Bool) : Event → Word
  | .reap j _ _ _ => ((s.task j).map fun r => r.time cpl).getD 0
  | _ => 0

/-- The times of a child are charged to the process that has waited for it. -/
theorem effect_childTime (s : System) (p : Task) (i : ℕ) (q : Task) (e : Event) (cpl : Bool) :
    (effect s p i q e).childTime cpl =
      q.childTime cpl + if i = s.current then e.childTime s cpl else 0 := by
  cases e with
  | reap j pid father code =>
    by_cases hi : i = s.current <;> cases cpl <;>
      simp [effect, hi, Task.childTime, Event.childTime] <;> rfl
  | fork | forkFails | vanish | setTtyPgrp => simp [effect, Event.childTime]
  | _ =>
    simp only [effect, Task.raise, Task.doTimer, Event.childTime, ite_self]
    cases cpl <;> split_ifs <;> simp [Task.childTime]

theorem Section.jiffies_eq (h : Section s p e s₁ b) :
    s₁.jiffies = s.jiffies + BitVec.ofNat 32 (e.ticks true + e.ticks false) := by
  have hzero : s.jiffies = s.jiffies + BitVec.ofNat 32 0 := (BitVec.add_zero _).symm
  cases h with
  | tick cpl _ => cases cpl <;> rfl
  | zombie _ _ | vanish _ _ =>
    refine Eq.trans ?_ hzero
    change (s.hangUp p).jiffies = _
    rw [System.hangUp]
    split_ifs <;> rfl
  | ttyIntr tty sig =>
    rw [System.ttyIntr]
    split_ifs <;> exact hzero
  | setsid _ _ h =>
    rw [(sysSetsid_eq_some h).2]
    exact hzero
  | setpgid pid pgid _ h =>
    obtain ⟨j, r, -, -, -, -, rfl⟩ := sysSetpgid_eq_some h
    exact hzero
  | openTty minor _ =>
    rw [System.openTty]
    split_ifs <;> exact hzero
  | _ => exact hzero

theorem forks_eq_false (h : Turn s p e s₁ s' b) (ho : Orderly s) (hq : s.task i = some q) :
    e.forks i = false := by
  cases e with
  | fork nr pid =>
    have hne : i ≠ nr := by
      rintro rfl
      cases hq.symm.trans (h.child ho rfl).2.2.1
    exact beq_false_of_ne hne
  | _ => rfl

theorem ofNat_add_ite {c : Prop} [Decidable c] (m n : ℕ) :
    BitVec.ofNat 32 m + (if c then BitVec.ofNat 32 n else 0) =
      BitVec.ofNat 32 (m + if c then n else 0) := by
  split_ifs
  · exact (BitVec.ofNat_add m n).symm
  · exact BitVec.add_zero _

/-- **Step lemma.** A step charges what its event says. -/
theorem Turn.charged (h : Turn s p e s₁ s' b) (ho : Orderly s) (hc : Charged es s) :
    Charged ((s.current, e) :: es) s' := by
  intro i q' hq' cpl
  rcases h.origin hq' with ⟨pid, rfl, hstir⟩ | ⟨q, hq, -, hstir⟩
  · have hforks : (Event.fork i pid).forks i = true := beq_self_eq_true i
    rw [hstir.time, hstir.childTime, timesOf, childTimesOf, if_pos hforks, if_pos hforks]
    cases cpl <;> exact ⟨rfl, rfl⟩
  · obtain ⟨htime, hchild⟩ := hc i q hq cpl
    have hgained : e.childTime s cpl = BitVec.ofNat 32 (e.childTimes cpl es) := by
      have hends := h.ends
      cases hends with
      | @reap _ _ j r _ _ hr =>
        rw [Event.childTime, Event.childTimes, hr, Option.map_some, Option.getD_some,
          (hc j r hr cpl).1]
      | _ => rfl
    rw [hstir.time, hstir.childTime, effect_time, effect_childTime, htime, hchild, hgained,
      timesOf, childTimesOf, forks_eq_false h ho hq, if_neg Bool.false_ne_true,
      if_neg Bool.false_ne_true, ofNat_add_ite, ofNat_add_ite]
    exact ⟨rfl, rfl⟩

/-! ### All times together -/

/-- The times of the process in the slot `i`, with those of the children. -/
def spent (i : ℕ) (es : List (ℕ × Event)) : ℕ :=
  timesOf true i es + timesOf false i es + (childTimesOf true i es + childTimesOf false i es)

/-- The times in the slot `i`, if there is a process. -/
def spentIn (s : System) (es : List (ℕ × Event)) (i : ℕ) : ℕ :=
  if s.task i = none then 0 else spent i es

/-- The times of all processes together. -/
def total (s : System) (es : List (ℕ × Event)) : ℕ := ∑ i ∈ Finset.range 64, spentIn s es i

/-- What is charged to the current process in a step. -/
def Event.charge (es : List (ℕ × Event)) (e : Event) : ℕ :=
  e.ticks true + e.ticks false + (e.childTimes true es + e.childTimes false es)

namespace Turn

variable (h : Turn s p e s₁ s' b) (ho : Orderly s)

include h ho

/-- What is in a slot is charged, or goes with the process. -/
theorem spentIn_eq (i : ℕ) : spentIn s' ((s.current, e) :: es) i +
    (if e.frees s.current i then spentIn s es i + if i = s.current then e.charge es else 0 else 0) =
      spentIn s es i + if i = s.current then e.charge es else 0 := by
  cases hfree : e.frees s.current i with
  | true =>
    have hnone : s'.task i = none := h.eq_none (by rw [after, hfree, if_pos rfl])
    rw [if_pos rfl, spentIn, if_pos hnone, zero_add]
  | false =>
    rw [if_neg Bool.false_ne_true, add_zero]
    cases hq : s.task i with
    | some q =>
      obtain ⟨q', hq', -⟩ := h.kept ho hq hfree
      rw [spentIn, spentIn, hq, hq', if_neg (Option.some_ne_none _),
        if_neg (Option.some_ne_none _), spent, spent, timesOf, timesOf, childTimesOf, childTimesOf,
        forks_eq_false h ho hq]
      simp only [Bool.false_eq_true, if_false, Event.charge]
      split_ifs <;> omega
    | none =>
      have hi : i ≠ s.current := by
        rintro rfl
        cases h.current.symm.trans hq
      rw [if_neg hi, spentIn, spentIn, if_pos hq]
      cases hq' : s'.task i with
      | none => rw [if_pos rfl]
      | some q' =>
        rcases h.origin hq' with ⟨pid, rfl, -⟩ | ⟨q, hq₀, -⟩
        · have hforks : (Event.fork i pid).forks i = true := beq_self_eq_true i
          rw [if_neg (Option.some_ne_none _), spent, timesOf, timesOf, childTimesOf, childTimesOf,
            if_pos hforks, if_pos hforks, if_pos hforks, if_pos hforks]
        · cases hq.symm.trans hq₀

/-- **Step lemma.** A clock interrupt adds one; otherwise the sum does not grow. -/
theorem total_le : total s' ((s.current, e) :: es) ≤
    total s es + (e.ticks true + e.ticks false) := by
  have hsum : ∑ i ∈ Finset.range 64, (spentIn s' ((s.current, e) :: es) i +
      if e.frees s.current i then spentIn s es i + if i = s.current then e.charge es else 0
      else 0) =
      ∑ i ∈ Finset.range 64, (spentIn s es i + if i = s.current then e.charge es else 0) :=
    Finset.sum_congr rfl fun i _ => h.spentIn_eq ho i
  have hc : s.current ∈ Finset.range 64 := Finset.mem_range.mpr (ho.lt _ p h.current)
  rw [Finset.sum_add_distrib, Finset.sum_add_distrib,
    Finset.sum_ite_eq' (Finset.range 64) s.current, if_pos hc] at hsum
  change total s' _ + _ = total s es + e.charge es at hsum
  have hchild : e.childTimes true es + e.childTimes false es ≤ ∑ i ∈ Finset.range 64,
      if e.frees s.current i then spentIn s es i + if i = s.current then e.charge es else 0
      else 0 := by
    have hends := h.ends
    cases hends with
    | @reap pid options j q _ hscan hq =>
      -- The times of the child go, and they are at least what the father gets.
      have hj : j ∈ Finset.range 64 := Finset.mem_range.mpr (ho.lt j q hq)
      refine le_trans ?_ (Finset.single_le_sum (fun i _ => Nat.zero_le _) hj)
      have hfree : Event.frees s.current j (.reap j q.pid p.pid q.exitCode) = true :=
        beq_self_eq_true j
      rw [if_pos hfree, spentIn, hq, if_neg (Option.some_ne_none _), spent]
      dsimp only [Event.childTimes]
      omega
    | _ => exact Nat.zero_le _
  have hcharge : e.charge es = e.ticks true + e.ticks false +
      (e.childTimes true es + e.childTimes false es) := rfl
  omega

end Turn

end Linux001.Processes
