import Linux001.Processes.Model
import Mathlib.Algebra.BigOperators.Group.Finset.Basic
import Mathlib.Algebra.BigOperators.Group.Finset.Piecewise

/-!
# Exits and waits

A process that exits leaves its status in its task structure, sends `SIGCHLD` to its father, and is
released when the father finds it in `sys_waitpid`. A father that finds no child that has exited
sleeps in `sys_pause`, and looks again when it wakes up with no other signal than `SIGCHLD`. Nothing
may get lost between the two: neither a status, nor the signal that ends the sleep.

## Main definitions

* `Orderly`: numbers are distinct, and the current process has not exited.
* `exits`, `reaps`, `zombies`: the statuses of processes that have exited, those that `sys_waitpid`
  has returned, and those that are still there.
* `Noticed`: a process that waits in `sys_waitpid` has been woken up by `SIGCHLD` if there is
  something to find.

## Main results

* `exits_delivered`: each status is returned once, to the father of the process that exited, or the
  process is still in the table.
* `exits_noticed`: no process sleeps in `sys_waitpid` though there is something to find.
-/

namespace Linux001.Processes

open Signals (Word Pending WaitpidSelects)

variable {s s' s₁ : System} {p q q' : Task} {e : Event} {b : Bool} {i j c : ℕ}
  {es : List (ℕ × Event)}

/-! ### The fields that a section changes -/

theorem effect_pid (s : System) (p : Task) (i : ℕ) (q : Task) (e : Event) :
    (effect s p i q e).pid = q.pid := by
  cases e <;> simp only [effect, Task.doTimer, Task.raise] <;> split_ifs <;> rfl

theorem effect_father (s : System) (p : Task) (i : ℕ) (q : Task) (e : Event) :
    (effect s p i q e).father = q.father ∨ (effect s p i q e).father = 0 := by
  cases e with
  | fork | forkFails | vanish | setTtyPgrp => exact .inl rfl
  | _ =>
    simp only [effect, Task.doTimer, Task.raise]
    split_ifs <;> first | exact .inl rfl | exact .inr rfl

theorem effect_exitCode (hi : i ≠ s.current) : (effect s p i q e).exitCode = q.exitCode := by
  cases e <;> simp only [effect, Task.doTimer, Task.raise, if_neg hi] <;> split_ifs <;> rfl

/-- Another process than the current one changes its group by `sys_setpgid` only. -/
theorem effect_pgrp (hi : i ≠ s.current ∨ e ≠ .setsid) (he : ∀ pid pgid, e ≠ .setpgid pid pgid) :
    (effect s p i q e).pgrp = q.pgrp := by
  cases e with
  | setsid => rw [effect, if_neg (hi.resolve_right fun h => h rfl)]
  | setpgid pid pgid => exact absurd rfl (he pid pgid)
  | _ => simp only [effect, Task.doTimer, Task.raise] <;> split_ifs <;> rfl

theorem effect_place (hi : i ≠ s.current) : (effect s p i q e).place = q.place := by
  cases e <;> simp only [effect, Task.doTimer, Task.raise, if_neg hi] <;> split_ifs <;> rfl

/-- A process that has exited stays so, unless it is woken up, and no other process than the current
one exits. -/
theorem effect_zombie (hi : i ≠ s.current) (hwake : e ≠ .wakeUp i) :
    (effect s p i q e).state = q.state := by
  cases e with
  | wakeUp j =>
    have hij : i ≠ j := fun h => hwake (by rw [h])
    rw [effect, if_neg hij]
  | _ => simp only [effect, Task.doTimer, Task.raise, if_neg hi] <;> split_ifs <;> rfl

/-- Sending a signal takes none away. -/
theorem pending_raise {sig : Word} (hq : Pending sig q.process) (sig' : Word) :
    Pending sig (q.raise sig').process := by
  change (q.signal.toBitVec ||| _).getLsbD _ = true
  rw [BitVec.getLsbD_or, show q.signal.toBitVec.getLsbD _ = true from hq, Bool.true_or]

theorem pending_raise_self {q : Task} : Pending sigchld (q.raise sigchld).process := by
  change (q.signal.toBitVec ||| _).getLsbD _ = true
  rw [BitVec.getLsbD_or, show (Signals.sigBit sigchld).getLsbD (sigchld - 1).toNat = true by decide,
    Bool.or_true]

/-- Only the process itself takes signals away. -/
theorem effect_pending {sig : Word} (hq : Pending sig q.process)
    (he : i ≠ s.current ∨ e ≠ .resume ∧ ∀ w a n u v, e ≠ .own w a n u v) :
    Pending sig (effect s p i q e).process := by
  cases e with
  | resume =>
    rw [effect, if_neg (he.resolve_right fun h => h.1 rfl)]
    exact hq
  | own w a n u v =>
    rw [effect, if_neg (he.resolve_right fun h => h.2 w a n u v rfl)]
    exact hq
  | fork | forkFails | vanish | setTtyPgrp => exact hq
  | _ =>
    simp only [effect, Task.doTimer]
    split_ifs <;> first | exact hq | exact pending_raise hq _

/-! ### The loop of `sys_waitpid` -/

/-- The process `q` in the slot `j` is a child of `p` that `sys_waitpid(pid, …)` waits for. -/
def Awaited (s : System) (p : Task) (pid : Word) (j : ℕ) (q : Task) : Prop :=
  j ≠ s.current ∧ WaitpidSelects p.process pid q.process ∧ q.father = p.pid

/-- The loop finds a child that has exited. -/
theorem scan_zombie {pid : Word} {n : ℕ} {flag : Bool} (h : s.scan p pid n flag = .zombie j) :
    j ≠ 0 ∧ ∃ q, s.task j = some q ∧ q.state = .zombie ∧ Awaited s p pid j q := by
  induction n generalizing flag with
  | zero =>
    rw [System.scan] at h
    split_ifs at h
  | succ n ih =>
    rw [System.scan] at h
    cases hq : s.task (n + 1) with
    | none =>
      rw [hq] at h
      exact ih h
    | some q =>
      rw [hq] at h
      dsimp only at h
      split_ifs at h with hawaited hzombie
      · cases h
        exact ⟨n.succ_ne_zero, q, hq, hzombie, hawaited⟩
      · exact ih h
      · exact ih h

/-- When the loop finds none, then none of the children has exited. -/
theorem scan_children {pid : Word} {n : ℕ} {flag : Bool} (h : s.scan p pid n flag = .children)
    (hj : 1 ≤ j ∧ j ≤ n) (hq : s.task j = some q) (hawaited : Awaited s p pid j q) :
    q.state ≠ .zombie := by
  induction n generalizing flag with
  | zero => omega
  | succ n ih =>
    rw [System.scan] at h
    rcases eq_or_ne j (n + 1) with rfl | hne
    · rw [hq] at h
      obtain ⟨hne, hselects, hfather⟩ := hawaited
      dsimp only at h
      rw [if_pos ⟨hne, hselects, hfather⟩] at h
      split_ifs at h with hzombie
      exact hzombie
    · cases hr : s.task (n + 1) with
      | none =>
        rw [hr] at h
        exact ih h ⟨hj.1, by omega⟩
      | some r =>
        rw [hr] at h
        dsimp only at h
        split_ifs at h <;> exact ih h ⟨hj.1, by omega⟩

/-! ### Numbers -/

/-- Slot 0 holds the process 0, which only pauses; numbers are distinct, other processes have
positive ones, and the current process has not exited. -/
structure Orderly (s : System) : Prop where
  lt : ∀ i q, s.task i = some q → i < 64
  zero : ∃ q, s.task 0 = some q ∧ q.pid = 0 ∧ q.state ≠ .zombie ∧ q.place = .user
  inj : ∀ i j q r, s.task i = some q → s.task j = some r → q.pid = r.pid → i = j
  pos : ∀ i q, i ≠ 0 → s.task i = some q → 0 < q.pid.toInt
  father : ∀ i q, i ≠ 0 → s.task i = some q → 0 ≤ q.father.toInt
  lastPid : 0 ≤ s.lastPid.toInt
  current : ∀ p, s.task s.current = some p → p.state ≠ .zombie

theorem nextPid_pos {pid : Word} (h : 0 ≤ pid.toInt) : 0 < (nextPid pid).toInt := by
  have hlt := BitVec.toInt_lt (x := pid)
  have hone : (1 : Word).toInt = 1 := rfl
  rw [nextPid]
  split_ifs with hneg
  · exact one_pos
  · rw [BitVec.toInt_add, hone] at hneg ⊢
    rcases lt_or_ge (pid.toInt + 1) (2 ^ 31) with hfits | hover
    · rw [Int.bmod_eq_of_le (by omega) (by omega)]
      omega
    · -- The next number after the largest one is negative.
      rw [show pid.toInt + 1 = 2 ^ 31 by omega] at hneg
      exact absurd (by decide) hneg

/-- A number that has been found is positive and free. -/
theorem freshPid_fresh {n : ℕ} {last pid : Word} (hlast : 0 ≤ last.toInt)
    (h : s.freshPid n last = some pid) : 0 < pid.toInt ∧ s.pidUsed pid = false := by
  induction n generalizing last with
  | zero => cases h
  | succ n ih =>
    have hpos := nextPid_pos hlast
    rw [System.freshPid] at h
    split_ifs at h with hused
    · exact ih hpos.le h
    · rw [← Option.some.inj h]
      exact ⟨hpos, Bool.not_eq_true _ ▸ hused⟩

theorem ne_of_pidUsed {pid : Word} (h : s.pidUsed pid = false) (hi : i < 64)
    (hq : s.task i = some q) : q.pid ≠ pid := by
  rintro rfl
  rw [System.pidUsed, List.any_eq_false] at h
  exact h i (List.mem_range.mpr hi) (by simp [hq])

/-- A child is put into a free slot. -/
theorem Section.fork_spec {pid : Word} (h : Section s p (.fork i pid) s₁ b) :
    i ≠ 0 ∧ i < 64 ∧ s.task i = none ∧ ∃ n, s.freshPid n s.lastPid = some pid := by
  cases h with
  | @fork n _ _ _ hpid hnr =>
    have hmem := List.mem_range'_1.mp (List.mem_of_find?_eq_some hnr)
    have hfree := List.find?_some hnr
    exact ⟨Nat.one_le_iff_ne_zero.mp hmem.1, by omega, by simpa using hfree, n, hpid⟩

theorem Section.lastPid_eq (h : Section s p e s₁ b) :
    s₁.lastPid = s.lastPid ∨ ∃ nr pid n, (e = .fork nr pid ∨ e = .forkFails pid) ∧
      s₁.lastPid = pid ∧ s.freshPid n s.lastPid = some pid := by
  cases h with
  | @fork n nr pid _ hpid _ => exact .inr ⟨nr, pid, n, .inl rfl, rfl, hpid⟩
  | @forkFails n pid _ hpid => exact .inr ⟨0, pid, n, .inr rfl, rfl, hpid⟩
  | zombie _ _ | vanish _ _ =>
    refine .inl ?_
    change (s.hangUp p).lastPid = _
    rw [System.hangUp]
    split_ifs <;> rfl
  | ttyIntr tty sig =>
    rw [System.ttyIntr]
    split_ifs <;> exact .inl rfl
  | setsid _ _ h =>
    rw [(sysSetsid_eq_some h).2]
    exact .inl rfl
  | setpgid pid pgid _ h =>
    obtain ⟨j, r, -, -, -, -, rfl⟩ := sysSetpgid_eq_some h
    exact .inl rfl
  | openTty minor _ =>
    rw [System.openTty]
    split_ifs <;> exact .inl rfl
  | _ => exact .inl rfl

/-- Only the end of `do_exit` makes a process one that has exited. -/
theorem Section.zombie_of_effect (h : Section s p e s₁ b)
    (hz : (effect s p i q e).state = .zombie) : q.state = .zombie ∨
      i = s.current ∧ ∃ pid father code, e = .zombie pid father code := by
  by_cases hi : i = s.current
  swap
  · by_cases hwake : e = .wakeUp i
    · rw [hwake, effect, if_pos rfl] at hz
      cases hz
    · exact .inl ((effect_zombie hi hwake).symm.trans hz)
  cases h with
  | zombie _ _ => exact .inr ⟨hi, _, _, _, rfl⟩
  | sleep state _ hstate =>
    rw [effect, if_pos hi] at hz
    rcases hstate with rfl | rfl <;> cases hz
  | pause _ _ _ =>
    rw [effect, if_pos hi] at hz
    cases hz
  | fork | forkFails | vanish | setTtyPgrp => exact .inl hz
  | _ =>
    simp only [effect, Task.doTimer, Task.raise] at hz
    split_ifs at hz <;> exact .inl hz

/-- A process that has exited stays so. -/
theorem Section.effect_of_zombie (h : Section s p e s₁ b) (hi : i ≠ s.current)
    (hq : s.task i = some q) (hz : q.state = .zombie) : (effect s p i q e).state = .zombie := by
  rw [effect_zombie hi, hz]
  rintro rfl
  cases h with
  | wakeUp hr hstate =>
    obtain rfl := Option.some.inj (hr.symm.trans hq)
    exact hstate hz

/-- Task 0 only runs code that is not modelled here. -/
theorem Section.place_zero (h : Section s p e s₁ b) (hc : s.current = 0) (hp : p.place = .user) :
    (effect s p 0 p e).place = .user := by
  cases h with
  | exit _ _ hslot => exact absurd hc hslot
  | waitpid _ _ _ hslot => exact absurd hc hslot
  | pause hplace _ _ => cases hp.symm.trans hplace
  | resume hplace => cases hp.symm.trans hplace
  | fork | forkFails | vanish | setTtyPgrp => exact hp
  | _ =>
    simp only [effect, Task.doTimer, Task.raise]
    split_ifs <;> first | exact hp | rfl

/-- A section frees the slot of the current process, or that of a child that has exited. -/
theorem Section.frees_spec (h : Section s p e s₁ b) (hf : e.frees s.current i = true) :
    (i = s.current ∧ ∃ code, p.place = .exiting code) ∨
      (i ≠ 0 ∧ ∃ q, s.task i = some q ∧ q.state = .zombie) := by
  cases h with
  | vanish hplace _ => exact .inl ⟨by simpa [Event.frees] using hf, _, hplace⟩
  | reap _ hscan _ =>
    obtain rfl : i = _ := by simpa [Event.frees] using hf
    obtain ⟨hne, r, hr, hz, -⟩ := scan_zombie hscan
    exact .inr ⟨hne, r, hr, hz⟩
  | _ => cases hf

theorem boot_eq_some {i : ℕ} {q : Task} (hq : boot.task i = some q) : i = 0 ∧ q = initTask := by
  rw [boot] at hq
  dsimp only at hq
  split_ifs at hq with hi
  exact ⟨hi, (Option.some.inj hq).symm⟩

theorem Orderly.boot : Orderly boot := by
  refine ⟨fun i q hq => ?_, ⟨initTask, rfl, rfl, nofun, rfl⟩, fun i j q r hq hr _ => ?_,
    fun i q hi hq => absurd (boot_eq_some hq).1 hi,
    fun i q hi hq => absurd (boot_eq_some hq).1 hi, le_rfl,
    fun p hp => ?_⟩
  · rw [(boot_eq_some hq).1]
    decide
  · rw [(boot_eq_some hq).1, (boot_eq_some hr).1]
  · rw [(boot_eq_some hp).2]
    nofun

namespace Turn

variable (h : Turn s p e s₁ s' b)

include h

/-- Where a task comes from. -/
theorem origin (hq' : s'.task i = some q') :
    (∃ pid, e = .fork i pid ∧ (System.childOf { s with lastPid := pid } p).Stirred q') ∨
      ∃ q, s.task i = some q ∧ e.frees s.current i = false ∧ (effect s p i q e).Stirred q' := by
  obtain ⟨q₁, hq₁, hstir⟩ := h.eq_some hq'
  obtain ⟨hfree, ⟨pid, he, rfl⟩ | ⟨q, hq, rfl⟩⟩ := after_eq_some hq₁
  · exact .inl ⟨pid, he, hstir⟩
  · exact .inr ⟨q, hq, hfree, hstir⟩

variable (ho : Orderly s)

include ho

/-- A new child has a number that no other process has. -/
theorem child {pid : Word} (he : e = .fork i pid) : i ≠ 0 ∧ i < 64 ∧ s.task i = none ∧
    0 < pid.toInt ∧ ∀ j q, s.task j = some q → q.pid ≠ pid := by
  subst he
  obtain ⟨hi, hlt, hnone, n, hpid⟩ := h.ends.fork_spec
  obtain ⟨hpos, hfresh⟩ := freshPid_fresh ho.lastPid hpid
  exact ⟨hi, hlt, hnone, hpos, fun j q hq => ne_of_pidUsed hfresh (ho.lt j q hq) hq⟩

/-- A task that is not freed is still there. -/
theorem kept (hq : s.task i = some q) (hfree : e.frees s.current i = false) :
    ∃ q', s'.task i = some q' ∧ (effect s p i q e).Stirred q' := by
  refine h.of_after ?_
  have hfilled : filled s p i e = none := by
    cases e with
    | fork nr pid =>
      have hne : i ≠ nr := by
        rintro rfl
        cases hq.symm.trans (h.child ho rfl).2.2.1
      exact if_neg hne
    | _ => rfl
  rw [after, hfree, hfilled, hq]
  rfl

/-- Task 0 stays. -/
theorem zero : ∃ q, s'.task 0 = some q ∧ q.pid = 0 ∧ q.state ≠ .zombie ∧ q.place = .user := by
  obtain ⟨q, hq, hpid, hz, hplace⟩ := ho.zero
  have hself (hc : 0 = s.current) : q = p := Option.some.inj (hq.symm.trans (hc ▸ h.current))
  have hfree : e.frees s.current 0 = false := by
    rw [← Bool.not_eq_true]
    intro hf
    rcases h.ends.frees_spec hf with ⟨hc, code, hexiting⟩ | ⟨hne, -⟩
    · cases (hself hc ▸ hplace).symm.trans hexiting
    · exact hne rfl
  obtain ⟨q', hq', hstir⟩ := h.kept ho hq hfree
  refine ⟨q', hq', hstir.pid.trans ((effect_pid s p 0 q e).trans hpid), ?_, ?_⟩
  · intro hz'
    rcases h.ends.zombie_of_effect (hstir.zombie.mp hz') with hz'' | ⟨hc, pid, father, code, rfl⟩
    · exact hz hz''
    · have hends := h.ends
      cases hends with
      | zombie hexiting _ => cases (hself hc ▸ hplace).symm.trans hexiting
  · rw [hstir.place]
    by_cases hc : 0 = s.current
    · rw [hself hc]
      exact h.ends.place_zero hc.symm (hself hc ▸ hplace)
    · rw [effect_place hc, hplace]

/-- No two processes get the same number. -/
theorem pid_inj {r' : Task} (hq' : s'.task i = some q') (hr' : s'.task j = some r')
    (hpid : q'.pid = r'.pid) : i = j := by
  have hold {i : ℕ} {q q' : Task} (hstir : (effect s p i q e).Stirred q') : q'.pid = q.pid :=
    hstir.pid.trans (effect_pid s p i q e)
  rcases h.origin hq' with ⟨pid, he, hstir⟩ | ⟨q, hq, -, hstir⟩ <;>
    rcases h.origin hr' with ⟨pid', he', hstir'⟩ | ⟨r, hr, -, hstir'⟩
  · cases he.symm.trans he'
    rfl
  · exact absurd (by rw [← hold hstir', ← hpid]; exact hstir.pid)
      ((h.child ho he).2.2.2.2 j r hr)
  · exact absurd (by rw [← hold hstir, hpid]; exact hstir'.pid)
      ((h.child ho he').2.2.2.2 i q hq)
  · exact ho.inj i j q r hq hr (by rw [← hold hstir, ← hold hstir', hpid])

/-- The number of a father is not negative. -/
theorem father_nonneg (hi : i ≠ 0) (hq' : s'.task i = some q') : 0 ≤ q'.father.toInt := by
  rcases h.origin hq' with ⟨pid, -, hstir⟩ | ⟨q, hq, -, hstir⟩
  · -- The father is the current process.
    have hfather : q'.father = p.pid := hstir.father
    rw [hfather]
    rcases eq_or_ne s.current 0 with hc | hc
    · obtain ⟨q, hq, hpid, -⟩ := ho.zero
      obtain rfl : q = p := Option.some.inj (hq.symm.trans (hc ▸ h.current))
      rw [hpid]
      exact le_rfl
    · exact (ho.pos _ p hc h.current).le
  · rw [hstir.father]
    rcases effect_father s p i q e with hf | hf
    · rw [hf]
      exact ho.father i q hi hq
    · rw [hf]
      exact le_rfl

/-- The process that goes on has not exited. -/
theorem current_awake {p' : Task} (hp' : s'.task s'.current = some p') : p'.state ≠ .zombie := by
  rcases h.next with ⟨rfl, hc, -⟩ | ⟨-, hc | ⟨q, hq, hrun⟩⟩
  · rw [hc] at hp'
    intro hz
    rcases h.origin hp' with ⟨pid, he, -⟩ | ⟨q, hq, -, hstir⟩
    · cases h.current.symm.trans (h.child ho he).2.2.1
    · obtain rfl : q = p := Option.some.inj (hq.symm.trans h.current)
      rcases h.ends.zombie_of_effect (hstir.zombie.mp hz) with hz' | ⟨-, pid, father, code, rfl⟩
      · exact ho.current q h.current hz'
      · have hends := h.ends
        cases hends
  · obtain ⟨q, hq, -, hz, -⟩ := h.zero ho
    obtain rfl := Option.some.inj (hp'.symm.trans (hc ▸ hq))
    exact hz
  · obtain rfl := Option.some.inj (hp'.symm.trans hq)
    rw [hrun]
    decide

/-- **Step lemma.** Numbers stay in order. -/
theorem orderly : Orderly s' := by
  have hlast : 0 ≤ s'.lastPid.toInt := by
    rw [h.lastPid]
    rcases h.ends.lastPid_eq with heq | ⟨-, pid, n, -, heq, hpid⟩
    · rw [heq]
      exact ho.lastPid
    · rw [heq]
      exact (freshPid_fresh ho.lastPid hpid).1.le
  refine ⟨fun i q' hq' => ?_, h.zero ho, fun i j q' r' hq' hr' hpid => h.pid_inj ho hq' hr' hpid,
    fun i q' hi hq' => ?_, fun i q' hi hq' => h.father_nonneg ho hi hq', hlast,
    fun p' hp' => h.current_awake ho hp'⟩
  · rcases h.origin hq' with ⟨pid, he, -⟩ | ⟨q, hq, -⟩
    · exact (h.child ho he).2.1
    · exact ho.lt i q hq
  · rcases h.origin hq' with ⟨pid, he, hstir⟩ | ⟨q, hq, -, hstir⟩
    · have hpid : q'.pid = pid := hstir.pid
      rw [hpid]
      exact (h.child ho he).2.2.2.1
    · rw [hstir.pid, effect_pid]
      exact ho.pos i q hi hq

end Turn

/-! ### Sleeping in `sys_waitpid` -/

/-- A process that sleeps in `sys_waitpid` may be woken up. -/
def Wakeable (s : System) : Prop := ∀ i p pid options, s.task i = some p →
  p.place = .waiting pid options → p.state = .running ∨ p.state = .interruptible

/-- A process that waits in `sys_waitpid` has `SIGCHLD` pending, and has been woken up, if one of
its children has exited that `R` says it waits for. -/
def Noticed (R : Word → Task → Task → Prop) (s : System) : Prop :=
  ∀ i p pid options j q, s.task i = some p → p.place = .waiting pid options →
    s.task j = some q → q.state = .zombie → q.father = p.pid → R pid p q →
      Pending sigchld p.process ∧ p.state = .running

/-- A process begins to sleep in `sys_waitpid`, or it goes on, loses no signal, and does not fall
asleep. -/
theorem Section.waiting_of_effect {pid options : Word} (h : Section s p e s₁ b)
    (hp : s.task s.current = some p) (hq : s.task i = some q)
    (hplace : (effect s p i q e).place = .waiting pid options) :
    (i = s.current ∧ e = .pause ∧ s.scan p pid 63 false = .children) ∨
      (q.place = .waiting pid options ∧
        (i ≠ s.current ∨ e ≠ .setsid ∧ e ≠ .resume ∧ ∀ w a n u v, e ≠ .own w a n u v) ∧
        ((effect s p i q e).state = q.state ∨ (effect s p i q e).state = .running)) := by
  by_cases hi : i = s.current
  swap
  · refine .inr ⟨(effect_place hi).symm.trans hplace, .inl hi, ?_⟩
    by_cases hwake : e = .wakeUp i
    · rw [hwake, effect, if_pos rfl]
      exact .inr rfl
    · exact .inl (effect_zombie hi hwake)
  obtain rfl : q = p := Option.some.inj (hq.symm.trans (hi ▸ hp))
  cases h with
  | pause hscanning hscan _ =>
    rw [effect, if_pos hi, hscanning] at hplace
    cases hplace
    exact .inl ⟨hi, rfl, hscan⟩
  | resume hwaiting =>
    rw [effect, if_pos hi] at hplace
    dsimp only at hplace
    rw [hwaiting] at hplace
    split_ifs at hplace
  | own _ _ _ _ _ huser | setsid huser _ _ =>
    rw [effect, if_pos hi] at hplace
    cases huser.symm.trans hplace
  | sleep state hsleeps _ =>
    rw [effect, if_pos hi] at hplace
    rcases hsleeps with huser | ⟨code, hexiting⟩
    · cases huser.symm.trans hplace
    · cases hexiting.symm.trans hplace
  | zombie hexiting _ =>
    rw [effect, if_pos hi] at hplace
    split_ifs at hplace <;> cases hexiting.symm.trans hplace
  | fork | forkFails | vanish | setTtyPgrp =>
    exact .inr ⟨hplace, .inr (by simp), .inl rfl⟩
  | _ =>
    simp only [effect, Task.doTimer, Task.raise] at hplace ⊢
    split_ifs at hplace ⊢ <;>
      first
      | exact .inr ⟨hplace, .inr (by simp), .inl rfl⟩
      | exact .inr ⟨hplace, .inr (by simp), .inr rfl⟩

/-- **Step lemma.** A process that sleeps in `sys_waitpid` may be woken up. -/
theorem Turn.wakeable (h : Turn s p e s₁ s' b) (hw : Wakeable s) : Wakeable s' := by
  intro i p' pid options hp' hplace
  rcases h.origin hp' with ⟨_, _, hstir⟩ | ⟨p₀, hp₀, -, hstir⟩
  · cases hstir.place.symm.trans hplace
  have hstate : (effect s p i p₀ e).state = .running ∨
      (effect s p i p₀ e).state = .interruptible := by
    rcases h.ends.waiting_of_effect h.current hp₀ (hstir.place ▸ hplace) with
      ⟨hi, rfl, -⟩ | ⟨hwaiting, -, heq | hrun⟩
    · rw [effect, if_pos hi]
      exact .inr rfl
    · rw [heq]
      exact hw i p₀ pid options hp₀ hwaiting
    · exact .inl hrun
  rcases hstir.stirs.state with heq | ⟨-, hrun⟩
  · rwa [heq]
  · exact .inl hrun

/-- When the loop of `sys_waitpid` finds no child that has exited, there is none. -/
theorem Orderly.not_zombie (ho : Orderly s) {pid : Word} {flag : Bool}
    (hscan : s.scan p pid 63 flag = .children) (hq : s.task j = some q)
    (hselects : WaitpidSelects p.process pid q.process) (hfather : q.father = p.pid) :
    q.state ≠ .zombie := by
  intro hz
  have hj : j ≠ s.current := fun hj => ho.current q (hj ▸ hq) hz
  have hj0 : j ≠ 0 := by
    rintro rfl
    obtain ⟨r, hr, -, hnz, -⟩ := ho.zero
    obtain rfl := Option.some.inj (hr.symm.trans hq)
    exact hnz hz
  have hlt := ho.lt j q hq
  exact scan_children hscan ⟨Nat.one_le_iff_ne_zero.mpr hj0, by omega⟩ hq
    ⟨hj, hselects, hfather⟩ hz

/-- `do_exit` sends `SIGCHLD` to a father that waits, and `schedule` wakes it up. -/
theorem Turn.notifies {pid father code pid' options : Word} {p₀ p' : Task}
    (h : Turn s p (.zombie pid father code) s₁ s' b) (ho : Orderly s) (hw : Wakeable s) (hi : i ≠ 0)
    (hp₀ : s.task i = some p₀) (hwaiting : p₀.place = .waiting pid' options)
    (hfather : p.father = p₀.pid) (hp' : s'.task i = some p')
    (hplace : p'.place = .waiting pid' options) :
    Pending sigchld p'.process ∧ p'.state = .running := by
  have hpos := ho.pos i p₀ hi hp₀
  have hends := h.ends
  cases hends with
  | @zombie code hexiting _ =>
    have hc : i ≠ s.current := by
      rintro rfl
      obtain rfl := Option.some.inj (hp₀.symm.trans h.current)
      cases hwaiting.symm.trans hexiting
    have hslot : Signals.Slot i :=
      ⟨Nat.one_le_iff_ne_zero.mpr hi, Nat.le_of_lt_succ (ho.lt i p₀ hp₀)⟩
    have hkill : Signals.KillSelects p.process p.father p₀.process := by
      have hne : p.father ≠ 0 := by
        rintro h0
        rw [← hfather, h0] at hpos
        exact absurd hpos (by decide)
      rw [Signals.KillSelects, if_neg hne, if_pos (hfather ▸ hpos)]
      exact hfather.symm
    let p₁ : Task := effect s p i p₀ (.zombie p.pid p.father code)
    have hpending : p₁.signal.toBitVec.getLsbD (sigchld - 1).toNat = true := by
      have hraise : p₁ = p₀.raise sigchld := by
        simp only [p₁, effect, if_neg hc, if_pos (And.intro hslot hkill)]
      rw [hraise]
      exact pending_raise_self
    have hsignal : p₁.signal ≠ 0 := by
      intro h0
      rw [h0] at hpending
      exact absurd hpending (by decide)
    have hafter : after s p (.zombie p.pid p.father code) i = some p₁ := by
      simp [after, Event.frees, filled, hp₀, p₁]
    have hawake := h.wakes ⟨hslot.1, hslot.2⟩ hafter hsignal hp'
    have hrun := (h.wakeable hw i p' pid' options hp' hplace).resolve_right hawake
    obtain ⟨q₁, hq₁, hstir⟩ := h.eq_some hp'
    obtain rfl := Option.some.inj (hafter.symm.trans hq₁)
    exact ⟨hstir.pending hpending, hrun⟩

/-- **Step lemma.** A step keeps `Noticed`, if it does not make a child one that is waited for. -/
theorem Turn.noticed (h : Turn s p e s₁ s' b) (ho : Orderly s) (hw : Wakeable s)
    {R : Word → Task → Task → Prop}
    (hselects : ∀ pid p q, R pid p q → WaitpidSelects p.process pid q.process)
    (hstable : ∀ pid p q p' q', p'.pid = p.pid → q'.pid = q.pid →
      ((∀ a g, e ≠ .setpgid a g) → p'.pgrp = p.pgrp ∧ q'.pgrp = q.pgrp) → R pid p' q' → R pid p q)
    (hn : Noticed R s) : Noticed R s' := by
  intro i p' pid options j q' hp' hplace hq' hz hfather hR
  rcases h.origin hp' with ⟨_, _, hstir⟩ | ⟨p₀, hp₀, -, hstir⟩
  · cases hstir.place.symm.trans hplace
  rcases h.origin hq' with ⟨_, _, hstir'⟩ | ⟨q₀, hq₀, -, hstir'⟩
  · cases hstir'.zombie.mp hz
  have hp₀pid : p'.pid = p₀.pid := hstir.pid.trans (effect_pid s p i p₀ e)
  have hq₀pid : q'.pid = q₀.pid := hstir'.pid.trans (effect_pid s p j q₀ e)
  have hi : i ≠ 0 := by
    rintro rfl
    obtain ⟨r, hr, -, -, huser⟩ := h.zero ho
    obtain rfl := Option.some.inj (hr.symm.trans hp')
    cases huser.symm.trans hplace
  have hpos := ho.pos i p₀ hi hp₀
  have hfather₀ : q₀.father = p₀.pid := by
    rw [← hp₀pid, ← hfather, hstir'.father]
    refine ((effect_father s p j q₀ e).resolve_right fun h0 => ?_).symm
    -- An orphan is not the child of a process that waits.
    rw [← hp₀pid, ← hfather, hstir'.father, h0] at hpos
    exact absurd hpos (by decide)
  have hzombie := h.ends.zombie_of_effect (hstir'.zombie.mp hz)
  rcases h.ends.waiting_of_effect h.current hp₀ (hstir.place ▸ hplace) with
    ⟨hc, rfl, hscan⟩ | ⟨hwaiting, hkeeps, hstate⟩
  · -- The loop has found no child that has exited.
    obtain rfl : p₀ = p := Option.some.inj (hp₀.symm.trans (hc ▸ h.current))
    have hR₀ : R pid p₀ q₀ := hstable pid p₀ q₀ p' q' hp₀pid hq₀pid (fun hnot =>
      ⟨hstir.pgrp.trans (effect_pgrp (.inr nofun) hnot),
        hstir'.pgrp.trans (effect_pgrp (.inr nofun) hnot)⟩) hR
    exact absurd (hzombie.resolve_right nofun)
      (ho.not_zombie hscan hq₀ (hselects pid p₀ q₀ hR₀) hfather₀)
  have hsetsid : j = s.current → e ≠ .setsid := by
    rintro hj rfl
    exact ho.current q₀ (hj ▸ hq₀) (hzombie.resolve_right nofun)
  have hR₀ : R pid p₀ q₀ := hstable pid p₀ q₀ p' q' hp₀pid hq₀pid (fun hnot =>
    ⟨hstir.pgrp.trans (effect_pgrp (hkeeps.imp_right And.left) hnot),
      hstir'.pgrp.trans
        (effect_pgrp (or_iff_not_imp_left.mpr fun hc => hsetsid (not_not.mp hc)) hnot)⟩) hR
  rcases hzombie with hz₀ | ⟨hj, pid', father, code, rfl⟩
  · obtain ⟨hpending, hrun⟩ := hn i p₀ pid options j q₀ hp₀ hwaiting hq₀ hz₀ hfather₀ hR₀
    have hrun' : (effect s p i p₀ e).state = .running := hstate.elim (·.trans hrun) id
    refine ⟨hstir.pending (effect_pending hpending (hkeeps.imp_right And.right)), ?_⟩
    exact (hstir.stirs.awake (by rw [hrun']; decide)).trans hrun'
  · -- The child exits in this step.
    obtain rfl : q₀ = p := Option.some.inj (hq₀.symm.trans (hj ▸ h.current))
    exact h.notifies ho hw hi hp₀ hwaiting hfather₀ hp' hplace

/-- The child is selected by its number, or every child is. -/
def ByNumber (pid : Word) (_ q : Task) : Prop := pid = -1 ∨ q.pid = pid

/-- The child is selected, by its number or by its group. -/
def Selected (pid : Word) (p q : Task) : Prop := WaitpidSelects p.process pid q.process

theorem selected_of_byNumber {pid : Word} (h : ByNumber pid p q) : Selected pid p q :=
  h.elim .inl fun h => .inr (.inl h)

theorem Noticed.boot (R : Word → Task → Task → Prop) : Noticed R boot := by
  intro i p pid options j q hp hplace
  rw [Processes.boot] at hp
  dsimp only at hp
  split_ifs at hp
  obtain rfl := Option.some.inj hp
  cases hplace

theorem wakeable_of_runs (h : Runs Step boot es s) : Wakeable s := by
  refine h.invariant (I := Wakeable) (fun s e s' hw hs => ?_) fun i p pid options hp hplace => ?_
  · obtain ⟨-, p, s₁, b, ht⟩ := Step.turn hs
    exact ht.wakeable hw
  · rw [Processes.boot] at hp
    dsimp only at hp
    split_ifs at hp
    rw [← Option.some.inj hp]
    exact .inl rfl

theorem orderly_of_runs (h : Runs Step boot es s) : Orderly s :=
  h.invariant (fun _ _ _ ho hs => by
    obtain ⟨-, p, s₁, b, ht⟩ := Step.turn hs
    exact ht.orderly ho) .boot

/-- The state after the first `fork`. -/
def forked : System := System.copyProcess { boot with lastPid := 1 } 1 initTask

theorem step_forked : Step boot (0, .fork 1 1) forked := by
  have hpid : boot.freshPid 1 boot.lastPid = some 1 := by decide
  have hnr : boot.freeSlot = some 1 := by decide
  exact ⟨rfl, initTask, forked, false, rfl, .fork rfl hpid hnr, .inl ⟨rfl, rfl⟩⟩

theorem runs_forked : Runs Step boot [(0, .fork 1 1)] forked := .cons .nil step_forked

/-- The number and the status of a process that has exited. -/
abbrev Status := Word × Word

/-- The status of a process that a step makes one that has exited. -/
def Event.exited : Event → Multiset Status
  | .zombie pid _ code => {(pid, code)}
  | _ => 0

/-- The status that `sys_waitpid` returns in a step. -/
def Event.reaped : Event → Multiset Status
  | .reap _ pid _ code => {(pid, code)}
  | _ => 0

/-- The statuses of the processes that have exited in a run and had a father then. -/
def exits (es : List (ℕ × Event)) : Multiset Status := (es.map fun e => e.2.exited).sum

/-- The statuses that `sys_waitpid` has returned in a run. -/
def reaps (es : List (ℕ × Event)) : Multiset Status := (es.map fun e => e.2.reaped).sum

/-- The status in a slot. -/
def status : Option Task → Multiset Status
  | none => 0
  | some q => if q.state = .zombie then {(q.pid, q.exitCode)} else 0

/-- The statuses that are still in the table. -/
def System.zombies (s : System) : Multiset Status := ∑ i ∈ Finset.range 64, status (s.task i)

theorem status_of_zombie (hz : q.state = .zombie) : status (some q) = {(q.pid, q.exitCode)} :=
  if_pos hz

theorem status_of_alive (hz : q.state ≠ .zombie) : status (some q) = 0 := if_neg hz

/-- The event frees the slot `i` by `sys_waitpid`. -/
def Event.reapsAt (i : ℕ) : Event → Bool
  | .reap j _ _ _ => i == j
  | _ => false

theorem reapsAt_eq_false (h : e.frees c i = false) : e.reapsAt i = false := by
  cases e with
  | reap j pid father code => exact h
  | _ => rfl

namespace Turn

/-- The status of a process that stays in its slot. -/
theorem status_kept (h : Turn s p e s₁ s' b) (ho : Orderly s) (hq : s.task i = some q)
    (hstir : (effect s p i q e).Stirred q') :
    status (some q') = status (some q) + if i = s.current then e.exited else 0 := by
  have hpid : q'.pid = q.pid := hstir.pid.trans (effect_pid s p i q e)
  by_cases hz : q.state = .zombie
  · have hi : i ≠ s.current := fun hi => ho.current q (hi ▸ hq) hz
    have hz' := hstir.zombie.mpr (h.ends.effect_of_zombie hi hq hz)
    rw [status_of_zombie hz, status_of_zombie hz', if_neg hi, add_zero, hpid, hstir.exitCode,
      effect_exitCode hi]
  · rw [status_of_alive hz, zero_add]
    by_cases hexits : i = s.current ∧ ∃ pid father code, e = .zombie pid father code
    · obtain ⟨hi, pid, father, code, rfl⟩ := hexits
      obtain rfl : q = p := Option.some.inj (hq.symm.trans (hi ▸ h.current))
      have hends := h.ends
      cases hends with
      | zombie _ _ =>
        have hz' : q'.state = .zombie := hstir.zombie.mpr (by rw [effect, if_pos hi])
        have hcode : q'.exitCode = code := hstir.exitCode.trans (by rw [effect, if_pos hi])
        rw [status_of_zombie hz', if_pos hi, hpid, hcode]
        rfl
    · have hz' : q'.state ≠ .zombie := fun hz' =>
        hexits ((h.ends.zombie_of_effect (hstir.zombie.mp hz')).resolve_left hz)
      rw [status_of_alive hz']
      split_ifs with hi
      · cases e with
        | zombie pid father code => exact absurd ⟨hi, _, _, _, rfl⟩ hexits
        | _ => rfl
      · rfl

/-- The status in a slot comes from an exit, and goes with the return of `sys_waitpid`. -/
theorem status_eq (h : Turn s p e s₁ s' b) (ho : Orderly s) (i : ℕ) :
    status (s'.task i) + (if e.reapsAt i then e.reaped else 0) =
      status (s.task i) + if i = s.current then e.exited else 0 := by
  cases hfree : e.frees s.current i with
  | true =>
    have hnone : s'.task i = none := h.eq_none (by rw [after, hfree, if_pos rfl])
    rw [hnone]
    have hends := h.ends
    cases hends with
    | vanish _ _ =>
      obtain rfl : i = s.current := by simpa [Event.frees] using hfree
      rw [h.current, status_of_alive (ho.current p h.current)]
      simp [Event.reapsAt, Event.exited, status]
    | @reap pid options j q _ hscan hq =>
      obtain rfl : i = j := by simpa [Event.frees] using hfree
      obtain ⟨-, r, hr, hz, -⟩ := scan_zombie hscan
      obtain rfl := Option.some.inj (hr.symm.trans hq)
      rw [hr, status_of_zombie hz]
      simp [Event.reapsAt, Event.reaped, Event.exited, status]
    | _ => cases hfree
  | false =>
    rw [reapsAt_eq_false hfree, if_neg Bool.false_ne_true, add_zero]
    cases hq : s.task i with
    | none =>
      have hi : i ≠ s.current := by
        rintro rfl
        cases h.current.symm.trans hq
      rw [if_neg hi]
      cases hq' : s'.task i with
      | none => rfl
      | some q' =>
        rcases h.origin hq' with ⟨_, _, hstir⟩ | ⟨q, hq₀, -⟩
        · refine status_of_alive fun hz => ?_
          cases hstir.zombie.mp hz
        · cases hq.symm.trans hq₀
    | some q =>
      obtain ⟨q', hq', hstir⟩ := h.kept ho hq hfree
      rw [hq']
      exact h.status_kept ho hq hstir

/-- **Step lemma.** The statuses in the table are balanced. -/
theorem zombies_eq (h : Turn s p e s₁ s' b) (ho : Orderly s) :
    s'.zombies + e.reaped = s.zombies + e.exited := by
  have hsum : ∑ i ∈ Finset.range 64, (status (s'.task i) + if e.reapsAt i then e.reaped else 0) =
      ∑ i ∈ Finset.range 64, (status (s.task i) + if i = s.current then e.exited else 0) :=
    Finset.sum_congr rfl fun i _ => h.status_eq ho i
  have hc : s.current ∈ Finset.range 64 := Finset.mem_range.mpr (ho.lt _ p h.current)
  have hreaped : ∑ i ∈ Finset.range 64, (if e.reapsAt i then e.reaped else 0) = e.reaped := by
    have hends := h.ends
    cases hends with
    | @reap pid options j q _ hscan hq =>
      have hj : j ∈ Finset.range 64 := Finset.mem_range.mpr (ho.lt j q hq)
      simp only [Event.reapsAt, beq_iff_eq]
      rw [Finset.sum_ite_eq' (Finset.range 64) j, if_pos hj]
    | _ => exact Finset.sum_const_zero
  rw [Finset.sum_add_distrib, Finset.sum_add_distrib, hreaped,
    Finset.sum_ite_eq' (Finset.range 64) s.current, if_pos hc] at hsum
  exact hsum

end Turn

/-- The status in a slot is that of an exit, and the father is the one of that time, or there is
none any more. -/
def Recorded (es : List (ℕ × Event)) (s : System) : Prop :=
  ∀ i q, s.task i = some q → q.state = .zombie →
    ∃ c father, (c, Event.zombie q.pid father q.exitCode) ∈ es ∧ (q.father = father ∨ q.father = 0)

theorem Turn.recorded (h : Turn s p e s₁ s' b) (ho : Orderly s) (hr : Recorded es s) :
    Recorded ((s.current, e) :: es) s' := by
  intro i q' hq' hz'
  rcases h.origin hq' with ⟨_, _, hstir⟩ | ⟨q, hq, -, hstir⟩
  · cases hstir.zombie.mp hz'
  have hpid : q'.pid = q.pid := hstir.pid.trans (effect_pid s p i q e)
  rcases h.ends.zombie_of_effect (hstir.zombie.mp hz') with hz | ⟨hi, pid, father, code, rfl⟩
  · have hi : i ≠ s.current := fun hi => ho.current q (hi ▸ hq) hz
    obtain ⟨c, father, hmem, hfather⟩ := hr i q hq hz
    refine ⟨c, father, ?_, ?_⟩
    · rw [hpid, hstir.exitCode, effect_exitCode hi]
      exact List.mem_cons_of_mem _ hmem
    · rw [hstir.father]
      rcases effect_father s p i q e with hf | hf
      · rwa [hf]
      · exact .inr hf
  · obtain rfl : q = p := Option.some.inj (hq.symm.trans (hi ▸ h.current))
    have hends := h.ends
    cases hends with
    | zombie _ _ =>
      have hcode : q'.exitCode = code := hstir.exitCode.trans (by rw [effect, if_pos hi])
      refine ⟨s.current, q.father, ?_, ?_⟩
      · rw [hpid, hcode]
        exact List.mem_cons_self
      · rw [hstir.father]
        exact (effect_father s q i q _).imp_right id

/-- What `sys_waitpid` returns is the status of a child that has exited. -/
theorem Turn.reap_recorded {pid father code : Word}
    (h : Turn s p (.reap i pid father code) s₁ s' b) (ho : Orderly s) (hr : Recorded es s) :
    ∃ c, (c, Event.zombie pid father code) ∈ es := by
  have hends := h.ends
  cases hends with
  | @reap _ _ _ q hplace hscan hq =>
    obtain ⟨-, r, hr', hz, -, -, hfather⟩ := scan_zombie hscan
    obtain rfl := Option.some.inj (hr'.symm.trans hq)
    have hpos : p.pid ≠ 0 := by
      have hc : s.current ≠ 0 := by
        intro hc
        obtain ⟨t, ht, -, -, huser⟩ := ho.zero
        obtain rfl := Option.some.inj (ht.symm.trans (hc ▸ h.current))
        cases huser.symm.trans hplace
      have := ho.pos _ p hc h.current
      intro h0
      rw [h0] at this
      exact absurd this (by decide)
    obtain ⟨c, f, hmem, hf⟩ := hr i r hr' hz
    have hf' : f = p.pid := by
      rcases hf with hf | hf
      · exact hf.symm.trans hfather
      · exact absurd (hfather.symm.trans hf) hpos
    exact ⟨c, hf' ▸ hmem⟩

theorem alive_boot (hq : boot.task i = some q) : q.state ≠ .zombie := by
  rw [boot] at hq
  dsimp only at hq
  split_ifs at hq
  rw [← Option.some.inj hq]
  nofun

end Linux001.Processes
