import Linux001.Lib.Runs
import Linux001.Sched.Schedule
import Linux001.Signals.Kill

/-!
# The life of processes

The model of `fork`, `exit`, `waitpid`, `setsid` and `setpgid`, of the clock interrupt, and of what
other code does to the table `task` in between: `kernel/fork.c`, `kernel/exit.c`, `kernel/sched.c`,
`kernel/sys.c`, and the parts of `fs/open.c`, `fs/tty_ioctl.c` and `kernel/tty_io.c` that deal with
the terminals of sessions.

The kernel is not preempted, so a process runs from one call of `schedule` to the next, but for
interrupts. A step is a piece of such a section that ends where `schedule` is called, where the code
jumps back, or where a system call returns. Interrupts happen between any two steps.

## Main definitions

* `Task`, `System`: the fields of `struct task_struct` that matter here, and the variables.
* `System.copyProcess`, `System.scan`, `System.doKill`, …: the functions.
* `Section`: what the kernel does up to the next call of `schedule`.
* `Step`: a section, and the call of `schedule` that it ends with, if it does.

## Main results

* `Section.task_eq`: a section changes every task by itself, besides filling or freeing a slot.
* `schedule_stirs`: what `schedule` may do to a task.
* `Step.turn`: what a step may do.
-/

namespace Linux001.Processes

open Sched (TaskState)
open Signals (Word WaitpidSelects sigBit)

/-! ### Tasks -/

/-- Where a process goes on when it runs next: in user mode or in a system call that is not modelled
here, at the label `repeat` of `sys_waitpid`, after the call of `sys_pause` there, or in `do_exit`
after the loop over the children. -/
inductive Place
  | user
  | scanning (pid options : Word)
  | waiting (pid options : Word)
  | exiting (code : Word)
  deriving DecidableEq

/-- The fields of `struct task_struct` that are used here, and where the process goes on. -/
structure Task extends Sched.Task where
  exitCode : Word
  pid : Word
  father : Word
  pgrp : Word
  session : Word
  leader : Bool
  uid : ℕ
  euid : ℕ
  utime : Word
  stime : Word
  cutime : Word
  cstime : Word
  startTime : Word
  tty : ℤ
  place : Place

/-- The fields that `do_kill` and `sys_waitpid` look at. -/
def Task.process (p : Task) : Signals.Process := ⟨p.pid, p.pgrp, p.uid, p.euid, p.signal.toBitVec⟩

/-- `p->signal |= 1<<(sig-1)`. -/
def Task.raise (p : Task) (sig : Word) : Task :=
  { p with signal := ⟨p.signal.toBitVec ||| sigBit sig⟩ }

/-- `SIGCHLD`. -/
def sigchld : Word := 17

/-- `WNOHANG`. -/
def wnohang : Word := 1

/-- `task`, the slot of `current`, `jiffies`, `last_pid`, and the field `pgrp` of `tty_table`. -/
structure System where
  task : ℕ → Option Task
  current : ℕ
  jiffies : Word
  lastPid : Word
  ttyPgrp : ℤ → Word

/-- `INIT_TASK`. -/
def initTask : Task :=
  { state := .running, counter := 15, priority := 15, signal := 0, alarm := 0, exitCode := 0,
    pid := 0, father := -1, pgrp := 0, session := 0, leader := false, uid := 0, euid := 0,
    utime := 0, stime := 0, cutime := 0, cstime := 0, startTime := 0, tty := -1, place := .user }

/-- The state in which task 0 begins to run. -/
def boot : System :=
  { task := fun i => if i = 0 then some initTask else none, current := 0, jiffies := 0,
    lastPid := 0, ttyPgrp := fun _ => 0 }

/-! ### The functions -/

/-- `++last_pid`, and `last_pid=1` if it is negative. -/
def nextPid (p : Word) : Word := if (p + 1).toInt < 0 then 1 else p + 1

/-- `do_timer` up to the call of `schedule`: one tick more, and one less of the time slice. -/
def Task.doTimer (cpl : Bool) (p : Task) : Task :=
  let p := if cpl then { p with utime := p.utime + 1 } else { p with stime := p.stime + 1 }
  { p with counter := if p.counter - 1 > 0 then p.counter - 1 else 0 }

namespace System

variable (s : System)

/-- The process `p` in the slot of `current` is changed to `f p`. -/
def updateCurrent (f : Task → Task) : System :=
  { s with task := Function.update s.task s.current ((s.task s.current).map f) }

/-- `task[i] && task[i]->pid == last_pid` for some slot. -/
def pidUsed (p : Word) : Bool := (List.range 64).any fun i => (s.task i).any fun q => q.pid == p

/-- The first loop of `find_empty_process`, for a given number of turns. -/
def freshPid : ℕ → Word → Option Word
  | 0, _ => none
  | n + 1, p => if s.pidUsed (nextPid p) then freshPid n (nextPid p) else some (nextPid p)

/-- The second loop of `find_empty_process`. -/
def freeSlot : Option ℕ := (List.range' 1 63).find? fun i => (s.task i).isNone

/-- The structure that `copy_process` makes of a copy of that of the calling process `p`. -/
def childOf (p : Task) : Task :=
  { p with
    state := .running
    pid := s.lastPid
    father := p.pid
    counter := p.priority
    signal := 0
    alarm := 0
    leader := false
    utime := 0
    stime := 0
    cutime := 0
    cstime := 0
    startTime := s.jiffies
    place := .user }

/-- `copy_process(nr, …)`, called by `p`. -/
def copyProcess (nr : ℕ) (p : Task) : System :=
  { s with task := Function.update s.task nr (some (s.childOf p)) }

/-- The loop of `do_exit` over the children of the process `pid`. -/
def orphan (pid : Word) : System :=
  { s with task := fun i => (s.task i).map fun q =>
      if q.father = pid then { q with father := 0 } else q }

/-- The signal bits that a loop over the table has left are put into the tasks. -/
def setSignals (t : Signals.Table) : System :=
  { s with task := fun i => (s.task i).map fun p =>
      { p with signal := ((t i).map fun q => (⟨q.signal⟩ : UInt32)).getD p.signal } }

/-- `do_kill(pid, sig, priv)`, called by `p`. -/
def doKill (p : Task) (pid sig : Word) (priv : Bool) : System :=
  s.setSignals
    (Signals.doKill p.process pid sig priv fun i => (s.task i).map Task.process)

/-- `sys_kill(pid, sig)`, called by `p`. -/
def sysKill (p : Task) (pid sig : Word) : System :=
  s.setSignals (Signals.sysKill p.process pid sig fun i => (s.task i).map Task.process)

/-- `tty_intr`. -/
def ttyIntr (tty : ℤ) (sig : Word) : System :=
  if (s.ttyPgrp tty).toInt ≤ 0 then s
  else { s with task := fun i => (s.task i).map fun p =>
    if p.pgrp = s.ttyPgrp tty then p.raise sig else p }

/-- `do_exit`: the terminal of an exiting session leader has no group in the foreground. -/
def hangUp (p : Task) : System :=
  if p.leader ∧ 0 ≤ p.tty then { s with ttyPgrp := Function.update s.ttyPgrp p.tty 0 } else s

/-- The end of `do_exit` for a process `p` with a father, with `SIGCHLD` for the father. -/
def becomeZombie (p : Task) (code : Word) : System :=
  (((s.hangUp p).updateCurrent fun p => { p with state := .zombie }).doKill p p.father sigchld
    true).updateCurrent fun p => { p with exitCode := code }

/-- `release`, up to the call of `schedule`. -/
def release (i : ℕ) : System := { s with task := Function.update s.task i none }

/-- What the loop of `sys_waitpid` ends with: a child that has exited, no such child though there
are children, or no child. -/
inductive Found
  | zombie (i : ℕ)
  | children
  | nothing

/-- The loop of `sys_waitpid(pid, …)`, called by `p`, over the slots `n` to 1, in this order, with
the value of `flag`. -/
def scan (p : Task) (pid : Word) : ℕ → Bool → Found
  | 0, flag => if flag then .children else .nothing
  | i + 1, flag =>
    match s.task (i + 1) with
    | none => scan p pid i flag
    | some q =>
      if i + 1 ≠ s.current ∧ WaitpidSelects p.process pid q.process ∧ q.father = p.pid then
        if q.state = .zombie then .zombie (i + 1) else scan p pid i true
      else scan p pid i flag

/-- `sys_waitpid` has found the child `q` that has exited, in the slot `i`. -/
def reap (i : ℕ) (q : Task) : System :=
  (s.updateCurrent fun p =>
    { p with cutime := p.cutime + q.utime, cstime := p.cstime + q.stime, place := .user }).release i

/-- `sys_setsid()`, called by `p`, when it succeeds. -/
def sysSetsid (p : Task) : Option System :=
  if p.uid ≠ 0 ∧ p.euid ≠ 0 then none
  else if p.leader then none
  else some <| s.updateCurrent fun p =>
    { p with leader := true, session := p.pid, pgrp := p.pid, tty := -1 }

/-- `sys_setpgid(pid, pgid)`, called by `p`, when it succeeds. -/
def sysSetpgid (p : Task) (pid pgid : Word) : Option System :=
  let pid := if pid = 0 then p.pid else pid
  let pgid := if pgid = 0 then pid else pgid
  ((List.range 64).find? fun i => (s.task i).any fun q => q.pid == pid).bind fun i =>
    (s.task i).bind fun q =>
      if q.leader then none
      else if q.session ≠ p.session then none
      else some { s with task := Function.update s.task i (some { q with pgrp := pgid }) }

/-- `sys_open` of the terminal with the given minor number, by `p`. -/
def openTty (p : Task) (minor : ℕ) : System :=
  if p.leader ∧ p.tty < 0 then
    { s.updateCurrent fun p => { p with tty := minor } with
      ttyPgrp := Function.update s.ttyPgrp minor p.pgrp }
  else s

/-- `schedule()`, when its loop ends within `n` turns. -/
def schedule (n : ℕ) : Option System :=
  (Sched.Table.schedule n (.ofBitVec s.jiffies) fun i => (s.task i).map Task.toTask).map
    fun (t, next) =>
      { s with
        task := fun i => (s.task i).map fun p => { p with toTask := (t i).getD p.toTask }
        current := next }

end System

/-! ### Steps -/

/-- What happens in a section. -/
inductive Event
  | tick (cpl : Bool)
  | fork (nr : ℕ) (pid : Word)
  | forkFails (pid : Word)
  | exit (code : Word)
  | sleep (state : TaskState)
  | zombie (pid father code : Word)
  | vanish (pid : Word)
  | waitpid (pid options : Word)
  | reap (i : ℕ) (pid father code : Word)
  | pause
  | waitpidFails
  | resume
  | wakeUp (i : ℕ)
  | kill (pid sig : Word)
  | ttyIntr (tty : ℤ) (sig : Word)
  | own (signal : UInt32) (alarm priority : Int32) (uid euid : ℕ)
  | setsid
  | setpgid (pid pgid : Word)
  | openTty (minor : ℕ)
  | setTtyPgrp (tty : ℤ) (pgrp : Word)

/-- What the kernel does from the state `s` on while the process `p` is the current one, up to the
state `s'`; it calls `schedule` then if the last argument is true.

* `tick`: the clock interrupt, from user mode if `cpl` is true.
* `fork`, `forkFails`: `sys_fork` with a free slot `nr` and enough memory, or without.
* `exit`, `zombie`, `vanish`: `do_exit` up to the loop over the open files, in which it may sleep,
  and its end with or without a father. Task 0 does not exit, wait or begin a session: it only
  pauses.
* `sleep`: `sys_pause`, `sleep_on` or `interruptible_sleep_on`, called by code that is not modelled
  here, or by `do_exit`.
* `waitpid`, `reap`, `pause`, `waitpidFails`, `resume`: the parts of `sys_waitpid`.
* `wakeUp`: `wake_up`, or the end of `sleep_on`, for a process that has not exited.
* `own`: other changes of fields by the process itself, as in `do_signal`, `sys_alarm`, `sys_nice`,
  `sys_setuid` or `tty_read`.
* `setTtyPgrp`: `TIOCSPGRP`. -/
inductive Section (s : System) (p : Task) : Event → System → Bool → Prop
  | tick (cpl : Bool) (hplace : cpl = true → p.place = .user) :
      Section s p (.tick cpl)
        { s.updateCurrent (Task.doTimer cpl) with jiffies := s.jiffies + 1 }
        (cpl && !decide (p.counter - 1 > 0))
  | fork {n nr : ℕ} {pid : Word} (hplace : p.place = .user)
      (hpid : s.freshPid n s.lastPid = some pid) (hnr : s.freeSlot = some nr) :
      Section s p (.fork nr pid) (System.copyProcess { s with lastPid := pid } nr p) false
  | forkFails {n : ℕ} {pid : Word} (hplace : p.place = .user)
      (hpid : s.freshPid n s.lastPid = some pid) :
      Section s p (.forkFails pid) { s with lastPid := pid } false
  | exit (code : Word) (hplace : p.place = .user) (hslot : s.current ≠ 0) :
      Section s p (.exit code)
        ((s.orphan p.pid).updateCurrent fun p => { p with place := .exiting code }) false
  | sleep (state : TaskState) (hplace : p.place = .user ∨ ∃ code, p.place = .exiting code)
      (hstate : state = .interruptible ∨ state = .uninterruptible) :
      Section s p (.sleep state) (s.updateCurrent fun p => { p with state := state }) true
  | zombie {code : Word} (hplace : p.place = .exiting code) (hfather : p.father ≠ 0) :
      Section s p (.zombie p.pid p.father code) (s.becomeZombie p code) true
  | vanish {code : Word} (hplace : p.place = .exiting code) (hfather : p.father = 0) :
      Section s p (.vanish p.pid) ((s.hangUp p).release s.current) true
  | waitpid (pid options : Word) (hplace : p.place = .user) (hslot : s.current ≠ 0) :
      Section s p (.waitpid pid options)
        (s.updateCurrent fun p => { p with place := .scanning pid options }) false
  | reap {pid options : Word} {i : ℕ} {q : Task} (hplace : p.place = .scanning pid options)
      (hscan : s.scan p pid 63 false = .zombie i) (hq : s.task i = some q) :
      Section s p (.reap i q.pid p.pid q.exitCode) (s.reap i q) true
  | pause {pid options : Word} (hplace : p.place = .scanning pid options)
      (hscan : s.scan p pid 63 false = .children) (hoptions : options &&& wnohang = 0) :
      Section s p .pause
        (s.updateCurrent fun p =>
          { p with place := .waiting pid options, state := .interruptible }) true
  | waitpidFails {pid options : Word} (hplace : p.place = .scanning pid options)
      (hscan : s.scan p pid 63 false = .nothing ∨
        s.scan p pid 63 false = .children ∧ options &&& wnohang ≠ 0) :
      Section s p .waitpidFails (s.updateCurrent fun p => { p with place := .user }) false
  | resume {pid options : Word} (hplace : p.place = .waiting pid options) :
      Section s p .resume
        (s.updateCurrent fun p =>
          let p := { p with signal := ⟨p.signal.toBitVec &&& ~~~sigBit sigchld⟩ }
          { p with place := if p.signal = 0 then .scanning pid options else .user }) false
  | wakeUp {i : ℕ} {q : Task} (hq : s.task i = some q) (hstate : q.state ≠ .zombie) :
      Section s p (.wakeUp i)
        { s with task := Function.update s.task i (some { q with state := .running }) } false
  | kill (pid sig : Word) (hplace : p.place = .user) :
      Section s p (.kill pid sig) (s.sysKill p pid sig) false
  | ttyIntr (tty : ℤ) (sig : Word) : Section s p (.ttyIntr tty sig) (s.ttyIntr tty sig) false
  | own (signal : UInt32) (alarm priority : Int32) (uid euid : ℕ) (hplace : p.place = .user) :
      Section s p (.own signal alarm priority uid euid)
        (s.updateCurrent fun p =>
          { p with
            signal := signal
            alarm := alarm
            priority := priority
            uid := uid
            euid := euid })
        false
  | setsid {s' : System} (hplace : p.place = .user) (hslot : s.current ≠ 0)
      (h : s.sysSetsid p = some s') : Section s p .setsid s' false
  | setpgid {s' : System} (pid pgid : Word) (hplace : p.place = .user)
      (h : s.sysSetpgid p pid pgid = some s') : Section s p (.setpgid pid pgid) s' false
  | openTty (minor : ℕ) (hplace : p.place = .user) :
      Section s p (.openTty minor) (s.openTty p minor) false
  | setTtyPgrp (tty : ℤ) (pgrp : Word) (hplace : p.place = .user) :
      Section s p (.setTtyPgrp tty pgrp)
        { s with ttyPgrp := Function.update s.ttyPgrp tty pgrp } false

/-- A section of the current process, and `schedule` if it ends with it. An event carries the slot
of the process. -/
def Step (s : System) (e : ℕ × Event) (s' : System) : Prop :=
  e.1 = s.current ∧ ∃ p s₁ b, s.task s.current = some p ∧ Section s p e.2 s₁ b ∧
    (b = false ∧ s' = s₁ ∨ b = true ∧ ∃ n, s₁.schedule n = some s')

/-! ### What a section does to a task -/

/-- The event frees the slot `i`, when the current process is in the slot `c`. -/
def Event.frees (c i : ℕ) : Event → Bool
  | .vanish _ => i == c
  | .reap j _ _ _ => i == j
  | _ => false

/-- The slot that `sys_setpgid(pid, …)`, called by `p`, finds. -/
def System.slotOf (s : System) (p : Task) (pid : Word) : Option ℕ :=
  (List.range 64).find? fun i => (s.task i).any fun q => q.pid == if pid = 0 then p.pid else pid

/-- What a section of the process `p` does to the process `q` in the slot `i`. -/
def effect (s : System) (p : Task) (i : ℕ) (q : Task) : Event → Task
  | .tick cpl => if i = s.current then q.doTimer cpl else q
  | .fork _ _ | .forkFails _ | .vanish _ | .setTtyPgrp _ _ => q
  | .exit code =>
    let q := if q.father = p.pid then { q with father := 0 } else q
    if i = s.current then { q with place := .exiting code } else q
  | .sleep state => if i = s.current then { q with state := state } else q
  | .zombie _ father code =>
    let q := if Signals.Slot i ∧ Signals.KillSelects p.process father q.process then q.raise sigchld
      else q
    if i = s.current then { q with state := .zombie, exitCode := code } else q
  | .waitpid pid options =>
    if i = s.current then { q with place := .scanning pid options } else q
  | .reap j _ _ _ =>
    if i = s.current then
      { q with
        cutime := q.cutime + ((s.task j).map Task.utime).getD 0
        cstime := q.cstime + ((s.task j).map Task.stime).getD 0
        place := .user }
    else q
  | .pause =>
    if i = s.current then
      { q with
        place := match q.place with
          | .scanning pid options => .waiting pid options
          | place => place
        state := .interruptible }
    else q
  | .waitpidFails => if i = s.current then { q with place := .user } else q
  | .resume =>
    if i = s.current then
      let q := { q with signal := ⟨q.signal.toBitVec &&& ~~~sigBit sigchld⟩ }
      { q with
        place := if q.signal = 0 then
            match q.place with
            | .waiting pid options => .scanning pid options
            | place => place
          else .user }
    else q
  | .wakeUp j => if i = j then { q with state := .running } else q
  | .kill pid sig =>
    if Signals.Slot i ∧ ¬(sig.toInt < 1 ∨ 32 < sig.toInt) ∧
        Signals.KillSelects p.process pid q.process ∧
        Signals.MaySignal p.process (p.uid = 0 ∧ p.euid = 0) q.process then q.raise sig
    else q
  | .ttyIntr tty sig =>
    if 0 < (s.ttyPgrp tty).toInt ∧ q.pgrp = s.ttyPgrp tty then q.raise sig else q
  | .own signal alarm priority uid euid =>
    if i = s.current then
      { q with signal := signal, alarm := alarm, priority := priority, uid := uid, euid := euid }
    else q
  | .setsid =>
    if i = s.current then
      { q with leader := true, session := q.pid, pgrp := q.pid, tty := -1 }
    else q
  | .setpgid pid pgid =>
    let pid' := if pid = 0 then p.pid else pid
    if s.slotOf p pid = some i then { q with pgrp := if pgid = 0 then pid' else pgid } else q
  | .openTty minor =>
    if i = s.current ∧ q.leader ∧ q.tty < 0 then { q with tty := minor } else q

/-- The task that an event puts into the slot `i`. -/
def filled (s : System) (p : Task) (i : ℕ) : Event → Option Task
  | .fork nr pid => if i = nr then some (System.childOf { s with lastPid := pid } p) else none
  | _ => none

/-- What is in the slot `i` at the end of a section of the process `p`. -/
def after (s : System) (p : Task) (e : Event) (i : ℕ) : Option Task :=
  if e.frees s.current i then none else filled s p i e <|> (s.task i).map fun q => effect s p i q e

variable {s s' s₁ : System} {p q q' : Task} {e : Event} {b : Bool} {i c : ℕ}

theorem updateCurrent_task (s : System) (f : Task → Task) (i : ℕ) :
    (s.updateCurrent f).task i = (s.task i).map fun q => if i = s.current then f q else q := by
  change Function.update s.task s.current _ i = _
  rw [Function.update_apply]
  split_ifs with hi
  · rw [hi]
  · exact Option.map_id'.symm

theorem hangUp_task (s : System) (p : Task) : (s.hangUp p).task = s.task := by
  rw [System.hangUp]
  split_ifs <;> rfl

theorem hangUp_current (s : System) (p : Task) : (s.hangUp p).current = s.current := by
  rw [System.hangUp]
  split_ifs <;> rfl

/-- A number that is not that of a signal is not sent. -/
theorem doKill_of_not_signal {current : Signals.Process} {pid sig : Word} {priv : Bool}
    (h : sig.toInt < 1 ∨ 32 < sig.toInt) (t : Signals.Table) :
    Signals.doKill current pid sig priv t = t := by
  have hsend (c : Signals.Process → Prop) [DecidablePred c] :
      Signals.forTasks (fun p => if c p then Signals.sendSig current sig priv p else p) 63 t =
        t := by
    funext i
    rw [Signals.forTasks_apply]
    split_ifs
    · simp only [Signals.sendSig, if_pos h, ite_self, Option.map_id']
    · rfl
  rw [Signals.doKill]
  split_ifs
  · exact hsend _
  · exact hsend _
  · simpa using hsend fun _ => True
  · exact hsend _

/-- What `do_kill` does to a task. -/
theorem doKill_task (s : System) (p : Task) (pid sig : Word) (priv : Bool) (i : ℕ) :
    (s.doKill p pid sig priv).task i = (s.task i).map fun q =>
      if Signals.Slot i ∧ ¬(sig.toInt < 1 ∨ 32 < sig.toInt) ∧
        Signals.KillSelects p.process pid q.process ∧ Signals.MaySignal p.process priv q.process
      then q.raise sig else q := by
  change (s.task i).map _ = _
  refine Option.map_congr fun q hq => ?_
  by_cases hsig : sig.toInt < 1 ∨ 32 < sig.toInt
  · rw [doKill_of_not_signal hsig, if_neg fun hc => hc.2.1 hsig, hq]
    rfl
  · rw [Signals.doKill_apply (by omega) (by omega), hq]
    by_cases hi : Signals.Slot i
    · rw [if_pos hi]
      by_cases hc : Signals.KillSelects p.process pid q.process ∧
          Signals.MaySignal p.process priv q.process
      · rw [if_pos ⟨hi, hsig, hc⟩]
        simp only [Option.map_some, if_pos hc]
        rfl
      · rw [if_neg fun hall => hc hall.2.2]
        simp only [Option.map_some, if_neg hc]
        rfl
    · rw [if_neg hi, if_neg fun hall => hi hall.1]
      rfl

theorem sysSetpgid_eq_some {pid pgid : Word} (h : s.sysSetpgid p pid pgid = some s') :
    ∃ j r, s.slotOf p pid = some j ∧ s.task j = some r ∧ r.leader = false ∧
      r.session = p.session ∧
      s' = { s with
        task := Function.update s.task j (some (effect s p j r (.setpgid pid pgid))) } := by
  obtain ⟨j, hj, h⟩ := Option.bind_eq_some_iff.mp h
  obtain ⟨r, hr, h⟩ := Option.bind_eq_some_iff.mp h
  by_cases hleader : r.leader = true
  · rw [if_pos hleader] at h
    cases h
  by_cases hsession : r.session = p.session
  swap
  · rw [if_neg hleader, if_pos hsession] at h
    cases h
  rw [if_neg hleader, if_neg (not_not.mpr hsession)] at h
  refine ⟨j, r, hj, hr, Bool.not_eq_true _ ▸ hleader, hsession, ?_⟩
  rw [← Option.some.inj h, effect, if_pos (show s.slotOf p pid = some j from hj)]

theorem sysSetsid_eq_some (h : s.sysSetsid p = some s') : p.leader = false ∧
    s' = s.updateCurrent fun p =>
      { p with leader := true, session := p.pid, pgrp := p.pid, tty := -1 } := by
  rw [System.sysSetsid] at h
  by_cases huid : p.uid ≠ 0 ∧ p.euid ≠ 0
  · rw [if_pos huid] at h
    cases h
  by_cases hleader : p.leader = true
  · rw [if_neg huid, if_pos hleader] at h
    cases h
  rw [if_neg huid, if_neg hleader] at h
  exact ⟨Bool.not_eq_true _ ▸ hleader, (Option.some.inj h).symm⟩

/-- A slot is given a task that has been made of the one in it. -/
theorem update_eq_map (t : ℕ → Option Task) {j : ℕ} {r : Task} (hr : t j = some r)
    (f : ℕ → Task → Task) (hf : ∀ i q, i ≠ j → f i q = q) (i : ℕ) :
    Function.update t j (some (f j r)) i = (t i).map (f i) := by
  rcases eq_or_ne i j with rfl | hi
  · rw [Function.update_self, hr]
    rfl
  · rw [Function.update_of_ne hi, Option.map_congr fun q _ => hf i q hi]
    exact Option.map_id'.symm

theorem becomeZombie_task (s : System) (p : Task) (code : Word) (i : ℕ) :
    (s.becomeZombie p code).task i =
      (s.task i).map fun q => effect s p i q (.zombie p.pid p.father code) := by
  have hsig : ¬(sigchld.toInt < 1 ∨ 32 < sigchld.toInt) := by decide
  have hmay (q : Signals.Process) : Signals.MaySignal p.process true q := .inl rfl
  rw [System.becomeZombie, updateCurrent_task, doKill_task, updateCurrent_task, hangUp_task,
    Option.map_map, Option.map_map]
  refine Option.map_congr fun q _ => ?_
  have hcurrent : (((s.hangUp p).updateCurrent fun p => { p with state := .zombie }).doKill p
      p.father sigchld true).current = s.current := hangUp_current s p
  simp only [Function.comp_apply, effect, hcurrent, hangUp_current, hsig, hmay, not_false_iff,
    true_and, and_true]
  by_cases hi : i = s.current
  · simp only [if_pos hi]
    by_cases hk : Signals.Slot i ∧ Signals.KillSelects p.process p.father q.process
    · have hk' : Signals.Slot i ∧ Signals.KillSelects p.process p.father
          ({ q with state := .zombie } : Task).process := hk
      simp only [if_pos hk, if_pos hk']
      rfl
    · have hk' : ¬(Signals.Slot i ∧ Signals.KillSelects p.process p.father
          ({ q with state := .zombie } : Task).process) := hk
      simp only [if_neg hk, if_neg hk']
  · simp only [if_neg hi]

theorem openTty_task (hp : s.task s.current = some p) (minor i : ℕ) :
    (s.openTty p minor).task i = (s.task i).map fun q => effect s p i q (.openTty minor) := by
  have hself {q : Task} (hq : s.task i = some q) (hi : i = s.current) : q = p :=
    Option.some.inj (hq.symm.trans (hi ▸ hp))
  rw [System.openTty]
  by_cases hc : p.leader ∧ p.tty < 0
  · rw [if_pos hc]
    change (s.updateCurrent _).task i = (s.task i).map _
    rw [updateCurrent_task]
    refine Option.map_congr fun q hq => ?_
    by_cases hi : i = s.current
    · rw [effect, if_pos hi, if_pos ⟨hi, hself hq hi ▸ hc⟩]
    · rw [effect, if_neg hi, if_neg fun h => hi h.1]
  · rw [if_neg hc]
    change _ = (s.task i).map _
    cases hq : s.task i with
    | none => rfl
    | some q =>
      have hnot : ¬(i = s.current ∧ q.leader ∧ q.tty < 0) := fun h => hc (hself hq h.1 ▸ h.2)
      rw [Option.map_some, effect, if_neg hnot]

/-- A section changes every task by itself, but for a slot that it fills or frees. -/
theorem Section.task_eq (h : Section s p e s' b) (hp : s.task s.current = some p) (i : ℕ) :
    s'.task i = after s p e i := by
  rw [after]
  have hself {q : Task} (hq : s.task i = some q) (hi : i = s.current) : q = p :=
    Option.some.inj (hq.symm.trans (hi ▸ hp))
  cases h with
  | tick cpl => exact updateCurrent_task s _ i
  | @fork n nr pid _ _ _ =>
    change Function.update s.task nr _ i = _
    rw [Function.update_apply]
    simp only [Event.frees, filled, effect, Bool.false_eq_true, if_false, Option.map_id']
    split_ifs <;> rfl
  | forkFails _ _ => exact Option.map_id'.symm
  | exit code =>
    rw [updateCurrent_task]
    exact Option.map_map _ _ _
  | sleep state => exact updateCurrent_task s _ i
  | @zombie code _ _ => exact becomeZombie_task s p code i
  | vanish _ _ =>
    change Function.update (s.hangUp p).task s.current none i = _
    rw [Function.update_apply, hangUp_task]
    simp only [Event.frees, filled, effect, beq_iff_eq, Option.map_id']
    split_ifs <;> rfl
  | waitpid pid options _ _ => exact updateCurrent_task s _ i
  | @reap _ _ j q _ _ hq =>
    change Function.update (s.updateCurrent _).task j none i = _
    rw [Function.update_apply, updateCurrent_task]
    simp only [Event.frees, filled, effect, hq, beq_iff_eq, Option.map_some, Option.getD_some]
    rfl
  | pause hplace _ _ | resume hplace =>
    rw [updateCurrent_task]
    refine Option.map_congr fun q hq => ?_
    by_cases hi : i = s.current
    · simp only [effect, if_pos hi, hself hq hi, hplace]
    · simp only [effect, if_neg hi]
  | waitpidFails _ _ => exact updateCurrent_task s _ i
  | @wakeUp j r hr _ =>
    have heffect : effect s p j r (.wakeUp j) = { r with state := .running } := if_pos rfl
    change Function.update s.task j _ i = (s.task i).map _
    rw [← heffect]
    exact update_eq_map s.task hr (fun i q => effect s p i q (.wakeUp j))
      (fun i q hi => if_neg hi) i
  | kill pid sig => exact doKill_task s p pid sig _ i
  | ttyIntr tty sig =>
    rw [System.ttyIntr]
    by_cases hpgrp : (s.ttyPgrp tty).toInt ≤ 0
    · simp only [if_pos hpgrp, Event.frees, filled, effect, not_lt.mpr hpgrp, false_and, if_false]
      exact Option.map_id'.symm
    · simp only [if_neg hpgrp, Event.frees, filled, effect, not_le.mp hpgrp, true_and]
      rfl
  | own _ _ _ _ _ => exact updateCurrent_task s _ i
  | setsid _ _ h =>
    rw [(sysSetsid_eq_some h).2]
    exact updateCurrent_task s _ i
  | setpgid pid pgid _ h =>
    obtain ⟨j, r, hj, hr, -, -, rfl⟩ := sysSetpgid_eq_some h
    refine update_eq_map s.task hr (fun i q => effect s p i q (.setpgid pid pgid))
      (fun i q hi => ?_) i
    exact if_neg fun hc => hi (Option.some.inj (hc.symm.trans hj))
  | openTty minor => exact openTty_task hp minor i
  | setTtyPgrp _ _ _ => exact Option.map_id'.symm

/-! ### What `schedule` does to a task -/

/-- `schedule` may wake up a process that sleeps interruptibly, and takes no signal away. -/
structure Stirs (q q' : Sched.Task) : Prop where
  state : q'.state = q.state ∨ q.state = .interruptible ∧ q'.state = .running
  signal : ∀ k, q.signal.toBitVec.getLsbD k = true → q'.signal.toBitVec.getLsbD k = true

namespace Stirs

variable {q q' q'' : Sched.Task}

theorem refl (q : Sched.Task) : Stirs q q := ⟨.inl rfl, fun _ h => h⟩

theorem awake (h : Stirs q q') (hq : q.state ≠ .interruptible) : q'.state = q.state :=
  h.state.resolve_right fun hwoken => hq hwoken.1

theorem zombie (h : Stirs q q') : q'.state = .zombie ↔ q.state = .zombie := by
  rcases h.state with hstate | ⟨hq, hq'⟩
  · rw [hstate]
  · rw [hq, hq']
    exact iff_of_false (by decide) (by decide)

theorem trans (h : Stirs q q') (h' : Stirs q' q'') : Stirs q q'' := by
  refine ⟨?_, fun k hk => h'.signal k (h.signal k hk)⟩
  rcases h.state with hstate | ⟨hq, hq'⟩
  · rw [← hstate]
    exact h'.state
  · refine .inr ⟨hq, (h'.awake ?_).trans hq'⟩
    rw [hq']
    decide

end Stirs

theorem stirs_wakeUp (jiffies : Int32) (q : Sched.Task) : Stirs q (q.wakeUp jiffies) := by
  have hor (x y : UInt32) (k : ℕ) (h : x.toBitVec.getLsbD k = true) :
      (x ||| y).toBitVec.getLsbD k = true := by
    rw [UInt32.toBitVec_or, BitVec.getLsbD_or, h, Bool.true_or]
  have hfirst : Stirs q (if q.alarm ≠ 0 ∧ q.alarm < jiffies then
      { q with signal := q.signal ||| (1 : UInt32) <<< (14 - 1), alarm := 0 } else q) := by
    split_ifs
    · exact ⟨.inl rfl, hor _ _⟩
    · exact .refl q
  have hsecond (r : Sched.Task) : Stirs r (if r.signal ≠ 0 ∧ r.state = .interruptible then
      { r with state := .running } else r) := by
    split_ifs with hrun
    · exact ⟨.inr ⟨hrun.2, rfl⟩, fun _ h => h⟩
    · exact .refl r
  exact hfirst.trans (hsecond _)

/-- A signal wakes up. -/
theorem wakeUp_awake {jiffies : Int32} {q : Sched.Task} (hq : q.signal ≠ 0) :
    (q.wakeUp jiffies).state ≠ .interruptible := by
  rw [Sched.Task.wakeUp_state]
  split_ifs with hrun
  · decide
  · exact fun hstate => hrun ⟨.inr hq, hstate⟩

/-- The tables differ by changes of the tasks, each by itself. -/
def Stirred (t t' : Sched.Table) : Prop :=
  ∃ f : ℕ → Sched.Task → Sched.Task, (∀ i, t' i = (t i).map (f i)) ∧ ∀ i q, Stirs q (f i q)

theorem Stirred.trans {t t' t'' : Sched.Table} (h : Stirred t t') (h' : Stirred t' t'') :
    Stirred t t'' := by
  obtain ⟨f, hf, hstir⟩ := h
  obtain ⟨g, hg, hstir'⟩ := h'
  refine ⟨fun i q => g i (f i q), fun i => ?_, fun i q => (hstir i q).trans (hstir' i _)⟩
  rw [hg, hf, Option.map_map]
  rfl

/-- A loop over the table. -/
theorem stirred_ite {t t' : Sched.Table} {f : Sched.Task → Sched.Task} (hf : ∀ q, Stirs q (f q))
    (h : ∀ i, t' i = if Sched.Table.Slot i then (t i).map f else t i) : Stirred t t' := by
  refine ⟨fun i => if Sched.Table.Slot i then f else fun q => q, fun i => ?_, fun i q => ?_⟩ <;>
    by_cases hi : Sched.Table.Slot i
  · simp only [h, if_pos hi]
  · simp only [h, if_neg hi, Option.map_id']
  · simpa only [if_pos hi] using hf q
  · simpa only [if_neg hi] using Stirs.refl q

theorem stirred_select {n : ℕ} {t t' : Sched.Table} {next : ℕ}
    (h : Sched.Table.select n t = some (t', next)) :
    Stirred t t' ∧ (next = 0 ∨ ∃ q, t'.Running next q) := by
  induction n generalizing t with
  | zero => cases h
  | succ n ih =>
    rw [Sched.Table.select_succ] at h
    split_ifs at h
    · obtain ⟨rfl, rfl⟩ := Prod.mk.inj (Option.some.inj h)
      refine ⟨⟨fun _ => id, fun i => Option.map_id'.symm, fun i q => .refl q⟩, ?_⟩
      exact (Sched.Table.scan_all t).found.imp And.right fun ⟨q, hq, _⟩ => ⟨q, hq⟩
    · obtain ⟨hstirred, hnext⟩ := ih h
      have hrecompute (q : Sched.Task) : Stirs q q.recompute := ⟨.inl rfl, fun _ h => h⟩
      exact ⟨(stirred_ite hrecompute (Sched.Table.recompute_apply t)).trans hstirred, hnext⟩

/-- What `schedule` may do to the tasks, and what it switches to. -/
theorem schedule_stirs {n : ℕ} (h : s.schedule n = some s') :
    ∃ f : ℕ → Sched.Task → Sched.Task,
      (∀ i, s'.task i = (s.task i).map fun q => { q with toTask := f i q.toTask }) ∧
      (∀ i q, Stirs q (f i q)) ∧
      (∀ i q, Sched.Table.Slot i → q.signal ≠ 0 → (f i q).state ≠ .interruptible) ∧
      s'.jiffies = s.jiffies ∧ s'.lastPid = s.lastPid ∧ s'.ttyPgrp = s.ttyPgrp ∧
      (s'.current = 0 ∨ ∃ q, s'.task s'.current = some q ∧ q.state = .running) := by
  obtain ⟨⟨t', next⟩, hschedule, rfl⟩ := Option.map_eq_some_iff.mp h
  obtain ⟨⟨g, hg, hstir⟩, hnext⟩ := stirred_select hschedule
  let jiffies : Int32 := .ofBitVec s.jiffies
  let f (i : ℕ) (q : Sched.Task) : Sched.Task :=
    g i (if Sched.Table.Slot i then q.wakeUp jiffies else q)
  have hf (i : ℕ) : t' i = ((s.task i).map Task.toTask).map (f i) := by
    rw [hg, Sched.Table.wakeUp_apply]
    by_cases hi : Sched.Table.Slot i
    · simp only [f, if_pos hi, Option.map_map]
      rfl
    · simp only [f, if_neg hi]
  have htask (i : ℕ) : ((s.task i).map fun q : Task => { q with toTask := (t' i).getD q.toTask }) =
      (s.task i).map fun q => { q with toTask := f i q.toTask } := by
    refine Option.map_congr fun q hq => ?_
    simp only [hf, hq, Option.map_some, Option.getD_some]
  refine ⟨f, htask, fun i q => ?_, fun i q hi hq => ?_, rfl, rfl, rfl,
    hnext.imp_right fun ⟨r, hr⟩ => ?_⟩
  · refine Stirs.trans ?_ (hstir i _)
    split_ifs
    · exact stirs_wakeUp jiffies q
    · exact .refl q
  · have hawake : (q.wakeUp jiffies).state ≠ .interruptible := wakeUp_awake hq
    simp only [f, if_pos hi]
    rwa [(hstir i _).awake hawake]
  · dsimp only
    obtain ⟨q, hq, hqr⟩ : ∃ q, s.task next = some q ∧ f next q.toTask = r := by
      have hr' := hr.2.1
      rw [hf, Option.map_map] at hr'
      exact Option.map_eq_some_iff.mp hr'
    exact ⟨_, (htask next).trans (congrArg _ hq), (congrArg Sched.Task.state hqr).trans hr.2.2⟩

/-! ### What a step does -/

theorem Section.current_eq (h : Section s p e s' b) : s'.current = s.current := by
  cases h with
  | zombie _ _ => exact hangUp_current s p
  | vanish _ _ => exact hangUp_current s p
  | ttyIntr tty sig =>
    rw [System.ttyIntr]
    split_ifs <;> rfl
  | setsid _ _ h =>
    rw [(sysSetsid_eq_some h).2]
    rfl
  | setpgid pid pgid _ h =>
    obtain ⟨j, r, -, -, -, -, rfl⟩ := sysSetpgid_eq_some h
    rfl
  | openTty minor _ =>
    rw [System.openTty]
    split_ifs <;> rfl
  | _ => rfl

/-- The task `q'` is `q` but for what `schedule` has done. -/
structure Task.Stirred (q q' : Task) : Prop where
  same : q' = { q with toTask := q'.toTask }
  stirs : Stirs q.toTask q'.toTask

namespace Task.Stirred

variable (h : q.Stirred q')

include h

theorem pid : q'.pid = q.pid := (congrArg Task.pid h.same).trans rfl

theorem father : q'.father = q.father := (congrArg Task.father h.same).trans rfl

theorem pgrp : q'.pgrp = q.pgrp := (congrArg Task.pgrp h.same).trans rfl

theorem exitCode : q'.exitCode = q.exitCode := (congrArg Task.exitCode h.same).trans rfl

theorem place : q'.place = q.place := (congrArg Task.place h.same).trans rfl

theorem zombie : q'.state = .zombie ↔ q.state = .zombie := h.stirs.zombie

theorem pending {sig : Word} (hq : Signals.Pending sig q.process) :
    Signals.Pending sig q'.process := h.stirs.signal _ hq

end Task.Stirred

/-- A step from `s` to `s'`, with a section of the process `p` that ends in `s₁`. -/
structure Turn (s : System) (p : Task) (e : Event) (s₁ s' : System) (b : Bool) : Prop where
  current : s.task s.current = some p
  ends : Section s p e s₁ b
  stirred : ∃ f : ℕ → Sched.Task → Sched.Task, (∀ i q, Stirs q (f i q)) ∧
    (b = true → ∀ i q, Sched.Table.Slot i → q.signal ≠ 0 → (f i q).state ≠ .interruptible) ∧
    ∀ i, s'.task i = (after s p e i).map fun q => { q with toTask := f i q.toTask }
  lastPid : s'.lastPid = s₁.lastPid
  jiffies : s'.jiffies = s₁.jiffies
  ttyPgrp : s'.ttyPgrp = s₁.ttyPgrp
  next : b = false ∧ s'.current = s.current ∧ s' = s₁ ∨
    b = true ∧ (s'.current = 0 ∨ ∃ q, s'.task s'.current = some q ∧ q.state = .running)

theorem Step.turn (h : Step s (c, e) s') : c = s.current ∧ ∃ p s₁ b, Turn s p e s₁ s' b := by
  obtain ⟨hc, p, s₁, b, hp, hsection, hend⟩ := h
  refine ⟨hc, p, s₁, b, ?_⟩
  rcases hend with ⟨rfl, rfl⟩ | ⟨rfl, n, hschedule⟩
  · refine ⟨hp, hsection, ⟨fun _ q => q, fun _ q => .refl q, fun hb => absurd hb Bool.false_ne_true,
      fun i => ?_⟩, rfl, rfl, rfl, .inl ⟨rfl, hsection.current_eq, rfl⟩⟩
    exact (hsection.task_eq hp i).trans Option.map_id'.symm
  · obtain ⟨f, hf, hstir, hwakes, hjiffies, hlast, htty, hcurrent⟩ := schedule_stirs hschedule
    refine ⟨hp, hsection, ⟨f, hstir, fun _ => hwakes, fun i => ?_⟩, hlast, hjiffies, htty,
      .inr ⟨rfl, hcurrent⟩⟩
    rw [hf, hsection.task_eq hp]

namespace Turn

theorem of_after (h : Turn s p e s₁ s' b) (hq : after s p e i = some q) :
    ∃ q', s'.task i = some q' ∧ q.Stirred q' := by
  obtain ⟨f, hstir, -, hf⟩ := h.stirred
  exact ⟨_, by rw [hf, hq]; rfl, rfl, hstir i q.toTask⟩

theorem eq_some (h : Turn s p e s₁ s' b) (hq' : s'.task i = some q') :
    ∃ q, after s p e i = some q ∧ q.Stirred q' := by
  obtain ⟨f, hstir, -, hf⟩ := h.stirred
  obtain ⟨q, hq, rfl⟩ := Option.map_eq_some_iff.mp ((hf i).symm.trans hq')
  exact ⟨q, hq, rfl, hstir i q.toTask⟩

/-- A step that ends with `schedule` wakes up the processes with a signal. -/
theorem wakes (h : Turn s p e s₁ s' true) (hi : Sched.Table.Slot i) (hq : after s p e i = some q)
    (hsignal : q.signal ≠ 0) (hq' : s'.task i = some q') : q'.state ≠ .interruptible := by
  obtain ⟨f, -, hwakes, hf⟩ := h.stirred
  rw [hf, hq] at hq'
  rw [← Option.some.inj hq']
  exact hwakes rfl i q.toTask hi hsignal

theorem eq_none (h : Turn s p e s₁ s' b) (hq : after s p e i = none) : s'.task i = none := by
  obtain ⟨f, -, -, hf⟩ := h.stirred
  rw [hf, hq]
  rfl

end Turn

/-- A task at the end of a section is a new child, or has been there before. -/
theorem after_eq_some (h : after s p e i = some q) : e.frees s.current i = false ∧
    ((∃ pid, e = .fork i pid ∧ q = System.childOf { s with lastPid := pid } p) ∨
      ∃ r, s.task i = some r ∧ q = effect s p i r e) := by
  rw [after] at h
  split_ifs at h with hfree
  refine ⟨Bool.not_eq_true _ ▸ hfree, ?_⟩
  cases hfilled : filled s p i e with
  | none =>
    rw [hfilled] at h
    obtain ⟨r, hr, rfl⟩ := Option.map_eq_some_iff.mp h
    exact .inr ⟨r, hr, rfl⟩
  | some r =>
    rw [hfilled] at h
    obtain rfl := Option.some.inj h
    cases e with
    | fork nr pid =>
      rw [filled] at hfilled
      split_ifs at hfilled with hi
      exact .inl ⟨pid, by rw [hi], (Option.some.inj hfilled).symm⟩
    | _ => cases hfilled

end Linux001.Processes
