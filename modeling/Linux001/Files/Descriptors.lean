import Linux001.Lib.Sizes
import Mathlib.Data.List.FinRange
import Mathlib.Logic.Function.Basic

/-!
# Descriptors and the file table

The model of the system calls that change `filp` of a task and `f_count` of an entry of
`file_table`: `sys_open`, `sys_creat`, `sys_close`, `sys_dup`, `sys_dup2`, `sys_fcntl`, `sys_pipe`,
`copy_process`, `do_execve` and `do_exit`. A process is interrupted where the code may sleep: in
`open_namei` and `get_pipe_inode`, in every `iput`, and in `namei` and `read_area` of `do_execve`.
What these return is an answer that the event brings along. A process that accesses its memory when
no page is left goes to `do_exit` in the middle of the call.

`f_count` is an `unsigned short`. The other fields of `struct file` are left out.

## Main definitions

* `Cpu`: what a running process works on.
* `Cpu.sysOpen`, `Cpu.close`, `Cpu.dupfd`, `Cpu.sysPipe`, …: the calls up to the next sleep.
* `State`, `State.next`: the tasks and their steps.
-/

namespace Linux001.Files.Descriptors

/-- Descriptors, `0 ≤ fd < NR_OPEN`. -/
abbrev Fd := Fin 20

/-- The entries of `file_table`, of which there are `NR_FILE`. -/
abbrev File := Fin 64

/-- The entries of `task`, of which there are `NR_TASKS`. -/
abbrev TaskNr := Fin 64

def EPERM : ℤ := 1
def EBADF : ℤ := 9
def EAGAIN : ℤ := 11
def EINVAL : ℤ := 22
def EMFILE : ℤ := 24

/-- Who has called `sys_close`. The loops of `do_execve` and `do_exit` go on with the descriptors
`rest`. -/
inductive Caller
  | user
  | dup2 (oldfd newfd : ℕ)
  | execve (rest : List Fd)
  | exit (rest : List Fd)
  deriving DecidableEq

/-- Where a process is. -/
inductive Pc
  | user
  /-- In `open_namei`, called by `sys_open`. -/
  | openNamei (fd : Fd) (f : File)
  /-- In `iput` of a terminal that `sys_open` refuses. -/
  | openIput (fd : Fd) (f : File)
  /-- In `get_pipe_inode`, called by `sys_pipe`. -/
  | pipeInode (fd₀ fd₁ : Fd) (f₀ f₁ : File)
  /-- In `iput`, called by `sys_close`. -/
  | closeIput (c : Caller)
  /-- In `do_execve` before the point of no return. -/
  | execNamei
  /-- In `read_area` and `iput`, called by `do_execve`. -/
  | execRead
  /-- In the calls of `iput` at the end of `do_exit`. -/
  | exitIput
  | zombie
  deriving DecidableEq

/-- A task. `eax` is the value that the last system call has returned. -/
structure Task where
  filp : Fd → Option File
  closeOnExec : Fd → Bool
  pc : Pc
  eax : ℤ

/-- What a running process works on: the counts of the file table and its own task. -/
structure Cpu where
  /-- `f_count`. -/
  fcount : File → ℕ
  current : Task
  panicked : Bool

/-- How a function returns in which the process may have slept. -/
inductive Answer
  | ok
  | error (e : ℤ)
  /-- A terminal that the process must not open. -/
  | refused
  /-- It does not: a page fault has found no memory. -/
  | died

/-- What `sys_close` does: it panics, it calls `iput`, or it returns a value. -/
inductive Closed
  | panic
  | iput
  | value (v : ℤ)

/-- The commands of `sys_fcntl`. The others do not look at the descriptors. -/
inductive Cmd
  | dupfd
  | getfd
  | setfd
  | other (value : ℤ)

namespace Cpu

variable (s : Cpu)

def setFilp (fd : Fd) (x : Option File) : Cpu :=
  { s with current := { s.current with filp := Function.update s.current.filp fd x } }

def setCloseOnExec (fd : Fd) (b : Bool) : Cpu :=
  { s with current := { s.current with closeOnExec := Function.update s.current.closeOnExec fd b } }

def setCount (f : File) (c : ℕ) : Cpu := { s with fcount := Function.update s.fcount f c }

/-- `f->f_count++`. -/
def inc (f : File) : Cpu := s.setCount f ((s.fcount f + 1) % 65536)

/-- The process may sleep at `pc`. -/
def sleep (pc : Pc) : Cpu := { s with current := { s.current with pc := pc } }

/-- The call returns `v`. -/
def ret (v : ℤ) : Cpu := { s with current := { s.current with pc := .user, eax := v } }

/-- `current->filp[fd]`, if `fd` is less than `NR_OPEN`. -/
def filpAt (fd : ℕ) : Option File := if h : fd < 20 then s.current.filp ⟨fd, h⟩ else none

/-- `sys_close(fd)` up to the call of `iput`. -/
def close (fd : ℕ) : Closed × Cpu :=
  if h : fd < 20 then
    let s := s.setCloseOnExec ⟨fd, h⟩ false
    match s.current.filp ⟨fd, h⟩ with
    | none => (.value (-EINVAL), s)
    | some f =>
      let s := s.setFilp ⟨fd, h⟩ none
      if s.fcount f = 0 then (.panic, { s with panicked := true })
      else
        let s := s.setCount f (s.fcount f - 1)
        if s.fcount f ≠ 0 then (.value 0, s) else (.iput, s)
  else (.value (-EINVAL), s)

/-- A loop that closes the descriptors `fds` that pass the test, and then goes on with `done`. -/
def closeEach (test : Task → Fd → Bool) (caller : List Fd → Caller) (done : Cpu → Cpu) :
    List Fd → Cpu → Cpu
  | [], s => done s
  | fd :: rest, s =>
    if test s.current fd then
      match s.close fd with
      | (.panic, s) => s
      | (.iput, s) => s.sleep (.closeIput (caller rest))
      | (.value _, s) => closeEach test caller done rest s
    else closeEach test caller done rest s

/-- `do_execve` after the point of no return, with the descriptors `fds` still to look at. -/
def execLoop (fds : List Fd) : Cpu :=
  closeEach Task.closeOnExec .execve (fun s =>
    { s with current := { s.current with closeOnExec := fun _ => false, pc := .execRead } }) fds s

/-- `do_exit` with the descriptors `fds` still to look at. -/
def exitLoop (fds : List Fd) : Cpu :=
  closeEach (fun c fd => (c.filp fd).isSome) .exit (fun s => s.sleep .exitIput) fds s

/-- `do_exit`. -/
def doExit : Cpu := s.exitLoop (List.finRange 20)

/-- `sys_close(fd)`. -/
def sysClose (fd : ℕ) : Cpu :=
  match s.close fd with
  | (.panic, s) => s
  | (.iput, s) => s.sleep (.closeIput .user)
  | (.value v, s) => s.ret v

/-- `dupfd(fd, arg)`. -/
def dupfd (fd arg : ℕ) : Cpu :=
  match s.filpAt fd with
  | none => s.ret (-EBADF)
  | some f =>
    if 20 ≤ arg then s.ret (-EINVAL)
    else
      match (List.finRange 20).find? fun i => arg ≤ i.val ∧ s.current.filp i = none with
      | none => s.ret (-EMFILE)
      | some i => (((s.setCloseOnExec i false).setFilp i (some f)).inc f).ret i

/-- `sys_dup2(oldfd, newfd)`. -/
def sysDup2 (oldfd newfd : ℕ) : Cpu :=
  match s.close newfd with
  | (.panic, s) => s
  | (.iput, s) => s.sleep (.closeIput (.dup2 oldfd newfd))
  | (.value _, s) => s.dupfd oldfd newfd

/-- `sys_dup(fildes)`. -/
def sysDup (fildes : ℕ) : Cpu := s.dupfd fildes 0

/-- `sys_fcntl(fd, cmd, arg)`. -/
def sysFcntl (fd : ℕ) (cmd : Cmd) (arg : ℕ) : Cpu :=
  match s.filpAt fd with
  | none => s.ret (-EBADF)
  | some _ =>
    match cmd with
    | .dupfd => s.dupfd fd arg
    | .getfd => s.ret (if h : fd < 20 then (s.current.closeOnExec ⟨fd, h⟩).toNat else 0)
    | .setfd =>
      (if h : fd < 20 then s.setCloseOnExec ⟨fd, h⟩ (decide (arg % 2 = 1)) else s).ret 0
    | .other v => s.ret v

/-- `sys_open` up to `open_namei`. -/
def sysOpen : Cpu :=
  match (List.finRange 20).find? fun fd => s.current.filp fd = none with
  | none => s.ret (-EINVAL)
  | some fd =>
    let s := s.setCloseOnExec fd false
    match (List.finRange 64).find? fun f => s.fcount f = 0 with
    | none => s.ret (-EINVAL)
    | some f => ((s.setFilp fd (some f)).inc f).sleep (.openNamei fd f)

/-- `sys_creat` up to `open_namei`. -/
def sysCreat : Cpu := s.sysOpen

/-- `sys_open` gives the descriptor and the entry back. -/
def openFail (fd : Fd) (f : File) (e : ℤ) : Cpu := ((s.setFilp fd none).setCount f 0).ret e

/-- `sys_pipe` up to `get_pipe_inode`. An entry that is found alone is given back, and so is a
descriptor. -/
def sysPipe : Cpu :=
  match (List.finRange 64).filter fun f => s.fcount f = 0 with
  | f₀ :: f₁ :: _ =>
    let s := (s.inc f₀).inc f₁
    match (List.finRange 20).filter fun fd => s.current.filp fd = none with
    | fd₀ :: fd₁ :: _ =>
      ((s.setFilp fd₀ (some f₀)).setFilp fd₁ (some f₁)).sleep (.pipeInode fd₀ fd₁ f₀ f₁)
    | _ => ((s.setCount f₁ 0).setCount f₀ 0).ret (-1)
  | _ => s.ret (-1)

/-- `sys_pipe` gives the descriptors and the entries back. -/
def pipeFail (fd₀ fd₁ : Fd) (f₀ f₁ : File) : Cpu :=
  ((((s.setFilp fd₁ none).setFilp fd₀ none).setCount f₁ 0).setCount f₀ 0).ret (-1)

/-- What the caller of `sys_close` does when `iput` is done. -/
def afterClose : Caller → Cpu
  | .user => s.ret 0
  | .dup2 oldfd newfd => s.dupfd oldfd newfd
  | .execve rest => s.execLoop rest
  | .exit rest => s.exitLoop rest

/-- A process goes on after it may have slept, up to the next sleep. -/
def resume (a : Answer) : Option Cpu :=
  match s.current.pc, a with
  | .openNamei fd f, .ok => some ((s.setCount f 1).ret fd)
  | .openNamei fd f, .error e => some (s.openFail fd f e)
  | .openNamei fd f, .refused => some (s.sleep (.openIput fd f))
  | .openIput fd f, .ok => some (s.openFail fd f (-EPERM))
  | .pipeInode _ _ _ _, .ok => some (s.ret 0)
  | .pipeInode fd₀ fd₁ f₀ f₁, .error _ => some (s.pipeFail fd₀ fd₁ f₀ f₁)
  | .closeIput c, .ok => some (s.afterClose c)
  | .execNamei, .ok => some (s.execLoop (List.finRange 20))
  | .execNamei, .error e => some (s.ret e)
  | .execRead, .ok => some (s.ret 0)
  | .execRead, .error _ => some s.doExit
  | .openNamei _ _, .died | .pipeInode _ _ _ _, .died | .execNamei, .died => some s.doExit
  | _, _ => none

/-- The loop of `copy_process` over the descriptors. -/
def copyFilp (filp : Fd → Option File) (fds : List Fd) : Cpu :=
  fds.foldl (fun s fd => match filp fd with
    | some f => s.inc f
    | none => s) s

end Cpu

/-- The system calls. `fork` is an event of its own. -/
inductive Call
  | open
  | creat
  | close (fd : ℕ)
  | dup (fildes : ℕ)
  | dup2 (oldfd newfd : ℕ)
  | fcntl (fd : ℕ) (cmd : Cmd) (arg : ℕ)
  | pipe
  | execve
  | exit

/-- A call up to the first sleep. -/
def Cpu.call (s : Cpu) : Call → Cpu
  | .open => s.sysOpen
  | .creat => s.sysCreat
  | .close fd => s.sysClose fd
  | .dup fildes => s.sysDup fildes
  | .dup2 oldfd newfd => s.sysDup2 oldfd newfd
  | .fcntl fd cmd arg => s.sysFcntl fd cmd arg
  | .pipe => s.sysPipe
  | .execve => s.sleep .execNamei
  | .exit => s.doExit

/-- The file table and the tasks. -/
structure State where
  fcount : File → ℕ
  task : TaskNr → Option Task
  panicked : Bool

/-- What can happen. -/
inductive Event
  | call (t : TaskNr) (c : Call)
  | resume (t : TaskNr) (a : Answer)
  /-- `fork`: whether `copy_process` gets a page for the task, and whether `copy_mem` succeeds. -/
  | fork (t : TaskNr) (page copied : Bool)
  /-- The end of `do_exit`, which releases the task when there is no father. -/
  | exited (t : TaskNr) (father : Bool)
  /-- `release`, called by `sys_waitpid`. -/
  | release (t : TaskNr)

namespace State

variable (s : State)

/-- The state after boot: `mount_root` has cleared the counts. -/
def boot : State where
  fcount _ := 0
  task t := if t = 0 then some ⟨fun _ => none, fun _ => false, .user, 0⟩ else none
  panicked := false

/-- The process `c` runs. -/
def cpu (c : Task) : Cpu := ⟨s.fcount, c, s.panicked⟩

/-- Task `t` has run. -/
def put (t : TaskNr) (c : Cpu) : State :=
  ⟨c.fcount, Function.update s.task t (some c.current), c.panicked⟩

/-- `find_empty_process()`. -/
def findEmptyProcess : Option TaskNr :=
  (List.finRange 64).find? fun i => i ≠ 0 ∧ (s.task i).isNone

/-- `fork` of the task `t`. -/
def fork (t : TaskNr) (c : Task) (page copied : Bool) : State :=
  match s.findEmptyProcess with
  | none => s.put t ((s.cpu c).ret (-EAGAIN))
  | some nr =>
    if page ∧ copied then
      let s := s.put t (((s.cpu c).copyFilp c.filp (List.finRange 20)).ret nr)
      { s with task := Function.update s.task nr (some { c with eax := 0 }) }
    else s.put t ((s.cpu c).ret (-EAGAIN))

/-- The state after an event, if it can happen. After a panic nothing does. -/
def next : Event → Option State
  | .call t call =>
    (s.task t).bind fun c =>
      if s.panicked = false ∧ c.pc = .user then some (s.put t ((s.cpu c).call call)) else none
  | .resume t a =>
    (s.task t).bind fun c =>
      if s.panicked = false then ((s.cpu c).resume a).map (s.put t) else none
  | .fork t page copied =>
    (s.task t).bind fun c =>
      if s.panicked = false ∧ c.pc = .user then some (s.fork t c page copied) else none
  | .exited t father =>
    (s.task t).bind fun c =>
      if s.panicked = false ∧ c.pc = .exitIput then
        if father then some (s.put t ((s.cpu c).sleep .zombie))
        else some { s with task := Function.update s.task t none }
      else none
  | .release t =>
    (s.task t).bind fun c =>
      if s.panicked = false ∧ c.pc = .zombie then
        some { s with task := Function.update s.task t none }
      else none

end State

end Linux001.Files.Descriptors
