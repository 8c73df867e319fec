import Linux001.Inodes.Names
import Linux001.Mm.AddressSpaces
import Linux001.Lib.Runs

/-!
# System calls on inodes, files and processes

The system calls of `fs/open.c`, `fs/fcntl.c`, `fs/pipe.c`, `fs/stat.c`, `fs/exec.c`,
`kernel/fork.c`, `kernel/exit.c` and `kernel/sys.c` that take or give back references to slots of
the inode table, or decide with whose permissions that happens, and the system whose steps are
complete calls, one at a time.

What memory has to say is an answer that an event brings along: whether `copy_strings` and
`read_area` succeed, and whether there is memory for a new process. The process number that
`find_empty_process` has found is brought along too. Signals, times and the contents of user memory
are left out. A call does not complete when the kernel panics, and neither when the process is
killed in the middle of it because an access to its memory finds no free page.

## Main definitions

* `File`, `Cpu`: the file table, and what the running process works on.
* `Call`, `Call.code`: the calls that concern one process only.
* `Proc`, `Kernel`: the processes and what they share.
* `fork`, `doExit`, `waitpid`, `execve`: the calls that concern several.
* `Event`, `perform`, `Step`, `Boot`: runs of complete calls after `mount_root`.
-/

namespace Linux001.Inodes

open Fs (sIsreg sIsdir sIschr O_CREAT O_TRUNC O_APPEND)

/-- The entries of `file_table`, of which there are `NR_FILE`. -/
abbrev FileNr := Fin 64

/-- The entries of `task`, of which there are `NR_TASKS`. -/
abbrev TaskNr := Fin 64

/-- Descriptors, `0 ≤ fd < NR_OPEN`. -/
abbrev Fd := Fin 20

/-- `struct file`. An entry that is not in use may point to a slot that it has given back. -/
structure File where
  mode : UInt16
  flags : UInt16
  count : ℕ
  inode : Option Slot
  pos : ℕ

/-- What a running process works on: the tables, its own task, and the two pointers of the mounted
super block. -/
structure Cpu (D : Type) where
  table : Table D
  file : FileNr → File
  current : Task
  /-- `tty_table[..].pgrp`. -/
  ttyPgrp : ℤ → ℤ
  /-- `s_isup`. -/
  isup : Option Slot
  /-- `s_imount`. -/
  imount : Option Slot

/-- Code of a running process. -/
abbrev C (D : Type) := StateT (Cpu D) (Except Stop)

section Code

variable {D : Type}

/-- Code on the inode table. -/
def onTable {α : Type} (m : M D α) : C D α := fun s =>
  match m s.table with
  | .ok (a, T) => .ok (a, { s with table := T })
  | .error e => .error e

def setCurrent (f : Task → Task) : C D Unit := modify fun s => { s with current := f s.current }

def setFile (f : FileNr) (g : File → File) : C D Unit :=
  modify fun s => { s with file := Function.update s.file f (g (s.file f)) }

/-- `current->filp[fd] = f`. -/
def setFilp (fd : Fd) (f : Option FileNr) : C D Unit :=
  setCurrent fun c => { c with filp := Function.update c.filp fd f }

/-- `f->f_count++`. -/
def incFile (f : FileNr) : C D Unit := setFile f fun v => { v with count := v.count + 1 }

/-- `f->f_count=0`. -/
def clearFile (f : FileNr) : C D Unit := setFile f fun v => { v with count := 0 }

/-- Sets the bit of `fd` in `current->close_on_exec`, or clears it. -/
def setCloseOnExec (fd : Fd) (b : Bool) : C D Unit :=
  setCurrent fun c => { c with closeOnExec := Function.update c.closeOnExec fd b }

variable (V : Services D)

/-! ### `open.c` and `stat.c` -/

section Inode

variable (current : Task)

/-- A call that gets the inode of a name, works on its slot, and gives it back. -/
def withInode (filename : List UInt8) (body : Slot → M D (Result ℕ)) : M D (Result ℕ) := do
  match ← namei V current filename with
  | none => pure (.error .ENOENT)
  | some k => do
    let r ← body k
    iput V k
    pure r

/-- `sys_utime(filename, times)`. -/
def sysUtime (filename : List UInt8) : M D (Result ℕ) :=
  withInode V current filename fun k => do
    setDirt k true
    pure (.ok 0)

/-- `sys_access(filename, mode)`. The owner is looked up after the `iput`. -/
def sysAccess (filename : List UInt8) (mode : UInt16) : M D (Result ℕ) := do
  let mode := mode &&& 7
  match ← namei V current filename with
  | none => pure (.error .EACCES)
  | some k => do
    let s ← get
    let res := (s.inode k).mode &&& 0o777
    iput V k
    let s ← get
    let res : UInt16 :=
      if ¬ (current.euid ≠ 0 ∧ current.uid ≠ 0) then
        if res &&& 0o111 ≠ 0 then 0o777 else 0o666
      else res
    let res :=
      if current.euid = (s.inode k).uid then res >>> 6
      else if current.egid = (s.inode k).gid then res >>> 6
      else res
    if res &&& 7 &&& mode = mode then pure (.ok 0) else pure (.error .EACCES)

/-- `sys_chmod(filename, mode)`. -/
def sysChmod (filename : List UInt8) (mode : UInt16) : M D (Result ℕ) :=
  withInode V current filename fun k => do
    let s ← get
    let i := s.inode k
    if current.uid ≠ 0 ∧ current.euid ≠ 0 ∧ current.uid ≠ i.uid ∧ current.euid ≠ i.uid then
      pure (.error .EACCES)
    else do
      let mode :=
        if current.uid ≠ 0 ∧ current.euid ≠ 0 then mode &&& 0o777 ||| i.mode &&& 0o7000 else mode
      edit k fun i => { i with mode := mode &&& 0o7777 ||| i.mode &&& ~~~0o7777 }
      setDirt k true
      pure (.ok 0)

/-- `sys_chown(filename, uid, gid)`. -/
def sysChown (filename : List UInt8) (uid gid : ℕ) : M D (Result ℕ) :=
  withInode V current filename fun k =>
    if current.uid ≠ 0 ∧ current.euid ≠ 0 then pure (.error .EACCES)
    else do
      edit k fun i => { i with uid := uid % 65536, gid := gid % 256 }
      setDirt k true
      pure (.ok 0)

/-- `sys_stat(filename, statbuf)`. -/
def sysStat (filename : List UInt8) : M D (Result ℕ) :=
  withInode V current filename fun _ => pure (.ok 0)

end Inode

/-- The common part of `sys_chdir` and `sys_chroot`: the slot of a directory. -/
def directory (current : Task) (filename : List UInt8) : M D (Result Slot) := do
  match ← namei V current filename with
  | none => pure (.error .ENOENT)
  | some k => do
    let s ← get
    if sIsdir (s.inode k).mode = false then do
      iput V k
      pure (.error .ENOTDIR)
    else pure (.ok k)

/-- `sys_chdir(filename)`. -/
def sysChdir (filename : List UInt8) : C D (Result ℕ) := do
  let s ← get
  match ← onTable (directory V s.current filename) with
  | .error e => pure (.error e)
  | .ok k => do
    onTable (iput V s.current.pwd)
    setCurrent fun c => { c with pwd := some k }
    pure (.ok 0)

/-- `sys_chroot(filename)`. -/
def sysChroot (filename : List UInt8) : C D (Result ℕ) := do
  let s ← get
  match ← onTable (directory V s.current filename) with
  | .error e => pure (.error e)
  | .ok k => do
    onTable (iput V s.current.root)
    setCurrent fun c => { c with root := some k }
    pure (.ok 0)

/-- The error returns of `sys_open` once the entry `f` has been taken. -/
def openFail (fd : Fd) (f : FileNr) (e : Errno) : C D (Result ℕ) := do
  setFilp fd none
  clearFile f
  pure (.error e)

/-- The part of `sys_open` that opens a terminal: whether the open may go on. -/
def openTty (k : Slot) : C D Bool := do
  let s ← get
  let dev := (s.table.inode k).zone 0
  if sIschr (s.table.inode k).mode = false then pure true
  else if dev / 256 = 4 then do
    if s.current.leader ∧ s.current.tty < 0 then
      modify fun s => { s with
        current := { s.current with tty := (dev % 256 : ℕ) }
        ttyPgrp := Function.update s.ttyPgrp (dev % 256 : ℕ) s.current.pgrp }
    else pure ()
    pure true
  else if dev / 256 = 5 then pure (decide (0 ≤ s.current.tty))
  else pure true

/-- The end of `sys_open`, for a slot that `open_namei` has returned. -/
def openFile (fd : Fd) (f : FileNr) (flag : UInt16) (k : Slot) : C D (Result ℕ) := do
  let go ← openTty k
  if go = false then do
    onTable (iput V k)
    openFail fd f .EPERM
  else do
    let s ← get
    setFile f fun _ => ⟨(s.table.inode k).mode, flag, 1, some k, 0⟩
    pure (.ok fd)

/-- `sys_open(filename, flag, mode)`. -/
def sysOpen (filename : List UInt8) (flag mode : UInt16) : C D (Result ℕ) := do
  let s ← get
  let mode := mode &&& 0o777 &&& ~~~s.current.umask
  match (List.finRange 20).find? fun fd => s.current.filp fd = none with
  | none => pure (.error .EINVAL)
  | some fd => do
    setCloseOnExec fd false
    match (List.finRange 64).find? fun f => (s.file f).count = 0 with
    | none => pure (.error .EINVAL)
    | some f => do
      setFilp fd (some f)
      incFile f
      match ← onTable (openNamei V s.current filename flag mode) with
      | .error e => openFail fd f e
      | .ok k => openFile V fd f flag k

/-- `sys_creat(pathname, mode)`. -/
def sysCreat (pathname : List UInt8) (mode : UInt16) : C D (Result ℕ) :=
  sysOpen V pathname (O_CREAT ||| O_TRUNC) mode

/-- `sys_close(fd)` for `fd < NR_OPEN`. -/
def closeFd (fd : Fd) : C D (Result ℕ) := do
  let s ← get
  setCloseOnExec fd false
  match s.current.filp fd with
  | none => pure (.error .EINVAL)
  | some f => do
    setFilp fd none
    if (s.file f).count = 0 then throw (.panic "Close: file count is 0")
    else do
      setFile f fun v => { v with count := v.count - 1 }
      if (s.file f).count - 1 ≠ 0 then pure (.ok 0)
      else do
        onTable (iput V (s.file f).inode)
        pure (.ok 0)

/-- `sys_close(fd)`. -/
def sysClose (fd : ℕ) : C D (Result ℕ) :=
  if h : fd < 20 then closeFd V ⟨fd, h⟩ else pure (.error .EINVAL)

/-! ### `fcntl.c` and `pipe.c` -/

/-- `current->filp[fd]`, if `fd` is less than `NR_OPEN`. -/
def Task.filpAt (c : Task) (fd : ℕ) : Option FileNr := if h : fd < 20 then c.filp ⟨fd, h⟩ else none

/-- `dupfd(fd, arg)`. -/
def dupfd (fd arg : ℕ) : C D (Result ℕ) := do
  let s ← get
  match s.current.filpAt fd with
  | none => pure (.error .EBADF)
  | some f =>
    if 20 ≤ arg then pure (.error .EINVAL)
    else
      match (List.finRange 20).find? fun i => arg ≤ i.val ∧ s.current.filp i = none with
      | none => pure (.error .EMFILE)
      | some i => do
        setCloseOnExec i false
        setFilp i (some f)
        incFile f
        pure (.ok i)

/-- `sys_dup2(oldfd, newfd)`. -/
def sysDup2 (oldfd newfd : ℕ) : C D (Result ℕ) := do
  let _ ← sysClose V newfd
  dupfd oldfd newfd

/-- `sys_dup(fildes)`. -/
def sysDup (fildes : ℕ) : C D (Result ℕ) := dupfd fildes 0

/-- `O_NONBLOCK`. -/
def O_NONBLOCK : UInt16 := 0o4000

/-- The commands of `sys_fcntl`; the others return -1. -/
inductive Cmd
  | dupfd
  | getfd
  | setfd
  | getfl
  | setfl
  | other

/-- `sys_fcntl(fd, cmd, arg)`. -/
def sysFcntl (fd : ℕ) (cmd : Cmd) (arg : ℕ) : C D (Result ℕ) := do
  let s ← get
  if h : fd < 20 then
    match s.current.filp ⟨fd, h⟩ with
    | none => pure (.error .EBADF)
    | some f =>
      match cmd with
      | .dupfd => dupfd fd arg
      | .getfd => pure (.ok (s.current.closeOnExec ⟨fd, h⟩).toNat)
      | .setfd => do
        setCloseOnExec ⟨fd, h⟩ (arg % 2 = 1)
        pure (.ok 0)
      | .getfl => pure (.ok (s.file f).flags.toNat)
      | .setfl => do
        let mask := O_APPEND ||| O_NONBLOCK
        setFile f fun v => { v with flags := v.flags &&& ~~~mask ||| UInt16.ofNat arg &&& mask }
        pure (.ok 0)
      | .other => pure (.error .EPERM)
  else pure (.error .EBADF)

/-- The end of `sys_pipe`, with two entries of the file table and two descriptors. -/
def pipeInode (fd₀ fd₁ : Fd) (f₀ f₁ : FileNr) : C D (Result ℕ) := do
  setFilp fd₀ (some f₀)
  setFilp fd₁ (some f₁)
  match ← onTable (getPipeInode V) with
  | none => do
    setFilp fd₁ none
    setFilp fd₀ none
    clearFile f₁
    clearFile f₀
    pure (.error .EPERM)
  | some k => do
    setFile f₁ fun v => { v with inode := some k, pos := 0, mode := 2 }
    setFile f₀ fun v => { v with inode := some k, pos := 0, mode := 1 }
    pure (.ok 0)

/-- `sys_pipe(fildes)`. A single free entry, or descriptor, is given back at once. -/
def sysPipe : C D (Result ℕ) := do
  let s ← get
  match (List.finRange 64).filter fun f => (s.file f).count = 0 with
  | f₀ :: f₁ :: _ => do
    incFile f₀
    incFile f₁
    match (List.finRange 20).filter fun fd => s.current.filp fd = none with
    | fd₀ :: fd₁ :: _ => pipeInode V fd₀ fd₁ f₀ f₁
    | _ => do
      clearFile f₁
      clearFile f₀
      pure (.error .EPERM)
  | _ => pure (.error .EPERM)

/-! ### `exec.c` -/

/-- The `i`-th `unsigned long` of a block. -/
def long (b : Fs.Block) (i : ℕ) : Mm.Word :=
  BitVec.ofNat 32 (Fs.word b (2 * i) + 65536 * Fs.word b (2 * i + 1))

/-- `*((struct exec *) bh->b_data)`. -/
def execHeader (b : Fs.Block) : Mm.Exec :=
  ⟨long b 0, long b 1, long b 2, long b 3, long b 4, long b 6, long b 7⟩

/-- The bits of `i_mode` that `do_execve` tests. -/
def execMode (current : Task) (i : Inode) : UInt16 :=
  if current.uid ≠ 0 ∧ current.euid ≠ 0 then
    if current.euid = i.uid then i.mode >>> 6
    else if current.egid = i.gid then i.mode >>> 3
    else i.mode
  else if i.mode &&& 0o111 ≠ 0 then 1
  else i.mode

/-- `do_execve` up to the point of no return: the slot of the program. `fit` tells whether
`copy_strings` has found memory for the arguments. -/
def execCheck (current : Task) (filename : List UInt8) (fit : Bool) : M D (Result Slot) := do
  match ← namei V current filename with
  | none => pure (.error .ENOENT)
  | some k => do
    let s ← get
    let i := s.inode k
    if sIsreg i.mode = false then do
      iput V k
      pure (.error .EACCES)
    else if execMode current i &&& 1 = 0 then do
      iput V k
      pure (.error .ENOEXEC)
    else do
      let read ← outside (V.bread i.dev (i.zone 0))
      if read = false then do
        iput V k
        pure (.error .EACCES)
      else do
        let b ← outside (V.data (i.zone 0))
        outside (V.brelse (i.zone 0))
        if (execHeader b).refused (BitVec.ofNat 32 i.size) then do
          iput V k
          pure (.error .ENOEXEC)
        else if fit = false then do
          iput V k
          pure (.error .EPERM)
        else pure (.ok k)

/-- The loop of `do_execve` that closes descriptors. -/
def closeOnExecLoop (fds : List Fd) : C D Unit :=
  fds.forM fun fd => do
    let s ← get
    if s.current.closeOnExec fd then do
      let _ ← closeFd V fd
      pure ()
    else pure ()

/-- `do_execve(eip, tmp, filename, argv, envp)`. The result `false` stands for the call of
`sys_exit` when `read_area` has failed. -/
def doExecve (filename : List UInt8) (fit read : Bool) : C D (Result Bool) := do
  let s ← get
  match ← onTable (execCheck V s.current filename fit) with
  | .error e => pure (.error e)
  | .ok k => do
    closeOnExecLoop V (List.finRange 20)
    setCurrent fun c => { c with closeOnExec := fun _ => false }
    onTable (iput V k)
    pure (.ok read)

/-! ### `fork.c` and `exit.c` -/

/-- `if (inode) inode->i_count++`. -/
def shareInode : Option Slot → C D Unit
  | none => pure ()
  | some k => onTable (incCount k)

/-- `if (f=p->filp[i]) f->f_count++`. -/
def shareFile (fd : Fd) : C D Unit := do
  let s ← get
  match s.current.filp fd with
  | none => pure ()
  | some f => incFile f

/-- The part of `copy_process` after `copy_mem`: the child refers to what its parent refers to. -/
def share : C D Unit := do
  (List.finRange 20).forM shareFile
  let s ← get
  shareInode s.current.pwd
  shareInode s.current.root

/-- The loop of `do_exit` that closes descriptors. -/
def exitLoop (fds : List Fd) : C D Unit :=
  fds.forM fun fd => do
    let s ← get
    if (s.current.filp fd).isSome then do
      let _ ← closeFd V fd
      pure ()
    else pure ()

/-- The part of `do_exit` that gives back files and inodes. -/
def exitFiles : C D Unit := do
  exitLoop V (List.finRange 20)
  let s ← get
  onTable (iput V s.current.pwd)
  setCurrent fun c => { c with pwd := none }
  onTable (iput V s.current.root)
  setCurrent fun c => { c with root := none }
  if s.current.leader ∧ 0 ≤ s.current.tty then
    modify fun s => { s with ttyPgrp := Function.update s.ttyPgrp s.current.tty 0 }
  else pure ()

/-! ### `super.c` -/

/-- `mount_root()`. -/
def mountRoot : C D Unit := do
  modify fun s => { s with file := fun f => { s.file f with count := 0 } }
  onTable (outside V.doMount)
  match ← onTable (iget V V.rootDev 1) with
  | none => throw (.panic "Unable to read root i-node")
  | some k => do
    onTable (setInode k fun i => { i with count := i.count + 3 })
    modify fun s => { s with
      isup := some k
      imount := some k
      current := { s.current with pwd := some k, root := some k } }

/-! ### `sys.c` -/

/-- `sys_setuid(uid)`. -/
def sysSetuid (uid : ℕ) : C D (Result ℕ) := do
  let s ← get
  let c := s.current
  if c.euid ≠ 0 ∧ c.uid ≠ 0 then
    if uid = c.uid ∨ c.suid = c.uid then do
      setCurrent fun c => { c with euid := uid % 65536 }
      pure (.ok 0)
    else pure (.error .EPERM)
  else do
    setCurrent fun c => { c with euid := uid % 65536, uid := uid % 65536 }
    pure (.ok 0)

/-- `sys_setgid(gid)`. -/
def sysSetgid (gid : ℕ) : C D (Result ℕ) := do
  let s ← get
  let c := s.current
  if c.euid ≠ 0 ∧ c.uid ≠ 0 then
    if c.gid = gid ∨ c.sgid = gid then do
      setCurrent fun c => { c with egid := gid % 65536 }
      pure (.ok 0)
    else pure (.error .EPERM)
  else do
    setCurrent fun c => { c with gid := gid % 65536, egid := gid % 65536 }
    pure (.ok 0)

/-- `sys_setsid()`. -/
def sysSetsid : C D (Result ℕ) := do
  let s ← get
  let c := s.current
  if c.uid ≠ 0 ∧ c.euid ≠ 0 then pure (.error .EPERM)
  else if c.leader then pure (.error .EPERM)
  else do
    setCurrent fun c => { c with leader := true, pgrp := c.pid, tty := -1 }
    pure (.ok c.pid.toNat)

/-- `sys_umask(mask)`. -/
def sysUmask (mask : UInt16) : C D (Result ℕ) := do
  let s ← get
  setCurrent fun c => { c with umask := mask &&& 0o777 }
  pure (.ok s.current.umask.toNat)

/-! ### Calls of one process -/

/-- The system calls that concern one process only, with their arguments. -/
inductive Call
  | open (filename : List UInt8) (flag mode : UInt16)
  | creat (pathname : List UInt8) (mode : UInt16)
  | close (fd : ℕ)
  | dup (fildes : ℕ)
  | dup2 (oldfd newfd : ℕ)
  | fcntl (fd : ℕ) (cmd : Cmd) (arg : ℕ)
  | pipe
  | chdir (filename : List UInt8)
  | chroot (filename : List UInt8)
  | link (oldname newname : List UInt8)
  | unlink (name : List UInt8)
  | mkdir (pathname : List UInt8) (mode : UInt16)
  | rmdir (name : List UInt8)
  | stat (filename : List UInt8)
  | chmod (filename : List UInt8) (mode : UInt16)
  | chown (filename : List UInt8) (uid gid : ℕ)
  | utime (filename : List UInt8)
  | access (filename : List UInt8) (mode : UInt16)
  | setuid (uid : ℕ)
  | setgid (gid : ℕ)
  | setsid
  | umask (mask : UInt16)

/-- A call on the inode table, made by the running process. -/
def byCurrent (m : Task → M D (Result ℕ)) : C D (Result ℕ) := do
  let s ← get
  onTable (m s.current)

/-- The code of a call. -/
def Call.code : Call → C D (Result ℕ)
  | .open filename flag mode => sysOpen V filename flag mode
  | .creat pathname mode => sysCreat V pathname mode
  | .close fd => sysClose V fd
  | .dup fildes => sysDup fildes
  | .dup2 oldfd newfd => sysDup2 V oldfd newfd
  | .fcntl fd cmd arg => sysFcntl fd cmd arg
  | .pipe => sysPipe V
  | .chdir filename => sysChdir V filename
  | .chroot filename => sysChroot V filename
  | .link oldname newname => byCurrent fun c => sysLink V c oldname newname
  | .unlink name => byCurrent fun c => sysUnlink V c name
  | .mkdir pathname mode => byCurrent fun c => sysMkdir V c pathname mode
  | .rmdir name => byCurrent fun c => sysRmdir V c name
  | .stat filename => byCurrent fun c => sysStat V c filename
  | .chmod filename mode => byCurrent fun c => sysChmod V c filename mode
  | .chown filename uid gid => byCurrent fun c => sysChown V c filename uid gid
  | .utime filename => byCurrent fun c => sysUtime V c filename
  | .access filename mode => byCurrent fun c => sysAccess V c filename mode
  | .setuid uid => sysSetuid uid
  | .setgid gid => sysSetgid gid
  | .setsid => sysSetsid
  | .umask mask => sysUmask mask

end Code

/-! ### Processes -/

/-- An entry of `task`. A zombie has given back all that it referred to. -/
inductive Proc
  | free
  | running (c : Task)
  | zombie (pid father pgrp : ℤ)

/-- `task[i]->father = 0`, for the children of the process `pid`. -/
def Proc.orphan (pid : ℤ) : Proc → Proc
  | .free => .free
  | .running c => .running (if c.father = pid then { c with father := 0 } else c)
  | .zombie p father pgrp => .zombie p (if father = pid then 0 else father) pgrp

def Proc.isFree : Proc → Bool
  | .free => true
  | _ => false

/-- The tables of the kernel and its processes. -/
structure Kernel (D : Type) where
  table : Table D
  file : FileNr → File
  ttyPgrp : ℤ → ℤ
  isup : Option Slot
  imount : Option Slot
  task : TaskNr → Proc

namespace Kernel

variable {D : Type} (S : Kernel D)

/-- What a process with the task `c` works on. -/
def cpu (c : Task) : Cpu D := ⟨S.table, S.file, c, S.ttyPgrp, S.isup, S.imount⟩

def setTask (t : TaskNr) (p : Proc) : Kernel D := { S with task := Function.update S.task t p }

/-- The state after code of the process `t`, whose task has become `p`. -/
def resume (t : TaskNr) (s : Cpu D) (p : Proc) : Kernel D :=
  ⟨s.table, s.file, s.ttyPgrp, s.isup, s.imount, Function.update S.task t p⟩

/-- Runs code of the process `t` with the task `c`. -/
def run {α : Type} (m : C D α) (t : TaskNr) (c : Task) : Except Stop (α × Kernel D) :=
  (m (S.cpu c)).map fun r => (r.1, S.resume t r.2 (.running r.2.current))

/-- The search of `find_empty_process` for an empty slot. -/
def findEmpty : Option TaskNr :=
  (List.finRange 64).find? fun i => i ≠ 0 && (S.task i).isFree

/-- `sys_fork`, for the new process number `pid`; `mem` tells whether there is memory. -/
def fork (t : TaskNr) (c : Task) (pid : ℤ) (mem : Bool) : Except Stop (Kernel D) :=
  match S.findEmpty with
  | none => .ok S
  | some nr =>
    if mem then
      (S.run share t c).map fun r =>
        r.2.setTask nr (.running { c with pid := pid, father := c.pid, leader := false })
    else .ok S

variable (V : Services D)

/-- `do_exit`. -/
def doExit (t : TaskNr) (c : Task) : Except Stop (Kernel D) :=
  let S := { S with task := fun i => (S.task i).orphan c.pid }
  let c := if c.father = c.pid then { c with father := 0 } else c
  (exitFiles V (S.cpu c)).bind fun r =>
    if c.father ≠ 0 then .ok (S.resume t r.2 (.zombie c.pid c.father c.pgrp))
    else if t = 0 then .error (.panic "trying to release non-existent task")
    else .ok (S.resume t r.2 .free)

/-- `sys_execve`, with the exit when `read_area` has failed. -/
def execve (t : TaskNr) (c : Task) (filename : List UInt8) (fit read : Bool) :
    Except Stop (Kernel D) :=
  (doExecve V filename fit read (S.cpu c)).bind fun r =>
    match r.1 with
    | .ok false => (S.resume t r.2 (.running r.2.current)).doExit V t r.2.current
    | _ => .ok (S.resume t r.2 (.running r.2.current))

/-- The condition of `sys_waitpid(pid)` on an entry of `task`, for a zombie. -/
def awaited (c : Task) (pid : ℤ) : Proc → Bool
  | .zombie p father pgrp =>
    (pid == -1 || p == pid || (pid == 0 && pgrp == c.pgrp) ||
      (decide (pid < 0) && pgrp == -pid)) && father == c.pid
  | _ => false

/-- A pass of `sys_waitpid` over the table, from its end: the first awaited zombie is released. -/
def waitpid (c : Task) (pid : ℤ) : Kernel D :=
  match (List.finRange 64).reverse.find? fun i => i ≠ 0 && awaited c pid (S.task i) with
  | none => S
  | some i => S.setTask i .free

end Kernel

/-! ### Runs -/

/-- The complete calls. -/
inductive Event
  | call (call : Call)
  | execve (filename : List UInt8) (fit read : Bool)
  | fork (pid : ℤ) (mem : Bool)
  | exit
  | waitpid (pid : ℤ)

variable {D : Type} (V : Services D)

/-- The effect of a call of the process `t` with the task `c`. -/
def perform (t : TaskNr) (c : Task) (S : Kernel D) : Event → Except Stop (Kernel D)
  | .call call => (S.run (call.code V) t c).map Prod.snd
  | .execve filename fit read => S.execve V t c filename fit read
  | .fork pid mem => S.fork t c pid mem
  | .exit => S.doExit V t c
  | .waitpid pid => .ok (S.waitpid c pid)

/-- A process makes a call, which completes. -/
def Step (S : Kernel D) (e : TaskNr × Event) (S' : Kernel D) : Prop :=
  ∃ c, S.task e.1 = .running c ∧ perform V e.1 c S e.2 = .ok S'

/-- Nothing has been mounted, and no process refers to files or inodes. -/
structure Fresh (S : Kernel D) : Prop where
  inode : ∀ k, S.table.inode k = Inode.zero
  filp : ∀ t c, S.task t = .running c → c.filp = fun _ => none
  pwd : ∀ t c, S.task t = .running c → c.pwd = none
  root : ∀ t c, S.task t = .running c → c.root = none
  isup : S.isup = none
  imount : S.imount = none

/-- A process has mounted the root device. -/
def Boot (S : Kernel D) : Prop :=
  ∃ S₀ : Kernel D, Fresh S₀ ∧ ∃ t c, S₀.task t = .running c ∧
    S₀.run (mountRoot V) t c = .ok ((), S)

end Linux001.Inodes
