import Linux001.Inodes.Calls
import Linux001.Lib.UserStores
import Linux001.Tty.Queue

/-!
# System calls that store to user memory

`sys_pipe`, `sys_read`, `sys_waitpid`, `sys_time`, `sys_times`, `sys_uname`, `sys_stat`, `sys_fstat`
and `sys_ioctl`, and what they call to store to the memory of the process: `read_pipe`, `tty_read`,
`block_read`, `file_read`, `cp_stat` and `tty_ioctl`. Of these stores the addresses are kept, and
not the values; addresses are numbers that do not wrap around. All else that the calls work on is
as in `Linux001.Inodes`.

The functions may sleep, in `bread`, for a character or for a child. What interrupts and other
processes do to the kernel meanwhile is an arbitrary function. A loop that sleeps has a number of
turns to do; a call that has used them up is asleep.

## Main definitions

* `Machine`, `Env`: the kernel, and the functions outside of the model.
* `verifyArea`, `putFsByte`, `putFsLong`: the accesses to user memory.
* `Call`, `Call.code`: the system calls.
-/

namespace Linux001.UserMemory

open Inodes (Slot Stop FileNr Cpu Services Outside)

/-! ### Error numbers -/

def EPERM : ℤ := 1
def ENOENT : ℤ := 2
def EINTR : ℤ := 4
def EIO : ℤ := 5
def EBADF : ℤ := 9
def ECHILD : ℤ := 10
def EINVAL : ℤ := 22
def ENOTTY : ℤ := 25
def ERROR : ℤ := 99

/-! ### The kernel -/

/-- The fields of `struct tty_struct` that `tty_read` uses: the flag `ICANON`, three elements of
`c_cc`, and the queue of cooked characters. -/
structure Tty where
  canon : Bool
  vtime : ℕ
  vmin : ℕ
  veof : UInt8
  secondary : Tty.Queue

/-- The fields of `struct task_struct` that `sys_waitpid` uses, and the page of the structure. -/
structure Proc where
  pid : ℤ
  pgrp : ℤ
  father : ℤ
  zombie : Bool
  page : ℕ

/-- The tables of the kernel, and the fields of `current` that are not in `Inodes.Task`. `self` is
the index of `current` in `task`. -/
structure Machine (D : Type) where
  cpu : Cpu D
  tty : ℕ → Tty
  task : Fin 64 → Option Proc
  self : Fin 64
  signal : UInt32
  alarm : ℕ
  jiffies : ℕ
  startupTime : ℕ

/-- The functions outside of the model, none of which stores to user memory. -/
structure Env (D : Type) extends Services D where
  /-- `bmap(inode, block)`. -/
  bmap : Inodes.Inode → ℕ → Outside D ℕ
  /-- What the calls of `write_verify` for a range do to the kernel, the memory apart, for which
  `Reaches` has them. -/
  writeVerify : (addr size : ℕ) → Outside D Unit
  /-- What a page fault of a store does to the kernel, the memory apart. -/
  fault : (addr : ℕ) → Outside D Unit
  /-- The commands of `tty_ioctl` that store nothing to user memory. -/
  otherIoctl : (dev cmd arg : ℕ) → StateT (Machine D) (Except Stop) ℤ
  /-- What interrupts and other processes do while the process waits. -/
  others : Machine D → Machine D

/-- Code of system calls. -/
abbrev U (D : Type) := UserCode Stop (Machine D)

variable {D : Type}

/-- The state of the kernel. -/
def state : U D (Machine D) := kernel get

/-- Changes the state of the kernel. -/
def update (f : Machine D → Machine D) : U D Unit := kernel (modify f)

/-- The statement `if (c) m`. -/
def when (c : Prop) [Decidable c] (m : U D Unit) : U D Unit := if c then m else pure ()

/-- Code on the tables of files and inodes. -/
def onCpu {α : Type} (m : Inodes.C D α) : U D α := kernel fun s =>
  match m s.cpu with
  | .ok (a, cpu) => .ok (a, { s with cpu := cpu })
  | .error e => .error e

/-- Calls a function outside of the model. -/
def outside {α : Type} (m : Outside D α) : U D α := onCpu (Inodes.onTable (Inodes.outside m))

variable (V : Env D)

/-- Interrupts come, or the process sleeps and others run. -/
def wait : U D Unit := update V.others

/-- `verify_area(addr, size)`. The process is killed when there is no page for a copy. -/
def verifyArea (addr size : ℕ) : U D Unit := do
  access (.verify addr size)
  outside (V.writeVerify addr size)

/-- `put_fs_byte(val, addr)`. -/
def putFsByte (addr : ℕ) : U D Unit := do
  access (.put addr 1)
  outside (V.fault addr)

/-- `put_fs_long(val, addr)`. -/
def putFsLong (addr : ℕ) : U D Unit := do
  access (.put addr 4)
  outside (V.fault addr)

/-- A loop that stores `n` bytes one after the other. -/
def putFsBytes (addr n : ℕ) : U D Unit := (List.range n).forM fun i => putFsByte V (addr + i)

/-! ### `pipe.c`

As in `Inodes.getPipeInode`, `PIPE_HEAD` and `PIPE_TAIL` are the elements 0 and 1 of `zone`. -/

/-- `sys_pipe(fildes)`. -/
def sysPipe (fildes : ℕ) : U D ℤ := do
  match ← onCpu (Inodes.sysPipe V.toServices) with
  | .error _ => pure (-1)
  | .ok _ => do
    putFsLong V fildes
    putFsLong V (fildes + 4)
    pure 0

/-- Changes the inode in a slot. -/
def setInode (k : Slot) (f : Inodes.Inode → Inodes.Inode) : U D Unit :=
  onCpu (Inodes.onTable (Inodes.setInode k f))

/-- The waiting of `read_pipe`: whether there is something in the pipe. -/
def pipeWait (k : Slot) : ℕ → U D Bool
  | 0 => throw .sleep
  | turns + 1 => do
    let s ← state
    let i := s.cpu.table.inode k
    if i.zone 0 = i.zone 1 then
      if i.count ≠ 2 then pure false
      else do
        wait V
        pipeWait k turns
    else pure true

/-- The copying of `read_pipe` to `b` and on, of at most `count` bytes: the address after them. -/
def pipeCopy (k : Slot) : ℕ → ℕ → U D ℕ
  | 0, b => pure b
  | count + 1, b => do
    let s ← state
    let i := s.cpu.table.inode k
    if i.zone 0 = i.zone 1 then pure b
    else do
      putFsByte V b
      setInode k fun i => { i with zone := Function.update i.zone 1 ((i.zone 1 + 1) % 4096) }
      pipeCopy k count (b + 1)

/-- `read_pipe(inode, buf, count)`. -/
def readPipe (k : Slot) (buf count turns : ℕ) : U D ℤ := do
  let any ← pipeWait V k turns
  if any = false then pure 0
  else do
    let b ← pipeCopy V k count buf
    pure ((b : ℤ) - buf)

/-! ### `tty_io.c` and `char_dev.c` -/

/-- The bit of `SIGALRM` in `signal`. -/
def ALRMMASK : UInt32 := 0x2000

/-- The bit of `SIGCHLD` in `signal`. -/
def CHLDMASK : UInt32 := 0x10000

/-- Changes the queue `secondary` of a terminal. -/
def setSecondary (channel : ℕ) (f : Tty.Queue → Tty.Queue) : U D Unit :=
  update fun s =>
    let tty := s.tty channel
    { s with tty := Function.update s.tty channel { tty with secondary := f tty.secondary } }

/-- `sleep_if_empty(&tty->secondary)`. -/
def sleepIfEmpty (channel : ℕ) : ℕ → U D Unit
  | 0 => throw .sleep
  | turns + 1 => do
    let s ← state
    if s.signal = 0 ∧ (s.tty channel).secondary.empty = true then do
      wait V
      sleepIfEmpty channel turns
    else pure ()

/-- The inner loop of `tty_read`, with room for `nr` characters from `b` on. The result tells
whether an end of file has been read, and where the loop has come to. -/
def ttyCopy (channel : ℕ) : ℕ → ℕ → U D (Bool × ℕ × ℕ)
  | 0, b => pure (false, b, 0)
  | nr + 1, b => do
    wait V
    let s ← state
    let tty := s.tty channel
    let c := tty.secondary.getch.1
    setSecondary channel fun q => q.getch.2
    when (c = tty.veof ∨ c = 10)
      (setSecondary channel fun q => { q with data := (q.data + (2 ^ 32 - 1)) % 2 ^ 32 })
    if c = tty.veof ∧ tty.canon = true then pure (true, b, nr + 1)
    else do
      putFsByte V b
      let s ← state
      if nr = 0 ∨ (s.tty channel).secondary.empty = true then pure (false, b + 1, nr)
      else ttyCopy channel nr (b + 1)

/-- `flag=(!oldalarm || time+jiffies<oldalarm)`. -/
def alarmFirst (s : Machine D) (oldalarm time : ℕ) : Bool :=
  oldalarm = 0 ∨ time + s.jiffies < oldalarm

/-- `current->alarm = alarm`. -/
def setAlarm (alarm : ℕ) : U D Unit := update fun s => { s with alarm := alarm }

/-- The alarm that is set after characters have been read from a terminal that is not canonical. -/
def ttyAlarm (channel oldalarm time : ℕ) (flag : Bool) : U D Bool := do
  let s ← state
  if time ≠ 0 ∧ (s.tty channel).canon = false then
    if alarmFirst s oldalarm time then do
      setAlarm (time + s.jiffies)
      pure true
    else do
      setAlarm oldalarm
      pure false
  else pure flag

/-- The outer loop of `tty_read`, which has come to `b` and has room for `nr` characters: the result
of a read that has met the end of a file, or else where the loop ends. -/
def ttyLoop (channel buf minimum oldalarm time : ℕ) : ℕ → Bool → ℕ → ℕ → U D (Bool × ℕ)
  | 0, _, _, _ => throw .sleep
  | turns + 1, flag, b, nr => do
    let s ← state
    if nr = 0 then pure (false, b)
    else if flag = true ∧ s.signal &&& ALRMMASK ≠ 0 then do
      update fun s => { s with signal := s.signal &&& ~~~ALRMMASK }
      pure (false, b)
    else if s.signal ≠ 0 then pure (false, b)
    else
      let q := (s.tty channel).secondary
      if q.empty = true ∨ ((s.tty channel).canon = true ∧ q.data = 0 ∧ 20 < q.left) then do
        sleepIfEmpty V channel turns
        ttyLoop channel buf minimum oldalarm time turns flag b nr
      else do
        let (eof, b, nr) ← ttyCopy V channel nr b
        if eof = true then pure (true, b)
        else do
          let flag ← ttyAlarm channel oldalarm time flag
          let s ← state
          if (if (s.tty channel).canon = true then b ≠ buf else minimum ≤ b - buf) then
            pure (false, b)
          else ttyLoop channel buf minimum oldalarm time turns flag b nr

/-- `tty_read(channel, buf, nr)`. -/
def ttyRead (channel buf nr turns : ℕ) : U D ℤ := do
  if 2 < channel then pure (-1)
  else do
    let s ← state
    let oldalarm := s.alarm
    let time := 10 * (s.tty channel).vtime
    let timed : Bool := time ≠ 0 ∧ (s.tty channel).vmin = 0
    let minimum := if timed then 1 else (s.tty channel).vmin
    let flag : Bool := timed && alarmFirst s oldalarm time
    when (flag = true) (setAlarm (time + s.jiffies))
    let (eof, b) ← ttyLoop V channel buf (min minimum nr) oldalarm time turns flag buf nr
    if eof = true then pure ((b : ℤ) - buf)
    else do
      setAlarm oldalarm
      let s ← state
      if s.signal ≠ 0 ∧ b = buf then pure (-EINTR) else pure ((b : ℤ) - buf)

/-- `rw_char(READ, dev, buf, count)`, with `rw_ttyx` and `rw_tty` in the table. -/
def rwChar (dev buf count turns : ℕ) : U D ℤ := do
  if 8 ≤ dev / 256 then throw (.panic "rw_char: dev>NRDEV")
  else if dev / 256 = 4 then ttyRead V (dev % 256) buf count turns
  else if dev / 256 = 5 then do
    let s ← state
    if s.cpu.current.tty < 0 then pure (-EPERM)
    else ttyRead V s.cpu.current.tty.toNat buf count turns
  else throw (.panic "Trying to r/w from/to nonexistent character device")

/-! ### `block_dev.c`, `file_dev.c` and `read_write.c` -/

/-- `bread(dev, block)`, in which other processes may run: whether the block could be read. -/
def bread (dev block : ℕ) : U D Bool := do
  let read ← outside (V.bread dev block)
  wait V
  pure read

/-- The `bread` of `file_read`, unless the block is a hole. -/
def breadUnless (dev nr : ℕ) : U D Bool := if nr = 0 then pure true else bread V dev nr

/-- Changes an entry of the file table. -/
def setFile (f : FileNr) (g : Inodes.File → Inodes.File) : U D Unit := onCpu (Inodes.setFile f g)

/-- The loop of `block_read`, with the number of bytes that have been read. Every turn reads at
least one, so that `count` turns are enough. -/
def blockReadFrom (dev : ℕ) (f : FileNr) : ℕ → ℕ → ℕ → ℕ → ℕ → U D ℤ
  | 0, _, _, _, read => pure read
  | turns + 1, block, buf, count, read => do
    if count = 0 then pure read
    else do
      let ok ← bread V dev block
      if ok = false then pure (if read ≠ 0 then (read : ℤ) else - EIO)
      else do
        let chars := min count 1024
        setFile f fun v => { v with pos := v.pos + chars }
        putFsBytes V buf chars
        outside (V.store block id)
        outside (V.brelse block)
        blockReadFrom dev f turns (block + 1) (buf + chars) (count - chars) (read + chars)

/-- `block_read(dev, &file->f_pos, buf, count)`. -/
def blockRead (dev : ℕ) (f : FileNr) (buf count : ℕ) : U D ℤ := do
  let s ← state
  blockReadFrom V dev f count ((s.cpu.file f).pos / 1024) buf count 0

/-- The loop of `file_read`, which has come to `buf` and has `left` bytes to read: the bytes that
are left when it ends. Every turn reads at least one, so that `left` turns are enough. -/
def fileReadFrom (k : Slot) (f : FileNr) : ℕ → ℕ → ℕ → U D ℕ
  | 0, _, left => pure left
  | turns + 1, buf, left => do
    if left = 0 then pure 0
    else do
      let s ← state
      let nr ← outside (V.bmap (s.cpu.table.inode k) ((s.cpu.file f).pos / 1024))
      wait V
      let s ← state
      let ok ← breadUnless V (s.cpu.table.inode k).dev nr
      if ok = false then pure left
      else do
        let s ← state
        let chars := min (1024 - (s.cpu.file f).pos % 1024) left
        setFile f fun v => { v with pos := v.pos + chars }
        putFsBytes V buf chars
        when (nr ≠ 0) (outside (V.brelse nr))
        fileReadFrom k f turns (buf + chars) (left - chars)

/-- `file_read(inode, filp, buf, count)`. -/
def fileRead (k : Slot) (f : FileNr) (buf count : ℕ) : U D ℤ := do
  let left ← fileReadFrom V k f count buf count
  pure (if count - left ≠ 0 then ((count - left : ℕ) : ℤ) else -ERROR)

/-- The part of `sys_read` after `verify_area`. -/
def readInode (f : FileNr) (k : Slot) (buf count turns : ℕ) : U D ℤ := do
  let s ← state
  let file := s.cpu.file f
  let i := s.cpu.table.inode k
  if i.pipe = true then
    if file.mode &&& 1 ≠ 0 then readPipe V k buf count turns else pure (-1)
  else if Fs.sIschr i.mode = true then rwChar V (i.zone 0) buf count turns
  else if Fs.sIsblk i.mode = true then blockRead V (i.zone 0) f buf count
  else if Fs.sIsdir i.mode = true ∨ Fs.sIsreg i.mode = true then
    let left : ℤ := if i.size < count + file.pos then i.size - file.pos else count
    if left ≤ 0 then pure 0 else fileRead V k f buf left.toNat
  else pure (-EINVAL)

/-- `sys_read(fd, buf, count)`. A file in use has an inode. -/
def sysRead (fd buf : ℕ) (count : ℤ) (turns : ℕ) : U D ℤ := do
  let s ← state
  match s.cpu.current.filpAt fd with
  | none => pure (-EINVAL)
  | some f =>
    if count < 0 then pure (-EINVAL)
    else if count = 0 then pure 0
    else do
      verifyArea V buf count.toNat
      match (s.cpu.file f).inode with
      | none => throw (.panic "no inode")
      | some k => readInode V f k buf count.toNat turns

/-! ### `exit.c` and `sys.c` -/

/-- `WNOHANG`. -/
def WNOHANG : ℕ := 1

/-- The condition of `sys_waitpid(pid)` on an entry of `task`. -/
def Machine.child (s : Machine D) (pid : ℤ) (i : Fin 64) : Bool :=
  i ≠ 0 ∧ i ≠ s.self ∧ (s.task i).any fun p =>
    (pid = -1 ∨ p.pid = pid ∨ (pid = 0 ∧ p.pgrp = s.cpu.current.pgrp) ∨
      (pid < 0 ∧ p.pgrp = -pid)) ∧ p.father = s.cpu.current.pid

/-- `release(task[i])`, at the end of which others run. -/
def release (i : Fin 64) (p : Proc) : U D Unit := do
  update fun s => { s with task := Function.update s.task i none }
  outside (V.freePage p.page)
  wait V

/-- `sys_waitpid(pid, stat_addr, options)` from the label `repeat` on. -/
def waitpidFrom (pid : ℤ) (statAddr options : ℕ) : ℕ → U D ℤ
  | 0 => throw .sleep
  | turns + 1 => do
    let s ← state
    let children := (List.finRange 64).reverse.filter fun i => s.child pid i
    match children.find? fun i => (s.task i).any Proc.zombie with
    | some i =>
      match s.task i with
      | none => pure (-ECHILD)
      | some p => do
        putFsLong V statAddr
        release V i p
        pure p.pid
    | none =>
      if children = [] then pure (-ECHILD)
      else if options &&& WNOHANG ≠ 0 then pure 0
      else do
        wait V
        update fun s => { s with signal := s.signal &&& ~~~CHLDMASK }
        let s ← state
        if s.signal = 0 then waitpidFrom pid statAddr options turns else pure (-EINTR)

/-- `sys_waitpid(pid, stat_addr, options)`. -/
def sysWaitpid (pid : ℤ) (statAddr options turns : ℕ) : U D ℤ := do
  verifyArea V statAddr 4
  waitpidFrom V pid statAddr options turns

/-- `sys_time(tloc)`. -/
def sysTime (tloc : ℕ) : U D ℤ := do
  let s ← state
  let i : ℤ := s.startupTime + s.jiffies / 100
  if tloc ≠ 0 then do
    verifyArea V tloc 4
    putFsLong V tloc
    pure i
  else pure i

/-- `sys_times(tbuf)`. -/
def sysTimes (tbuf : ℕ) : U D ℤ := do
  let s ← state
  if tbuf = 0 then pure s.jiffies
  else do
    verifyArea V tbuf 16
    putFsLong V tbuf
    putFsLong V (tbuf + 4)
    putFsLong V (tbuf + 8)
    putFsLong V (tbuf + 12)
    let s ← state
    pure s.jiffies

/-- `sizeof(struct utsname)`. -/
def utsnameSize : ℕ := 45

/-- `sys_uname(name)`. -/
def sysUname (name : ℕ) : U D ℤ := do
  if name = 0 then pure (-1)
  else do
    verifyArea V name utsnameSize
    putFsBytes V name utsnameSize
    pure 0

/-! ### `stat.c` and `tty_ioctl.c` -/

/-- `sizeof(struct stat)`. -/
def statSize : ℕ := 32

/-- `cp_stat(inode, statbuf)`. -/
def cpStat (statbuf : ℕ) : U D ℤ := do
  verifyArea V statbuf statSize
  putFsBytes V statbuf statSize
  pure 0

/-- `sys_stat(filename, statbuf)`. -/
def sysStat (filename : List UInt8) (statbuf : ℕ) : U D ℤ := do
  let s ← state
  match ← onCpu (Inodes.onTable (Inodes.namei V.toServices s.cpu.current filename)) with
  | none => pure (-ENOENT)
  | some k => do
    let i ← cpStat V statbuf
    onCpu (Inodes.onTable (Inodes.iput V.toServices k))
    pure i

/-- `sys_fstat(fd, statbuf)`. -/
def sysFstat (fd statbuf : ℕ) : U D ℤ := do
  let s ← state
  match (s.cpu.current.filpAt fd).bind fun f => (s.cpu.file f).inode with
  | none => pure (-ENOENT)
  | some _ => cpStat V statbuf

/-- The commands of `tty_ioctl` that store to user memory, and the others. -/
inductive IoctlCmd
  | TCGETS
  | TCGETA
  | TIOCGPGRP
  | TIOCOUTQ
  | other (cmd : ℕ)

/-- `sizeof(struct termios)`. -/
def termiosSize : ℕ := 36

/-- `sizeof(struct termio)`. -/
def termioSize : ℕ := 18

/-- `get_termios(tty, termios)`, and `get_termio(tty, termio)` with the size of its structure. -/
def getTermios (size addr : ℕ) : U D ℤ := do
  verifyArea V addr size
  putFsBytes V addr size
  pure 0

/-- `tty_ioctl(dev, cmd, arg)`. -/
def ttyIoctl (dev : ℕ) (cmd : IoctlCmd) (arg : ℕ) : U D ℤ := do
  let s ← state
  if dev / 256 = 5 ∧ s.cpu.current.tty < 0 then throw (.panic "tty_ioctl: dev<0")
  else
    let dev := if dev / 256 = 5 then s.cpu.current.tty.toNat else dev % 256
    match cmd with
    | .TCGETS => getTermios V termiosSize arg
    | .TCGETA => getTermios V termioSize arg
    | .TIOCGPGRP | .TIOCOUTQ => do
      verifyArea V arg 4
      putFsLong V arg
      pure 0
    | .other cmd => kernel (V.otherIoctl dev cmd arg)

/-- `sys_ioctl(fd, cmd, arg)`. A file in use has an inode. -/
def sysIoctl (fd : ℕ) (cmd : IoctlCmd) (arg : ℕ) : U D ℤ := do
  let s ← state
  match (s.cpu.current.filpAt fd).map fun f => (s.cpu.file f).inode with
  | none => pure (-EBADF)
  | some none => throw (.panic "no inode")
  | some (some k) =>
    let i := s.cpu.table.inode k
    if Fs.sIschr i.mode = false ∧ Fs.sIsblk i.mode = false then pure (-EINVAL)
    else if 8 ≤ i.zone 0 / 256 then throw (.panic "unknown device for ioctl")
    else if i.zone 0 / 256 = 4 ∨ i.zone 0 / 256 = 5 then ttyIoctl V (i.zone 0) cmd arg
    else pure (-ENOTTY)

/-! ### Calls -/

/-- The system calls, with their arguments. Pointers are addresses. -/
inductive Call
  | pipe (fildes : ℕ)
  | read (fd buf : ℕ) (count : ℤ)
  | waitpid (pid : ℤ) (statAddr options : ℕ)
  | time (tloc : ℕ)
  | times (tbuf : ℕ)
  | uname (name : ℕ)
  | stat (filename : List UInt8) (statbuf : ℕ)
  | fstat (fd statbuf : ℕ)
  | ioctl (fd : ℕ) (cmd : IoctlCmd) (arg : ℕ)

/-- The code of a call, in which every loop that sleeps does so many turns at most. -/
def Call.code (turns : ℕ) : Call → U D ℤ
  | .pipe fildes => sysPipe V fildes
  | .read fd buf count => sysRead V fd buf count turns
  | .waitpid pid statAddr options => sysWaitpid V pid statAddr options turns
  | .time tloc => sysTime V tloc
  | .times tbuf => sysTimes V tbuf
  | .uname name => sysUname V name
  | .stat filename statbuf => sysStat V filename statbuf
  | .fstat fd statbuf => sysFstat V fd statbuf
  | .ioctl fd cmd arg => sysIoctl V fd cmd arg

end Linux001.UserMemory
