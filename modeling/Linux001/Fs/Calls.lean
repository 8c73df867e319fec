import Linux001.Fs.Namei
import Linux001.Lib.Runs

/-!
# System calls on open files

The model of the parts of `fs/open.c`, `fs/read_write.c` and `fs/file_dev.c` that open, close,
position and write files of the mounted device. The state is that of the file system with the tasks
and the file table.

## Main definitions

* `System`: the file system, the tasks and the file table.
* `sysOpen`, `sysClose`, `fileWrite`, `sysLseek`.
-/

namespace Linux001.Fs

/-- An entry of the file table (`struct file`). -/
structure File where
  mode : UInt16
  flags : UInt16
  count : ℕ
  inode : ℕ
  pos : ℕ

/-- The kernel as the file system calls see it. -/
structure System where
  fs : State
  tasks : Fin 64 → Task
  files : Fin 64 → File
  /-- `tty_table[..].pgrp`. -/
  ttyPgrp : ℤ → ℕ

/-- Kernel code on the whole state. -/
abbrev K := StateT System (Except Fault)

/-- Code of the file system. -/
def onFs {α : Type} (m : M α) : K α := fun S =>
  match m S.fs with
  | .ok (a, s) => .ok (a, { S with fs := s })
  | .error e => .error e

variable (sb : Super)

def setTask (t : Fin 64) (f : Task → Task) : K Unit :=
  modify fun S => { S with tasks := Function.update S.tasks t (f (S.tasks t)) }

def setFile (f : Fin 64) (g : File → File) : K Unit :=
  modify fun S => { S with files := Function.update S.files f (g (S.files f)) }

/-- `current->filp[fd] = f`. -/
def setFilp (t : Fin 64) (fd : Fin 20) (f : Option (Fin 64)) : K Unit :=
  setTask t fun c => { c with filp := Function.update c.filp fd f }

/-! ### `open.c` -/

/-- The error returns of `sys_open` once the file `f` has been taken. -/
def openFail (t : Fin 64) (fd : Fin 20) (f : Fin 64) (e : Errno) : K Result := do
  setFilp t fd none
  setFile f fun v => { v with count := 0 }
  pure (.error e)

/-- The part of `sys_open` that opens a terminal: whether the open may go on. -/
def openTty (t : Fin 64) (n : ℕ) : K Bool := do
  let S ← get
  let dev := (S.fs.ino n).zone 0
  if sIschr (S.fs.ino n).mode = false then pure true
  else if dev / 256 = 4 then do
    if (S.tasks t).leader ∧ (S.tasks t).tty < 0 then do
      setTask t fun c => { c with tty := (dev % 256 : ℕ) }
      modify fun S => { S with
        ttyPgrp := Function.update S.ttyPgrp (dev % 256 : ℕ) (S.tasks t).pgrp }
    else pure ()
    pure true
  else if dev / 256 = 5 then pure (decide (0 ≤ (S.tasks t).tty))
  else pure true

/-- `sys_open(filename, flag, mode)`. -/
def sysOpen (t : Fin 64) (filename : List UInt8) (flag mode : UInt16) : K Result := do
  let S ← get
  let mode := mode &&& 0o777 &&& ~~~(S.tasks t).umask
  match (List.finRange 20).find? fun fd => (S.tasks t).filp fd = none with
  | none => pure (.error .EINVAL)
  | some fd => do
    setTask t fun c => { c with closeOnExec := Function.update c.closeOnExec fd false }
    match (List.finRange 64).find? fun f => (S.files f).count = 0 with
    | none => pure (.error .EINVAL)
    | some f => do
      setFilp t fd (some f)
      setFile f fun v => { v with count := v.count + 1 }
      match ← onFs (openNamei sb (S.tasks t) filename flag mode) with
      | .error e => openFail t fd f e
      | .ok n => do
        let go ← openTty t n
        if go = false then do
          onFs (iput sb n)
          openFail t fd f .EPERM
        else do
          let S ← get
          setFile f fun _ => ⟨(S.fs.ino n).mode, flag, 1, n, 0⟩
          pure (.ok fd)

/-- `sys_close(fd)`. -/
def sysClose (t : Fin 64) (fd : ℕ) : K Result := do
  let S ← get
  if h : fd < 20 then do
    setTask t fun c => { c with closeOnExec := Function.update c.closeOnExec ⟨fd, h⟩ false }
    match (S.tasks t).filp ⟨fd, h⟩ with
    | none => pure (.error .EINVAL)
    | some f => do
      setFilp t ⟨fd, h⟩ none
      if (S.files f).count = 0 then throw (.panic "Close: file count is 0")
      else do
        setFile f fun v => { v with count := v.count - 1 }
        if (S.files f).count - 1 ≠ 0 then pure (.ok 0)
        else do
          onFs (iput sb (S.files f).inode)
          pure (.ok 0)
  else pure (.error .EINVAL)

/-! ### `file_dev.c` -/

/-- Bytes copied from the user into the buffer: `c` of them, from the `i`-th of `buf` on, to the
offset `o`. -/
def copyIn (buf : ℕ → UInt8) (i o c : ℕ) (b : Block) : Block := fun j =>
  if o ≤ j ∧ j < o + c then buf (i + (j - o)) else b j

/-- The loop of `file_write`: `pos` is the position and `i` the number of bytes written. Every turn
writes at least one byte, so that `count` turns are enough. -/
def fileWriteFrom (n : ℕ) (buf : ℕ → UInt8) (count : ℕ) : ℕ → ℕ → ℕ → M (ℕ × ℕ)
  | 0, pos, i => pure (pos, i)
  | fuel + 1, pos, i =>
    if i < count then do
      let block ← createBlock sb n (pos / 1024)
      if block = 0 then pure (pos, i)
      else do
        bread block
        let c := min (1024 - pos % 1024) (count - i)
        let s ← get
        if (s.ino n).size < pos + c then do
          edit n fun v => { v with size := pos + c }
          markDirty n
        else pure ()
        store block (copyIn buf i (pos % 1024) c)
        brelse block
        fileWriteFrom n buf count fuel (pos + c) (i + c)
    else pure (pos, i)

/-- `file_write(inode, filp, buf, count)`. -/
def fileWrite (n : ℕ) (f : Fin 64) (buf : ℕ → UInt8) (count : ℕ) : K Result := do
  let S ← get
  let append := (S.files f).flags &&& O_APPEND ≠ 0
  let pos := if append then (S.fs.ino n).size else (S.files f).pos
  let r ← onFs (fileWriteFrom sb n buf count count pos 0)
  if append then pure () else setFile f fun v => { v with pos := r.1 }
  if r.2 = 0 then pure (.error .EPERM) else pure (.ok r.2)

/-! ### `read_write.c` -/

/-- `sys_lseek(fd, offset, origin)`, with the sums in 32-bit arithmetic. -/
def sysLseek (t : Fin 64) (fd : ℕ) (offset : ℤ) (origin : ℕ) : K Result := do
  let S ← get
  if h : fd < 20 then
    match (S.tasks t).filp ⟨fd, h⟩ with
    | none => pure (.error .EBADF)
    | some f =>
      if 2 < origin then pure (.error .EINVAL)
      else
        let base := [0, (S.files f).pos, (S.fs.ino (S.files f).inode).size].getD origin 0
        let pos : ℤ := base + offset
        if pos < 0 ∨ 2 ^ 31 ≤ pos then pure (.error .EINVAL)
        else do
          setFile f fun v => { v with pos := pos.toNat }
          pure (.ok pos.toNat)
  else pure (.error .EBADF)

/-! ### Code of the file system -/

/-- Code of the file system on the whole state. -/
theorem ensures_onFs {α : Type} {m : M α} {S : System} {Q : α → System → Prop}
    (h : Ensures m S.fs fun a s => Q a { S with fs := s }) : Ensures (onFs m) S Q := by
  intro a S' hm
  unfold onFs at hm
  split at hm
  · cases hm
    exact h _ _ ‹_›
  · cases hm

end Linux001.Fs
