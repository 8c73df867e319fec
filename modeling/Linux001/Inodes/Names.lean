import Linux001.Inodes.Table

/-!
# Path names and slots

The functions of `fs/namei.c` that hold slots of the inode table: walking path names, opening files,
and the system calls that change directories, with all their returns. `current` is passed as an
argument. A path name is the list of its bytes before the terminating zero.

## Main definitions

* `Task`: the fields of a process that the calls of this model use.
* `permission`, `getDir`, `dirNamei`, `namei`, `openNamei`.
* `sysMkdir`, `sysRmdir`, `sysUnlink`, `sysLink`.
-/

namespace Linux001.Inodes

open Fs (sIsreg sIsdir MAY_EXEC MAY_WRITE O_ACCMODE O_WRONLY O_CREAT O_EXCL O_TRUNC accMode)

/-- Error numbers. A return of `-1` is that of `EPERM`. -/
inductive Errno
  | EPERM | ENOENT | ENOEXEC | EBADF | ECHILD | EAGAIN | EACCES | EEXIST | EXDEV | ENOTDIR | EISDIR
  | EINVAL | EMFILE | ENOSPC | ENOTEMPTY | ERROR
  deriving DecidableEq, Repr

/-- What a function returns: a value, or a negated error number. -/
abbrev Result (α : Type) := Except Errno α

/-- The fields of `struct task_struct` that the calls of this model use. `pwd`, `root` and the
elements of `filp` may be `NULL`. -/
structure Task where
  uid : ℕ
  euid : ℕ
  suid : ℕ
  gid : ℕ
  egid : ℕ
  sgid : ℕ
  umask : UInt16
  pid : ℤ
  father : ℤ
  pgrp : ℤ
  leader : Bool
  tty : ℤ
  pwd : Option Slot
  root : Option Slot
  filp : Fin 20 → Option (Fin 64)
  closeOnExec : Fin 20 → Bool

variable {D : Type} (V : Services D) (current : Task)

/-- `permission(inode, mask)`. -/
def permission (i : Inode) (mask : UInt16) : UInt16 :=
  if i.dev ≠ 0 ∧ i.nlinks = 0 then 0
  else
    let mode : UInt16 :=
      if ¬ (current.uid ≠ 0 ∧ current.euid ≠ 0) then 0o777
      else if current.uid = i.uid ∨ current.euid = i.uid then i.mode >>> 6
      else if current.gid = i.gid ∨ current.egid = i.gid then i.mode >>> 3
      else i.mode
    mode &&& mask &&& 7

/-! ### Path names -/

/-- The loop of `get_dir` from the slot `k` on, through the directories of the list. -/
def getDirFrom : Slot → List (List UInt8) → M D (Option Slot)
  | k, names => do
    let s ← get
    if sIsdir (s.inode k).mode = false ∨ permission current (s.inode k) MAY_EXEC = 0 then do
      iput V k
      pure none
    else
      match names with
      | [] => pure (some k)
      | name :: rest => do
        match ← findEntry V k name with
        | none => do
          iput V k
          pure none
        | some de => do
          let inr ← entryInode V de
          let s ← get
          let idev := (s.inode k).dev
          brelse V de
          iput V k
          match ← iget V idev inr with
          | none => pure none
          | some k => getDirFrom k rest

/-- `!inode || !inode->i_count`. -/
def Table.unused (s : Table D) (k : Option Slot) : Bool :=
  k.all fun k => (s.inode k).count = 0

/-- `inode->i_count++`. -/
def incCount (k : Slot) : M D Unit := setInode k fun i => { i with count := i.count + 1 }

/-- `get_dir(pathname)`; the byte 47 is the slash. -/
def getDir (pathname : List UInt8) : M D (Option Slot) := do
  let s ← get
  if s.unused current.root then panic "No root inode"
  else if s.unused current.pwd then panic "No cwd inode"
  else
    match pathname with
    | [] => pure none
    | c :: rest =>
      match if c = 47 then current.root else current.pwd with
      | none => pure none
      | some k => do
        let names := if c = 47 then rest.splitOn 47 else pathname.splitOn 47
        incCount k
        getDirFrom V current k names.dropLast

/-- `dir_namei(pathname, namelen, name)`. -/
def dirNamei (pathname : List UInt8) : M D (Option (Slot × List UInt8)) := do
  match ← getDir V current pathname with
  | none => pure none
  | some dir => pure (some (dir, (pathname.splitOn 47).getLastD []))

/-- `namei(pathname)`. -/
def namei (pathname : List UInt8) : M D (Option Slot) := do
  match ← dirNamei V current pathname with
  | none => pure none
  | some (dir, basename) =>
    if basename = [] then pure (some dir)
    else do
      match ← findEntry V dir basename with
      | none => do
        iput V dir
        pure none
      | some de => do
        let inr ← entryInode V de
        let s ← get
        let dev := (s.inode dir).dev
        brelse V de
        iput V dir
        match ← iget V dev inr with
        | none => pure none
        | some k => do
          setDirt k true
          pure (some k)

/-- The part of `open_namei` that creates a file in the directory `dir`, which has no entry for
`basename`. -/
def openCreate (dir : Slot) (basename : List UInt8) (flag mode : UInt16) : M D (Result Slot) := do
  let s ← get
  if flag &&& O_CREAT = 0 then do
    iput V dir
    pure (.error .ENOENT)
  else if permission current (s.inode dir) MAY_WRITE = 0 then do
    iput V dir
    pure (.error .EACCES)
  else do
    match ← newInode V (s.inode dir).dev with
    | none => do
      iput V dir
      pure (.error .ENOSPC)
    | some k => do
      edit k fun i => { i with mode := mode }
      setDirt k true
      match ← addEntry V dir basename with
      | none => do
        edit k fun i => { i with nlinks := (i.nlinks + 255) % 256 }
        iput V k
        iput V dir
        pure (.error .ENOSPC)
      | some de => do
        let s ← get
        setEntry V de (s.inode k).num
        brelse V de
        iput V dir
        pure (.ok k)

/-- `open_namei(pathname, flag, mode, res_inode)`. -/
def openNamei (pathname : List UInt8) (flag mode : UInt16) : M D (Result Slot) := do
  let flag := if flag &&& O_TRUNC ≠ 0 ∧ flag &&& O_ACCMODE = 0 then flag ||| O_WRONLY else flag
  let mode := mode &&& 0o777 &&& ~~~current.umask ||| 0o100000
  match ← dirNamei V current pathname with
  | none => pure (.error .ENOENT)
  | some (dir, basename) =>
    if basename = [] then
      if flag &&& (O_ACCMODE ||| O_CREAT ||| O_TRUNC) = 0 then pure (.ok dir)
      else do
        iput V dir
        pure (.error .EISDIR)
    else do
      match ← findEntry V dir basename with
      | none => openCreate V current dir basename flag mode
      | some de => do
        let inr ← entryInode V de
        let s ← get
        let dev := (s.inode dir).dev
        brelse V de
        iput V dir
        if flag &&& O_EXCL ≠ 0 then pure (.error .EEXIST)
        else do
          match ← iget V dev inr with
          | none => pure (.error .EACCES)
          | some k => do
            let s ← get
            if (sIsdir (s.inode k).mode ∧ flag &&& O_ACCMODE ≠ 0) ∨
                permission current (s.inode k) (accMode flag) ≠ accMode flag then do
              iput V k
              pure (.error .EPERM)
            else do
              if flag &&& O_TRUNC ≠ 0 then truncate V k else pure ()
              pure (.ok k)

/-! ### System calls on directories -/

/-- The part of `sys_mkdir` that fills the new directory `k` and enters it into `dir`. -/
def mkdirIn (dir : Slot) (basename : List UInt8) (mode : UInt16) (k : Slot) :
    M D (Result ℕ) := do
  edit k fun i => { i with size := 32 }
  setDirt k true
  let s ← get
  let dev := (s.inode k).dev
  let z ← outside (V.newBlock dev)
  edit k fun i => { i with zone := Function.update i.zone 0 z }
  if z = 0 then do
    iput V dir
    edit k fun i => { i with nlinks := (i.nlinks + 255) % 256 }
    iput V k
    pure (.error .ENOSPC)
  else do
    setDirt k true
    let read ← outside (V.bread dev z)
    if read = false then do
      iput V dir
      let s ← get
      outside (V.freeBlock (s.inode k).dev ((s.inode k).zone 0))
      edit k fun i => { i with nlinks := (i.nlinks + 255) % 256 }
      iput V k
      pure (.error .ERROR)
    else do
      let s ← get
      outside (V.store z fun b => Fs.setEntryName (Fs.setEntryInode b 0 (s.inode k).num) 0 [46, 0])
      outside (V.store z fun b =>
        Fs.setEntryName (Fs.setEntryInode b 1 (s.inode dir).num) 1 [46, 46, 0])
      edit k fun i => { i with nlinks := 2 }
      outside (V.brelse z)
      edit k fun i => { i with mode := 0o040000 ||| (mode &&& 0o777 &&& ~~~current.umask) }
      setDirt k true
      match ← addEntry V dir basename with
      | none => do
        iput V dir
        let s ← get
        outside (V.freeBlock (s.inode k).dev ((s.inode k).zone 0))
        edit k fun i => { i with nlinks := 0 }
        iput V k
        pure (.error .ENOSPC)
      | some de => do
        let s ← get
        setEntry V de (s.inode k).num
        edit dir fun i => { i with nlinks := (i.nlinks + 1) % 256 }
        setDirt dir true
        iput V dir
        iput V k
        brelse V de
        pure (.ok 0)

/-- `sys_mkdir(pathname, mode)`. -/
def sysMkdir (pathname : List UInt8) (mode : UInt16) : M D (Result ℕ) := do
  if current.euid ≠ 0 ∧ current.uid ≠ 0 then pure (.error .EPERM)
  else do
    match ← dirNamei V current pathname with
    | none => pure (.error .ENOENT)
    | some (dir, basename) => do
      let s ← get
      if basename = [] then do
        iput V dir
        pure (.error .ENOENT)
      else if permission current (s.inode dir) MAY_WRITE = 0 then do
        iput V dir
        pure (.error .EPERM)
      else do
        match ← findEntry V dir basename with
        | some de => do
          brelse V de
          iput V dir
          pure (.error .EEXIST)
        | none => do
          let s ← get
          match ← newInode V (s.inode dir).dev with
          | none => do
            iput V dir
            pure (.error .ENOSPC)
          | some k => mkdirIn V current dir basename mode k

/-- The error returns of `sys_rmdir` and `sys_unlink` once the entry and the inode are there. -/
def putBoth (dir : Slot) (de : ℕ × ℕ) (k : Slot) (e : Errno) : M D (Result ℕ) := do
  iput V k
  iput V dir
  brelse V de
  pure (.error e)

/-- `sys_rmdir(name)`. -/
def sysRmdir (name : List UInt8) : M D (Result ℕ) := do
  if current.euid ≠ 0 ∧ current.uid ≠ 0 then pure (.error .EPERM)
  else do
    match ← dirNamei V current name with
    | none => pure (.error .ENOENT)
    | some (dir, basename) =>
      if basename = [] then do
        iput V dir
        pure (.error .ENOENT)
      else do
        match ← findEntry V dir basename with
        | none => do
          iput V dir
          pure (.error .ENOENT)
        | some de => do
          let s ← get
          if permission current (s.inode dir) MAY_WRITE = 0 then do
            iput V dir
            brelse V de
            pure (.error .EPERM)
          else do
            let nr ← entryInode V de
            match ← iget V (s.inode dir).dev nr with
            | none => do
              iput V dir
              brelse V de
              pure (.error .EPERM)
            | some k => do
              let s ← get
              if k = dir then putBoth V dir de k .EPERM
              else if sIsdir (s.inode k).mode = false then putBoth V dir de k .ENOTDIR
              else do
                let empty ← emptyDir V k
                if empty = false then putBoth V dir de k .ENOTEMPTY
                else do
                  setEntry V de 0
                  brelse V de
                  edit k fun i => { i with nlinks := 0 }
                  setDirt k true
                  edit dir fun i => { i with nlinks := (i.nlinks + 255) % 256 }
                  setDirt dir true
                  iput V dir
                  iput V k
                  pure (.ok 0)

/-- `sys_unlink(name)`. -/
def sysUnlink (name : List UInt8) : M D (Result ℕ) := do
  match ← dirNamei V current name with
  | none => pure (.error .ENOENT)
  | some (dir, basename) => do
    let s ← get
    if basename = [] then do
      iput V dir
      pure (.error .ENOENT)
    else if permission current (s.inode dir) MAY_WRITE = 0 then do
      iput V dir
      pure (.error .EPERM)
    else do
      match ← findEntry V dir basename with
      | none => do
        iput V dir
        pure (.error .ENOENT)
      | some de => do
        let nr ← entryInode V de
        match ← iget V (s.inode dir).dev nr with
        | none => do
          iput V dir
          brelse V de
          pure (.error .ENOENT)
        | some k => do
          let s ← get
          if sIsreg (s.inode k).mode = false then putBoth V dir de k .EPERM
          else do
            if (s.inode k).nlinks = 0 then edit k fun i => { i with nlinks := 1 } else pure ()
            setEntry V de 0
            brelse V de
            edit k fun i => { i with nlinks := (i.nlinks + 255) % 256 }
            setDirt k true
            iput V k
            iput V dir
            pure (.ok 0)

/-- `sys_link(oldname, newname)`. -/
def sysLink (oldname newname : List UInt8) : M D (Result ℕ) := do
  match ← namei V current oldname with
  | none => pure (.error .ENOENT)
  | some k => do
    let s ← get
    if sIsreg (s.inode k).mode = false then do
      iput V k
      pure (.error .EPERM)
    else do
      match ← dirNamei V current newname with
      | none => do
        iput V k
        pure (.error .EACCES)
      | some (dir, basename) => do
        let s ← get
        if basename = [] then do
          iput V k
          iput V dir
          pure (.error .EPERM)
        else if (s.inode dir).dev ≠ (s.inode k).dev then do
          iput V dir
          iput V k
          pure (.error .EXDEV)
        else if permission current (s.inode dir) MAY_WRITE = 0 then do
          iput V dir
          iput V k
          pure (.error .EACCES)
        else do
          match ← findEntry V dir basename with
          | some de => do
            brelse V de
            iput V dir
            iput V k
            pure (.error .EEXIST)
          | none => do
            match ← addEntry V dir basename with
            | none => do
              iput V dir
              iput V k
              pure (.error .ENOSPC)
            | some de => do
              let s ← get
              setEntry V de (s.inode k).num
              brelse V de
              iput V dir
              edit k fun i => { i with nlinks := (i.nlinks + 1) % 256 }
              setDirt k true
              iput V k
              pure (.ok 0)

end Linux001.Inodes
