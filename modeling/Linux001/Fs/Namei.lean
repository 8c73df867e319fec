import Linux001.Fs.Model
import Mathlib.Tactic.Linarith

/-!
# Path names and directories

The model of `fs/namei.c`: looking up and adding directory entries, and walking path names.
`current` is passed as an argument. A path name is the list of its bytes before the terminating
zero. All inodes are on the one mounted device.

## Main definitions

* `permission`, `matchEntry`: the checks on inodes and entries.
* `findEntry`, `addEntry`, `emptyDir`: loops over the entries of a directory.
* `getDir`, `dirNamei`, `namei`, `openNamei`: path names.
-/

namespace Linux001.Fs

/-- Error numbers that the modelled calls return. -/
inductive Errno
  | EPERM | ENOENT | EBADF | EAGAIN | EACCES | EEXIST | ENOTDIR | EISDIR | EINVAL | EMFILE
  | ENOSPC | ENOTEMPTY | ERROR
  deriving DecidableEq, Repr

/-- What a system call returns: a number, or a negated error number. -/
abbrev Result := Except Errno ℕ

/-- The fields of `struct task_struct` that the file system uses. `pwd` and `root` are the numbers
of inodes in core, `filp` points into the file table. -/
structure Task where
  uid : ℕ
  euid : ℕ
  gid : ℕ
  egid : ℕ
  umask : UInt16
  pwd : ℕ
  root : ℕ
  filp : Fin 20 → Option (Fin 64)
  closeOnExec : Fin 20 → Bool
  leader : Bool
  tty : ℤ
  pgrp : ℕ

def MAY_EXEC : UInt16 := 1
def MAY_WRITE : UInt16 := 2

def O_ACCMODE : UInt16 := 3
def O_WRONLY : UInt16 := 1
def O_CREAT : UInt16 := 0o100
def O_EXCL : UInt16 := 0o200
def O_TRUNC : UInt16 := 0o1000
def O_APPEND : UInt16 := 0o2000

/-- `permission(inode, mask)`. -/
def permission (current : Task) (i : Inode) (mask : UInt16) : UInt16 :=
  if i.nlinks = 0 then 0
  else
    let mode : UInt16 :=
      if ¬ (current.uid ≠ 0 ∧ current.euid ≠ 0) then 0o777
      else if current.uid = i.uid ∨ current.euid = i.uid then i.mode >>> 6
      else if current.gid = i.gid ∨ current.egid = i.gid then i.mode >>> 3
      else i.mode
    mode &&& mask &&& 7

/-- `ACC_MODE(flag)`. -/
def accMode (flag : UInt16) : UInt16 := [4, 2, 6, 0o377].getD (flag &&& O_ACCMODE).toNat 0

/-- `match(len, name, de)` for the `k`-th entry of a block. -/
def matchEntry (name : List UInt8) (b : Block) (k : ℕ) : Bool :=
  entryInode b k ≠ 0 && name.length ≤ 14 &&
    (name.length = 14 || entryName b k name.length = 0) &&
    (List.range name.length).all fun i => entryName b k i = name.getD i 0

variable (sb : Super)

/-! ### Directory entries -/

/-- The block of the `i`-th entry in `find_entry`: `bh` until its entries are used up, then the
next one, which may be missing. -/
def findBlock (dir i : ℕ) (bh : Option ℕ) : M (Option ℕ) :=
  if i % 64 = 0 ∧ i ≠ 0 then do
    match bh with
    | none => pure ()
    | some z => brelse z
    let block ← bmap sb dir (i / 64)
    if block = 0 then pure none
    else do
      bread block
      pure (some block)
  else pure bh

/-- The loop of `find_entry` from entry `i` on, with the buffer `bh`. Every turn uses up at least
one of the `entries`, which bounds their number by `fuel`. -/
def findFrom (dir : ℕ) (name : List UInt8) (entries : ℕ) :
    ℕ → ℕ → Option ℕ → M (Option (ℕ × ℕ))
  | fuel, i, bh => do
    match fuel, decide (i < entries) with
    | fuel + 1, true => do
      match ← findBlock sb dir i bh with
      | none => findFrom dir name entries fuel (i + 64) none
      | some z => do
        let s ← get
        if matchEntry name (s.data z) (i % 64) then pure (some (z, i % 64))
        else findFrom dir name entries fuel (i + 1) (some z)
    | _, _ => do
      match bh with
      | none => pure ()
      | some z => brelse z
      pure none

/-- `find_entry(dir, name, namelen, res_dir)`: the block of the entry, whose buffer is held, and
the index of the entry in it. -/
def findEntry (dir : ℕ) (name : List UInt8) : M (Option (ℕ × ℕ)) := do
  let s ← get
  let entries := (s.ino dir).size / 16
  if name.take 14 = [] then pure none
  else if (s.ino dir).zone 0 = 0 then pure none
  else do
    bread ((s.ino dir).zone 0)
    findFrom sb dir (name.take 14) entries entries 0 (some ((s.ino dir).zone 0))

/-- The block of the `i`-th entry in `add_entry`, created when it is missing. -/
def addBlock (dir i bh : ℕ) : M (Option ℕ) :=
  if i % 64 = 0 ∧ i ≠ 0 then do
    brelse bh
    let block ← createBlock sb dir (i / 64)
    if block = 0 then pure none
    else do
      bread block
      pure (some block)
  else pure (some bh)

/-- The loop of `add_entry` from entry `i` on. The first entry beyond the end of the directory is
taken at the latest, so that `i_size / 16 + 1` turns are enough. -/
def addFrom (dir : ℕ) (name : List UInt8) : ℕ → ℕ → ℕ → M (Option (ℕ × ℕ))
  | fuel, i, bh => do
    match ← addBlock sb dir i bh with
    | none => pure none
    | some z => do
      let s ← get
      if (s.ino dir).size ≤ i * 16 then do
        store z fun b => setEntryInode b (i % 64) 0
        edit dir fun v => { v with size := (i + 1) * 16 }
        markDirty dir
      else pure ()
      let s ← get
      if entryInode (s.data z) (i % 64) = 0 then do
        store z fun b => setEntryName b (i % 64) ((List.range 14).map fun i => name.getD i 0)
        pure (some (z, i % 64))
      else
        match fuel with
        | 0 => panic "add_entry: end of directory"
        | fuel + 1 => addFrom dir name fuel (i + 1) z

/-- `add_entry(dir, name, namelen, res_dir)`. -/
def addEntry (dir : ℕ) (name : List UInt8) : M (Option (ℕ × ℕ)) := do
  let s ← get
  if name.take 14 = [] then pure none
  else if (s.ino dir).zone 0 = 0 then pure none
  else do
    bread ((s.ino dir).zone 0)
    addFrom sb dir (name.take 14) ((s.ino dir).size / 16 + 1) 0 ((s.ino dir).zone 0)

/-- `de->inode = n` in a held buffer. -/
def setDe (de : ℕ × ℕ) (n : ℕ) : M Unit :=
  store de.1 fun b => setEntryInode b de.2 n

/-- The loop of `empty_dir` from entry `nr` on. When a block is missing, `bh` still points to the
buffer that has been released. -/
def emptyFrom (n len : ℕ) : ℕ → ℕ → ℕ → M Bool
  | fuel, nr, bh => do
    match fuel, decide (nr < len) with
    | fuel + 1, true =>
      if nr % 64 = 0 then do
        brelse bh
        let block ← bmap sb n (nr / 64)
        if block = 0 then emptyFrom n len fuel (nr + 64) bh
        else do
          bread block
          let s ← get
          if entryInode (s.data block) (nr % 64) ≠ 0 then do
            brelse block
            pure false
          else emptyFrom n len fuel (nr + 1) block
      else do
        let s ← get
        if entryInode (s.data bh) (nr % 64) ≠ 0 then do
          brelse bh
          pure false
        else emptyFrom n len fuel (nr + 1) bh
    | _, _ => do
      brelse bh
      pure true

/-- `empty_dir(inode)`. The return for a bad directory keeps the buffer of its first block. -/
def emptyDir (n : ℕ) : M Bool := do
  let s ← get
  let len := (s.ino n).size / 16
  let z := (s.ino n).zone 0
  if len < 2 ∨ z = 0 then pure false
  else do
    bread z
    if entryInode (s.data z) 0 ≠ n ∨ entryInode (s.data z) 1 = 0 ∨ strEq [46] (s.data z) 0 = false ∨
        strEq [46, 46] (s.data z) 1 = false then pure false
    else emptyFrom sb n len len 2 z

/-! ### Path names -/

variable (current : Task)

/-- The loop of `get_dir` from the inode `n` on, through the directories of the list. -/
def getDirFrom : ℕ → List (List UInt8) → M (Option ℕ)
  | n, names => do
    let s ← get
    if sIsdir (s.ino n).mode = false ∨ permission current (s.ino n) MAY_EXEC = 0 then do
      iput sb n
      pure none
    else
      match names with
      | [] => pure (some n)
      | name :: rest => do
        match ← findEntry sb n name with
        | none => do
          iput sb n
          pure none
        | some de => do
          let s ← get
          let inr := entryInode (s.data de.1) de.2
          brelse de.1
          iput sb n
          iget sb inr
          getDirFrom inr rest

/-- `get_dir(pathname)`; the byte 47 is the slash. -/
def getDir (pathname : List UInt8) : M (Option ℕ) := do
  let s ← get
  if s.count current.root = 0 then panic "No root inode"
  else if s.count current.pwd = 0 then panic "No cwd inode"
  else
    match pathname with
    | [] => pure none
    | c :: rest => do
      let n := if c = 47 then current.root else current.pwd
      let names := if c = 47 then rest.splitOn 47 else pathname.splitOn 47
      modify fun s => { s with count := Function.update s.count n (s.count n + 1) }
      getDirFrom sb current n names.dropLast

/-- `dir_namei(pathname, namelen, name)`. -/
def dirNamei (pathname : List UInt8) : M (Option (ℕ × List UInt8)) := do
  match ← getDir sb current pathname with
  | none => pure none
  | some dir => pure (some (dir, (pathname.splitOn 47).getLastD []))

/-- `namei(pathname)`. -/
def namei (pathname : List UInt8) : M (Option ℕ) := do
  match ← dirNamei sb current pathname with
  | none => pure none
  | some (dir, basename) =>
    if basename = [] then pure (some dir)
    else do
      match ← findEntry sb dir basename with
      | none => do
        iput sb dir
        pure none
      | some de => do
        let s ← get
        let inr := entryInode (s.data de.1) de.2
        brelse de.1
        iput sb dir
        iget sb inr
        markDirty inr
        pure (some inr)

/-- The part of `open_namei` that creates a file in the directory `dir`, which has no entry for
`basename`. -/
def openCreate (dir : ℕ) (basename : List UInt8) (flag mode : UInt16) : M Result := do
  let s ← get
  if flag &&& O_CREAT = 0 then do
    iput sb dir
    pure (.error .ENOENT)
  else if permission current (s.ino dir) MAY_WRITE = 0 then do
    iput sb dir
    pure (.error .EACCES)
  else do
    match ← newInode sb with
    | none => do
      iput sb dir
      pure (.error .ENOSPC)
    | some n => do
      edit n fun v => { v with mode := mode }
      markDirty n
      match ← addEntry sb dir basename with
      | none => do
        edit n fun v => { v with nlinks := (v.nlinks + 255) % 256 }
        iput sb n
        iput sb dir
        pure (.error .ENOSPC)
      | some de => do
        setDe de n
        brelse de.1
        iput sb dir
        pure (.ok n)

/-- `open_namei(pathname, flag, mode, res_inode)`. -/
def openNamei (pathname : List UInt8) (flag mode : UInt16) : M Result := do
  let flag := if flag &&& O_TRUNC ≠ 0 ∧ flag &&& O_ACCMODE = 0 then flag ||| O_WRONLY else flag
  let mode := mode &&& 0o777 &&& ~~~current.umask ||| 0o100000
  match ← dirNamei sb current pathname with
  | none => pure (.error .ENOENT)
  | some (dir, basename) =>
    if basename = [] then
      if flag &&& (O_ACCMODE ||| O_CREAT ||| O_TRUNC) = 0 then pure (.ok dir)
      else do
        iput sb dir
        pure (.error .EISDIR)
    else do
      match ← findEntry sb dir basename with
      | none => openCreate sb current dir basename flag mode
      | some de => do
        let s ← get
        let inr := entryInode (s.data de.1) de.2
        brelse de.1
        iput sb dir
        if flag &&& O_EXCL ≠ 0 then pure (.error .EEXIST)
        else do
          iget sb inr
          let s ← get
          if (sIsdir (s.ino inr).mode ∧ flag &&& O_ACCMODE ≠ 0) ∨
              permission current (s.ino inr) (accMode flag) ≠ accMode flag then do
            iput sb inr
            pure (.error .EPERM)
          else do
            if flag &&& O_TRUNC ≠ 0 then truncate sb inr else pure ()
            pure (.ok inr)

end Linux001.Fs
