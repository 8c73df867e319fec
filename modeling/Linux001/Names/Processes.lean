import Linux001.Fs.Namei
import Linux001.Lib.Runs
import Mathlib.Data.Fintype.Basic

/-!
# Concurrent path name lookups, unlinks and creations

The functions `namei`, `open_namei` and `sys_unlink` of `fs/namei.c`, with `find_entry`,
`add_entry`, `new_inode`, `iget` and `iput`, as processes that share a device. A process has a
position `Pc`, and the events of the model are its steps from one position to the next. The
positions are those where the functions may sleep: in `bread`, `brelse`, `getblk`,
`get_empty_inode`, `read_inode`, `write_inode`, `truncate` and `wait_on_inode`. Between two of them
a process is not interrupted.

An inode in core is addressed by its number. Of `get_empty_inode` the model has that it may sleep,
and that slots without references are written (`flush`) and used for other inodes (`evict`) at any
time. Directories are not removed. `may` is what the mode of an inode grants to a process. A
directory entry is addressed by the zone of its block and its index in the block, like `bh` and
`de`; the tables of indirect zones are left out, and a block of a directory has one pointer.

## Main definitions

* `Entry`, `Core`, `Goal`, `Pc`, `Proc`, `State`: the device, and the processes that use it.
* `State.run`: the steps of a process.
* `Event`, `State.next`: the events.
-/

namespace Linux001.Names

open Fs (Errno Result)

/-- `struct dir_entry`. -/
structure Entry where
  inode : ℕ
  name : Fin 14 → UInt8
  deriving DecidableEq

/-- A component of a path name. -/
abbrev Name := List UInt8

/-- `match(len, name, de)`. -/
def Matches (name : Name) (de : Entry) : Prop :=
  de.inode ≠ 0 ∧ name.length ≤ 14 ∧
    ∀ i : Fin 14, (i = name.length → de.name i = 0) ∧ (i < name.length → de.name i = name.getD i 0)

instance (name : Name) (de : Entry) : Decidable (Matches name de) := by
  unfold Matches
  infer_instance

/-- The name that `add_entry` stores. -/
def pad (name : Name) : Fin 14 → UInt8 := fun i => name.getD i 0

/-- The fields of an inode in core that the functions of the model look at. -/
structure Core where
  count : ℕ
  nlinks : ℕ
  dirt : Bool
  lock : Bool
  deriving DecidableEq

/-- The mode that `permission` is asked for. -/
inductive Mask
  | exec
  | write
  | acc
  deriving DecidableEq

/-- What a call does with the last name of its path: `namei`, `sys_unlink`, or `open_namei` with the
flags `O_CREAT`, `O_EXCL`, `O_ACCMODE` and `O_TRUNC`. -/
inductive Goal
  | namei
  | unlink
  | openNamei (creat excl acc trunc : Bool)
  deriving DecidableEq

/-- What follows an `iput`: the return of the call, the `iget` of a number read before, or another
`iput` and the return. -/
inductive After
  | ret (r : Result)
  | iget (n : ℕ)
  | put (m : ℕ) (r : Result)

/-- Where a process is. -/
inductive Pc
  /-- No call has been made. -/
  | idle
  /-- `get_dir` has reached the inode `dir`. -/
  | enter
  /-- `find_entry`, before the block of entry `i`. -/
  | find (i entries : ℕ)
  /-- `find_entry`, in the `bread` of the zone `z`. -/
  | findRead (i entries z : ℕ)
  /-- The number of an entry has been read, and its block is being released. -/
  | copied (n : ℕ)
  /-- `iget`, in `get_empty_inode`. `sys_unlink` holds the block of the entry. -/
  | iget (n : ℕ) (bh : Option (ℕ × ℕ))
  /-- `iget`, in `read_inode`. -/
  | igetRead (n : ℕ) (bh : Option (ℕ × ℕ))
  /-- `sys_unlink`, in `brelse` after `de->inode = 0`. -/
  | cleared (n : ℕ)
  /-- `open_namei`, in `truncate`. -/
  | truncate (n : ℕ)
  /-- `new_inode`, in `get_empty_inode`. -/
  | newInode
  /-- `add_entry`, before the block of entry `i`. -/
  | add (n i : ℕ)
  /-- `add_entry`, in `new_block`, which has taken the zone `z`. -/
  | addNew (n i z : ℕ)
  /-- `add_entry`, in the `bread` of the zone `z`. -/
  | addRead (n i z : ℕ)
  /-- `open_namei`, in `brelse` after `de->inode = inode->i_num`. -/
  | stored (n : ℕ)
  /-- `iput`, in `wait_on_inode`. -/
  | put (m : ℕ) (a : After)
  /-- `iput`, in the `bread` of `write_inode`. -/
  | putWrite (m : ℕ) (a : After)
  /-- `iput`, in the `brelse` of `write_inode`. -/
  | putWrote (m : ℕ) (a : After)
  /-- `iput`, in `truncate`. -/
  | putTruncate (m : ℕ) (a : After)
  /-- The call has returned. -/
  | done (r : Result)

/-- A process: its call, the directory it has reached, the names that are left, where it is, and the
inodes that its calls have returned. -/
structure Proc where
  goal : Goal
  dir : ℕ
  names : List Name
  pc : Pc
  held : List ℕ

/-- The state shared by `n` processes. -/
structure State (n : ℕ) where
  /-- The zone of a block of a directory, or 0. -/
  zone : ℕ → ℕ → ℕ
  /-- The number of entries of a directory. -/
  size : ℕ → ℕ
  /-- The entries of a zone. -/
  de : ℕ → ℕ → Entry
  zmap : ℕ → Bool
  nzones : ℕ
  isDir : ℕ → Bool
  core : ℕ → Option Core
  /-- `i_nlinks` on the device. -/
  disk : ℕ → ℕ
  imap : ℕ → Bool
  ninodes : ℕ
  may : Fin n → ℕ → Mask → Bool
  proc : Fin n → Proc

namespace State

variable {n : ℕ} (s : State n) (p : Fin n)

/-- Store an inode. -/
def setCore (m : ℕ) (c : Option Core) : State n :=
  { s with core := Function.update s.core m c }

/-- Store an entry. -/
def setDe (z k : ℕ) (e : Entry) : State n :=
  { s with de := Function.update s.de z (Function.update (s.de z) k e) }

/-- Move a process. -/
def setPc (pc : Pc) : State n :=
  { s with proc := Function.update s.proc p { s.proc p with pc := pc } }

/-- A call returns with an inode that the process keeps. -/
def keep (m : ℕ) (pc : Pc) : State n :=
  { s with
    proc := Function.update s.proc p { s.proc p with pc := pc, held := m :: (s.proc p).held } }

/-- The current `i_nlinks` of an inode. -/
def nlinks (m : ℕ) : ℕ :=
  match s.core m with
  | some c => c.nlinks
  | none => s.disk m

/-- `permission(inode, mask)`. -/
def permission (m : ℕ) (mask : Mask) : Bool := s.nlinks m ≠ 0 && s.may p m mask

/-- The first clear bit of the inode bitmap. -/
def freshInode : Option ℕ := (List.range (s.ninodes + 1)).find? fun m => !s.imap m

/-- The first clear bit of the zone bitmap. -/
def freshZone : Option ℕ := (List.range s.nzones).find? fun z => !s.zmap z

/-- The name that is looked up. -/
def name : Name := (s.proc p).names.headD []

/-- The name that is looked up is the last one. -/
def isLast : Bool := (s.proc p).names.tail = []

/-! ### Returns -/

/-- What follows an `iput`. -/
def goto : After → State n
  | .ret r => s.setPc p (.done r)
  | .iget m => s.setPc p (.iget m none)
  | .put m r => s.setPc p (.put m (.ret r))

/-- `iput(dir)` and the return. -/
def putDir (r : Result) : State n := s.setPc p (.put (s.proc p).dir (.ret r))

/-! ### `find_entry` -/

/-- `find_entry` has found no entry. -/
def notFound : State n :=
  if s.isLast p then
    match (s.proc p).goal with
    | .openNamei creat _ _ _ =>
      if !creat then s.putDir p (.error .ENOENT)
      else if !s.permission p (s.proc p).dir .write then s.putDir p (.error .EACCES)
      else s.setPc p .newInode
    | _ => s.putDir p (.error .ENOENT)
  else s.putDir p (.error .ENOENT)

/-- The start of `find_entry`. -/
def findEntry : State n :=
  let z := s.zone (s.proc p).dir 0
  if (s.name p).take 14 = [] ∨ z = 0 then s.notFound p
  else s.setPc p (.findRead 0 (s.size (s.proc p).dir) z)

/-- The index of the first entry that matches, among those of the block of entry `i` that are below
`entries`. -/
def scan (i entries z : ℕ) : Option ℕ :=
  (List.range (min 64 (entries - i))).find? fun k => Matches ((s.name p).take 14) (s.de z k)

/-- `find_entry` has found the entry `k` of the zone `z`. -/
def found (z k : ℕ) : State n :=
  if s.isLast p && decide ((s.proc p).goal = .unlink) then
    s.setPc p (.iget (s.de z k).inode (some (z, k)))
  else s.setPc p (.copied (s.de z k).inode)

/-- The body of the loop of `get_dir` up to its `find_entry`, and the start of the calls. -/
def enter : State n :=
  let d := (s.proc p).dir
  if !s.isDir d || !s.permission p d .exec then s.putDir p (.error .ENOENT)
  else if !s.isLast p then s.findEntry p
  else
    match (s.proc p).goal with
    | .namei => if s.name p = [] then s.keep p d (.done (.ok d)) else s.findEntry p
    | .unlink =>
      if s.name p = [] then s.putDir p (.error .ENOENT)
      else if !s.permission p d .write then s.putDir p (.error .EPERM)
      else s.findEntry p
    | .openNamei creat _ acc trunc =>
      if s.name p = [] then
        if !acc && !creat && !trunc then s.keep p d (.done (.ok d))
        else s.putDir p (.error .EISDIR)
      else s.findEntry p

/-! ### `iget` and what follows it -/

/-- `sys_unlink` with the inode `m` of the entry. -/
def unlink (m z k : ℕ) : Option (State n) :=
  if s.isDir m then some (s.setPc p (.put m (.put (s.proc p).dir (.error .EPERM))))
  else (s.core m).map fun c =>
    ((s.setCore m (some { c with nlinks := if c.nlinks = 0 then 1 else c.nlinks })).setDe z k
      { s.de z k with inode := 0 }).setPc p (.cleared m)

/-- `iget` has returned the inode `m`. -/
def got (m : ℕ) : Option (ℕ × ℕ) → Option (State n)
  | some (z, k) => s.unlink p m z k
  | none =>
    if !s.isLast p then
      some { s with
        proc := Function.update s.proc p
          { s.proc p with dir := m, names := (s.proc p).names.tail, pc := .enter } }
    else
      match (s.proc p).goal with
      | .openNamei _ _ acc trunc =>
        if s.isDir m && acc || !s.permission p m .acc then
          some (s.setPc p (.put m (.ret (.error .EPERM))))
        else if trunc then some (s.setPc p (.truncate m))
        else some (s.keep p m (.done (.ok m)))
      | _ => (s.core m).map fun c =>
        (s.setCore m (some { c with dirt := true })).keep p m (.done (.ok m))

/-- The search of `iget`: a locked inode is waited for, and one that is not in core is read. -/
def iget (m : ℕ) (bh : Option (ℕ × ℕ)) : Option (State n) :=
  match s.core m with
  | some c =>
    if c.lock then none
    else (s.setCore m (some { c with count := c.count + 1 })).got p m bh
  | none => some ((s.setCore m (some ⟨1, s.disk m, false, true⟩)).setPc p (.igetRead m bh))

/-! ### `new_inode` and `add_entry` -/

/-- `new_inode` after `get_empty_inode`. -/
def newInode : State n :=
  match s.freshInode with
  | none => s.putDir p (.error .ENOSPC)
  | some m =>
    { s.setCore m (some ⟨1, 1, true, false⟩) with
      imap := Function.update s.imap m true
      isDir := Function.update s.isDir m false }.setPc p (.add m 0)

/-- `add_entry` has returned `NULL`. -/
def addFailed (m : ℕ) : Option (State n) :=
  (s.core m).map fun c =>
    (s.setCore m (some { c with nlinks := (c.nlinks + 255) % 256 })).setPc p
      (.put m (.put (s.proc p).dir (.error .ENOSPC)))

/-- `add_entry` before the block of entry `i`: `dir->i_zone[0]`, or `create_block`. -/
def add (m i : ℕ) : Option (State n) :=
  let z := s.zone (s.proc p).dir (i / 64)
  if z ≠ 0 then some (s.setPc p (.addRead m i z))
  else if i = 0 then s.addFailed p m
  else
    match s.freshZone with
    | none => s.addFailed p m
    | some z => some ({ s with zmap := Function.update s.zmap z true }.setPc p (.addNew m i z))

/-- `new_block` has cleared its block, and `create_block` stores its number. -/
def addNew (m i z : ℕ) : State n :=
  let d := (s.proc p).dir
  { s with
    de := Function.update s.de z fun _ => ⟨0, fun _ => 0⟩
    zone := Function.update s.zone d (Function.update (s.zone d) (i / 64) z) }.setPc p
      (.addRead m i z)

/-- The first entry of the block of entry `i` that is free, or beyond the end of the directory. -/
def scanFree (i z : ℕ) : Option ℕ :=
  (List.range 64).find? fun k => s.size (s.proc p).dir ≤ i + k ∨ (s.de z k).inode = 0

/-- `add_entry` looks for a free entry in a block, and `open_namei` stores the number of the inode
in it. A directory that grows becomes dirty. -/
def addRead (m i z : ℕ) : State n :=
  match s.scanFree p i z with
  | none => s.setPc p (.add m (i + 64))
  | some k =>
    let d := (s.proc p).dir
    let s := if s.size d ≤ i + k then
        { s.setCore d ((s.core d).map fun c => { c with dirt := true }) with
          size := Function.update s.size d (i + k + 1) }
      else s
    (s.setDe z k ⟨m, pad ((s.name p).take 14)⟩).setPc p (.stored m)

/-! ### `iput` -/

/-- `i_count--` at the end of `iput`. -/
def drop (m : ℕ) (c : Core) (a : After) : State n :=
  (s.setCore m (some { c with count := c.count - 1 })).goto p a

/-- `iput` from the label `repeat` on. -/
def putRepeat (m : ℕ) (c : Core) (a : After) : State n :=
  if c.nlinks = 0 then (s.setCore m (some c)).setPc p (.putTruncate m a)
  else if c.dirt then (s.setCore m (some { c with lock := true })).setPc p (.putWrite m a)
  else s.drop p m c a

/-- `iput` when the inode is not locked. An inode without references is a panic. -/
def put (m : ℕ) (a : After) : Option (State n) :=
  (s.core m).bind fun c =>
    if c.lock ∨ c.count = 0 then none
    else if c.count > 1 then some (s.drop p m c a)
    else some (s.putRepeat p m c a)

/-- `free_inode`, which panics if the inode has other references or links or is free already. -/
def freeInode (m : ℕ) (a : After) : Option (State n) :=
  (s.core m).bind fun c =>
    if c.count > 1 ∨ c.nlinks ≠ 0 ∨ s.imap m = false then none
    else some ({ s.setCore m none with imap := Function.update s.imap m false }.goto p a)

/-! ### Steps -/

/-- A process goes on from where it is, if it need not wait. -/
def run : Option (State n) :=
  match (s.proc p).pc with
  | .idle => none
  | .enter => some (s.enter p)
  | .find i entries =>
    if entries ≤ i then some (s.notFound p)
    else
      let z := s.zone (s.proc p).dir (i / 64)
      if z = 0 then some (s.setPc p (.find (i + 64) entries))
      else some (s.setPc p (.findRead i entries z))
  | .findRead i entries z =>
    match s.scan p i entries z with
    | none => some (s.setPc p (.find (i + 64) entries))
    | some k => some (s.found p z k)
  | .copied m =>
    match (s.proc p).goal, s.isLast p with
    | .openNamei _ true _ _, true => some (s.putDir p (.error .EEXIST))
    | _, _ => some (s.setPc p (.put (s.proc p).dir (.iget m)))
  | .iget m bh => s.iget p m bh
  | .igetRead m bh =>
    (s.core m).bind fun c => (s.setCore m (some { c with lock := false })).got p m bh
  | .cleared m => (s.core m).map fun c =>
      (s.setCore m (some { c with nlinks := (c.nlinks + 255) % 256, dirt := true })).setPc p
        (.put m (.put (s.proc p).dir (.ok 0)))
  | .truncate m => (s.core m).map fun c =>
      (s.setCore m (some { c with dirt := true })).keep p m (.done (.ok m))
  | .newInode => some (s.newInode p)
  | .add m i => s.add p m i
  | .addNew m i z => some (s.addNew p m i z)
  | .addRead m i z => some (s.addRead p m i z)
  | .stored m => some (s.keep p m (.put (s.proc p).dir (.ret (.ok m))))
  | .put m a => s.put p m a
  | .putWrite m a => (s.core m).map fun c =>
      { s.setCore m (some { c with dirt := false }) with
        disk := Function.update s.disk m c.nlinks }.setPc p (.putWrote m a)
  | .putWrote m a => (s.core m).map fun c => s.putRepeat p m { c with lock := false } a
  | .putTruncate m a => s.freeInode p m a
  | .done _ => none

/-- The process is outside of the calls of the model. -/
def outside : Bool :=
  match (s.proc p).pc with
  | .idle | .done _ => true
  | _ => false

/-- A call with a path that starts at the inode `m`, the root or the working directory of the
process. -/
def call (goal : Goal) (m : ℕ) (names : List Name) : Option (State n) :=
  if s.outside p = false ∨ names = [] then none
  else (s.core m).bind fun c =>
    if c.count = 0 then none
    else
      let s := s.setCore m (some { c with count := c.count + 1 })
      some { s with proc := Function.update s.proc p ⟨goal, m, names, .enter, (s.proc p).held⟩ }

/-- `iput` of an inode that a call has returned. -/
def close (m : ℕ) : Option (State n) :=
  if s.outside p ∧ m ∈ (s.proc p).held then
    some { s with
      proc := Function.update s.proc p
        { s.proc p with pc := .put m (.ret (.ok 0)), held := (s.proc p).held.erase m } }
  else none

/-- A dirty inode that is not locked is written to the device. -/
def flush (m : ℕ) : Option (State n) :=
  (s.core m).bind fun c =>
    if c.lock then none
    else some { s.setCore m (some { c with dirt := false }) with
      disk := Function.update s.disk m c.nlinks }

/-- The slot of an inode without references is used for another one. -/
def evict (m : ℕ) : Option (State n) :=
  (s.core m).bind fun c =>
    if c.lock ∨ c.dirt ∨ c.count ≠ 0 then none else some (s.setCore m none)

end State

/-- What can happen. -/
inductive Event (n : ℕ)
  | call (p : Fin n) (goal : Goal) (m : ℕ) (names : List Name)
  | close (p : Fin n) (m : ℕ)
  | run (p : Fin n)
  | flush (m : ℕ)
  | evict (m : ℕ)

/-- The effect of an event. -/
def State.next {n : ℕ} (s : State n) : Event n → Option (State n)
  | .call p goal m names => s.call p goal m names
  | .close p m => s.close p m
  | .run p => s.run p
  | .flush m => s.flush m
  | .evict m => s.evict m

/-- A device with one directory, the root 1, that has the entries `files`. No process has made a
call. -/
def State.device (n : ℕ) (files : List (ℕ × Name)) : State n where
  zone d j := if d = 1 ∧ j = 0 then 1 else 0
  size d := if d = 1 then files.length else 0
  de z k := if z = 1 then (files[k]?).elim ⟨0, fun _ => 0⟩ fun f => ⟨f.1, pad f.2⟩
    else ⟨0, fun _ => 0⟩
  zmap z := z ≤ 1
  nzones := 8
  isDir d := d = 1
  core m := if m = 1 then some ⟨1, 2, false, false⟩ else none
  disk m := if m = 1 then 2 else (files.map Prod.fst).count m
  imap m := m ≤ 1 || (files.map Prod.fst).contains m
  ninodes := 8
  may _ _ _ := true
  proc _ := ⟨.namei, 0, [], .idle, []⟩

end Linux001.Names
