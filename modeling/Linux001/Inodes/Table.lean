import Linux001.Fs.Namei
import Mathlib.Data.List.FinRange

/-!
# The slots of the inode table

The functions of `fs/inode.c` and `fs/bitmap.c` that take and give back slots of `inode_table`, as
code that runs to its end without being interrupted. A path name leads to a slot, a slot has an
inode of the device for as long as it is used, and `i_count` counts the references to the slot.
Every function has all its returns, also those for disk transfers that fail. `i_count` counts the
references that 64 tasks and 64 entries of the file table have room for, so it is a natural number
here.

What these functions call in turn reads and writes blocks, bitmaps, pages, and the copy of the disk
inode in a slot, but neither `i_count` nor the tables: the functions of `Linux001.Fs` on directory
entries and zones, and the page allocator. They are a parameter here, a value of `Services` on a
state `D` of their own, so that all that is proved holds whatever they answer.

## Main definitions

* `Inode`, `Table`: `inode_table`.
* `Services`: the functions that do not touch the counters.
* `iput`, `getEmptyInode`, `getPipeInode`, `iget`, `newInode`, `freeInode`.
-/

namespace Linux001.Inodes

/-- The indices of `inode_table`, of which there are `NR_INODE`. -/
abbrev Slot := Fin 32

/-- What keeps a call from completing: a panic, a sleep from which nothing wakes the process, or a
page fault that finds no free page and goes to `do_exit` in the middle of the call. -/
inductive Stop
  | panic (msg : String)
  | sleep
  | killed

/-- `struct m_inode`, without times, lock and wait queue. Its first part is `struct d_inode`. -/
structure Inode extends Fs.Inode where
  dev : ℕ
  num : ℕ
  count : ℕ
  dirt : Bool
  pipe : Bool

/-- What `memset(inode,0,sizeof(*inode))` leaves. -/
def Inode.zero : Inode := ⟨Fs.Inode.zero, 0, 0, 0, false, false⟩

/-- Code on the state of the functions outside of this model. -/
abbrev Outside (D : Type) := StateT D (Except Stop)

/-- The functions that read and write blocks, bitmaps and pages. A function that changes the disk
inode of a slot, or sets `i_dirt`, returns what it leaves there. A directory entry that has been
found is the number of its block, whose buffer is held, and its index in the block. -/
structure Services (D : Type) where
  /-- `ROOT_DEV`. -/
  rootDev : ℕ
  /-- `do_mount(ROOT_DEV)`. -/
  doMount : Outside D Unit
  findEntry : Inode → List UInt8 → Outside D (Option (ℕ × ℕ))
  addEntry : Inode → List UInt8 → Outside D (Option (ℕ × ℕ) × Fs.Inode × Bool)
  emptyDir : Inode → Outside D Bool
  truncate : Inode → Outside D (Fs.Inode × Bool)
  /-- `read_inode`. -/
  readInode : Inode → Outside D Fs.Inode
  /-- `write_inode`, without the store to `i_dirt`. -/
  writeInode : Inode → Outside D Unit
  /-- The search of `new_inode(dev)` for a clear bit, and its setting. -/
  newBit : ℕ → Outside D (Option ℕ)
  /-- The check of the number of an inode in `free_inode`, and the clearing of its bit. -/
  freeBit : Inode → Outside D Unit
  newBlock : ℕ → Outside D ℕ
  freeBlock : ℕ → ℕ → Outside D Unit
  /-- `bread(dev, block)`: false when the block cannot be read. -/
  bread : ℕ → ℕ → Outside D Bool
  brelse : ℕ → Outside D Unit
  /-- The bytes of a block in a held buffer. -/
  data : ℕ → Outside D Fs.Block
  /-- Stores to a held buffer, and `b_dirt = 1`. -/
  store : ℕ → (Fs.Block → Fs.Block) → Outside D Unit
  getFreePage : Outside D ℕ
  freePage : ℕ → Outside D Unit

/-- `inode_table`, `last_allocated_inode`, and the state outside of the model. -/
structure Table (D : Type) where
  inode : Slot → Inode
  last : Slot
  outside : D

/-- Kernel code on the inode table. -/
abbrev M (D : Type) := StateT (Table D) (Except Stop)

section Code

variable {D : Type}

/-- `panic(msg)`. -/
def panic {α : Type} (msg : String) : M D α := throw (.panic msg)

/-- Calls a function outside of the model. -/
def outside {α : Type} (m : Outside D α) : M D α := fun s =>
  match m s.outside with
  | .ok (a, d) => .ok (a, { s with outside := d })
  | .error e => .error e

/-- Stores to the fields of a slot. -/
def setInode (k : Slot) (f : Inode → Inode) : M D Unit :=
  modify fun s => { s with inode := Function.update s.inode k (f (s.inode k)) }

/-- Stores to fields of the disk inode. -/
def edit (k : Slot) (f : Fs.Inode → Fs.Inode) : M D Unit :=
  setInode k fun i => { i with toInode := f i.toInode }

/-- `inode->i_dirt = b`. -/
def setDirt (k : Slot) (b : Bool) : M D Unit := setInode k fun i => { i with dirt := b }

/-- `inode->i_count = n`. -/
def setCount (k : Slot) (n : ℕ) : M D Unit := setInode k fun i => { i with count := n }

variable (V : Services D)

/-- `brelse(bh)` for the buffer of a directory entry. -/
def brelse (de : ℕ × ℕ) : M D Unit := outside (V.brelse de.1)

/-- `de->inode`. -/
def entryInode (de : ℕ × ℕ) : M D ℕ := do
  let b ← outside (V.data de.1)
  pure (Fs.entryInode b de.2)

/-- `de->inode = n`, and `bh->b_dirt = 1`. -/
def setEntry (de : ℕ × ℕ) (n : ℕ) : M D Unit :=
  outside (V.store de.1 fun b => Fs.setEntryInode b de.2 n)

def findEntry (k : Slot) (name : List UInt8) : M D (Option (ℕ × ℕ)) := do
  let s ← get
  outside (V.findEntry (s.inode k) name)

def addEntry (k : Slot) (name : List UInt8) : M D (Option (ℕ × ℕ)) := do
  let s ← get
  let r ← outside (V.addEntry (s.inode k) name)
  setInode k fun i => { i with toInode := r.2.1, dirt := r.2.2 }
  pure r.1

def emptyDir (k : Slot) : M D Bool := do
  let s ← get
  outside (V.emptyDir (s.inode k))

def truncate (k : Slot) : M D Unit := do
  let s ← get
  let r ← outside (V.truncate (s.inode k))
  setInode k fun i => { i with toInode := r.1, dirt := r.2 }

/-! ### `inode.c` and `bitmap.c` -/

/-- `read_inode(inode)`. -/
def readInode (k : Slot) : M D Unit := do
  let s ← get
  let i ← outside (V.readInode (s.inode k))
  edit k fun _ => i

/-- `write_inode(inode)`. -/
def writeInode (k : Slot) : M D Unit := do
  let s ← get
  outside (V.writeInode (s.inode k))
  setDirt k false

/-- `free_inode(inode)`. -/
def freeInode (k : Slot) : M D Unit := do
  let s ← get
  if (s.inode k).dev = 0 then setInode k fun _ => Inode.zero
  else if 1 < (s.inode k).count then panic "free_inode"
  else if (s.inode k).nlinks ≠ 0 then panic "trying to free inode with links"
  else do
    outside (V.freeBit (s.inode k))
    setInode k fun _ => Inode.zero

/-- `iput(inode)`. -/
def iput : Option Slot → M D Unit
  | none => pure ()
  | some k => do
    let s ← get
    let i := s.inode k
    if i.count = 0 then panic "iput: trying to free free inode"
    else if i.pipe then
      if i.count - 1 ≠ 0 then setCount k (i.count - 1)
      else do
        outside (V.freePage i.size)
        setInode k fun i => { i with count := 0, dirt := false, pipe := false }
    else if i.dev = 0 ∨ 1 < i.count then setCount k (i.count - 1)
    else if i.nlinks = 0 then do
      truncate V k
      freeInode V k
    else do
      -- after `write_inode` the jump to `repeat` finds the inode clean
      if i.dirt then writeInode V k else pure ()
      setCount k (i.count - 1)

/-- The slots in the order in which `get_empty_inode` looks at them. -/
def slotsFrom (last : Slot) : List Slot := (List.finRange 32).map fun j => last + j

/-- `get_empty_inode()`. Nobody else runs during `write_inode`, so the slot stays free. -/
def getEmptyInode : M D (Option Slot) := do
  let s ← get
  match (slotsFrom s.last).find? fun k => (s.inode k).count = 0 with
  | none => panic "No free inodes in mem"
  | some k => do
    modify fun s => { s with last := k }
    if (s.inode k).dirt then writeInode V k else pure ()
    setInode k fun _ => { Inode.zero with count := 1 }
    pure (some k)

/-- `get_pipe_inode()`. -/
def getPipeInode : M D (Option Slot) := do
  match ← getEmptyInode V with
  | none => pure none
  | some k => do
    let page ← outside V.getFreePage
    edit k fun i => { i with size := page }
    if page = 0 then do
      setCount k 0
      pure none
    else do
      setInode k fun i => { i with
        count := 2, zone := Function.update (Function.update i.zone 1 0) 0 0, pipe := true }
      pure (some k)

/-- `iget(dev, nr)`. -/
def iget (dev nr : ℕ) : M D (Option Slot) := do
  if dev = 0 then panic "iget with dev==0"
  else do
    let empty ← getEmptyInode V
    let s ← get
    match (List.finRange 32).find? fun k => (s.inode k).dev = dev ∧ (s.inode k).num = nr with
    | some k => do
      setCount k ((s.inode k).count + 1)
      iput V empty
      pure (some k)
    | none =>
      match empty with
      | none => pure none
      | some e => do
        setInode e fun i => { i with dev := dev, num := nr }
        readInode V e
        pure (some e)

/-- `new_inode(dev)`. -/
def newInode (dev : ℕ) : M D (Option Slot) := do
  match ← getEmptyInode V with
  | none => pure none
  | some k => do
    match ← outside (V.newBit dev) with
    | none => do
      iput V k
      pure none
    | some n => do
      setInode k fun i => { i with count := 1, nlinks := 1, dev := dev, dirt := true, num := n }
      pure (some k)

end Code

end Linux001.Inodes
