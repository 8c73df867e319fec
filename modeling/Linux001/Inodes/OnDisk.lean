import Linux001.Inodes.Table
import Linux001.Mm.Memory

/-!
# The services of a mounted device

The functions that `Linux001.Inodes.Table` leaves open, for one mounted device whose transfers
succeed: those of the model of the file system, applied to the copy of the disk inode in the slot,
and the page allocator.

## Main definitions

* `Outer`: the device and physical memory.
* `mounted`: the services on them.
-/

namespace Linux001.Inodes

/-- The state of the services: a mounted device and physical memory. -/
structure Outer where
  fs : Fs.State
  mem : Mm.Memory

/-- How code of the file system stops. -/
def Stop.ofFault : Fs.Fault → Stop
  | .panic msg => .panic msg
  | .sleep => .sleep

/-- Code of the file system. -/
def onFs {α : Type} (m : Fs.M α) : Outside Outer α := fun s =>
  match m s.fs with
  | .ok (a, fs) => .ok (a, { s with fs := fs })
  | .error e => .error (.ofFault e)

/-- Code of the file system on the inode in a slot, and what it leaves there. -/
def inCore {α : Type} (i : Inode) (m : Fs.M α) : Outside Outer (α × Fs.Inode × Bool) :=
  onFs do
    Fs.edit i.num fun _ => i.toInode
    modify fun s => { s with dirt := Function.update s.dirt i.num i.dirt }
    let a ← m
    let s ← get
    pure (a, s.ino i.num, s.dirt i.num)

variable (sb : Fs.Super)

/-- The search of `new_inode` for a clear bit, and its setting. -/
def newBit : Fs.M (Option ℕ) := do
  let s ← get
  match Fs.newBit s.imap sb.imapBlocks 8 with
  | none => pure none
  | some n =>
    if sb.ninodes < n then pure none
    else do
      modify fun s => { s with imap := Function.update s.imap n true }
      pure (some n)

/-- The check of the number of an inode in `free_inode`, and the clearing of its bit. -/
def freeBit (n : ℕ) : Fs.M Unit := do
  let s ← get
  if n < 1 ∨ sb.ninodes < n then Fs.panic "trying to free inode 0 or nonexistant inode"
  else if s.imap n = false then Fs.panic "free_inode: bit already cleared"
  else modify fun s => { s with imap := Function.update s.imap n false }

/-- `get_free_page`. -/
def getFreePage : Outside Outer ℕ := fun s =>
  match s.mem.getFreePage with
  | none => .ok (0, s)
  | some (page, mem) => .ok (page, { s with mem := mem })

/-- `free_page`. -/
def freePage (page : ℕ) : Outside Outer Unit := fun s =>
  match s.mem.freePage page with
  | .ok mem => .ok ((), { s with mem := mem })
  | .error e => .error (.panic (e.message.getD ""))

/-- The services of the device `dev`, mounted with the super block `sb`. -/
def mounted (dev : ℕ) : Services Outer where
  rootDev := dev
  doMount := pure ()
  findEntry i name := Prod.fst <$> inCore i (Fs.findEntry sb i.num name)
  addEntry i name := inCore i (Fs.addEntry sb i.num name)
  emptyDir i := Prod.fst <$> inCore i (Fs.emptyDir sb i.num)
  truncate i := Prod.snd <$> inCore i (Fs.truncate sb i.num)
  readInode i := (fun r => r.2.1) <$> inCore i (Fs.readInode sb i.num)
  writeInode i := Prod.fst <$> inCore i (Fs.writeInode sb i.num)
  newBit _ := onFs (newBit sb)
  freeBit i := onFs (freeBit sb i.num)
  newBlock _ := onFs (Fs.newBlock sb)
  freeBlock _ z := onFs (Fs.freeBlock sb z)
  bread _ z := onFs do
    Fs.bread z
    pure true
  brelse z := onFs (Fs.brelse z)
  data z := onFs do
    let s ← get
    pure (s.data z)
  store z f := onFs (Fs.store z f)
  getFreePage := getFreePage
  freePage := freePage

end Linux001.Inodes
