import Linux001.Fs.Buffers
import Linux001.Lib.Panics

/-!
# Inodes, bitmaps and zones of the Minix file system

The model of `fs/bitmap.c`, `fs/inode.c` and `fs/truncate.c` for one mounted device, as code that
runs to its end without being interrupted and whose disk transfers succeed.

The state has what the code reads and writes: the inodes in core with their reference counts and
dirty flags, the inode table of the device, the two bitmaps, and the buffers. The bitmaps are in
buffers that are held as long as the device is mounted. An inode in core is addressed by its number,
since at most one slot of `inode_table` holds it (`Linux001.InodeTable`); the inode table is kept as
inodes, and its blocks take part in the cache only.

Times of inodes are left out. Two fields record the past and are read by no function: `overflow`
tells whether an increment of `i_nlinks` has wrapped around, `destroyed` lists the inodes that
`iput` has truncated and freed, each with what the device held at that moment.

## Main definitions

* `Super`, `Inode`, `View`, `State`: the mounted device.
* `newBlock`, `freeBlock`, `newInode`, `freeInode`: `bitmap.c`.
* `bmap`, `createBlock`, `iget`, `iput`: `inode.c`.
* `truncate`: `truncate.c`.
-/

namespace Linux001.Fs

/-- The superblock of a mounted device (`struct super_block`), with the layout of a Minix device:
the bitmaps have a bit for every inode and every zone, and the zones come after the inode table. -/
structure Super where
  ninodes : ℕ
  nzones : ℕ
  imapBlocks : ℕ
  zmapBlocks : ℕ
  firstdatazone : ℕ
  ninodes_lt : ninodes < 65536
  nzones_lt : nzones < 65536
  imapBlocks_le : imapBlocks ≤ 8
  zmapBlocks_le : zmapBlocks ≤ 8
  imap_covers : ninodes < 8192 * imapBlocks
  zmap_covers : nzones < firstdatazone + 8192 * zmapBlocks
  layout : 2 + imapBlocks + zmapBlocks + (ninodes + 31) / 32 ≤ firstdatazone

/-- A device with 32 inodes and 64 blocks. -/
def Super.small : Super where
  ninodes := 32
  nzones := 64
  imapBlocks := 1
  zmapBlocks := 1
  firstdatazone := 5
  ninodes_lt := by decide
  nzones_lt := by decide
  imapBlocks_le := by decide
  zmapBlocks_le := by decide
  imap_covers := by decide
  zmap_covers := by decide
  layout := by decide

/-- An inode (`struct m_inode`) without its times. `zone` is `i_zone[9]`. -/
structure Inode where
  mode : UInt16
  uid : ℕ
  size : ℕ
  gid : ℕ
  nlinks : ℕ
  zone : ℕ → ℕ

/-- An inode that `memset` has cleared. -/
def Inode.zero : Inode := ⟨0, 0, 0, 0, 0, fun _ => 0⟩

/-- `S_ISREG`. -/
def sIsreg (mode : UInt16) : Bool := mode &&& 0o170000 == 0o100000

/-- `S_ISDIR`. -/
def sIsdir (mode : UInt16) : Bool := mode &&& 0o170000 == 0o040000

/-- `S_ISCHR`. -/
def sIschr (mode : UInt16) : Bool := mode &&& 0o170000 == 0o020000

/-- `S_ISBLK`. -/
def sIsblk (mode : UInt16) : Bool := mode &&& 0o170000 == 0o060000

/-- What the device holds once everything in core is counted in: the current copy of every inode,
the bitmaps (by bit number) and the blocks. -/
structure View where
  ino : ℕ → Inode
  imap : ℕ → Bool
  zmap : ℕ → Bool
  data : ℕ → Block

/-- The state of the file system on one mounted device. -/
structure State where
  /-- The inodes in core: those with `count ≠ 0`. -/
  ino : ℕ → Inode
  /-- `i_count`. -/
  count : ℕ → ℕ
  /-- `i_dirt`. -/
  dirt : ℕ → Bool
  /-- The inode table of the device. -/
  diskIno : ℕ → Inode
  imap : ℕ → Bool
  zmap : ℕ → Bool
  cache : Cache
  overflow : Bool
  destroyed : List (ℕ × View)

/-- The current copy of an inode: the one in core, or else the one on the device. -/
def State.cur (s : State) (n : ℕ) : Inode := if s.count n = 0 then s.diskIno n else s.ino n

/-- What `bread` returns for a block. -/
def State.data (s : State) : ℕ → Block := s.cache.data

/-- The references to the buffer of a block. -/
def State.bcount (s : State) : ℕ → ℕ := s.cache.count

def State.view (s : State) : View := ⟨s.cur, s.imap, s.zmap, s.data⟩

/-- What keeps a call from returning: a panic, with its text, or a sleep in `getblk` when all
buffers are held. -/
inductive Fault
  | panic (msg : String)
  | sleep

/-- Kernel code on the state of the file system. -/
abbrev M := StateT State (Except Fault)

/-- `panic(msg)`. -/
def panic {α : Type} (msg : String) : M α := throw (.panic msg)

/-! ### Buffers -/

/-- A function on the buffers, which may have no result. -/
def onCache (f : Cache → Option Cache) (e : Fault) : M Unit := fun s =>
  match f s.cache with
  | none => .error e
  | some c => .ok ((), { s with cache := c })

/-- `getblk(dev, z)`. -/
def getblk (z : ℕ) : M Unit := onCache (·.getblk z) .sleep

/-- `bread(dev, z)`. -/
def bread (z : ℕ) : M Unit := onCache (·.bread z) .sleep

/-- `brelse(bh)` for the buffer of block `z`. -/
def brelse (z : ℕ) : M Unit := onCache (·.brelse z) (.panic "Trying to free free buffer")

/-- Stores to the buffer of block `z`, and `b_dirt = 1`. -/
def store (z : ℕ) (f : Block → Block) : M Unit :=
  modify fun s => { s with cache := s.cache.store z f }

/-- Stores to fields of the inode `n` in core. -/
def edit (n : ℕ) (f : Inode → Inode) : M Unit :=
  modify fun s => { s with ino := Function.update s.ino n (f (s.ino n)) }

/-- `inode->i_dirt = 1`. -/
def markDirty (n : ℕ) : M Unit :=
  modify fun s => { s with dirt := Function.update s.dirt n true }

/-! ### `bitmap.c` -/

/-- `find_first_zero`: the first clear bit among the `fuel` bits from `j` on, else the bit after
them. -/
def findFirstZero (bits : ℕ → Bool) : ℕ → ℕ → ℕ
  | 0, j => j
  | fuel + 1, j => if bits j then findFirstZero bits fuel (j + 1) else j

/-- The loop of `new_block` and `new_inode` over the eight map blocks, of which the first `blocks`
are there: the first clear bit, if any. `left` is the number of turns left. -/
def newBit (map : ℕ → Bool) (blocks : ℕ) : ℕ → Option ℕ
  | 0 => none
  | left + 1 =>
    let i := 7 - left
    let j := findFirstZero (fun j => map (8192 * i + j)) 8192 0
    if i < blocks ∧ j < 8192 then some (8192 * i + j) else newBit map blocks left

theorem findFirstZero_clear {bits : ℕ → Bool} {fuel j : ℕ}
    (h : findFirstZero bits fuel j < j + fuel) : bits (findFirstZero bits fuel j) = false := by
  induction fuel generalizing j with
  | zero => exact absurd h (lt_irrefl j)
  | succ fuel ih =>
    unfold findFirstZero at h ⊢
    split_ifs at h ⊢ with hj
    · exact ih (by omega)
    · exact Bool.eq_false_iff.mpr hj

/-- The bit that is found is clear. -/
theorem newBit_clear {map : ℕ → Bool} {blocks left j : ℕ} (h : newBit map blocks left = some j) :
    map j = false := by
  induction left with
  | zero => cases h
  | succ left ih =>
    unfold newBit at h
    dsimp only at h
    split_ifs at h with hj
    · rw [← Option.some.inj h]
      exact @findFirstZero_clear (fun j => map (8192 * (7 - left) + j)) 8192 0 (by omega)
    · exact ih h

variable (sb : Super)

/-- The bit of a zone in the zone bitmap. -/
def Super.bit (z : ℕ) : ℕ := z - (sb.firstdatazone - 1)

/-- `free_block(dev, z)`. A buffer that somebody else holds keeps the reference that
`get_hash_table` has taken, and the bit stays set. -/
def freeBlock (z : ℕ) : M Unit := do
  let s ← get
  if z < sb.firstdatazone ∨ sb.nzones ≤ z then panic "trying to free block not in datazone"
  else if (s.bcount z + 1) % 256 ≠ 1 then
    modify fun s => { s with cache := s.cache.setCount z ((s.bcount z + 1) % 256) }
  else if s.zmap (sb.bit z) = false then panic "free_block: bit already cleared"
  else modify fun s => { s with
    cache := s.cache.forget z
    zmap := Function.update s.zmap (sb.bit z) false }

/-- `new_block(dev)`: 0 when no zone is left. -/
def newBlock : M ℕ := do
  let s ← get
  match newBit s.zmap sb.zmapBlocks 8 with
  | none => pure 0
  | some j => do
    modify fun s => { s with zmap := Function.update s.zmap j true }
    let z := j + (sb.firstdatazone - 1)
    if sb.nzones ≤ z then pure 0
    else do
      getblk z
      let s ← get
      if s.bcount z ≠ 1 then panic "new block: count is != 1"
      else do
        store z fun _ => zeroBlock
        brelse z
        pure z

/-- `free_inode(inode)`. -/
def freeInode (n : ℕ) : M Unit := do
  let s ← get
  if 1 < s.count n then panic "free_inode"
  else if (s.ino n).nlinks ≠ 0 then panic "trying to free inode with links"
  else if n < 1 ∨ sb.ninodes < n then panic "trying to free inode 0 or nonexistant inode"
  else if s.imap n = false then panic "free_inode: bit already cleared"
  else modify fun s => { s with
    imap := Function.update s.imap n false
    ino := Function.update s.ino n Inode.zero
    count := Function.update s.count n 0
    dirt := Function.update s.dirt n false }

/-- `get_empty_inode()`: one of the 32 slots must be free. -/
def getEmptyInode : M Unit := do
  let s ← get
  if 32 ≤ (List.range (sb.ninodes + 1)).countP (fun n => s.count n ≠ 0) then
    panic "No free inodes in mem"
  else pure ()

/-- `new_inode(dev)`: the number of the new inode, if there is one left. -/
def newInode : M (Option ℕ) := do
  getEmptyInode sb
  let s ← get
  match newBit s.imap sb.imapBlocks 8 with
  | none => pure none
  | some n =>
    if sb.ninodes < n then pure none
    else do
      modify fun s => { s with
        imap := Function.update s.imap n true
        ino := Function.update s.ino n { Inode.zero with nlinks := 1 }
        count := Function.update s.count n 1
        dirt := Function.update s.dirt n true }
      pure (some n)

/-! ### `inode.c` -/

/-- The block of the inode table in which the inode `n` is. -/
def Super.inodeBlock (n : ℕ) : ℕ := 2 + sb.imapBlocks + sb.zmapBlocks + (n - 1) / 32

/-- `read_inode(inode)`. -/
def readInode (n : ℕ) : M Unit := do
  bread (sb.inodeBlock n)
  modify fun s => { s with ino := Function.update s.ino n (s.diskIno n) }
  brelse (sb.inodeBlock n)

/-- `write_inode(inode)`. -/
def writeInode (n : ℕ) : M Unit := do
  bread (sb.inodeBlock n)
  modify fun s => { s with
    diskIno := Function.update s.diskIno n (s.ino n)
    dirt := Function.update s.dirt n false }
  store (sb.inodeBlock n) id
  brelse (sb.inodeBlock n)

/-- `if (create && !inode->i_zone[k]) if (inode->i_zone[k] = new_block(..)) inode->i_dirt = 1`,
which `_bmap` does with the direct zones and with the two zones of tables. -/
def bmapZone (n k : ℕ) (create : Bool) : M Unit := do
  let s ← get
  if create ∧ (s.ino n).zone k = 0 then do
    let z ← newBlock sb
    edit n fun i => { i with zone := Function.update i.zone k z }
    if z ≠ 0 then markDirty n else pure ()
  else pure ()

/-- The `k`-th zone number of the table in block `t`, which `_bmap` reads, and fills in with a new
block when it is 0 and `create` is set. -/
def bmapTable (t k : ℕ) (create : Bool) : M ℕ := do
  bread t
  let s ← get
  if create ∧ word (s.data t) k = 0 then do
    let z ← newBlock sb
    if z ≠ 0 then store t fun b => setWord b k z else pure ()
    brelse t
    pure z
  else do
    brelse t
    pure (word (s.data t) k)

/-- `_bmap(inode, block, create)`. -/
def bmapAux (n block : ℕ) (create : Bool) : M ℕ :=
  if 7 + 512 + 512 * 512 ≤ block then panic "_bmap: block>big"
  else if block < 7 then do
    bmapZone sb n block create
    let s ← get
    pure ((s.ino n).zone block)
  else if block - 7 < 512 then do
    bmapZone sb n 7 create
    let s ← get
    if (s.ino n).zone 7 = 0 then pure 0
    else bmapTable sb ((s.ino n).zone 7) (block - 7) create
  else do
    bmapZone sb n 8 create
    let s ← get
    if (s.ino n).zone 8 = 0 then pure 0
    else do
      let i ← bmapTable sb ((s.ino n).zone 8) ((block - 7 - 512) / 512) create
      if i = 0 then pure 0
      else bmapTable sb i ((block - 7 - 512) % 512) create

/-- `bmap(inode, block)`. -/
def bmap (n block : ℕ) : M ℕ := bmapAux sb n block false

/-- `create_block(inode, block)`. -/
def createBlock (n block : ℕ) : M ℕ := bmapAux sb n block true

/-- `iget(dev, n)`. -/
def iget (n : ℕ) : M Unit := do
  getEmptyInode sb
  let s ← get
  if s.count n = 0 then do
    modify fun s => { s with
      count := Function.update s.count n 1
      dirt := Function.update s.dirt n false }
    readInode sb n
  else modify fun s => { s with count := Function.update s.count n (s.count n + 1) }

/-! ### `truncate.c` -/

/-- `free_ind(dev, t)`. -/
def freeInd (t : ℕ) : M Unit :=
  if t = 0 then pure ()
  else do
    bread t
    (List.range 512).forM fun i => do
      let s ← get
      if word (s.data t) i ≠ 0 then freeBlock sb (word (s.data t) i) else pure ()
    brelse t
    freeBlock sb t

/-- `free_dind(dev, t)`. -/
def freeDind (t : ℕ) : M Unit :=
  if t = 0 then pure ()
  else do
    bread t
    (List.range 512).forM fun i => do
      let s ← get
      if word (s.data t) i ≠ 0 then freeInd sb (word (s.data t) i) else pure ()
    brelse t
    freeBlock sb t

/-- `truncate(inode)`. -/
def truncate (n : ℕ) : M Unit := do
  let s ← get
  if sIsreg (s.ino n).mode ∨ sIsdir (s.ino n).mode then do
    (List.range 7).forM fun i => do
      let s ← get
      if (s.ino n).zone i ≠ 0 then do
        freeBlock sb ((s.ino n).zone i)
        edit n fun v => { v with zone := Function.update v.zone i 0 }
      else pure ()
    let s ← get
    freeInd sb ((s.ino n).zone 7)
    freeDind sb ((s.ino n).zone 8)
    edit n fun v => { v with
      zone := Function.update (Function.update v.zone 8 0) 7 0
      size := 0 }
    markDirty n
  else pure ()

/-- `iput(inode)`. -/
def iput (n : ℕ) : M Unit := do
  let s ← get
  if s.count n = 0 then panic "iput: trying to free free inode"
  else if 1 < s.count n then
    modify fun s => { s with count := Function.update s.count n (s.count n - 1) }
  else if (s.ino n).nlinks = 0 then do
    modify fun s => { s with destroyed := (n, s.view) :: s.destroyed }
    truncate sb n
    freeInode sb n
  else do
    if s.dirt n then writeInode sb n else pure ()
    modify fun s => { s with count := Function.update s.count n (s.count n - 1) }

end Linux001.Fs
