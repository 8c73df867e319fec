import Linux001.Inodes.Calls
import Linux001.Mm.Confinement

/-!
# `do_execve`

The model of `fs/exec.c`, from the moment when `namei` has found the file and its mode has been
checked: the header, `copy_strings`, the point of no return, `change_ldt`, `create_tables`,
`read_area` and the end of `do_execve`. Buffers are those of the device of the file, with transfers
that succeed; what `sys_close` does to files and inodes is left out.

The strings of `argv` and `envp` are in pages that the caller has, so that reading them makes no
page fault. The kernel reaches its user memory through `%fs` and `%es`, which do not let it beyond
the limit of the data segment; a page that is missing is got by a page fault, and the write bits of
the page tables do not stop the kernel.

## Main definitions

* `Str`: an argument string.
* `copyStrings`, `copyArguments`: the strings are copied to pages of the kernel.
* `getFsByte`, `putFsByte`, `putFsLong`: accesses to user memory.
* `createTables`: `argc`, `argv` and `envp` of the new program.
* `readHead`, `readInd`, `readArea`: its text and data.
* `doExecve`: the whole.
-/

namespace Linux001.Exec

open Mm (Memory Word Pages maxArgPages Desc byteOf setByte)
open Fs (Cache Block)

/-- A byte of memory. -/
abbrev Byte := BitVec 8

/-- The ways in which `do_execve` does not return to its caller: those of `mm/memory.c` and the
panics of `exec.c`, an index of `page[]` beyond its end, an access beyond the limit of a segment, a
sleep in `getblk` when all buffers are held, and `sys_exit`. -/
inductive Stop
  | mm (s : Mm.Stop)
  | pageIndex
  | protection
  | sleep
  | exit
  | panic (msg : String)

/-! ### `copy_strings` -/

/-- A string in user memory: it ends at the first zero byte, which is below the end of the
segment. -/
structure Str where
  bytes : List Byte
  nul_free : 0 ∉ bytes
  length_lt : bytes.length < 0x4000000

namespace Str

/-- The string with its terminator. -/
def full (s : Str) : List Byte := s.bytes ++ [0]

/-- The value of `len` after the first loop of `copy_strings`, which counts the terminator. -/
def len (s : Str) : ℕ := s.bytes.length + 1

@[simp] theorem length_full (s : Str) : s.full.length = s.len := by simp [full, len]

theorem len_pos (s : Str) : 0 < s.len := Nat.succ_pos _

theorem len_le (s : Str) : s.len ≤ 0x4000000 := s.length_lt

end Str

/-- The bytes that a list of strings takes. -/
def total (ss : List Str) : ℕ := (ss.map Str.len).sum

/-- A store of a byte by the kernel, at a physical address. -/
def pokeByte (a : ℕ) (b : Byte) (m : Memory) : Memory :=
  m.store (a / 4) (setByte (m.word (a / 4)) (a % 4) b)

/-- The loop of `copy_strings` that copies a string, its last byte first, to the addresses below
`p`. -/
def copyDown : List Byte → Word → Pages → Except Stop (Word × Pages)
  | [], p, a => .ok (p, a)
  | b :: bs, p, a =>
    let p := p - 1
    let i := p.toNat / 4096
    if maxArgPages ≤ i then .error .pageIndex
    else if a.page i = 0 then .error (.mm .nonexistentPage)
    else copyDown bs p { a with mem := pokeByte (a.page i + p.toNat % 4096) b a.mem }

/-- `copy_strings`, of a list of strings from its end. The result 0 says that there is no page; the
test `p-len < 0` is on an unsigned number. -/
def copyStrings : List Str → Word → Pages → Except Stop (Word × Pages)
  | [], p, a => .ok (p, a)
  | s :: ss, p, a =>
    match Pages.getPages maxArgPages ((p - BitVec.ofNat 32 s.len) >>> 12).toNat a with
    | (false, a) => .ok (0, a)
    | (true, a) => copyDown s.full.reverse p a >>= fun r => copyStrings ss r.1 r.2

/-- The initial value of `p`. -/
def stackTop : Word := BitVec.ofNat 32 (4096 * maxArgPages - 4)

/-- The two calls of `copy_strings`. -/
def copyArguments (argv envp : List Str) (m : Memory) : Except Stop (Word × Pages) :=
  copyStrings envp.reverse stackTop ⟨fun _ => 0, m⟩ >>= fun r => copyStrings argv.reverse r.1 r.2

/-! ### The state -/

/-- What `do_execve` reads and writes of `current`. The flag `lastMath` says that
`last_task_used_math` is `current`. -/
structure Proc where
  code : Desc
  data : Desc
  sigFn : Fin 32 → Word
  filp : Fin 20 → Option (Fin 64)
  closeOnExec : Fin 20 → Bool
  lastMath : Bool
  usedMath : Bool
  endCode : Word
  endData : Word
  brk : Word
  startStack : Word

/-- Physical memory, the buffers, the process, `i_count` of the file, and the registers `eip` and
`esp` with which the process goes on. -/
structure State where
  mem : Memory
  cache : Cache
  proc : Proc
  iCount : ℕ
  eip : Word
  esp : Word

/-- Code of `exec.c`. -/
abbrev K := StateT State (Except Stop)

/-- A function on physical memory. -/
def onMem (f : Memory → Except Mm.Stop Memory) : K Unit := fun s =>
  (f s.mem).mapError .mm |>.map fun m => ((), { s with mem := m })

/-- A function on the buffers, which may have no result. -/
def onCache (f : Cache → Option Cache) (e : Stop) : K Unit := fun s =>
  match f s.cache with
  | none => .error e
  | some c => .ok ((), { s with cache := c })

/-- `bread`, and the contents of the buffer. -/
def bread (z : ℕ) : K Block := do
  onCache (·.bread z) .sleep
  let s ← get
  pure (s.cache.data z)

/-- `brelse`. -/
def brelse (z : ℕ) : K Unit := onCache (·.brelse z) (.panic "Trying to free free buffer")

/-- `iput`, by a process that does not hold the last reference. -/
def iput : K Unit := modify fun s => { s with iCount := s.iCount - 1 }

/-- Stores to fields of `current`. -/
def setProc (f : Proc → Proc) : K Unit := modify fun s => { s with proc := f s.proc }

/-! ### User memory -/

/-- An access of the kernel to a linear address, up to the end of the page fault it meets, if
any. -/
def fetch (address : Word) (m : Memory) : Except Mm.Halt Memory :=
  if m.mapped (Mm.dirOf address) (Mm.indexOf address) then .ok m else m.doNoPage address

/-- An access to the offset `off` of the data segment, with its linear address. -/
def access (off : Word) : K Word := do
  let s ← get
  if off.toNat < s.proc.data.size then do
    let address := s.proc.data.getBase + off
    onMem fun m => Mm.mm (fetch address m)
    pure address
  else throw .protection

/-- `get_fs_byte`. -/
def getFsByte (off : Word) : K Byte := do
  let address ← access off
  let s ← get
  pure (byteOf (s.mem.word (s.mem.wordOf address)) (address.toNat % 4))

/-- The store of a byte at a linear address that is mapped. -/
def storeByte (b : Byte) (address : Word) (m : Memory) : Memory :=
  m.store (m.wordOf address) (setByte (m.word (m.wordOf address)) (address.toNat % 4) b)

/-- `put_fs_byte`. -/
def putFsByte (b : Byte) (off : Word) : K Unit := do
  let address ← access off
  modify fun s => { s with mem := storeByte b address s.mem }

/-- `put_fs_long`, the lowest byte first. -/
def putFsLong (w : Word) (off : Word) : K Unit :=
  (List.range 4).forM fun i => putFsByte (byteOf w i) (off + BitVec.ofNat 32 i)

/-- `cp_block`: the bytes of a block are copied to user memory. -/
def cpBlock (b : Block) (off : Word) : K Unit :=
  (List.range 1024).forM fun i => putFsByte (b i).toBitVec (off + BitVec.ofNat 32 i)

/-! ### `create_tables` -/

/-- `while (get_fs_byte(p++))`, for at most `fuel` turns; there is no access beyond the end of the
segment. -/
def skipString : (fuel : ℕ) → Word → K Word
  | 0, _ => throw .protection
  | fuel + 1, p => do
    let b ← getFsByte p
    if b = 0 then pure (p + 1) else skipString fuel (p + 1)

/-- The loops of `create_tables`: the addresses of `n` strings from `p` on are stored from `table`
on, and a zero after them. The result is the address after the last string. -/
def fillTable : (n : ℕ) → (p table : Word) → K Word
  | 0, p, table => do
    putFsLong 0 table
    pure p
  | n + 1, p, table => do
    putFsLong p table
    let p ← skipString 0x4000001 p
    fillTable n p (table + 4)

/-- `create_tables`. -/
def createTables (p : Word) (argc envc : ℕ) : K Word := do
  let sp := 0xfffffffc &&& p
  let envp := sp - BitVec.ofNat 32 (4 * (envc + 1))
  let argv := envp - BitVec.ofNat 32 (4 * (argc + 1))
  putFsLong envp (argv - 4)
  putFsLong argv (argv - 8)
  putFsLong (BitVec.ofNat 32 argc) (argv - 12)
  let p ← fillTable argc p argv
  let _ ← fillTable envc p envp
  pure (argv - 12)

/-! ### `read_area` -/

/-- `BLOCK_SIZE`. -/
def blockSize : ℤ := 1024

/-- What the loaders read of an inode: `i_size` and `i_zone[9]`. -/
structure Inode where
  size : Word
  zone : ℕ → ℕ

/-- A block of the file, unless it is a hole, is copied to user memory. -/
def readBlock (z : ℕ) (off : Word) : K Unit :=
  if z = 0 then pure ()
  else do
    let b ← bread z
    cpBlock b off
    brelse z

/-- `read_head`, for `blocks` of the first six blocks after the header. -/
def readHead (i : Inode) (blocks : ℤ) : K Unit :=
  (List.range (min blocks 6).toNat).forM fun count =>
    readBlock (i.zone (count + 1)) (BitVec.ofNat 32 (count * 1024))

/-- The loop of `read_ind`, over the zones of the table from the entry `k` on. -/
def readIndFrom (table : Block) : (turns k : ℕ) → (offset : Word) → K Unit
  | 0, _, _ => pure ()
  | turns + 1, k, offset => do
    readBlock (Fs.word table k) offset
    readIndFrom table turns (k + 1) (offset + 1024)

/-- `read_ind`, for the table in the block `ind`. -/
def readInd (ind : ℕ) (size : ℤ) (offset : Word) : K Unit :=
  if size ≤ 0 then throw (.panic "size<=0 in read_ind")
  else if ind = 0 then pure ()
  else do
    let table ← bread ind
    readIndFrom table (((min size (512 * blockSize)) + blockSize - 1) / blockSize).toNat 0 offset
    brelse ind

/-- The loop of `read_area` over the tables of the table `dind`, from the entry `count` on. -/
def readDindFrom (dind : Block) : (turns count : ℕ) → (size : ℤ) → K Unit
  | 0, _, _ => throw (.panic "Impossibly long executable")
  | turns + 1, count, size => do
    readInd (Fs.word dind count) size (BitVec.ofNat 32 (1024 * (518 + count)))
    let size := size - blockSize * 512
    if size ≤ 0 then pure () else readDindFrom dind turns (count + 1) size

/-- `read_area`, which reads the area of `size` bytes after the header. -/
def readArea (i : Inode) (size : ℤ) : K Unit := do
  readHead i ((size + blockSize - 1) / blockSize)
  let size := size - blockSize * 6
  if size ≤ 0 then pure ()
  else do
    readInd (i.zone 7) size (BitVec.ofNat 32 (1024 * 6))
    let size := size - blockSize * 512
    if size ≤ 0 then pure ()
    else if i.zone 8 = 0 then pure ()
    else do
      let dind ← bread (i.zone 8)
      readDindFrom dind 512 0 size

/-! ### `do_execve` -/

/-- `ENOEXEC`. -/
def ENOEXEC : ℤ := 8

/-- `struct exec`: the fields of the header, and the entry address. -/
structure Header extends Mm.Exec where
  entry : Word

/-- `*((struct exec *) bh->b_data)`. -/
def header (b : Block) : Header := ⟨Inodes.execHeader b, Inodes.long b 5⟩

/-- `change_ldt`, after which the data segment ends where the arguments do. -/
def changeLdt (text : Word) (page : ℕ → ℕ) : K Word := do
  let s ← get
  let base := s.proc.code.getBase
  setProc fun c => { c with
    code := (c.code.setBase base).setLimit ((text + 4096 - 1) &&& 0xfffff000)
    data := (c.data.setBase base).setLimit Mm.System.dataLimit }
  modify fun s => { s with
    mem := Pages.putPages page maxArgPages (base + Mm.System.dataLimit) s.mem }
  pure Mm.System.dataLimit

/-- The new stack, for strings at `p` in the pages of `page`. -/
def newStack (text : Word) (argc envc : ℕ) (p : Word) (page : ℕ → ℕ) : K Word := do
  let top ← changeLdt text page
  createTables (p + (top - BitVec.ofNat 32 (maxArgPages * 4096))) argc envc

/-- The loop that clears the page with the end of the data, from the address `i` on. -/
def clearPage : (fuel : ℕ) → (i : Word) → K Unit
  | 0, _ => pure ()
  | fuel + 1, i =>
    if i &&& 0xfff ≠ 0 then do
      putFsByte 0 i
      clearPage fuel (i + 1)
    else pure ()

/-- Handlers, descriptors and the address space of the old program are given up. -/
def giveUp : K Unit := do
  setProc fun c => { c with
    sigFn := fun _ => 0
    filp := fun i => if c.closeOnExec i then none else c.filp i
    closeOnExec := fun _ => false }
  let s ← get
  onMem fun m => Mm.mm (m.freePageTables s.proc.code.getBase s.proc.code.getLimit)
  onMem fun m => Mm.mm (m.freePageTables s.proc.data.getBase s.proc.data.getLimit)
  setProc fun c => { c with lastMath := false, usedMath := false }

/-- `do_execve` from the point of no return on, when the strings are at `p` in the pages of
`page`. -/
def loadProgram (i : Inode) (ex : Header) (argc envc : ℕ) (p : Word) (page : ℕ → ℕ) : K ℤ := do
  giveUp
  let p ← newStack ex.text argc envc p page
  setProc fun c => { c with
    endCode := ex.text
    endData := ex.data + ex.text
    brk := ex.bss + (ex.data + ex.text)
    startStack := p &&& 0xfffff000 }
  readArea i (ex.text + ex.data).toInt
  iput
  clearPage 4096 (ex.text + ex.data)
  modify fun s => { s with eip := ex.entry, esp := p }
  pure 0

/-- The end of `do_execve` when the strings could not be copied. -/
def abandon (a : Pages) : K ℤ := do
  onMem fun _ => a.freePages
  iput
  pure (-1)

/-- `do_execve` after the check of the header. -/
def execAccepted (i : Inode) (ex : Header) (argv envp : List Str) : K ℤ := do
  let s ← get
  let r ← copyArguments argv envp s.mem
  if r.1 = 0 then abandon r.2
  else do
    modify fun s => { s with mem := r.2.mem }
    loadProgram i ex argv.length envp.length r.1 r.2.page

/-- `do_execve`, for the file `i` with its reference. -/
def doExecve (i : Inode) (argv envp : List Str) : K ℤ := do
  let b ← bread (i.zone 0)
  brelse (i.zone 0)
  if (header b).refused i.size then do
    iput
    pure (-ENOEXEC)
  else execAccepted i (header b) argv envp

end Linux001.Exec
