import Linux001.Lib.Sizes
import Mathlib.Data.BitVec
import Mathlib.Data.Nat.Bitwise
import Mathlib.Logic.Function.Basic
import Mathlib.Tactic.Ring

/-!
# Physical memory and the page tables

The functions of `mm/memory.c` on a model of physical memory. Memory is a function from word
addresses to 32-bit words, the word at the word address `a` being the one at the physical address
`4 * a`; the page directory is at address 0, as `boot/head.s` puts it, and pointers to directory and
table entries are word addresses. The array `mem_map` counts the users of every page frame between
`LOW_MEM` and `HIGH_MEMORY` in an `unsigned short`.

A function that the kernel cannot return from, because it panics or because it leaves through
`do_exit`, ends in `Except.error`. The messages of `printk` change no state and are left out, as is
`invalidate`: the processor of the model has no translation cache.

## Main definitions

* `Memory`: the counters `mem_map` and the physical memory.
* `Memory.getFreePage`, `Memory.freePage`, `Memory.freePageTables`, `Memory.copyPageTables`,
  `Memory.putPage`, `Memory.unWpPage`, `Memory.doWpPage`, `Memory.writeVerify`,
  `Memory.doNoPage`: the functions of the source.
* `Memory.boot`: the memory `setup_paging` leaves behind.
-/

namespace Linux001.Mm

/-- The 32-bit words of memory, and `unsigned long`. -/
abbrev Word := BitVec 32

/-- `LOW_MEM`, which is `BUFFER_END` in the configured kernel. -/
def lowMem : ℕ := 0x200000

/-- `HIGH_MEMORY` of the configured kernel: 8 MB. -/
def highMemory : ℕ := 0x800000

/-- `PAGING_PAGES`, the length of `mem_map`. -/
def pagingPages : ℕ := (highMemory - lowMem) / 4096

/-- `MAP_NR(addr)`. -/
def mapNr (addr : ℕ) : ℕ := (addr - lowMem) >>> 12

/-- The ways in which a function of `mm/memory.c` does not return. -/
inductive Halt
  | freeNonexistent
  | freeFree
  | freeAlignment
  | freeSwapper
  | copyAlignment
  | alreadyExist
  | doExit
  deriving DecidableEq, Repr

/-- The texts of the panics. -/
def Halt.message : Halt → Option String
  | .freeNonexistent => some "trying to free nonexistent page"
  | .freeFree => some "trying to free free page"
  | .freeAlignment => some "free_page_tables called with wrong alignment"
  | .freeSwapper => some "Trying to free up swapper memory space"
  | .copyAlignment => some "copy_page_tables called with wrong alignment"
  | .alreadyExist => some "copy_page_tables: already exist"
  | .doExit => none

/-! ### Entries of directories and tables -/

/-- The present bit of an entry, `1 & e`. -/
def present (e : Word) : Bool := 1 &&& e != 0

/-- The physical address an entry holds, `0xfffff000 & e`. -/
def pageOf (e : Word) : ℕ := (0xfffff000 &&& e).toNat

/-- The word address of the directory entry of a linear address, `(address>>20) & 0xffc`. -/
def dirOf (address : Word) : ℕ := ((address >>> 20) &&& 0xffc).toNat / 4

/-! ### The state -/

/-- The counters `mem_map` and the words of physical memory. -/
structure Memory where
  memMap : ℕ → ℕ
  word : ℕ → Word

namespace Memory

/-- A store `*a = v` to physical memory. -/
def store (s : Memory) (a : ℕ) (v : Word) : Memory :=
  { s with word := Function.update s.word a v }

/-- An assignment to `mem_map[nr]`. -/
def setMap (s : Memory) (nr c : ℕ) : Memory :=
  { s with memMap := Function.update s.memMap nr c }

/-- The scan `std ; repne ; scasw` for a zero counter, from the last one downwards. -/
def scanFree (map : ℕ → ℕ) : ℕ → Option ℕ
  | 0 => none
  | n + 1 => if map n = 0 then some n else scanFree map n

/-- `get_free_page`: the physical address of the last free page, marked used and cleared; `none`
stands for the result 0. -/
def getFreePage (s : Memory) : Option (ℕ × Memory) :=
  (scanFree s.memMap pagingPages).map fun nr =>
    (nr * 4096 + lowMem,
      { memMap := Function.update s.memMap nr 1
        word := fun a => if a / 1024 = (nr * 4096 + lowMem) / 4096 then 0 else s.word a })

/-- `free_page`. -/
def freePage (addr : ℕ) (s : Memory) : Except Halt Memory :=
  if addr < lowMem then .ok s
  else if highMemory < addr then .error .freeNonexistent
  else if s.memMap (mapNr addr) ≠ 0 then
    .ok (s.setMap (mapNr addr) (s.memMap (mapNr addr) - 1))
  else .error .freeFree

/-- One turn of the inner loop of `free_page_tables`: release the page of the entry at `a`. -/
def freeEntry (a : ℕ) (s : Memory) : Except Halt Memory := do
  let s ← if present (s.word a) then freePage (pageOf (s.word a)) s else pure s
  return s.store a 0

/-- One turn of the outer loop of `free_page_tables`: release the table of the directory entry at
`dir` and its pages. -/
def freeDir (dir : ℕ) (s : Memory) : Except Halt Memory :=
  if present (s.word dir) then do
    let pgTable := pageOf (s.word dir) / 4
    let s ← (List.range 1024).foldlM (fun s nr => freeEntry (pgTable + nr) s) s
    let s ← freePage (pageOf (s.word dir)) s
    return s.store dir 0
  else .ok s

/-- The number of directory entries a range of `size` bytes takes, `(size + 0x3fffff) >> 22`. -/
def dirCount (size : Word) : ℕ := ((size + 0x3fffff) >>> 22).toNat

/-- `free_page_tables`. -/
def freePageTables (from' size : Word) (s : Memory) : Except Halt Memory :=
  if from' &&& 0x3fffff ≠ 0 then .error .freeAlignment
  else if from' = 0 then .error .freeSwapper
  else (List.range (dirCount size)).foldlM (fun s k => freeDir (dirOf from' + k) s) s

/-- One turn of the inner loop of `copy_page_tables`, from the entry at `src` to the one at
`dst`. The comparison with `LOW_MEM` is made with the flag bits still in `this_page`. -/
def copyEntry (src dst : ℕ) (s : Memory) : Memory :=
  let thisPage := s.word src
  if present thisPage then
    let thisPage := thisPage &&& ~~~2
    let s := s.store dst thisPage
    if lowMem < thisPage.toNat then
      let s := s.store src thisPage
      let nr := (thisPage.toNat - lowMem) >>> 12
      s.setMap nr ((s.memMap nr + 1) % 65536)
    else s
  else s

/-- One turn of the outer loop of `copy_page_tables`, with `nr` entries copied from the table; the
result is `none` when memory runs out. -/
def copyDir (s : Memory) (nr fromDir toDir : ℕ) : Except Halt (Option Memory) :=
  if present (s.word toDir) then .error .alreadyExist
  else if present (s.word fromDir) then
    match s.getFreePage with
    | none => .ok none
    | some (toPage, s') =>
      let fromPageTable := pageOf (s.word fromDir) / 4
      let s' := s'.store toDir (BitVec.ofNat 32 toPage ||| 7)
      .ok (some ((List.range nr).foldl
        (fun s i => copyEntry (fromPageTable + i) (toPage / 4 + i) s) s'))
  else .ok (some s)

/-- The outer loop of `copy_page_tables`, over `size` directory entries; it ends with the result -1
when memory runs out. -/
def copyDirs (nr : ℕ) : (size fromDir toDir : ℕ) → Memory → Except Halt (ℤ × Memory)
  | 0, _, _, s => .ok (0, s)
  | size + 1, fromDir, toDir, s =>
    match s.copyDir nr fromDir toDir with
    | .error e => .error e
    | .ok none => .ok (-1, s)
    | .ok (some s') => copyDirs nr size (fromDir + 1) (toDir + 1) s'

/-- `copy_page_tables`. From address 0 only the first 160 entries of a table are copied. -/
def copyPageTables (from' to' size : Word) (s : Memory) : Except Halt (ℤ × Memory) :=
  if from' &&& 0x3fffff ≠ 0 ∨ to' &&& 0x3fffff ≠ 0 then .error .copyAlignment
  else copyDirs (if from' = 0 then 0xA0 else 1024) (dirCount size) (dirOf from') (dirOf to') s

/-- `put_page`: map `page` at `address`, with a new table where there is none. The flag is false
when memory for the table runs out (result 0). -/
def putPage (page : ℕ) (address : Word) (s : Memory) : Bool × Memory :=
  let index := ((address >>> 12) &&& 0x3ff).toNat
  if present (s.word (dirOf address)) then
    let pageTable := pageOf (s.word (dirOf address)) / 4
    (true, s.store (pageTable + index) (BitVec.ofNat 32 page ||| 7))
  else
    match s.getFreePage with
    | none => (false, s)
    | some (tmp, s') =>
      let s' := s'.store (dirOf address) (BitVec.ofNat 32 tmp ||| 7)
      (true, s'.store (tmp / 4 + index) (BitVec.ofNat 32 page ||| 7))

/-- `copy_page`. -/
def copyPage (old new : ℕ) (s : Memory) : Memory :=
  { s with
    word := fun a => if a / 1024 = new / 4096 then s.word (old / 4 + a % 1024) else s.word a }

/-- `un_wp_page` on the entry at the word address `entry`. -/
def unWpPage (entry : ℕ) (s : Memory) : Except Halt Memory :=
  let oldPage := pageOf (s.word entry)
  if lowMem ≤ oldPage ∧ s.memMap (mapNr oldPage) = 1 then
    .ok (s.store entry (s.word entry ||| 2))
  else
    match s.getFreePage with
    | none => .error .doExit
    | some (newPage, s') =>
      let s' := if lowMem ≤ oldPage then
          s'.setMap (mapNr oldPage) ((s'.memMap (mapNr oldPage) + 65535) % 65536)
        else s'
      .ok ((s'.store entry (BitVec.ofNat 32 newPage ||| 7)).copyPage oldPage newPage)

/-- The word address of the table entry of a linear address whose table is present,
`((address>>10) & 0xffc) + (0xfffff000 & *dir)`. -/
def entryOf (s : Memory) (address : Word) : ℕ :=
  (((address >>> 10) &&& 0xffc) + (0xfffff000 &&& s.word (dirOf address))).toNat / 4

/-- `do_wp_page`. -/
def doWpPage (address : Word) (s : Memory) : Except Halt Memory :=
  unWpPage (s.entryOf address) s

/-- `write_verify`. -/
def writeVerify (address : Word) (s : Memory) : Except Halt Memory :=
  if present (s.word (dirOf address)) then
    if 3 &&& s.word (s.entryOf address) = 1 then unWpPage (s.entryOf address) s else .ok s
  else .ok s

/-- `do_no_page`. -/
def doNoPage (address : Word) (s : Memory) : Except Halt Memory :=
  match s.getFreePage with
  | none => .error .doExit
  | some (tmp, s') =>
    match s'.putPage tmp address with
    | (true, s') => .ok s'
    | (false, _) => .error .doExit

/-- The memory after `setup_paging`: all counters are zero, the first two directory entries map
the first 8 MB one to one, and the words of the other pages are arbitrary. -/
def boot (other : ℕ → Word) : Memory where
  memMap _ := 0
  word a :=
    if a = 0 then 0x1007
    else if a = 1 then 0x2007
    else if a < 1024 then 0
    else if a < 3 * 1024 then BitVec.ofNat 32 ((a - 1024) * 4096 + 7)
    else other a

end Memory

end Linux001.Mm
