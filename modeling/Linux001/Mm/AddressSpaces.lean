import Linux001.Mm.Directory
import Linux001.Mm.Segment

/-!
# Address spaces of processes

The part of `fork`, `execve`, `exit` and `waitpid` that deals with the task table and the address
spaces: `find_empty_process`, `copy_process` and `copy_mem`; the header check, `copy_strings`,
`change_ldt` and the releases of `do_execve`; `do_exit`, `release` and the search of `sys_waitpid`.

Files, signals and times are left out, and so is what the copied argument strings say. The two parts
of `do_execve` are separate events, since it sleeps in between when it closes files. The accesses
that a system call makes to the memory of its caller are events of their own, like those of user
programs, and so are the calls of `verify_area`. Elements beyond the end of the array `page` of
`do_execve` count as zero.

## Main definitions

* `Task`, `System`: the task table and physical memory.
* `System.fork`, `System.execve`, `System.load`, `System.doExit`, `System.waitpid`,
  `System.verify`, `System.fault`: the operations.
* `System.Event`, `System.Admissible`, `System.perform`, `System.boot`: runs of them.
-/

namespace Linux001.Mm

/-! ### The task table -/

/-- The arguments of a process in `do_execve`: the pages its strings have been copied to, and the
size of the text of the new program. -/
structure Args where
  page : ℕ → ℕ
  text : Word

/-- `struct task_struct`, with its address in `page`; for the static structure of task 0, which is
not in a page of its own, this is 0. The state is `TASK_ZOMBIE` or not, and `args` is present
between the two parts of `do_execve`. -/
structure Task where
  page : ℕ
  zombie : Bool
  pid : ℤ
  father : ℤ
  pgrp : ℤ
  code : Desc
  data : Desc
  args : Option Args

/-- Physical memory, the array `task`, and `last_pid`. -/
structure System where
  mem : Memory
  task : ℕ → Option Task
  lastPid : ℤ

/-- The ways in which an operation does not return to the system: the panics, and a search for a
process number that does not end. -/
inductive Stop
  | mm (h : Halt)
  | separateID
  | badDataLimit
  | nonexistentPage
  | releaseNonexistent
  | pidLoop
  deriving DecidableEq, Repr

/-- The texts of the panics. -/
def Stop.message : Stop → Option String
  | .mm h => h.message
  | .separateID => some "We don't support separate I&D"
  | .badDataLimit => some "Bad data_limit"
  | .nonexistentPage => some "nonexistent page in exec.c"
  | .releaseNonexistent => some "trying to release non-existent task"
  | .pidLoop => none

/-- A call of a function of `mm/memory.c`. -/
def mm {α : Type} (r : Except Halt α) : Except Stop α := r.mapError .mm

section Calls

variable {α β : Type} (a : α) (e : Halt) (f : α → Except Stop β)

@[simp] theorem mm_ok : mm (.ok a) = .ok a := rfl

@[simp] theorem mm_ok_bind : (mm (.ok a) >>= f) = f a := rfl

theorem ok_bind : ((.ok a : Except Stop α) >>= f) = f a := rfl

end Calls

theorem mm_eq_ok {α : Type} {r : Except Halt α} {a : α} : mm r = .ok a ↔ r = .ok a := by
  cases r with
  | error e => exact ⟨nofun, nofun⟩
  | ok b => exact ⟨fun h => congrArg _ (Except.ok.inj h), fun h => congrArg mm h⟩

/-- `NR_TASKS`. -/
def nrTasks : ℕ := 64

/-- The slots 1 to 63 of the task table, in this order. -/
def taskSlots : List ℕ := List.range' 1 (nrTasks - 1)

/-- `MAX_ARG_PAGES`. -/
def maxArgPages : ℕ := 32

namespace System

/-- `task[n] = t`. -/
def setTask (s : System) (n : ℕ) (t : Option Task) : System :=
  { s with task := Function.update s.task n t }

/-! ### `fork` -/

/-- `if ((++last_pid)<0) last_pid=1`. -/
def nextPid (p : ℤ) : ℤ := if 2 ^ 31 ≤ p + 1 then 1 else p + 1

/-- A task in the table has the process number `p`. -/
def pidUsed (s : System) (p : ℤ) : Bool :=
  (List.range nrTasks).any fun i => (s.task i).any fun t => t.pid == p

/-- The loop `repeat` of `find_empty_process`, for a number of turns. -/
def freshPid (s : System) : ℕ → ℤ → Option ℤ
  | 0, _ => none
  | fuel + 1, p =>
    if s.pidUsed (nextPid p) then freshPid s fuel (nextPid p) else some (nextPid p)

/-- The search of `find_empty_process` for an empty slot. -/
def findEmpty (s : System) : Option ℕ := taskSlots.find? fun i => (s.task i).isNone

/-- `copy_mem`, with the flag of its result false for `-ENOMEM`. -/
def copyMem (nr : ℕ) (current p : Task) (m : Memory) : Except Stop (Bool × Task × Memory) :=
  let dataLimit := current.data.getLimit
  if current.data.getBase ≠ current.code.getBase then .error .separateID
  else if dataLimit < current.code.getLimit then .error .badDataLimit
  else
    let newBase := BitVec.ofNat 32 (nr * 0x4000000)
    let p := { p with code := p.code.setBase newBase, data := p.data.setBase newBase }
    mm (m.copyPageTables current.data.getBase newBase dataLimit) >>= fun r =>
    if r.1 ≠ 0 then
      mm (r.2.freePageTables newBase dataLimit) >>= fun m => .ok (false, p, m)
    else .ok (true, p, r.2)

/-- `copy_process`, into the slot `nr`. -/
def copyProcess (nr : ℕ) (current : Task) (s : System) : Except Stop System :=
  match s.mem.getFreePage with
  | none => .ok s
  | some (page, m) =>
    let p := { current with
      page := page, zombie := false, pid := s.lastPid, father := current.pid, args := none }
    copyMem nr current p m >>= fun r =>
    if r.1 then .ok (setTask { s with mem := r.2.2 } nr (some r.2.1))
    else mm (r.2.2.freePage page) >>= fun m => .ok { s with mem := m }

/-- `sys_fork`. One of `NR_TASKS + 1` successive process numbers is not used by a task. -/
def fork (current : Task) (s : System) : Except Stop System :=
  match s.freshPid (nrTasks + 1) s.lastPid with
  | none => .error .pidLoop
  | some pid =>
    let s := { s with lastPid := pid }
    match s.findEmpty with
    | none => .ok s
    | some nr => copyProcess nr current s

end System

/-! ### `execve` -/

/-- `struct exec`, without the entry address. -/
structure Exec where
  magic : Word
  text : Word
  data : Word
  bss : Word
  syms : Word
  trsize : Word
  drsize : Word

/-- `ZMAGIC`. -/
def zMagic : Word := 0o413

/-- `N_TXTOFF`. -/
def Exec.txtOff (ex : Exec) : Word := if ex.magic = zMagic then 1024 else 32

/-- The header check of `do_execve` on a file of `size` bytes fails. -/
def Exec.refused (ex : Exec) (size : Word) : Bool :=
  ex.magic ≠ zMagic || ex.trsize ≠ 0 || ex.drsize ≠ 0 ||
    0x3000000 < ex.text + ex.data + ex.bss ||
    size < ex.text + ex.data + ex.syms + ex.txtOff

/-- The array `page` of `do_execve` and physical memory. -/
structure Pages where
  page : ℕ → ℕ
  mem : Memory

namespace Pages

/-- The loop of `copy_strings` that gets pages from the index `i` on, for at most `fuel` turns; the
flag is false when there is none. -/
def getPages : (fuel i : ℕ) → Pages → Bool × Pages
  | 0, _, a => (true, a)
  | fuel + 1, i, a =>
    if i < maxArgPages ∧ a.page i = 0 then
      match a.mem.getFreePage with
      | none => (false, a)
      | some (page, m) => getPages fuel (i + 1) ⟨Function.update a.page i page, m⟩
    else (true, a)

/-- The page that the byte below `p` is copied to exists. -/
def hasPage (a : Pages) (p : Word) : Bool :=
  (p - 1).toNat / 4096 < maxArgPages && a.page ((p - 1).toNat / 4096) ≠ 0

/-- `copy_strings`, on strings of the given lengths, the last one first, to the addresses below `p`;
the result 0 says that memory has run out. -/
def copyStrings : List ℕ → Word → Pages → Except Stop (Word × Pages)
  | [], p, a => .ok (p, a)
  | len :: lens, p, a =>
    let len := len + 1
    match getPages maxArgPages ((p - BitVec.ofNat 32 len) >>> 12).toNat a with
    | (false, a) => .ok (0, a)
    | (true, a) =>
      if (List.range len).all fun k => a.hasPage (p - BitVec.ofNat 32 k) then
        copyStrings lens (p - BitVec.ofNat 32 len) a
      else .error .nonexistentPage

/-- The loop that frees the pages when `copy_strings` has failed. -/
def freePages (a : Pages) : Except Stop Memory :=
  mm ((List.range maxArgPages).foldlM (fun m i => m.freePage (a.page i)) a.mem)

/-- The loop of `change_ldt` that maps the first `i` pages below the address `base`. -/
def putPages (page : ℕ → ℕ) : (i : ℕ) → Word → Memory → Memory
  | 0, _, m => m
  | i + 1, base, m => putPages page i (base - 4096)
      (if page i ≠ 0 then (m.putPage (page i) (base - 4096)).2 else m)

end Pages

namespace System

/-- The first part of `do_execve`, for a file of the given header and size; it is absent if
`do_execve` fails before it looks at the header. The strings are given by their lengths. -/
def execve (n : ℕ) (current : Task) (file : Option (Exec × Word)) (envp argv : List ℕ)
    (s : System) : Except Stop System :=
  match file with
  | none => .ok s
  | some (ex, size) =>
    if ex.refused size then .ok s
    else
      Pages.copyStrings envp.reverse (BitVec.ofNat 32 (4096 * maxArgPages - 4))
        ⟨fun _ => 0, s.mem⟩ >>= fun r =>
      Pages.copyStrings argv.reverse r.1 r.2 >>= fun r =>
      if r.1 = 0 then r.2.freePages >>= fun m => .ok { s with mem := m }
      else .ok (setTask { s with mem := r.2.mem } n
        (some { current with args := some ⟨r.2.page, ex.text⟩ }))

/-- The two calls of `free_page_tables` in `do_execve` and in `do_exit`. -/
def freeTables (current : Task) (m : Memory) : Except Stop Memory :=
  mm (m.freePageTables current.code.getBase current.code.getLimit) >>= fun m =>
  mm (m.freePageTables current.data.getBase current.data.getLimit)

/-- The data limit of a program. -/
def dataLimit : Word := 0x4000000

/-- `change_ldt`, as far as the descriptors go. -/
def newSegments (current : Task) (text : Word) : Task :=
  let base := current.code.getBase
  { current with
    args := none
    code := (current.code.setBase base).setLimit ((text + 4096 - 1) &&& 0xfffff000)
    data := (current.data.setBase base).setLimit dataLimit }

/-- The second part of `do_execve`, from the point of no return to `change_ldt`. -/
def load (n : ℕ) (current : Task) (args : Args) (s : System) : Except Stop System :=
  freeTables current s.mem >>= fun m =>
  .ok (setTask { s with
    mem := Pages.putPages args.page maxArgPages (current.code.getBase + dataLimit) m }
    n (some (newSegments current args.text)))

/-! ### `exit` and `waitpid` -/

/-- `release`, of the task structure at the address `p`. -/
def release (p : ℕ) (s : System) : Except Stop System :=
  match taskSlots.find? fun i => (s.task i).any fun t => t.page == p with
  | none => .error .releaseNonexistent
  | some i => mm (s.mem.freePage p) >>= fun m => .ok (setTask { s with mem := m } i none)

/-- The loop of `do_exit` over the children of an exiting task. -/
def orphan (pid : ℤ) (s : System) : System :=
  { s with task := fun i =>
      (s.task i).map fun t => if t.father = pid then { t with father := 0 } else t }

/-- `do_exit`. -/
def doExit (n : ℕ) (current : Task) (s : System) : Except Stop System :=
  freeTables current s.mem >>= fun m =>
  let s := orphan current.pid { s with mem := m }
  let father := if current.father = current.pid then 0 else current.father
  if father ≠ 0 then
    .ok (s.setTask n (some { current with zombie := true, father := father, args := none }))
  else release current.page s

/-- The condition of `sys_waitpid` on a task `p` that its caller waits for. -/
def awaited (current : Task) (pid : ℤ) (p : Task) : Bool :=
  (pid == -1 || p.pid == pid || (pid == 0 && p.pgrp == current.pgrp) ||
    (decide (pid < 0) && p.pgrp == -pid)) && p.father == current.pid

/-- A pass of `sys_waitpid` over the table, from its end: the first awaited zombie is released. -/
def waitpid (n : ℕ) (current : Task) (pid : ℤ) (s : System) : Except Stop System :=
  match taskSlots.reverse.find? fun i =>
      i ≠ n && (s.task i).any fun p => awaited current pid p && p.zombie with
  | none => .ok s
  | some i => release ((s.task i).elim 0 Task.page) s

/-! ### Accesses -/

/-- The loop of `verify_area` over pages from `start` on; when memory runs out, the result is the
memory in which `do_exit` is called. -/
def verifyPages : (count : ℕ) → (start : Word) → Memory → Except Memory Memory
  | 0, _, m => .ok m
  | count + 1, start, m =>
    match m.writeVerify start with
    | .ok m => verifyPages count (start + 4096) m
    | .error _ => .error m.exhausted

/-- The number of turns of the loop of `verify_area`. The offset in the page is added to `size`,
which is an `int`, and the loop goes on while what is left is positive. -/
def verifyTurns (addr : Word) (size : ℕ) : ℕ :=
  let size := BitVec.ofNat 32 size + (addr &&& 0xfff)
  if 0 < size.toInt then (size.toNat + 4095) / 4096 else 0

/-- `verify_area`. -/
def verify (n : ℕ) (current : Task) (addr : Word) (size : ℕ) (s : System) : Except Stop System :=
  match verifyPages (verifyTurns addr size)
      ((addr &&& 0xfffff000) + current.data.getBase) s.mem with
  | .ok m => .ok { s with mem := m }
  | .error m => doExit n current { s with mem := m }

/-- An access to an address of the data segment, with the page fault it may cause. -/
def fault (n : ℕ) (current : Task) (off : Word) (write : Bool) (s : System) :
    Except Stop System :=
  match s.mem.touch write (current.data.getBase + off) with
  | .ok m => .ok { s with mem := m }
  | .error _ => doExit n current { s with mem := s.mem.exhausted }

/-! ### Runs -/

/-- What a process does: system calls, the second part of `do_execve`, calls of `verify_area`, and
accesses with their page faults. -/
inductive Call
  | fork
  | execve (file : Option (Exec × Word)) (envp argv : List ℕ)
  | load
  | exit
  | waitpid (pid : ℤ)
  | verify (addr : Word) (size : ℕ)
  | fault (off : Word) (write : Bool)

/-- A call by the process in a slot. -/
structure Event where
  slot : ℕ
  call : Call

/-- The header of a file says that its text is not empty and that it fits below the stack. -/
def Fits (ex : Exec) : Prop :=
  0 < ex.text.toNat ∧ ex.text.toNat + ex.data.toNat + ex.bss.toNat ≤ 0x3000000

/-- When a task may make a call: between the two parts of `do_execve` it does nothing but load the
program, access its memory or exit; accesses are within the limit of its data segment. -/
def May (t : Task) : Call → Prop
  | .fork | .waitpid _ | .verify _ _ => t.args = none
  | .execve file _ _ => t.args = none ∧ ∀ f ∈ file, Fits f.1
  | .load => t.args ≠ none
  | .exit => True
  | .fault off _ => off.toNat < t.data.getLimit.toNat

/-- Tasks that have not exited make the calls that they may make. -/
def Admissible (s : System) (e : Event) : Prop :=
  e.slot < nrTasks ∧ ∃ t, s.task e.slot = some t ∧ t.zombie = false ∧ May t e.call

/-- The effect of a call of the task `t` in the slot `n`. -/
def call (n : ℕ) (t : Task) (s : System) : Call → Except Stop System
  | .fork => fork t s
  | .execve file envp argv => execve n t file envp argv s
  | .load => match t.args with
    | none => .ok s
    | some args => load n t args s
  | .exit => doExit n t s
  | .waitpid pid => waitpid n t pid s
  | .verify addr size => verify n t addr size s
  | .fault off write => fault n t off write s

/-- The effect of an event. -/
def perform (s : System) (e : Event) : Except Stop System :=
  match s.task e.slot with
  | none => .ok s
  | some t => call e.slot t s e.call

/-- An event that may happen, and returns. -/
def Step (s : System) (e : Event) (s' : System) : Prop := s.Admissible e ∧ s.perform e = .ok s'

/-- `INIT_TASK`. -/
def initTask : Task where
  page := 0
  zombie := false
  pid := 0
  father := -1
  pgrp := 0
  code := ⟨0x9f, 0xc0fa00⟩
  data := ⟨0x9f, 0xc0f200⟩
  args := none

/-- The system when task 0 begins to run. -/
def boot (other : ℕ → Word) : System where
  mem := Memory.boot other
  task n := if n = 0 then some initTask else none
  lastPid := 0

end System

end Linux001.Mm
