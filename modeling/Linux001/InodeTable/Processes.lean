import Linux001.Lib.Runs
import Linux001.Lib.Sizes
import Mathlib.Data.Fintype.Basic
import Mathlib.Data.Fin.Basic

/-!
# The inode table

The functions `iget`, `get_empty_inode`, `read_inode`, `write_inode` and `iput` of `fs/inode.c`, as
processes that share `inode_table`. The kernel is not preemptible: a process runs until it sleeps,
in `wait_on_inode` or `lock_inode` when the inode is locked, or while it waits for the disk. A
process therefore has a position `Pc`, and the events of the model are its steps from one position
to the next; another process may go on only when the last one to run is at a position where it
sleeps.

Of an inode the model has what these functions decide upon: its label, its counters and its flags.
The other fields of the disk inode are copied together with `i_nlinks`. Pipes, whose inodes have no
label, and the fields of `m_inode` that only the callers use are left out, and the buffer cache is
an up-to-date store of the disk inodes. The counter `i_count` is an `unsigned short`, which `iget`
raises without a test: it may run over.

## Main definitions

* `Inode`, `Pc`, `Proc`, `State`: the inodes, and the processes that use them.
* `State.next`: the effect of an event.
* `Trans`: what a step can do to the table and to the process that takes it.

## Main results

* `State.next_cases`: every step is one of the transitions, or a panic.
-/

namespace Linux001.InodeTable

/-- `NR_INODE`. -/
def nrInode : ℕ := 32

/-- The indices of `inode_table`. -/
abbrev Slot := Fin nrInode

instance : NeZero nrInode := ⟨by decide⟩

/-- A device and an inode number. -/
structure Label where
  dev : ℕ
  num : ℕ
  deriving DecidableEq, Repr

/-- The fields of `struct m_inode` that the functions of the model look at. -/
structure Inode where
  label : Label
  count : ℕ
  nlinks : ℕ
  lock : Bool
  dirt : Bool
  deriving DecidableEq, Repr

/-- What `memset(inode,0,sizeof(*inode))` leaves. -/
def Inode.zero : Inode := ⟨⟨0, 0⟩, 0, 0, false, false⟩

/-- `i_count++`. -/
def incCount (c : ℕ) : ℕ := (c + 1) % 65536

/-- `i_count--`. -/
def decCount (c : ℕ) : ℕ := if c = 0 then 65535 else c - 1

/-- The panics of the functions of the model. -/
inductive Panic
  | igetDev
  | noFreeInodes
  | iputFree
  | freeInode
  | freeLinks
  | bitCleared
  deriving DecidableEq, Repr

/-- The texts of the panics. -/
def Panic.message : Panic → String
  | .igetDev => "iget with dev==0"
  | .noFreeInodes => "No free inodes in mem"
  | .iputFree => "iput: trying to free free inode"
  | .freeInode => "free_inode"
  | .freeLinks => "trying to free inode with links"
  | .bitCleared => "free_inode: bit already cleared"

/-- What an `iput` is followed by: nothing, or the end of the `iget` that gives back its empty slot
because it has found the inode in another one. -/
abbrev Return := Option (Label × Slot)

/-- Where a process is. -/
inductive Pc
  /-- Outside of the functions of the model. -/
  | idle
  /-- `get_empty_inode`, at the head of its loop. -/
  | getEmpty (l : Label)
  /-- `get_empty_inode`, in `wait_on_inode`. -/
  | emptyWait (k : Slot) (l : Label)
  /-- `get_empty_inode`, in the `bread` of `write_inode`. -/
  | emptyWrite (k : Slot) (l : Label)
  /-- `get_empty_inode`, in the `brelse` of `write_inode`. -/
  | emptyWrote (k : Slot) (l : Label)
  /-- `iget`, at the start of the search, with its empty slot. -/
  | scan (e : Slot) (l : Label)
  /-- `iget`, in `wait_on_inode` for a slot with the right label. -/
  | scanWait (k e : Slot) (l : Label)
  /-- `iget`, in the `lock_inode` of `read_inode`. -/
  | readLock (e : Slot) (l : Label)
  /-- `iget`, in the `bread` of `read_inode`. -/
  | readInode (e : Slot) (l : Label)
  /-- `iget`, in the `brelse` of `read_inode`. -/
  | readDone (e : Slot) (l : Label)
  /-- `iput`, in `wait_on_inode`. -/
  | iput (k : Slot) (r : Return)
  /-- `iput`, in the `bread` of `write_inode`. -/
  | iputWrite (k : Slot) (r : Return)
  /-- `iput`, in the `brelse` of `write_inode`. -/
  | iputWrote (k : Slot) (r : Return)
  /-- `iput`, in `truncate`. -/
  | truncate (k : Slot) (r : Return)
  deriving DecidableEq, Repr

/-- A process: where it is, and the inodes it holds, with what it asked for. -/
structure Proc where
  pc : Pc
  held : List (Label × Slot)
  deriving DecidableEq, Repr

/-- The state shared by `n` processes. The disk has `i_nlinks` and the bit in the inode bitmap of
every inode. -/
structure State (n : ℕ) where
  table : Slot → Inode
  last : Slot
  disk : Label → ℕ
  imap : Label → Bool
  proc : Fin n → Proc
  current : Option (Fin n)
  panic : Option Panic

/-- The events: a process goes on from where it is, or, outside of the functions of the model, calls
`iget`, or calls `iput` for the inode at a place in its list of held ones, changes such an inode, or
drops a link to it as `sys_unlink` does. -/
inductive Event (n : ℕ)
  | run (p : Fin n)
  | iget (p : Fin n) (l : Label)
  | iput (p : Fin n) (j : ℕ)
  | change (p : Fin n) (j : ℕ)
  | unlink (p : Fin n) (j : ℕ)

/-- The process of an event. -/
def Event.proc {n : ℕ} : Event n → Fin n
  | .run p | .iget p _ | .iput p _ | .change p _ | .unlink p _ => p

namespace State

variable {n : ℕ} (s : State n) (p : Fin n)

/-- Store an inode. -/
def setInode (k : Slot) (i : Inode) : State n :=
  { s with table := Function.update s.table k i }

/-- Move a process. -/
def setPc (pc : Pc) : State n :=
  { s with proc := Function.update s.proc p { s.proc p with pc := pc } }

/-- A call ends; an `iget` has got an inode. -/
def finish (r : Return) : State n :=
  { s with proc := Function.update s.proc p ⟨.idle, r.toList ++ (s.proc p).held⟩ }

/-- The kernel panics. -/
def halt (e : Panic) : State n := { s with panic := some e }

/-- The scan of `get_empty_inode` for a slot without references, from `last_allocated_inode` on. -/
def findEmpty : Option Slot :=
  ((List.finRange nrInode).map (s.last + ·)).find? fun k => (s.table k).count = 0

/-- The scan of `iget` for a slot with the label. -/
def findLabel (l : Label) : Option Slot :=
  (List.finRange nrInode).find? fun k => (s.table k).label = l

/-- The head of the loop of `get_empty_inode`. -/
def getEmpty (l : Label) : State n :=
  match s.findEmpty with
  | none => s.halt .noFreeInodes
  | some k => { s with last := k }.setPc p (.emptyWait k l)

/-- `get_empty_inode` when the slot is not locked: a dirty inode is written first, and a slot that
is still without references is cleared and taken. -/
def emptyCheck (k : Slot) (l : Label) : State n :=
  if (s.table k).dirt then
    (s.setInode k { s.table k with lock := true }).setPc p (.emptyWrite k l)
  else if (s.table k).count = 0 then
    (s.setInode k { Inode.zero with count := 1 }).setPc p (.scan k l)
  else s.setPc p (.getEmpty l)

/-- `iget` has found the inode and gives back its empty slot. -/
def found (k e : Slot) (l : Label) : State n :=
  (s.setInode k { s.table k with count := incCount (s.table k).count }).setPc p
    (.iput e (some (l, k)))

/-- The search of `iget`, which begins again after every wait. -/
def scan (e : Slot) (l : Label) : State n :=
  match s.findLabel l with
  | some k => if (s.table k).lock then s.setPc p (.scanWait k e l) else s.found p k e l
  | none => (s.setInode e { s.table e with label := l }).setPc p (.readLock e l)

/-- `write_inode` after its `bread`. -/
def writeInode (k : Slot) : State n :=
  { s.setInode k { s.table k with dirt := false } with
    disk := Function.update s.disk (s.table k).label (s.table k).nlinks }

/-- `unlock_inode`. -/
def unlock (k : Slot) : State n := s.setInode k { s.table k with lock := false }

/-- `i_count--` at the end of `iput`. -/
def drop (k : Slot) (r : Return) : State n :=
  (s.setInode k { s.table k with count := decCount (s.table k).count }).finish p r

/-- `iput` from the label `repeat` on. -/
def iputRepeat (k : Slot) (r : Return) : State n :=
  if (s.table k).nlinks = 0 then s.setPc p (.truncate k r)
  else if (s.table k).dirt then
    (s.setInode k { s.table k with lock := true }).setPc p (.iputWrite k r)
  else s.drop p k r

/-- `iput` when the inode is not locked. -/
def iput (k : Slot) (r : Return) : State n :=
  if (s.table k).count = 0 then s.halt .iputFree
  else if (s.table k).label.dev = 0 ∨ (s.table k).count > 1 then s.drop p k r
  else s.iputRepeat p k r

/-- `free_inode` at the end of an `iput`. -/
def freeInode (k : Slot) (r : Return) : State n :=
  if (s.table k).label.dev = 0 then (s.setInode k Inode.zero).finish p r
  else if (s.table k).count > 1 then s.halt .freeInode
  else if (s.table k).nlinks ≠ 0 then s.halt .freeLinks
  else if s.imap (s.table k).label = false then s.halt .bitCleared
  else { s.setInode k Inode.zero with
    imap := Function.update s.imap (s.table k).label false }.finish p r

/-- A process goes on from where it is; a process that waits for an inode does so when it is not
locked. -/
def run : Option (State n) :=
  match (s.proc p).pc with
  | .idle => none
  | .getEmpty l => some (s.getEmpty p l)
  | .emptyWait k l => if (s.table k).lock then none else some (s.emptyCheck p k l)
  | .emptyWrite k l => some ((s.writeInode k).setPc p (.emptyWrote k l))
  | .emptyWrote k l => some ((s.unlock k).emptyCheck p k l)
  | .scan e l => some (s.scan p e l)
  | .scanWait k e l =>
    if (s.table k).lock then none
    else if (s.table k).label = l then some (s.found p k e l)
    else some (s.setPc p (.scan e l))
  | .readLock e l =>
    if (s.table e).lock then none
    else some ((s.setInode e { s.table e with lock := true }).setPc p (.readInode e l))
  | .readInode e l =>
    some ((s.setInode e { s.table e with nlinks := s.disk (s.table e).label }).setPc p
      (.readDone e l))
  | .readDone e l => some ((s.unlock e).finish p (some (l, e)))
  | .iput k r => if (s.table k).lock then none else some (s.iput p k r)
  | .iputWrite k r => some ((s.writeInode k).setPc p (.iputWrote k r))
  | .iputWrote k r => some ((s.unlock k).iputRepeat p k r)
  | .truncate k r => some (s.freeInode p k r)

/-- A process outside of the functions of the model calls one of them or uses an inode it holds. -/
def call : Event n → Option (State n)
  | .run _ => none
  | .iget p l => some (if l.dev = 0 then s.halt .igetDev else s.setPc p (.getEmpty l))
  | .iput p j => (s.proc p).held[j]?.map fun x =>
      { s with proc := Function.update s.proc p ⟨.iput x.2 none, (s.proc p).held.eraseIdx j⟩ }
  | .change p j => (s.proc p).held[j]?.map fun x =>
      s.setInode x.2 { s.table x.2 with dirt := true }
  | .unlink p j => (s.proc p).held[j]?.map fun x =>
      s.setInode x.2 { s.table x.2 with
        nlinks := (if (s.table x.2).nlinks = 0 then 1 else (s.table x.2).nlinks) - 1, dirt := true }

/-- A process is at a position where it sleeps, or may have to. -/
def sleeps (q : Fin n) : Bool :=
  match (s.proc q).pc with
  | .getEmpty _ | .scan _ _ => false
  | .emptyWait k _ | .scanWait k _ _ | .readLock k _ | .iput k _ => (s.table k).lock
  | _ => true

/-- The process `p` may run: it ran last, or the process that did sleeps. -/
def mayRun : Bool :=
  match s.current with
  | none => true
  | some q => q = p || s.sleeps q

/-- The effect of an event on the process it belongs to. -/
def act : Event n → Option (State n)
  | .run p => s.run p
  | e => if (s.proc e.proc).pc = .idle then s.call e else none

/-- The effect of an event. Nothing happens after a panic. -/
def next (e : Event n) : Option (State n) :=
  if s.panic = none ∧ s.mayRun e.proc then
    (s.act e).map fun s' => { s' with current := some e.proc }
  else none

/-- The slot that the next step of a process in `iget` takes a reference to, or that the next step
of a process in `get_empty_inode` locks. -/
def grabs : Option Slot :=
  match (s.proc p).pc with
  | .emptyWait k _ => if (s.table k).lock = false ∧ (s.table k).dirt = true then some k else none
  | .scan _ l => (s.findLabel l).filter fun k => !(s.table k).lock
  | .scanWait k _ l => if (s.table k).lock = false ∧ (s.table k).label = l then some k else none
  | _ => none

/-- The slot that the next step of a process in `iget` takes a reference to. -/
def takes : Option Slot :=
  match (s.proc p).pc with
  | .scan _ l => (s.findLabel l).filter fun k => !(s.table k).lock
  | .scanWait k _ l => if (s.table k).lock = false ∧ (s.table k).label = l then some k else none
  | _ => none

/-- Nothing is in core, and no process has called anything yet. -/
def init (disk : Label → ℕ) (imap : Label → Bool) : State n where
  table _ := Inode.zero
  last := 0
  disk := disk
  imap := imap
  proc _ := ⟨.idle, []⟩
  current := none
  panic := none

end State

/-! ### What a step can do -/

/-- A process of `get_empty_inode` goes on with an unlocked slot: after `wait_on_inode`, or at the
end of a `write_inode` of its own. -/
def EmptyReady {n : ℕ} (s : State n) (pc : Pc) (k : Slot) (l : Label) : Prop :=
  pc = .emptyWait k l ∧ (s.table k).lock = false ∨ pc = .emptyWrote k l

/-- A process of `iput` is about to test `i_nlinks`: after its test of `i_count`, or at the end of a
`write_inode` of its own. -/
def PutReady {n : ℕ} (s : State n) (pc : Pc) (k : Slot) (r : Return) : Prop :=
  pc = .iput k r ∧ (s.table k).lock = false ∧ (s.table k).count = 1 ∨ pc = .iputWrote k r

/-- The table and the process `p` after a step of `p` that does not panic. -/
inductive Trans {n : ℕ} (s : State n) (p : Fin n) : (Slot → Inode) → Proc → Prop
  | iget {l : Label} (hpc : (s.proc p).pc = .idle) (hl : l.dev ≠ 0) :
      Trans s p s.table ⟨.getEmpty l, (s.proc p).held⟩
  | put {j : ℕ} {x : Label × Slot} (hpc : (s.proc p).pc = .idle)
      (hx : (s.proc p).held[j]? = some x) :
      Trans s p s.table ⟨.iput x.2 none, (s.proc p).held.eraseIdx j⟩
  | use {x : Label × Slot} {m : ℕ} (hpc : (s.proc p).pc = .idle) (hx : x ∈ (s.proc p).held) :
      Trans s p (Function.update s.table x.2 { s.table x.2 with nlinks := m, dirt := true })
        (s.proc p)
  | pick {k : Slot} {l : Label} (hpc : (s.proc p).pc = .getEmpty l) :
      Trans s p s.table ⟨.emptyWait k l, (s.proc p).held⟩
  | flush {k : Slot} {l : Label} (hpc : EmptyReady s (s.proc p).pc k l)
      (hgrabs : (s.proc p).pc = .emptyWait k l → s.grabs p = some k) :
      Trans s p (Function.update s.table k { s.table k with lock := true })
        ⟨.emptyWrite k l, (s.proc p).held⟩
  | take {k : Slot} {l : Label} (hpc : EmptyReady s (s.proc p).pc k l)
      (hcount : (s.table k).count = 0) :
      Trans s p (Function.update s.table k { Inode.zero with count := 1 })
        ⟨.scan k l, (s.proc p).held⟩
  | retry {k : Slot} {l : Label} (hpc : EmptyReady s (s.proc p).pc k l) :
      Trans s p (Function.update s.table k { s.table k with lock := false })
        ⟨.getEmpty l, (s.proc p).held⟩
  | emptyStore {k : Slot} {l : Label} (hpc : (s.proc p).pc = .emptyWrite k l) :
      Trans s p (Function.update s.table k { s.table k with dirt := false })
        ⟨.emptyWrote k l, (s.proc p).held⟩
  | found {k e : Slot} {l : Label}
      (hpc : (s.proc p).pc = .scan e l ∨ (s.proc p).pc = .scanWait k e l)
      (hlock : (s.table k).lock = false) (hl : (s.table k).label = l)
      (htakes : s.takes p = some k) :
      Trans s p (Function.update s.table k { s.table k with count := incCount (s.table k).count })
        ⟨.iput e (some (l, k)), (s.proc p).held⟩
  | await {k e : Slot} {l : Label} (hpc : (s.proc p).pc = .scan e l) :
      Trans s p s.table ⟨.scanWait k e l, (s.proc p).held⟩
  | rescan {k e : Slot} {l : Label} (hpc : (s.proc p).pc = .scanWait k e l) :
      Trans s p s.table ⟨.scan e l, (s.proc p).held⟩
  | name {e : Slot} {l : Label} (hpc : (s.proc p).pc = .scan e l)
      (hnew : ∀ k, (s.table k).label ≠ l) :
      Trans s p (Function.update s.table e { s.table e with label := l })
        ⟨.readLock e l, (s.proc p).held⟩
  | lock {e : Slot} {l : Label} (hpc : (s.proc p).pc = .readLock e l)
      (hlock : (s.table e).lock = false) :
      Trans s p (Function.update s.table e { s.table e with lock := true })
        ⟨.readInode e l, (s.proc p).held⟩
  | read {e : Slot} {l : Label} {m : ℕ} (hpc : (s.proc p).pc = .readInode e l) :
      Trans s p (Function.update s.table e { s.table e with nlinks := m })
        ⟨.readDone e l, (s.proc p).held⟩
  | readEnd {e : Slot} {l : Label} (hpc : (s.proc p).pc = .readDone e l) :
      Trans s p (Function.update s.table e { s.table e with lock := false })
        ⟨.idle, (l, e) :: (s.proc p).held⟩
  | drop {k : Slot} {r : Return} (hpc : (s.proc p).pc = .iput k r ∧ (s.table k).lock = false ∨
        (s.proc p).pc = .iputWrote k r) :
      Trans s p (Function.update s.table k
          { s.table k with lock := false, count := decCount (s.table k).count })
        ⟨.idle, r.toList ++ (s.proc p).held⟩
  | putFlush {k : Slot} {r : Return} (hpc : PutReady s (s.proc p).pc k r) :
      Trans s p (Function.update s.table k { s.table k with lock := true })
        ⟨.iputWrite k r, (s.proc p).held⟩
  | putStore {k : Slot} {r : Return} (hpc : (s.proc p).pc = .iputWrite k r) :
      Trans s p (Function.update s.table k { s.table k with dirt := false })
        ⟨.iputWrote k r, (s.proc p).held⟩
  | destroy {k : Slot} {r : Return} (hpc : PutReady s (s.proc p).pc k r) :
      Trans s p (Function.update s.table k { s.table k with lock := false })
        ⟨.truncate k r, (s.proc p).held⟩
  | free {k : Slot} {r : Return} (hpc : (s.proc p).pc = .truncate k r) :
      Trans s p (Function.update s.table k Inode.zero) ⟨.idle, r.toList ++ (s.proc p).held⟩

namespace State

variable {n : ℕ} {s s' : State n} {p : Fin n}

/-- The step of `p` from `s` to `s'` has ended in a panic, which is the one of `free_inode` over the
counter only if that was above one, or it is a transition. -/
def Stepped (s : State n) (p : Fin n) (s' : State n) : Prop :=
  ((s'.panic = some .freeInode → ∃ k r, (s.proc p).pc = .truncate k r ∧ 1 < (s.table k).count) ∧
    s'.table = s.table ∧ s'.proc = s.proc) ∨
    s'.panic = s.panic ∧ ∃ q, Trans s p s'.table q ∧ s'.proc = Function.update s.proc p q

theorem findLabel_eq_some {l : Label} {k : Slot} (h : s.findLabel l = some k) :
    (s.table k).label = l := by
  simpa using List.find?_some h

/-- An inode to which a reference is taken is grabbed. -/
theorem grabs_of_takes {k : Slot} (h : s.takes p = some k) : s.grabs p = some k := by
  rw [takes] at h
  rw [grabs]
  split at h
  case h_1 e l hpc =>
    rw [hpc]
    exact h
  case h_2 j e l hpc =>
    rw [hpc]
    exact h
  case h_3 => cases h

theorem findLabel_eq_none {l : Label} (h : s.findLabel l = none) (k : Slot) :
    (s.table k).label ≠ l := by
  simpa using List.find?_eq_none.mp h k (List.mem_finRange k)

private theorem stepped_of_trans {q : Proc} {t : Slot → Inode} (h : Trans s p t q)
    (ht : s'.table = t) (hproc : s'.proc = Function.update s.proc p q)
    (hpanic : s'.panic = s.panic) : Stepped s p s' := by
  subst ht
  exact .inr ⟨hpanic, q, h, hproc⟩

private theorem stepped_halt {e : Panic} (he : e ≠ .freeInode) : Stepped s p (s.halt e) :=
  .inl ⟨fun hp => absurd (Option.some.inj hp) he, rfl, rfl⟩

private theorem stepped_getEmpty {l : Label} (hpc : (s.proc p).pc = .getEmpty l) :
    Stepped s p (s.getEmpty p l) := by
  rw [getEmpty]
  cases s.findEmpty with
  | none => exact stepped_halt (by simp)
  | some k => exact stepped_of_trans (.pick hpc) rfl rfl rfl

/-- The state `s₁` is `s` with the slot `k` unlocked. -/
private structure Unlocked (s s₁ : State n) (k : Slot) : Prop where
  table : s₁.table = Function.update s.table k { s.table k with lock := false }
  proc : s₁.proc = s.proc
  panic : s₁.panic = s.panic

private theorem unlocked_self {k : Slot} (h : (s.table k).lock = false) : Unlocked s s k := by
  refine ⟨?_, rfl, rfl⟩
  rw [← h]
  exact (Function.update_eq_self k s.table).symm

private theorem unlocked_unlock (k : Slot) : Unlocked s (s.unlock k) k := ⟨rfl, rfl, rfl⟩

private theorem Unlocked.update {s₁ : State n} {k : Slot} (h : Unlocked s s₁ k) (i : Inode) :
    Function.update s₁.table k i = Function.update s.table k i := by
  rw [h.table, Function.update_idem]

private theorem Unlocked.slot {s₁ : State n} {k : Slot} (h : Unlocked s s₁ k) :
    s₁.table k = { s.table k with lock := false } := by
  rw [h.table, Function.update_self]

private theorem stepped_emptyCheck {s₁ : State n} {k : Slot} {l : Label} (h : Unlocked s s₁ k)
    (hpc : EmptyReady s (s.proc p).pc k l) : Stepped s p (s₁.emptyCheck p k l) := by
  rw [emptyCheck, h.slot]
  dsimp only
  split_ifs with hd hc
  · refine stepped_of_trans (.flush hpc fun hwait => ?_) (h.update _) ?_ h.panic
    · rcases hpc with ⟨-, hlock⟩ | hwrote
      · simp [grabs, hwait, hlock, hd]
      · exact absurd (hwait.symm.trans hwrote) (by simp)
    · simp [setPc, setInode, h.proc]
  · refine stepped_of_trans (.take hpc hc) (h.update _) ?_ h.panic
    simp [setPc, setInode, h.proc]
  · refine stepped_of_trans (.retry hpc) h.table ?_ h.panic
    simp [setPc, h.proc]

private theorem stepped_scan {e : Slot} {l : Label} (hpc : (s.proc p).pc = .scan e l) :
    Stepped s p (s.scan p e l) := by
  rw [scan]
  cases hf : s.findLabel l with
  | none => exact stepped_of_trans (.name hpc (findLabel_eq_none hf)) rfl rfl rfl
  | some k =>
    dsimp only
    split_ifs with hlock
    · exact stepped_of_trans (.await hpc) rfl rfl rfl
    · have hlock : (s.table k).lock = false := by simpa using hlock
      have htakes : s.takes p = some k := by simp [takes, hpc, hf, hlock]
      exact stepped_of_trans (.found (.inl hpc) hlock (findLabel_eq_some hf) htakes) rfl rfl rfl

private theorem stepped_drop {s₁ : State n} {k : Slot} {r : Return} (h : Unlocked s s₁ k)
    (hpc : (s.proc p).pc = .iput k r ∧ (s.table k).lock = false ∨
      (s.proc p).pc = .iputWrote k r) : Stepped s p (s₁.drop p k r) := by
  refine stepped_of_trans (.drop hpc) ?_ ?_ h.panic
  · simp only [State.drop, finish, setInode]
    rw [h.update, h.slot]
  · simp [State.drop, finish, setInode, h.proc]

private theorem stepped_iputRepeat {s₁ : State n} {k : Slot} {r : Return} (h : Unlocked s s₁ k)
    (hpc : PutReady s (s.proc p).pc k r) : Stepped s p (s₁.iputRepeat p k r) := by
  rw [iputRepeat, h.slot]
  dsimp only
  split_ifs with hn hd
  · refine stepped_of_trans (.destroy hpc) h.table ?_ h.panic
    simp [setPc, h.proc]
  · refine stepped_of_trans (.putFlush hpc) (h.update _) ?_ h.panic
    simp [setPc, setInode, h.proc]
  · refine stepped_drop h ?_
    rcases hpc with ⟨hpc, hlock, -⟩ | hpc
    · exact .inl ⟨hpc, hlock⟩
    · exact .inr hpc

private theorem stepped_iput {k : Slot} {r : Return} (hpc : (s.proc p).pc = .iput k r)
    (hlock : (s.table k).lock = false) : Stepped s p (s.iput p k r) := by
  rw [State.iput]
  split_ifs with hc hmany
  · exact stepped_halt (by simp)
  · exact stepped_drop (unlocked_self hlock) (.inl ⟨hpc, hlock⟩)
  · exact stepped_iputRepeat (unlocked_self hlock) (.inl ⟨hpc, hlock, by omega⟩)

private theorem stepped_freeInode {k : Slot} {r : Return} (hpc : (s.proc p).pc = .truncate k r) :
    Stepped s p (s.freeInode p k r) := by
  rw [freeInode]
  split_ifs with hdev hcount
  · exact stepped_of_trans (.free hpc) rfl rfl rfl
  · exact .inl ⟨fun _ => ⟨k, r, hpc, hcount⟩, rfl, rfl⟩
  · exact stepped_halt (by simp)
  · exact stepped_halt (by simp)
  · exact stepped_of_trans (.free hpc) rfl rfl rfl

private theorem stepped_run (h : s.run p = some s') : Stepped s p s' := by
  rw [run] at h
  cases hpc : (s.proc p).pc <;> simp only [hpc] at h
  case idle => simp at h
  case getEmpty l =>
    obtain rfl := Option.some.inj h
    exact stepped_getEmpty hpc
  case emptyWait k l =>
    split_ifs at h with hlock
    obtain rfl := Option.some.inj h
    have hlock : (s.table k).lock = false := by simpa using hlock
    exact stepped_emptyCheck (unlocked_self hlock) (.inl ⟨hpc, hlock⟩)
  case emptyWrite k l =>
    obtain rfl := Option.some.inj h
    exact stepped_of_trans (.emptyStore hpc) rfl rfl rfl
  case emptyWrote k l =>
    obtain rfl := Option.some.inj h
    exact stepped_emptyCheck (unlocked_unlock k) (.inr hpc)
  case scan e l =>
    obtain rfl := Option.some.inj h
    exact stepped_scan hpc
  case scanWait k e l =>
    split_ifs at h with hlock hl
    · obtain rfl := Option.some.inj h
      have hlock : (s.table k).lock = false := by simpa using hlock
      have htakes : s.takes p = some k := by simp [takes, hpc, hlock, hl]
      exact stepped_of_trans (.found (.inr hpc) hlock hl htakes) rfl rfl rfl
    · obtain rfl := Option.some.inj h
      exact stepped_of_trans (.rescan hpc) rfl rfl rfl
  case readLock e l =>
    split_ifs at h with hlock
    obtain rfl := Option.some.inj h
    exact stepped_of_trans (.lock hpc (by simpa using hlock)) rfl rfl rfl
  case readInode e l =>
    obtain rfl := Option.some.inj h
    exact stepped_of_trans (.read hpc) rfl rfl rfl
  case readDone e l =>
    obtain rfl := Option.some.inj h
    exact stepped_of_trans (.readEnd hpc) rfl rfl rfl
  case iput k r =>
    split_ifs at h with hlock
    obtain rfl := Option.some.inj h
    exact stepped_iput hpc (by simpa using hlock)
  case iputWrite k r =>
    obtain rfl := Option.some.inj h
    exact stepped_of_trans (.putStore hpc) rfl rfl rfl
  case iputWrote k r =>
    obtain rfl := Option.some.inj h
    exact stepped_iputRepeat (unlocked_unlock k) (.inr hpc)
  case truncate k r =>
    obtain rfl := Option.some.inj h
    exact stepped_freeInode hpc

private theorem stepped_call {e : Event n} (hpc : (s.proc e.proc).pc = .idle)
    (h : s.call e = some s') : Stepped s e.proc s' := by
  have hself : ∀ p, s.proc = Function.update s.proc p (s.proc p) := fun p =>
    (Function.update_eq_self p s.proc).symm
  cases e with
  | run p => simp [call] at h
  | iget p l =>
    obtain rfl := Option.some.inj h
    split_ifs with hl
    · exact stepped_halt (by simp)
    · exact stepped_of_trans (.iget hpc hl) rfl rfl rfl
  | iput p j =>
    obtain ⟨x, hx, rfl⟩ := Option.map_eq_some_iff.mp h
    exact stepped_of_trans (.put hpc hx) rfl rfl rfl
  | change p j | unlink p j =>
    obtain ⟨x, hx, rfl⟩ := Option.map_eq_some_iff.mp h
    exact stepped_of_trans (.use hpc (List.mem_of_getElem? hx)) rfl (hself p) rfl

/-- Every step ends in a panic that leaves the table and the processes as they are, or is one of the
transitions. -/
theorem next_cases {e : Event n} (h : s.next e = some s') : Stepped s e.proc s' := by
  rw [next] at h
  split_ifs at h with hrun
  obtain ⟨s₁, hs₁, rfl⟩ := Option.map_eq_some_iff.mp h
  have hstep : Stepped s e.proc s₁ := by
    cases e with
    | run p => exact stepped_run hs₁
    | _ =>
      simp only [act] at hs₁
      split_ifs at hs₁ with hidle
      exact stepped_call hidle hs₁
  exact hstep

end State

end Linux001.InodeTable
