import Linux001.BufferCache.Queues
import Linux001.Lib.Runs

/-!
# The buffer cache

The functions `get_hash_table`, `getblk`, `brelse`, `bread`, `sync_dev` and `sys_sync` of
`fs/buffer.c`, and the parts of `free_block` and `new_block` of `fs/bitmap.c` that deal with the
buffer of a block, as processes that share the buffer heads. The kernel is not preemptible: a
process runs until it sleeps, in `wait_on_buffer` when the buffer is locked, in `ll_rw_block` until
its transfer has ended, or on `buffer_wait`. A process therefore has a position `Pc`, and it takes
steps from one position to the next; another process may go on only when this one has come to a
position where it sleeps. Of the processes that wait for a buffer any may go on first, where
`sleep_on` has the last one go on first. The disk takes or delivers the data of a locked buffer at
some moment, and the interrupt that ends the transfer comes at a later one.

Devices are not zero, which stands for a buffer head without a block, and block numbers are below
65536, so that they fit into `b_blocknr`. Every transfer succeeds. The data of a block is an element
of an arbitrary type. The `sync_inodes` of `sys_sync` is a sequence of calls of `bread` and `brelse`
with changes in between, which every process may make.

## Main definitions

* `Buf`, `Pc`, `Proc`, `State`: the buffer heads, and the processes that use them.
* `State.next`: the effect of an event.
* `Trans`: what a step can do to the buffer heads and to the process that takes it.

## Main results

* `State.next_cases`: every step is a transition, a step of the disk or a panic.
-/

namespace Linux001.BufferCache

/-- A transfer between a locked buffer and the block of its label: whether it is a write, and
whether the disk has taken or delivered the data. -/
structure Transfer where
  write : Bool
  label : Label
  taken : Bool
  deriving DecidableEq, Repr

/-- A `struct buffer_head`, with the data that it points to. The counter `b_count` is an
`unsigned char`. -/
structure Buf (D : Type*) where
  label : Label
  uptodate : Bool
  dirt : Bool
  count : ℕ
  lock : Option Transfer
  data : D

/-- A buffer head with its new label, as `getblk` puts it back into the queues. -/
def Buf.renew {D : Type*} (x : Buf D) (l : Label) : Buf D :=
  { x with label := l, dirt := false, uptodate := false }

/-- What a process does with a buffer that it looks for: `get_hash_table` returns it, `free_block`
discards its contents, and `getblk` returns it even if it has to be made, or `bread`, when it also
has to be read. -/
inductive Use
  | hash
  | free
  | get (read : Bool)
  deriving DecidableEq, Repr

/-- A buffer head that `getblk` has taken out of the queues, the device that `sync_dev` writes for
it, and what it is to be used for. -/
structure Recycle (N : ℕ) where
  tmp : Fin N
  dev : ℕ
  label : Label
  read : Bool
  deriving DecidableEq, Repr

/-- Where a process is. -/
inductive Pc (N : ℕ)
  /-- Outside of the functions of the model, where a process may sleep or return to its program. -/
  | idle
  /-- At the label `repeat` of `get_hash_table` or `getblk`. -/
  | find (l : Label) (u : Use)
  /-- `get_hash_table`, in `wait_on_buffer`. -/
  | hashWait (b : Fin N) (l : Label) (u : Use)
  /-- `getblk`, at a buffer head of the free list. -/
  | scan (t : Fin N) (l : Label) (read : Bool)
  /-- `getblk`, in `wait_on_buffer`. -/
  | freeWait (t : Fin N) (l : Label) (read : Bool)
  /-- `getblk`, in `sleep_on(&buffer_wait)` since a number of releases. -/
  | noFree (since : ℕ) (l : Label) (read : Bool)
  /-- `sys_sync`, or the `sync_dev` of a `getblk`, at the head of its loop. -/
  | sync (r : Option (Recycle N)) (i : ℕ)
  /-- `sys_sync` or `sync_dev`, in `wait_on_buffer`. -/
  | syncWait (r : Option (Recycle N)) (i : Fin N)
  /-- `sys_sync` or `sync_dev`, in `ll_rw_block`. -/
  | syncWrite (r : Option (Recycle N)) (i : Fin N)
  /-- `getblk`, after `sync_dev`. -/
  | relabel (r : Recycle N)
  /-- `bread`, in `ll_rw_block`. -/
  | readWait (b : Fin N) (l : Label)
  /-- `brelse`, in `wait_on_buffer`, and what is to be looked for afterwards. -/
  | brelse (b : Fin N) (r : Option (Label × Use))
  deriving DecidableEq, Repr

/-- A process: where it is, and the buffers it holds, with what it asked for. -/
structure Proc (N : ℕ) where
  pc : Pc N
  held : List (Label × Fin N)
  deriving DecidableEq, Repr

/-- The state shared by `n` processes, one of which may have the processor. -/
structure State (D : Type*) (N n : ℕ) where
  queues : Queues N
  buf : Fin N → Buf D
  disk : Label → D
  proc : Fin n → Proc N
  current : Option (Fin n)
  releases : ℕ
  panic : Option String

/-- The events: a process goes on from where it is, or, outside of the functions of the model, looks
for a buffer, calls `sys_sync`, calls `brelse` for the buffer at a place in its list of held ones,
changes a held buffer and sets `b_dirt` (the buffers of the bitmaps are held for all processes), or
fills one as `new_block` does; the disk takes or delivers the data of a buffer; the interrupt ends a
transfer. -/
inductive Event (D : Type*) (N n : ℕ)
  | run (p : Fin n)
  | call (p : Fin n) (l : Label) (u : Use)
  | sync (p : Fin n)
  | brelse (p : Fin n) (j : ℕ)
  | change (p q : Fin n) (j : ℕ) (d : D)
  | fill (p : Fin n) (j : ℕ) (d : D)
  | disk (b : Fin N)
  | intr (b : Fin N)

/-- The process of an event. -/
def Event.proc {D : Type*} {N n : ℕ} : Event D N n → Option (Fin n)
  | .run p | .call p _ _ | .sync p | .brelse p _ | .change p _ _ _ | .fill p _ _ => some p
  | .disk _ | .intr _ => none

namespace State

variable {D : Type*} {N n : ℕ} (s : State D N n) (p : Fin n)

/-- The labels of the buffer heads. -/
def labels (b : Fin N) : Label := (s.buf b).label

/-- Store a buffer head. -/
def setBuf (b : Fin N) (x : Buf D) : State D N n :=
  { s with buf := Function.update s.buf b x }

/-- Move a process. -/
def setPc (pc : Pc N) : State D N n :=
  { s with proc := Function.update s.proc p { s.proc p with pc := pc } }

/-- A call ends with a buffer. -/
def hold (b : Fin N) (l : Label) : State D N n :=
  { s with proc := Function.update s.proc p ⟨.idle, (l, b) :: (s.proc p).held⟩ }

/-- `find_buffer`. -/
def find (l : Label) : Option (Fin N) := s.queues.find s.labels l

/-- `ll_rw_block` locks the buffer and requests the transfer. -/
def request (write : Bool) (b : Fin N) : State D N n :=
  s.setBuf b { s.buf b with lock := some ⟨write, (s.buf b).label, false⟩ }

/-- The end of a `getblk`, or of the `bread` that has called it. -/
def got (b : Fin N) (l : Label) (read : Bool) : State D N n :=
  if read ∧ (s.buf b).uptodate = false then (s.request false b).setPc p (.readWait b l)
  else s.hold p b l

/-- A search of the hash chains: `b_count++` if there is a buffer, else the search of the free list
unless the caller does with a `NULL`. -/
def lookUp (l : Label) (u : Use) : State D N n :=
  match s.find l with
  | some b =>
    (s.setBuf b { s.buf b with count := ((s.buf b).count + 1) % 256 }).setPc p (.hashWait b l u)
  | none =>
    match u with
    | .get read => s.setPc p (.scan s.queues.freeList l read)
    | .hash | .free => s.setPc p .idle

/-- `get_hash_table` when the buffer is not locked, and what its caller does with the buffer. -/
def hashCheck (b : Fin N) (l : Label) (u : Use) : State D N n :=
  if (s.buf b).label ≠ l then s.setPc p (.brelse b (some (l, u)))
  else match u with
    | .hash => s.hold p b l
    | .get read => s.got p b l read
    | .free =>
      if (s.buf b).count ≠ 1 then s.setPc p .idle
      else (s.setBuf b { s.buf b with dirt := false, uptodate := false }).setPc p (.brelse b none)

/-- The next buffer head of the free list, unless it is the first one. -/
def advance (t : Fin N) (l : Label) (read : Bool) : State D N n :=
  if s.queues.nextFree t = s.queues.freeList then s.setPc p (.noFree s.releases l read)
  else s.setPc p (.scan (s.queues.nextFree t) l read)

/-- `getblk` takes a buffer head out of the queues. -/
def take (t : Fin N) (l : Label) (read : Bool) : State D N n :=
  let r : Recycle N := ⟨t, (s.buf t).label.dev, l, read⟩
  { s.setBuf t { s.buf t with count := 1 } with
    queues := s.queues.remove (s.buf t).label t }.setPc p
      (if (s.buf t).dirt then .sync (some r) 0 else .relabel r)

/-- The head of the loop of `sys_sync`, or of that of `sync_dev`, which skips other devices. -/
def syncNext (r : Option (Recycle N)) (i : ℕ) : State D N n :=
  if h : i < N then
    match r with
    | none => s.setPc p (.syncWait r ⟨i, h⟩)
    | some r' =>
      if (s.buf ⟨i, h⟩).label.dev ≠ r'.dev then s.setPc p (.sync r (i + 1))
      else s.setPc p (.syncWait r ⟨i, h⟩)
  else match r with
    | none => s.setPc p .idle
    | some r' => s.setPc p (.relabel r')

/-- `getblk` gives its new label to the buffer head, and puts it back into the queues under it,
unless there is a buffer for it already. -/
def relabel (r : Recycle N) : State D N n :=
  let s := s.setBuf r.tmp ((s.buf r.tmp).renew r.label)
  match s.find r.label with
  | some _ =>
    { s.setBuf r.tmp { s.buf r.tmp with label := ⟨0, 0⟩, count := 0 } with
      queues := s.queues.insert ⟨0, 0⟩ r.tmp }.setPc p (.find r.label (.get r.read))
  | none =>
    { s with queues := s.queues.insert r.label r.tmp }.got p r.tmp r.label r.read

/-- What follows a `brelse`. -/
def afterBrelse : Option (Label × Use) → Pc N
  | none => .idle
  | some (l, u) => .find l u

/-- `brelse` when the buffer is not locked. -/
def brelse (b : Fin N) (r : Option (Label × Use)) : State D N n :=
  if (s.buf b).count = 0 then
    { s.setBuf b { s.buf b with count := 255 } with panic := some "Trying to free free buffer" }
  else
    { s.setBuf b { s.buf b with count := (s.buf b).count - 1 } with
      releases := s.releases + 1 }.setPc p (afterBrelse r)

/-- The buffer is locked. -/
def locked (b : Fin N) : Bool := (s.buf b).lock.isSome

/-- A process is at a position where it sleeps. -/
def sleeps (q : Fin n) : Bool :=
  match (s.proc q).pc with
  | .idle => true
  | .find _ _ | .scan _ _ _ | .sync _ _ | .relabel _ => false
  | .noFree since _ _ => s.releases ≤ since
  | .hashWait b _ _ | .freeWait b _ _ | .syncWait _ b | .syncWrite _ b | .readWait b _
  | .brelse b _ => s.locked b

/-- A process goes on from where it is, when it does not sleep there. -/
def run : State D N n :=
  match (s.proc p).pc with
  | .idle => s
  | .find l u => s.lookUp p l u
  | .hashWait b l u => s.hashCheck p b l u
  | .scan t l read =>
    if (s.buf t).count = 0 then s.setPc p (.freeWait t l read) else s.advance p t l read
  | .freeWait t l read => if (s.buf t).count = 0 then s.take p t l read else s.advance p t l read
  | .noFree _ l read => s.setPc p (.find l (.get read))
  | .sync r i => s.syncNext p r i
  | .syncWait r i =>
    if (s.buf i).dirt then (s.request true i).setPc p (.syncWrite r i)
    else s.setPc p (.sync r (i + 1))
  | .syncWrite r i => s.setPc p (.sync r (i + 1))
  | .relabel r => s.relabel p r
  | .readWait b l =>
    if (s.buf b).uptodate then s.hold p b l else s.setPc p (.brelse b none)
  | .brelse b r => s.brelse p b r

/-- The effect of an event on the buffers and on the processes. -/
def act : Event D N n → Option (State D N n)
  | .run p => if s.sleeps p then none else some (s.run p)
  | .call p l u =>
    if (s.proc p).pc = .idle ∧ l.dev ≠ 0 ∧ l.block < 65536 then some (s.setPc p (.find l u))
    else none
  | .sync p => if (s.proc p).pc = .idle then some (s.setPc p (.sync none 0)) else none
  | .brelse p j =>
    if (s.proc p).pc = .idle then
      (s.proc p).held[j]?.map fun x => { s with
        proc := Function.update s.proc p ⟨.brelse x.2 none, (s.proc p).held.eraseIdx j⟩ }
    else none
  | .change p q j d =>
    if (s.proc p).pc = .idle then
      (s.proc q).held[j]?.map fun x => s.setBuf x.2 { s.buf x.2 with data := d, dirt := true }
    else none
  | .fill p j d =>
    if (s.proc p).pc = .idle then
      (s.proc p).held[j]?.map fun x =>
        s.setBuf x.2 { s.buf x.2 with data := d, uptodate := true, dirt := true }
    else none
  | .disk b => (s.buf b).lock.bind fun t =>
    if t.taken then none
    else if t.write then
      some { s.setBuf b { s.buf b with lock := some { t with taken := true } } with
        disk := Function.update s.disk t.label (s.buf b).data }
    else
      some (s.setBuf b
        { s.buf b with data := s.disk t.label, lock := some { t with taken := true } })
  | .intr b => (s.buf b).lock.bind fun t =>
    if t.taken then
      some (s.setBuf b { s.buf b with uptodate := true, dirt := false, lock := none })
    else none

/-- A process has the processor until it sleeps. -/
def yield : State D N n := { s with current := if s.sleeps p then none else some p }

/-- The effect of an event on a state that has not panicked. A process may run if no other one has
the processor. -/
def next (e : Event D N n) : Option (State D N n) :=
  if s.panic = none then
    match e.proc with
    | none => s.act e
    | some p =>
      if s.current = none ∨ s.current = some p then (s.act e).map fun s' => s'.yield p else none
  else none

/-- The buffer that an event changes, as the process that holds it knows it, and its new data. -/
def changes : Event D N n → Option ((Label × Fin N) × D)
  | .change _ q j d => (s.proc q).held[j]?.map fun x => (x, d)
  | .fill p j d => (s.proc p).held[j]?.map fun x => (x, d)
  | _ => none

/-- `buffer_init`, and no process has called anything yet. -/
def init [NeZero N] (disk : Label → D) (data : Fin N → D) : State D N n where
  queues := .init
  buf b := ⟨⟨0, 0⟩, false, false, 0, none, data b⟩
  disk := disk
  proc _ := ⟨.idle, []⟩
  current := none
  releases := 0
  panic := none

end State

/-! ### What a step can do -/

section Trans

variable {D : Type*} {N n : ℕ}

/-- The steps that only move a process. -/
inductive Moves (s : State D N n) : Pc N → Pc N → Prop
  | call {l : Label} {u : Use} (hl : l.dev ≠ 0) : Moves s .idle (.find l u)
  | callSync : Moves s .idle (.sync none 0)
  | null {l : Label} {u : Use} (hf : s.find l = none) : Moves s (.find l u) .idle
  | search {l : Label} {read : Bool} (hf : s.find l = none) :
      Moves s (.find l (.get read)) (.scan s.queues.freeList l read)
  | wait {t : Fin N} {l : Label} {read : Bool} : Moves s (.scan t l read) (.freeWait t l read)
  | scanOn {t t' : Fin N} {l : Label} {read : Bool} :
      Moves s (.scan t l read) (.scan t' l read)
  | scanEnd {t : Fin N} {k : ℕ} {l : Label} {read : Bool} :
      Moves s (.scan t l read) (.noFree k l read)
  | waitOn {t t' : Fin N} {l : Label} {read : Bool} :
      Moves s (.freeWait t l read) (.scan t' l read)
  | waitEnd {t : Fin N} {k : ℕ} {l : Label} {read : Bool} :
      Moves s (.freeWait t l read) (.noFree k l read)
  | wake {k : ℕ} {l : Label} {read : Bool} : Moves s (.noFree k l read) (.find l (.get read))
  | syncEnd {i : ℕ} : Moves s (.sync none i) .idle
  | synced {r : Recycle N} {i : ℕ} (hi : N ≤ i) : Moves s (.sync (some r) i) (.relabel r)
  | skip {r : Recycle N} {i : Fin N} (hdev : (s.buf i).label.dev ≠ r.dev) :
      Moves s (.sync (some r) i) (.sync (some r) (i + 1))
  | await {r : Option (Recycle N)} {i : Fin N} : Moves s (.sync r i) (.syncWait r i)
  | clean {r : Option (Recycle N)} {i : Fin N} (hlock : (s.buf i).lock = none)
      (hdirt : (s.buf i).dirt = false) : Moves s (.syncWait r i) (.sync r (i + 1))
  | written {r : Option (Recycle N)} {i : Fin N} (hlock : (s.buf i).lock = none) :
      Moves s (.syncWrite r i) (.sync r (i + 1))
  | stale {b : Fin N} {l : Label} {u : Use} (hl : (s.buf b).label ≠ l) :
      Moves s (.hashWait b l u) (.brelse b (some (l, u)))
  | unread {b : Fin N} {l : Label} (hlock : (s.buf b).lock = none)
      (hup : (s.buf b).uptodate = false) : Moves s (.readWait b l) (.brelse b none)

/-- The buffer `b` is found or read for the label `l`. -/
inductive Ready (s : State D N n) (b : Fin N) (l : Label) : Pc N → Prop
  | hash (hl : (s.buf b).label = l) : Ready s b l (.hashWait b l .hash)
  | get (hl : (s.buf b).label = l) : Ready s b l (.hashWait b l (.get false))
  | bread (hl : (s.buf b).label = l) (hup : (s.buf b).uptodate = true) :
      Ready s b l (.hashWait b l (.get true))
  | read (hup : (s.buf b).uptodate = true) : Ready s b l (.readWait b l)

/-- The buffer that a step of `p` changes, and the queues, the buffer heads and the process `p`
after the step, if it does not panic. -/
inductive Trans (s : State D N n) (p : Fin n) :
    Option ((Label × Fin N) × D) → Queues N → (Fin N → Buf D) → Proc N → Prop
  | move {pc : Pc N} (h : Moves s (s.proc p).pc pc) :
      Trans s p none s.queues s.buf ⟨pc, (s.proc p).held⟩
  | release {j : ℕ} {x : Label × Fin N} (hpc : (s.proc p).pc = .idle)
      (hx : (s.proc p).held[j]? = some x) :
      Trans s p none s.queues s.buf ⟨.brelse x.2 none, (s.proc p).held.eraseIdx j⟩
  | use {q : Fin n} {x : Label × Fin N} {d : D} {up : Bool} (hpc : (s.proc p).pc = .idle)
      (hx : x ∈ (s.proc q).held) (hup : up = (s.buf x.2).uptodate ∨ up = true) :
      Trans s p (some (x, d)) s.queues (Function.update s.buf x.2
        { s.buf x.2 with data := d, uptodate := up, dirt := true }) (s.proc p)
  | hit {b : Fin N} {l : Label} {u : Use} (hpc : (s.proc p).pc = .find l u)
      (hf : s.find l = some b) :
      Trans s p none s.queues (Function.update s.buf b
        { s.buf b with count := ((s.buf b).count + 1) % 256 })
        ⟨.hashWait b l u, (s.proc p).held⟩
  | hold {b : Fin N} {l : Label} (hpc : Ready s b l (s.proc p).pc)
      (hlock : (s.buf b).lock = none) :
      Trans s p none s.queues s.buf ⟨.idle, (l, b) :: (s.proc p).held⟩
  | read {b : Fin N} {l : Label} (hpc : (s.proc p).pc = .hashWait b l (.get true))
      (hlock : (s.buf b).lock = none) (hl : (s.buf b).label = l)
      (hup : (s.buf b).uptodate = false) :
      Trans s p none s.queues (Function.update s.buf b
        { s.buf b with lock := some ⟨false, l, false⟩ }) ⟨.readWait b l, (s.proc p).held⟩
  | leak {b : Fin N} {l : Label} (hpc : (s.proc p).pc = .hashWait b l .free) :
      Trans s p none s.queues s.buf ⟨.idle, (s.proc p).held⟩
  | discard {b : Fin N} {l : Label} (hpc : (s.proc p).pc = .hashWait b l .free)
      (hlock : (s.buf b).lock = none) :
      Trans s p none s.queues (Function.update s.buf b
        { s.buf b with dirt := false, uptodate := false }) ⟨.brelse b none, (s.proc p).held⟩
  | take {t : Fin N} {l : Label} {read : Bool} {pc : Pc N}
      (hpc : (s.proc p).pc = .freeWait t l read) (hlock : (s.buf t).lock = none)
      (hcount : (s.buf t).count = 0)
      (hpc' : (s.buf t).dirt = true ∧ pc = .sync (some ⟨t, (s.buf t).label.dev, l, read⟩) 0 ∨
        (s.buf t).dirt = false ∧ pc = .relabel ⟨t, (s.buf t).label.dev, l, read⟩) :
      Trans s p none (s.queues.remove (s.labels t) t) (Function.update s.buf t
        { s.buf t with count := 1 }) ⟨pc, (s.proc p).held⟩
  | write {r : Option (Recycle N)} {i : Fin N} (hpc : (s.proc p).pc = .syncWait r i)
      (hlock : (s.buf i).lock = none) (hdirt : (s.buf i).dirt = true) :
      Trans s p none s.queues (Function.update s.buf i
        { s.buf i with lock := some ⟨true, (s.buf i).label, false⟩ })
        ⟨.syncWrite r i, (s.proc p).held⟩
  | lost {r : Recycle N} (hpc : (s.proc p).pc = .relabel r) :
      Trans s p none (s.queues.insert ⟨0, 0⟩ r.tmp) (Function.update s.buf r.tmp
        { (s.buf r.tmp).renew ⟨0, 0⟩ with count := 0 })
        ⟨.find r.label (.get r.read), (s.proc p).held⟩
  | won {r : Recycle N} (hpc : (s.proc p).pc = .relabel r) (hread : r.read = false)
      (hf : s.queues.find (Function.update s.labels r.tmp r.label) r.label = none) :
      Trans s p none (s.queues.insert r.label r.tmp) (Function.update s.buf r.tmp
        ((s.buf r.tmp).renew r.label)) ⟨.idle, (r.label, r.tmp) :: (s.proc p).held⟩
  | wonRead {r : Recycle N} (hpc : (s.proc p).pc = .relabel r) (hread : r.read = true)
      (hf : s.queues.find (Function.update s.labels r.tmp r.label) r.label = none) :
      Trans s p none (s.queues.insert r.label r.tmp) (Function.update s.buf r.tmp
        { (s.buf r.tmp).renew r.label with lock := some ⟨false, r.label, false⟩ })
        ⟨.readWait r.tmp r.label, (s.proc p).held⟩
  | put {b : Fin N} {r : Option (Label × Use)} (hpc : (s.proc p).pc = .brelse b r)
      (hlock : (s.buf b).lock = none) (hcount : (s.buf b).count ≠ 0) :
      Trans s p none s.queues (Function.update s.buf b
        { s.buf b with count := (s.buf b).count - 1 })
        ⟨State.afterBrelse r, (s.proc p).held⟩

end Trans

namespace State

variable {D : Type*} {N n : ℕ} {s s' : State D N n} {p : Fin n}

/-- The step of `p` from `s` to `s'` is a transition, or a panic of `brelse`. -/
def Stepped (s : State D N n) (p : Fin n) (c : Option ((Label × Fin N) × D))
    (s' : State D N n) : Prop :=
  s'.disk = s.disk ∧ ((∃ b r, (s.proc p).pc = .brelse b r ∧ (s.buf b).count = 0) ∨
    ∃ pr, Trans s p c s'.queues s'.buf pr ∧ s'.proc = Function.update s.proc p pr)

private theorem stepped_of_trans {c : Option ((Label × Fin N) × D)} {q : Queues N}
    {f : Fin N → Buf D} {pr : Proc N} (h : Trans s p c q f pr) (hq : s'.queues = q)
    (hf : s'.buf = f)
    (hproc : s'.proc = Function.update s.proc p pr) (hdisk : s'.disk = s.disk) :
    Stepped s p c s' := by
  subst hq hf
  exact ⟨hdisk, .inr ⟨pr, h, hproc⟩⟩

private theorem stepped_move {pc : Pc N} (h : Moves s (s.proc p).pc pc) :
    Stepped s p none (s.setPc p pc) := stepped_of_trans (.move h) rfl rfl rfl rfl

private theorem stepped_lookUp {l : Label} {u : Use} (hpc : (s.proc p).pc = .find l u) :
    Stepped s p none (s.lookUp p l u) := by
  unfold lookUp
  cases hf : s.find l with
  | some b => exact stepped_of_trans (.hit hpc hf) rfl rfl rfl rfl
  | none =>
    cases u with
    | get read => exact stepped_move (hpc ▸ .search hf)
    | hash | free => exact stepped_move (hpc ▸ .null hf)

private theorem stepped_hashCheck {b : Fin N} {l : Label} {u : Use}
    (hpc : (s.proc p).pc = .hashWait b l u) (hlock : (s.buf b).lock = none) :
    Stepped s p none (s.hashCheck p b l u) := by
  unfold hashCheck
  by_cases hl : (s.buf b).label ≠ l
  · rw [if_pos hl]
    exact stepped_move (hpc ▸ .stale hl)
  · rw [if_neg hl]
    rw [not_not] at hl
    cases u with
    | hash => exact stepped_of_trans (.hold (hpc ▸ .hash hl) hlock) rfl rfl rfl rfl
    | free =>
      dsimp only
      split_ifs
      · exact stepped_of_trans (.leak hpc) rfl rfl rfl rfl
      · exact stepped_of_trans (.discard hpc hlock) rfl rfl rfl rfl
    | get read =>
      dsimp only [got]
      split_ifs with hread
      · obtain ⟨rfl, hup⟩ := hread
        refine stepped_of_trans (.read hpc hlock hl hup) rfl ?_ rfl rfl
        rw [← hl]
        rfl
      · refine stepped_of_trans (.hold ?_ hlock) rfl rfl rfl rfl
        cases read with
        | false => exact hpc ▸ .get hl
        | true => exact hpc ▸ .bread hl (by simpa using hread)

private theorem stepped_freeWait {t : Fin N} {l : Label} {read : Bool}
    (hpc : (s.proc p).pc = .freeWait t l read) (hlock : (s.buf t).lock = none) :
    Stepped s p none (if (s.buf t).count = 0 then s.take p t l read else s.advance p t l read) := by
  split_ifs with hcount
  · refine stepped_of_trans (.take hpc hlock hcount ?_) rfl rfl rfl rfl
    cases (s.buf t).dirt with
    | true => exact .inl ⟨rfl, rfl⟩
    | false => exact .inr ⟨rfl, rfl⟩
  · rw [advance]
    split_ifs
    · exact stepped_move (hpc ▸ .waitEnd)
    · exact stepped_move (hpc ▸ .waitOn)

private theorem stepped_scan {t : Fin N} {l : Label} {read : Bool}
    (hpc : (s.proc p).pc = .scan t l read) :
    Stepped s p none (if (s.buf t).count = 0 then s.setPc p (.freeWait t l read)
      else s.advance p t l read) := by
  split_ifs with hcount
  · exact stepped_move (hpc ▸ .wait)
  · rw [advance]
    split_ifs
    · exact stepped_move (hpc ▸ .scanEnd)
    · exact stepped_move (hpc ▸ .scanOn)

private theorem stepped_syncNext {r : Option (Recycle N)} {i : ℕ}
    (hpc : (s.proc p).pc = .sync r i) : Stepped s p none (s.syncNext p r i) := by
  unfold syncNext
  split_ifs with hi
  · cases r with
    | none => exact stepped_move (hpc ▸ .await (i := ⟨i, hi⟩))
    | some r =>
      dsimp only
      split_ifs with hdev
      · exact stepped_move (hpc ▸ .skip (i := ⟨i, hi⟩) hdev)
      · exact stepped_move (hpc ▸ .await (i := ⟨i, hi⟩))
  · cases r with
    | none => exact stepped_move (hpc ▸ .syncEnd)
    | some r => exact stepped_move (hpc ▸ .synced (not_lt.mp hi))

theorem labels_update (f : Fin N → Buf D) (b : Fin N) (x : Buf D) :
    (fun c => (Function.update f b x c).label) =
      Function.update (fun c => (f c).label) b x.label := by
  funext c
  by_cases hc : c = b
  · subst hc
    rw [Function.update_self, Function.update_self]
  · rw [Function.update_of_ne hc, Function.update_of_ne hc]

private theorem stepped_relabel {r : Recycle N} (hpc : (s.proc p).pc = .relabel r) :
    Stepped s p none (s.relabel p r) := by
  have hself : (s.setBuf r.tmp ((s.buf r.tmp).renew r.label)).buf r.tmp =
      (s.buf r.tmp).renew r.label := Function.update_self _ _ _
  have hfind : (s.setBuf r.tmp ((s.buf r.tmp).renew r.label)).find r.label =
      s.queues.find (Function.update s.labels r.tmp r.label) r.label :=
    congrArg (s.queues.find · r.label) (labels_update s.buf r.tmp _)
  unfold relabel
  dsimp only
  split
  · refine stepped_of_trans (.lost hpc) rfl ?_ rfl rfl
    rw [hself]
    exact Function.update_idem _ _ _
  · next hf =>
    rw [hfind] at hf
    rw [got]
    split_ifs with hread
    · refine stepped_of_trans (.wonRead hpc hread.1 hf) rfl ?_ rfl rfl
      have hreq : ∀ s₁ : State D N n, (s₁.request false r.tmp).buf = Function.update s₁.buf r.tmp
          { s₁.buf r.tmp with lock := some ⟨false, (s₁.buf r.tmp).label, false⟩ } := fun _ => rfl
      refine (hreq _).trans ?_
      dsimp only
      rw [hself]
      exact Function.update_idem _ _ _
    · refine stepped_of_trans (.won hpc ?_ hf) rfl rfl rfl rfl
      have hup : ((s.setBuf r.tmp ((s.buf r.tmp).renew r.label)).buf r.tmp).uptodate = false := by
        rw [hself]
        rfl
      simpa [hup] using hread

private theorem stepped_brelse {b : Fin N} {r : Option (Label × Use)}
    (hpc : (s.proc p).pc = .brelse b r) (hlock : (s.buf b).lock = none) :
    Stepped s p none (s.brelse p b r) := by
  rw [State.brelse]
  split_ifs with hcount
  · exact ⟨rfl, .inl ⟨b, r, hpc, hcount⟩⟩
  · exact stepped_of_trans (.put hpc hlock hcount) rfl rfl rfl rfl

private theorem stepped_run (hrun : s.sleeps p = false) : Stepped s p none (s.run p) := by
  have hlock : ∀ {b}, s.locked b = false → (s.buf b).lock = none := fun h => by
    simpa [locked] using h
  unfold sleeps at hrun
  unfold run
  cases hpc : (s.proc p).pc <;> simp only [hpc] at hrun ⊢
  case idle => simp at hrun
  case find l u => exact stepped_lookUp hpc
  case hashWait b l u => exact stepped_hashCheck hpc (hlock hrun)
  case scan t l read => exact stepped_scan hpc
  case freeWait t l read => exact stepped_freeWait hpc (hlock hrun)
  case noFree k l read => exact stepped_move (hpc ▸ .wake)
  case sync r i => exact stepped_syncNext hpc
  case syncWait r i =>
    split_ifs with hdirt
    · exact stepped_of_trans (.write hpc (hlock hrun) hdirt) rfl rfl rfl rfl
    · exact stepped_move (hpc ▸ .clean (hlock hrun) (by simpa using hdirt))
  case syncWrite r i => exact stepped_move (hpc ▸ .written (hlock hrun))
  case relabel r => exact stepped_relabel hpc
  case readWait b l =>
    split_ifs with hup
    · exact stepped_of_trans (.hold (hpc ▸ .read hup) (hlock hrun)) rfl rfl rfl rfl
    · exact stepped_move (hpc ▸ .unread (hlock hrun) (by simpa using hup))
  case brelse b r => exact stepped_brelse hpc (hlock hrun)

private theorem stepped_act {e : Event D N n} (hp : e.proc = some p) (h : s.act e = some s') :
    Stepped s p (s.changes e) s' := by
  have hself : s.proc = Function.update s.proc p (s.proc p) :=
    (Function.update_eq_self p s.proc).symm
  cases e with
  | run p' =>
    obtain rfl := Option.some.inj hp
    simp only [act] at h
    split_ifs at h with hrun
    obtain rfl := Option.some.inj h
    exact stepped_run (by simpa using hrun)
  | call p' l u =>
    obtain rfl := Option.some.inj hp
    simp only [act] at h
    split_ifs at h with hcall
    obtain rfl := Option.some.inj h
    exact stepped_move (hcall.1 ▸ .call hcall.2.1)
  | sync p' =>
    obtain rfl := Option.some.inj hp
    simp only [act] at h
    split_ifs at h with hidle
    obtain rfl := Option.some.inj h
    exact stepped_move (hidle ▸ .callSync)
  | brelse p' j =>
    obtain rfl := Option.some.inj hp
    simp only [act] at h
    split_ifs at h with hidle
    obtain ⟨x, hx, rfl⟩ := Option.map_eq_some_iff.mp h
    exact stepped_of_trans (.release hidle hx) rfl rfl rfl rfl
  | change p' q j d =>
    obtain rfl := Option.some.inj hp
    simp only [act] at h
    split_ifs at h with hidle
    obtain ⟨x, hx, rfl⟩ := Option.map_eq_some_iff.mp h
    have hchanges : s.changes (.change p' q j d) = some (x, d) := by simp [changes, hx]
    rw [hchanges]
    exact stepped_of_trans (.use hidle (List.mem_of_getElem? hx) (.inl rfl)) rfl rfl hself rfl
  | fill p' j d =>
    obtain rfl := Option.some.inj hp
    simp only [act] at h
    split_ifs at h with hidle
    obtain ⟨x, hx, rfl⟩ := Option.map_eq_some_iff.mp h
    have hchanges : s.changes (.fill p' j d) = some (x, d) := by simp [changes, hx]
    rw [hchanges]
    exact stepped_of_trans (.use hidle (List.mem_of_getElem? hx) (.inr rfl)) rfl rfl hself rfl
  | disk b => simp [Event.proc] at hp
  | intr b => simp [Event.proc] at hp

/-- The step of the disk from `s` to `s'` moves the data of a locked buffer, or ends its
transfer. -/
def Transferred (s : State D N n) (b : Fin N) (s' : State D N n) : Prop :=
  ∃ t, (s.buf b).lock = some t ∧
    (t.taken = false ∧ t.write = true ∧
      s' = { s.setBuf b { s.buf b with lock := some { t with taken := true } } with
        disk := Function.update s.disk t.label (s.buf b).data } ∨
    t.taken = false ∧ t.write = false ∧
      s' = s.setBuf b { s.buf b with
        data := s.disk t.label, lock := some { t with taken := true } } ∨
    t.taken = true ∧
      s' = s.setBuf b { s.buf b with uptodate := true, dirt := false, lock := none })

/-- The effect of an event of a process. -/
theorem next_act {e : Event D N n} (hp : e.proc = some p) (h : s.next e = some s') :
    ∃ s₁, s.act e = some s₁ ∧ s' = s₁.yield p := by
  unfold next at h
  split_ifs at h
  simp only [hp] at h
  split_ifs at h
  obtain ⟨s₁, hs₁, rfl⟩ := Option.map_eq_some_iff.mp h
  exact ⟨s₁, hs₁, rfl⟩

/-- Every step is one of the disk, or a transition of a process, or a panic of `brelse`. -/
theorem next_cases {e : Event D N n} (h : s.next e = some s') :
    (∃ b, (e = .disk b ∨ e = .intr b) ∧ Transferred s b s') ∨
      ∃ p, e.proc = some p ∧ Stepped s p (s.changes e) s' := by
  unfold next at h
  split_ifs at h
  cases hp : e.proc with
  | some p =>
    simp only [hp] at h
    split_ifs at h
    obtain ⟨s₁, hs₁, rfl⟩ := Option.map_eq_some_iff.mp h
    have hstep : Stepped s p (s.changes e) s₁ := stepped_act hp hs₁
    exact .inr ⟨p, rfl, hstep⟩
  | none =>
    simp only [hp] at h
    left
    cases e with
    | disk b =>
      obtain ⟨t, ht, h⟩ := Option.bind_eq_some_iff.mp h
      refine ⟨b, .inl rfl, t, ht, ?_⟩
      split_ifs at h with htaken hwrite
      · exact .inl ⟨by simpa using htaken, hwrite, (Option.some.inj h).symm⟩
      · exact .inr (.inl ⟨by simpa using htaken, by simpa using hwrite, (Option.some.inj h).symm⟩)
    | intr b =>
      obtain ⟨t, ht, h⟩ := Option.bind_eq_some_iff.mp h
      refine ⟨b, .inr rfl, t, ht, ?_⟩
      split_ifs at h with htaken
      exact .inr (.inr ⟨htaken, (Option.some.inj h).symm⟩)
    | _ => simp [Event.proc] at hp

end State

end Linux001.BufferCache
