import Linux001.Lib.Linked
import Linux001.Lib.Runs
import Linux001.Lib.Sizes
import Mathlib.Data.Fin.Basic
import Mathlib.Data.List.FinRange
import Mathlib.Tactic.Linarith

/-!
# The hard disk driver

The model of the request queue and the interrupt handlers of `kernel/hd.c`. `add_request` is
modelled statement by statement: the driver does not disable interrupts, so that a handler may run,
from its start to its end, before every statement. At most one `add_request` is in progress at a
time, since tasks switch only when they sleep.

The controller is modelled by the command that is outstanding. A command for `n` sectors from
sector `t` on transfers them one by one and interrupts after each; an error ends it. A write
command takes the data of each sector from the port before it interrupts. The command
`WIN_SPECIFY` of `reset_hd` ends with an interrupt too.

The field `linked` records which requests have been linked into the queue by their `add_request`
and have not been completed by an interrupt.

## Main definitions

* `Request`, `Buffer`, `Command`, `State`: the driver's data and the controller.
* `State.doRequest`, `State.badRwIntr`, `State.readIntr`, `State.writeIntr`: the handlers.
* `AddPc`, `State.addStep`: the statements of `add_request`.
* `Event`, `State.next`: the steps.
-/

namespace Linux001.Hd

/-- `WIN_READ` or `WIN_WRITE`. -/
inductive Cmd
  | read
  | write
  deriving DecidableEq

/-- An entry of the table `request` (`struct hd_request`). A free entry has `hd = -1`; `bh` is the
number of the buffer. -/
structure Request where
  hd : ℤ
  nsector : ℕ
  sector : ℕ
  head : ℕ
  cyl : ℕ
  cmd : Cmd
  errors : ℕ
  bh : ℕ
  next : Option (Fin 32)

/-- The fields of a buffer that the driver uses. `data 0` and `data 1` are the two halves of
`b_data`, a sector each. -/
structure Buffer (D : Type) where
  data : ℕ → D
  uptodate : Bool
  dirt : Bool
  lock : Bool

/-- The routine to be executed at the next interrupt (`do_hd`). -/
inductive Handler
  | readIntr
  | writeIntr
  | doRequest
  deriving DecidableEq

/-- A command of the controller: the transfer of the `nsect` sectors from `sect` on, or
`WIN_SPECIFY`. -/
inductive Command
  | rw (cmd : Cmd) (drive : ℤ) (nsect sect head cyl : ℕ)
  | specify
  deriving DecidableEq

/-- Which statement of `add_request(req)` comes next, with the value of `tmp`. -/
inductive AddPc
  | idle
  /-- `sorting=1;` -/
  | start (req : Fin 32)
  /-- `if (!(tmp=this_request))` -/
  | first (req : Fin 32)
  /-- `this_request=req;` -/
  | setThis (req : Fin 32)
  /-- `if (!(tmp->next))` -/
  | testNext (req tmp : Fin 32)
  /-- `tmp->next=req;` behind the only request -/
  | setNext (req tmp : Fin 32)
  /-- `tmp=tmp->next;` before the loop -/
  | skip (req tmp : Fin 32)
  /-- the test `tmp->next` of the loop -/
  | loop (req tmp : Fin 32)
  /-- `if (...) break;`, else `tmp=tmp->next` -/
  | order (req tmp : Fin 32)
  /-- `req->next=tmp->next;` -/
  | copyNext (req tmp : Fin 32)
  /-- `tmp->next=req;` after the loop -/
  | link (req tmp : Fin 32)
  /-- `sorting=0;` -/
  | finish
  /-- `if (!do_hd)` -/
  | restart
  /-- `do_request();` -/
  | call
  deriving DecidableEq

/-- The driver, the controller and the disk, whose sectors are addressed by drive, cylinder, head
and sector. `port` is the data written to the controller for the next sector. -/
structure State (D : Type) where
  request : Fin 32 → Request
  thisRequest : Option (Fin 32)
  sorting : Bool
  doHd : Option Handler
  ctl : Option Command
  port : Option D
  buffer : ℕ → Buffer D
  disk : ℤ → ℕ → ℕ → ℕ → D
  pc : AddPc
  linked : Fin 32 → Bool

variable {D : Type}

/-- The state that `hd_init` leaves, with given buffers and disk. -/
def State.init (buffer : ℕ → Buffer D) (disk : ℤ → ℕ → ℕ → ℕ → D) : State D :=
  { request := fun _ => ⟨-1, 0, 0, 0, 0, .read, 0, 0, none⟩
    thisRequest := none
    sorting := false
    doHd := none
    ctl := none
    port := none
    buffer := buffer
    disk := disk
    pc := .idle
    linked := fun _ => false }

namespace State

variable (s : State D)

/-- Stores to fields of a request. -/
def setRequest (r : Fin 32) (f : Request → Request) : State D :=
  { s with request := Function.update s.request r (f (s.request r)) }

/-- Stores to a buffer. -/
def setBuffer (b : ℕ) (f : Buffer D → Buffer D) : State D :=
  { s with buffer := Function.update s.buffer b (f (s.buffer b)) }

/-! ### Commands -/

/-- `hd_out` panics for a drive above 1 or a head above 15; else it sets `do_hd` and issues the
command. -/
def hdOut (drive : ℤ) (head : ℕ) (c : Command) (h : Handler) : Option (State D) :=
  if drive < 0 ∨ 1 < drive ∨ 15 < head then none
  else some { s with doHd := some h, ctl := some c, port := none }

/-- `reset_hd(nr)`; the head is `_HEAD - 1`. -/
def resetHd (nr : ℤ) : Option (State D) := s.hdOut nr 4 .specify .doRequest

/-- `port_write(HD_DATA, b_data + 512 * half, 256)` for the buffer of a request. -/
def portWrite (r : Fin 32) (half : ℕ) : State D :=
  { s with port := some ((s.buffer (s.request r).bh).data half) }

/-- `do_request()`; `drq` tells whether the controller asks for the data of a write in time. -/
def doRequest (drq : Bool) : Option (State D) :=
  if s.sorting then some s
  else
    match s.thisRequest with
    | none => some { s with doHd := none }
    | some r =>
      let q := s.request r
      match q.cmd with
      | .write =>
        (s.hdOut q.hd q.head (.rw .write q.hd q.nsector q.sector q.head q.cyl) .writeIntr).bind
          fun s => if drq then some (s.portWrite r (q.nsector % 2)) else s.resetHd q.hd
      | .read => s.hdOut q.hd q.head (.rw .read q.hd q.nsector q.sector q.head q.cyl) .readIntr

/-! ### Interrupts -/

/-- The request `r`, which is `this_request`, is completed: its buffer is unlocked, its entry is
freed, and the next request becomes `this_request`. -/
def complete (r : Fin 32) (uptodate : Bool) : State D :=
  let s := s.setBuffer (s.request r).bh fun b =>
    { b with uptodate := uptodate, dirt := b.dirt && !uptodate, lock := false }
  let s := s.setRequest r fun q => { q with hd := -1 }
  { s with
    thisRequest := (s.request r).next
    linked := Function.update s.linked r false }

/-- `bad_rw_intr()`. -/
def badRwIntr : Option (State D) :=
  match s.thisRequest with
  | none => none
  | some r =>
    let q := s.request r
    let s := s.setRequest r fun q => { q with errors := q.errors + 1 }
    (if 5 ≤ q.errors then s.complete r false else s).resetHd q.hd

/-- `read_intr()`; `data` is what the controller has read, or `none` when `win_result` reports an
error. -/
def readIntr (data : Option D) (drq : Bool) : Option (State D) :=
  match data, s.thisRequest with
  | none, _ => s.badRwIntr
  | some _, none => none
  | some d, some r =>
    let q := s.request r
    let s := s.setBuffer q.bh fun b => { b with data := Function.update b.data (q.nsector % 2) d }
    let s := s.setRequest r fun q => { q with errors := 0, nsector := q.nsector - 1 }
    if q.nsector - 1 ≠ 0 then some s
    else (s.complete r true).doRequest drq

/-- `write_intr()`; `ok` is the result of the sector before. -/
def writeIntr (ok drq : Bool) : Option (State D) :=
  match ok, s.thisRequest with
  | false, _ => s.badRwIntr
  | true, none => none
  | true, some r =>
    let q := s.request r
    let s := s.setRequest r fun q => { q with nsector := q.nsector - 1 }
    if q.nsector - 1 ≠ 0 then some (s.portWrite r 1)
    else (s.complete r true).doRequest drq

/-- The command that is left after a sector has been transferred. -/
def rest (cmd : Cmd) (drive : ℤ) (nsect sect head cyl : ℕ) : Option Command :=
  if nsect ≤ 1 then none else some (.rw cmd drive (nsect - 1) (sect + 1) head cyl)

/-- What the controller does before it interrupts, and the data it has read. A write command waits
for its data. -/
def transfer (ok : Bool) : Option (State D × Option D) :=
  match s.ctl with
  | none => none
  | some .specify => some ({ s with ctl := none }, none)
  | some (.rw .read drive n t head cyl) =>
    if ok then some ({ s with ctl := rest .read drive n t head cyl },
      some (s.disk drive cyl head t))
    else some ({ s with ctl := none }, none)
  | some (.rw .write drive n t head cyl) =>
    if ok then
      s.port.map fun d =>
        ({ s with
          ctl := rest .write drive n t head cyl
          port := none
          disk := fun d' c h k =>
            if d' = drive ∧ c = cyl ∧ h = head ∧ k = t then d else s.disk d' c h k }, none)
    else some ({ s with ctl := none, port := none }, none)

/-- An interrupt: the controller has transferred a sector or has met an error, and the routine in
`do_hd` runs. Without one, the interrupt is unexpected and the kernel panics. -/
def intr (ok drq : Bool) : Option (State D) :=
  (s.transfer ok).bind fun (s, data) =>
    match s.doHd with
    | none => none
    | some .readIntr => s.readIntr data drq
    | some .writeIntr => s.writeIntr ok drq
    | some .doRequest => s.doRequest drq

/-! ### `add_request` -/

/-- `IN_ORDER(s1, s2)`. -/
def inOrder (a b : Request) : Bool :=
  a.hd < b.hd || a.hd = b.hd &&
    (a.cyl < b.cyl || a.cyl = b.cyl &&
      (a.head < b.head || a.head = b.head && a.sector < b.sector))

/-- The request has been linked into the queue. -/
def markLinked (r : Fin 32) : State D := { s with linked := Function.update s.linked r true }

/-- The next statement of `add_request`. -/
def addStep (drq : Bool) : Option (State D) :=
  match s.pc with
  | .idle => none
  | .start req => some { s with sorting := true, pc := .first req }
  | .first req =>
    match s.thisRequest with
    | none => some { s with pc := .setThis req }
    | some tmp => some { s with pc := .testNext req tmp }
  | .setThis req => some { s.markLinked req with thisRequest := some req, pc := .finish }
  | .testNext req tmp =>
    match (s.request tmp).next with
    | none => some { s with pc := .setNext req tmp }
    | some _ => some { s with pc := .skip req tmp }
  | .setNext req tmp =>
    some { (s.markLinked req).setRequest tmp (fun q => { q with next := some req }) with
      pc := .finish }
  | .skip req tmp =>
    (s.request tmp).next.map fun t => { s with pc := .loop req t }
  | .loop req tmp =>
    match (s.request tmp).next with
    | none => some { s with pc := .copyNext req tmp }
    | some _ => some { s with pc := .order req tmp }
  | .order req tmp =>
    (s.request tmp).next.map fun t =>
      if (inOrder (s.request tmp) (s.request req) ||
          !inOrder (s.request tmp) (s.request t)) &&
          inOrder (s.request req) (s.request t) then { s with pc := .copyNext req tmp }
      else { s with pc := .loop req t }
  | .copyNext req tmp =>
    some { s.setRequest req (fun q => { q with next := (s.request tmp).next }) with
      pc := .link req tmp }
  | .link req tmp =>
    some { (s.markLinked req).setRequest tmp (fun q => { q with next := some req }) with
      pc := .finish }
  | .finish => some { s with sorting := false, pc := .restart }
  | .restart => some { s with pc := if s.doHd = none then .call else .idle }
  | .call => { s with pc := .idle }.doRequest drq

/-- `rw_abs_hd` up to the call of `add_request`: the first free entry is filled in. -/
def submit (cmd : Cmd) (nr sec head cyl bh : ℕ) : Option (State D) :=
  if s.pc = .idle then
    ((List.finRange 32).find? fun r => (s.request r).hd < 0).map fun r =>
      { (s.setBuffer bh fun b => { b with lock := true }).setRequest r
          (fun _ => ⟨nr, 2, sec, head, cyl, cmd, 0, bh, none⟩) with
        pc := .start r }
  else none

end State

/-- What can happen: a process calls `rw_abs_hd`, the `add_request` in progress executes a
statement, or the controller interrupts. -/
inductive Event
  | submit (cmd : Cmd) (nr sec head cyl bh : ℕ)
  | add (drq : Bool)
  | intr (ok drq : Bool)

/-- The event is an interrupt. -/
def Event.isIntr : Event → Bool
  | .intr _ _ => true
  | _ => false

/-- The step of an event. -/
def State.next (s : State D) : Event → Option (State D)
  | .submit cmd nr sec head cyl bh => s.submit cmd nr sec head cyl bh
  | .add drq => s.addStep drq
  | .intr ok drq => s.intr ok drq

/-- The steps of the system. -/
def Step (s : State D) (e : Event) (s' : State D) : Prop := s.next e = some s'

end Linux001.Hd
