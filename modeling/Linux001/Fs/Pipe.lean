import Linux001.Lib.Ring
import Linux001.Lib.Runs
import Linux001.Lib.Sizes
import Mathlib.Data.List.Infix

/-!
# Pipes

The model of `read_pipe` and `write_pipe` of `fs/pipe.c` on one pipe that any number of processes
share. A call runs without interruption until it sleeps or returns. A sleeping call may go on at any
moment, which covers every order in which `wake_up` lets sleepers run; it then tests the pipe again.

`i_count` is 2 while both ends are open, and `iput` takes one off when the last file of an end is
closed. A process inside `read_pipe` holds a file of the read end, and a process inside `write_pipe`
one of the write end, so that an end is closed only when no call on it is in progress.

Every call has a number. The lists `stored` and `delivered` record the bytes that writers have
stored and readers have taken, with the number of the call, and `returns` what each call has
returned, with what it saw of the pipe then.

## Main definitions

* `State`, `State.drain`, `State.fill`: the pipe, and the copying loops of the two calls.
* `State.readPipe`, `State.writePipe`: a call from its start, or from its sleep, to its next sleep
  or its return.
* `Step`: the steps of the processes.

## Main results

* `pipe_fifo`: bytes are delivered in the order in which they are stored, and the return values
  count them.
-/

namespace Linux001.Pipe

/-- Where a process is: outside the two calls, or asleep in one of them. -/
inductive Pc
  | out
  /-- In `read_pipe(inode, buf, count)`, with no byte taken. -/
  | reading (id count : ℕ)
  /-- In `write_pipe`, with `b` bytes of `buf` stored and `left` bytes to go. -/
  | writing (id : ℕ) (buf : ℕ → UInt8) (b left : ℕ)

/-- The return of a call: its number, whether it was `read_pipe`, its `count` and its value, and
whether the pipe was empty and its ends open at that moment. -/
structure Return where
  id : ℕ
  isRead : Bool
  count : ℕ
  value : ℤ
  empty : Bool
  readOpen : Bool
  writeOpen : Bool

/-- The pipe and the processes that use it. -/
structure State (P : Type*) where
  /-- The page of the pipe. -/
  page : ℕ → UInt8
  /-- `PIPE_HEAD`. -/
  head : ℕ
  /-- `PIPE_TAIL`. -/
  tail : ℕ
  /-- `i_count`. -/
  count : ℕ
  readOpen : Bool
  writeOpen : Bool
  pc : P → Pc
  /-- `SIGPIPE` is pending. -/
  sigpipe : P → Bool
  nextId : ℕ
  stored : List (ℕ × UInt8)
  delivered : List (ℕ × UInt8)
  returns : List Return

/-- The pipe that `get_pipe_inode` makes. -/
def State.init (P : Type*) : State P :=
  { page := fun _ => 0
    head := 0
    tail := 0
    count := 2
    readOpen := true
    writeOpen := true
    pc := fun _ => .out
    sigpipe := fun _ => false
    nextId := 0
    stored := []
    delivered := []
    returns := [] }

variable {P : Type*} [DecidableEq P]

/-- `PIPE_EMPTY`. -/
def State.isEmpty (s : State P) : Bool := s.head = s.tail

/-- `PIPE_FULL`. -/
def State.isFull (s : State P) : Bool := ringSize 4096 s.head s.tail = 4095

/-- A call returns. -/
def State.ret (s : State P) (p : P) (id : ℕ) (isRead : Bool) (count : ℕ) (value : ℤ) : State P :=
  { s with
    pc := Function.update s.pc p .out
    returns := ⟨id, isRead, count, value, s.isEmpty, s.readOpen, s.writeOpen⟩ :: s.returns }

/-- The copying loop of `read_pipe`, with `count` bytes to go and `b` taken. -/
def State.drain (id : ℕ) : ℕ → ℕ → State P → ℕ × State P
  | 0, b, s => (b, s)
  | count + 1, b, s =>
    if s.isEmpty then (b, s)
    else State.drain id count (b + 1) { s with
      tail := (s.tail + 1) % 4096
      delivered := s.delivered ++ [(id, s.page s.tail)] }

/-- `read_pipe` from the test of its first loop on. -/
def State.readPipe (s : State P) (p : P) (id count : ℕ) : State P :=
  if s.isEmpty then
    if s.count ≠ 2 then s.ret p id true count 0
    else { s with pc := Function.update s.pc p (.reading id count) }
  else
    let (b, s) := s.drain id count 0
    s.ret p id true count b

/-- The loop of `write_pipe`, with `left` bytes to go and `b` stored. -/
def State.fill (p : P) (id : ℕ) (buf : ℕ → UInt8) : ℕ → ℕ → State P → State P
  | 0, b, s => s.ret p id false b b
  | left + 1, b, s =>
    if s.isFull then
      if s.count ≠ 2 then
        { s with sigpipe := Function.update s.sigpipe p true }.ret p id false (b + (left + 1)) b
      else { s with pc := Function.update s.pc p (.writing id buf b (left + 1)) }
    else State.fill p id buf left (b + 1) { s with
      page := Function.update s.page s.head (buf b)
      head := (s.head + 1) % 4096
      stored := s.stored ++ [(id, buf b)] }

/-- `write_pipe` from its start. -/
def State.writePipe (s : State P) (p : P) (id : ℕ) (buf : ℕ → UInt8) (count : ℕ) : State P :=
  if s.count ≠ 2 then
    { s with sigpipe := Function.update s.sigpipe p true }.ret p id false count (-1)
  else s.fill p id buf count 0

/-- What can happen. -/
inductive Event (P : Type*)
  | read (p : P) (count : ℕ)
  | write (p : P) (buf : ℕ → UInt8) (count : ℕ)
  /-- A sleeping process goes on. -/
  | resume (p : P)
  /-- The last file of the read end is closed. -/
  | closeRead
  | closeWrite

/-- The process is not inside `read_pipe`. -/
def Pc.NotReading : Pc → Prop
  | .reading _ _ => False
  | _ => True

/-- The process is not inside `write_pipe`. -/
def Pc.NotWriting : Pc → Prop
  | .writing _ _ _ _ => False
  | _ => True

/-- The steps of the processes. Calls with `count = 0` return before they reach the pipe. -/
inductive Step : State P → Event P → State P → Prop
  | read {s : State P} {p : P} {count : ℕ} (hp : s.pc p = .out) (hopen : s.readOpen = true)
      (hcount : 0 < count) :
      Step s (.read p count) ({ s with nextId := s.nextId + 1 }.readPipe p s.nextId count)
  | write {s : State P} {p : P} {buf : ℕ → UInt8} {count : ℕ} (hp : s.pc p = .out)
      (hopen : s.writeOpen = true) (hcount : 0 < count) :
      Step s (.write p buf count) ({ s with nextId := s.nextId + 1 }.writePipe p s.nextId buf count)
  | resumeRead {s : State P} {p : P} {id count : ℕ} (hp : s.pc p = .reading id count) :
      Step s (.resume p) (s.readPipe p id count)
  | resumeWrite {s : State P} {p : P} {id b left : ℕ} {buf : ℕ → UInt8}
      (hp : s.pc p = .writing id buf b left) : Step s (.resume p) (s.fill p id buf left b)
  | closeRead {s : State P} (hopen : s.readOpen = true) (hpc : ∀ p, (s.pc p).NotReading) :
      Step s .closeRead { s with readOpen := false, count := s.count - 1 }
  | closeWrite {s : State P} (hopen : s.writeOpen = true) (hpc : ∀ p, (s.pc p).NotWriting) :
      Step s .closeWrite { s with writeOpen := false, count := s.count - 1 }

/-! ### The invariant -/

/-- The number of bytes that the call `id` has moved. -/
def moved (log : List (ℕ × UInt8)) (id : ℕ) : ℕ := log.countP fun e => e.1 = id

theorem moved_append (log : List (ℕ × UInt8)) (id id' : ℕ) (x : UInt8) :
    moved (log ++ [(id', x)]) id = moved log id + if id' = id then 1 else 0 := by
  simp [moved, List.countP_append, List.countP_singleton]

/-- The number of the call that a process is in. -/
def Pc.id : Pc → Option ℕ
  | .out => none
  | .reading id _ => some id
  | .writing id _ _ _ => some id

/-- What is known of a process asleep in a call. -/
def State.PcOk (s : State P) : Pc → Prop
  | .out => True
  | .reading id count =>
    id < s.nextId ∧ s.readOpen = true ∧ moved s.delivered id = 0 ∧ 0 < count
  | .writing id _ b _ => id < s.nextId ∧ s.writeOpen = true ∧ moved s.stored id = b

/-- The value of a return is the number of bytes the call has moved. The value is -1 only if a
writer has found no reader before storing anything, and 0 for a reader only if the pipe was empty
and its write end closed. -/
def State.ReturnOk (s : State P) (r : Return) : Prop :=
  if r.isRead then
    r.value = moved s.delivered r.id ∧ (r.value = 0 → r.empty = true ∧ r.writeOpen = false)
  else
    r.value = moved s.stored r.id ∨
      r.value = -1 ∧ moved s.stored r.id = 0 ∧ r.readOpen = false

/-- The page holds the bytes that have been stored and not yet delivered. -/
structure Buffered (s : State P) : Prop where
  head_lt : s.head < 4096
  tail_lt : s.tail < 4096
  bytes : s.stored.map Prod.snd =
    s.delivered.map Prod.snd ++ ringList 4096 s.page s.head s.tail
  count : s.count = s.readOpen.toNat + s.writeOpen.toNat

/-- The invariant while the process `p` runs in the call `id`: nothing is said about `p` itself. -/
structure Mid (s : State P) (p : P) (id : ℕ) : Prop where
  ring : Buffered s
  id_lt : id < s.nextId
  pc : ∀ q, q ≠ p → s.PcOk (s.pc q) ∧ (s.pc q).id ≠ some id
  distinct : ∀ q q' i, q ≠ p → q' ≠ p → (s.pc q).id = some i → (s.pc q').id = some i → q = q'
  fresh : ∀ i, s.nextId ≤ i → moved s.stored i = 0 ∧ moved s.delivered i = 0
  returns : ∀ r ∈ s.returns, r.id < s.nextId ∧ r.id ≠ id ∧
    (∀ q, q ≠ p → (s.pc q).id ≠ some r.id) ∧ s.ReturnOk r

/-- The invariant between steps. -/
structure Inv (s : State P) : Prop where
  ring : Buffered s
  pc : ∀ q, s.PcOk (s.pc q)
  distinct : ∀ q q' i, (s.pc q).id = some i → (s.pc q').id = some i → q = q'
  fresh : ∀ i, s.nextId ≤ i → moved s.stored i = 0 ∧ moved s.delivered i = 0
  returns : ∀ r ∈ s.returns, r.id < s.nextId ∧ (∀ q, (s.pc q).id ≠ some r.id) ∧ s.ReturnOk r

omit [DecidableEq P] in
theorem pcOk_id_lt {s : State P} {pc : Pc} {i : ℕ} (h : s.PcOk pc) (hi : pc.id = some i) :
    i < s.nextId := by
  cases pc with
  | out => cases hi
  | reading id _ =>
    cases hi
    exact h.1
  | writing id _ _ _ =>
    cases hi
    exact h.1

namespace Mid

variable {s : State P} {p : P} {id : ℕ}

omit [DecidableEq P] in
/-- The call takes a byte. -/
theorem take (h : Mid s p id) (hne : s.isEmpty = false) :
    Mid { s with
      tail := (s.tail + 1) % 4096
      delivered := s.delivered ++ [(id, s.page s.tail)] } p id := by
  have hne : s.head ≠ s.tail := by simpa [State.isEmpty] using hne
  have hmoved {i : ℕ} (hi : i ≠ id) :
      moved (s.delivered ++ [(id, s.page s.tail)]) i = moved s.delivered i := by
    rw [moved_append, if_neg hi.symm, Nat.add_zero]
  refine ⟨⟨h.ring.head_lt, Nat.mod_lt _ (by omega), ?_, h.ring.count⟩, h.id_lt, fun q hq => ?_,
    h.distinct, fun i hi => ?_, fun r hr => ?_⟩
  · change s.stored.map Prod.snd = (s.delivered ++ [(id, s.page s.tail)]).map Prod.snd ++ _
    rw [h.ring.bytes, ringList_pop h.ring.head_lt h.ring.tail_lt hne]
    simp
  · obtain ⟨hok, hid⟩ := h.pc q hq
    refine ⟨?_, hid⟩
    change State.PcOk _ (s.pc q)
    revert hok hid
    cases s.pc q with
    | out => exact fun hok _ => hok
    | reading i c =>
      intro hok hid
      exact ⟨hok.1, hok.2.1, (hmoved fun hi => hid (congrArg some hi)).trans hok.2.2.1, hok.2.2.2⟩
    | writing i buf b left => exact fun hok _ => hok
  · have hi : s.nextId ≤ i := hi
    have hi' : i ≠ id := by
      have := h.id_lt
      rintro rfl
      omega
    exact ⟨(h.fresh i hi).1, (hmoved hi').trans (h.fresh i hi).2⟩
  · obtain ⟨hlt, hrid, hpc, hok⟩ := h.returns r hr
    refine ⟨hlt, hrid, hpc, ?_⟩
    unfold State.ReturnOk at hok ⊢
    simp only [hmoved hrid]
    exact hok

omit [DecidableEq P] in
/-- The call stores a byte. -/
theorem put (h : Mid s p id) (hfull : s.isFull = false) (x : UInt8) :
    Mid { s with
      page := Function.update s.page s.head x
      head := (s.head + 1) % 4096
      stored := s.stored ++ [(id, x)] } p id := by
  have hfull : ringSize 4096 s.head s.tail ≠ 4096 - 1 := by simpa [State.isFull] using hfull
  have hmoved {i : ℕ} (hi : i ≠ id) :
      moved (s.stored ++ [(id, x)]) i = moved s.stored i := by
    rw [moved_append, if_neg hi.symm, Nat.add_zero]
  refine ⟨⟨Nat.mod_lt _ (by omega), h.ring.tail_lt, ?_, h.ring.count⟩, h.id_lt, fun q hq => ?_,
    h.distinct, fun i hi => ?_, fun r hr => ?_⟩
  · change (s.stored ++ [(id, x)]).map Prod.snd = s.delivered.map Prod.snd ++
      ringList 4096 (Function.update s.page s.head x) ((s.head + 1) % 4096) s.tail
    rw [ringList_push h.ring.head_lt h.ring.tail_lt hfull, ← List.append_assoc, ← h.ring.bytes]
    simp
  · obtain ⟨hok, hid⟩ := h.pc q hq
    refine ⟨?_, hid⟩
    change State.PcOk _ (s.pc q)
    revert hok hid
    cases s.pc q with
    | out => exact fun hok _ => hok
    | reading i c => exact fun hok _ => hok
    | writing i buf b left =>
      intro hok hid
      exact ⟨hok.1, hok.2.1, (hmoved fun hi => hid (congrArg some hi)).trans hok.2.2⟩
  · have hi : s.nextId ≤ i := hi
    have hi' : i ≠ id := by
      have := h.id_lt
      rintro rfl
      omega
    exact ⟨(hmoved hi').trans (h.fresh i hi).1, (h.fresh i hi).2⟩
  · obtain ⟨hlt, hrid, hpc, hok⟩ := h.returns r hr
    refine ⟨hlt, hrid, hpc, ?_⟩
    unfold State.ReturnOk at hok ⊢
    simp only [hmoved hrid]
    exact hok

omit [DecidableEq P] in
/-- A change of the pending signals. -/
theorem sigpipe (h : Mid s p id) (f : P → Bool) : Mid { s with sigpipe := f } p id :=
  ⟨⟨h.ring.head_lt, h.ring.tail_lt, h.ring.bytes, h.ring.count⟩, h.id_lt, h.pc, h.distinct, h.fresh,
    h.returns⟩

/-- The call falls asleep. -/
theorem sleep (h : Mid s p id) {pc : Pc} (hid : pc.id = some id) (hok : s.PcOk pc) :
    Inv { s with pc := Function.update s.pc p pc } := by
  refine ⟨⟨h.ring.head_lt, h.ring.tail_lt, h.ring.bytes, h.ring.count⟩, fun q => ?_,
    fun q q' i hq hq' => ?_, h.fresh, fun r hr => ?_⟩
  · by_cases hqp : q = p
    · subst hqp
      simp only [Function.update_self]
      exact hok
    · simp only [Function.update_of_ne hqp]
      exact (h.pc q hqp).1
  · simp only [Function.update_apply] at hq hq'
    split_ifs at hq hq' with hqp hqp' hqp'
    · rw [hqp, hqp']
    · rw [hid] at hq
      cases hq
      exact absurd hq' (h.pc q' hqp').2
    · rw [hid] at hq'
      cases hq'
      exact absurd hq (h.pc q hqp).2
    · exact h.distinct q q' i hqp hqp' hq hq'
  · obtain ⟨hlt, hrid, hpc, hrok⟩ := h.returns r hr
    refine ⟨hlt, fun q => ?_, hrok⟩
    simp only [Function.update_apply]
    split_ifs with hqp
    · rw [hid]
      exact fun heq => hrid (Option.some.inj heq).symm
    · exact hpc q hqp

/-- The call returns. -/
theorem ret (h : Mid s p id) {isRead : Bool} {count : ℕ} {value : ℤ}
    (hok : s.ReturnOk ⟨id, isRead, count, value, s.isEmpty, s.readOpen, s.writeOpen⟩) :
    Inv (s.ret p id isRead count value) := by
  refine ⟨⟨h.ring.head_lt, h.ring.tail_lt, h.ring.bytes, h.ring.count⟩, fun q => ?_,
    fun q q' i hq hq' => ?_, h.fresh, fun r hr => ?_⟩
  · by_cases hqp : q = p
    · subst hqp
      simp only [State.ret, Function.update_self]
      trivial
    · simp only [State.ret, Function.update_of_ne hqp]
      exact (h.pc q hqp).1
  · simp only [State.ret, Function.update_apply] at hq hq'
    split_ifs at hq hq' with hqp hqp' hqp'
    · rw [hqp, hqp']
    · cases hq
    · cases hq'
    · exact h.distinct q q' i hqp hqp' hq hq'
  · have hpc' (q : P) : ((s.ret p id isRead count value).pc q).id = some r.id →
        q ≠ p ∧ (s.pc q).id = some r.id := by
      simp only [State.ret, Function.update_apply]
      split_ifs with hqp
      · exact fun heq => nomatch heq
      · exact fun heq => ⟨hqp, heq⟩
    rcases List.mem_cons.mp hr with rfl | hr
    · exact ⟨h.id_lt, fun q hq => (h.pc q (hpc' q hq).1).2 (hpc' q hq).2, hok⟩
    · obtain ⟨hlt, -, hpc, hrok⟩ := h.returns r hr
      exact ⟨hlt, fun q hq => hpc q (hpc' q hq).1 (hpc' q hq).2, hrok⟩

omit [DecidableEq P] in
/-- The copying loop of `read_pipe`. -/
theorem drain (h : Mid s p id) {count b : ℕ} (hb : moved s.delivered id = b) :
    Mid (s.drain id count b).2 p id ∧ moved (s.drain id count b).2.delivered id =
      (s.drain id count b).1 ∧ b ≤ (s.drain id count b).1 := by
  induction count generalizing s b with
  | zero => exact ⟨h, hb, le_rfl⟩
  | succ count ih =>
    rw [State.drain]
    split
    · exact ⟨h, hb, le_rfl⟩
    · rename_i hne
      have hmid := h.take (by simpa using hne)
      obtain ⟨h₁, h₂, h₃⟩ := ih hmid (b := b + 1) (by simp only [moved_append, if_true, hb])
      exact ⟨h₁, h₂, by omega⟩

/-- `read_pipe` from the test of its first loop on. -/
theorem readPipe (h : Mid s p id) {count : ℕ} (hmoved : moved s.delivered id = 0)
    (hopen : s.readOpen = true) (hcount : 0 < count) : Inv (s.readPipe p id count) := by
  unfold State.readPipe
  split
  · rename_i hempty
    split
    · rename_i hne
      have hclosed : s.writeOpen = false := by
        have hc := h.ring.count
        rw [hopen] at hc
        cases hw : s.writeOpen with
        | false => rfl
        | true =>
          rw [hw] at hc
          exact absurd hc hne
      refine h.ret ?_
      simp only [State.ReturnOk, if_true, hmoved]
      exact ⟨rfl, fun _ => ⟨hempty, hclosed⟩⟩
    · exact h.sleep rfl ⟨h.id_lt, hopen, hmoved, hcount⟩
  · rename_i hne
    obtain ⟨count, rfl⟩ : ∃ k, count = k + 1 := ⟨count - 1, by omega⟩
    have hmid := h.take (by simpa using hne)
    have hmoved' : moved (s.delivered ++ [(id, s.page s.tail)]) id = 1 := by
      simp only [moved_append, if_true, hmoved]
    obtain ⟨h₁, h₂, h₃⟩ := drain hmid hmoved'
    have hdrain : s.drain id (count + 1) 0 = State.drain id count 1 { s with
        tail := (s.tail + 1) % 4096
        delivered := s.delivered ++ [(id, s.page s.tail)] } := by
      rw [State.drain, if_neg hne]
    rw [hdrain]
    refine h₁.ret ?_
    simp only [State.ReturnOk, if_true, h₂]
    refine ⟨trivial, fun hzero => ?_⟩
    have hzero := Int.ofNat_eq_zero.mp hzero
    omega

/-- The loop of `write_pipe`. -/
theorem fill (h : Mid s p id) {buf : ℕ → UInt8} {left b : ℕ} (hb : moved s.stored id = b)
    (hopen : s.writeOpen = true) : Inv (s.fill p id buf left b) := by
  induction left generalizing s b with
  | zero =>
    refine h.ret ?_
    simp [State.ReturnOk, hb]
  | succ left ih =>
    rw [State.fill]
    split
    · split
      · refine (h.sigpipe _).ret ?_
        simp [State.ReturnOk, hb]
      · exact h.sleep rfl ⟨h.id_lt, hopen, hb⟩
    · rename_i hfull
      exact ih (h.put (by simpa using hfull) (buf b)) (by simp only [moved_append, if_true, hb])
        hopen

/-- `write_pipe` from its start. -/
theorem writePipe (h : Mid s p id) {buf : ℕ → UInt8} {count : ℕ} (hmoved : moved s.stored id = 0)
    (hopen : s.writeOpen = true) : Inv (s.writePipe p id buf count) := by
  unfold State.writePipe
  split
  · rename_i hne
    have hclosed : s.readOpen = false := by
      have hc := h.ring.count
      rw [hopen] at hc
      cases hr : s.readOpen with
      | false => rfl
      | true =>
        rw [hr] at hc
        exact absurd hc hne
    refine (h.sigpipe _).ret ?_
    simp only [State.ReturnOk, Bool.false_eq_true, if_false]
    exact .inr ⟨trivial, hmoved, hclosed⟩
  · exact h.fill hmoved hopen

end Mid

namespace Inv

variable {s : State P} {p : P} {id : ℕ}

omit [DecidableEq P] in
theorem init : Inv (State.init P) where
  ring := ⟨by simp [State.init], by simp [State.init], by simp [State.init, ringList, ringSize],
    rfl⟩
  pc _ := trivial
  distinct _ _ _ h := nomatch h
  fresh _ _ := ⟨rfl, rfl⟩
  returns _ h := nomatch h

omit [DecidableEq P] in
/-- A call starts. -/
theorem start (h : Inv s) (p : P) :
    Mid { s with nextId := s.nextId + 1 } p s.nextId := by
  have hlater {pc : Pc} (hok : s.PcOk pc) :
      State.PcOk { s with nextId := s.nextId + 1 } pc := by
    cases pc with
    | out => trivial
    | reading i c | writing i buf b left => exact ⟨Nat.lt_succ_of_lt hok.1, hok.2⟩
  refine ⟨⟨h.ring.head_lt, h.ring.tail_lt, h.ring.bytes, h.ring.count⟩, Nat.lt_succ_self _,
    fun q _ => ⟨hlater (h.pc q), fun hid => ?_⟩, fun q q' i _ _ => h.distinct q q' i,
    fun i hi => h.fresh i (Nat.le_of_succ_le hi), fun r hr => ?_⟩
  · exact Nat.lt_irrefl _ (pcOk_id_lt (h.pc q) hid)
  · obtain ⟨hlt, hpc, hok⟩ := h.returns r hr
    exact ⟨Nat.lt_succ_of_lt hlt, hlt.ne, fun q _ => hpc q, hok⟩

omit [DecidableEq P] in
/-- A call goes on. -/
theorem resume (h : Inv s) (hp : (s.pc p).id = some id) : Mid s p id := by
  refine ⟨h.ring, pcOk_id_lt (h.pc p) hp, fun q hq => ⟨h.pc q, fun hid => ?_⟩,
    fun q q' i _ _ => h.distinct q q' i, h.fresh, fun r hr => ?_⟩
  · exact hq (h.distinct q p id hid hp)
  · obtain ⟨hlt, hpc, hok⟩ := h.returns r hr
    refine ⟨hlt, ?_, fun q _ => hpc q, hok⟩
    rintro rfl
    exact hpc p hp

/-- Every step keeps the invariant. -/
theorem step {s' : State P} {e : Event P} (h : Inv s) (hs : Step s e s') : Inv s' := by
  cases hs with
  | @read p count hp hopen hcount =>
    exact (h.start p).readPipe (h.fresh _ le_rfl).2 hopen hcount
  | @write p buf count hp hopen hcount =>
    exact (h.start p).writePipe (h.fresh _ le_rfl).1 hopen
  | @resumeRead p id count hp =>
    have hok := h.pc p
    rw [hp] at hok
    exact (h.resume (by rw [hp]; rfl)).readPipe hok.2.2.1 hok.2.1 hok.2.2.2
  | @resumeWrite p id b left buf hp =>
    have hok := h.pc p
    rw [hp] at hok
    exact (h.resume (by rw [hp]; rfl)).fill hok.2.2 hok.2.1
  | closeRead hopen hpc =>
    refine ⟨⟨h.ring.head_lt, h.ring.tail_lt, h.ring.bytes, ?_⟩, fun q => ?_, h.distinct, h.fresh,
      h.returns⟩
    · have hc := h.ring.count
      rw [hopen] at hc
      simp [hc]
    · have hok := h.pc q
      have hq := hpc q
      change State.PcOk _ (s.pc q)
      revert hok hq
      cases s.pc q with
      | out => exact fun _ _ => trivial
      | reading i c => exact fun _ hq => hq.elim
      | writing i buf b left => exact fun hok _ => hok
  | closeWrite hopen hpc =>
    refine ⟨⟨h.ring.head_lt, h.ring.tail_lt, h.ring.bytes, ?_⟩, fun q => ?_, h.distinct, h.fresh,
      h.returns⟩
    · have hc := h.ring.count
      rw [hopen] at hc
      simp [hc]
    · have hok := h.pc q
      have hq := hpc q
      change State.PcOk _ (s.pc q)
      revert hok hq
      cases s.pc q with
      | out => exact fun _ _ => trivial
      | reading i c => exact fun hok _ => hok
      | writing i buf b left => exact fun _ hq => hq.elim

end Inv

/-- A pipe is a lossless queue: in every reachable state head and tail are indices of the page, the
bytes delivered are a prefix of the bytes stored, and every call has returned the number of bytes
that it has moved. A writer returns -1 only when it finds no reader before storing anything, and a
reader returns 0 only when the pipe is empty and its write end is closed. -/
theorem pipe_fifo {es : List (Event P)} {s : State P} (h : Runs Step (State.init P) es s) :
    s.head ≤ 4095 ∧ s.tail ≤ 4095 ∧ s.delivered.map Prod.snd <+: s.stored.map Prod.snd ∧
      ∀ r ∈ s.returns,
        (r.isRead = true → r.value = moved s.delivered r.id ∧
          (r.value = 0 → r.empty = true ∧ r.writeOpen = false)) ∧
        (r.isRead = false → r.value = moved s.stored r.id ∨
          r.value = -1 ∧ moved s.stored r.id = 0 ∧ r.readOpen = false) := by
  have hinv : Inv s := h.invariant (fun _ _ _ hI hs => hI.step hs) Inv.init
  refine ⟨Nat.le_of_lt_succ hinv.ring.head_lt, Nat.le_of_lt_succ hinv.ring.tail_lt,
    ⟨_, hinv.ring.bytes.symm⟩, fun r hr => ?_⟩
  have hok := (hinv.returns r hr).2.2
  unfold State.ReturnOk at hok
  constructor
  · intro hread
    rwa [if_pos hread] at hok
  · intro hwrite
    rwa [if_neg (by simp [hwrite])] at hok

/-- A process reads from the empty pipe and sleeps, another writes three bytes, and the reader goes
on and takes two of them. -/
theorem pipe_fifo_two_of_three : ∃ s, Runs Step (State.init Bool)
    [.resume true, .write false (fun i => UInt8.ofNat i) 3, .read true 2] s ∧
      s.delivered.map Prod.snd = [0, 1] ∧ s.delivered.map Prod.snd <+: s.stored.map Prod.snd := by
  have hread : Step (State.init Bool) (.read true 2) _ := .read rfl rfl (by decide)
  have hwrite := (Runs.nil.cons hread).cons (e := .write false (fun i => UInt8.ofNat i) 3)
    (.write rfl rfl (by decide))
  have hrun := hwrite.cons (e := .resume true) (.resumeRead rfl)
  exact ⟨_, hrun, rfl, (pipe_fifo hrun).2.2.1⟩

end Linux001.Pipe
