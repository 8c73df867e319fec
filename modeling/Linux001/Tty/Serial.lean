import Linux001.Tty.Queue
import Linux001.Lib.Runs

/-!
# Writing to a serial line

The model of `rs_write`, of the handler `write_char` of `rs_io.s`, and of the part of `tty_write`
that fills the queue and sleeps, on one line. Interrupts happen between all steps, also between the
test that there is room and the two statements of `PUTCH`. Any number of processes write. Which
characters they write and how many is not determined, so that every call of `tty_write` is covered.

## Main definitions

* `Port`: the transmitter, with what it has sent.
* `State`, `State.next`: the processes and the interrupts.
* `Calm`: the echo of received characters finds room, beside the character for which `tty_write` has
  seen room, and does not come between the two statements of `PUTCH`.

## Main results

* `sent_in_order`: what has been put is what has been sent, the character in the transmitter, and
  what is in the queue.
* `line_drains`: once no process fills the queue, all of it is sent, and the first process that
  waits for room is woken.
-/

namespace Linux001.Tty

namespace Queue

variable (q : Queue)

/-- The first statement of `PUTCH`. -/
def store (c : UInt8) : Queue := { q with buf := Function.update q.buf q.head c }

/-- The second statement of `PUTCH(c, q)`. -/
def incHead (c : UInt8) : Queue :=
  { q with
    head := q.head + 1
    put := c :: q.put
    overrun := q.overrun || q.full }

variable {q}

theorem content_store (c : UInt8) : (q.store c).content = q.content :=
  ringList_store q.head.isLt q.tail.isLt c

/-- The two statements of `PUTCH`. -/
theorem incHead_eq {c : UInt8} (h : q.buf q.head = c) : q.incHead c = q.putch c := by
  rw [incHead, putch, ← h, Function.update_eq_self]

@[simp] theorem taken_putAll (l : List UInt8) (q : Queue) : (q.putAll l).taken = q.taken := by
  induction l generalizing q with
  | nil => rfl
  | cons c l ih => exact ih (q.putch c)

theorem Fifo.store (h : Fifo q) (c : UInt8) : Fifo (q.store c) where
  overrun := h.overrun
  underrun := h.underrun
  put := by
    rw [content_store]
    exact h.put

end Queue

namespace Serial

/-- The transmitter of an 8250. -/
structure Port where
  /-- The interrupt enable register. -/
  ier : UInt8
  /-- The character that is being sent. -/
  thr : Option UInt8
  /-- What has been sent, in order. -/
  line : List UInt8

/-- The transmitter interrupts when it is empty. -/
def Port.enabled (p : Port) : Bool := p.ier &&& 0x02 ≠ 0

/-- `inb_p(port+1) | 0x02`. -/
def Port.enable (p : Port) : Port := { p with ier := p.ier ||| 0x02 }

/-- `andb $0xd,%al`. -/
def Port.disable (p : Port) : Port := { p with ier := p.ier &&& 0x0d }

@[simp] theorem Port.enabled_enable (p : Port) : p.enable.enabled = true := by
  have hbit : (p.ier ||| 0x02) &&& 0x02 = 0x02 := by
    rw [← UInt8.toBitVec_inj]
    ext i hi
    simpa using fun h => .inr h
  rw [Port.enabled, Port.enable, hbit]
  rfl

@[simp] theorem Port.enabled_disable (p : Port) : p.disable.enabled = false := by
  have hbit : (p.ier &&& 0x0d) &&& 0x02 = 0 := by
    rw [UInt8.and_assoc]
    exact UInt8.and_zero
  rw [Port.enabled, Port.disable, hbit]
  rfl

/-- The places of `tty_write`. -/
inductive Pc
  /-- Not in `tty_write`, at the head of its loop, or in its call of `schedule`. -/
  | outside
  /-- `sleep_if_full` has found the queue full. -/
  | full
  /-- In `interruptible_sleep_on`. -/
  | sleeping
  /-- After `sleep_if_full`. -/
  | awake
  /-- In the inner loop. -/
  | filling
  /-- `FULL` has found room for a character. -/
  | tested
  /-- Between the two statements of `PUTCH(c,tty->write_q)`. -/
  | storing (c : UInt8)
  /-- After the inner loop. -/
  | filled
  deriving DecidableEq

/-- A process at this place has perhaps put characters, and `tty->write(tty)` is still to come. -/
def Pc.fills : Pc → Bool
  | .filling | .tested | .storing _ | .filled => true
  | .outside | .full | .sleeping | .awake => false

/-- A process at this place may be in `schedule`. -/
def Pc.yields : Pc → Bool
  | .outside | .sleeping => true
  | .full | .awake | .filling | .tested | .storing _ | .filled => false

/-- A process at this place is about to put a character. -/
def Pc.puts : Pc → Bool
  | .tested | .storing _ => true
  | .outside | .full | .sleeping | .awake | .filling | .filled => false

variable {P : Type*}

structure State (P : Type*) where
  /-- `write_q`. -/
  queue : Queue
  port : Port
  /-- `write_q.proc_list`. -/
  procList : Option P
  /-- The variable `tmp` of a process in `interruptible_sleep_on`. -/
  tmp : P → Option P
  /-- The state of the process is `TASK_INTERRUPTIBLE`. -/
  asleep : P → Bool
  /-- A signal is pending. -/
  signal : P → Bool
  pc : P → Pc
  current : P

inductive Event (P : Type*)
  /-- The current process goes on. -/
  | run
  /-- The inner loop finds room. -/
  | test
  /-- The first statement of `PUTCH(c,tty->write_q)`. -/
  | store (c : UInt8)
  /-- The inner loop ends. -/
  | stop
  /-- `schedule` switches to a process. -/
  | switch (p : P)
  | signal (p : P) (pending : Bool)
  /-- The transmitter interrupts. -/
  | transmit
  /-- The transmitter has sent its character. -/
  | shift
  /-- An interrupt has received characters, and puts their echo. -/
  | echo (l : List UInt8)

namespace State

variable (s : State P)

/-- `rs_write`. -/
def rsWrite : State P := if s.queue.empty then s else { s with port := s.port.enable }

variable [DecidableEq P]

def goto (pc : Pc) : State P := { s with pc := Function.update s.pc s.current pc }

/-- `t->state = 0`, if there is such a process. -/
def wake : Option P → State P
  | none => s
  | some t => { s with asleep := Function.update s.asleep t false }

/-- `write_buffer_empty`. -/
def writeBufferEmpty : State P := { s.wake s.procList with port := s.port.disable }

/-- `write_char`, from the label `1` on. -/
def sendChar : State P :=
  let s := { s with
    queue := s.queue.getch.2
    port := { s.port with thr := some s.queue.getch.1 } }
  if s.queue.empty then s.writeBufferEmpty else s

/-- `write_char`. -/
def writeChar : State P :=
  if s.queue.chars = 0 then s.writeBufferEmpty
  else if 256 < s.queue.chars then s.sendChar
  else (s.wake s.procList).sendChar

/-- `interruptible_sleep_on` up to its call of `schedule`. -/
def sleep : State P :=
  { s.goto .sleeping with
    procList := some s.current
    tmp := Function.update s.tmp s.current s.procList
    asleep := Function.update s.asleep s.current true }

/-- The loop of `sleep_if_full`. -/
def sleepIfFull : State P :=
  if s.signal s.current = false ∧ s.queue.left < 128 then s.sleep else s.goto .awake

/-- `interruptible_sleep_on` after its call of `schedule`. -/
def resume : State P :=
  if s.procList.all (· = s.current) then
    { s.wake (s.tmp s.current) with procList := none }.sleepIfFull
  else
    let s := s.wake s.procList
    { s with asleep := Function.update s.asleep s.current true }

/-- The next step of the current process. -/
def advance : Option (State P) :=
  match s.pc s.current with
  | .outside => some (s.goto (if s.queue.full then .full else .awake))
  | .full => some s.sleepIfFull
  | .sleeping => if s.asleep s.current then none else some s.resume
  | .awake => some (s.goto (if s.signal s.current then .outside else .filling))
  | .filling | .tested => none
  | .storing c => some { s.goto .filling with queue := s.queue.incHead c }
  | .filled => some (s.rsWrite.goto .outside)

def next : Event P → Option (State P)
  | .run => s.advance
  | .test =>
    if s.pc s.current = .filling ∧ s.queue.full = false then some (s.goto .tested) else none
  | .store c =>
    if s.pc s.current = .tested then some { s.goto (.storing c) with queue := s.queue.store c }
    else none
  | .stop => if s.pc s.current = .filling then some (s.goto .filled) else none
  | .switch p =>
    -- `schedule` makes the processes with a signal runnable first.
    let s := { s with asleep := fun t => s.asleep t && !s.signal t }
    if (s.pc s.current).yields ∧ s.asleep p = false then some { s with current := p } else none
  | .signal p pending => some { s with signal := Function.update s.signal p pending }
  | .transmit => if s.port.enabled ∧ s.port.thr = none then some s.writeChar else none
  | .shift => s.port.thr.map fun c =>
      { s with port := { s.port with thr := none, line := s.port.line ++ [c] } }
  | .echo l => some { s with queue := s.queue.putAll l }.rsWrite

/-- The echo finds room, and leaves the room that a `tty_write` has seen. It does not come between
the two statements of `PUTCH`. -/
def Calm : Event P → Prop
  | .echo l => s.queue.chars + l.length ≤ 1023 ∧
      (s.pc s.current = .tested → s.queue.chars + l.length ≤ 1022) ∧
      ∀ c, s.pc s.current ≠ .storing c
  | _ => True

/-- `rs_init` has run, and nobody has written yet. -/
structure Initial : Prop where
  fifo : s.queue.Fifo
  put : s.queue.put = []
  ier : s.port.ier = 0x0d
  thr : s.port.thr = none
  line : s.port.line = []
  procList : s.procList = none
  pc : ∀ p, s.pc p = .outside

end State

/-- A calm step. -/
def Step [DecidableEq P] (s : State P) (e : Event P) (s' : State P) : Prop :=
  s.next e = some s' ∧ s.Calm e


/-! ### The invariant -/

namespace State

variable {s s' : State P}

/-- The queue and the transmitter agree. -/
structure Inv (s : State P) : Prop where
  fifo : s.queue.Fifo
  sent : s.port.line ++ s.port.thr.toList = s.queue.taken.reverse
  tested : (s.pc s.current).puts = true → s.queue.full = false
  storing : ∀ c, s.pc s.current = .storing c → s.queue.buf s.queue.head = c
  yields : ∀ p, p ≠ s.current → (s.pc p).yields = true
  /-- The transmitter is only enabled while there are characters. -/
  nonempty : s.port.enabled = true → s.queue.empty = false
  /-- While there are characters, it is enabled, or will be. -/
  enabled : s.queue.empty = false → s.port.enabled = true ∨ (s.pc s.current).fills = true
  /-- The first process that waits has been woken when 256 characters are left. -/
  head : ∀ t, s.procList = some t → s.asleep t = true → 256 ≤ s.queue.chars

/-- What an interrupt of the transmitter does while there are characters. -/
structure Sends (s s' : State P) : Prop where
  queue : s'.queue = s.queue.getch.2
  thr : s'.port.thr = some s.queue.getch.1
  line : s'.port.line = s.port.line
  enabled : s'.port.enabled = !s.queue.getch.2.empty
  head : 256 < s.queue.chars ∨ ∀ t, s.procList = some t → s'.asleep t = false
  procList : s'.procList = s.procList
  pc : s'.pc = s.pc
  current : s'.current = s.current

namespace Inv

theorem initial (h : s.Initial) : Inv s := by
  have htaken : s.queue.taken = [] := by
    have hput := h.fifo.length_put
    rw [h.put, List.length_nil] at hput
    exact List.eq_nil_of_length_eq_zero (by omega)
  have hempty : s.queue.empty = true := by
    rw [Queue.empty_iff_chars]
    have hput := h.fifo.length_put
    rw [h.put, List.length_nil] at hput
    omega
  have hoff : s.port.enabled = false := by
    rw [Port.enabled, h.ier]
    rfl
  constructor
  · exact h.fifo
  · rw [h.line, h.thr, htaken]
    rfl
  · intro hputs
    rw [h.pc] at hputs
    cases hputs
  · intro c hc
    rw [h.pc] at hc
    cases hc
  · intro p _
    rw [h.pc]
    rfl
  · intro hon
    rw [hoff] at hon
    cases hon
  · intro hne
    rw [hempty] at hne
    cases hne
  · intro t ht
    rw [h.procList] at ht
    cases ht

/-- Processes may be woken at any time. -/
theorem awaken (h : Inv s) {asleep : P → Bool} (ha : ∀ t, asleep t = true → s.asleep t = true) :
    Inv { s with asleep := asleep } where
  __ := h
  head t ht hsleep := h.head t ht (ha t hsleep)

theorem setProcList (h : Inv s) : Inv { s with procList := none } where
  __ := h
  head _ ht := nomatch ht

theorem rsWrite (h : Inv s) : Inv s.rsWrite ∧
    (s.rsWrite.queue.empty = false → s.rsWrite.port.enabled = true) := by
  unfold State.rsWrite
  split_ifs with hempty
  · refine ⟨h, fun hne => ?_⟩
    rw [hempty] at hne
    cases hne
  · have hempty := Bool.eq_false_iff.mpr hempty
    exact ⟨{ h with nonempty := fun _ => hempty, enabled := fun _ => .inl (Port.enabled_enable _) },
      fun _ => Port.enabled_enable _⟩

/-- The echo is sent too. -/
theorem echo (h : Inv s) {l : List UInt8} (hroom : s.queue.chars + l.length ≤ 1023)
    (htested : s.pc s.current = .tested → s.queue.chars + l.length ≤ 1022)
    (hpc : ∀ c, s.pc s.current ≠ .storing c) :
    Inv { s with queue := s.queue.putAll l }.rsWrite := by
  have hchars := Queue.chars_putAll hroom
  have htaken : (s.queue.putAll l).taken = s.queue.taken := Queue.taken_putAll l s.queue
  have hput : Inv { s with queue := s.queue.putAll l, port := s.port.enable } ∨
      s.queue.putAll l = s.queue := by
    cases l with
    | nil => exact .inr rfl
    | cons c l =>
      refine .inl { h with
        fifo := h.fifo.putAll hroom
        sent := ?_
        tested := fun hputs => Queue.not_full ?_
        storing := fun c hc => absurd hc (hpc c)
        nonempty := fun _ => ?_
        enabled := fun _ => .inl (Port.enabled_enable _)
        head := fun t ht hasleep => ?_ }
      · rw [htaken]
        exact h.sent
      · rw [hchars]
        cases hc : s.pc s.current with
        | tested =>
          have hleft := htested hc
          omega
        | storing c => exact absurd hc (hpc c)
        | _ => cases (congrArg Pc.puts hc).symm.trans hputs
      · refine Bool.eq_false_iff.mpr fun hempty => ?_
        have hzero := Queue.empty_iff_chars.mp hempty
        rw [hchars, List.length_cons] at hzero
        omega
      · have hold := h.head t ht hasleep
        rw [hchars]
        omega
  rcases hput with hput | hsame
  · unfold State.rsWrite
    split_ifs with hempty
    · have hne := hput.nonempty (Port.enabled_enable _)
      cases hne.symm.trans hempty
    · exact hput
  · rw [hsame]
    exact h.rsWrite.1

/-- The transmitter takes the first character. -/
theorem sends (h : Inv s) (hthr : s.port.thr = none) (hne : s.queue.empty = false)
    (hsends : s.Sends s') : Inv s' := by
  have hchars := Queue.chars_getch hne
  constructor
  · rw [hsends.queue]
    exact h.fifo.getch hne
  · have hsent := h.sent
    rw [hthr, Option.toList_none, List.append_nil] at hsent
    have htaken : s.queue.getch.2.taken.reverse = s.queue.taken.reverse ++ [s.queue.getch.1] :=
      List.reverse_cons
    rw [hsends.queue, htaken, hsends.thr, hsends.line, hsent]
    rfl
  · intro _
    have hless : s.queue.getch.2.chars < 1023 := by
      have hle := s.queue.chars_le
      omega
    rw [hsends.queue]
    exact Queue.not_full hless
  · intro c hc
    rw [hsends.pc, hsends.current] at hc
    rw [hsends.queue]
    exact h.storing c hc
  · rw [hsends.pc, hsends.current]
    exact h.yields
  · intro hon
    rw [hsends.enabled] at hon
    rw [hsends.queue]
    simpa using hon
  · intro hne'
    rw [hsends.queue] at hne'
    rw [hsends.enabled, hne']
    exact .inl rfl
  · intro t ht hasleep
    rw [hsends.procList] at ht
    rw [hsends.queue]
    rcases hsends.head with hmany | hwoken
    · omega
    · cases hasleep.symm.trans (hwoken t ht)

/-- The first statement of `PUTCH`. -/
theorem store (h : Inv s) {c : UInt8} (hpc : s.pc s.current = .tested) :
    Inv { s with queue := s.queue.store c } where
  __ := h
  fifo := h.fifo.store c
  storing c' hc := by
    rw [hpc] at hc
    cases hc

variable [DecidableEq P]

theorem wake (h : Inv s) (t : Option P) : Inv (s.wake t) := by
  cases t with
  | none => exact h
  | some t =>
    refine h.awaken fun u hu => ?_
    rw [Function.update_apply] at hu
    split_ifs at hu
    exact hu

/-- The current process goes to another place. -/
theorem goto (h : Inv s) {pc : Pc} (htested : pc.puts = true → s.queue.full = false)
    (hstoring : ∀ c, pc = .storing c → s.queue.buf s.queue.head = c)
    (hfills : (s.pc s.current).fills = true → s.port.enabled = false → s.queue.empty = false →
      pc.fills = true) : Inv (s.goto pc) := by
  have hself : (s.goto pc).pc (s.goto pc).current = pc := Function.update_self ..
  constructor
  · exact h.fifo
  · exact h.sent
  · intro hputs
    rw [hself] at hputs
    exact htested hputs
  · intro c hc
    rw [hself] at hc
    exact hstoring c hc
  · intro p hp
    have hsame : (s.goto pc).pc p = s.pc p := Function.update_of_ne hp ..
    rw [hsame]
    exact h.yields p hp
  · exact h.nonempty
  · intro hne
    rw [hself]
    cases hon : s.port.enabled with
    | true => exact .inl hon
    | false => exact .inr (hfills ((h.enabled hne).resolve_left (by simp [hon])) hon hne)
  · exact h.head

/-- The current process goes to a place where it is not about to put a character. -/
theorem goto_quiet (h : Inv s) {pc : Pc} (hputs : pc.puts = false)
    (hfills : (s.pc s.current).fills = true → s.port.enabled = false → s.queue.empty = false →
      pc.fills = true) : Inv (s.goto pc) := by
  refine h.goto (fun hp => ?_) (fun c hc => ?_) hfills
  · rw [hputs] at hp
    cases hp
  · rw [hc] at hputs
    cases hputs

/-- A process that has not put anything goes to another place. -/
theorem goto_of_not_fills (h : Inv s) (hpc : (s.pc s.current).fills = false) {pc : Pc}
    (hputs : pc.puts = false) : Inv (s.goto pc) :=
  h.goto_quiet hputs fun hfills => by
    rw [hpc] at hfills
    cases hfills

theorem sleep (h : Inv s) (hpc : (s.pc s.current).fills = false) (hleft : s.queue.left < 128) :
    Inv s.sleep := by
  have hchars : 256 ≤ s.queue.chars := by
    rw [Queue.left_eq] at hleft
    omega
  have hgoto : Inv (s.goto .sleeping) := h.goto_of_not_fills hpc rfl
  exact { hgoto with head := fun _ _ _ => hchars }

theorem sleepIfFull (h : Inv s) (hpc : (s.pc s.current).fills = false) : Inv s.sleepIfFull := by
  unfold State.sleepIfFull
  split_ifs with hsleep
  · exact h.sleep hpc hsleep.2
  · exact h.goto_of_not_fills hpc rfl

theorem resume (h : Inv s) (hpc : s.pc s.current = .sleeping) : Inv s.resume := by
  unfold State.resume
  split_ifs with hhead
  · have hwoken := (h.wake (s.tmp s.current)).setProcList
    refine hwoken.sleepIfFull ?_
    have hsame : (s.wake (s.tmp s.current)).pc (s.wake (s.tmp s.current)).current =
        s.pc s.current := by
      cases s.tmp s.current <;> rfl
    exact (congrArg Pc.fills (hsame.trans hpc)).trans rfl
  · obtain ⟨w, hw, hne⟩ : ∃ w, s.procList = some w ∧ w ≠ s.current := by
      cases hp : s.procList with
      | none => simp [hp] at hhead
      | some w => exact ⟨w, rfl, by simpa [hp] using hhead⟩
    have hwoken := h.wake s.procList
    rw [hw] at hwoken ⊢
    refine { hwoken with head := fun t ht hasleep => ?_ }
    -- The process in `proc_list` has just been made runnable.
    obtain rfl : w = t := Option.some.inj (hw.symm.trans ht)
    have hrun : Function.update (Function.update s.asleep w false) s.current true w = true :=
      hasleep
    rw [Function.update_of_ne hne, Function.update_self] at hrun
    cases hrun

end Inv

end State

/-! ### The steps keep it -/

namespace State

variable [DecidableEq P]

section Wake

variable (s : State P) (t : Option P)

@[simp] theorem wake_queue : (s.wake t).queue = s.queue := by
  cases t <;> rfl

@[simp] theorem wake_port : (s.wake t).port = s.port := by
  cases t <;> rfl

@[simp] theorem wake_procList : (s.wake t).procList = s.procList := by
  cases t <;> rfl

@[simp] theorem wake_pc : (s.wake t).pc = s.pc := by
  cases t <;> rfl

@[simp] theorem wake_current : (s.wake t).current = s.current := by
  cases t <;> rfl

theorem asleep_wake {u : P} (h : t = some u) : (s.wake t).asleep u = false := by
  rw [h]
  exact Function.update_self ..

end Wake

/-- `write_char`, once the process that waits for room has been woken if it has to be. -/
theorem sends_sendChar {s : State P} (hon : s.port.enabled = true)
    (hhead : 256 < s.queue.chars ∨ ∀ t, s.procList = some t → s.asleep t = false) :
    s.Sends s.sendChar := by
  unfold State.sendChar
  dsimp only
  split_ifs with hempty
  · rw [State.writeBufferEmpty]
    constructor
    · exact wake_queue ..
    · rfl
    · rfl
    · rw [hempty]
      exact Port.enabled_disable _
    · exact .inr fun t ht => asleep_wake _ _ ht
    · exact wake_procList ..
    · exact wake_pc ..
    · exact wake_current ..
  · refine ⟨rfl, rfl, rfl, ?_, hhead, rfl, rfl, rfl⟩
    rw [Bool.eq_false_iff.mpr hempty]
    exact hon

/-- `write_char`. -/
theorem sends_writeChar {s : State P} (hon : s.port.enabled = true)
    (hne : s.queue.empty = false) : s.Sends s.writeChar := by
  have hchars : s.queue.chars ≠ 0 := fun hzero =>
    Bool.false_ne_true (hne.symm.trans (Queue.empty_iff_chars.mpr hzero))
  rw [State.writeChar, if_neg hchars]
  split_ifs with hmany
  · exact sends_sendChar hon (.inl hmany)
  · have hsends : (s.wake s.procList).Sends (s.wake s.procList).sendChar := by
      refine sends_sendChar ?_ (.inr fun t ht => ?_)
      · rw [wake_port]
        exact hon
      · rw [wake_procList] at ht
        exact asleep_wake s _ ht
    exact ⟨by simpa using hsends.queue, by simpa using hsends.thr, by simpa using hsends.line,
      by simpa using hsends.enabled, by simpa using hsends.head, by simpa using hsends.procList,
      by simpa using hsends.pc, by simpa using hsends.current⟩

variable {s s' : State P}

namespace Inv

theorem advance (h : Inv s) (hs : s.advance = some s') : Inv s' := by
  unfold State.advance at hs
  split at hs <;> rename_i hpc
  · obtain rfl := Option.some.inj hs
    refine h.goto_of_not_fills (by rw [hpc]; rfl) ?_
    split_ifs <;> rfl
  · obtain rfl := Option.some.inj hs
    exact h.sleepIfFull (by rw [hpc]; rfl)
  · split_ifs at hs
    obtain rfl := Option.some.inj hs
    exact h.resume hpc
  · obtain rfl := Option.some.inj hs
    refine h.goto_of_not_fills (by rw [hpc]; rfl) ?_
    split_ifs <;> rfl
  · cases hs
  · cases hs
  · rename_i c
    obtain rfl := Option.some.inj hs
    have hfull := h.tested (by rw [hpc]; rfl)
    have hgoto : Inv (s.goto .filling) := h.goto_quiet rfl fun _ _ _ => rfl
    rw [Queue.incHead_eq (h.storing c hpc)]
    have hchars := Queue.chars_putch hfull c
    have hself : (s.goto .filling).pc (s.goto .filling).current = .filling :=
      Function.update_self ..
    refine { hgoto with
      fifo := h.fifo.putch hfull c
      tested := ?_
      storing := ?_
      nonempty := ?_
      enabled := ?_
      head := ?_ }
    · intro hputs
      cases (congrArg Pc.puts hself).symm.trans hputs
    · intro c' hc'
      cases hself.symm.trans hc'
    · intro _
      refine Bool.eq_false_iff.mpr fun hempty => ?_
      have hzero := Queue.empty_iff_chars.mp hempty
      dsimp only at hzero
      omega
    · intro _
      exact .inr (congrArg Pc.fills hself)
    · intro t ht hasleep
      have hold := h.head t ht hasleep
      dsimp only
      omega
  · obtain rfl := Option.some.inj hs
    obtain ⟨hwritten, hon⟩ := h.rsWrite
    refine hwritten.goto_quiet rfl fun _ hoff hne => ?_
    rw [hon hne] at hoff
    cases hoff

/-- **The step lemma.** -/
theorem step (h : Inv s) {e : Event P} (hs : Step s e s') : Inv s' := by
  obtain ⟨hnext, hcalm⟩ := hs
  cases e with
  | run => exact h.advance hnext
  | test =>
    simp only [State.next] at hnext
    split_ifs at hnext with hpc
    obtain rfl := Option.some.inj hnext
    exact h.goto (fun _ => hpc.2) (fun _ hc => nomatch hc) fun _ _ _ => rfl
  | store c =>
    simp only [State.next] at hnext
    split_ifs at hnext with hpc
    obtain rfl := Option.some.inj hnext
    have hfull := h.tested (by rw [hpc]; rfl)
    refine (h.store hpc).goto (fun _ => hfull) (fun c' hc => ?_) fun _ _ _ => rfl
    obtain rfl := Pc.storing.inj hc
    exact Function.update_self ..
  | stop =>
    simp only [State.next] at hnext
    split_ifs at hnext
    obtain rfl := Option.some.inj hnext
    exact h.goto_quiet rfl fun _ _ _ => rfl
  | switch p =>
    simp only [State.next] at hnext
    split_ifs at hnext with hyields
    obtain rfl := Option.some.inj hnext
    have hyields : (s.pc s.current).yields = true := hyields.1
    have hon : s.queue.empty = false → s.port.enabled = true := fun hne => by
      refine (h.enabled hne).resolve_right fun hfills => ?_
      cases hpc : s.pc s.current <;> rw [hpc] at hfills hyields <;> cases hfills <;> cases hyields
    have hall (q : P) : (s.pc q).yields = true := by
      by_cases hq : q = s.current
      · rw [hq]
        exact hyields
      · exact h.yields q hq
    have hwoken : Inv { s with asleep := fun t => s.asleep t && !s.signal t } :=
      h.awaken fun t ht => (Bool.and_eq_true_iff.mp ht).1
    refine { hwoken with tested := ?_, storing := ?_, yields := ?_, enabled := ?_ }
    · intro hputs
      have hp := hall p
      cases hpc : s.pc p <;> rw [hpc] at hp <;> cases hp <;>
        cases (congrArg Pc.puts hpc).symm.trans hputs
    · intro c hc
      have hp := hall p
      rw [show s.pc p = .storing c from hc] at hp
      cases hp
    · exact fun q _ => hall q
    · exact fun hne => .inl (hon hne)
  | signal p pending =>
    obtain rfl := Option.some.inj hnext
    exact { h with }
  | transmit =>
    simp only [State.next] at hnext
    split_ifs at hnext with hmay
    obtain rfl := Option.some.inj hnext
    exact h.sends hmay.2 (h.nonempty hmay.1) (sends_writeChar hmay.1 (h.nonempty hmay.1))
  | shift =>
    simp only [State.next, Option.map_eq_some_iff] at hnext
    obtain ⟨c, hc, rfl⟩ := hnext
    refine { h with sent := ?_ }
    have hsent := h.sent
    rw [hc] at hsent
    simpa using hsent
  | echo l =>
    simp only [State.next] at hnext
    obtain rfl := Option.some.inj hnext
    exact h.echo hcalm.1 hcalm.2.1 hcalm.2.2

end Inv

end State

/-! ### The transmitter by itself -/

/-- An interrupt of the transmitter, or the end of a character. -/
def Device [DecidableEq P] (s : State P) (e : Event P) (s' : State P) : Prop :=
  (e = .transmit ∨ e = .shift) ∧ s.next e = some s'

namespace State

variable [DecidableEq P] {s₀ s s' : State P} {es es' : List (Event P)}

/-- The interrupts that are left before everything has been sent. -/
def work (s : State P) : ℕ := 2 * s.queue.chars + s.port.thr.toList.length

/-- What the transmitter does by itself: it works off what has been put. -/
theorem Inv.device (h : Inv s) {e : Event P} (hs : Device s e s') :
    Inv s' ∧ s'.work + 1 = s.work ∧ s'.queue.put = s.queue.put ∧ s'.pc = s.pc ∧
      s'.current = s.current := by
  obtain ⟨he, hnext⟩ := hs
  have hinv : Inv s' := h.step ⟨hnext, by rcases he with rfl | rfl <;> trivial⟩
  refine ⟨hinv, ?_⟩
  rcases he with rfl | rfl
  · simp only [State.next] at hnext
    split_ifs at hnext with hmay
    obtain rfl := Option.some.inj hnext
    have hne := h.nonempty hmay.1
    have hsends := sends_writeChar hmay.1 hne
    have hchars := Queue.chars_getch hne
    refine ⟨?_, ?_, hsends.pc, hsends.current⟩
    · rw [work, work, hsends.queue, hsends.thr, hmay.2, Option.toList_none, Option.toList_some]
      simp only [List.length_cons, List.length_nil]
      omega
    · rw [hsends.queue]
      rfl
  · simp only [State.next, Option.map_eq_some_iff] at hnext
    obtain ⟨c, hc, rfl⟩ := hnext
    refine ⟨?_, rfl, rfl, rfl⟩
    rw [work, work, hc]
    rfl

theorem Inv.devices (h : Inv s) (hes : Runs Device s es s') :
    Inv s' ∧ es.length + s'.work = s.work ∧ s'.queue.put = s.queue.put ∧ s'.pc = s.pc ∧
      s'.current = s.current := by
  induction hes with
  | nil => exact ⟨h, Nat.zero_add _, rfl, rfl, rfl⟩
  | cons _ hs ih =>
    obtain ⟨hinv, hwork, hput, hpc, hcurrent⟩ := ih
    obtain ⟨hinv', hwork', hput', hpc', hcurrent'⟩ := hinv.device hs
    refine ⟨hinv', ?_, hput'.trans hput, hpc'.trans hpc, hcurrent'.trans hcurrent⟩
    rw [List.length_cons]
    omega

theorem Inv.run (h₀ : s₀.Initial) (h : Runs Step s₀ es s) : Inv s :=
  h.invariant (I := Inv) (fun _ _ _ hI => hI.step) (.initial h₀)

/-- **Characters are sent in order.** In every run of processes that write to the line and of
interrupts, what has been put into the queue is what has been sent, the character in the
transmitter, and what is in the queue. The queue is neither overrun nor underrun. -/
theorem sent_in_order (h₀ : s₀.Initial) (h : Runs Step s₀ es s) :
    s.port.line ++ s.port.thr.toList ++ s.queue.content = s.queue.put.reverse ∧
      s.queue.overrun = false ∧ s.queue.underrun = false := by
  have hinv := Inv.run h₀ h
  rw [hinv.sent, hinv.fifo.put]
  exact ⟨rfl, hinv.fifo.overrun, hinv.fifo.underrun⟩

/-- **The line does not stall.** Let no process be between its `PUTCH` and its `rs_write`. Then the
transmitter by itself ends after at most two interrupts for each character, and when it has ended
everything has been sent, and the first process that waited for room has been woken. -/
theorem line_drains (h₀ : s₀.Initial) (h : Runs Step s₀ es s)
    (hpc : (s.pc s.current).fills = false) (h' : Runs Device s es' s') :
    es'.length ≤ 2 * s.queue.chars + 1 ∧
      ((∀ e s'', ¬Device s' e s'') → s'.port.line = s.queue.put.reverse ∧
        ∀ t, s'.procList = some t → s'.asleep t = false) := by
  obtain ⟨hinv, hwork, hput, hpc', hcurrent⟩ := (Inv.run h₀ h).devices h'
  refine ⟨?_, fun hend => ?_⟩
  · have hthr : s.port.thr.toList.length ≤ 1 := by
      cases s.port.thr <;> simp
    rw [work, work] at hwork
    omega
  · have hthr : s'.port.thr = none := by
      by_contra hsome
      obtain ⟨c, hc⟩ := Option.ne_none_iff_exists'.mp hsome
      exact hend .shift _ ⟨.inr rfl, by rw [State.next, hc]; rfl⟩
    have hempty : s'.queue.empty = true := by
      by_contra hne
      have hne := Bool.eq_false_iff.mpr hne
      have hon : s'.port.enabled = true := by
        refine (hinv.enabled hne).resolve_right fun hfills => ?_
        rw [hpc', hcurrent, hpc] at hfills
        cases hfills
      exact hend .transmit _ ⟨.inl rfl, if_pos ⟨hon, hthr⟩⟩
    refine ⟨?_, fun t ht => Bool.eq_false_iff.mpr fun hasleep => ?_⟩
    · have hsent := hinv.sent
      rw [hthr, Option.toList_none, List.append_nil, hinv.fifo.taken_eq hempty, hput] at hsent
      exact hsent
    · have hmany := hinv.head t ht hasleep
      have hzero := Queue.empty_iff_chars.mp hempty
      omega

/-- Nobody has written yet. -/
def fresh : State (Fin 2) where
  queue := ⟨0, 0, 0, fun _ => 0, [], [], false, false⟩
  port := ⟨0x0d, none, []⟩
  procList := none
  tmp _ := none
  asleep _ := false
  signal _ := false
  pc _ := .outside
  current := 0

theorem fresh_initial : fresh.Initial where
  fifo := ⟨rfl, rfl, rfl⟩
  put := rfl
  ier := rfl
  thr := rfl
  line := rfl
  procList := rfl
  pc _ := rfl

/-- Process 0 writes one character, before which an echo comes, which the transmitter takes. -/
def writeOne : List (Event (Fin 2)) :=
  [.transmit, .run, .stop, .run, .store 65, .echo [66], .test, .run, .run]

theorem writeOne_run : ∃ s, Runs Step fresh writeOne s ∧ s.port.thr = some 66 ∧
    (s.pc s.current).fills = false := by
  refine ⟨_, .cons (.cons (.cons (.cons (.cons (.cons (.cons (.cons (.cons .nil ⟨rfl, trivial⟩)
    ⟨rfl, trivial⟩) ⟨rfl, trivial⟩) ⟨rfl, ?_⟩) ⟨rfl, trivial⟩) ⟨rfl, trivial⟩) ⟨rfl, trivial⟩)
    ⟨rfl, trivial⟩) ⟨rfl, trivial⟩, rfl, rfl⟩
  exact ⟨by decide, fun _ => by decide, fun c hc => by cases hc⟩

theorem sent_in_order_one : ∃ s, Runs Step fresh writeOne s ∧ s.port.thr = some 66 ∧
    s.port.line ++ s.port.thr.toList ++ s.queue.content = s.queue.put.reverse ∧
      s.queue.overrun = false ∧ s.queue.underrun = false := by
  obtain ⟨s, hs, hthr, -⟩ := writeOne_run
  exact ⟨s, hs, hthr, sent_in_order fresh_initial hs⟩

theorem line_drains_one : ∃ s s', Runs Step fresh writeOne s ∧ Runs Device s [.shift] s' ∧
    [(Event.shift : Event (Fin 2))].length ≤ 2 * s.queue.chars + 1 ∧
      ((∀ e s'', ¬Device s' e s'') → s'.port.line = s.queue.put.reverse ∧
        ∀ t, s'.procList = some t → s'.asleep t = false) := by
  obtain ⟨s, hs, hthr, hpc⟩ := writeOne_run
  have hshift : ∃ s', Runs Device s [.shift] s' :=
    ⟨_, .cons .nil ⟨.inr rfl, by rw [State.next, hthr]; rfl⟩⟩
  obtain ⟨s', hs'⟩ := hshift
  exact ⟨s, s', hs, hs', line_drains fresh_initial hs hpc hs'⟩

end State

end Serial

end Linux001.Tty
