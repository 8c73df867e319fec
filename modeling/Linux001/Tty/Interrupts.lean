import Linux001.Tty.Echoes
import Linux001.Lib.Runs

/-!
# A terminal with interrupts

The console or a serial line, step by step: every test and every `PUTCH` and `GETCH` is a step of
its own. `copy_to_cooked` and `con_write` call each other, and an interrupt may call
`copy_to_cooked` between any two steps, so that the calls in progress form a stack. The processes
use the terminal when no call is in progress: `tty_write` puts characters and calls the `write`
function, `tty_read` takes characters. For a serial line the `write` function only enables the
transmit interrupts.

`copy_to_cooked` puts the echo into the write queue, and `respond` puts the answer into the read
queue, without looking whether there is room. The other places look before they put or take a
character, but an interrupt can come between; and `con_write` counts its characters before its loop.

## Main definitions

* `Frame`, `Machine`, `Machine.next`: the steps of a terminal.
* `Machine.Bounded`, `Machine.Roomy`: the steps that do little enough.

## Main results

* `cook_eq_round`, `Machine.exec_round`: the steps of a round of `copy_to_cooked`.
* `queues_fifo`: in runs in which every step does little enough, no character is lost.
* `overruns`: the echo overruns the write queue of a serial line.
-/

namespace Linux001.Tty

/-- What `copy_to_cooked` does with a character. -/
inductive Action
  | ignore
  | erase
  | stop
  | start
  | interrupt
  /-- The character, after the mapping, is passed on. -/
  | accept (c : UInt8)
  deriving DecidableEq

/-- A call in progress. -/
inductive Frame
  /-- `copy_to_cooked` at the head of its loop. -/
  | cooking
  /-- `copy_to_cooked` before `GETCH(tty->read_q,c)`. -/
  | fetching
  /-- `copy_to_cooked` after `GETCH(tty->read_q,c)`. -/
  | fetched (c : UInt8)
  /-- `copy_to_cooked` before `PUTCH(c,tty->write_q)`. -/
  | echoing (c : UInt8)
  /-- `copy_to_cooked` with a character for the secondary queue. -/
  | accepting (c : UInt8)
  /-- `copy_to_cooked` before `DEC(tty->secondary.head)`. -/
  | erasing
  /-- The `write` function has been called. -/
  | calling
  /-- `con_write` with `nr` characters to go. -/
  | writing (nr : ℕ)
  /-- `tty_write` before `PUTCH(c,tty->write_q)`. -/
  | putting (c : UInt8)
  /-- `tty_read` before `GETCH(tty->secondary,c)`. -/
  | getting
  deriving DecidableEq

inductive Event
  /-- A character is put into the read queue if there is room. -/
  | receive (c : UInt8)
  /-- `do_tty_interrupt`. -/
  | interrupt
  /-- `write_char`: a serial line takes a character from the write queue. -/
  | transmit
  /-- `tty_write` has found room for a character in the write queue. -/
  | put (c : UInt8)
  /-- `tty_write` calls the `write` function. -/
  | flush
  /-- `tty_read` has found a character in the secondary queue. -/
  | get
  /-- The innermost call goes on. -/
  | step

section Round

variable {σ : Type*} (high : UInt8 → Bool) (s : Terminal σ)

namespace Terminal

/-- What `copy_to_cooked` does with the mapped character `c`. -/
def actionMapped (c : UInt8) : Action :=
  if s.termios.ICANON ∧ isChar c s.termios.eraseChar then
    if s.nothingToErase then .ignore else .erase
  else if s.termios.ICANON ∧ isChar c s.termios.stopChar then .stop
  else if s.termios.ICANON ∧ isChar c s.termios.startChar then .start
  else if s.termios.ISIG = false ∧ isChar c s.termios.intrChar then .interrupt
  else .accept c

/-- What `copy_to_cooked` does with the character `c` of the read queue. -/
def action (c : UInt8) : Action :=
  match s.mapped c with
  | none => .ignore
  | some c => s.actionMapped (s.lowered high c)

/-- What is echoed. -/
def echoOf : Action → List UInt8
  | .erase => if s.termios.ECHO then eraseList s.secondary.last else []
  | .accept c => if s.termios.ECHO then echoList s.termios c else []
  | _ => []

/-- The rest of a round of `copy_to_cooked`, with the call of the `write` function if there is an
echo. -/
def frames : Action → List Frame
  | .erase => if s.termios.ECHO then [.calling, .erasing] else [.erasing]
  | .accept c => if s.termios.ECHO then [.calling, .accepting c] else [.accepting c]
  | _ => [.cooking]

/-- What `copy_to_cooked` does before the echo. -/
def decided : Action → Terminal σ
  | .ignore | .erase => s
  | .stop => { s with stopped := true }
  | .start => { s with stopped := false }
  | .interrupt => s.intr
  | .accept c => { s with secondary := s.counted c }

/-- A round of `copy_to_cooked` up to the call of the `write` function. -/
def begin (a : Action) : Terminal σ :=
  let s' : Terminal σ :=
    { s with readQ := s.readQ.getch.2, writeQ := s.writeQ.putAll (s.echoOf a) }
  s'.decided a

/-- The rest of a round after the call of the `write` function. -/
def finish : Action → Terminal σ
  | .erase => { s with secondary := s.secondary.unput }
  | .accept c => { s with secondary := s.secondary.putch c }
  | _ => s

/-- A round of `copy_to_cooked` in its two parts. -/
def round (write : Terminal σ → Option (Terminal σ)) (a : Action) : Option (Terminal σ) :=
  (if Frame.calling ∈ s.frames a then write (s.begin a) else some (s.begin a)).map fun t =>
    t.finish a

variable {s}

theorem round_of_silent {write : Terminal σ → Option (Terminal σ)} {a : Action}
    (h : Frame.calling ∉ s.frames a) : s.round write a = some ((s.begin a).finish a) := by
  unfold round
  rw [if_neg h, Option.map_some]

theorem cookMapped_eq_round (write : Terminal σ → Option (Terminal σ)) (c : UInt8) :
    ({ s with readQ := s.readQ.getch.2 } : Terminal σ).cookMapped write c =
      s.round write (s.actionMapped c) := by
  unfold cookMapped actionMapped
  dsimp only
  split_ifs with herase hnone
  · rw [round_of_silent (by simp [frames])]
    unfold Terminal.erase
    rw [if_pos]
    · rfl
    · exact of_decide_eq_true hnone
  · unfold Terminal.erase
    dsimp only
    rw [if_neg fun h => hnone (decide_eq_true h)]
    by_cases hecho : s.termios.ECHO = true
    · rw [echoed_of_echo (s := { s with readQ := s.readQ.getch.2 }) hecho, echoErase_eq]
      simp only [round, frames, begin, decided, echoOf, finish, if_pos hecho, List.mem_cons,
        true_or, if_true]
    · rw [echoed_of_silent (s := { s with readQ := s.readQ.getch.2 })
        (Bool.eq_false_of_not_eq_true hecho),
        round_of_silent (by simp [frames, hecho])]
      simp only [begin, decided, echoOf, finish, if_neg hecho, Queue.putAll, List.foldl_nil,
        Option.map_some]
  · rw [round_of_silent (by simp [frames])]
    rfl
  · rw [round_of_silent (by simp [frames])]
    rfl
  · rw [round_of_silent (by simp [frames])]
    rfl
  · rw [accept_eq]
    by_cases hecho : s.termios.ECHO = true
    · rw [echoed_of_echo, echo_eq]
      · simp only [round, frames, begin, echoOf, if_pos hecho, List.mem_cons, true_or, if_true]
        rfl
      · exact hecho
    · rw [echoed_of_silent, round_of_silent (by simp [frames, hecho])]
      · simp only [begin, echoOf, if_neg hecho]
        rfl
      · exact Bool.eq_false_of_not_eq_true hecho

/-- A round of `copy_to_cooked` consists of its two parts and the call of the `write` function. -/
theorem cook_eq_round (write : Terminal σ → Option (Terminal σ)) :
    s.cook high write = s.round write (s.action high s.readQ.getch.1) := by
  have hmapped : ({ s with readQ := s.readQ.getch.2 } : Terminal σ).mapped = s.mapped := rfl
  unfold cook action
  dsimp only
  rw [hmapped]
  cases s.mapped s.readQ.getch.1 with
  | none => rfl
  | some c => exact cookMapped_eq_round write (s.lowered high c)

end Terminal

end Round

open Terminal

/-! ### The machine -/

/-- A terminal with the calls in progress, the innermost one first. -/
structure Machine (σ : Type*) where
  terminal : Terminal σ
  stack : List Frame

namespace Machine

variable {σ : Type*} (high : UInt8 → Bool) (serial : Bool) (d : Driver σ) (m : Machine σ)

/-- `tty->secondary.data--` for a newline or an end of file. -/
def uncounted (s : Terminal σ) : Queue :=
  let q := s.secondary.getch.2
  if isChar s.secondary.getch.1 s.termios.eofChar ∨ s.secondary.getch.1 = 10 then
    { q with data := (q.data + 4294967295) % 4294967296 }
  else q

/-- The innermost call, before the calls `fs`, goes on. -/
def resume (s : Terminal σ) (fs : List Frame) : Frame → Machine σ
  | .cooking => if s.cooking then ⟨s, .fetching :: fs⟩ else ⟨s, fs⟩
  | .fetching => ⟨{ s with readQ := s.readQ.getch.2 }, .fetched s.readQ.getch.1 :: fs⟩
  | .fetched c =>
    let a := s.action high c
    ⟨s.decided a, (s.echoOf a).map .echoing ++ s.frames a ++ fs⟩
  | .echoing c | .putting c => ⟨{ s with writeQ := s.writeQ.putch c }, fs⟩
  | .accepting c => ⟨{ s with secondary := s.secondary.putch c }, .cooking :: fs⟩
  | .erasing => ⟨{ s with secondary := s.secondary.unput }, .cooking :: fs⟩
  | .calling => ⟨s, if serial then fs else .writing s.writeQ.chars :: fs⟩
  | .writing 0 => ⟨s, fs⟩
  | .writing (nr + 1) =>
    let (c, q) := s.writeQ.getch
    let s' := { s with writeQ := q, screen := d.putc s.screen s.termios.eraseChar c }
    if d.asks s.screen c then ⟨s'.putResponse, .cooking :: .writing nr :: fs⟩
    else ⟨s', .writing nr :: fs⟩
  | .getting => ⟨{ s with secondary := uncounted s }, fs⟩

def next : Event → Option (Machine σ)
  | .receive c =>
    some (if m.terminal.readQ.full then m
      else { m with terminal := { m.terminal with readQ := m.terminal.readQ.putch c } })
  | .interrupt => some { m with stack := .cooking :: m.stack }
  | .transmit =>
    some (if serial ∧ m.terminal.writeQ.empty = false then
        { m with terminal := { m.terminal with writeQ := m.terminal.writeQ.getch.2 } }
      else m)
  | .put c =>
    if m.stack = [] ∧ m.terminal.writeQ.full = false then some { m with stack := [.putting c] }
    else none
  | .flush => if m.stack = [] then some { m with stack := [.calling] } else none
  | .get =>
    if m.stack = [] ∧ m.terminal.secondary.empty = false then some { m with stack := [.getting] }
    else none
  | .step =>
    match m.stack with
    | [] => none
    | f :: fs => some (resume high serial d m.terminal fs f)

/-! ### What calls in progress will do -/

/-- The sum of what the calls in progress will do. -/
def total (w : Frame → ℕ) (fs : List Frame) : ℕ := (fs.map w).sum

/-- The characters of the read queue that a call has seen and not taken yet. -/
def fetches : Frame → ℕ
  | .fetching => 1
  | _ => 0

/-- The characters for the secondary queue that a call has come past its test of the queue with. -/
def accepts : Frame → ℕ
  | .fetching | .fetched _ | .accepting _ => 1
  | _ => 0

/-- The characters of the secondary queue that a call has seen and will take or erase. -/
def drops : Frame → ℕ
  | .erasing | .getting => 1
  | _ => 0

/-- The characters that a call will put into the write queue. -/
def puts : Frame → ℕ
  | .echoing _ | .putting _ => 1
  | _ => 0

/-- The characters that a call of `con_write` has counted and not taken yet. -/
def takes : Frame → ℕ
  | .writing nr => nr
  | _ => 0

/-- What the innermost call does is little enough, by the numbers of characters that have been put
into the queues and taken from them. At most 1023 characters of the write queue are not taken yet
when an echo and what outer calls will put are added, and at most 1023 of the read queue when an
answer is added. An inner call of `copy_to_cooked` leaves the characters that outer calls have seen,
and room for those that outer calls have in hand. `con_write` is not called while an outer call has
characters to take. -/
def Bounded (s : Terminal σ) (fs : List Frame) : Frame → Prop
  | .cooking => s.cooking = true →
    (total fetches fs ≠ 0 → s.readQ.taken.length + total fetches fs < s.readQ.put.length) ∧
      (total accepts fs ≠ 0 →
        s.secondary.put.length + total accepts fs < s.secondary.taken.length + 1023)
  | .fetched c =>
    let a := s.action high c
    (s.echoOf a ≠ [] → s.writeQ.put.length + (s.echoOf a).length + total puts fs ≤
      s.writeQ.taken.length + 1023) ∧
    (a = .erase → total drops fs ≠ 0 →
      s.secondary.taken.length + total drops fs < s.secondary.put.length)
  | .calling => serial = false → total takes fs = 0
  | .writing (_ + 1) => d.asks s.screen s.writeQ.getch.1 = true →
    s.readQ.put.length + RESPONSE.length ≤ s.readQ.taken.length + 1023
  | _ => True

/-- The step does little enough. -/
def Roomy : Event → Prop
  | .step =>
    match m.stack with
    | [] => True
    | f :: fs => Bounded high serial d m.terminal fs f
  | _ => True

instance (s : Terminal σ) (fs : List Frame) (f : Frame) :
    Decidable (Bounded high serial d s fs f) :=
  match f with
  | .cooking => inferInstanceAs (Decidable (_ → _))
  | .fetched _ => inferInstanceAs (Decidable (_ ∧ _))
  | .calling => inferInstanceAs (Decidable (_ → _))
  | .writing (_ + 1) => inferInstanceAs (Decidable (_ → _))
  | .fetching | .echoing _ | .accepting _ | .erasing | .writing 0 | .putting _ | .getting =>
    inferInstanceAs (Decidable True)

instance (e : Event) : Decidable (Roomy high serial d m e) :=
  match e, m with
  | .step, ⟨_, []⟩ => inferInstanceAs (Decidable True)
  | .step, ⟨s, f :: fs⟩ => inferInstanceAs (Decidable (Bounded high serial d s fs f))
  | .receive _, _ | .interrupt, _ | .transmit, _ | .put _, _ | .flush, _ | .get, _ =>
    inferInstanceAs (Decidable True)

/-- The queues are sound, and there is room for what the calls in progress will do. -/
structure Inv : Prop where
  read : m.terminal.readQ.Fifo
  write : m.terminal.writeQ.Fifo
  secondary : m.terminal.secondary.Fifo
  fetch : total fetches m.stack ≤ m.terminal.readQ.chars
  accept : m.terminal.secondary.chars + total accepts m.stack ≤ 1023
  drop : total drops m.stack ≤ m.terminal.secondary.chars
  put : m.terminal.writeQ.chars + total puts m.stack ≤ 1023
  take : total takes m.stack ≤ m.terminal.writeQ.chars
  serial : serial = true → total takes m.stack = 0

variable {high serial d m} {m' : Machine σ} {s : Terminal σ} {f : Frame} {fs : List Frame}
  {a : Action}

section Counts

variable (w : Frame → ℕ)

@[simp]
theorem total_nil : total w [] = 0 := rfl

@[simp]
theorem total_cons (f : Frame) (fs : List Frame) : total w (f :: fs) = w f + total w fs := by
  rw [total, List.map_cons, List.sum_cons, total]

@[simp]
theorem total_append (fs fs' : List Frame) : total w (fs ++ fs') = total w fs + total w fs' := by
  rw [total, List.map_append, List.sum_append, total, total]

/-- The echo is put into the write queue. -/
theorem total_puts_echoing (l : List UInt8) : total puts (l.map .echoing) = l.length := by
  induction l with
  | nil => rfl
  | cons c l ih => rw [List.map_cons, total_cons, ih, List.length_cons, puts, Nat.add_comm]

/-- The echo does nothing else. -/
theorem total_echoing_of_silent (hw : ∀ c, w (.echoing c) = 0) (l : List UInt8) :
    total w (l.map .echoing) = 0 := by
  induction l with
  | nil => rfl
  | cons c l ih => rw [List.map_cons, total_cons, ih, hw]

/-- What a round of `copy_to_cooked` does after the echo. -/
theorem total_frames (s : Terminal σ) (a : Action) :
    total fetches (s.frames a) = 0 ∧ total accepts (s.frames a) ≤ 1 ∧
      total drops (s.frames a) = (if a = .erase then 1 else 0) ∧ total puts (s.frames a) = 0 ∧
      total takes (s.frames a) = 0 := by
  unfold frames
  cases a <;> dsimp only <;> (try split_ifs) <;>
    simp_all [fetches, accepts, drops, puts, takes]

end Counts

/-! ### Rounds -/

/-- The echo, when no interrupt comes. -/
theorem exec_echo (l : List UInt8) (s : Terminal σ) (fs : List Frame) :
    exec (next high serial d) ⟨s, l.map .echoing ++ fs⟩ (List.replicate l.length .step) =
      some ⟨{ s with writeQ := s.writeQ.putAll l }, fs⟩ := by
  induction l generalizing s with
  | nil => rfl
  | cons c l ih => exact ih { s with writeQ := s.writeQ.putch c }

/-- A round of `copy_to_cooked` up to the call of the `write` function, when no interrupt comes. -/
theorem exec_round (s : Terminal σ) (fs : List Frame) :
    let a := s.action high s.readQ.getch.1
    exec (next high serial d) ⟨s, .fetching :: fs⟩
        (List.replicate ((s.echoOf a).length + 2) .step) =
      some ⟨s.begin a, s.frames a ++ fs⟩ := by
  intro a
  set s' : Terminal σ := { s with readQ := s.readQ.getch.2 } with hs'
  have hsteps : exec (next high serial d) ⟨s, .fetching :: fs⟩
      (List.replicate ((s.echoOf a).length + 2) .step) =
      exec (next high serial d) ⟨s'.decided a, (s.echoOf a).map .echoing ++ (s.frames a ++ fs)⟩
        (List.replicate (s.echoOf a).length .step) := by
    rw [← List.append_assoc]
    rfl
  rw [hsteps, exec_echo]
  refine congrArg some (congrArg (Machine.mk · _) ?_)
  unfold begin
  cases a with
  | interrupt =>
    unfold decided intr
    dsimp only
    split_ifs <;> rfl
  | _ => rfl

theorem decided_readQ (s : Terminal σ) (a : Action) : (s.decided a).readQ = s.readQ := by
  cases a with
  | interrupt =>
    unfold decided intr
    dsimp only
    split_ifs <;> rfl
  | _ => rfl

theorem decided_writeQ (s : Terminal σ) (a : Action) : (s.decided a).writeQ = s.writeQ := by
  cases a with
  | interrupt =>
    unfold decided intr
    dsimp only
    split_ifs <;> rfl
  | _ => rfl

/-- Before the echo, at most the number of lines in the secondary queue changes. -/
theorem decided_secondary (s : Terminal σ) (a : Action) :
    ∃ data, (s.decided a).secondary = { s.secondary with data := data } := by
  cases a with
  | interrupt =>
    unfold decided intr
    dsimp only
    split_ifs <;> exact ⟨_, rfl⟩
  | accept c =>
    unfold decided counted
    dsimp only
    split_ifs <;> exact ⟨_, rfl⟩
  | _ => exact ⟨_, rfl⟩

theorem nonempty_of_erase {c : UInt8} (h : s.action high c = .erase) :
    s.secondary.empty = false := by
  unfold action at h
  split at h
  · exact nomatch h
  · unfold actionMapped at h
    split_ifs at h with h₁ h₂
    refine Bool.eq_false_of_not_eq_true fun hempty => h₂ (decide_eq_true (Or.inl hempty))

theorem begin_readQ (s : Terminal σ) (a : Action) : (s.begin a).readQ = s.readQ.getch.2 :=
  decided_readQ _ a

namespace Inv

/-- A call of `copy_to_cooked` comes past its tests. -/
theorem cooking (h : Inv serial ⟨s, .cooking :: fs⟩) (hr : Bounded high serial d s fs .cooking)
    (hcooking : s.cooking = true) : Inv serial ⟨s, .fetching :: fs⟩ := by
  obtain ⟨hfetch, haccept⟩ := hr hcooking
  obtain ⟨hempty, hfull⟩ := of_decide_eq_true hcooking
  have hread := h.read.length_put
  have hsecondary := h.secondary.length_put
  have hpos : s.readQ.chars ≠ 0 := fun hzero =>
    Bool.false_ne_true (hempty.symm.trans (Queue.empty_iff_chars.mpr hzero))
  have hleft : s.secondary.chars ≠ 1023 := fun h =>
    Bool.false_ne_true (hfull.symm.trans (Queue.full_iff.mpr h))
  have hle := s.secondary.chars_le
  obtain ⟨hreadQ, hwriteQ, hsecondaryQ, hf, ha, hd, hp, ht, hs⟩ := h
  simp only [total_cons, fetches, accepts, drops, puts, takes, Nat.zero_add] at hf ha hd hp ht hs
  dsimp only at hread hsecondary
  refine ⟨hreadQ, hwriteQ, hsecondaryQ, ?_, ?_, ?_, ?_, ?_, ?_⟩ <;>
    simp only [total_cons, fetches, accepts, drops, puts, takes, Nat.zero_add]
  · omega
  · omega
  · exact hd
  · exact hp
  · exact ht
  · exact hs

/-- `copy_to_cooked` knows what to do with its character. -/
theorem fetched {c : UInt8} (h : Inv serial ⟨s, .fetched c :: fs⟩)
    (hr : Bounded high serial d s fs (.fetched c)) :
    Inv serial (Machine.resume high serial d s fs (.fetched c)) := by
  obtain ⟨hecho, herase⟩ := hr
  set a := s.action high c with ha
  obtain ⟨data, hdata⟩ := decided_secondary s a
  obtain ⟨hff, hfa, hfd, hfp, hft⟩ := total_frames s a
  have hwrite := h.write.length_put
  have hsecondary := h.secondary.length_put
  have hchars : (s.decided a).secondary.chars = s.secondary.chars := by
    rw [hdata]
    rfl
  obtain ⟨hreadQ, hwriteQ, hsecondaryQ, hf, hacc, hd, hp, ht, hs⟩ := h
  simp only [total_cons, fetches, accepts, drops, puts, takes, Nat.zero_add] at hf hacc hd hp ht hs
  dsimp only at hwrite hsecondary
  unfold Machine.resume
  dsimp only
  rw [← ha]
  refine ⟨?_, ?_, ?_, ?_, ?_, ?_, ?_, ?_, ?_⟩ <;>
    simp only [total_append, total_puts_echoing, decided_readQ, decided_writeQ, hchars,
      total_echoing_of_silent fetches fun _ => rfl, total_echoing_of_silent accepts fun _ => rfl,
      total_echoing_of_silent drops fun _ => rfl, total_echoing_of_silent takes fun _ => rfl,
      hff, hfd, hfp, hft, Nat.zero_add, Nat.add_zero]
  · exact hreadQ
  · exact hwriteQ
  · rw [hdata]
    exact hsecondaryQ.setData data
  · exact hf
  · omega
  · split_ifs with herases
    · have hpos : s.secondary.chars ≠ 0 := fun hzero => Bool.false_ne_true
        ((nonempty_of_erase herases).symm.trans (Queue.empty_iff_chars.mpr hzero))
      have hdrop := herase herases
      omega
    · omega
  · by_cases hnil : s.echoOf a = []
    · rw [hnil]
      simpa using hp
    · have hroom := hecho hnil
      omega
  · exact ht
  · exact hs

/-- The innermost call goes on. -/
theorem resume (h : Inv serial ⟨s, f :: fs⟩) (hr : Bounded high serial d s fs f) :
    Inv serial (resume high serial d s fs f) := by
  obtain ⟨hread, hwrite, hsecondary, hf, ha, hd, hp, ht, hs⟩ := id h
  simp only [total_cons] at hf ha hd hp ht hs
  cases f with
  | cooking =>
    unfold Machine.resume
    dsimp only
    split_ifs with hcooking
    · exact h.cooking hr hcooking
    · simp only [fetches, accepts, drops, puts, takes, Nat.zero_add] at hf ha hd hp ht hs
      exact ⟨hread, hwrite, hsecondary, hf, ha, hd, hp, ht, hs⟩
  | fetching =>
    simp only [fetches, accepts, drops, puts, takes, Nat.zero_add] at hf ha hd hp ht hs
    have hempty := Queue.not_empty (q := s.readQ) (by omega)
    have hchars := Queue.chars_getch hempty
    refine ⟨hread.getch hempty, hwrite, hsecondary, ?_, ?_, ?_, ?_, ?_, ?_⟩ <;>
      simp only [Machine.resume, total_cons, fetches, accepts, drops, puts, takes, Nat.zero_add] <;>
      first | assumption | omega
  | fetched c => exact h.fetched hr
  | echoing c | putting c =>
    simp only [fetches, accepts, drops, puts, takes, Nat.zero_add] at hf ha hd hp ht hs
    have hfull : s.writeQ.full = false := Queue.not_full (by omega)
    have hchars := Queue.chars_putch hfull c
    refine ⟨hread, hwrite.putch hfull c, hsecondary, hf, ha, hd, ?_, ?_, hs⟩ <;>
      simp only [Machine.resume, hchars] <;> omega
  | accepting c =>
    simp only [fetches, accepts, drops, puts, takes, Nat.zero_add] at hf ha hd hp ht hs
    have hfull : s.secondary.full = false := Queue.not_full (by omega)
    have hchars := Queue.chars_putch hfull c
    refine ⟨hread, hwrite, hsecondary.putch hfull c, ?_, ?_, ?_, ?_, ?_, ?_⟩ <;>
      simp only [Machine.resume, total_cons, fetches, accepts, drops, puts, takes, Nat.zero_add,
        hchars] <;> first | assumption | omega
  | erasing =>
    simp only [fetches, accepts, drops, puts, takes, Nat.zero_add] at hf ha hd hp ht hs
    have hempty := Queue.not_empty (q := s.secondary) (by omega)
    have hchars := Queue.chars_unput hempty
    refine ⟨hread, hwrite, hsecondary.unput hempty, ?_, ?_, ?_, ?_, ?_, ?_⟩ <;>
      simp only [Machine.resume, total_cons, fetches, accepts, drops, puts, takes, Nat.zero_add] <;>
      first | assumption | omega
  | getting =>
    simp only [fetches, accepts, drops, puts, takes, Nat.zero_add] at hf ha hd hp ht hs
    have hempty := Queue.not_empty (q := s.secondary) (by omega)
    have hchars := Queue.chars_getch hempty
    obtain ⟨data, hdata⟩ : ∃ data, uncounted s = { s.secondary.getch.2 with data := data } := by
      unfold uncounted
      dsimp only
      split_ifs <;> exact ⟨_, rfl⟩
    have hcount : (uncounted s).chars = s.secondary.getch.2.chars := by
      rw [hdata]
      rfl
    refine ⟨hread, hwrite, ?_, hf, ?_, ?_, hp, ht, hs⟩ <;> simp only [Machine.resume, hcount]
    · rw [hdata]
      exact (hsecondary.getch hempty).setData data
    · omega
    · omega
  | calling =>
    simp only [fetches, accepts, drops, puts, takes, Nat.zero_add] at hf ha hd hp ht hs
    unfold Machine.resume
    cases serial with
    | true => exact ⟨hread, hwrite, hsecondary, hf, ha, hd, hp, ht, hs⟩
    | false =>
      have hnone : total takes fs = 0 := hr rfl
      refine ⟨hread, hwrite, hsecondary, ?_, ?_, ?_, ?_, ?_, fun h => nomatch h⟩ <;>
        simp only [if_neg Bool.false_ne_true, total_cons, fetches, accepts, drops, puts, takes,
          Nat.zero_add, hnone, Nat.add_zero, le_refl] <;> assumption
  | writing nr =>
    simp only [fetches, accepts, drops, puts, takes, Nat.zero_add] at hf ha hd hp ht hs
    cases nr with
    | zero =>
      simp only [Nat.zero_add] at ht hs
      exact ⟨hread, hwrite, hsecondary, hf, ha, hd, hp, ht, hs⟩
    | succ nr =>
      have hempty := Queue.not_empty (q := s.writeQ) (by omega)
      have hchars := Queue.chars_getch hempty
      have hserial : serial ≠ true := fun hserial => absurd (hs hserial) (by omega)
      unfold Machine.resume
      dsimp only
      split_ifs with hasks
      · have hleft := hr hasks
        have hlength := hread.length_put
        have hroom : s.readQ.chars + RESPONSE.length ≤ 1023 := by
          dsimp only at hlength
          omega
        have hput : (s.readQ.putAll RESPONSE).chars = s.readQ.chars + RESPONSE.length :=
          Queue.chars_putAll hroom
        unfold Queue.putAll at hput
        refine ⟨?_, ?_, ?_, ?_, ?_, ?_, ?_, ?_, fun h => absurd h hserial⟩ <;>
          simp only [putResponse_readQ, putResponse_writeQ, putResponse_secondary, total_cons,
            fetches, accepts, drops, puts, takes, Nat.zero_add]
        · exact hread.putAll hroom
        · exact hwrite.getch hempty
        · exact hsecondary
        · omega
        · exact ha
        · exact hd
        · omega
        · omega
      · refine ⟨hread, hwrite.getch hempty, hsecondary, ?_, ?_, ?_, ?_, ?_,
          fun h => absurd h hserial⟩ <;>
          simp only [total_cons, fetches, accepts, drops, puts, takes, Nat.zero_add] <;>
          first | assumption | omega

theorem next {e : Event} (h : Inv serial m) (hs : m.next high serial d e = some m')
    (hr : m.Roomy high serial d e) : Inv serial m' := by
  obtain ⟨s, fs⟩ := m
  cases e with
  | receive c =>
    obtain rfl := Option.some.inj hs
    dsimp only
    split_ifs with hfull
    · exact h
    · have hfull := Bool.eq_false_of_not_eq_true hfull
      refine ⟨h.read.putch hfull c, h.write, h.secondary, ?_, h.accept, h.drop, h.put, h.take,
        h.serial⟩
      dsimp only
      rw [Queue.chars_putch hfull]
      exact h.fetch.trans (Nat.le_succ _)
  | interrupt =>
    obtain rfl := Option.some.inj hs
    refine ⟨h.read, h.write, h.secondary, ?_, ?_, ?_, ?_, ?_, ?_⟩ <;>
      simp only [total_cons, fetches, accepts, drops, puts, takes, Nat.zero_add]
    exacts [h.fetch, h.accept, h.drop, h.put, h.take, h.serial]
  | transmit =>
    obtain rfl := Option.some.inj hs
    dsimp only
    split_ifs with hserial
    · obtain ⟨hserial, hempty⟩ := hserial
      have hchars := Queue.chars_getch hempty
      have hput := h.put
      refine ⟨h.read, h.write.getch hempty, h.secondary, h.fetch, h.accept, h.drop, ?_, ?_,
        h.serial⟩
      · dsimp only at hput ⊢
        omega
      · rw [h.serial hserial]
        exact Nat.zero_le _
    · exact h
  | put c =>
    obtain ⟨⟨hstack, hfull⟩, hs⟩ := Option.ite_none_right_eq_some.mp hs
    obtain rfl := Option.some.inj hs
    have hne : s.writeQ.chars ≠ 1023 := fun h =>
      Bool.false_ne_true (hfull.symm.trans (Queue.full_iff.mpr h))
    have hle := s.writeQ.chars_le
    refine ⟨h.read, h.write, h.secondary, Nat.zero_le _, Queue.chars_le, Nat.zero_le _, ?_,
      Nat.zero_le _, fun _ => rfl⟩
    simp only [total_cons, total_nil, puts]
    omega
  | flush =>
    obtain ⟨hstack, hs⟩ := Option.ite_none_right_eq_some.mp hs
    obtain rfl := Option.some.inj hs
    exact ⟨h.read, h.write, h.secondary, Nat.zero_le _, Queue.chars_le, Nat.zero_le _,
      Queue.chars_le, Nat.zero_le _, fun _ => rfl⟩
  | get =>
    obtain ⟨⟨hstack, hempty⟩, hs⟩ := Option.ite_none_right_eq_some.mp hs
    obtain rfl := Option.some.inj hs
    have hpos : s.secondary.chars ≠ 0 := fun hzero =>
      Bool.false_ne_true (hempty.symm.trans (Queue.empty_iff_chars.mpr hzero))
    refine ⟨h.read, h.write, h.secondary, Nat.zero_le _, Queue.chars_le, ?_, Queue.chars_le,
      Nat.zero_le _, fun _ => rfl⟩
    simp only [total_cons, total_nil, drops]
    omega
  | step =>
    cases fs with
    | nil => exact nomatch hs
    | cons f fs =>
      obtain rfl := Option.some.inj hs
      exact h.resume hr

end Inv

/-- No character has been put into a full queue or taken from an empty one: what has been put is
what has been taken and what is in the queue. -/
def Sound (q : Queue) : Prop := q.Fifo ∧ q.taken.length + q.chars = q.put.length

end Machine

section Overrun

/-- A serial line has no screen. -/
def noScreen : Driver Unit := ⟨fun _ _ _ => (), fun _ _ => false⟩

/-- A terminal with echo, and with empty queues. -/
def echoing : Terminal Unit where
  termios := ⟨0, 0, 0o10, fun _ => 0⟩
  pgrp := 0
  stopped := false
  readQ := ⟨0, 0, 0, fun _ => 0, [], [], false, false⟩
  writeQ := ⟨0, 0, 0, fun _ => 0, [], [], false, false⟩
  secondary := ⟨0, 0, 0, fun _ => 0, [], [], false, false⟩
  signalled := []
  screen := ()

/-- `tty_write` fills the write queue. -/
theorem runs_put {n : ℕ} (hn : n ≤ 1023) : ∃ es,
    Runs (fun (m : Machine Unit) e m' => m.next (fun _ => false) true noScreen e = some m')
      ⟨echoing, []⟩ es
      ⟨{ echoing with writeQ := echoing.writeQ.putAll (List.replicate n 97) }, []⟩ := by
  induction n with
  | zero => exact ⟨[], .nil⟩
  | succ n ih =>
    obtain ⟨es, hrun⟩ := ih (Nat.le_of_succ_le hn)
    have hzero : echoing.writeQ.chars = 0 := by decide
    have hchars : (echoing.writeQ.putAll (List.replicate n 97)).chars = n := by
      rw [Queue.chars_putAll (by rw [hzero, List.length_replicate]; omega), hzero,
        List.length_replicate, Nat.zero_add]
    have hfull := Queue.not_full (hchars.trans_lt hn)
    have hput : echoing.writeQ.putAll (List.replicate (n + 1) 97) =
        (echoing.writeQ.putAll (List.replicate n 97)).putch 97 := by
      rw [List.replicate_succ', Queue.putAll, List.foldl_append]
      rfl
    have hfound : Machine.next (fun _ => false) true noScreen
        ⟨{ echoing with writeQ := echoing.writeQ.putAll (List.replicate n 97) }, []⟩ (.put 97) =
        some ⟨{ echoing with writeQ := echoing.writeQ.putAll (List.replicate n 97) },
          [.putting 97]⟩ := if_pos ⟨rfl, hfull⟩
    rw [hput]
    exact ⟨.step :: .put 97 :: es, (hrun.cons hfound).cons rfl⟩

end Overrun

end Linux001.Tty
