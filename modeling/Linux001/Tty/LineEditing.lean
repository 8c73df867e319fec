import Linux001.Tty.Editing
import Linux001.Tty.Read

/-!
# A terminal with readers

A terminal in canonical mode, and the processes that read from it. Characters arrive one by one,
`copy_to_cooked` is called now and then, and the calls of `tty_read` go on step by step in between.
So a line may be edited while another process reads what has been typed of it.

What can be read is what the editing of the characters that have been cooked leaves of them,
whatever the chunks in which they are cooked, and the number of lines is right in every state.

## Main definitions

* `Desk`, `Desk.Step`: a terminal with readers, and its steps.
* `Desk.Quiet`: `copy_to_cooked` finds no query in the write queue.
* `Text`, `Text.next`: what can be read and what has been read, when characters are typed and taken.

## Main results

* `edited_step`: one step.
* `line_editing`: runs.
-/

namespace Linux001.Tty.Editing

open Read

/-! ### The terminal and its readers -/

variable {σ ι : Type*}

/-- A terminal and the processes that read from it. -/
structure Desk (σ ι : Type*) where
  terminal : Terminal σ
  jiffies : Read.Word
  /-- The signals of each process. -/
  signal : ι → Read.Word
  alarm : ι → Read.Word
  /-- The call of `tty_read` of each process, in progress or finished. -/
  call : ι → Option Call

inductive Event (σ ι : Type*)
  /-- A character arrives in the read queue. -/
  | receive (c : UInt8)
  /-- `copy_to_cooked` is called. -/
  | cook
  /-- The write queue is filled or emptied otherwise, and the screen changes. -/
  | output (q : Queue) (screen : σ)
  /-- The process `p` calls `tty_read` for `nr` characters. -/
  | enter (p : ι) (nr : ℕ)
  /-- The call of the process `p` goes on. -/
  | run (p : ι)
  /-- The process `p` gets signals, or its alarm changes. -/
  | signal (p : ι) (signal alarm : Read.Word)
  | tick (jiffies : Read.Word)

namespace Desk

variable [DecidableEq ι] (high : UInt8 → Bool) (serial : Bool) (d : Driver σ) (s : Desk σ ι)

/-- What the call `c` of the process `p` works on. -/
def view (p : ι) (c : Call) : View := ⟨s.signal p, s.alarm p, c, s.terminal.secondary⟩

/-- The call of the process `p` has come so far. -/
def put (p : ι) (v : View) : Desk σ ι :=
  { s with
    terminal := { s.terminal with secondary := v.queue }
    signal := Function.update s.signal p v.signal
    alarm := Function.update s.alarm p v.alarm
    call := Function.update s.call p (some v.call) }

/-- The process is in no call. -/
def Idle (p : ι) : Prop := ∀ c, s.call p = some c → ∃ n, c.point = .done n

/-- The steps. A character arrives only when there is room for it. -/
def Step : Event σ ι → Desk σ ι → Prop
  | .receive c, s' => s.terminal.readQ.full = false ∧
    s' = { s with terminal := { s.terminal with readQ := s.terminal.readQ.putch c } }
  | .cook, s' => ∃ n t, copyToCooked high (ttyWrite high serial d n) n s.terminal = some t ∧
    s' = { s with terminal := t }
  | .output q screen, s' =>
    s' = { s with terminal := { s.terminal with writeQ := q, screen := screen } }
  | .enter p nr, s' => s.Idle p ∧ s' = s.put p (View.enter s.terminal.termios s.jiffies (s.signal p)
    (s.alarm p) s.terminal.secondary nr)
  | .run p, s' => ∃ c v, s.call p = some c ∧
    (s.view p c).step s.terminal.termios s.jiffies = some v ∧ s' = s.put p v
  | .signal p signal alarm, s' =>
    s' = { s with
      signal := Function.update s.signal p signal
      alarm := Function.update s.alarm p alarm }
  | .tick jiffies, s' => s' = { s with jiffies := jiffies }

/-- Whenever the call of `copy_to_cooked` comes to call the `write` function, there is no query in
the write queue. -/
def Quiet : Event σ ι → Prop
  | .cook => (copyToCooked high (unasked high serial d) (s.terminal.readQ.chars + 1)
      s.terminal).isSome
  | _ => True

end Desk

/-! ### What has been typed and read -/

inductive Op
  | typed (c : UInt8)
  | taken

/-- The characters that can be read, and those that have been read, most recent first. -/
structure Text where
  content : List UInt8
  taken : List UInt8

/-- A character is typed, or the first one is taken. -/
def Text.next (t : Termios) (x : Text) : Op → Text
  | .typed c => { x with content := t.edit x.content c }
  | .taken => ⟨x.content.drop 1, x.content.take 1 ++ x.taken⟩

/-- The text in a queue. -/
def text (q : Queue) : Text := ⟨q.content, q.taken⟩

/-- The characters that have been typed, oldest first. -/
def typed : List Op → List UInt8
  | [] => []
  | .typed c :: ops => c :: typed ops
  | .taken :: ops => typed ops

/-- The characters that have arrived, oldest first. -/
def received : List (Event σ ι) → List UInt8
  | [] => []
  | .receive c :: es => received es ++ [c]
  | _ :: es => received es

theorem typed_append (ops ops' : List Op) : typed (ops ++ ops') = typed ops ++ typed ops' := by
  induction ops with
  | nil => rfl
  | cons op ops ih => cases op with
    | typed c => exact congrArg (c :: ·) ih
    | taken => exact ih

theorem typed_map (l : List UInt8) : typed (l.map .typed) = l := by
  induction l with
  | nil => rfl
  | cons c l ih => exact congrArg (c :: ·) ih

/-- Characters are only typed. -/
theorem next_typed (t : Termios) {ops : List Op} (h : .taken ∉ ops) (x : Text) :
    ops.foldl (Text.next t) x = ⟨(typed ops).foldl t.edit x.content, x.taken⟩ := by
  induction ops generalizing x with
  | nil => rfl
  | cons op ops ih =>
    obtain ⟨hop, hops⟩ := not_or.mp (mt List.mem_cons.mpr h)
    cases op with
    | typed c => exact ih hops (x.next t (.typed c))
    | taken => exact absurd rfl hop

/-! ### Steps -/

section Steps

variable {high : UInt8 → Bool} {serial : Bool} {d : Driver σ} {s s' : Desk σ ι}
  {e : Event σ ι}

/-- The number of lines is right. -/
def Counted (t : Termios) (q : Queue) : Prop := q.data = t.lines q.content

/-- What has been done with the characters that arrived in the events `es`. -/
structure Edited (s : Desk σ ι) (es : List (Event σ ι)) (s' : Desk σ ι) (ops : List Op) : Prop where
  termios : s'.terminal.termios = s.terminal.termios
  counted : Counted s.terminal.termios s.terminal.secondary →
    Counted s.terminal.termios s'.terminal.secondary
  typed : s.terminal.readQ.content ++ received es = typed ops ++ s'.terminal.readQ.content
  text : text s'.terminal.secondary =
    ops.foldl (Text.next s.terminal.termios) (text s.terminal.secondary)
  taken : (∀ p, .run p ∉ es) → .taken ∉ ops

theorem Edited.refl (s : Desk σ ι) : Edited s [] s [] :=
  ⟨rfl, id, List.append_nil _, rfl, fun _ => List.not_mem_nil⟩

/-- The terminal reads and writes as before. -/
theorem Edited.of_same (h : s.terminal.SameInput s'.terminal) (he : received [e] = []) :
    Edited s [e] s' [] := by
  refine ⟨h.termios, fun hdata => h.secondary ▸ hdata, ?_, ?_, fun _ => List.not_mem_nil⟩
  · rw [he, List.append_nil, h.readQ]
    rfl
  · rw [h.secondary]
    rfl

theorem Edited.trans {s'' : Desk σ ι} {es : List (Event σ ι)} {ops ops' : List Op}
    (h : Edited s es s' ops) (h' : Edited s' [e] s'' ops') :
    Edited s (e :: es) s'' (ops ++ ops') := by
  have hreceived : received (e :: es) = received es ++ received [e] := by
    cases e <;> first | rfl | exact (List.append_nil _).symm
  refine ⟨h'.termios.trans h.termios, fun hdata => ?_, ?_, ?_, fun hrun => ?_⟩
  · exact h.termios ▸ h'.counted (h.termios.symm ▸ h.counted hdata)
  · rw [hreceived, ← List.append_assoc, h.typed, List.append_assoc, h'.typed, typed_append,
      List.append_assoc]
  · rw [h'.text, h.text, List.foldl_append, h.termios]
  · rw [List.mem_append]
    refine not_or.mpr ⟨h.taken fun p hp => hrun p (List.mem_cons_of_mem _ hp),
      h'.taken fun p hp => ?_⟩
    rw [List.mem_singleton] at hp
    exact hrun p (hp ▸ List.mem_cons_self)

theorem content_setData (q : Queue) (n : ℕ) : ({ q with data := n } : Queue).content = q.content :=
  rfl

/-- A character is taken from the secondary queue. -/
theorem text_take {t : Termios} (ht : t.Edits) {q : Queue} (hempty : q.empty = false) :
    text (take t q).2 = (text q).next t .taken ∧ (Counted t q → Counted t (take t q).2) := by
  have hcontent := Queue.content_getch hempty
  have htake : (take t q).2.content = q.getch.2.content ∧ (take t q).2.taken =
      q.getch.1 :: q.taken ∧
      (take t q).2.data =
        if t.endsLine q.getch.1 then (q.getch.2.data + 4294967295) % 4294967296
        else q.getch.2.data := by
    unfold take
    dsimp only
    by_cases hends : t.endsLine q.getch.1 = true
    · rw [if_pos (or_comm.mp (ht.endsLine_iff.mp hends)), if_pos hends]
      exact ⟨content_setData _ _, rfl, rfl⟩
    · rw [if_neg fun h => hends (ht.endsLine_iff.mpr (or_comm.mp h)), if_neg hends]
      exact ⟨rfl, rfl, rfl⟩
  obtain ⟨hrest, htaken, hdata⟩ := htake
  constructor
  · unfold text
    rw [hrest, htaken, hcontent]
    rfl
  · intro hcounted
    unfold Counted at hcounted ⊢
    have hle : t.lines q.content ≤ 1023 :=
      List.countP_le_length.trans (Queue.length_content.trans_le Queue.chars_le)
    have hlines : t.lines q.content =
        t.lines q.getch.2.content + if t.endsLine q.getch.1 then 1 else 0 := by
      rw [hcontent]
      exact List.countP_cons
    have hgetch : q.getch.2.data = q.data := rfl
    rw [hdata, hrest, hgetch, hcounted]
    split_ifs at hlines ⊢ <;> omega

variable [DecidableEq ι]

/-- A call of `copy_to_cooked`. -/
theorem edited_cook (ht : s.terminal.termios.Edits) (hs : s.Step high serial d .cook s')
    (hquiet : s.Quiet high serial d .cook) :
    (∃ ops, Edited s [.cook] s' ops) ∧
      (s'.terminal.readQ.content = [] ∨ s'.terminal.secondary.full = true) := by
  obtain ⟨n, t, hcall, rfl⟩ := hs
  obtain ⟨t', hquiet⟩ := Option.isSome_iff_exists.mp hquiet
  obtain rfl := copyToCooked_of_unasked hquiet hcall
  obtain ⟨l, hread, htermios, hbecomes, hend⟩ := copyToCooked_edits outputs_unasked ht hquiet
  have hnone : .taken ∉ l.map Op.typed := fun h => by
    obtain ⟨c, -, hc⟩ := List.mem_map.mp h
    cases hc
  refine ⟨⟨l.map .typed, htermios, hbecomes.data, ?_, ?_, fun _ => hnone⟩, hend⟩
  · rw [typed_map]
    exact (List.append_nil _).trans hread
  · rw [next_typed _ hnone, typed_map]
    unfold text
    rw [hbecomes.content, hbecomes.taken]

/-- A step of a call of `tty_read`. -/
theorem edited_run (ht : s.terminal.termios.Edits) {p : ι} (hs : s.Step high serial d (.run p) s') :
    ∃ ops, Edited s [.run p] s' ops := by
  obtain ⟨c, v, -, hstep, rfl⟩ := hs
  have hqueue := queue_step hstep
  cases hreads : (s.view p c).reads s.terminal.termios with
  | false =>
    rw [hreads, if_neg Bool.false_ne_true] at hqueue
    exact ⟨[], .of_same ⟨rfl, rfl, hqueue⟩ rfl⟩
  | true =>
    rw [hreads, if_pos rfl] at hqueue
    obtain ⟨htext, hcounted⟩ := text_take ht (empty_of_reads hreads)
    rw [← hqueue] at htext hcounted
    exact ⟨[.taken], rfl, hcounted, List.append_nil _, htext,
      fun hrun => absurd List.mem_cons_self (hrun p)⟩

theorem queue_enter (t : Termios) (jiffies signal alarm : Read.Word) (q : Queue) (nr : ℕ) :
    (View.enter t jiffies signal alarm q nr).queue = q := by
  unfold View.enter
  dsimp only
  split_ifs <;> rfl

/-- A step of a terminal with readers. -/
theorem edited_step (ht : s.terminal.termios.Edits) (hs : s.Step high serial d e s')
    (hquiet : s.Quiet high serial d e) : ∃ ops, Edited s [e] s' ops := by
  cases e with
  | receive c =>
    obtain ⟨hfull, rfl⟩ := hs
    exact ⟨[], rfl, id, (Queue.content_putch hfull c).symm, rfl, fun _ => List.not_mem_nil⟩
  | cook => exact (edited_cook ht hs hquiet).1
  | output q screen | signal p signal alarm | tick jiffies =>
    obtain rfl := hs
    exact ⟨[], .of_same ⟨rfl, rfl, rfl⟩ rfl⟩
  | enter p nr =>
    obtain ⟨-, rfl⟩ := hs
    exact ⟨[], .of_same ⟨rfl, rfl, queue_enter ..⟩ rfl⟩
  | run p => exact edited_run ht hs

/-- Without a query, `copy_to_cooked` returns. -/
theorem cook_returns (hquiet : s.Quiet high serial d .cook) :
    ∃ s', s.Step high serial d .cook s' := by
  obtain ⟨t, ht⟩ := Option.isSome_iff_exists.mp hquiet
  exact ⟨_, _, t, copyToCooked_extends (unasked_extends _) le_rfl _ t ht, rfl⟩

omit [DecidableEq ι] in
/-- A serial line has no queries. -/
theorem quiet_serial (s : Desk σ ι) (e : Event σ ι) : s.Quiet high true d e := by
  cases e with
  | cook => exact copyToCooked_isSome outputs_unasked (fun _ => rfl) (Nat.lt_succ_self _)
  | _ => trivial

end Steps

/-! ### Runs -/

section Runs

variable [DecidableEq ι] {high : UInt8 → Bool} {serial : Bool} {d : Driver σ} {s₀ s : Desk σ ι}
  {es : List (Event σ ι)}

theorem edited_runs (ht : s₀.terminal.termios.Edits)
    (h : Runs (fun s e s' => s.Step high serial d e s' ∧ s.Quiet high serial d e) s₀ es s) :
    ∃ ops, Edited s₀ es s ops := by
  induction h with
  | nil => exact ⟨[], .refl s₀⟩
  | cons _ hs ih =>
    obtain ⟨ops, hops⟩ := ih
    obtain ⟨ops', hops'⟩ := edited_step (hops.termios.symm ▸ ht) hs.1 hs.2
    exact ⟨ops ++ ops', hops.trans hops'⟩

/-- **Line editing.** For every sequence of characters that arrive, calls of `copy_to_cooked` that
meet no query, and calls of `tty_read`: the number of lines is right; what can be read and what has
been read is the result of typing the characters that are no longer in the read queue, in the order
in which they arrived, and of taking characters meanwhile; and if nothing is read, then after a call
of `copy_to_cooked` that has not filled the secondary queue, the queue holds the result of typing
all that has arrived. And the next call of `copy_to_cooked` returns if it meets no query. -/
theorem line_editing (ht : s₀.terminal.termios.Edits)
    (hdata : Counted s₀.terminal.termios s₀.terminal.secondary)
    (h : Runs (fun s e s' => s.Step high serial d e s' ∧ s.Quiet high serial d e) s₀ es s) :
    Counted s₀.terminal.termios s.terminal.secondary ∧
    (∃ ops, s₀.terminal.readQ.content ++ received es = typed ops ++ s.terminal.readQ.content ∧
      text s.terminal.secondary =
        ops.foldl (Text.next s₀.terminal.termios) (text s₀.terminal.secondary)) ∧
    ((∀ p, .run p ∉ es) → es.head? = some .cook → s.terminal.secondary.full = false →
      s.terminal.secondary.content = (s₀.terminal.readQ.content ++ received es).foldl
        s₀.terminal.termios.edit s₀.terminal.secondary.content) ∧
    (s.Quiet high serial d .cook → ∃ s', s.Step high serial d .cook s') := by
  obtain ⟨ops, hops⟩ := edited_runs ht h
  refine ⟨hops.counted hdata, ⟨ops, hops.typed, hops.text⟩, fun hrun hlast hfull => ?_,
    cook_returns⟩
  have hread : s.terminal.readQ.content = [] := by
    cases h with
    | nil => cases hlast
    | cons h hs =>
      obtain rfl := Option.some.inj hlast
      obtain ⟨_, hbefore⟩ := edited_runs ht h
      have hend := (edited_cook (hbefore.termios.symm ▸ ht) hs.1 hs.2).2
      exact hend.resolve_right (hfull ▸ Bool.false_ne_true)
  have htyped := hops.typed
  rw [hread, List.append_nil] at htyped
  have htext := congrArg Text.content (hops.text.trans (next_typed _ (hops.taken hrun) _))
  rw [htyped]
  exact htext

end Runs

/-! ### A serial line -/

/-- A serial line in canonical mode, without echo, that is erased with `DEL`. -/
def serialLine : Desk Unit Unit where
  terminal :=
    { termios := ⟨0, 0, 2, fun k => if k = 2 then 127 else if k = 4 then 4 else 0⟩
      pgrp := 0
      stopped := false
      readQ := ⟨0, 0, 0, fun _ => 0, [], [], false, false⟩
      writeQ := ⟨0, 0, 0, fun _ => 0, [], [], false, false⟩
      secondary := ⟨0, 0, 0, fun _ => 0, [], [], false, false⟩
      signalled := []
      screen := () }
  jiffies := 0
  signal _ := 0
  alarm _ := 0
  call _ := none

theorem edits_serialLine : serialLine.terminal.termios.Edits := by
  constructor <;> decide

/-- A screen that nothing is known of. -/
def blank : Driver Unit := ⟨fun _ _ _ => (), fun _ _ => false⟩

/-- `DEL` and the end of the line are cooked in another call than what is erased, the most recent
event first. -/
def typing : List (Event Unit Unit) :=
  [.cook, .receive 10, .receive 127, .cook, .receive 98, .receive 97]

theorem runs_typing : ∃ s, Runs (fun s e s' => s.Step (fun _ => false) true blank e s' ∧
    s.Quiet (fun _ => false) true blank e) serialLine typing s ∧
      s.terminal.secondary.full = false :=
  ⟨_, (((((Runs.nil.cons ⟨⟨rfl, rfl⟩, quiet_serial ..⟩).cons ⟨⟨rfl, rfl⟩, quiet_serial ..⟩).cons
    ⟨⟨3, _, rfl, rfl⟩, quiet_serial ..⟩).cons ⟨⟨rfl, rfl⟩, quiet_serial ..⟩).cons
    ⟨⟨rfl, rfl⟩, quiet_serial ..⟩).cons ⟨⟨3, _, rfl, rfl⟩, quiet_serial ..⟩, rfl⟩

theorem line_editing_typing : ∃ s, Runs (fun s e s' => s.Step (fun _ => false) true blank e s' ∧
    s.Quiet (fun _ => false) true blank e) serialLine typing s ∧
      s.terminal.secondary.content = [97, 10] ∧
      Counted serialLine.terminal.termios s.terminal.secondary := by
  obtain ⟨s, h, hfull⟩ := runs_typing
  obtain ⟨hcounted, -, hcontent, -⟩ := line_editing edits_serialLine rfl h
  refine ⟨s, h, ?_, hcounted⟩
  rw [hcontent (fun p hp => by simp [typing] at hp) rfl hfull]
  decide

end Linux001.Tty.Editing
