import Linux001.Tty.Interrupts

/-!
# Line editing

In canonical mode `copy_to_cooked` edits lines: the characters of the read queue are mapped, and the
erase character deletes the last character of the line that is being typed. What becomes of the
secondary queue does not depend on the echo, as long as no query is found in the write queue: the
answer to a query is read as if it had been typed.

## Main definitions

* `Termios.edit`: what typing a character does to the characters that can be read.
* `Queue.Becomes`: the characters of a queue change, and its number of lines goes with them.
* `unasked`: the `write` function of a terminal, which gives up at a query.

## Main results

* `becomes_action`: one round of `copy_to_cooked`.
* `copyToCooked_edits`: a call of `copy_to_cooked` edits the characters that it takes.
* `unasked_extends`: `unasked` is the `write` function when there is no query.
-/

namespace Linux001.Tty

/-! ### What is edited -/

namespace Termios

variable (t : Termios)

/-- The mapping of carriage return and newline. -/
def mapInput (c : UInt8) : Option UInt8 :=
  if c = 13 then if t.ICRNL then some 10 else if t.IGNCR then none else some c
  else if c = 10 ∧ t.INLCR then some 13
  else some c

/-- Newline and end of file end a line. -/
def endsLine (c : UInt8) : Bool := c = 10 ∨ c = t.eofChar

/-- The last character of the line that is being typed is deleted, if it has one. -/
def eraseLast (l : List UInt8) : List UInt8 :=
  match l.getLast? with
  | none => l
  | some c => if t.endsLine c then l else l.dropLast

/-- The mapped character `c` is typed. The interrupt character is a signal when `ISIG` is not
set. -/
def editMapped (l : List UInt8) (c : UInt8) : List UInt8 :=
  if c = t.eraseChar then t.eraseLast l
  else if c = t.stopChar ∨ c = t.startChar then l
  else if t.ISIG = false ∧ c = t.intrChar then l
  else l ++ [c]

/-- The character `c` is typed after the characters `l`. -/
def edit (l : List UInt8) (c : UInt8) : List UInt8 :=
  match t.mapInput c with
  | none => l
  | some c => t.editMapped l c

/-- The number of newlines and ends of file. -/
def lines (l : List UInt8) : ℕ := l.countP t.endsLine

/-- Canonical mode without `IUCLC`, where the special characters are ASCII characters. -/
structure Edits : Prop where
  icanon : t.ICANON = true
  iuclc : t.IUCLC = false
  eraseChar : t.eraseChar < 128
  eofChar : t.eofChar < 128
  startChar : t.startChar < 128
  stopChar : t.stopChar < 128
  intrChar : t.intrChar < 128

variable {t}

theorem lines_concat (l : List UInt8) (c : UInt8) :
    t.lines (l ++ [c]) = t.lines l + if t.endsLine c then 1 else 0 := by
  rw [lines, lines, List.countP_append, List.countP_singleton]

theorem eraseLast_concat (l : List UInt8) (c : UInt8) :
    t.eraseLast (l ++ [c]) = if t.endsLine c then l ++ [c] else l := by
  rw [eraseLast, List.getLast?_concat, List.dropLast_concat]

end Termios

theorem isChar_iff {c x : UInt8} (hx : x < 128) : isChar c x = true ↔ c = x := by
  unfold isChar
  rw [decide_eq_true_eq]
  exact ⟨And.right, fun h => ⟨h ▸ hx, h⟩⟩

theorem Termios.Edits.endsLine_iff {t : Termios} (h : t.Edits) {c : UInt8} :
    t.endsLine c = true ↔ c = 10 ∨ isChar c t.eofChar = true := by
  rw [endsLine, decide_eq_true_eq, isChar_iff h.eofChar]

/-- The queue `q` becomes `q'`, which holds the characters `l`. Nothing is taken, and the number of
lines stays right. -/
structure Queue.Becomes (t : Termios) (q q' : Queue) (l : List UInt8) : Prop where
  content : q'.content = l
  taken : q'.taken = q.taken
  data : q.data = t.lines q.content → q'.data = t.lines q'.content

namespace Queue.Becomes

variable {t : Termios} {q q' q'' : Queue} {l : List UInt8}

theorem refl (t : Termios) (q : Queue) : Becomes t q q q.content := ⟨rfl, rfl, id⟩

theorem trans {l' : List UInt8} (h : Becomes t q q' l) (h' : Becomes t q' q'' l') :
    Becomes t q q'' l' :=
  ⟨h'.content, h'.taken.trans h.taken, fun hdata => h'.data (h.data hdata)⟩

end Queue.Becomes

/-! ### One round of `copy_to_cooked` -/

open Terminal

section Round

variable {σ : Type*} {high : UInt8 → Bool} {write : Terminal σ → Option (Terminal σ)}
  {s s' : Terminal σ}

/-- The input of a terminal has not changed. -/
structure Terminal.SameInput (s s' : Terminal σ) : Prop where
  readQ : s'.readQ = s.readQ
  termios : s'.termios = s.termios
  secondary : s'.secondary = s.secondary

/-- A `write` function that leaves the input alone. -/
def Outputs (write : Terminal σ → Option (Terminal σ)) : Prop :=
  ∀ s s', write s = some s' → s.SameInput s'

/-- The secondary queue after a round. -/
def Terminal.settled (s : Terminal σ) : Action → Queue
  | .erase => s.secondary.unput
  | .accept c => (s.counted c).putch c
  | _ => s.secondary

theorem begin_termios (s : Terminal σ) (a : Action) : (s.begin a).termios = s.termios := by
  cases a with
  | interrupt =>
    unfold begin decided intr
    dsimp only
    split_ifs <;> rfl
  | _ => rfl

theorem finish_secondary {a : Action} (h : s'.secondary = (s.begin a).secondary) :
    (s'.finish a).secondary = s.settled a := by
  cases a with
  | interrupt =>
    refine h.trans ?_
    unfold begin decided intr
    dsimp only
    split_ifs <;> rfl
  | erase => exact congrArg Queue.unput h
  | accept c => exact congrArg (fun q : Queue => q.putch c) h
  | _ => exact h

theorem finish_readQ (s : Terminal σ) (a : Action) : (s.finish a).readQ = s.readQ := by
  cases a <;> rfl

theorem finish_termios (s : Terminal σ) (a : Action) : (s.finish a).termios = s.termios := by
  cases a <;> rfl

/-- The input after a round. -/
theorem input_round (hw : Outputs write) {a : Action} (h : s.round write a = some s') :
    s'.readQ = s.readQ.getch.2 ∧ s'.termios = s.termios ∧ s'.secondary = s.settled a := by
  obtain ⟨u, hu, rfl⟩ := Option.map_eq_some_iff.mp h
  have hsame : (s.begin a).SameInput u := by
    split_ifs at hu
    · exact hw _ _ hu
    · obtain rfl := Option.some.inj hu
      exact ⟨rfl, rfl, rfl⟩
  refine ⟨?_, ?_, finish_secondary hsame.secondary⟩
  · rw [finish_readQ, hsame.readQ, Machine.begin_readQ]
  · rw [finish_termios, hsame.termios, begin_termios]

/-- The erase character, when there is something to erase. -/
theorem becomes_unput (ht : s.termios.Edits) (h : s.nothingToErase = false) :
    s.secondary.Becomes s.termios s.secondary.unput
      (s.termios.eraseLast s.secondary.content) := by
  have hnone := of_decide_eq_false h
  have hempty : s.secondary.empty = false := Bool.eq_false_iff.mpr fun hempty =>
    hnone (Or.inl hempty)
  have hends : ¬ s.termios.endsLine s.secondary.last = true := fun hends =>
    hnone (Or.inr (ht.endsLine_iff.mp hends))
  have hcontent := Queue.content_unput hempty
  refine ⟨?_, rfl, fun hdata => ?_⟩
  · rw [hcontent, Termios.eraseLast_concat, if_neg hends]
  · rw [hcontent, Termios.lines_concat, if_neg hends] at hdata
    exact hdata

/-- The erase character, when there is nothing to erase. -/
theorem eraseLast_of_nothing (ht : s.termios.Edits) (h : s.nothingToErase = true) :
    s.termios.eraseLast s.secondary.content = s.secondary.content := by
  cases hempty : s.secondary.empty with
  | true =>
    rw [Queue.empty_iff.mp hempty]
    rfl
  | false =>
    have hends := (of_decide_eq_true h).resolve_left (hempty ▸ Bool.false_ne_true)
    rw [Queue.content_unput hempty, Termios.eraseLast_concat, if_pos (ht.endsLine_iff.mpr hends)]

/-- A character is passed on. -/
theorem becomes_accept (ht : s.termios.Edits) (hfull : s.secondary.full = false) (c : UInt8) :
    s.secondary.Becomes s.termios ((s.counted c).putch c) (s.secondary.content ++ [c]) := by
  have hcounted : (s.counted c).content = s.secondary.content ∧ (s.counted c).full = false ∧
      (s.counted c).taken = s.secondary.taken := by
    unfold counted
    split_ifs <;> exact ⟨rfl, hfull, rfl⟩
  have hcontent : ((s.counted c).putch c).content = s.secondary.content ++ [c] := by
    rw [Queue.content_putch hcounted.2.1, hcounted.1]
  refine ⟨hcontent, hcounted.2.2, fun hdata => ?_⟩
  have hle : s.termios.lines s.secondary.content ≤ 1023 :=
    List.countP_le_length.trans (Queue.length_content.trans_le Queue.chars_le)
  rw [hcontent, Termios.lines_concat, ← hdata]
  have hput : ((s.counted c).putch c).data = (s.counted c).data := rfl
  rw [hput, counted]
  by_cases hends : s.termios.endsLine c = true
  · rw [if_pos hends, if_pos (ht.endsLine_iff.mp hends)]
    exact Nat.mod_eq_of_lt (by omega)
  · rw [if_neg hends, if_neg (mt ht.endsLine_iff.mpr hends)]
    rfl

/-- What a round of `copy_to_cooked` does with a mapped character. -/
theorem becomes_actionMapped (ht : s.termios.Edits) (hfull : s.secondary.full = false) (c : UInt8) :
    s.secondary.Becomes s.termios (s.settled (s.actionMapped c))
      (s.termios.editMapped s.secondary.content c) := by
  unfold actionMapped Termios.editMapped
  simp only [ht.icanon, true_and, isChar_iff ht.eraseChar, isChar_iff ht.stopChar,
    isChar_iff ht.startChar, isChar_iff ht.intrChar, ite_or]
  split_ifs with herase hnothing hstop hstart hintr
  · rw [eraseLast_of_nothing ht hnothing]
    exact .refl ..
  · exact becomes_unput ht (Bool.eq_false_of_not_eq_true hnothing)
  · exact .refl ..
  · exact .refl ..
  · exact .refl ..
  · exact becomes_accept ht hfull c

variable (high) in
/-- What a round of `copy_to_cooked` does with a character of the read queue. -/
theorem becomes_action (ht : s.termios.Edits) (hfull : s.secondary.full = false) (c : UInt8) :
    s.secondary.Becomes s.termios (s.settled (s.action high c))
      (s.termios.edit s.secondary.content c) := by
  unfold action Termios.edit
  have hmapped : s.termios.mapInput c = s.mapped c := rfl
  rw [hmapped]
  cases s.mapped c with
  | none => exact .refl ..
  | some c =>
    have hlowered : s.lowered high c = c := by
      unfold lowered
      rw [ht.iuclc, if_neg Bool.false_ne_true]
    dsimp only
    rw [hlowered]
    exact becomes_actionMapped ht hfull c

/-! ### A call of `copy_to_cooked` -/

/-- A call of `copy_to_cooked` edits the characters that it takes: they are all that have arrived,
unless the secondary queue is full. -/
theorem copyToCooked_edits (hw : Outputs write) (ht : s.termios.Edits) {n : ℕ}
    (h : copyToCooked high write n s = some s') :
    ∃ l, s.readQ.content = l ++ s'.readQ.content ∧ s'.termios = s.termios ∧
      s.secondary.Becomes s.termios s'.secondary
        (l.foldl s.termios.edit s.secondary.content) ∧
      (s'.readQ.content = [] ∨ s'.secondary.full = true) := by
  induction n generalizing s with
  | zero => cases h
  | succ n ih =>
    rw [copyToCooked] at h
    split_ifs at h with hcooking
    · obtain ⟨hempty, hfull⟩ := of_decide_eq_true hcooking
      obtain ⟨u, hu, h⟩ := Option.bind_eq_some_iff.mp h
      rw [cook_eq_round] at hu
      obtain ⟨hread, htermios, hsecondary⟩ := input_round hw hu
      have hround := becomes_action high ht hfull s.readQ.getch.1
      rw [← hsecondary] at hround
      obtain ⟨l, hl, htermios', hbecomes, hend⟩ := ih (htermios ▸ ht) h
      refine ⟨s.readQ.getch.1 :: l, ?_, htermios'.trans htermios, ?_, hend⟩
      · rw [Queue.content_getch hempty, ← hread, hl]
        rfl
      · rw [htermios, hround.content] at hbecomes
        exact hround.trans hbecomes
    · obtain rfl := Option.some.inj h
      refine ⟨[], rfl, rfl, .refl .., ?_⟩
      cases hfull : s.secondary.full with
      | true => exact Or.inr rfl
      | false =>
        refine Or.inl (Queue.empty_iff.mp (Bool.eq_true_of_not_eq_false fun hempty => ?_))
        exact hcooking (decide_eq_true ⟨hempty, hfull⟩)

/-- A call of `copy_to_cooked` returns when the `write` function does. -/
theorem copyToCooked_isSome (hw : Outputs write) (hsome : ∀ s, (write s).isSome) {n : ℕ}
    (hn : s.readQ.chars < n) : (copyToCooked high write n s).isSome := by
  induction n generalizing s with
  | zero => exact absurd hn (Nat.not_lt_zero _)
  | succ n ih =>
    rw [copyToCooked]
    split_ifs with hcooking
    · obtain ⟨hempty, -⟩ := of_decide_eq_true hcooking
      have hround : ∃ u, s.round write (s.action high s.readQ.getch.1) = some u := by
        unfold Terminal.round
        obtain ⟨u, hu⟩ := Option.isSome_iff_exists.mp
            (hsome (s.begin (s.action high s.readQ.getch.1)))
        split_ifs
        · exact ⟨_, congrArg (Option.map _) hu⟩
        · exact ⟨_, rfl⟩
      obtain ⟨u, hu⟩ := hround
      rw [cook_eq_round, hu, Option.bind_some]
      refine ih ?_
      have hchars := Queue.chars_getch hempty
      rw [(input_round hw hu).1]
      omega
    · rfl

end Round

/-! ### The `write` function -/

section Write

variable {σ : Type*}

/-- A query ends among the characters `l`. -/
def Driver.asksAmong (d : Driver σ) (erase : UInt8) : σ → List UInt8 → Bool
  | _, [] => false
  | screen, c :: l => d.asks screen c || d.asksAmong erase (d.putc screen erase c) l

variable (high : UInt8 → Bool) (serial : Bool) (d : Driver σ)

/-- The write queue of the console holds a query. -/
def Terminal.holdsQuery (s : Terminal σ) : Bool :=
  d.asksAmong s.termios.eraseChar s.screen s.writeQ.content

/-- `tty->write`: for a serial line it only enables the transmit interrupts. -/
def ttyWrite (fuel : ℕ) : Terminal σ → Option (Terminal σ) :=
  if serial then some else conWrite high d fuel

/-- `tty->write`, given up when there is a query in the write queue of the console. -/
def unasked (s : Terminal σ) : Option (Terminal σ) :=
  if serial then some s
  else if s.holdsQuery d then none
  else conWrite high d 1 s

variable {high serial d} {s s' : Terminal σ}

theorem conLoop_of_not_asks {l : List UInt8} (hl : s.writeQ.content = l)
    (h : d.asksAmong s.termios.eraseChar s.screen l = false) :
    ∃ s', (∀ respond, conLoop d respond l.length s = some s') ∧ s.SameInput s' := by
  induction l generalizing s with
  | nil => exact ⟨s, fun _ => rfl, rfl, rfl, rfl⟩
  | cons c l ih =>
    obtain ⟨rfl, hrest⟩ := Queue.getch_cons hl
    obtain ⟨hasks, h⟩ := Bool.or_eq_false_iff.mp h
    obtain ⟨s', hs', hsame⟩ := ih (s := { s with
      writeQ := s.writeQ.getch.2
      screen := d.putc s.screen s.termios.eraseChar s.writeQ.getch.1 }) hrest h
    refine ⟨s', fun respond => ?_, hsame.readQ, hsame.termios, hsame.secondary⟩
    rw [List.length_cons, conLoop]
    dsimp only
    rw [hasks, if_neg Bool.false_ne_true, hs']

variable (high) in
/-- `con_write` without a query. -/
theorem conWrite_of_not_holds (h : s.holdsQuery d = false) :
    ∃ s', (∀ n, conWrite high d (n + 1) s = some s') ∧ s.SameInput s' := by
  obtain ⟨s', hs', hsame⟩ := conLoop_of_not_asks rfl h
  refine ⟨s', fun n => ?_, hsame⟩
  rw [conWrite, ← Queue.length_content]
  exact hs' _

theorem outputs_unasked : Outputs (unasked high serial d) := by
  intro s s' h
  unfold unasked at h
  split_ifs at h with hserial hholds
  · obtain rfl := Option.some.inj h
    exact ⟨rfl, rfl, rfl⟩
  · obtain ⟨u, hu, hsame⟩ := conWrite_of_not_holds high (Bool.eq_false_of_not_eq_true hholds)
    obtain rfl := Option.some.inj ((hu 0).symm.trans h)
    exact hsame

/-- Without a query, `unasked` is the `write` function. -/
theorem unasked_extends (n : ℕ) : Extends (unasked high serial d)
    (ttyWrite high serial d (n + 1)) := by
  intro s s' h
  unfold unasked at h
  unfold ttyWrite
  split_ifs at h ⊢ with hserial hholds
  · exact h
  · exact conWrite_extends (Nat.le_add_left 1 n) s s' h

theorem ttyWrite_extends {m n : ℕ} (hmn : m ≤ n) :
    Extends (ttyWrite high serial d m) (ttyWrite high serial d n) := by
  unfold ttyWrite
  split_ifs
  · exact .refl _
  · exact conWrite_extends hmn

/-- A call of `copy_to_cooked` that meets no query. -/
theorem copyToCooked_of_unasked {m n : ℕ} {t : Terminal σ}
    (h : copyToCooked high (unasked high serial d) m s = some t)
    (h' : copyToCooked high (ttyWrite high serial d n) n s = some s') : s' = t := by
  have hle : n ≤ max m n + 1 := (le_max_right m n).trans (Nat.le_succ _)
  have hmax := copyToCooked_extends (unasked_extends (max m n))
      (Nat.le_succ_of_le (le_max_left m n)) s t h
  have hmax' := copyToCooked_extends (ttyWrite_extends hle) hle s s' h'
  exact Option.some.inj (hmax'.symm.trans hmax)

end Write

end Linux001.Tty
