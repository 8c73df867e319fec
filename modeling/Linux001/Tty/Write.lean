import Linux001.Tty.Cooked
import Linux001.Lib.Runs
import Mathlib.Data.List.Basic

/-!
# The expansion of newlines in `tty_write`

Processes call `tty_write` on the three terminals. A call can be interrupted by another one only
where it sleeps and where it calls `schedule`, but between its steps interrupts, the echo and the
`write` functions change the queues. That the carriage return of a newline has already been sent is
remembered in `cr_flag`, which all calls share.

## Main definitions

* `Call`, `State`, `State.next`: the calls of `tty_write`.
* `Call.Expanded`: a call has put the characters that it has accepted, with the newlines expanded.
* `State.Flagged`: `cr_flag` belongs to the call that looks at it.

## Main results

* `expanded_iff`: the calls expand their newlines exactly in the runs in which the flag always
  belongs to the call that looks at it.
* `not_expanded`: a second call clears the flag.
-/

namespace Linux001.Tty

namespace Termios

variable (t : Termios)

def OPOST : Bool := flag t.oflag 0o1
def OLCUC : Bool := flag t.oflag 0o2
def ONLCR : Bool := flag t.oflag 0o4
def OCRNL : Bool := flag t.oflag 0o10
def ONLRET : Bool := flag t.oflag 0o40

end Termios

/-- `toupper(c)`. What `_ctype` holds for negative characters is the parameter `high`. -/
def toUpper (high : UInt8 → Bool) (c : UInt8) : UInt8 :=
  if if c < 128 then 97 ≤ c ∧ c ≤ 122 else high c then c - 32 else c

namespace Write

/-- The places of `tty_write` between which nothing but interrupts can happen. -/
inductive Point
  /-- The head of the loop. -/
  | start
  /-- In `interruptible_sleep_on`. -/
  | sleeping
  /-- After `sleep_if_full`. -/
  | awake
  /-- In the inner loop. -/
  | filling
  /-- After the inner loop. -/
  | filled
  /-- In `schedule`. -/
  | yielding
  | done
  deriving DecidableEq

/-- A call of `tty_write`. -/
structure Call where
  tty : Fin 3
  /-- The characters that have not been accepted yet. -/
  rest : List UInt8
  point : Point
  /-- The characters that have been accepted, in order. -/
  accepted : List UInt8
  /-- What the call has put into the queue. -/
  out : List UInt8

variable {P : Type*} [DecidableEq P]

/-- The terminals and the processes. -/
structure State (P : Type*) where
  crFlag : Bool
  queue : Fin 3 → Queue
  termios : Fin 3 → Termios
  /-- A signal is pending. -/
  signal : P → Bool
  /-- The last call of a process. -/
  call : P → Option Call
  current : P

inductive Event (P : Type*)
  /-- The current process calls `tty_write(channel, buf, nr)`. -/
  | enter (channel : ℕ) (buf : ℕ → UInt8) (nr : ℤ)
  /-- The call of the current process goes on. -/
  | run
  | switch (p : P)
  /-- An interrupt, the echo of a character, or the `write` function of a terminal. -/
  | device (tty : Fin 3) (q : Queue)
  | signal (p : P) (pending : Bool)

namespace State

variable (high : UInt8 → Bool) (s : State P)

/-- The call of the current process becomes `c`. -/
def setCall (c : Call) : State P := { s with call := Function.update s.call s.current (some c) }

/-- The current process puts a character into the queue of its call `c`, which becomes `c'`. -/
def put (c c' : Call) (crFlag : Bool) (x : UInt8) : State P :=
  { s.setCall { c' with out := c.out ++ [x] } with
    crFlag := crFlag
    queue := Function.update s.queue c.tty ((s.queue c.tty).putch x) }

/-- The mapping of carriage return and newline. -/
def mapped (t : Termios) (x : UInt8) : UInt8 :=
  if x = 13 ∧ t.OCRNL then 10 else if x = 10 ∧ t.ONLRET then 13 else x

/-- The inner loop looks at the character `x`, which is followed by `rest`. -/
def fill (c : Call) (x : UInt8) (rest : List UInt8) : State P :=
  let t := s.termios c.tty
  let y := if t.OPOST then mapped t x else x
  if t.OPOST ∧ y = 10 ∧ s.crFlag = false ∧ t.ONLCR then s.put c c true 13
  else
    s.put c { c with rest := rest, accepted := c.accepted ++ [x] } false
      (if t.OPOST ∧ t.OLCUC then toUpper high y else y)

/-- The loop of `sleep_if_full`. -/
def sleepIfFull (c : Call) : State P :=
  if s.signal s.current = false ∧ (s.queue c.tty).left < 128 then
    s.setCall { c with point := .sleeping }
  else s.setCall { c with point := .awake }

/-- The next step of the call `c` of the current process. -/
def advance (c : Call) : Option (State P) :=
  match c.point with
  | .start =>
    some (if c.rest = [] then s.setCall { c with point := .done }
      else if (s.queue c.tty).full then s.sleepIfFull c
      else s.setCall { c with point := .awake })
  | .sleeping => some (s.sleepIfFull c)
  | .awake =>
    some (s.setCall { c with point := if s.signal s.current then .done else .filling })
  | .filling =>
    some (match c.rest with
      | [] => s.setCall { c with point := .filled }
      | x :: rest =>
        if (s.queue c.tty).full then s.setCall { c with point := .filled }
        else s.fill high c x rest)
  | .filled => some (s.setCall { c with point := if c.rest = [] then .start else .yielding })
  | .yielding => some (s.setCall { c with point := .start })
  | .done => none

/-- The current process may be switched away from: it is not in a call, or it sleeps. -/
def idle : Bool :=
  match s.call s.current with
  | none => true
  | some c => c.point = .sleeping ∨ c.point = .yielding ∨ c.point = .done

/-- The current process is not in a call of `tty_write`. -/
def outside : Bool :=
  match s.call s.current with
  | none => true
  | some c => c.point = .done

def next : Event P → Option (State P)
  | .enter channel buf nr =>
    if s.outside then
      some (if h : channel < 3 then
        if nr < 0 then s
        else s.setCall ⟨⟨channel, h⟩, (List.range nr.toNat).map buf, .start, [], []⟩
      else s)
    else none
  | .run => (s.call s.current).bind (s.advance high)
  | .switch p => if s.idle then some { s with current := p } else none
  | .device tty q => some { s with queue := Function.update s.queue tty q }
  | .signal p pending => some { s with signal := Function.update s.signal p pending }

end State

/-- The characters as they are sent. -/
def expansion (l : List UInt8) : List UInt8 := l.flatMap fun c => if c = 10 then [13, 10] else [c]

/-- The call has put the carriage return of the newline that comes next. -/
def Call.Returned (c : Call) : Prop := c.out = expansion c.accepted ++ [13]

/-- The call has put the characters that it has accepted, with `CR LF` for every newline, and
perhaps the carriage return of the newline that comes next. -/
def Call.Expanded (c : Call) : Prop :=
  c.out = expansion c.accepted ∨ c.Returned ∧ c.rest.head? = some 10

/-- `cr_flag` belongs to the current call: when the call looks at a newline, it is set if and only
if the call has put the carriage return. -/
def State.Flagged (s : State P) : Event P → Prop
  | .run => ∀ c ∈ s.call s.current, c.point = .filling → c.rest.head? = some 10 →
      (s.queue c.tty).full = false → (s.crFlag = true ↔ c.Returned)
  | _ => True

instance (c : Call) : Decidable c.Returned := inferInstanceAs (Decidable (_ = _))

instance (s : State P) (e : Event P) : Decidable (s.Flagged e) :=
  match e with
  | .run => inferInstanceAs (Decidable (∀ c ∈ s.call s.current, _))
  | .enter .. | .switch _ | .device .. | .signal .. => inferInstanceAs (Decidable True)

/-- All calls have put what they have accepted. -/
def State.Expanded (s : State P) : Prop := ∀ p c, s.call p = some c → c.Expanded

/-- Every newline is sent as `CR LF`, and the other characters are sent as they are. -/
structure Expands (t : Termios) : Prop where
  opost : t.OPOST = true
  onlcr : t.ONLCR = true
  ocrnl : t.OCRNL = false
  onlret : t.ONLRET = false
  olcuc : t.OLCUC = false

theorem expansion_append (l : List UInt8) (c : UInt8) :
    expansion (l ++ [c]) = expansion l ++ if c = 10 then [13, 10] else [c] := by
  rw [expansion, List.flatMap_append, List.flatMap_singleton, expansion]

namespace State

variable {high : UInt8 → Bool} {s s' : State P}

omit [DecidableEq P] in
theorem Expanded.of_calls (h : s.Expanded) (hcalls : s'.call = s.call) : s'.Expanded := by
  unfold Expanded
  rw [hcalls]
  exact h

theorem call_setCall (c : Call) : (s.setCall c).call = Function.update s.call s.current (some c) :=
  rfl

/-- The state is as good as the call that has been changed. -/
theorem expanded_setCall (h : s.Expanded) {c : Call} (hs' : s'.call = (s.setCall c).call) :
    s'.Expanded ↔ c.Expanded := by
  unfold Expanded
  rw [hs', call_setCall]
  rw [call_setCall] at hs'
  refine ⟨fun h' => h' s.current c (Function.update_self ..), fun hc p c' hc' => ?_⟩
  by_cases hp : p = s.current
  · subst hp
    rw [Function.update_self] at hc'
    obtain rfl := Option.some.inj hc'
    exact hc
  · rw [Function.update_of_ne hp] at hc'
    exact h p c' hc'

theorem call_put (c c' : Call) (crFlag : Bool) (x : UInt8) :
    (s.put c c' crFlag x).call = (s.setCall { c' with out := c.out ++ [x] }).call := rfl

/-- A call that has put the carriage return goes on well with the newline, and another one with the
carriage return. -/
theorem expanded_fill {c : Call} (ht : Expands (s.termios c.tty)) (h : s.Expanded) {x : UInt8}
    {rest : List UInt8} (hc : s.call s.current = some c) (hrest : c.rest = x :: rest) :
    (s.fill high c x rest).Expanded ↔ (x = 10 → (s.crFlag = true ↔ c.Returned)) := by
  have hexpanded := h s.current c hc
  have hmapped : mapped (s.termios c.tty) x = x := by
    unfold mapped
    rw [ht.ocrnl, ht.onlret, if_neg fun h => Bool.false_ne_true h.2,
      if_neg fun h => Bool.false_ne_true h.2]
  have hupper : (if (s.termios c.tty).OPOST ∧ (s.termios c.tty).OLCUC then toUpper high x else x) =
      x :=
    if_neg fun h => Bool.false_ne_true (ht.olcuc.symm.trans h.2)
  unfold fill
  dsimp only
  rw [if_pos ht.opost, hmapped, hupper]
  by_cases hx : x = 10
  · subst hx
    have hhead : c.rest.head? = some 10 := by rw [hrest, List.head?_cons]
    cases hflag : s.crFlag with
    | false =>
      -- The carriage return is put.
      rw [if_pos ⟨ht.opost, rfl, rfl, ht.onlcr⟩, expanded_setCall h (call_put ..)]
      have hput : ({ c with out := c.out ++ [13] } : Call).Expanded ↔
          c.out = expansion c.accepted := by
        refine ⟨fun h' => ?_, fun hout => Or.inr ⟨?_, hhead⟩⟩
        · rcases h' with h' | ⟨h', -⟩
          · dsimp only at h'
            rcases hexpanded with hout | ⟨hout, -⟩
            · exact hout
            · unfold Call.Returned at hout
              have hlength := congrArg List.length h'
              rw [hout, List.length_append, List.length_append] at hlength
              simp only [List.length_cons, List.length_nil] at hlength
              omega
          · exact List.append_cancel_right h'
        · exact congrArg (· ++ [13]) hout
      rw [hput]
      refine ⟨fun hout _ => ⟨fun h => absurd h Bool.false_ne_true, fun hreturned => ?_⟩,
        fun h' => ?_⟩
      · unfold Call.Returned at hreturned
        rw [hout] at hreturned
        exact absurd (List.self_eq_append_right.mp hreturned) (List.cons_ne_nil 13 [])
      · exact hexpanded.resolve_right fun hreturned =>
          Bool.false_ne_true ((h' rfl).mpr hreturned.1)
    | true =>
      -- The newline is put.
      rw [if_neg fun h => Bool.false_ne_true h.2.2.1.symm, expanded_setCall h (call_put ..)]
      have hexpansion : expansion (c.accepted ++ [10]) = expansion c.accepted ++ [13] ++ [10] := by
        rw [expansion_append, if_pos rfl, List.append_assoc]
        rfl
      refine ⟨fun h' _ => ⟨fun _ => ?_, fun _ => rfl⟩, fun h' => Or.inl ?_⟩
      · rcases h' with h' | ⟨h', -⟩
        · dsimp only at h'
          rw [hexpansion] at h'
          exact List.append_cancel_right h'
        · have hlast := List.append_inj_right' h' rfl
          exact absurd (List.cons.inj hlast).1 (by decide)
      · dsimp only
        rw [hexpansion, (h' rfl).mp rfl]
  · rw [if_neg fun h => hx h.2.1, expanded_setCall h (call_put ..)]
    refine iff_of_true (Or.inl ?_) fun h => absurd h hx
    have hout : c.out = expansion c.accepted := by
      refine hexpanded.resolve_right fun h => hx ?_
      have hhead := h.2
      rw [hrest] at hhead
      exact Option.some.inj hhead
    dsimp only
    rw [hout, expansion_append, if_neg hx]

theorem Expanded.setCall (h : s.Expanded) {c c' : Call} (hc : s.call s.current = some c)
    (hrest : c'.rest = c.rest) (haccepted : c'.accepted = c.accepted) (hout : c'.out = c.out) :
    (s.setCall c').Expanded := by
  rw [expanded_setCall h rfl]
  have hexpanded := h s.current c hc
  unfold Call.Expanded Call.Returned at *
  rwa [hrest, haccepted, hout]

theorem Expanded.sleepIfFull (h : s.Expanded) {c : Call} (hc : s.call s.current = some c) :
    (s.sleepIfFull c).Expanded := by
  unfold State.sleepIfFull
  split_ifs
  · exact h.setCall hc rfl rfl rfl
  · exact h.setCall hc rfl rfl rfl

/-- A step keeps the calls expanded exactly when the flag belongs to the call that looks at it. -/
theorem next_expanded {e : Event P} (ht : ∀ tty, Expands (s.termios tty)) (h : s.Expanded)
    (hs : s.next high e = some s') : s'.Expanded ↔ s.Flagged e := by
  cases e with
  | enter channel buf nr =>
    refine iff_of_true ?_ trivial
    obtain ⟨-, hs⟩ := Option.ite_none_right_eq_some.mp hs
    obtain rfl := Option.some.inj hs
    split_ifs
    · exact h
    · exact (expanded_setCall h rfl).mpr (Or.inl rfl)
    · exact h
  | switch p =>
    refine iff_of_true ?_ trivial
    obtain ⟨-, hs⟩ := Option.ite_none_right_eq_some.mp hs
    obtain rfl := Option.some.inj hs
    exact h.of_calls rfl
  | device tty q | signal p pending =>
    obtain rfl := Option.some.inj hs
    exact iff_of_true (h.of_calls rfl) trivial
  | run =>
    obtain ⟨c, hc, hs⟩ := Option.bind_eq_some_iff.mp hs
    -- Apart from the inner loop, a call changes only its place.
    have hother (hs' : s'.Expanded) (hpoint : c.point ≠ .filling) : s'.Expanded ↔ s.Flagged .run :=
      iff_of_true hs' fun c' hc' hpoint' => by
        obtain rfl := Option.some.inj (hc.symm.trans hc')
        exact absurd hpoint' hpoint
    unfold advance at hs
    cases hpoint : c.point with
    | start =>
      rw [hpoint] at hs
      obtain rfl := Option.some.inj hs
      refine hother ?_ (hpoint ▸ Point.noConfusion)
      split_ifs
      · exact h.setCall hc rfl rfl rfl
      · exact h.sleepIfFull hc
      · exact h.setCall hc rfl rfl rfl
    | sleeping =>
      rw [hpoint] at hs
      obtain rfl := Option.some.inj hs
      exact hother (h.sleepIfFull hc) (hpoint ▸ Point.noConfusion)
    | awake | filled | yielding =>
      rw [hpoint] at hs
      obtain rfl := Option.some.inj hs
      exact hother (h.setCall hc rfl rfl rfl) (hpoint ▸ Point.noConfusion)
    | done =>
      rw [hpoint] at hs
      exact nomatch hs
    | filling =>
      rw [hpoint] at hs
      obtain rfl := Option.some.inj hs
      -- The flag matters only for a newline that fits into the queue.
      have hflagged : s.Flagged .run ↔ (c.rest.head? = some 10 → (s.queue c.tty).full = false →
          (s.crFlag = true ↔ c.Returned)) := by
        refine ⟨fun hf => hf c hc hpoint, fun hf c' hc' _ => ?_⟩
        obtain rfl := Option.some.inj (hc.symm.trans hc')
        exact hf
      rw [hflagged]
      cases hrest : c.rest with
      | nil => exact iff_of_true (h.setCall hc hrest.symm rfl rfl) fun hhead => nomatch hhead
      | cons x rest =>
        dsimp only
        split_ifs with hfull
        · refine iff_of_true (h.setCall hc hrest.symm rfl rfl) fun _ hfull' => ?_
          exact absurd (hfull'.symm.trans hfull) Bool.false_ne_true
        · rw [expanded_fill (ht c.tty) h hc hrest, List.head?_cons, Option.some.injEq]
          exact ⟨fun hf hx _ => hf hx, fun hf hx => hf hx (Bool.eq_false_of_not_eq_true hfull)⟩

theorem termios_fill (c : Call) (x : UInt8) (rest : List UInt8) :
    (s.fill high c x rest).termios = s.termios := by
  unfold fill
  dsimp only
  split_ifs <;> rfl

theorem termios_advance {c : Call} (hs : s.advance high c = some s') : s'.termios = s.termios := by
  unfold advance at hs
  split at hs
  · obtain rfl := Option.some.inj hs
    unfold sleepIfFull
    split_ifs <;> rfl
  · obtain rfl := Option.some.inj hs
    unfold sleepIfFull
    split_ifs <;> rfl
  · obtain rfl := Option.some.inj hs
    rfl
  · obtain rfl := Option.some.inj hs
    split
    · rfl
    · split_ifs
      · rfl
      · exact termios_fill ..
  · obtain rfl := Option.some.inj hs
    rfl
  · obtain rfl := Option.some.inj hs
    rfl
  · exact nomatch hs

theorem next_termios {e : Event P} (hs : s.next high e = some s') : s'.termios = s.termios := by
  cases e with
  | enter channel buf nr =>
    obtain ⟨-, hs⟩ := Option.ite_none_right_eq_some.mp hs
    obtain rfl := Option.some.inj hs
    split_ifs <;> rfl
  | switch p =>
    obtain ⟨-, hs⟩ := Option.ite_none_right_eq_some.mp hs
    obtain rfl := Option.some.inj hs
    rfl
  | device tty q | signal p pending =>
    obtain rfl := Option.some.inj hs
    rfl
  | run =>
    obtain ⟨c, -, hs⟩ := Option.bind_eq_some_iff.mp hs
    exact termios_advance hs

/-- No process has called `tty_write` yet. -/
def boot (queue : Fin 3 → Queue) (termios : Fin 3 → Termios) (p : P) : State P :=
  ⟨false, queue, termios, fun _ => false, fun _ => none, p⟩

/-- A step of a run in which all calls stay expanded. -/
theorem runs_expanded {queue : Fin 3 → Queue} {termios : Fin 3 → Termios} {p : P}
    (ht : ∀ tty, Expands (termios tty)) {es : List (Event P)}
    (hrun : Runs (fun s e s' => s.next high e = some s' ∧ s.Flagged e)
      (boot queue termios p) es s) :
    s.Expanded ∧ s.termios = termios := by
  induction hrun with
  | nil => exact ⟨fun _ _ h => (nomatch h), rfl⟩
  | cons _ hs ih =>
    obtain ⟨hexpanded, htermios⟩ := ih
    refine ⟨(next_expanded (fun tty => ?_) hexpanded hs.1).mpr hs.2,
      (next_termios hs.1).trans htermios⟩
    rw [htermios]
    exact ht tty

end State

/-- In every run in which `cr_flag` always belongs to the call that looks at it, the calls put every
newline as `CR LF` and the other characters as they are. These are all runs in which they do. -/
theorem expanded_iff {high : UInt8 → Bool} {queue : Fin 3 → Queue} {termios : Fin 3 → Termios}
    (ht : ∀ tty, Expands (termios tty)) (p : P) (es : List (Event P)) (s : State P) :
    (Runs (fun s e s' => s.next high e = some s' ∧ s.Flagged e) (.boot queue termios p) es s →
      s.Expanded) ∧
    (Runs (fun s e s' => s.next high e = some s' ∧ s.Flagged e) (.boot queue termios p) es s ↔
      Runs (fun s e s' => s.next high e = some s' ∧ s'.Expanded) (.boot queue termios p) es s) := by
  refine ⟨fun hrun => (State.runs_expanded ht hrun).1, fun hrun => ?_, fun hrun => ?_⟩
  · induction hrun with
    | nil => exact .nil
    | cons hrun hs ih =>
      have hnext := State.runs_expanded ht (hrun.cons hs)
      exact ih.cons ⟨hs.1, hnext.1⟩
  · induction hrun with
    | nil => exact .nil
    | cons _ hs ih =>
      obtain ⟨hexpanded, htermios⟩ := State.runs_expanded ht ih
      have hflagged := (State.next_expanded (fun tty => htermios ▸ ht tty) hexpanded hs.1).mp hs.2
      exact ih.cons ⟨hs.1, hflagged⟩

/-- The terminals of the example: the second one has room for one more character. -/
def almostFull (tty : Fin 3) : Queue :=
  if tty = 1 then ⟨0, 1022, 0, fun _ => 0, [], [], false, false⟩
  else ⟨0, 0, 0, fun _ => 0, [], [], false, false⟩

/-- Newlines are expanded. -/
def expanding (_ : Fin 3) : Termios := ⟨0, 0o5, 0, fun _ => 0⟩

theorem expands_expanding (tty : Fin 3) : Expands (expanding tty) := by
  constructor
  all_goals
    revert tty
    decide

/-- The queue is full before a newline. While its process has called `schedule`, another one writes
a newline to another terminal. -/
theorem expanded_iff_newline : ∃ es s c c',
    Runs (fun (s : State Bool) e s' => s.next (fun _ => false) e = some s' ∧ s.Flagged e)
      (.boot almostFull expanding false) es s ∧ s.Expanded ∧
      s.call false = some c ∧ c.out = [97, 13, 10] ∧ s.call true = some c' ∧ c'.out = [13, 10] := by
  have hexec : ∃ s, exec (fun (s : State Bool) e => (s.next (fun _ => false) e).filter fun _ =>
    s.Flagged e)
      (.boot almostFull expanding false) ([.enter 1 (fun i => if i = 0 then 97 else 10) 2, .run,
        .run, .run, .run, .run, .switch true, .enter 2 (fun _ => 10) 1, .run, .run, .run, .run,
        .run, .run, .run, .device 1 (almostFull 0), .switch false, .run, .run, .run, .run, .run] :
        List (Event Bool)) = some s ∧
        (s.call false).map Call.out = some [97, 13, 10] ∧
        (s.call true).map Call.out = some [13, 10] := ⟨_, rfl, rfl, rfl⟩
  obtain ⟨s, hs, hcall, hcall'⟩ := hexec
  obtain ⟨c, hc, hout⟩ := Option.map_eq_some_iff.mp hcall
  obtain ⟨c', hc', hout'⟩ := Option.map_eq_some_iff.mp hcall'
  have hrun := runs_of_exec_guarded hs
  have hexpanded := (expanded_iff expands_expanding false _ s).1 hrun
  exact ⟨_, s, c, c', hrun, hexpanded, hc, hout, hc', hout'⟩

/-- A newline fills the queue with its carriage return. While its process has called `schedule`,
another one writes to another terminal, and the carriage return is sent once more. -/
theorem not_expanded : ∃ es s c,
    Runs (fun (s : State Bool) e s' => s.next (fun _ => false) e = some s')
      (.boot almostFull expanding false) es s ∧
      s.call false = some c ∧ c.accepted = [10] ∧ c.out = [13, 13, 10] := by
  have hexec : ∃ s, exec (fun (s : State Bool) e => s.next (fun _ => false) e)
      (.boot almostFull expanding false) ([.enter 1 (fun _ => 10) 1, .run, .run, .run, .run, .run,
        .switch true, .enter 2 (fun _ => 98) 1, .run, .run, .run, .run, .run, .run,
        .device 1 (almostFull 0), .switch false, .run, .run, .run, .run, .run] :
          List (Event Bool)) =
        some s ∧ (s.call false).map (fun c => (c.accepted, c.out)) = some ([10], [13, 13, 10]) :=
    ⟨_, rfl, rfl⟩
  obtain ⟨s, hs, hcall⟩ := hexec
  obtain ⟨c, hc, heq⟩ := Option.map_eq_some_iff.mp hcall
  obtain ⟨h₁, h₂⟩ := Prod.mk.inj heq
  exact ⟨_, s, c, runs_of_exec hs, hc, h₁, h₂⟩

end Write

end Linux001.Tty
