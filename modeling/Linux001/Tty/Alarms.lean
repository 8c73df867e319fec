import Linux001.Tty.Read
import Linux001.Lib.Runs

/-!
# The alarm of a process that reads

`tty_read` uses the alarm of the process for its own time limit, and sets it back where its outer
loop ends. The end of a file is another way out of the call: there the time limit remains set. And
when the time limit is set, any `SIGALRM` that is pending is taken for the one of the time limit,
and cleared.

The state of one process is followed through its calls of `tty_read` on the three terminals. Beside
it goes what the alarm was when the last call began, whether that alarm has run out, and which
signals have been raised by anything but the time limit.

## Main definitions

* `State`, `State.next`: the process, the terminals, and what can happen.
* `Kept`: what a call owes to the process when it returns.
* `Sound`: the next step of the call does not go wrong.

## Main results

* `fair_step`, `inv_step`: what a step preserves.
* `kept_of_sound`: the calls keep what they owe in the runs whose steps are sound.
* `not_kept_eof`: a call that leaves its time limit behind.
-/

namespace Linux001.Tty.Read

/-! ### The process -/

/-- A process and the terminals. -/
structure State where
  termios : Fin 3 → Termios
  /-- The secondary queues. -/
  queue : Fin 3 → Queue
  jiffies : Word
  /-- `current->signal`. -/
  signal : Word
  /-- `current->alarm`. -/
  alarm : Word
  /-- The call of the process, or the last one if it has only just returned. -/
  call : Option (Fin 3 × Call)
  /-- The alarm when the call began. -/
  atCall : Word
  /-- The signals that were pending then, or have been raised since by anything but the time
  limit. -/
  others : Word
  /-- The alarm from before the call has run out. -/
  expired : Bool

inductive Event
  /-- The process calls `tty_read(channel, buf, nr)`. -/
  | enter (channel : ℕ) (nr : ℤ)
  /-- The call goes on. -/
  | run
  /-- `copy_to_cooked`, or a call of another process. -/
  | device (tty : Fin 3) (q : Queue)
  | setTermios (tty : Fin 3) (t : Termios)
  | tick (jiffies : Word)
  /-- Another process or an interrupt sends signals. -/
  | raise (w : Word)
  /-- While the process sleeps, `schedule` looks at its alarm. -/
  | schedule
  /-- The process does something else after the call has returned. -/
  | user (signal alarm : Word)

namespace State

variable (s : State)

/-- The process is in the call. -/
def active : Bool :=
  match s.call with
  | some (_, c) => match c.point with
    | .done _ => false
    | _ => true
  | none => false

/-- What the call `c` on the terminal `i` works on. -/
def view (i : Fin 3) (c : Call) : View := ⟨s.signal, s.alarm, c, s.queue i⟩

/-- The call on the terminal `i` has come so far. -/
def put (i : Fin 3) (v : View) : State :=
  { s with
    signal := v.signal
    alarm := v.alarm
    call := some (i, v.call)
    queue := Function.update s.queue i v.queue }

/-- A call that is refused. -/
def refused : Call := ⟨0, 0, 0, false, 0, [], .done (-1)⟩

/-- A call begins. -/
def begin : State :=
  { s with
    atCall := s.alarm
    others := s.signal
    expired := false }

/-- `tty_read(channel, buf, nr)` up to its outer loop. -/
def enter (channel : ℕ) (nr : ℤ) : State :=
  if h : channel < 3 ∧ 0 ≤ nr then
    let i : Fin 3 := ⟨channel, h.1⟩
    s.begin.put i (View.enter (s.termios i) s.jiffies s.signal s.alarm (s.queue i) nr.toNat)
  else { s.begin with call := some (0, refused) }

/-- What `schedule` does with the alarm of the process, which is its own or the time limit. -/
def schedule (flag : Bool) : State :=
  if s.alarm ≠ 0 ∧ s.alarm.slt s.jiffies then
    let s := { s with
      signal := s.signal ||| ALRMMASK
      alarm := 0 }
    if flag then s
    else
      { s with
        others := s.others ||| ALRMMASK
        expired := true }
  else s

def next : Event → Option State
  | .enter channel nr => if s.active then none else some (s.enter channel nr)
  | .run =>
    match s.call with
    | some (i, c) => ((s.view i c).step (s.termios i) s.jiffies).map (s.put i)
    | none => none
  | .device tty q => some { s with queue := Function.update s.queue tty q }
  | .setTermios tty t => some { s with termios := Function.update s.termios tty t }
  | .tick jiffies => some { s with jiffies := jiffies }
  | .raise w =>
    some { s with
      signal := s.signal ||| w
      others := s.others ||| w }
  | .schedule =>
    match s.call with
    | some (_, c) => if c.point = .sleeping then some (s.schedule c.flag) else none
    | none => none
  | .user signal alarm =>
    if s.active then none
    else some { s with
      signal := signal
      alarm := alarm
      call := none }

end State

/-! ### What a call owes -/

/-- The call has returned: the alarm is the one from before unless that has run out, and no signal
has been lost but the one of the time limit. -/
structure Kept (s : State) : Prop where
  alarm : s.alarm = s.atCall ∨ s.expired = true
  signal : s.others &&& ~~~s.signal = 0

/-- With the time limit set, the next step does not clear a `SIGALRM` of another origin, and does
not take the end of a file. -/
def Sound (s : State) : Prop :=
  ∀ i c, s.call = some (i, c) → c.flag = true →
    (c.point = .head → c.nr ≠ 0 → s.others &&& ALRMMASK = 0) ∧
    ((s.view i c).reads (s.termios i) = true →
      ¬ ((s.termios i).ICANON = true ∧ isChar (s.queue i).getch.1 (s.termios i).eofChar = true))

/-- What holds of a call at every point. -/
structure Owes (atCall others : Word) (expired : Bool) (v : View) : Prop where
  oldalarm : v.call.oldalarm = atCall
  alarm : v.call.flag = false → v.alarm = atCall ∨ expired = true
  signal : others &&& ~~~v.signal = 0

/-- What holds of a call that has returned. -/
def Paid (atCall others : Word) (expired : Bool) (v : View) : Prop :=
  (v.alarm = atCall ∨ expired = true) ∧ others &&& ~~~v.signal = 0

/-- What holds of a call. -/
def Fair (atCall others : Word) (expired : Bool) (v : View) : Prop :=
  match v.call.point with
  | .done _ => Paid atCall others expired v
  | _ => Owes atCall others expired v

section Steps

variable {t : Termios} {jiffies atCall others : Word} {expired : Bool} {v v' : View}

theorem Owes.finish (h : Owes atCall others expired v) : Fair atCall others expired v.finish :=
  ⟨Or.inl h.oldalarm, h.signal⟩

theorem Owes.goto (h : Owes atCall others expired v) {p : Point} (hp : ∀ n, p ≠ .done n) :
    Fair atCall others expired (v.goto p) := by
  have howes : Owes atCall others expired (v.goto p) := ⟨h.oldalarm, h.alarm, h.signal⟩
  cases p with
  | done n => exact absurd rfl (hp n)
  | head => exact howes
  | sleeping => exact howes
  | draining => exact howes

theorem Owes.limit (h : Owes atCall others expired v) :
    Owes atCall others expired (v.limit t jiffies) := by
  unfold View.limit
  split_ifs
  · exact ⟨h.oldalarm, fun hflag => Bool.noConfusion hflag, h.signal⟩
  · exact ⟨h.oldalarm, fun _ => Or.inl h.oldalarm, h.signal⟩
  · exact h

theorem Owes.after (h : Owes atCall others expired v) :
    Fair atCall others expired (v.after t jiffies) := by
  have hlimit : Owes atCall others expired (v.limit t jiffies) := h.limit
  unfold View.after View.leave
  split_ifs
  · exact hlimit.finish
  · exact hlimit.goto fun _ h => nomatch h
  · exact hlimit.finish
  · exact hlimit.goto fun _ h => nomatch h

theorem Owes.drain (h : Owes atCall others expired v) (heof : v.call.flag = true →
    ¬ (t.ICANON = true ∧ isChar v.queue.getch.1 t.eofChar = true)) :
    Fair atCall others expired (v.drain t jiffies) := by
  unfold View.drain
  dsimp only
  split_ifs with hend
  · -- The time limit is not set.
    have hflag : v.call.flag = false := Bool.eq_false_iff.mpr fun hflag =>
      heof hflag ⟨hend.2, hend.1⟩
    exact ⟨h.alarm hflag, h.signal⟩
  · exact Owes.after ⟨h.oldalarm, h.alarm, h.signal⟩
  · refine Owes.goto (v := { v with
      queue := (take t v.queue).2
      call := { v.call with
        out := v.call.out ++ [(take t v.queue).1]
        nr := v.call.nr - 1 } }) ⟨h.oldalarm, h.alarm, h.signal⟩ fun _ h => nomatch h

/-- Clearing `SIGALRM` loses nothing that is owed. -/
theorem Owes.clear (h : Owes atCall others expired v) (hothers : others &&& ALRMMASK = 0) :
    Owes atCall others expired { v with signal := v.signal &&& ~~~ALRMMASK } := by
  refine ⟨h.oldalarm, h.alarm, ?_⟩
  have hsignal := h.signal
  have hlost : others &&& ~~~(v.signal &&& ~~~ALRMMASK) =
      (others &&& ~~~v.signal) ||| (others &&& ALRMMASK) := by
    rw [BitVec.not_and, BitVec.not_not, BitVec.and_or_distrib_left]
  rw [hlost, hsignal, hothers]
  exact BitVec.or_self

theorem Owes.head (h : Owes atCall others expired v) (hpoint : v.call.point = .head)
    (hclear : v.call.flag = true → v.call.nr ≠ 0 → others &&& ALRMMASK = 0)
    (heof : v.call.flag = true → v.reads t = true →
      ¬ (t.ICANON = true ∧ isChar v.queue.getch.1 t.eofChar = true)) :
    Fair atCall others expired (v.head t jiffies) := by
  unfold View.head
  split_ifs with hnr halarmed hsignal hwaits
  · exact h.finish
  · exact (h.clear (hclear (of_decide_eq_true halarmed).1 hnr)).finish
  · exact h.finish
  · exact h.goto fun _ h => nomatch h
  · unfold Fair
    rw [hpoint]
    exact h
  · refine h.drain fun hflag => heof hflag ?_
    unfold View.reads
    rw [hpoint]
    exact decide_eq_true ⟨hnr, not_not.mp hsignal, Bool.eq_false_iff.mpr hwaits⟩

/-- A step of a call that does not go wrong. -/
theorem fair_step (h : Fair atCall others expired v) (hstep : v.step t jiffies = some v')
    (hsound : v.call.flag = true → (v.call.point = .head → v.call.nr ≠ 0 →
      others &&& ALRMMASK = 0) ∧
      (v.reads t = true → ¬ (t.ICANON = true ∧ isChar v.queue.getch.1 t.eofChar = true))) :
    Fair atCall others expired v' := by
  unfold View.step at hstep
  unfold Fair at h
  split at hstep
  · rename_i hpoint
    rw [hpoint] at h
    obtain rfl := Option.some.inj hstep
    exact Owes.head h hpoint (fun hflag => (hsound hflag).1 hpoint) fun hflag => (hsound hflag).2
  · rename_i hpoint
    rw [hpoint] at h
    obtain rfl := Option.some.inj hstep
    split_ifs
    · unfold Fair
      rw [hpoint]
      exact h
    · exact Owes.goto h fun _ h => nomatch h
  · rename_i hpoint
    rw [hpoint] at h
    obtain rfl := Option.some.inj hstep
    split_ifs with hempty
    · exact Owes.after h
    · refine Owes.drain h fun hflag => (hsound hflag).2 ?_
      unfold View.reads
      rw [hpoint]
      exact decide_eq_true (Bool.eq_false_iff.mpr hempty)
  · cases hstep

theorem fair_enter (signal alarm : Word) (q : Queue) (nr : ℕ) :
    Fair alarm signal false (View.enter t jiffies signal alarm q nr) := by
  have hsignal : signal &&& ~~~signal = 0 := BitVec.and_not_self signal
  unfold View.enter
  dsimp only
  split_ifs
  · exact ⟨rfl, fun hflag => Bool.noConfusion hflag, hsignal⟩
  · exact ⟨rfl, fun _ => Or.inl rfl, hsignal⟩
  · exact ⟨rfl, fun _ => Or.inl rfl, hsignal⟩

end Steps

/-! ### Runs -/

/-- The invariant. -/
def State.Inv (s : State) : Prop :=
  ∀ i c, s.call = some (i, c) → Fair s.atCall s.others s.expired (s.view i c)

theorem view_put (s : State) (i : Fin 3) (v : View) : (s.put i v).view i v.call = v := by
  unfold State.put State.view
  dsimp only
  rw [Function.update_self]

/-- Signals that are raised are pending. -/
theorem pending_eq {others signal : Word} (h : others &&& ~~~signal = 0) (w : Word) :
    others &&& ~~~(signal ||| w) = 0 := by
  rw [BitVec.not_or, ← BitVec.and_assoc, h]
  exact BitVec.zero_and

/-- They are owed then. -/
theorem raised_eq {others signal : Word} (h : others &&& ~~~signal = 0) (w : Word) :
    (others ||| w) &&& ~~~(signal ||| w) = 0 := by
  have hw : w &&& ~~~(signal ||| w) = 0 := by
    rw [BitVec.or_comm]
    exact pending_eq (BitVec.and_not_self w) signal
  rw [BitVec.and_or_distrib_right, pending_eq h, hw]
  exact BitVec.or_self

/-- The queue does not matter. -/
theorem Fair.congr {atCall others : Word} {expired : Bool} {v v' : View}
    (h : Fair atCall others expired v) (hcall : v'.call = v.call) (halarm : v'.alarm = v.alarm)
    (hsignal : v'.signal = v.signal) : Fair atCall others expired v' := by
  unfold Fair at h ⊢
  rw [hcall]
  split at h
  · exact ⟨halarm ▸ h.1, hsignal ▸ h.2⟩
  · exact ⟨hcall ▸ h.oldalarm, fun hflag => halarm ▸ h.alarm (hcall ▸ hflag), hsignal ▸ h.signal⟩

theorem inv_run {s s' : State} (h : s.Inv) (hs : s.next .run = some s') (hsound : Sound s) :
    s'.Inv := by
  unfold State.next at hs
  dsimp only at hs
  split at hs
  · rename_i i c hcall
    obtain ⟨v', hstep, rfl⟩ := Option.map_eq_some_iff.mp hs
    intro i' c' hcall'
    obtain ⟨rfl, rfl⟩ := Prod.mk.inj (Option.some.inj hcall')
    rw [view_put]
    exact fair_step (h i c hcall) hstep (hsound i c hcall)
  · cases hs

theorem inv_enter {s : State} (channel : ℕ) (nr : ℤ) : (s.enter channel nr).Inv := by
  unfold State.enter
  split_ifs with hchannel
  · intro i c hcall
    obtain ⟨rfl, rfl⟩ := Prod.mk.inj (Option.some.inj hcall)
    rw [view_put]
    exact fair_enter ..
  · intro i c hcall
    obtain ⟨rfl, rfl⟩ := Prod.mk.inj (Option.some.inj hcall)
    exact ⟨Or.inl rfl, BitVec.and_not_self s.signal⟩

/-- `schedule` raises `SIGALRM` for the time limit, or for the alarm from before. -/
theorem inv_schedule {s : State} (h : s.Inv) {i : Fin 3} {c : Call} (hcall : s.call = some (i, c))
    (hpoint : c.point = .sleeping) : (s.schedule c.flag).Inv := by
  have howes : Owes s.atCall s.others s.expired (s.view i c) := by
    have hfair := h i c hcall
    unfold Fair at hfair
    rwa [show (s.view i c).call.point = .sleeping from hpoint] at hfair
  have hfair {v : View} {others : Word} {expired : Bool} (hv : v.call = c)
      (howes : Owes s.atCall others expired v) : Fair s.atCall others expired v := by
    unfold Fair
    rw [hv, hpoint]
    exact howes
  unfold State.schedule
  split_ifs with hexpired hflag
  · intro i' c' hcall'
    obtain ⟨rfl, rfl⟩ := Prod.mk.inj (Option.some.inj (hcall.symm.trans hcall'))
    exact hfair rfl ⟨howes.oldalarm, fun hnot => absurd (hflag.symm.trans hnot) Bool.noConfusion,
      pending_eq howes.signal ALRMMASK⟩
  · intro i' c' hcall'
    obtain ⟨rfl, rfl⟩ := Prod.mk.inj (Option.some.inj (hcall.symm.trans hcall'))
    exact hfair rfl ⟨howes.oldalarm, fun _ => Or.inr rfl, raised_eq howes.signal ALRMMASK⟩
  · exact h

/-- A step of the process, or of what goes on beside it. -/
theorem inv_step {s s' : State} {e : Event} (h : s.Inv) (hs : s.next e = some s')
    (hsound : e = .run → Sound s) : s'.Inv := by
  cases e with
  | enter channel nr =>
    obtain ⟨-, hs⟩ := Option.ite_none_left_eq_some.mp hs
    obtain rfl := Option.some.inj hs
    exact inv_enter channel nr
  | run => exact inv_run h hs (hsound rfl)
  | device tty q =>
    obtain rfl := Option.some.inj hs
    exact fun i c hcall => (h i c hcall).congr rfl rfl rfl
  | setTermios tty t | tick jiffies =>
    obtain rfl := Option.some.inj hs
    exact fun i c hcall => h i c hcall
  | raise w =>
    obtain rfl := Option.some.inj hs
    intro i c hcall
    have hfair := h i c hcall
    unfold Fair at hfair ⊢
    dsimp only [State.view] at hfair ⊢
    split at hfair
    · exact ⟨hfair.1, raised_eq hfair.2 w⟩
    · exact ⟨hfair.oldalarm, hfair.alarm, raised_eq hfair.signal w⟩
  | schedule =>
    unfold State.next at hs
    dsimp only at hs
    split at hs
    · rename_i i c hcall
      obtain ⟨hpoint, hs⟩ := Option.ite_none_right_eq_some.mp hs
      obtain rfl := Option.some.inj hs
      exact inv_schedule h hcall hpoint
    · cases hs
  | user signal alarm =>
    obtain ⟨-, hs⟩ := Option.ite_none_left_eq_some.mp hs
    obtain rfl := Option.some.inj hs
    exact fun i c hcall => nomatch hcall

/-! ### The calls -/

/-- A character is typed on terminal 0, which is in canonical mode with a time limit. -/
def limited (ch : UInt8) : State where
  termios _ := ⟨0, 0, 2, fun k => if k = 4 then 4 else if k = 5 then 1 else 0⟩
  queue _ := ⟨1, 1, 0, fun _ => ch, [ch], [], false, false⟩
  jiffies := 100
  signal := 0
  alarm := 0
  call := none
  atCall := 0
  others := 0
  expired := false

/-- **The alarm after a call.** In every run whose steps are sound, a call that has returned has
kept what it owes: for every setting of the terminals, every request, and whatever arrives and
happens meanwhile. -/
theorem kept_of_sound {s₀ s : State} {es : List Event} {i : Fin 3} {c : Call} {n : ℤ}
    (hidle : s₀.call = none)
    (h : Runs (fun s e s' => s.next e = some s' ∧ (e = .run → Sound s)) s₀ es s)
    (hcall : s.call = some (i, c)) (hdone : c.point = .done n) : Kept s := by
  have hinv : s.Inv := h.invariant (I := State.Inv) (fun _ _ _ hI hs => inv_step hI hs.1 hs.2)
    fun i c hcall => nomatch hidle.symm.trans hcall
  have hfair := hinv i c hcall
  unfold Fair at hfair
  rw [show (s.view i c).call.point = .done n from hdone] at hfair
  exact ⟨hfair.1, hfair.2⟩

/-- A call that takes the end of a line. -/
theorem sound_line : Sound ((limited 10).enter 0 1) := by
  intro i c hcall _
  obtain ⟨rfl, rfl⟩ := Prod.mk.inj (Option.some.inj hcall)
  exact ⟨fun _ _ => rfl, fun _ heof => absurd heof.2 (by decide)⟩

theorem kept_of_sound_line : ∃ s c, exec State.next (limited 10) [.enter 0 1, .run] = some s ∧
    s.call = some (0, c) ∧ c.point = .done 1 ∧ Kept s :=
  have hrun : Runs (fun s e s' => State.next s e = some s' ∧ (e = .run → Sound s)) (limited 10)
      [.enter 0 1] ((limited 10).enter 0 1) := Runs.nil.cons ⟨rfl, nofun⟩
  ⟨_, _, rfl, rfl, rfl, kept_of_sound rfl (hrun.cons (e := .run) ⟨rfl, fun _ => sound_line⟩) rfl
    rfl⟩

theorem run_limited_eof : ∃ s c, exec State.next (limited 4) [.enter 0 1, .run] = some s ∧
    s.call = some (0, c) ∧ c.point = .done 0 ∧ s.alarm = 110 ∧ s.atCall = 0 ∧ s.expired = false :=
  ⟨_, _, rfl, rfl, rfl, rfl, rfl, rfl⟩

/-- **The end of a file leaves the time limit set**: the process has no alarm, and it gets `SIGALRM`
after it has read nothing. -/
theorem not_kept_eof : ¬ ∀ (s₀ s : State) (es : List Event) (i : Fin 3) (c : Call) (n : ℤ),
    s₀.call = none → Runs (fun s e s' => State.next s e = some s') s₀ es s → s.call = some (i, c) →
      c.point = .done n → Kept s := by
  intro h
  obtain ⟨s, c, hexec, hcall, hdone, halarm, hatCall, hexpired⟩ := run_limited_eof
  rcases (h (limited 4) s _ 0 c 0 rfl (runs_of_exec hexec) hcall hdone).alarm with hkept | hkept
  · rw [halarm, hatCall] at hkept
    exact absurd hkept (by decide)
  · exact Bool.false_ne_true (hexpired.symm.trans hkept)

end Linux001.Tty.Read
