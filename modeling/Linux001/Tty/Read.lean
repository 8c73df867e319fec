import Linux001.Tty.Cooked
import Mathlib.Data.BitVec
import Mathlib.Tactic.Cases

/-!
# Reading from a terminal

The model of `tty_read`. A call goes on step by step: a round of its inner loop takes one character,
with the test that the queue is not empty, and the end of a round of its outer loop belongs to the
last character. Between the steps there may be interrupts, and where the process sleeps everything
else.

The alarm of the process is borrowed for a time limit: `flag` says that `current->alarm` has been
set to it.

## Main definitions

* `Call`, `View`: a call, and what it works on.
* `View.enter`, `View.step`: the beginning of a call, and its next step.
* `take`: a character is taken from the secondary queue.

## Main results

* `queue_step`: a step leaves the queue as it is, or takes a character.
-/

namespace Linux001.Tty

namespace Termios

variable (t : Termios)

/-- `c_cc[VTIME]`. -/
def vtime : UInt8 := t.cc 5

/-- `c_cc[VMIN]`. -/
def vmin : UInt8 := t.cc 6

end Termios

namespace Read

/-- A `long`. -/
abbrev Word := BitVec 32

/-- `1<<(SIGALRM-1)`. -/
def ALRMMASK : Word := 1 <<< 13

def EINTR : ℤ := 4

/-- The places of `tty_read` between which nothing but interrupts can happen. -/
inductive Point
  /-- The head of the outer loop. -/
  | head
  /-- In `interruptible_sleep_on`. -/
  | sleeping
  /-- The test of the inner loop. -/
  | draining
  /-- The call has returned the value. -/
  | done (value : ℤ)
  deriving DecidableEq

/-- A call of `tty_read`. -/
structure Call where
  oldalarm : Word
  time : Word
  minimum : ℕ
  flag : Bool
  /-- The number of characters that are still wanted. -/
  nr : ℕ
  /-- The characters that have been passed on, in order: there are `b - buf` of them. -/
  out : List UInt8
  point : Point

/-- What a call works on: `current->signal`, `current->alarm`, and the secondary queue. -/
structure View where
  signal : Word
  alarm : Word
  call : Call
  queue : Queue

/-- A character is taken from the secondary queue, and counted if it ends a line. -/
def take (t : Termios) (q : Queue) : UInt8 × Queue :=
  let (c, q) := q.getch
  (c, if isChar c t.eofChar ∨ c = 10 then { q with data := (q.data + 4294967295) % 4294967296 } else
    q)

/-- The time limit comes before the alarm of the process. -/
def earlier (time jiffies oldalarm : Word) : Bool :=
  oldalarm = 0 ∨ (time + jiffies).slt oldalarm

namespace View

variable (t : Termios) (jiffies : Word) (v : View)

/-- The call goes on at the point. -/
def goto (p : Point) : View := { v with call := { v.call with point := p } }

/-- The time limit is set. -/
def arm : View :=
  { v with
    alarm := v.call.time + jiffies
    call := { v.call with flag := true } }

/-- The call begins, with room for `nr` characters. -/
def enter (signal alarm : Word) (queue : Queue) (nr : ℕ) : View :=
  let time : Word := 10 * t.vtime.toBitVec.setWidth 32
  let minimum := t.vmin.toNat
  let call (minimum : ℕ) : Call := ⟨alarm, time, min minimum nr, false, nr, [], .head⟩
  if time ≠ 0 ∧ minimum = 0 then
    let v : View := ⟨signal, alarm, call 1, queue⟩
    if earlier time jiffies alarm then v.arm jiffies else v
  else ⟨signal, alarm, call minimum, queue⟩

/-- The end of the call. -/
def finish : View :=
  { v.goto (.done (if v.signal ≠ 0 ∧ v.call.out = [] then -EINTR else v.call.out.length)) with
    alarm := v.call.oldalarm }

/-- The time limit is set again after the inner loop. -/
def limit : View :=
  if v.call.time ≠ 0 ∧ t.ICANON = false then
    if earlier v.call.time jiffies v.call.oldalarm then v.arm jiffies
    else
      { v with
        alarm := v.call.oldalarm
        call := { v.call with flag := false } }
  else v

/-- The outer loop is left with enough characters. -/
def leave : View :=
  if t.ICANON then if v.call.out ≠ [] then v.finish else v.goto .head
  else if v.call.minimum ≤ v.call.out.length then v.finish else v.goto .head

/-- What follows the inner loop. -/
def after : View := (v.limit t jiffies).leave t

/-- A round of the inner loop. The end of a file makes the call return at once. -/
def drain : View :=
  let (c, q) := take t v.queue
  let v := { v with queue := q }
  if isChar c t.eofChar ∧ t.ICANON then v.goto (.done v.call.out.length)
  else
    let v := { v with call := { v.call with
      out := v.call.out ++ [c]
      nr := v.call.nr - 1 } }
    if v.call.nr = 0 then v.after t jiffies else v.goto .draining

/-- There is nothing to read: the queue is empty, or it does not hold a line and has room for
more. -/
def waits : Bool :=
  v.queue.empty ∨ (t.ICANON ∧ v.queue.data = 0 ∧ 20 < v.queue.left)

/-- The time limit has been reached, as the head of the loop sees it. -/
def alarmed : Bool := v.call.flag ∧ v.signal &&& ALRMMASK ≠ 0

/-- The head of the outer loop. `sleep_if_empty` does not sleep when the queue is not empty. -/
def head : View :=
  if v.call.nr = 0 then v.finish
  else if v.alarmed then { v with signal := v.signal &&& ~~~ALRMMASK }.finish
  else if v.signal ≠ 0 then v.finish
  else if v.waits t then if v.queue.empty then v.goto .sleeping else v
  else v.drain t jiffies

/-- The next step of the call. -/
def step : Option View :=
  match v.call.point with
  | .head => some (v.head t jiffies)
  | .sleeping => some (if v.signal = 0 ∧ v.queue.empty then v else v.goto .head)
  | .draining => some (if v.queue.empty then v.after t jiffies else v.drain t jiffies)
  | .done _ => none

/-- The next step takes a character. -/
def reads : Bool :=
  match v.call.point with
  | .head => v.call.nr ≠ 0 ∧ v.signal = 0 ∧ v.waits t = false
  | .draining => v.queue.empty = false
  | _ => false

end View

/-! ### The queue -/

variable {t : Termios} {jiffies : Word} {v v' : View}

theorem queue_after (v : View) : (v.after t jiffies).queue = v.queue := by
  have hleave (v : View) : (v.leave t).queue = v.queue := by
    unfold View.leave
    split_ifs <;> rfl
  rw [View.after, hleave]
  unfold View.limit
  split_ifs <;> rfl

theorem queue_drain (v : View) : (v.drain t jiffies).queue = (take t v.queue).2 := by
  unfold View.drain
  dsimp only
  split_ifs
  · rfl
  · exact queue_after _
  · rfl

/-- The head of the loop comes to take a character when there is no signal and something to read. -/
theorem head_of_reads (hnr : v.call.nr ≠ 0) (hsignal : v.signal = 0) (hwaits : v.waits t = false) :
    v.head t jiffies = v.drain t jiffies := by
  have halarmed : ¬ v.alarmed = true := fun h => by
    have hbit := (of_decide_eq_true h).2
    rw [hsignal] at hbit
    exact hbit (BitVec.zero_and ..)
  rw [View.head, if_neg hnr, if_neg halarmed, if_neg (not_not.mpr hsignal), hwaits,
    if_neg Bool.false_ne_true]

theorem queue_head_of_not (h : ¬ (v.call.nr ≠ 0 ∧ v.signal = 0 ∧ v.waits t = false)) :
    (v.head t jiffies).queue = v.queue := by
  unfold View.head
  split_ifs with hnr halarmed hsignal hwaits
  · rfl
  · rfl
  · rfl
  · rfl
  · rfl
  · exact absurd ⟨hnr, not_not.mp hsignal, Bool.eq_false_iff.mpr hwaits⟩ h

/-- A step takes a character if and only if it comes to do so. -/
theorem queue_step (h : v.step t jiffies = some v') :
    v'.queue = if v.reads t then (take t v.queue).2 else v.queue := by
  unfold View.step at h
  unfold View.reads
  split at h
  · rename_i hpoint
    obtain rfl := Option.some.inj h
    rw [hpoint]
    dsimp only
    by_cases hreads : v.call.nr ≠ 0 ∧ v.signal = 0 ∧ v.waits t = false
    · rw [head_of_reads hreads.1 hreads.2.1 hreads.2.2, queue_drain, decide_eq_true hreads,
        if_pos rfl]
    · rw [queue_head_of_not hreads, decide_eq_false hreads, if_neg Bool.false_ne_true]
  · rename_i hpoint
    obtain rfl := Option.some.inj h
    rw [hpoint]
    split_ifs <;> first | rfl | contradiction
  · rename_i hpoint
    obtain rfl := Option.some.inj h
    rw [hpoint]
    cases hempty : v.queue.empty with
    | true => exact queue_after v
    | false => exact queue_drain v
  · cases h

/-- What is taken is in the queue. -/
theorem empty_of_reads (h : v.reads t = true) : v.queue.empty = false := by
  unfold View.reads at h
  split at h
  · have hwaits := (of_decide_eq_true h).2.2
    unfold View.waits at hwaits
    exact Bool.eq_false_iff.mpr fun hempty => of_decide_eq_false hwaits (Or.inl hempty)
  · exact of_decide_eq_true h
  · cases h

end Read

end Linux001.Tty
