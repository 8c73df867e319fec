import Linux001.Lib.Ring
import Linux001.Lib.Sizes

/-!
# Queues of a terminal

`struct tty_queue` with the macros of `tty.h`. The indices run modulo `TTY_BUF_SIZE`, and the macros
do not check whether a queue is full or empty. Four fields record the past: the characters that have
been put and taken, and whether a character has been put into a full queue or taken from an empty
one.

## Main definitions

* `Queue`, `Queue.getch`, `Queue.putch`: the queues.
* `Queue.content`: the characters in a queue.
* `Queue.Fifo`: what has been put is what has been taken and what is in the queue.

## Main results

* `Queue.Fifo.putch`, `Queue.Fifo.getch`: putting and taking characters.
-/

namespace Linux001.Tty

/-- `struct tty_queue`. `buf` is used up to `TTY_BUF_SIZE`. -/
structure Queue where
  /-- The number of lines in the queue. -/
  data : ℕ
  head : Fin 1024
  tail : Fin 1024
  buf : ℕ → UInt8
  /-- The characters that have been put, most recent first. -/
  put : List UInt8
  /-- The characters that have been taken, most recent first. -/
  taken : List UInt8
  overrun : Bool
  underrun : Bool

namespace Queue

variable (q : Queue)

/-- `EMPTY`. -/
def empty : Bool := q.head = q.tail

/-- `LEFT`. -/
def left : ℕ := (q.tail - q.head - 1).val

/-- `FULL`. -/
def full : Bool := q.left = 0

/-- `CHARS`. -/
def chars : ℕ := (q.head - q.tail).val

/-- `LAST`. -/
def last : UInt8 := q.buf (q.head - 1).val

/-- `GETCH`: the character, and the queue after it. -/
def getch : UInt8 × Queue :=
  (q.buf q.tail, { q with
    tail := q.tail + 1
    taken := q.buf q.tail :: q.taken
    underrun := q.underrun || q.empty })

/-- `PUTCH`. -/
def putch (c : UInt8) : Queue :=
  { q with
    buf := Function.update q.buf q.head c
    head := q.head + 1
    put := c :: q.put
    overrun := q.overrun || q.full }

/-- Several characters are put into the queue. -/
def putAll (l : List UInt8) (q : Queue) : Queue := l.foldl putch q

/-- `DEC(head)`: the last character is given up. -/
def unput : Queue := { q with head := q.head - 1, put := q.put.tail }

/-- The characters in the queue, oldest first. -/
def content : List UInt8 := ringList 1024 q.buf q.head q.tail

/-- What has been put is what has been taken and what is in the queue, and the queue has neither
been overrun nor underrun. -/
structure Fifo : Prop where
  overrun : q.overrun = false
  underrun : q.underrun = false
  put : q.put.reverse = q.taken.reverse ++ q.content

variable {q}

theorem chars_eq : q.chars = ringSize 1024 q.head q.tail := by
  unfold chars ringSize
  rw [Fin.val_sub]
  congr 1
  omega

theorem length_content : q.content.length = q.chars := by
  rw [content, ringList, List.length_map, List.length_range, chars_eq]

theorem left_eq : q.left = 1023 - q.chars := by
  unfold left chars
  rw [Fin.val_sub, Fin.val_sub, Fin.val_sub, show ((1 : Fin 1024) : ℕ) = 1 from rfl]
  omega

theorem chars_le : q.chars ≤ 1023 := Nat.le_of_lt_succ (q.head - q.tail).isLt

theorem empty_iff : q.empty = true ↔ q.content = [] := by
  rw [← List.length_eq_zero_iff, length_content, chars_eq,
    ringSize_eq_zero q.head.isLt q.tail.isLt, empty, decide_eq_true_eq, Fin.ext_iff]

theorem full_iff : q.full = true ↔ q.chars = 1023 := by
  have := q.chars_le
  rw [full, left_eq, decide_eq_true_eq]
  omega

theorem content_putch (h : q.full = false) (c : UInt8) :
    (q.putch c).content = q.content ++ [c] := by
  have hfull : ringSize 1024 q.head q.tail ≠ 1024 - 1 := by
    rw [← chars_eq]
    exact fun h' => Bool.false_ne_true (h.symm.trans (full_iff.mpr h'))
  rw [content, content, ← ringList_push q.head.isLt q.tail.isLt hfull]
  rfl

theorem not_full (h : q.chars < 1023) : q.full = false :=
  Bool.eq_false_iff.mpr fun hfull => h.ne (full_iff.mp hfull)

theorem chars_putch (h : q.full = false) (c : UInt8) : (q.putch c).chars = q.chars + 1 := by
  rw [← length_content, content_putch h, List.length_append, length_content]
  rfl

/-- A character that is put into a full queue makes it look empty. -/
theorem content_putch_full (h : q.full = true) (c : UInt8) : (q.putch c).content = [] := by
  have hchars : (q.head - q.tail).val = 1023 := full_iff.mp h
  have hempty : q.head + 1 = q.tail := by
    rw [Fin.sub_def, Fin.ext_iff] at *
    have hhead := q.head.isLt
    have htail := q.tail.isLt
    simp only [Fin.val_add, Fin.val_one] at *
    omega
  exact empty_iff.mp (decide_eq_true hempty)

theorem content_getch (h : q.empty = false) : q.content = q.getch.1 :: q.getch.2.content := by
  have hne : q.head.val ≠ q.tail.val := by
    simpa [empty, Fin.ext_iff] using h
  rw [content, ringList_pop q.head.isLt q.tail.isLt hne]
  rfl

theorem chars_getch (h : q.empty = false) : q.chars = q.getch.2.chars + 1 := by
  rw [← length_content, content_getch h, List.length_cons, length_content]

theorem empty_of_cons {c : UInt8} {l : List UInt8} (h : q.content = c :: l) : q.empty = false := by
  refine Bool.eq_false_iff.mpr fun hempty => ?_
  rw [empty_iff.mp hempty] at h
  exact List.cons_ne_nil c l h.symm

/-- The first character is taken. -/
theorem getch_cons {c : UInt8} {l : List UInt8} (h : q.content = c :: l) :
    q.getch.1 = c ∧ q.getch.2.content = l := by
  rw [content_getch (empty_of_cons h)] at h
  exact List.cons.inj h

theorem content_putAll {l : List UInt8} {q : Queue} (h : q.chars + l.length ≤ 1023) :
    (q.putAll l).content = q.content ++ l := by
  induction l generalizing q with
  | nil => exact (List.append_nil _).symm
  | cons c l ih =>
    rw [List.length_cons] at h
    have hfull : q.full = false := not_full (by omega)
    have hcontent := content_putch hfull c
    have hchars := chars_putch hfull c
    have ih := ih (q := q.putch c) (by omega)
    rwa [hcontent, List.append_assoc] at ih

theorem chars_putAll {l : List UInt8} {q : Queue} (h : q.chars + l.length ≤ 1023) :
    (q.putAll l).chars = q.chars + l.length := by
  rw [← length_content, content_putAll h, List.length_append, length_content]

theorem put_putAll (l : List UInt8) (q : Queue) : q.put <:+ (q.putAll l).put := by
  induction l generalizing q with
  | nil => exact List.suffix_refl _
  | cons c l ih => exact (List.suffix_cons c q.put).trans (ih (q.putch c))

theorem empty_iff_chars : q.empty = true ↔ q.chars = 0 := by
  rw [empty_iff, ← length_content, List.length_eq_zero_iff]

theorem not_empty (h : 0 < q.chars) : q.empty = false :=
  Bool.eq_false_iff.mpr fun hempty => h.ne' (empty_iff_chars.mp hempty)

theorem chars_unput (h : q.empty = false) : q.chars = q.unput.chars + 1 := by
  have hne : q.chars ≠ 0 := fun hchars =>
    Bool.false_ne_true (h.symm.trans (empty_iff_chars.mpr hchars))
  unfold chars at *
  rw [Fin.sub_def] at *
  have hhead := q.head.isLt
  have htail := q.tail.isLt
  simp only [unput, Fin.sub_def, Fin.val_one] at *
  omega

/-- Giving up the last character undoes `PUTCH`. -/
theorem content_unput (h : q.empty = false) : q.content = q.unput.content ++ [q.last] := by
  have hfull : q.unput.full = false := by
    have hchars := chars_unput h
    have hle := q.chars_le
    exact not_full (by omega)
  rw [← content_putch hfull q.last, content, content]
  have hhead : q.unput.head + 1 = q.head := by
    have hlt := q.head.isLt
    simp only [unput, Fin.ext_iff, Fin.val_add, Fin.sub_def, Fin.val_one]
    omega
  have hbuf : Function.update q.buf (q.head - 1).val q.last = q.buf := Function.update_eq_self ..
  have heq : (q.unput.putch q.last).buf = q.buf := hbuf
  have hhead' : (q.unput.putch q.last).head = q.head := hhead
  rw [heq, hhead']
  rfl

namespace Fifo

theorem putch (h : Fifo q) (hfull : q.full = false) (c : UInt8) : Fifo (q.putch c) where
  overrun := by
    rw [Queue.putch, h.overrun, hfull]
    rfl
  underrun := h.underrun
  put := by
    have hput : (q.putch c).put.reverse = q.put.reverse ++ [c] := List.reverse_cons
    rw [hput, h.put, content_putch hfull, List.append_assoc]
    rfl

theorem getch (h : Fifo q) (hempty : q.empty = false) : Fifo q.getch.2 where
  overrun := h.overrun
  underrun := by
    rw [Queue.getch, h.underrun, hempty]
    rfl
  put := by
    have hput : q.getch.2.put = q.put := rfl
    have htaken : q.getch.2.taken.reverse = q.taken.reverse ++ [q.getch.1] := List.reverse_cons
    rw [hput, h.put, htaken, content_getch hempty, List.append_assoc]
    rfl

theorem putAll {l : List UInt8} (h : Fifo q) (hl : q.chars + l.length ≤ 1023) :
    Fifo (q.putAll l) := by
  induction l generalizing q with
  | nil => exact h
  | cons c l ih =>
    rw [List.length_cons] at hl
    have hfull : q.full = false := not_full (by omega)
    have hchars := chars_putch hfull c
    exact ih (h.putch hfull c) (by omega)

theorem unput (h : Fifo q) (hempty : q.empty = false) : Fifo q.unput where
  overrun := h.overrun
  underrun := h.underrun
  put := by
    have hput : q.unput.put.reverse = q.put.reverse.dropLast := List.dropLast_reverse.symm
    have htaken : q.unput.taken = q.taken := rfl
    rw [hput, h.put, content_unput hempty, ← List.append_assoc, List.dropLast_concat, htaken]

theorem setData (h : Fifo q) (data : ℕ) : Fifo { q with data := data } :=
  ⟨h.overrun, h.underrun, h.put⟩

theorem length_put (h : Fifo q) : q.taken.length + q.chars = q.put.length := by
  have hlength := congrArg List.length h.put
  rw [List.length_append, List.length_reverse, List.length_reverse, length_content] at hlength
  exact hlength.symm

/-- All characters have been taken, each once and in order, when the queue is empty. -/
theorem taken_eq (h : Fifo q) (hempty : q.empty = true) : q.taken = q.put := by
  have hput := h.put
  rw [empty_iff.mp hempty, List.append_nil] at hput
  exact (List.reverse_injective hput).symm

end Fifo

end Queue

end Linux001.Tty
