import Linux001.Tty.Queue
import Linux001.Tty.Console

/-!
# Input processing and the answer to a query

The model of `copy_to_cooked`, of `respond`, and of the loop of `con_write`, which call each other:
the echo of a character calls the `write` function of the terminal, which is `con_write` for the
console, and the answer to the query `ESC Z` is read as if it had been typed, and echoed.

A call runs with a bound on the depth of the calls and on the length of the loop of
`copy_to_cooked`. The model of the screen is a parameter (`Driver`). `_ctype` is read out of its
bounds for negative characters: what is found there is the parameter `high`.

## Main definitions

* `Terminal`: `struct tty_struct` with the screen.
* `Terminal.cook`, `copyToCooked`: `copy_to_cooked`.
* `conWrite`: `con_write`.
-/

namespace Linux001.Tty

/-- `struct termios`, as far as the terminal driver looks at it. -/
structure Termios where
  iflag : UInt32
  oflag : UInt32
  lflag : UInt32
  /-- `c_cc`. -/
  cc : Fin 17 → UInt8

namespace Termios

variable (t : Termios)

/-- The flag `mask` is set in `word`. -/
def flag (word mask : UInt32) : Bool := word &&& mask ≠ 0

def INLCR : Bool := flag t.iflag 0o100
def IGNCR : Bool := flag t.iflag 0o200
def ICRNL : Bool := flag t.iflag 0o400
def IUCLC : Bool := flag t.iflag 0o1000
def ISIG : Bool := flag t.lflag 0o1
def ICANON : Bool := flag t.lflag 0o2
def ECHO : Bool := flag t.lflag 0o10
def ECHOCTL : Bool := flag t.lflag 0o1000

/-- `c_cc[VINTR]`. -/
def intrChar : UInt8 := t.cc 0

/-- `c_cc[VERASE]`. -/
def eraseChar : UInt8 := t.cc 2

/-- `c_cc[VEOF]`. -/
def eofChar : UInt8 := t.cc 4

/-- `c_cc[VSTART]`. -/
def startChar : UInt8 := t.cc 8

/-- `c_cc[VSTOP]`. -/
def stopChar : UInt8 := t.cc 9

end Termios

/-- `struct tty_struct`, with the model `σ` of the screen. -/
structure Terminal (σ : Type*) where
  termios : Termios
  pgrp : ℤ
  stopped : Bool
  readQ : Queue
  writeQ : Queue
  secondary : Queue
  /-- The process groups to which `tty_intr` has sent a signal, most recent first. -/
  signalled : List ℤ
  screen : σ

/-- What a screen does with a character, and whether the character is the end of a query. -/
structure Driver (σ : Type*) where
  putc : σ → UInt8 → UInt8 → σ
  asks : σ → UInt8 → Bool

/-- The console. -/
def console : Driver Console := ⟨Console.putc, Console.asks⟩

/-- A `signed char` is equal to an `unsigned char`. -/
def isChar (c x : UInt8) : Bool := c < 128 ∧ c = x

/-- A `signed char` is less than 32. -/
def isControl (c : UInt8) : Bool := c < 32 ∨ 128 ≤ c

/-- `isupper(c)`. -/
def isUpper (high : UInt8 → Bool) (c : UInt8) : Bool :=
  if c < 128 then 65 ≤ c ∧ c ≤ 90 else high c

/-- `tolower(c)`, which adds `'a' + 'A'`. -/
def toLower (high : UInt8 → Bool) (c : UInt8) : UInt8 := if isUpper high c then c + 162 else c

/-- `RESPONSE`. -/
def RESPONSE : List UInt8 := [0o33, 91, 63, 49, 59, 50, 99]

namespace Terminal

variable {σ : Type*} (s : Terminal σ)

/-- `PUTCH(c, tty->write_q)`. -/
def putWrite (c : UInt8) : Terminal σ := { s with writeQ := s.writeQ.putch c }

/-- `tty_intr(tty, SIGINT)`. -/
def intr : Terminal σ := if s.pgrp ≤ 0 then s else { s with signalled := s.pgrp :: s.signalled }

/-- The mapping of carriage return and newline: a carriage return may be ignored. -/
def mapped (c : UInt8) : Option UInt8 :=
  if c = 13 then
    if s.termios.ICRNL then some 10 else if s.termios.IGNCR then none else some c
  else if c = 10 ∧ s.termios.INLCR then some 13
  else some c

/-- The echo of a character. -/
def echo (c : UInt8) : Terminal σ :=
  if c = 10 then (s.putWrite 10).putWrite 13
  else if isControl c then
    if s.termios.ECHOCTL then (s.putWrite 94).putWrite (c + 64) else s
  else s.putWrite c

/-- The echo of an erased character. -/
def echoErase (c : UInt8) : Terminal σ :=
  (if isControl c then s.putWrite 127 else s).putWrite 127

/-- The characters are echoed, if this is set. -/
def echoed (write : Terminal σ → Option (Terminal σ)) (echo : Terminal σ → Terminal σ) :
    Option (Terminal σ) :=
  if s.termios.ECHO then write (echo s) else some s

/-- The character `ERASE_CHAR`. -/
def erase (write : Terminal σ → Option (Terminal σ)) : Option (Terminal σ) :=
  let c := s.secondary.last
  if s.secondary.empty ∨ c = 10 ∨ isChar c s.termios.eofChar then some s
  else
    (s.echoed write fun s => s.echoErase c).map fun s => { s with secondary := s.secondary.unput }

/-- A character that is passed on. -/
def accept (write : Terminal σ → Option (Terminal σ)) (c : UInt8) : Option (Terminal σ) :=
  let s :=
    if c = 10 ∨ isChar c s.termios.eofChar then
      { s with secondary := { s.secondary with data := (s.secondary.data + 1) % 4294967296 } }
    else s
  (s.echoed write fun s => s.echo c).map fun s => { s with secondary := s.secondary.putch c }

/-- What `copy_to_cooked` does with a character after the mapping. -/
def cookMapped (write : Terminal σ → Option (Terminal σ)) (c : UInt8) : Option (Terminal σ) :=
  if s.termios.ICANON ∧ isChar c s.termios.eraseChar then s.erase write
  else if s.termios.ICANON ∧ isChar c s.termios.stopChar then some { s with stopped := true }
  else if s.termios.ICANON ∧ isChar c s.termios.startChar then some { s with stopped := false }
  else if s.termios.ISIG = false ∧ isChar c s.termios.intrChar then some s.intr
  else s.accept write c

/-- One round of the loop of `copy_to_cooked`. -/
def cook (high : UInt8 → Bool) (write : Terminal σ → Option (Terminal σ)) : Option (Terminal σ) :=
  let (c, q) := s.readQ.getch
  let s := { s with readQ := q }
  match s.mapped c with
  | none => some s
  | some c => s.cookMapped write (if s.termios.IUCLC then toLower high c else c)

/-- The loop of `copy_to_cooked` goes on. -/
def cooking : Bool := s.readQ.empty = false ∧ s.secondary.full = false

/-- The answer to a query is put into the read queue. -/
def putResponse : Terminal σ := { s with readQ := RESPONSE.foldl Queue.putch s.readQ }

theorem putResponse_eq :
    s.putResponse = { s with readQ := RESPONSE.foldl Queue.putch s.readQ } := rfl

@[simp] theorem putResponse_termios : s.putResponse.termios = s.termios := by
  simp only [putResponse]

@[simp] theorem putResponse_readQ :
    s.putResponse.readQ = RESPONSE.foldl Queue.putch s.readQ := by
  simp only [putResponse]

@[simp] theorem putResponse_writeQ : s.putResponse.writeQ = s.writeQ := by
  simp only [putResponse]

@[simp] theorem putResponse_secondary : s.putResponse.secondary = s.secondary := by
  simp only [putResponse]

@[simp] theorem putResponse_screen : s.putResponse.screen = s.screen := by
  simp only [putResponse]

attribute [irreducible] putResponse

end Terminal

section Calls

variable {σ : Type*} (high : UInt8 → Bool) (d : Driver σ)

/-- `copy_to_cooked(tty)`, with the number of rounds of its loop that it can make. -/
def copyToCooked (write : Terminal σ → Option (Terminal σ)) : ℕ → Terminal σ → Option (Terminal σ)
  | 0, _ => none
  | fuel + 1, s =>
    if s.cooking then (s.cook high write).bind (copyToCooked write fuel) else some s

/-- The loop of `con_write` for `nr` characters. -/
def conLoop (respond : Terminal σ → Option (Terminal σ)) : ℕ → Terminal σ → Option (Terminal σ)
  | 0, s => some s
  | nr + 1, s =>
    let (c, q) := s.writeQ.getch
    let s' := { s with writeQ := q, screen := d.putc s.screen s.termios.eraseChar c }
    if d.asks s.screen c then (respond s').bind (conLoop respond nr) else conLoop respond nr s'

/-- `con_write(tty)`, with the number of calls that it can make. -/
def conWrite : ℕ → Terminal σ → Option (Terminal σ)
  | 0, _ => none
  | fuel + 1, s =>
    conLoop d (fun s => copyToCooked high (conWrite fuel) fuel s.putResponse) s.writeQ.chars s

end Calls

end Linux001.Tty
