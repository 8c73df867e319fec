import Linux001.Tty.Video

/-!
# The console driver

The model of `console.c` up to the queues of the terminal: the cursor, the window of the video
memory that is shown, the scroll region, and the state machine for escape sequences. The variables
are `unsigned long`, and what is computed is reduced modulo 2^32 (`u32`). `lines` and `columns` are
never stored to and are constants here. The registers of the CRT controller are left out.

`Console.putc` is what `con_write` does with one character, except that it only answers a query
(`Console.asks`) where `con_write` calls `respond`.

## Main definitions

* `Console`: the variables of `console.c`.
* `Console.scrup`, `Console.scrdown`, `Console.lf`, …: its functions.
* `Console.putc`: one character.
-/

namespace Linux001.Tty

def SCREEN_START : ℕ := 0xb8000
def SCREEN_END : ℕ := 0xc0000

/-- `LINES`. -/
def lines : ℕ := 25

/-- `COLUMNS`. -/
def columns : ℕ := 80

def NPAR : ℕ := 16

/-- The value of an `unsigned long`. -/
def u32 (n : ℤ) : ℕ := (n % 4294967296).toNat

/-- The variables of `console.c`. -/
structure Console where
  video : Video
  origin : ℕ
  scrEnd : ℕ
  pos : ℕ
  x : ℕ
  y : ℕ
  top : ℕ
  bottom : ℕ
  /-- The state of the parser. -/
  state : ℕ
  npar : ℕ
  par : ℕ → ℕ
  ques : Bool
  attr : UInt8
  savedX : ℕ
  savedY : ℕ

/-- `insert_char`, for `n` words from `p` on. -/
def insertLoop : ℕ → ℕ → Word → Video → Video
  | 0, _, _, v => v
  | n + 1, p, old, v => insertLoop n (p + 2) (v.word p) (v.store16 p old)

/-- `delete_char`, for `n` words from `p` on and a blank after them. -/
def deleteLoop : ℕ → ℕ → Video → Video
  | 0, p, v => v.store16 p erased
  | n + 1, p, v => deleteLoop n (p + 2) (v.store16 p (v.word (p + 2)))

/-- The number of repetitions in `csi_at`, `csi_L`, `csi_P` and `csi_M`. -/
def times (nr most : ℕ) : ℕ := if most < nr then most else if nr = 0 then 1 else nr

/-- The attribute after the parameter `p` of `csi_m`. -/
def sgr (attr : UInt8) : ℕ → UInt8
  | 0 => 0x07
  | 1 => 0x0f
  | 4 => 0x0f
  | 7 => 0x70
  | 27 => 0x07
  | _ => attr

namespace Console

variable (s : Console)

def gotoxy (newX newY : ℕ) : Console :=
  if columns ≤ newX ∨ lines ≤ newY then s
  else { s with x := newX, y := newY, pos := u32 (s.origin + (newY * columns + newX) * 2) }

/-- `scrup()` when only a part of the screen scrolls: the lines of the scroll region are copied. -/
def copyLines : Console :=
  let n := u32 ((s.bottom - s.top - 1 : ℤ) * columns) / 2
  let d := u32 (s.origin + columns * 2 * s.top)
  let v := s.video.movsl n d (u32 (s.origin + columns * 2 * (s.top + 1)))
  { s with video := v.stosw columns (d + 4 * n) }

/-- `scrup()`. When the whole screen scrolls, the window moves by a line, and back to the start of
the video memory when its end is reached. -/
def scrup : Console :=
  if s.top = 0 ∧ s.bottom = lines then
    let s := { s with
      origin := u32 (s.origin + columns * 2)
      pos := u32 (s.pos + columns * 2)
      scrEnd := u32 (s.scrEnd + columns * 2) }
    if SCREEN_END < s.scrEnd then
      let n := (lines - 1) * columns / 2
      { s with
        video := (s.video.movsl n SCREEN_START s.origin).stosw columns (SCREEN_START + 4 * n)
        scrEnd := u32 (s.scrEnd - (s.origin - SCREEN_START))
        pos := u32 (s.pos - (s.origin - SCREEN_START))
        origin := SCREEN_START }
    else { s with video := s.video.stosl (columns / 2) (u32 (s.scrEnd - columns * 2)) }
  else s.copyLines

def scrdown : Console :=
  let n := u32 ((s.bottom - s.top - 1 : ℤ) * columns) / 2
  let d := u32 (s.origin + columns * 2 * s.bottom - 4)
  let v := s.video.movslDown n d (u32 (s.origin + columns * 2 * (s.bottom - 1) - 4))
  { s with video := v.stoswDown columns (d - 4 * n + 2) }

def lf : Console :=
  if u32 (s.y + 1) < s.bottom then
    { s with y := u32 (s.y + 1), pos := u32 (s.pos + columns * 2) }
  else s.scrup

def ri : Console :=
  if s.top < s.y then { s with y := u32 (s.y - 1), pos := u32 (s.pos - columns * 2) }
  else s.scrdown

def cr : Console := { s with pos := u32 (s.pos - s.x * 2), x := 0 }

def del : Console :=
  if s.x ≠ 0 then
    let p := u32 (s.pos - 2)
    { s with pos := p, x := u32 (s.x - 1), video := s.video.store16 p erased }
  else s

/-- Blanks are stored to `count` words from `start` on. -/
def erase (count start : ℕ) : Console := { s with video := s.video.stosw count start }

def csiJ (par : ℕ) : Console :=
  match par with
  | 0 => s.erase (u32 (s.scrEnd - s.pos) / 2) s.pos
  | 1 => s.erase (u32 (s.pos - s.origin) / 2) s.origin
  | 2 => s.erase (columns * lines) s.origin
  | _ => s

def csiK (par : ℕ) : Console :=
  match par with
  | 0 => if columns ≤ s.x then s else s.erase (u32 (columns - s.x)) s.pos
  | 1 => s.erase (if s.x < columns then s.x else columns) (u32 (s.pos - s.x * 2))
  | 2 => s.erase columns (u32 (s.pos - s.x * 2))
  | _ => s

def csiSgr : Console :=
  { s with attr := (List.range (s.npar + 1)).foldl (fun a i => sgr a (s.par i)) s.attr }

def insertChar : Console :=
  { s with video := insertLoop (columns - s.x) s.pos erased s.video }

def insertLine : Console :=
  { { s with top := s.y, bottom := lines }.scrdown with top := s.top, bottom := s.bottom }

def deleteChar : Console :=
  if columns ≤ s.x then s
  else { s with video := deleteLoop (columns - 1 - s.x) s.pos s.video }

def deleteLine : Console :=
  { { s with top := s.y, bottom := lines }.scrup with top := s.top, bottom := s.bottom }

def csiAt (nr : ℕ) : Console := insertChar^[times nr columns] s

def csiL (nr : ℕ) : Console := insertLine^[times nr lines] s

def csiP (nr : ℕ) : Console := deleteChar^[times nr columns] s

def csiM (nr : ℕ) : Console := deleteLine^[times nr lines] s

def saveCur : Console := { s with savedX := s.x, savedY := s.y }

def restoreCur : Console :=
  { s with
    x := s.savedX
    y := s.savedY
    pos := u32 (s.origin + (s.savedY * columns + s.savedX) * 2) }

def setPar (i v : ℕ) : Console := { s with par := Function.update s.par i v }

/-- `if (par[i]) par[i]--`. -/
def decPar (i : ℕ) : Console := if s.par i ≠ 0 then s.setPar i (s.par i - 1) else s

/-- `if (!par[0]) par[0]++`. -/
def onePar : Console := if s.par 0 = 0 then s.setPar 0 1 else s

/-- A line wraps when the cursor is beyond the last column. -/
def wrap : Console :=
  { s with x := u32 (s.x - columns), pos := u32 (s.pos - columns * 2) }.lf

/-- A printable character. -/
def print (c : UInt8) : Console :=
  let s := if columns ≤ s.x then s.wrap else s
  { s with
    video := s.video.store16 s.pos (c, s.attr)
    pos := u32 (s.pos + 2)
    x := u32 (s.x + 1) }

/-- A backspace. -/
def back : Console :=
  if s.x ≠ 0 then { s with x := u32 (s.x - 1), pos := u32 (s.pos - 2) } else s

/-- A tabulator. -/
def tab : Console :=
  let n := 8 - s.x % 8
  let s := { s with x := u32 (s.x + n), pos := u32 (s.pos + n * 2) }
  if columns < s.x then s.wrap else s

/-- A character in the state 0. `ERASE_CHAR(tty)` is `erase`. A `char` is signed: a character from
128 on is negative, and is not equal to an `unsigned char`. -/
def plain (erase c : UInt8) : Console :=
  if 31 < c ∧ c < 127 then s.print c
  else if c = 27 then { s with state := 1 }
  else if c = 10 ∨ c = 11 ∨ c = 12 then s.lf
  else if c = 13 then s.cr
  else if c < 128 ∧ c = erase then s.del
  else if c = 8 then s.back
  else if c = 9 then s.tab
  else s

/-- A character after an escape, except for the query. -/
def escape (c : UInt8) : Console :=
  let s := { s with state := 0 }
  if c = '['.toUInt8 then { s with state := 2 }
  else if c = 'E'.toUInt8 then s.gotoxy 0 (u32 (s.y + 1))
  else if c = 'M'.toUInt8 then s.ri
  else if c = 'D'.toUInt8 then s.lf
  else if c = 'Z'.toUInt8 then s
  -- The source compares `x` here, not `c`.
  else if s.x = 55 then s.saveCur
  else if s.x = 56 then s.restoreCur
  else s

/-- `CSI r`: the scroll region. -/
def region : Console :=
  let s := s.decPar 0
  let s := if s.par 1 = 0 then s.setPar 1 lines else s
  if s.par 0 < s.par 1 ∧ s.par 1 ≤ lines then { s with top := s.par 0, bottom := s.par 1 } else s

/-- The command `c`, which ends an escape sequence with parameters. -/
def command (c : UInt8) : Console :=
  if c = 'G'.toUInt8 ∨ c = 0x60 then
    let s := s.decPar 0
    s.gotoxy (s.par 0) s.y
  else if c = 'A'.toUInt8 then
    let s := s.onePar
    s.gotoxy s.x (u32 (s.y - s.par 0))
  else if c = 'B'.toUInt8 ∨ c = 'e'.toUInt8 then
    let s := s.onePar
    s.gotoxy s.x (u32 (s.y + s.par 0))
  else if c = 'C'.toUInt8 ∨ c = 'a'.toUInt8 then
    let s := s.onePar
    s.gotoxy (u32 (s.x + s.par 0)) s.y
  else if c = 'D'.toUInt8 then
    let s := s.onePar
    s.gotoxy (u32 (s.x - s.par 0)) s.y
  else if c = 'E'.toUInt8 then
    let s := s.onePar
    s.gotoxy 0 (u32 (s.y + s.par 0))
  else if c = 'F'.toUInt8 then
    let s := s.onePar
    s.gotoxy 0 (u32 (s.y - s.par 0))
  else if c = 'd'.toUInt8 then
    let s := s.decPar 0
    s.gotoxy s.x (s.par 0)
  else if c = 'H'.toUInt8 ∨ c = 'f'.toUInt8 then
    let s := (s.decPar 0).decPar 1
    s.gotoxy (s.par 1) (s.par 0)
  else if c = 'J'.toUInt8 then s.csiJ (s.par 0)
  else if c = 'K'.toUInt8 then s.csiK (s.par 0)
  else if c = 'L'.toUInt8 then s.csiL (s.par 0)
  else if c = 'M'.toUInt8 then s.csiM (s.par 0)
  else if c = 'P'.toUInt8 then s.csiP (s.par 0)
  else if c = '@'.toUInt8 then s.csiAt (s.par 0)
  else if c = 'm'.toUInt8 then s.csiSgr
  else if c = 'r'.toUInt8 then s.region
  else if c = 's'.toUInt8 then s.saveCur
  else if c = 'u'.toUInt8 then s.restoreCur
  else s

/-- A character in the state 4. -/
def final (c : UInt8) : Console := { s with state := 0 }.command c

/-- A character in the state 3. -/
def params (c : UInt8) : Console :=
  if c = ';'.toUInt8 ∧ s.npar < NPAR - 1 then { s with npar := s.npar + 1 }
  else if '0'.toUInt8 ≤ c ∧ c ≤ '9'.toUInt8 then
    s.setPar s.npar (u32 (10 * s.par s.npar + c.toNat - 48))
  else { s with state := 4 }.final c

/-- The first character after `ESC [`. -/
def bracket (c : UInt8) : Console :=
  let s := { s with
    par := fun i => if i < NPAR then 0 else s.par i
    npar := 0
    state := 3
    ques := c = '?'.toUInt8 }
  if c = '?'.toUInt8 then s else s.params c

/-- What `con_write` does with a character. -/
def putc (erase c : UInt8) : Console :=
  match s.state with
  | 0 => s.plain erase c
  | 1 => s.escape c
  | 2 => s.bracket c
  | 3 => s.params c
  | 4 => s.final c
  | _ => s

/-- The character is the end of the query `ESC Z`. -/
def asks (c : UInt8) : Bool := s.state = 1 ∧ c = 'Z'.toUInt8

/-- The state before `con_init`: the memory is as the loader has left it. -/
def boot (byte : ℕ → UInt8) : Console where
  video := ⟨byte, []⟩
  origin := SCREEN_START
  scrEnd := SCREEN_START + lines * columns * 2
  pos := 0
  x := 0
  y := 0
  top := 0
  bottom := lines
  state := 0
  npar := 0
  par _ := 0
  ques := false
  attr := 0x07
  savedX := 0
  savedY := 0

end Console

end Linux001.Tty
