import Linux001.Tty.Queue
import Linux001.Lib.Runs

/-!
# The keyboard

The model of `keyboard.s`: the interrupt of the keyboard with its tables, on the read queue of the
console. `mode` has one bit for each modifier key. A key puts up to four bytes, all of them or none.
A function key also looks at the register `%ecx`, which at that time belongs to the interrupted
code.

## Main definitions

* `State`, `State.interrupt`: the variables of `keyboard.s` and its interrupt.
* `held`, `capsOn`: what the history of scan codes tells about a modifier key.

## Main results

* `mode_eq`: `mode` says which modifier keys are held, and the lamp of caps lock is right.
* `keys_whole`: the queue holds whole keys, in order.
-/

namespace Linux001.Tty.Keyboard

/-! ### The tables -/

/-- The procedures of `key_table`. -/
inductive Handler
  | none | doSelf | minus | cursor | func
  | ctrl | alt | lshift | rshift | caps | num | scroll
  | unctrl | unalt | unlshift | unrshift | uncaps
  deriving DecidableEq

def keyTable (code : UInt8) : Handler :=
  match code.toNat with
  | 0x1d => .ctrl
  | 0x2a => .lshift
  | 0x35 => .minus
  | 0x36 => .rshift
  | 0x38 => .alt
  | 0x3a => .caps
  | 0x45 => .num
  | 0x46 => .scroll
  | 0x9d => .unctrl
  | 0xaa => .unlshift
  | 0xb6 => .unrshift
  | 0xb8 => .unalt
  | 0xba => .uncaps
  | n =>
    if 0x3b ≤ n ∧ n ≤ 0x44 ∨ n = 0x57 ∨ n = 0x58 then .func
    else if 0x47 ≤ n ∧ n ≤ 0x53 ∧ n ≠ 0x4a ∧ n ≠ 0x4e then .cursor
    else if 0x01 ≤ n ∧ n ≤ 0x53 ∨ n = 0x56 then .doSelf
    else .none

def ascii (s : String) : List UInt8 := s.toList.map fun c => .ofNat c.toNat

def numTable : List UInt8 := ascii "789 456 1230,"

def curTable : List UInt8 := ascii "HA5 DGC YB623"

def funcTable : List UInt32 :=
  [0x415b5b1b, 0x425b5b1b, 0x435b5b1b, 0x445b5b1b, 0x455b5b1b, 0x465b5b1b, 0x475b5b1b, 0x485b5b1b,
    0x495b5b1b, 0x4a5b5b1b, 0x4b5b5b1b, 0x4c5b5b1b]

/-- The last rows of the three maps, with the bytes `a` at 0x37, `b` at 0x39, `c` at 0x4a, `d` at
0x4e and `e` at 0x56. -/
def lastRows (a b c d e : UInt8) : List UInt8 :=
  [0, a, 0, b] ++ .replicate 16 0 ++ [c, 0, 0, 0, d] ++ .replicate 7 0 ++ [e] ++ .replicate 10 0

def keyMap : List UInt8 :=
  [0, 27] ++ ascii "1234567890+'" ++ [127, 9] ++ ascii "qwertyuiop\x7d" ++ [0, 10, 0] ++
    ascii "asdfghjkl|\x7b" ++ [0, 0] ++ ascii "'zxcvbnm,.-" ++ lastRows 42 32 45 43 60

def shiftMap : List UInt8 :=
  [0, 27] ++ ascii "!\"#$%&/()=?`" ++ [127, 9] ++ ascii "QWERTYUIOP]^" ++ [10, 0] ++
    ascii "ASDFGHJKL\\[" ++ [0, 0] ++ ascii "*ZXCVBNM;:_" ++ lastRows 42 32 45 43 62

def altMap : List UInt8 :=
  [0, 0] ++ [0, 64, 0, 36, 0, 0, 123, 91, 93, 125, 92, 0] ++ [0, 0] ++ .replicate 11 0 ++
    [126, 10, 0] ++ .replicate 11 0 ++ [0, 0] ++ .replicate 11 0 ++ lastRows 0 0 0 0 124

example : keyMap.length = 0x61 ∧ shiftMap.length = 0x61 ∧ altMap.length = 0x61 := by decide

/-! ### The procedures -/

/-- The loop of `put_queue`: it stores the bytes of `ebx:eax`, from the head of the queue on, until
`eax` is 0. The result is the buffer and the new head, if the queue does not become full. -/
def putLoop (tail : Fin 1024) : ℕ → UInt32 → UInt32 → Fin 1024 → (ℕ → UInt8) →
    (ℕ → UInt8) × Option (Fin 1024)
  | 0, _, _, _, buf => (buf, none)
  | fuel + 1, eax, ebx, ecx, buf =>
    let buf := Function.update buf ecx eax.toUInt8
    let ecx := ecx + 1
    if ecx = tail then (buf, none)
    else
      let eax := eax >>> 8 ||| ebx <<< 24
      if eax = 0 then (buf, some ecx) else putLoop tail fuel eax (ebx >>> 8) ecx buf

/-- The bytes that `put_queue` takes from `ebx:eax`. -/
def bytesOf : ℕ → UInt32 → UInt32 → List UInt8
  | 0, _, _ => []
  | fuel + 1, eax, ebx =>
    let eax' := eax >>> 8 ||| ebx <<< 24
    eax.toUInt8 :: if eax' = 0 then [] else bytesOf fuel eax' (ebx >>> 8)

/-- `put_queue`. -/
def putQueue (eax ebx : UInt32) (q : Queue) : Queue :=
  match putLoop q.tail 8 eax ebx q.head q.buf with
  | (buf, none) => { q with buf := buf }
  | (buf, some head) => { q with
      buf := buf
      head := head
      put := (bytesOf 8 eax ebx).reverse ++ q.put }

/-- `mode`, `leds` and `e0`. -/
structure Modes where
  mode : BitVec 8
  leds : BitVec 8
  e0 : UInt8
  deriving DecidableEq

namespace Modes

variable (m : Modes)

/-- Some of the bits of `mask` are set in `mode`. -/
def tests (mask : BitVec 8) : Bool := m.mode &&& mask ≠ 0

/-- `ctrl` and `alt`: the bit of the left key, and after a prefix that of the right key. -/
def sided (al : BitVec 8) : BitVec 8 := if m.e0 = 0 then al else al + al

def orMode (al : BitVec 8) : Modes := { m with mode := m.mode ||| al }

def andMode (al : BitVec 8) : Modes := { m with mode := m.mode &&& al }

/-- `caps`. -/
def caps : Modes :=
  if m.tests 0x80 then m
  else { m with leds := m.leds ^^^ 4, mode := (m.mode ^^^ 0x40) ||| 0x80 }

/-- What a procedure does to the modes. -/
def handle : Handler → Modes
  | .ctrl => m.orMode (m.sided 0x04)
  | .alt => m.orMode (m.sided 0x10)
  | .unctrl => m.andMode (~~~m.sided 0x04)
  | .unalt => m.andMode (~~~m.sided 0x10)
  | .lshift => m.orMode 0x01
  | .unlshift => m.andMode 0xfe
  | .rshift => m.orMode 0x02
  | .unrshift => m.andMode 0xfd
  | .caps => m.caps
  | .uncaps => m.andMode 0x7f
  | .scroll => { m with leds := m.leds ^^^ 1 }
  | .num => { m with leds := m.leds ^^^ 2 }
  | .none | .doSelf | .minus | .cursor | .func => m

/-- The map of `do_self`. -/
def map : List UInt8 := if m.tests 0x20 then altMap else if m.tests 0x03 then shiftMap else keyMap

/-- `do_self`, up to its call of `put_queue`. -/
def doSelf (code : UInt8) : Option UInt32 :=
  let al := m.map.getD code.toNat 0
  if al = 0 then none
  else
    let al := if m.tests 0x4c ∧ 97 ≤ al ∧ al ≤ 122 then al - 32 else al
    let al := if m.tests 0x0c ∧ 64 ≤ al ∧ al < 96 then al - 64 else al
    let al := if m.tests 0x10 then al ||| 0x80 else al
    some al.toUInt32

/-- `cur`. -/
def curKey (i : ℕ) : UInt32 :=
  let al := curTable.getD i 0
  ((if al ≤ 57 then 0x7e00 else 0) + al.toUInt32) <<< 16 ||| 0x5b1b

/-- Control, alt and del: `reboot`. -/
def reboots (code : UInt8) : Bool := code = 0x53 ∧ m.tests 0x0c ∧ m.tests 0x30

/-- What a procedure passes to `put_queue` in `%eax`, if it calls it. `%ebx` is 0. -/
def putsOf (code : UInt8) (ecx : BitVec 32) : Handler → Option UInt32
  | .doSelf => m.doSelf code
  | .minus => if m.e0 = 1 then some 47 else m.doSelf code
  | .cursor =>
    let i := code.toNat - 0x47
    if m.e0 = 1 ∨ m.leds &&& 2 = 0 ∨ m.tests 0x03 then some (curKey i)
    else some (numTable.getD i 0).toUInt32
  | .func =>
    -- The test for room looks at a register that has nothing to do with the queue.
    if ecx.slt 4 then none
    else funcTable[if code ≤ 0x44 then code.toNat - 0x3b else code.toNat - 0x3b - 18]?
  | _ => none

end Modes

/-- The variables of `keyboard.s`, and the read queue of the console. -/
structure State where
  modes : Modes
  queue : Queue

/-- What an interrupt with a scan code puts into the queue. -/
def Modes.puts (m : Modes) (code : UInt8) (ecx : BitVec 32) : Option UInt32 :=
  if code = 0xe0 ∨ code = 0xe1 then none else m.putsOf code ecx (keyTable code)

/-- The modes after an interrupt. -/
def Modes.next (m : Modes) (code : UInt8) : Modes :=
  if code = 0xe0 then { m with e0 := 1 }
  else if code = 0xe1 then { m with e0 := 2 }
  else { m.handle (keyTable code) with e0 := 0 }

/-- `keyboard_interrupt`, up to the call of `do_tty_interrupt`. -/
def State.interrupt (s : State) (code : UInt8) (ecx : BitVec 32) : State where
  modes := s.modes.next code
  queue :=
    match s.modes.puts code ecx with
    | none => s.queue
    | some eax => putQueue eax 0 s.queue

inductive Event
  /-- An interrupt with a scan code, while `%ecx` has a value. -/
  | key (code : UInt8) (ecx : BitVec 32)
  /-- `copy_to_cooked` takes a character. -/
  | take

/-- The steps, until the machine is rebooted. -/
def State.next (s : State) : Event → Option State
  | .key code ecx =>
    if keyTable code = .cursor ∧ s.modes.reboots code then none else some (s.interrupt code ecx)
  | .take => if s.queue.empty then none else some { s with queue := s.queue.getch.2 }

/-- No key has been pressed yet. -/
structure State.Initial (s : State) : Prop where
  modes : s.modes = ⟨0, 2, 0⟩
  fifo : s.queue.Fifo
  put : s.queue.put = []

/-! ### The modifier keys -/

/-- The modifier keys. -/
inductive Key
  | lshift | rshift | lctrl | rctrl | lalt | altgr | caps
  deriving DecidableEq

/-- The bit of `mode` for a key that is held. -/
def Key.bit : Key → ℕ
  | .lshift => 0
  | .rshift => 1
  | .lctrl => 2
  | .rctrl => 3
  | .lalt => 4
  | .altgr => 5
  | .caps => 7

/-- The modifier key that is pressed (`true`) or released, after a prefix or not. -/
def change (after : Bool) : Handler → Option (Key × Bool)
  | .lshift => some (.lshift, true)
  | .unlshift => some (.lshift, false)
  | .rshift => some (.rshift, true)
  | .unrshift => some (.rshift, false)
  | .ctrl => some (if after then .rctrl else .lctrl, true)
  | .unctrl => some (if after then .rctrl else .lctrl, false)
  | .alt => some (if after then .altgr else .lalt, true)
  | .unalt => some (if after then .altgr else .lalt, false)
  | .caps => some (.caps, true)
  | .uncaps => some (.caps, false)
  | .none | .doSelf | .minus | .cursor | .func | .num | .scroll => none

/-- The last scan code was a prefix. -/
def prefixed : List Event → Bool
  | [] => false
  | .key code _ :: _ => code = 0xe0 ∨ code = 0xe1
  | .take :: es => prefixed es

/-- The modifier keys that have been pressed and released, most recent first. -/
def changes : List Event → List (Key × Bool)
  | [] => []
  | .key code _ :: es => (change (prefixed es) (keyTable code)).toList ++ changes es
  | .take :: es => changes es

/-- A key is held when it has been pressed last. -/
def held (k : Key) (l : List (Key × Bool)) : Bool := (l.find? (·.1 = k)).any (·.2)

/-- Caps lock is on: its key has been pressed an odd number of times. While the key is held, the
keyboard repeats its scan code. -/
def capsOn : List (Key × Bool) → Bool
  | [] => false
  | (k, pressed) :: l => capsOn l ^^ (k = .caps ∧ pressed ∧ held .caps l = false)

/-- The modes after a history. -/
def modesOf : List Event → Modes
  | [] => ⟨0, 2, 0⟩
  | .key code _ :: es => (modesOf es).next code
  | .take :: es => modesOf es

@[simp] theorem held_cons (k k' : Key) (pressed : Bool) (l : List (Key × Bool)) :
    held k ((k', pressed) :: l) = if k' = k then pressed else held k l := by
  rw [held, List.find?_cons]
  split_ifs with hk
  · simp [hk]
  · simp [hk, held]

namespace Modes

variable (m : Modes)

/-- The bit of a key. -/
def mask (k : Key) : BitVec 8 := 1#8 <<< k.bit

theorem getLsbD_mask (k k' : Key) : (mask k).getLsbD k'.bit = decide (k = k') := by
  cases k <;> cases k' <;> rfl

theorem getLsbD_orMode (k k' : Key) :
    (m.orMode (mask k)).mode.getLsbD k'.bit = if k = k' then true else m.mode.getLsbD k'.bit := by
  rw [orMode, BitVec.getLsbD_or, getLsbD_mask]
  split_ifs with hk <;> simp [hk]

theorem getLsbD_andMode (k k' : Key) :
    (m.andMode (~~~mask k)).mode.getLsbD k'.bit =
      if k = k' then false else m.mode.getLsbD k'.bit := by
  have hbit : k'.bit < 8 := by
    cases k' <;> decide
  rw [andMode, BitVec.getLsbD_and, BitVec.getLsbD_not, getLsbD_mask]
  split_ifs with hk <;> simp [hk, hbit]

/-- Caps lock is the bit between those of the keys. -/
theorem getLsbD_six (k : Key) : (mask k).getLsbD 6 = false := by
  cases k <;> rfl

theorem tests_caps : m.tests 0x80 = m.mode.getLsbD Key.caps.bit := by
  have hmask : (0x80 : BitVec 8) = BitVec.twoPow 8 7 := rfl
  rw [tests, hmask, BitVec.and_twoPow, Key.bit]
  cases m.mode.getLsbD 7 <;> rfl

/-- A press of a key other than caps sets its bit, and its release clears it. -/
theorem handle_eq {h : Handler} {k : Key} {pressed : Bool} (hcaps : h ≠ .caps)
    (hchange : change (m.e0 ≠ 0) h = some (k, pressed)) :
    m.handle h = if pressed then m.orMode (mask k) else m.andMode (~~~mask k) := by
  by_cases he : m.e0 = 0
  · have hoff : decide (m.e0 ≠ 0) = false := by simp [he]
    rw [hoff] at hchange
    cases h <;> cases hchange <;> first | rfl | exact absurd rfl hcaps | skip
    all_goals simp only [handle, sided, he, if_true]; rfl
  · have hon : decide (m.e0 ≠ 0) = true := by simp [he]
    rw [hon] at hchange
    cases h <;> cases hchange <;> first | rfl | exact absurd rfl hcaps | skip
    all_goals simp only [handle, sided, he, if_false]; rfl

theorem handle_mode {h : Handler} {after : Bool} (hchange : change after h = none) :
    (m.handle h).mode = m.mode := by
  cases h <;> first | rfl | cases hchange

theorem getLsbD_caps (k : Key) :
    m.caps.mode.getLsbD k.bit = if .caps = k then true else m.mode.getLsbD k.bit := by
  have hlock : (0x40 : BitVec 8).getLsbD k.bit = false := by
    cases k <;> rfl
  have hheld : (0x80 : BitVec 8).getLsbD k.bit = decide (.caps = k) := by
    cases k <;> rfl
  rw [caps]
  by_cases htests : m.tests 0x80 = true
  · rw [if_pos htests]
    split_ifs with hk
    · rw [← hk, ← tests_caps, htests]
    · rfl
  · rw [if_neg htests, BitVec.getLsbD_or, BitVec.getLsbD_xor, hlock, hheld]
    split_ifs with hk <;> simp [hk]

/-- A press of caps turns the lock and its lamp, unless the keyboard repeats it. -/
theorem caps_lock : m.caps.mode.getLsbD 6 = (m.mode.getLsbD 6 ^^ !m.mode.getLsbD Key.caps.bit) ∧
    m.caps.leds.getLsbD 2 = (m.leds.getLsbD 2 ^^ !m.mode.getLsbD Key.caps.bit) := by
  have hmode : (0x40 : BitVec 8).getLsbD 6 = true ∧ (0x80 : BitVec 8).getLsbD 6 = false := by
    decide
  have hlamp : (4 : BitVec 8).getLsbD 2 = true := by
    decide
  rw [caps, ← tests_caps]
  by_cases htests : m.tests 0x80 = true
  · rw [if_pos htests, htests, Bool.not_true, Bool.xor_false, Bool.xor_false]
    exact ⟨rfl, rfl⟩
  · rw [if_neg htests, Bool.eq_false_iff.mpr htests, Bool.not_false, BitVec.getLsbD_or,
      BitVec.getLsbD_xor, BitVec.getLsbD_xor, hmode.1, hmode.2, hlamp, Bool.or_false]
    exact ⟨rfl, rfl⟩

/-- What a procedure does to the bit of a key. -/
theorem bit_handle (h : Handler) (l : List (Key × Bool)) (k : Key)
    (hold : m.mode.getLsbD k.bit = held k l) :
    (m.handle h).mode.getLsbD k.bit = held k ((change (m.e0 ≠ 0) h).toList ++ l) := by
  cases hchange : change (m.e0 ≠ 0) h with
  | none => rw [m.handle_mode hchange, hold]; rfl
  | some c =>
    obtain ⟨k', pressed⟩ := c
    rw [Option.toList_some, List.singleton_append, held_cons, ← hold]
    by_cases hcaps : h = .caps
    · subst hcaps
      obtain ⟨rfl, rfl⟩ : Key.caps = k' ∧ true = pressed := by
        simpa [change] using hchange
      exact m.getLsbD_caps k
    · rw [m.handle_eq hcaps hchange]
      cases pressed with
      | true => exact m.getLsbD_orMode k' k
      | false => exact m.getLsbD_andMode k' k

/-- What a procedure does to caps lock, and to its lamp. -/
theorem caps_handle (h : Handler) (l : List (Key × Bool))
    (hheld : m.mode.getLsbD Key.caps.bit = held .caps l) (hon : m.mode.getLsbD 6 = capsOn l)
    (hlamp : m.leds.getLsbD 2 = m.mode.getLsbD 6) :
    (m.handle h).mode.getLsbD 6 = capsOn ((change (m.e0 ≠ 0) h).toList ++ l) ∧
      (m.handle h).leds.getLsbD 2 = (m.handle h).mode.getLsbD 6 := by
  cases hchange : change (m.e0 ≠ 0) h with
  | none =>
    have hleds : (m.handle h).leds.getLsbD 2 = m.leds.getLsbD 2 := by
      cases h <;> first | rfl | (cases hchange; done) | simp [handle]
    rw [m.handle_mode hchange, hleds]
    exact ⟨hon, hlamp⟩
  | some c =>
    obtain ⟨k', pressed⟩ := c
    rw [Option.toList_some, List.singleton_append, capsOn]
    by_cases hcaps : h = .caps
    · subst hcaps
      obtain ⟨rfl, rfl⟩ : Key.caps = k' ∧ true = pressed := by
        simpa [change] using hchange
      obtain ⟨hmode, hleds⟩ := m.caps_lock
      have hcapsOn : m.caps.mode.getLsbD 6 = (capsOn l ^^ decide (held .caps l = false)) := by
        rw [hmode, hon, hheld]
        cases held .caps l <;> rfl
      refine ⟨?_, ?_⟩
      · rw [handle, hcapsOn]
        simp
      · rw [handle, hleds, hmode, hlamp]
    · have hother : ¬(k' = .caps ∧ pressed = true ∧ held .caps l = false) := by
        rintro ⟨rfl, rfl, -⟩
        refine hcaps ?_
        cases h <;> first | rfl | (simp [change] at hchange) <;> split_ifs at hchange
      rw [m.handle_eq hcaps hchange, decide_eq_false hother, Bool.xor_false]
      have hpress : (m.orMode (mask k')).mode.getLsbD 6 = m.mode.getLsbD 6 := by
        rw [orMode, BitVec.getLsbD_or, getLsbD_six, Bool.or_false]
      have hrelease : (m.andMode (~~~mask k')).mode.getLsbD 6 = m.mode.getLsbD 6 := by
        rw [andMode, BitVec.getLsbD_and, BitVec.getLsbD_not, getLsbD_six]
        simp
      cases pressed with
      | true => exact ⟨hpress.trans hon, hlamp.trans hpress.symm⟩
      | false => exact ⟨hrelease.trans hon, hlamp.trans hrelease.symm⟩

end Modes

/-! ### The queue -/

/-- The bytes that an interrupt with a scan code puts into the queue if there is room. -/
def Modes.sends (m : Modes) (code : UInt8) (ecx : BitVec 32) : List UInt8 :=
  (m.puts code ecx).elim [] fun eax => bytesOf 8 eax 0

/-- What the keys have sent, oldest first. -/
def typed : List Event → List (List UInt8)
  | [] => []
  | .key code ecx :: es => typed es ++ [(modesOf es).sends code ecx]
  | .take :: es => typed es

section PutQueue

variable {eax : UInt32} {fuel : ℕ} {q : Queue} {buf : ℕ → UInt8} {head : Fin 1024}

theorem full_iff_head : q.full = true ↔ q.head + 1 = q.tail := by
  have hhead := q.head.isLt
  have htail := q.tail.isLt
  rw [Queue.full, Queue.left, decide_eq_true_eq, Fin.ext_iff, Fin.sub_def, Fin.sub_def, Fin.add_def]
  simp only [Fin.val_one]
  omega

theorem shift_eq : eax >>> 8 ||| (0 : UInt32) <<< 24 = eax >>> 8 := by
  rw [UInt32.zero_shiftLeft, UInt32.or_zero]

theorem toNat_shift : (eax >>> 8).toNat = eax.toNat / 256 := by
  rw [UInt32.toNat_shiftRight]
  exact Nat.shiftRight_eq_div_pow ..

/-- A turn of the loop of `put_queue` is a `PUTCH`, if the queue is not full. -/
theorem putLoop_succ : putLoop q.tail (fuel + 1) eax 0 q.head q.buf =
    if q.full = true then ((q.putch eax.toUInt8).buf, none)
    else if eax >>> 8 = 0 then ((q.putch eax.toUInt8).buf, some (q.putch eax.toUInt8).head)
    else putLoop (q.putch eax.toUInt8).tail fuel (eax >>> 8) 0 (q.putch eax.toUInt8).head
      (q.putch eax.toUInt8).buf := by
  rw [putLoop, shift_eq, UInt32.zero_shiftRight]
  simp only [full_iff_head]
  rfl

theorem bytesOf_succ : bytesOf (fuel + 1) eax 0 =
    eax.toUInt8 :: if eax >>> 8 = 0 then [] else bytesOf fuel (eax >>> 8) 0 := by
  rw [bytesOf, shift_eq, UInt32.zero_shiftRight]

/-- The loop of `put_queue` does what `PUTCH` would do with each byte. -/
theorem putLoop_some (h : putLoop q.tail fuel eax 0 q.head q.buf = (buf, some head)) :
    buf = (q.putAll (bytesOf fuel eax 0)).buf ∧ head = (q.putAll (bytesOf fuel eax 0)).head ∧
      q.chars + (bytesOf fuel eax 0).length ≤ 1023 := by
  induction fuel generalizing q eax with
  | zero => cases h
  | succ fuel ih =>
    rw [putLoop_succ] at h
    split_ifs at h with hfull hlast
    · cases h
    · cases h
      rw [bytesOf_succ, if_pos hlast]
      have hfull := Bool.eq_false_iff.mpr hfull
      have hchars := Queue.chars_putch hfull eax.toUInt8
      have hle := (q.putch eax.toUInt8).chars_le
      refine ⟨rfl, rfl, ?_⟩
      rw [List.length_singleton]
      omega
    · obtain ⟨hbuf, hhead, hroom⟩ := ih h
      rw [bytesOf_succ, if_neg hlast]
      have hfull := Bool.eq_false_iff.mpr hfull
      have hchars := Queue.chars_putch hfull eax.toUInt8
      refine ⟨hbuf, hhead, ?_⟩
      rw [List.length_cons]
      omega

/-- When there is no room, the loop has only stored to free slots. -/
theorem putLoop_none (h : putLoop q.tail fuel eax 0 q.head q.buf = (buf, none)) :
    ringList 1024 buf q.head q.tail = q.content := by
  induction fuel generalizing q eax with
  | zero =>
    cases h
    rfl
  | succ fuel ih =>
    rw [putLoop_succ] at h
    split_ifs at h with hfull hlast
    · cases h
      exact ringList_store q.head.isLt q.tail.isLt _
    · cases h
    · have hput := ih h
      have hfull := Bool.eq_false_iff.mpr hfull
      have hsize : ringSize 1024 q.head q.tail ≠ 1024 - 1 := by
        rw [← Queue.chars_eq]
        exact fun h' => Bool.false_ne_true (hfull.symm.trans (Queue.full_iff.mpr h'))
      rw [Queue.content_putch hfull] at hput
      have hpush : ringList 1024 (Function.update buf q.head (buf q.head)) ((q.head + 1) % 1024)
          q.tail = ringList 1024 buf q.head q.tail ++ [buf q.head] :=
        ringList_push q.head.isLt q.tail.isLt hsize (buf q.head)
      rw [Function.update_eq_self] at hpush
      exact (List.append_inj' (hpush.symm.trans hput) rfl).1

/-- There is no room for all bytes. -/
theorem length_of_none (heax : eax.toNat < 256 ^ fuel) (hfuel : 0 < fuel)
    (h : putLoop q.tail fuel eax 0 q.head q.buf = (buf, none)) :
    1023 < q.chars + (bytesOf fuel eax 0).length := by
  induction fuel generalizing q eax with
  | zero => cases hfuel
  | succ fuel ih =>
    rw [bytesOf_succ, List.length_cons]
    rw [putLoop_succ] at h
    split_ifs at h with hfull hlast
    · rw [Queue.full_iff.mp hfull]
      omega
    · cases h
    · have hless : (eax >>> 8).toNat < 256 ^ fuel := by
        rw [toNat_shift, Nat.div_lt_iff_lt_mul (by norm_num), ← pow_succ]
        exact heax
      have hpos : 0 < fuel := by
        refine Nat.pos_of_ne_zero ?_
        rintro rfl
        exact hlast (UInt32.toNat_inj.mp (Nat.lt_one_iff.mp hless))
      have hlong := ih hless hpos h
      rw [Queue.chars_putch (Bool.eq_false_iff.mpr hfull)] at hlong
      rw [if_neg hlast]
      omega

theorem tail_putAll (l : List UInt8) (q : Queue) : (q.putAll l).tail = q.tail := by
  induction l generalizing q with
  | nil => rfl
  | cons c l ih => exact ih (q.putch c)

/-- `put_queue` puts all the bytes of a key, or none. -/
theorem content_putQueue (q : Queue) (eax : UInt32) : (putQueue eax 0 q).content =
    q.content ++ if q.chars + (bytesOf 8 eax 0).length ≤ 1023 then bytesOf 8 eax 0 else [] := by
  have heax : eax.toNat < 256 ^ 8 := by
    have hlt := eax.toNat_lt
    omega
  rw [putQueue]
  split
  · rename_i buf hloop
    have hlong := length_of_none heax (by norm_num) hloop
    rw [if_neg (by omega), List.append_nil]
    exact putLoop_none hloop
  · rename_i buf head hloop
    obtain ⟨hbuf, hhead, hroom⟩ := putLoop_some hloop
    rw [if_pos hroom, ← Queue.content_putAll hroom, Queue.content, Queue.content, hbuf, hhead,
      tail_putAll]

theorem put_putQueue (q : Queue) (eax : UInt32) : (putQueue eax 0 q).put =
    (if q.chars + (bytesOf 8 eax 0).length ≤ 1023 then bytesOf 8 eax 0 else []).reverse ++
      q.put := by
  have heax : eax.toNat < 256 ^ 8 := by
    have hlt := eax.toNat_lt
    omega
  rw [putQueue]
  split
  · rename_i buf hloop
    have hlong := length_of_none heax (by norm_num) hloop
    rw [if_neg (by omega)]
    rfl
  · rename_i buf head hloop
    obtain ⟨hbuf, hhead, hroom⟩ := putLoop_some hloop
    rw [if_pos hroom]

theorem fifo_putQueue (h : q.Fifo) : (putQueue eax 0 q).Fifo := by
  have hsame : (putQueue eax 0 q).overrun = q.overrun ∧ (putQueue eax 0 q).underrun = q.underrun ∧
      (putQueue eax 0 q).taken = q.taken := by
    rw [putQueue]
    split <;> exact ⟨rfl, rfl, rfl⟩
  refine ⟨hsame.1.trans h.overrun, hsame.2.1.trans h.underrun, ?_⟩
  rw [content_putQueue, put_putQueue, hsame.2.2, List.reverse_append, List.reverse_reverse, h.put,
    List.append_assoc]

end PutQueue

/-! ### Runs -/

/-- The steps of the keyboard. -/
def Step (s : State) (e : Event) (s' : State) : Prop := s.next e = some s'

variable {s₀ s s' : State} {es : List Event}

/-- The modes only depend on the scan codes. -/
theorem modes_step {e : Event} (h : Step s e s') (hs : s.modes = modesOf es) :
    s'.modes = modesOf (e :: es) := by
  cases e with
  | key code ecx =>
    simp only [Step, State.next] at h
    split_ifs at h
    obtain rfl := Option.some.inj h
    exact congrArg (Modes.next · code) hs
  | take =>
    simp only [Step, State.next] at h
    split_ifs at h
    obtain rfl := Option.some.inj h
    exact hs

theorem modes_run (h₀ : s₀.Initial) (h : Runs Step s₀ es s) : s.modes = modesOf es :=
  h.simulation (R := fun es s => s.modes = modesOf es) (fun _ _ _ _ hs hstep => modes_step hstep hs)
    h₀.modes

/-- `e0` is set after a prefix. -/
theorem e0_eq (es : List Event) : decide ((modesOf es).e0 ≠ 0) = prefixed es := by
  induction es with
  | nil => rfl
  | cons e es ih =>
    cases e with
    | take => exact ih
    | key code ecx =>
      rw [modesOf, Modes.next, prefixed]
      split_ifs with h0 h1
      · simp [h0]
      · simp [h1]
      · simp [h0, h1]

/-- **`mode` says which keys are held.** After every history of scan codes, the bit of each modifier
key is set if and only if it has been pressed last, caps lock is on if and only if its key has been
pressed an odd number of times, and the lamp shows it. -/
theorem mode_eq (h₀ : s₀.Initial) (h : Runs Step s₀ es s) :
    (∀ k : Key, s.modes.mode.getLsbD k.bit = held k (changes es)) ∧
      s.modes.mode.getLsbD 6 = capsOn (changes es) ∧
        s.modes.leds.getLsbD 2 = capsOn (changes es) := by
  rw [modes_run h₀ h]
  suffices hall : (∀ k : Key, (modesOf es).mode.getLsbD k.bit = held k (changes es)) ∧
      (modesOf es).mode.getLsbD 6 = capsOn (changes es) ∧
        (modesOf es).leds.getLsbD 2 = (modesOf es).mode.getLsbD 6 from
    ⟨hall.1, hall.2.1, hall.2.2.trans hall.2.1⟩
  clear h
  induction es with
  | nil =>
    refine ⟨fun k => ?_, rfl, rfl⟩
    cases k <;> rfl
  | cons e es ih =>
    cases e with
    | take => exact ih
    | key code ecx =>
      obtain ⟨hbit, hlock, hlamp⟩ := ih
      rw [modesOf, Modes.next, changes, ← e0_eq]
      split_ifs with h0 h1
      · subst h0
        exact ⟨hbit, hlock, hlamp⟩
      · subst h1
        exact ⟨hbit, hlock, hlamp⟩
      · exact ⟨fun k => (modesOf es).bit_handle _ _ k (hbit k),
          (modesOf es).caps_handle _ _ (hbit .caps) hlock hlamp⟩

/-- An interrupt puts the bytes of its key if there is room for all of them. -/
theorem content_interrupt (s : State) (code : UInt8) (ecx : BitVec 32) :
    (s.interrupt code ecx).queue.content = s.queue.content ++
      if s.queue.chars + (s.modes.sends code ecx).length ≤ 1023 then s.modes.sends code ecx
      else [] := by
  rw [State.interrupt, Modes.sends]
  cases s.modes.puts code ecx with
  | none => simp
  | some eax => exact content_putQueue s.queue eax

theorem put_interrupt (s : State) (code : UInt8) (ecx : BitVec 32) :
    (s.interrupt code ecx).queue.put.reverse = s.queue.put.reverse ++
      if s.queue.chars + (s.modes.sends code ecx).length ≤ 1023 then s.modes.sends code ecx
      else [] := by
  rw [State.interrupt, Modes.sends]
  cases s.modes.puts code ecx with
  | none => simp
  | some eax =>
    dsimp only [Option.elim_some]
    rw [put_putQueue, List.reverse_append, List.reverse_reverse]
    rfl

theorem fifo_interrupt (h : s.queue.Fifo) (code : UInt8) (ecx : BitVec 32) :
    (s.interrupt code ecx).queue.Fifo := by
  rw [State.interrupt]
  cases s.modes.puts code ecx with
  | none => exact h
  | some eax => exact fifo_putQueue h

/-- **Keys arrive whole and in order.** In every run, what has been put into the queue is made of
keys that have been pressed, in order, with all bytes of each, and the next key is put if there is
room for all of its bytes. -/
theorem keys_whole (h₀ : s₀.Initial) (h : Runs Step s₀ es s) :
    (∃ kept : List (List UInt8), kept.Sublist (typed es) ∧
      s.queue.taken.reverse ++ s.queue.content = kept.flatten) ∧
    ∀ code ecx, (s.interrupt code ecx).queue.content = s.queue.content ++
      if s.queue.chars + ((modesOf es).sends code ecx).length ≤ 1023 then
        (modesOf es).sends code ecx
      else [] := by
  refine ⟨?_, fun code ecx => ?_⟩
  · suffices hall : s.queue.Fifo ∧ ∃ kept : List (List UInt8), kept.Sublist (typed es) ∧
        s.queue.put.reverse = kept.flatten by
      obtain ⟨hfifo, kept, hsub, hput⟩ := hall
      exact ⟨kept, hsub, hfifo.put.symm.trans hput⟩
    induction h with
    | nil =>
      refine ⟨h₀.fifo, [], List.Sublist.slnil, ?_⟩
      rw [h₀.put]
      rfl
    | @cons es e s s' hrun hstep ih =>
      obtain ⟨hfifo, kept, hsub, hput⟩ := ih
      cases e with
      | key code ecx =>
        simp only [Step, State.next] at hstep
        split_ifs at hstep
        obtain rfl := Option.some.inj hstep
        refine ⟨fifo_interrupt hfifo code ecx, ?_⟩
        rw [put_interrupt, hput, modes_run h₀ hrun, typed]
        split_ifs
        · refine ⟨kept ++ [(modesOf es).sends code ecx], hsub.append (List.Sublist.refl _), ?_⟩
          rw [List.flatten_append, List.flatten_singleton]
        · exact ⟨kept, hsub.trans (List.sublist_append_left ..), List.append_nil _⟩
      | take =>
        simp only [Step, State.next] at hstep
        split_ifs at hstep with hempty
        obtain rfl := Option.some.inj hstep
        exact ⟨hfifo.getch (Bool.eq_false_iff.mpr hempty), kept, hsub, hput⟩
  · rw [content_interrupt, modes_run h₀ h]

/-- Nothing has been pressed, and the queue is empty. -/
def fresh : State := ⟨⟨0, 2, 0⟩, ⟨0, 0, 0, fun _ => 0, [], [], false, false⟩⟩

theorem fresh_initial : fresh.Initial := ⟨rfl, ⟨rfl, rfl, rfl⟩, rfl⟩

/-- Caps lock, a letter with the left shift key, and a function key that is lost. -/
def pressed : List Event :=
  [.key 0x3b 3, .key 0x1e 0, .key 0x2a 0, .key 0xba 0, .key 0x3a 0]

theorem pressed_run : ∃ s, Runs Step fresh pressed s :=
  ⟨_, .cons (.cons (.cons (.cons (.cons .nil rfl) rfl) rfl) rfl) rfl⟩

theorem mode_eq_pressed : ∃ s, Runs Step fresh pressed s ∧
    (∀ k : Key, s.modes.mode.getLsbD k.bit = held k (changes pressed)) ∧
      s.modes.mode.getLsbD 6 = capsOn (changes pressed) ∧
        s.modes.leds.getLsbD 2 = capsOn (changes pressed) := by
  obtain ⟨s, hs⟩ := pressed_run
  exact ⟨s, hs, mode_eq fresh_initial hs⟩

theorem keys_whole_pressed : ∃ s, Runs Step fresh pressed s ∧
    (∃ kept : List (List UInt8), kept.Sublist (typed pressed) ∧
      s.queue.taken.reverse ++ s.queue.content = kept.flatten) ∧
    ∀ code ecx, (s.interrupt code ecx).queue.content = s.queue.content ++
      if s.queue.chars + ((modesOf pressed).sends code ecx).length ≤ 1023 then
        (modesOf pressed).sends code ecx
      else [] := by
  obtain ⟨s, hs⟩ := pressed_run
  exact ⟨s, hs, keys_whole fresh_initial hs⟩

example : typed pressed = [[], [], [], [65], []] := by decide

end Linux001.Tty.Keyboard
