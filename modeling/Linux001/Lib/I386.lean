import Mathlib.Data.BitVec
import Mathlib.Logic.Function.Basic

/-!
# Code for the 386

Routines that are written in assembler, as far as they use the general registers, the words of the
kernel stack, data of the kernel, and the memory of a process through `%fs`. An instruction is a
function on states, named by its mnemonic and with its operands in the order of the source: first
what is read, then what is changed. A routine is a function from its labels, which either goes on at
another label or is left.

The words of data lie at addresses that are multiples of 4, so that they do not overlap. The memory
of the process is one of bytes, since a process may put its stack anywhere.

## Main definitions

* `Cpu`, `Operand`: states and operands.
* `Cpu.movl`, `Cpu.pushl`, `Cpu.bsfl`, …: instructions.
* `Receives`: words that a process has received in its memory.
* `Ends`: how a routine is left.

## Main results

* `receives_storeWords`: words that are stored one after the other can be read back.
* `Ends.unique`: a routine is left in one way.
-/

namespace Linux001.I386

/-- A word of 32 bits. -/
abbrev Word := BitVec 32

/-- A memory of bytes. -/
abbrev Bytes := Word → BitVec 8

/-! ### Memory -/

/-- The word at an address, with its low byte first. -/
def loadWord (m : Bytes) (a : Word) : Word := m (a + 3) ++ m (a + 2) ++ m (a + 1) ++ m a

def storeWord (m : Bytes) (a w : Word) : Bytes := fun x =>
  if (x - a).toNat < 4 then w.extractLsb' (8 * (x - a).toNat) 8 else m x

/-- Words one after the other. -/
def storeWords (m : Bytes) (a : Word) : List Word → Bytes
  | [] => m
  | w :: ws => storeWords (storeWord m a w) (a + 4) ws

/-- The words are in the second memory at the address, which agrees with the first elsewhere. -/
structure Receives (m m' : Bytes) (a : Word) (ws : List Word) : Prop where
  words : ∀ i (h : i < ws.length), loadWord m' (a + BitVec.ofNat 32 (4 * i)) = ws[i]
  others : ∀ x, 4 * ws.length ≤ (x - a).toNat → m' x = m x

theorem storeWord_of_le {m : Bytes} {a w x : Word} (h : 4 ≤ (x - a).toNat) :
    storeWord m a w x = m x := if_neg (Nat.not_lt.mpr h)

theorem storeWord_offset (m : Bytes) (a w : Word) {k : ℕ} (hk : k < 4) :
    storeWord m a w (a + BitVec.ofNat 32 k) = w.extractLsb' (8 * k) 8 := by
  have hoff : (a + BitVec.ofNat 32 k - a).toNat = k := by
    rw [add_sub_cancel_left, BitVec.toNat_ofNat]
    exact Nat.mod_eq_of_lt (by omega)
  rw [storeWord, hoff, if_pos hk]

theorem loadWord_storeWord (m : Bytes) (a w : Word) : loadWord (storeWord m a w) a = w := by
  have h₀ := storeWord_offset m a w (k := 0) (by decide)
  have h₁ := storeWord_offset m a w (k := 1) (by decide)
  have h₂ := storeWord_offset m a w (k := 2) (by decide)
  have h₃ := storeWord_offset m a w (k := 3) (by decide)
  rw [BitVec.add_zero] at h₀
  unfold loadWord
  rw [h₀]
  erw [h₁, h₂, h₃]
  ext i hi
  simp only [BitVec.getElem_append, BitVec.getElem_extractLsb']
  split_ifs <;> grind

/-- What is loaded depends on four bytes only. -/
theorem loadWord_congr {m m' : Bytes} {a : Word}
    (h : ∀ k < 4, m' (a + BitVec.ofNat 32 k) = m (a + BitVec.ofNat 32 k)) :
    loadWord m' a = loadWord m a := by
  have h₀ := h 0 (by decide)
  have h₁ := h 1 (by decide)
  have h₂ := h 2 (by decide)
  have h₃ := h 3 (by decide)
  rw [BitVec.add_zero] at h₀
  unfold loadWord
  rw [h₀]
  erw [h₁, h₂, h₃]
  rfl

theorem storeWords_of_le {m : Bytes} {a x : Word} (ws : List Word)
    (h : 4 * ws.length ≤ (x - a).toNat) : storeWords m a ws x = m x := by
  induction ws generalizing m a with
  | nil => rfl
  | cons w ws ih =>
    rw [List.length_cons] at h
    have hoff : (x - (a + 4)).toNat = (x - a).toNat - 4 := by
      bv_omega
    rw [storeWords, ih (by omega), storeWord_of_le (by omega)]

theorem receives_storeWords (m : Bytes) (a : Word) (ws : List Word) (hws : 4 * ws.length ≤ 2 ^ 32) :
    Receives m (storeWords m a ws) a ws := by
  refine ⟨fun i hi => ?_, fun x => storeWords_of_le ws⟩
  induction ws generalizing m a i with
  | nil => cases hi
  | cons w ws ih =>
    rw [List.length_cons] at hi hws
    rw [storeWords]
    cases i with
    | zero =>
      -- The words that follow do not reach the first one.
      rw [Nat.mul_zero, BitVec.add_zero, List.getElem_cons_zero]
      refine (loadWord_congr fun k hk => storeWords_of_le ws ?_).trans (loadWord_storeWord m a w)
      have hoff : a + BitVec.ofNat 32 k - (a + 4) = BitVec.ofNat 32 k - 4 := by
        rw [add_sub_add_left_eq_sub]
      rw [hoff]
      bv_omega
    | succ i =>
      have haddr : a + BitVec.ofNat 32 (4 * (i + 1)) = a + 4 + BitVec.ofNat 32 (4 * i) := by
        rw [Nat.mul_add, Nat.mul_one, Nat.add_comm, BitVec.ofNat_add, ← add_assoc]
        rfl
      rw [List.getElem_cons_succ, haddr]
      exact ih _ _ (by omega) _ (by omega)

/-! ### Instructions -/

inductive Reg
  | eax
  | ebx
  | ecx
  | edx
  deriving DecidableEq

structure Cpu where
  reg : Reg → Word
  /-- The words of the kernel stack, from the one at `%esp` on. -/
  stack : List Word
  /-- The words of the data of the kernel, by their addresses. -/
  data : Word → Word
  /-- The memory of the process, as it is seen through `%fs`. -/
  user : Bytes
  zf : Bool
  cf : Bool

inductive Operand
  /-- `$w`. -/
  | imm (w : Word)
  | reg (r : Reg)
  /-- `disp(%esp)`. -/
  | esp (disp : ℕ)
  /-- `disp(%base)`. -/
  | mem (disp : Word) (base : Reg)
  /-- `disp(%base,%index,4)`. -/
  | table (disp : Word) (base index : Reg)
  /-- `%fs:disp(%base)`. -/
  | fs (disp : Word) (base : Reg)

namespace Cpu

def get (m : Cpu) : Operand → Word
  | .imm w => w
  | .reg r => m.reg r
  | .esp disp => m.stack.getD (disp / 4) 0
  | .mem disp base => m.data (m.reg base + disp)
  | .table disp base index => m.data (m.reg base + disp + 4 * m.reg index)
  | .fs disp base => loadWord m.user (m.reg base + disp)

def set (m : Cpu) : Operand → Word → Cpu
  | .imm _, _ => m
  | .reg r, w => { m with reg := Function.update m.reg r w }
  | .esp disp, w => { m with stack := m.stack.set (disp / 4) w }
  | .mem disp base, w => { m with data := Function.update m.data (m.reg base + disp) w }
  | .table disp base index, w =>
    { m with data := Function.update m.data (m.reg base + disp + 4 * m.reg index) w }
  | .fs disp base, w => { m with user := storeWord m.user (m.reg base + disp) w }

/-- The flags are left alone by `movl`, `pushl`, `popl` and `xchgl`. -/
def movl (m : Cpu) (src dst : Operand) : Cpu := m.set dst (m.get src)

def pushl (m : Cpu) (src : Operand) : Cpu := { m with stack := m.get src :: m.stack }

def popl (m : Cpu) (r : Reg) : Cpu :=
  { m with reg := Function.update m.reg r (m.stack.getD 0 0), stack := m.stack.tail }

/-- `addl $n,%esp`, which drops words of the stack. -/
def dropl (m : Cpu) (n : ℕ) : Cpu :=
  { m with stack := m.stack.drop (n / 4)
           zf := false
           cf := false }

def xchgl (m : Cpu) (r : Reg) (dst : Operand) : Cpu :=
  (m.set dst (m.reg r)).set (.reg r) (m.get dst)

def subl (m : Cpu) (src dst : Operand) : Cpu :=
  { m.set dst (m.get dst - m.get src) with
    zf := m.get dst = m.get src
    cf := (m.get dst).ult (m.get src) }

/-- `incl` leaves the carry alone. -/
def incl (m : Cpu) (dst : Operand) : Cpu :=
  { m.set dst (m.get dst + 1) with zf := m.get dst + 1 = 0 }

def cmpl (m : Cpu) (src dst : Operand) : Cpu :=
  { m with
    zf := m.get dst = m.get src
    cf := (m.get dst).ult (m.get src) }

/-- The comparison of the low halves. -/
def cmpw (m : Cpu) (src dst : Operand) : Cpu :=
  { m with
    zf := (m.get dst).setWidth 16 = (m.get src).setWidth 16
    cf := ((m.get dst).setWidth 16).ult ((m.get src).setWidth 16) }

def testl (m : Cpu) (src dst : Operand) : Cpu :=
  { m with
    zf := m.get dst &&& m.get src = 0
    cf := false }

/-- The lowest bit that is set. For 0 only the flag is set. -/
def bsfl (m : Cpu) (src : Operand) (dst : Reg) : Cpu :=
  if m.get src = 0 then { m with zf := true }
  else { m.set (.reg dst) (m.get src).ctz with zf := false }

/-- The bit is cleared, and what it was goes to the carry. -/
def btrl (m : Cpu) (src : Operand) (dst : Reg) : Cpu :=
  { m.set (.reg dst) (m.reg dst &&& ~~~((1 : Word) <<< ((m.get src).toNat % 32))) with
    cf := (m.reg dst).getLsbD ((m.get src).toNat % 32) }

theorem bsfl_zero {m : Cpu} {src : Operand} {dst : Reg} (h : m.get src = 0) :
    m.bsfl src dst = { m with zf := true } := if_pos h

theorem bsfl_of_ne {m : Cpu} {src : Operand} {dst : Reg} (h : m.get src ≠ 0) :
    m.bsfl src dst = { m.set (.reg dst) (m.get src).ctz with zf := false } := if_neg h

end Cpu

/-- What a C function leaves behind in the registers that it need not save, and in the flags. -/
structure Scratch where
  eax : Word
  ecx : Word
  edx : Word
  zf : Bool
  cf : Bool

/-- `call`, with the arguments on the stack. -/
def Cpu.call (m : Cpu) (c : Scratch) : Cpu :=
  { m with
    reg := fun
      | .eax => c.eax
      | .ebx => m.reg .ebx
      | .ecx => c.ecx
      | .edx => c.edx
    zf := c.zf
    cf := c.cf }

/-! ### Routines -/

section Routines

variable {σ ω : Type} {next : σ → σ ⊕ ω} {s s' : σ} {o o' : ω}

/-- From the state, the routine is left with the outcome. -/
inductive Ends (next : σ → σ ⊕ ω) : σ → ω → Prop
  | leave {s : σ} {o : ω} (h : next s = .inr o) : Ends next s o
  | go {s s' : σ} {o : ω} (h : next s = .inl s') (hs' : Ends next s' o) : Ends next s o

theorem Ends.unique (h : Ends next s o) (h' : Ends next s o') : o' = o := by
  induction h with
  | leave h =>
    cases h' with
    | leave h' => exact Sum.inr.inj (h'.symm.trans h)
    | go h' => cases h.symm.trans h'
  | go h _ ih =>
    cases h' with
    | leave h' => cases h.symm.trans h'
    | go h' hs' =>
      obtain rfl := Sum.inl.inj (h.symm.trans h')
      exact ih hs'

end Routines

end Linux001.I386
