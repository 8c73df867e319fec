import Linux001.Lib.I386
import Mathlib.Logic.Relation
import Mathlib.Data.Fintype.Defs
import Mathlib.Data.Finset.Insert

/-!
# Interrupt handlers

Handlers of interrupts that are written in assembler, as far as they save and restore the registers
of the code that they interrupt, and a check of them. The check executes a handler with shapes: a
shape says of every register, and of every word that the handler has pushed, whether it is what some
register was in the beginning. A handler that passes gives back all registers and the stack, on
every path through it and whatever the C functions that it calls leave behind.

## Main definitions

* `Instr`, `Code`: instructions, and code with branches and loops.
* `Exec`: what code does.
* `Shape`, `Code.shape`: the shapes, and what code does to them.
* `Code.restores`: the check.

## Main results

* `Shape.Holds.exec`: shapes follow what code does.
* `exec_of_restores`: a handler that passes the check restores the registers and the stack.
-/

namespace Linux001.Handlers

open I386 (Word)

/-! ### Code -/

inductive Reg
  | eax
  | ebx
  | ecx
  | edx
  | esi
  | edi
  | ebp
  deriving DecidableEq

instance : Fintype Reg :=
  ⟨{.eax, .ebx, .ecx, .edx, .esi, .edi, .ebp}, fun r => by cases r <;> decide⟩

inductive Seg
  | ds
  | es
  | fs
  | gs
  deriving DecidableEq

instance : Fintype Seg := ⟨{.ds, .es, .fs, .gs}, fun s => by cases s <;> decide⟩

/-- The registers of the processor, without those that an interrupt saves by itself. -/
structure Regs where
  reg : Reg → Word
  seg : Seg → BitVec 16

/-- The registers, and the words of the stack from the one at `%esp` on. -/
structure Cpu where
  regs : Regs
  stack : List Word

def Regs.set (o : Regs) (r : Reg) (w : Word) : Regs := { o with reg := Function.update o.reg r w }

def Regs.setSeg (o : Regs) (s : Seg) (x : BitVec 16) : Regs :=
  { o with seg := Function.update o.seg s x }

inductive Instr
  | pushl (r : Reg)
  | popl (r : Reg)
  /-- `push %s`. The high half of the word is not defined. -/
  | push (s : Seg)
  | pop (s : Seg)
  /-- `pushl $w`. -/
  | pushImm (w : Word)
  /-- `pushl $symbol`, with an address that is left open. -/
  | pushSym
  /-- `movl $w,%r`. -/
  | movImm (w : Word) (r : Reg)
  /-- `mov %r,%s`, with the low half of the register. -/
  | mov (r : Reg) (s : Seg)
  /-- `xchgl %r,4*i(%esp)`. -/
  | xchgl (r : Reg) (i : ℕ)
  /-- `addl $4*n,%esp`. -/
  | drop (n : ℕ)
  /-- Any instruction that stores into the register and nowhere else on the stack or in the
  registers. -/
  | load (r : Reg)
  /-- `call` of a C function with `n` words of arguments. Its data must be in `%ds`, and it may
  change `%eax`, `%ecx`, `%edx` and its arguments. -/
  | call (n : ℕ)

/-- Code with branches and loops, in which it is left open how they are decided. -/
inductive Code
  | skip
  | instr (i : Instr)
  | seq (c d : Code)
  | alt (c d : Code)
  | loop (c : Code)

/-- Instructions one after the other. -/
def Code.block : List Instr → Code
  | [] => skip
  | i :: is => seq (instr i) (block is)

/-- The registers that a C function need not save. -/
def scratch : List Reg := [.eax, .ecx, .edx]

/-- The selector of the data of the kernel. -/
def kernelData : Word := 0x10

/-- What an instruction does. -/
def Instr.Step (m m' : Cpu) : Instr → Prop
  | pushl r => m' = ⟨m.regs, m.regs.reg r :: m.stack⟩
  | popl r => ∃ w st, m.stack = w :: st ∧ m' = ⟨m.regs.set r w, st⟩
  | push s => ∃ w : Word, w.setWidth 16 = m.regs.seg s ∧ m' = ⟨m.regs, w :: m.stack⟩
  | pop s => ∃ w st, m.stack = w :: st ∧ m' = ⟨m.regs.setSeg s (w.setWidth 16), st⟩
  | pushImm w => m' = ⟨m.regs, w :: m.stack⟩
  | pushSym => ∃ w, m' = ⟨m.regs, w :: m.stack⟩
  | movImm w r => m' = ⟨m.regs.set r w, m.stack⟩
  | mov r s => m' = ⟨m.regs.setSeg s ((m.regs.reg r).setWidth 16), m.stack⟩
  | xchgl r i => ∃ w, m.stack[i]? = some w ∧
      m' = ⟨m.regs.set r w, m.stack.set i (m.regs.reg r)⟩
  | drop n => n ≤ m.stack.length ∧ m' = ⟨m.regs, m.stack.drop n⟩
  | load r => ∃ w, m' = ⟨m.regs.set r w, m.stack⟩
  | call n => m.regs.seg .ds = kernelData.setWidth 16 ∧ n ≤ m.stack.length ∧
      ∃ regs args, (∀ r ∉ scratch, regs.reg r = m.regs.reg r) ∧ regs.seg = m.regs.seg ∧
        args.length = n ∧ m' = ⟨regs, args ++ m.stack.drop n⟩

/-- What code does. -/
def Exec : Code → Cpu → Cpu → Prop
  | .skip, m, m' => m' = m
  | .instr i, m, m' => i.Step m m'
  | .seq c d, m, m' => ∃ m₁, Exec c m m₁ ∧ Exec d m₁ m'
  | .alt c d, m, m' => Exec c m m' ∨ Exec d m m'
  | .loop c, m, m' => Relation.ReflTransGen (Exec c) m m'

/-- Code never gets stuck, on whichever path. -/
def Safe : Code → Cpu → Prop
  | .skip, _ => True
  | .instr i, m => ∃ m', i.Step m m'
  | .seq c d, m => Safe c m ∧ ∀ m₁, Exec c m m₁ → Safe d m₁
  | .alt c d, m => Safe c m ∧ Safe d m
  | .loop c, m => ∀ m₁, Relation.ReflTransGen (Exec c) m m₁ → Safe c m₁

/-! ### Shapes -/

/-- What is known of a word: that it is a register in the beginning, a constant, or nothing. -/
inductive Val
  | reg (r : Reg)
  | seg (s : Seg)
  | imm (w : Word)
  | any
  deriving DecidableEq

/-- What is known of the registers and of the words on the stack. -/
structure Shape where
  reg : Reg → Val
  seg : Seg → Val
  stack : List Val

def Val.Is (o : Regs) (w : Word) : Val → Prop
  | reg r => w = o.reg r
  | seg s => w.setWidth 16 = o.seg s
  | imm v => w = v
  | any => True

/-- A segment register is never known to be another register. -/
def Val.IsSeg (o : Regs) (x : BitVec 16) : Val → Prop
  | reg _ => True
  | seg s => x = o.seg s
  | imm v => x = v.setWidth 16
  | any => True

/-- What is known of a word that is pushed from a segment register. -/
def Val.half : Val → Val
  | seg s => seg s
  | _ => any

/-- The weaker of two values. -/
def Val.join (v w : Val) : Val := if v = w then v else any

/-- The registers and the stack have the shape, with `rest` below. -/
structure Shape.Holds (o : Regs) (rest : List Word) (a : Shape) (m : Cpu) : Prop where
  reg : ∀ r, (a.reg r).Is o (m.regs.reg r)
  seg : ∀ s, (a.seg s).IsSeg o (m.regs.seg s)
  stack : ∃ ws, m.stack = ws ++ rest ∧ List.Forall₂ (fun v w => v.Is o w) a.stack ws

/-- What an instruction does to the shape. It must not reach below what has been pushed. -/
def Instr.shape (a : Shape) : Instr → Option Shape
  | pushl r => some { a with stack := a.reg r :: a.stack }
  | popl r =>
    match a.stack with
    | [] => none
    | v :: st => some { a with reg := Function.update a.reg r v, stack := st }
  | push s => some { a with stack := (a.seg s).half :: a.stack }
  | pop s =>
    match a.stack with
    | [] => none
    | v :: st => some { a with seg := Function.update a.seg s v, stack := st }
  | pushImm w => some { a with stack := .imm w :: a.stack }
  | pushSym => some { a with stack := .any :: a.stack }
  | movImm w r => some { a with reg := Function.update a.reg r (.imm w) }
  | mov r s => some { a with seg := Function.update a.seg s (a.reg r) }
  | xchgl r i => a.stack[i]?.map fun v =>
      { a with reg := Function.update a.reg r v, stack := a.stack.set i (a.reg r) }
  | drop n => if n ≤ a.stack.length then some { a with stack := a.stack.drop n } else none
  | load r => some { a with reg := Function.update a.reg r .any }
  | call n =>
    if a.seg .ds = .imm kernelData ∧ n ≤ a.stack.length then
      some { a with
        reg := fun r => if r ∈ scratch then .any else a.reg r
        stack := List.replicate n .any ++ a.stack.drop n }
    else none

/-- What two shapes have in common. -/
def Shape.join (a b : Shape) : Option Shape :=
  if a.stack.length = b.stack.length then
    some ⟨fun r => (a.reg r).join (b.reg r), fun s => (a.seg s).join (b.seg s),
      a.stack.zipWith Val.join b.stack⟩
  else none

/-- The second shape says no more than the first. -/
def Shape.below (a b : Shape) : Bool :=
  (decide (∀ r, (a.reg r).join (b.reg r) = b.reg r)) &&
    decide (∀ s, (a.seg s).join (b.seg s) = b.seg s) &&
    decide (a.stack.length = b.stack.length ∧ a.stack.zipWith Val.join b.stack = b.stack)

/-- What code does to the shape. A loop is tried once to find out what it changes. -/
def Code.shape : Code → Shape → Option Shape
  | skip, a => some a
  | instr i, a => i.shape a
  | seq c d, a => (c.shape a).bind d.shape
  | alt c d, a => (c.shape a).bind fun b => (d.shape a).bind b.join
  | loop c, a => (c.shape a).bind fun b => (a.join b).bind fun j =>
      (c.shape j).bind fun b' => if b'.below j then some j else none

/-- The shape in the beginning, with `n` words that the processor has pushed besides the frame. -/
def Shape.start (n : ℕ) : Shape := ⟨.reg, .seg, List.replicate n .any⟩

/-- All registers are as in the beginning, and what has been pushed has been taken back. -/
def Shape.restored (a : Shape) : Bool :=
  decide (∀ r, a.reg r = .reg r) && decide (∀ s, a.seg s = .seg s) && a.stack.isEmpty

/-- The check of a handler that finds `n` words on the stack besides the frame. -/
def Code.restores (c : Code) (n : ℕ) : Bool := (c.shape (.start n)).any Shape.restored

section Soundness

variable {o : Regs} {rest : List Word} {a b j : Shape} {m m' : Cpu} {c : Code} {i : Instr}

/-- What is said of the weaker of two values is said of both. -/
theorem Val.join_left {P : Val → Prop} (hany : P .any) {v : Val} (h : P v) (v' : Val) :
    P (v.join v') := by
  rw [Val.join]
  split_ifs
  · exact h
  · exact hany

theorem Val.join_right {P : Val → Prop} (hany : P .any) {v' : Val} (h : P v') (v : Val) :
    P (v.join v') := by
  rw [Val.join]
  split_ifs with heq
  · rwa [heq]
  · exact hany

theorem forall₂_join_left {P : Val → Word → Prop} (hany : ∀ w, P .any w) {vs vs' : List Val}
    {ws : List Word} (h : List.Forall₂ P vs ws) (hlen : vs.length = vs'.length) :
    List.Forall₂ P (vs.zipWith Val.join vs') ws := by
  induction h generalizing vs' with
  | nil => exact .nil
  | cons hv _ ih =>
    cases vs' with
    | nil => cases hlen
    | cons v' vs' =>
      exact .cons (Val.join_left (P := (P · _)) (hany _) hv v') (ih (Nat.succ.inj hlen))

theorem forall₂_join_right {P : Val → Word → Prop} (hany : ∀ w, P .any w) {vs vs' : List Val}
    {ws : List Word} (h : List.Forall₂ P vs' ws) (hlen : vs.length = vs'.length) :
    List.Forall₂ P (vs.zipWith Val.join vs') ws := by
  induction h generalizing vs with
  | nil =>
    obtain rfl := List.eq_nil_of_length_eq_zero hlen
    exact .nil
  | cons hv _ ih =>
    cases vs with
    | nil => cases hlen
    | cons v vs =>
      exact .cons (Val.join_right (P := (P · _)) (hany _) hv v) (ih (Nat.succ.inj hlen))

theorem forall₂_getElem? {P : Val → Word → Prop} {vs : List Val} {ws : List Word} {i : ℕ} {v : Val}
    (h : List.Forall₂ P vs ws) (hv : vs[i]? = some v) : ∃ w, ws[i]? = some w ∧ P v w := by
  induction h generalizing i with
  | nil => cases hv
  | @cons v₀ w₀ vs ws hP _ ih =>
    cases i with
    | zero =>
      obtain rfl := Option.some.inj hv
      exact ⟨w₀, rfl, hP⟩
    | succ i => exact ih hv

theorem forall₂_set {P : Val → Word → Prop} {vs : List Val} {ws : List Word} {v : Val} {w : Word}
    (h : List.Forall₂ P vs ws) (i : ℕ) (hP : P v w) : List.Forall₂ P (vs.set i v) (ws.set i w) := by
  induction h generalizing i with
  | nil => exact .nil
  | cons h₀ hrest ih =>
    cases i with
    | zero => exact .cons hP hrest
    | succ i => exact .cons h₀ (ih i)

theorem forall₂_any (o : Regs) (ws : List Word) :
    List.Forall₂ (fun v w => v.Is o w) (List.replicate ws.length Val.any) ws := by
  induction ws with
  | nil => exact .nil
  | cons w ws ih => exact .cons trivial ih

theorem Shape.Holds.join_left (h : a.Holds o rest m) (hj : a.join b = some j) :
    j.Holds o rest m := by
  rw [Shape.join] at hj
  split_ifs at hj with hlen
  obtain rfl := Option.some.inj hj
  obtain ⟨ws, hstack, hws⟩ := h.stack
  exact ⟨fun r => Val.join_left (P := (·.Is o _)) trivial (h.reg r) _,
    fun s => Val.join_left (P := (·.IsSeg o _)) trivial (h.seg s) _,
    ws, hstack, forall₂_join_left (fun _ => trivial) hws hlen⟩

theorem Shape.Holds.join_right (h : b.Holds o rest m) (hj : a.join b = some j) :
    j.Holds o rest m := by
  rw [Shape.join] at hj
  split_ifs at hj with hlen
  obtain rfl := Option.some.inj hj
  obtain ⟨ws, hstack, hws⟩ := h.stack
  exact ⟨fun r => Val.join_right (P := (·.Is o _)) trivial (h.reg r) _,
    fun s => Val.join_right (P := (·.IsSeg o _)) trivial (h.seg s) _,
    ws, hstack, forall₂_join_right (fun _ => trivial) hws hlen⟩

theorem Shape.Holds.below (h : a.Holds o rest m) (hb : a.below b = true) : b.Holds o rest m := by
  rw [Shape.below, Bool.and_eq_true, Bool.and_eq_true, decide_eq_true_iff, decide_eq_true_iff,
    decide_eq_true_iff] at hb
  obtain ⟨⟨hreg, hseg⟩, hlen, hstack⟩ := hb
  refine h.join_left (b := b) ?_
  rw [Shape.join, if_pos hlen, hstack, funext hreg, funext hseg]

theorem is_update {f : Reg → Val} {regs : Regs} {v : Val} {w : Word} (r : Reg)
    (h : ∀ r, (f r).Is o (regs.reg r)) (hv : v.Is o w) (r' : Reg) :
    (Function.update f r v r').Is o ((regs.set r w).reg r') := by
  by_cases hr : r' = r
  · subst hr
    simpa only [Regs.set, Function.update_self] using hv
  · simpa only [Regs.set, Function.update_of_ne hr] using h r'

theorem isSeg_update {f : Seg → Val} {regs : Regs} {v : Val} {x : BitVec 16} (s : Seg)
    (h : ∀ s, (f s).IsSeg o (regs.seg s)) (hv : v.IsSeg o x) (s' : Seg) :
    (Function.update f s v s').IsSeg o ((regs.setSeg s x).seg s') := by
  by_cases hs : s' = s
  · subst hs
    simpa only [Regs.setSeg, Function.update_self] using hv
  · simpa only [Regs.setSeg, Function.update_of_ne hs] using h s'

/-- The low half of a word that is a segment register is that register. -/
theorem Val.Is.low {v : Val} {w : Word} (h : v.Is o w) : v.IsSeg o (w.setWidth 16) := by
  cases v with
  | reg r => trivial
  | seg s => exact h
  | imm v => exact congrArg _ h
  | any => trivial

theorem Val.IsSeg.half {v : Val} {x : BitVec 16} {w : Word} (h : v.IsSeg o x)
    (hw : w.setWidth 16 = x) : v.half.Is o w := by
  cases v with
  | seg s => exact hw.trans h
  | reg r => trivial
  | imm v => trivial
  | any => trivial

/-- Shapes follow what an instruction does. -/
theorem Shape.Holds.step (h : a.Holds o rest m) (hi : i.shape a = some b) (hs : i.Step m m') :
    b.Holds o rest m' := by
  obtain ⟨areg, aseg, astack⟩ := a
  obtain ⟨hreg, hseg, ws, hstack, hws⟩ := h
  dsimp only at hreg hseg hws
  cases i with
  | pushl r =>
    obtain rfl := Option.some.inj hi
    obtain rfl := hs
    exact ⟨hreg, hseg, _ :: ws, congrArg _ hstack, .cons (hreg r) hws⟩
  | popl r =>
    obtain ⟨w, st, hst, rfl⟩ := hs
    rw [Instr.shape] at hi
    cases hws with
    | nil => cases hi
    | cons hv hws =>
      obtain rfl := Option.some.inj hi
      obtain ⟨rfl, rfl⟩ := List.cons.inj (hst.symm.trans hstack)
      exact ⟨is_update r hreg hv, hseg, _, rfl, hws⟩
  | push s =>
    obtain ⟨w, hw, rfl⟩ := hs
    rw [Instr.shape] at hi
    obtain rfl := Option.some.inj hi
    exact ⟨hreg, hseg, w :: ws, congrArg _ hstack, .cons ((hseg s).half hw) hws⟩
  | pop s =>
    obtain ⟨w, st, hst, rfl⟩ := hs
    rw [Instr.shape] at hi
    cases hws with
    | nil => cases hi
    | cons hv hws =>
      obtain rfl := Option.some.inj hi
      obtain ⟨rfl, rfl⟩ := List.cons.inj (hst.symm.trans hstack)
      exact ⟨hreg, isSeg_update s hseg hv.low, _, rfl, hws⟩
  | pushImm w =>
    obtain rfl := Option.some.inj hi
    obtain rfl := hs
    exact ⟨hreg, hseg, w :: ws, congrArg _ hstack, .cons rfl hws⟩
  | pushSym =>
    obtain rfl := Option.some.inj hi
    obtain ⟨w, rfl⟩ := hs
    exact ⟨hreg, hseg, w :: ws, congrArg _ hstack, .cons trivial hws⟩
  | movImm w r =>
    obtain rfl := Option.some.inj hi
    obtain rfl := hs
    exact ⟨is_update r hreg rfl, hseg, ws, hstack, hws⟩
  | mov r s =>
    obtain rfl := Option.some.inj hi
    obtain rfl := hs
    exact ⟨hreg, isSeg_update s hseg (hreg r).low, ws, hstack, hws⟩
  | xchgl r i =>
    obtain ⟨w, hw, rfl⟩ := hs
    obtain ⟨v, hv, rfl⟩ := Option.map_eq_some_iff.mp hi
    obtain ⟨w', hw', his⟩ := forall₂_getElem? hws hv
    obtain ⟨hlt, -⟩ := List.getElem?_eq_some_iff.mp hw'
    rw [hstack, List.getElem?_append_left hlt, hw'] at hw
    obtain rfl := Option.some.inj hw
    refine ⟨is_update r hreg his, hseg, ws.set i _, ?_, forall₂_set hws i (hreg r)⟩
    rw [hstack, List.set_append_left _ _ hlt]
  | drop n =>
    rw [Instr.shape] at hi
    split_ifs at hi with hn
    obtain rfl := Option.some.inj hi
    obtain ⟨-, rfl⟩ := hs
    refine ⟨hreg, hseg, ws.drop n, ?_, List.forall₂_drop n hws⟩
    rw [hstack, List.drop_append_of_le_length]
    rwa [← hws.length_eq]
  | load r =>
    obtain rfl := Option.some.inj hi
    obtain ⟨w, rfl⟩ := hs
    exact ⟨is_update r hreg trivial, hseg, ws, hstack, hws⟩
  | call n =>
    rw [Instr.shape] at hi
    split_ifs at hi with hn
    obtain rfl := Option.some.inj hi
    obtain ⟨-, -, regs, args, hsaved, hsegs, hargs, rfl⟩ := hs
    refine ⟨fun r => ?_, fun s => ?_, args ++ ws.drop n, ?_, ?_⟩
    · dsimp only
      split_ifs with hr
      · trivial
      · rw [hsaved r hr]
        exact hreg r
    · rw [hsegs]
      exact hseg s
    · rw [hstack, List.drop_append_of_le_length (hws.length_eq ▸ hn.2), List.append_assoc]
    · rw [← hargs]
      exact List.rel_append (forall₂_any o args) (List.forall₂_drop _ hws)

/-- **Shapes follow what code does.** -/
theorem Shape.Holds.exec (h : a.Holds o rest m) (hc : c.shape a = some b) (he : Exec c m m') :
    b.Holds o rest m' := by
  induction c generalizing a b m m' with
  | skip =>
    obtain rfl := Option.some.inj hc
    obtain rfl := he
    exact h
  | instr i => exact h.step hc he
  | seq c d ihc ihd =>
    obtain ⟨b₁, hb₁, hd⟩ := Option.bind_eq_some_iff.mp hc
    obtain ⟨m₁, hc, he⟩ := he
    exact ihd (ihc h hb₁ hc) hd he
  | alt c d ihc ihd =>
    obtain ⟨b₁, hb₁, hc⟩ := Option.bind_eq_some_iff.mp hc
    obtain ⟨b₂, hb₂, hj⟩ := Option.bind_eq_some_iff.mp hc
    rcases he with he | he
    · exact (ihc h hb₁ he).join_left hj
    · exact (ihd h hb₂ he).join_right hj
  | loop c ih =>
    obtain ⟨b₁, hb₁, hc⟩ := Option.bind_eq_some_iff.mp hc
    obtain ⟨j, hj, hc⟩ := Option.bind_eq_some_iff.mp hc
    obtain ⟨b', hb', hc⟩ := Option.bind_eq_some_iff.mp hc
    split_ifs at hc with hbelow
    obtain rfl := Option.some.inj hc
    -- The shape of the loop holds at the beginning of each turn.
    induction he with
    | refl => exact h.join_left hj
    | tail _ hturn ihturn => exact (ih ihturn hb' hturn).below hbelow

/-- An instruction with a shape can be executed. -/
theorem Shape.Holds.exists_step (h : a.Holds o rest m) (hi : i.shape a = some b) :
    ∃ m', i.Step m m' := by
  obtain ⟨areg, aseg, astack⟩ := a
  obtain ⟨hreg, hseg, ws, hstack, hws⟩ := h
  dsimp only at hreg hseg hws
  cases i with
  | pushl r => exact ⟨_, rfl⟩
  | popl r | pop s =>
    cases hws with
    | nil => cases hi
    | cons _ _ => exact ⟨_, _, _, hstack, rfl⟩
  | push s => exact ⟨_, (m.regs.seg s).setWidth 32, by simp, rfl⟩
  | pushImm w => exact ⟨_, rfl⟩
  | pushSym => exact ⟨_, 0, rfl⟩
  | movImm w r => exact ⟨_, rfl⟩
  | mov r s => exact ⟨_, rfl⟩
  | xchgl r i =>
    obtain ⟨v, hv, -⟩ := Option.map_eq_some_iff.mp hi
    obtain ⟨w, hw, -⟩ := forall₂_getElem? hws hv
    obtain ⟨hlt, -⟩ := List.getElem?_eq_some_iff.mp hw
    exact ⟨_, w, by rw [hstack, List.getElem?_append_left hlt, hw], rfl⟩
  | drop n =>
    rw [Instr.shape] at hi
    split_ifs at hi with hn
    refine ⟨_, ?_, rfl⟩
    rw [hstack, List.length_append, ← hws.length_eq]
    exact hn.trans (Nat.le_add_right _ _)
  | load r => exact ⟨_, 0, rfl⟩
  | call n =>
    rw [Instr.shape] at hi
    split_ifs at hi with hn
    have hkernel : aseg .ds = .imm kernelData := hn.1
    have hds := hseg .ds
    rw [hkernel] at hds
    have hlen : n ≤ m.stack.length := by
      rw [hstack, List.length_append, ← hws.length_eq]
      exact hn.2.trans (Nat.le_add_right _ _)
    exact ⟨_, hds, hlen, m.regs, List.replicate n 0, fun _ _ => rfl, rfl, List.length_replicate,
      rfl⟩

/-- Code with a shape does not get stuck. -/
theorem Shape.Holds.safe (h : a.Holds o rest m) (hc : c.shape a = some b) : Safe c m := by
  induction c generalizing a b m with
  | skip => trivial
  | instr i => exact h.exists_step hc
  | seq c d ihc ihd =>
    obtain ⟨b₁, hb₁, hd⟩ := Option.bind_eq_some_iff.mp hc
    exact ⟨ihc h hb₁, fun m₁ he => ihd (h.exec hb₁ he) hd⟩
  | alt c d ihc ihd =>
    obtain ⟨b₁, hb₁, hc⟩ := Option.bind_eq_some_iff.mp hc
    obtain ⟨b₂, hb₂, -⟩ := Option.bind_eq_some_iff.mp hc
    exact ⟨ihc h hb₁, ihd h hb₂⟩
  | loop c ih =>
    intro m₁ hturns
    obtain ⟨b₁, hb₁, hc'⟩ := Option.bind_eq_some_iff.mp hc
    obtain ⟨j, hj, hc'⟩ := Option.bind_eq_some_iff.mp hc'
    obtain ⟨b', hb', hc'⟩ := Option.bind_eq_some_iff.mp hc'
    split_ifs at hc' with hbelow
    obtain rfl := Option.some.inj hc'
    exact ih (h.exec hc hturns) hb'

/-- Code that never gets stuck can be executed to its end. -/
theorem Safe.exists_exec (h : Safe c m) : ∃ m', Exec c m m' := by
  induction c generalizing m with
  | skip => exact ⟨m, rfl⟩
  | instr i => exact h
  | seq c d ihc ihd =>
    obtain ⟨m₁, hc⟩ := ihc h.1
    obtain ⟨m', hd⟩ := ihd (h.2 m₁ hc)
    exact ⟨m', m₁, hc, hd⟩
  | alt c d ihc _ =>
    obtain ⟨m', hc⟩ := ihc h.1
    exact ⟨m', .inl hc⟩
  | loop c _ => exact ⟨m, .refl⟩

theorem Shape.holds_start (o : Regs) (rest err : List Word) :
    (Shape.start err.length).Holds o rest ⟨o, err ++ rest⟩ :=
  ⟨fun _ => rfl, fun _ => rfl, err, rfl, forall₂_any o err⟩

/-- A handler that passes the check does not get stuck. -/
theorem safe_of_restores {n : ℕ} {err : List Word} (hc : c.restores n = true)
    (herr : err.length = n) : Safe c ⟨o, err ++ rest⟩ := by
  rw [Code.restores] at hc
  cases hb : c.shape (.start n) with
  | none =>
    rw [hb] at hc
    cases hc
  | some b =>
    rw [← herr] at hb
    exact (Shape.holds_start o rest err).safe hb

/-- Code that leads to a stronger shape. -/
theorem Shape.Holds.exec_below (h : a.Holds o rest m)
    (hc : (c.shape a).any (·.below b) = true) (he : Exec c m m') : b.Holds o rest m' := by
  cases hb : c.shape a with
  | none =>
    rw [hb] at hc
    cases hc
  | some b' =>
    rw [hb] at hc
    exact (h.exec hb he).below hc

/-- Code that restores the registers and the stack. -/
theorem Shape.Holds.exec_restored (h : a.Holds o rest m)
    (hc : (c.shape a).any Shape.restored = true) (he : Exec c m m') : m' = ⟨o, rest⟩ := by
  cases hb : c.shape a with
  | none =>
    rw [hb] at hc
    cases hc
  | some b =>
    rw [hb, Option.any_some, Shape.restored, Bool.and_eq_true, Bool.and_eq_true,
      decide_eq_true_iff, decide_eq_true_iff, List.isEmpty_iff] at hc
    obtain ⟨⟨hregs, hsegs⟩, hnil⟩ := hc
    obtain ⟨hreg, hseg, ws, hstack, hws⟩ := h.exec hb he
    rw [hnil] at hws
    cases hws
    obtain ⟨⟨reg, seg⟩, stack⟩ := m'
    simp only [hregs, hsegs, Val.Is, Val.IsSeg] at hreg hseg
    obtain rfl : stack = rest := hstack
    rw [funext hreg, funext hseg]

/-- Code with a shape comes to its end. -/
theorem Shape.Holds.exists_exec (h : a.Holds o rest m) {p : Shape → Bool}
    (hc : (c.shape a).any p = true) : ∃ m', Exec c m m' := by
  cases hb : c.shape a with
  | none =>
    rw [hb] at hc
    cases hc
  | some b => exact (h.safe hb).exists_exec

/-- **A handler that passes the check restores the registers and the stack.** -/
theorem exec_of_restores {n : ℕ} {err : List Word} (hc : c.restores n = true)
    (herr : err.length = n) (he : Exec c ⟨o, err ++ rest⟩ m') : m' = ⟨o, rest⟩ := by
  subst herr
  exact (Shape.holds_start o rest err).exec_restored hc he

end Soundness

end Linux001.Handlers
