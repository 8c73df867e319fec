import Linux001.Mm.Descriptors
import Linux001.Traps.Handlers

/-!
# The interrupt table

`_set_gate` of `asm/system.h`, the loop of `setup_idt` in `boot/head.s`, and the functions that
`main` calls to fill the interrupt table: `con_init`, `rs_init`, `trap_init`, `sched_init` and
`hd_init`. The processor reads an entry of the table as an offset, a selector, a type, a privilege
level and a bit that says whether it is present.

## Main definitions

* `setGate`: the macro.
* `Table`, `table`: the table, and the one that `main` leaves behind.
* `Gate`, `gate`: an entry as the processor reads it.
* `entry`: what the entries are there for.

## Main results

* `gate_setGate`: an entry is read as it has been written.
* `gate_table`: all entries of the table.
* `interrupts_transparent`: whatever comes up is handled, and what is interrupted does not notice.
-/

namespace Linux001.Traps

open Handlers Mm

/-! ### Entries -/

/-- The constant of `_set_gate`. -/
def gateWord (type dpl : ℕ) : BitVec 16 := BitVec.ofNat 16 (0x8000 + (dpl <<< 13) + (type <<< 8))

/-- `movw`, to the low half of a register. -/
def movw (v : BitVec 16) (r : Word) : Word := r.extractLsb' 16 16 ++ v

/-- `_set_gate`, with the address in `%edx`. -/
def setGate (type dpl : ℕ) (edx : Word) : Desc :=
  let eax := movw (edx.extractLsb' 0 16) 0x00080000
  let edx := movw (gateWord type dpl) edx
  ⟨eax, edx⟩

/-- An entry as the processor reads it. -/
structure Gate where
  offset : Word
  selector : BitVec 16
  type : BitVec 4
  dpl : BitVec 2
  present : Bool
  deriving DecidableEq

/-- The gate that an entry is. -/
def gate (d : Desc) : Gate where
  offset := d.b.extractLsb' 16 16 ++ d.a.extractLsb' 0 16
  selector := d.a.extractLsb' 16 16
  type := d.b.extractLsb' 8 4
  dpl := d.b.extractLsb' 13 2
  present := d.b.getLsbD 15

theorem movw_low (v : BitVec 16) (r : Word) {i n : ℕ} (h : i + n ≤ 16) :
    (movw v r).extractLsb' i n = v.extractLsb' i n :=
  BitVec.extractLsb'_append_eq_of_add_le h

theorem movw_high (v : BitVec 16) (r : Word) :
    (movw v r).extractLsb' 16 16 = r.extractLsb' 16 16 :=
  BitVec.extractLsb'_append_eq_left

/-- What is in the constant of `_set_gate`. -/
theorem gateWord_fields : ∀ type < 16, ∀ dpl < 4,
    (gateWord type dpl).extractLsb' 8 4 = BitVec.ofNat 4 type ∧
      (gateWord type dpl).extractLsb' 13 2 = BitVec.ofNat 2 dpl ∧
      (gateWord type dpl).getLsbD 15 = true := by
  decide

/-- A gate is read as it has been written. -/
theorem gate_setGate {type dpl : ℕ} (htype : type < 16) (hdpl : dpl < 4) (addr : Word) :
    gate (setGate type dpl addr) =
      ⟨addr, 8, BitVec.ofNat 4 type, BitVec.ofNat 2 dpl, true⟩ := by
  obtain ⟨htypes, hdpls, hpresent⟩ := gateWord_fields type htype dpl hdpl
  have hlow : (addr.extractLsb' 0 16).extractLsb' 0 16 = addr.extractLsb' 0 16 :=
    BitVec.extractLsb'_eq_self
  have hoffset : addr.extractLsb' 16 16 ++ addr.extractLsb' 0 16 = addr :=
    (BitVec.extractLsb'_append_extractLsb'_eq_extractLsb' rfl).trans BitVec.extractLsb'_eq_self
  have hbit : (movw (gateWord type dpl) addr).getLsbD 15 = true := by
    have happ :=
      BitVec.getLsbD_append (x := addr.extractLsb' 16 16) (y := gateWord type dpl) (i := 15)
    rw [if_pos (by decide), hpresent] at happ
    exact happ
  rw [gate, setGate]
  simp only [movw_high]
  rw [movw_low _ _ (by omega), movw_low _ _ (by omega), movw_low _ _ (by omega), hlow, hoffset,
    htypes, hdpls, hbit]
  rfl

/-! ### The table -/

/-- What an entry leads to. -/
inductive Entry
  | handler (h : Handler)
  | systemCall
  deriving DecidableEq

/-- The arguments of `_set_gate`. -/
structure Written where
  type : ℕ
  dpl : ℕ
  entry : Entry
  deriving DecidableEq

section Table

variable {α : Type} (write : Written → α)

/-- `set_intr_gate`. -/
def setIntrGate (n : ℕ) (h : Handler) (idt : ℕ → α) : ℕ → α :=
  Function.update idt n (write ⟨14, 0, .handler h⟩)

/-- `set_trap_gate`. -/
def setTrapGate (n : ℕ) (h : Handler) (idt : ℕ → α) : ℕ → α :=
  Function.update idt n (write ⟨15, 0, .handler h⟩)

/-- `set_system_gate`. -/
def setSystemGate (n : ℕ) (e : Entry) (idt : ℕ → α) : ℕ → α :=
  Function.update idt n (write ⟨15, 3, e⟩)

/-- The loop `rp_sidt` of `setup_idt`, at the entry `n`. -/
def rpSidt : ℕ → ℕ → (ℕ → α) → ℕ → α
  | 0, _, idt => idt
  | ecx + 1, n, idt =>
    rpSidt ecx (n + 1) (Function.update idt n (write ⟨14, 0, .handler .ignoreInt⟩))

/-- `setup_idt`. -/
def setupIdt (idt : ℕ → α) : ℕ → α := rpSidt write 256 0 idt

/-- `con_init`. -/
def conInit (idt : ℕ → α) : ℕ → α := setTrapGate write 0x21 .keyboardInterrupt idt

/-- `rs_init`. -/
def rsInit (idt : ℕ → α) : ℕ → α :=
  setIntrGate write 0x23 .rs2Interrupt (setIntrGate write 0x24 .rs1Interrupt idt)

/-- `tty_init`. -/
def ttyInit (idt : ℕ → α) : ℕ → α := conInit write (rsInit write idt)

/-- The loop at the end of `trap_init`, from `i` on. -/
def reservedLoop : ℕ → ℕ → (ℕ → α) → ℕ → α
  | 0, _, idt => idt
  | k + 1, i, idt => reservedLoop k (i + 1) (setTrapGate write i .reserved idt)

/-- `trap_init`. -/
def trapInit (idt : ℕ → α) : ℕ → α :=
  let idt := setTrapGate write 0 .divideError idt
  let idt := setTrapGate write 1 .debug idt
  let idt := setTrapGate write 2 .nmi idt
  let idt := setSystemGate write 3 (.handler .int3) idt
  let idt := setSystemGate write 4 (.handler .overflow) idt
  let idt := setSystemGate write 5 (.handler .bounds) idt
  let idt := setTrapGate write 6 .invalidOp idt
  let idt := setTrapGate write 7 .deviceNotAvailable idt
  let idt := setTrapGate write 8 .doubleFault idt
  let idt := setTrapGate write 9 .coprocessorSegmentOverrun idt
  let idt := setTrapGate write 10 .invalidTSS idt
  let idt := setTrapGate write 11 .segmentNotPresent idt
  let idt := setTrapGate write 12 .stackSegment idt
  let idt := setTrapGate write 13 .generalProtection idt
  let idt := setTrapGate write 14 .pageFault idt
  let idt := setTrapGate write 15 .reserved idt
  let idt := setTrapGate write 16 .coprocessorError idt
  reservedLoop write (32 - 17) 17 idt

/-- `sched_init`. -/
def schedInit (idt : ℕ → α) : ℕ → α :=
  setSystemGate write 0x80 .systemCall (setIntrGate write 0x20 .timerInterrupt idt)

/-- `hd_init`. -/
def hdInit (idt : ℕ → α) : ℕ → α := setTrapGate write 0x2E .hdInterrupt idt

/-- `setup_idt`, and `main` up to `sti`. -/
def init (idt : ℕ → α) : ℕ → α :=
  hdInit write (schedInit write (trapInit write (ttyInit write (setupIdt write idt))))

variable {write}

theorem rpSidt_of_lt {ecx n i : ℕ} {idt : ℕ → α} (h : i < n) :
    rpSidt write ecx n idt i = idt i := by
  induction ecx generalizing n idt with
  | zero => rfl
  | succ ecx ih => rw [rpSidt, ih (by omega), Function.update_of_ne (by omega)]

theorem rpSidt_eq {ecx n i : ℕ} {idt : ℕ → α} (hle : n ≤ i) (hlt : i < n + ecx) :
    rpSidt write ecx n idt i = write ⟨14, 0, .handler .ignoreInt⟩ := by
  induction ecx generalizing n idt with
  | zero => omega
  | succ ecx ih =>
    rcases Nat.eq_or_lt_of_le hle with rfl | hlt'
    · rw [rpSidt, rpSidt_of_lt (Nat.lt_succ_self _), Function.update_self]
    · rw [rpSidt, ih hlt' (by omega)]

theorem reservedLoop_apply {k i n : ℕ} {idt : ℕ → α} : reservedLoop write k i idt n =
    if i ≤ n ∧ n < i + k then write ⟨15, 0, .handler .reserved⟩ else idt n := by
  induction k generalizing i idt with
  | zero => rw [reservedLoop, if_neg (by omega)]
  | succ k ih =>
    rw [reservedLoop, ih, setTrapGate, Function.update_apply]
    split_ifs with h₁ h₂ h₃ h₄ h₅
    all_goals first | rfl | omega

/-- Nothing is left of what was in the table. -/
theorem init_congr {n : ℕ} (hn : n < 256) (idt idt' : ℕ → α) :
    init write idt n = init write idt' n := by
  have hsetup (t : ℕ → α) : setupIdt write t n = write ⟨14, 0, .handler .ignoreInt⟩ :=
    rpSidt_eq (Nat.zero_le n) (by omega)
  simp only [init, hdInit, schedInit, trapInit, ttyInit, rsInit, conInit, setTrapGate, setIntrGate,
    setSystemGate, reservedLoop_apply, Function.update_apply, hsetup]

theorem rpSidt_comp {ecx n : ℕ} {idt : ℕ → Written} :
    rpSidt write ecx n (write ∘ idt) = write ∘ rpSidt id ecx n idt := by
  induction ecx generalizing n idt with
  | zero => rfl
  | succ ecx ih =>
    rw [rpSidt, rpSidt, ← ih, Function.comp_update]
    rfl

theorem reservedLoop_comp {k i : ℕ} {idt : ℕ → Written} :
    reservedLoop write k i (write ∘ idt) = write ∘ reservedLoop id k i idt := by
  induction k generalizing i idt with
  | zero => rfl
  | succ k ih =>
    rw [reservedLoop, reservedLoop, ← ih, setTrapGate, setTrapGate, Function.comp_update]
    rfl

/-- Entries are written one by one. -/
theorem init_comp (idt : ℕ → Written) : init write (write ∘ idt) = write ∘ init id idt := by
  have hset (t : ℕ → Written) (n : ℕ) (w : Written) :
      Function.update (write ∘ t) n (write w) = write ∘ Function.update t n (id w) :=
    (Function.comp_update write t n w).symm
  simp only [init, hdInit, schedInit, trapInit, ttyInit, rsInit, conInit, setupIdt, setTrapGate,
    setIntrGate, setSystemGate, rpSidt_comp, reservedLoop_comp, hset]

end Table

/-! ### What the table is for -/

/-- The exceptions of the processor, by their numbers. -/
def exceptions : List Handler :=
  [.divideError, .debug, .nmi, .int3, .overflow, .bounds, .invalidOp, .deviceNotAvailable,
    .doubleFault, .coprocessorSegmentOverrun, .invalidTSS, .segmentNotPresent, .stackSegment,
    .generalProtection, .pageFault, .reserved, .coprocessorError]

/-- What a number leads to: exceptions, interrupts of devices and system calls. -/
def entry (n : ℕ) : Entry :=
  if n < 32 then .handler (exceptions.getD n .reserved)
  else if n = 0x20 then .handler .timerInterrupt
  else if n = 0x21 then .handler .keyboardInterrupt
  else if n = 0x23 then .handler .rs2Interrupt
  else if n = 0x24 then .handler .rs1Interrupt
  else if n = 0x2E then .handler .hdInterrupt
  else if n = 0x80 then .systemCall
  else .handler .ignoreInt

/-- The numbers that a process may use in an `int` instruction. -/
def userGates : List ℕ := [3, 4, 5, 0x80]

/-- Further interrupts stay out while the handler runs. -/
def masks (n : ℕ) : Bool := entry n = .handler .ignoreInt ∨ n = 0x20 ∨ n = 0x23 ∨ n = 0x24

/-- The exceptions for which the processor pushes an error code. -/
def hasError (n : ℕ) : Bool := n = 8 ∨ 10 ≤ n ∧ n ≤ 14

theorem init_id : ∀ n < 256, init id (fun _ => ⟨0, 0, .systemCall⟩) n =
    ⟨if masks n then 14 else 15, if n ∈ userGates then 3 else 0, entry n⟩ := by
  decide +kernel

/-- A handler takes from the stack what the processor has pushed. -/
theorem errors_entry : ∀ n < 256, ∀ h, entry n = .handler h →
    h.errors = if hasError n then 1 else 0 := by
  have hall : ∀ n < 256, (match entry n with
      | .handler h => decide (h.errors = if hasError n then 1 else 0)
      | .systemCall => true) = true := by
    decide +kernel
  intro n hn h hentry
  have hn' := hall n hn
  rw [hentry] at hn'
  exact of_decide_eq_true hn'

section Vectors

variable (addr : Entry → Word) (idt : ℕ → Desc)

/-- The interrupt table when interrupts are allowed, with the addresses of the routines and with
what was in memory before. -/
def table : ℕ → Desc := init (fun w => setGate w.type w.dpl (addr w.entry)) idt

theorem table_eq {n : ℕ} (hn : n < 256) : table addr idt n =
    setGate (if masks n then 14 else 15) (if n ∈ userGates then 3 else 0) (addr (entry n)) := by
  rw [table, init_congr hn idt (_ ∘ fun _ => (⟨0, 0, .systemCall⟩ : Written)), init_comp,
    Function.comp_apply, init_id n hn]

/-- **The interrupt table.** Each entry is present and leads to the routine that is there for it, in
the code segment of the kernel. A process can only use those for break points, overflow, bounds and
system calls. -/
theorem gate_table {n : ℕ} (hn : n < 256) : gate (table addr idt n) =
    ⟨addr (entry n), 8, if masks n then 14 else 15, if n ∈ userGates then 3 else 0, true⟩ := by
  have htype : (if masks n then 14 else 15) < 16 := by split_ifs <;> omega
  have hdpl : (if n ∈ userGates then 3 else 0) < 4 := by split_ifs <;> omega
  rw [table_eq addr idt hn, gate_setGate htype hdpl]
  refine congrArg₂ (fun type dpl => (⟨addr (entry n), 8, type, dpl, true⟩ : Gate)) ?_ ?_
  · split_ifs <;> rfl
  · split_ifs <;> rfl

theorem gate_table_clock : gate (table (fun _ => 0x6f00) (fun _ => ⟨0, 0⟩) 0x20) =
    ⟨0x6f00, 8, if masks 0x20 then 14 else 15, if 0x20 ∈ userGates then 3 else 0, true⟩ :=
  gate_table (fun _ => 0x6f00) (fun _ => ⟨0, 0⟩) (by decide)

/-- **Interrupts are not noticed.** The entry of every interrupt and of every exception leads to a
handler that takes from the stack what the processor has pushed, never gets stuck, and leaves the
registers and the rest of the stack as they were. -/
theorem interrupts_transparent {n : ℕ} (hn : n < 256) (hcall : n ≠ 0x80) : ∃ h,
    (gate (table addr idt n)).offset = addr (.handler h) ∧
      ∀ (o : Regs) (err rest : List Word), err.length = (if hasError n then 1 else 0) →
        Safe h.code ⟨o, err ++ rest⟩ ∧ ∀ m', Exec h.code ⟨o, err ++ rest⟩ m' → m' = ⟨o, rest⟩ := by
  have hentry : ∃ h, entry n = .handler h := by
    simp only [entry, if_neg hcall]
    split_ifs <;> exact ⟨_, rfl⟩
  obtain ⟨h, hh⟩ := hentry
  refine ⟨h, ?_, fun o err rest herr => h.transparent o ?_ rest⟩
  · rw [gate_table addr idt hn, hh]
  · rw [herr, errors_entry n hn h hh]

theorem interrupts_transparent_pageFault : ∃ h : Handler,
    (gate (table (fun _ => 0x6f00) (fun _ => ⟨0, 0⟩) 14)).offset = 0x6f00 ∧
      ∀ (o : Regs) (err rest : List Word), err.length = (if hasError 14 then 1 else 0) →
        Safe h.code ⟨o, err ++ rest⟩ ∧ ∀ m', Exec h.code ⟨o, err ++ rest⟩ m' → m' = ⟨o, rest⟩ :=
  interrupts_transparent (n := 14) (fun _ => 0x6f00) (fun _ => ⟨0, 0⟩) (by decide) (by decide)

end Vectors

end Linux001.Traps
