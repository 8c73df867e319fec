import Linux001.Lib.I386
import Linux001.Lib.Runs
import Linux001.Signals.Kill
import Mathlib.Tactic.Cases

/-!
# Signals on the return to user mode

The model of `ret_from_sys_call` of `kernel/system_call.s`, instruction by instruction. The routine
takes the lowest pending signal and looks at its handler: a signal that is ignored is cleared and
the next one is looked for, the default ends the process, and for any other handler the return
address is exchanged for it and seven words are put on the stack of the process.

What `verify_area` leaves in the registers and in its second argument is any value; the memory of
the process is the same after it, and there is a free page for it.

## Main definitions

* `Frame`: what the kernel stack holds on entry.
* `next`: the routine, from one label to the next.
* `Lowest`: the signal that is delivered.
* `Dispatches`: what the routine does.

## Main results

* `ends_nextSignal`: the loop ends, whatever signals are pending.
* `dispatches_iff`: the routine is left with the outcome that the signals and handlers ask for.
-/

namespace Linux001.Signals

open I386

/-! ### The routine -/

/-- `Stack layout in 'ret_from_system_call'`. -/
structure Frame where
  eax : Word
  ebx : Word
  ecx : Word
  edx : Word
  fs : Word
  es : Word
  ds : Word
  eip : Word
  cs : Word
  eflags : Word
  oldesp : Word
  oldss : Word

def Frame.words (f : Frame) : List Word :=
  [f.eax, f.ebx, f.ecx, f.edx, f.fs, f.es, f.ds, f.eip, f.cs, f.eflags, f.oldesp, f.oldss]

def EAX : ℕ := 0x00
def ECX : ℕ := 0x08
def EDX : ℕ := 0x0C
def EIP : ℕ := 0x1C
def CS : ℕ := 0x20
def EFLAGS : ℕ := 0x24
def OLDESP : ℕ := 0x28
def OLDSS : ℕ := 0x2C

def SIG_CHLD : Word := 17

/-- The offsets into the task structure. -/
def signal : Word := 12
def restorer : Word := 16
def sigFn : Word := 20

inductive Label
  /-- `ret_from_sys_call`. -/
  | retFromSysCall
  /-- `2`. -/
  | nextSignal
  /-- `default_signal`. -/
  | defaultSignal
  /-- `3`. -/
  | restore

/-- How the routine is left: the registers of the process are taken from the stack and it goes on,
or `do_exit` is called, which does not return. -/
inductive Outcome
  | iret (f : Frame) (data : Word → Word) (user : Bytes)
  | doExit (code : Word) (data : Word → Word)

/-- What a call of `verify_area` leaves behind. It does not assign to its first argument. -/
structure VerifyArea where
  scratch : Cpu → Scratch
  size : Cpu → Word

/-- The code from label `2` to the first jump. -/
def scan (m : Cpu) : Cpu :=
  m.movl (.mem signal .eax) (.reg .ebx)
    |>.bsfl (.reg .ebx) .ecx

/-- The code after it, to the jump that depends on the handler. -/
def take (m : Cpu) : Cpu :=
  m.btrl (.reg .ecx) .ebx
    |>.movl (.reg .ebx) (.mem signal .eax)
    |>.movl (.table sigFn .eax .ecx) (.reg .ebx)
    |>.cmpl (.imm 1) (.reg .ebx)

/-- The code from the reset of the handler to label `3`. -/
def deliver (va : VerifyArea) (m : Cpu) : Cpu :=
  let m := m.movl (.imm 0) (.table sigFn .eax .ecx)
    |>.incl (.reg .ecx)
    |>.xchgl .ebx (.esp EIP)
    |>.subl (.imm 28) (.esp OLDESP)
    |>.movl (.esp OLDESP) (.reg .edx)
    |>.pushl (.reg .eax)
    |>.pushl (.reg .ecx)
    |>.pushl (.imm 28)
    |>.pushl (.reg .edx)
  m.call (va.scratch m) |>.movl (.imm (va.size m)) (.esp 4)
    |>.popl .edx
    |>.dropl 4
    |>.popl .ecx
    |>.popl .eax
    |>.movl (.mem restorer .eax) (.reg .eax)
    |>.movl (.reg .eax) (.fs 0 .edx)
    |>.movl (.reg .ecx) (.fs 4 .edx)
    |>.movl (.esp EAX) (.reg .eax)
    |>.movl (.reg .eax) (.fs 8 .edx)
    |>.movl (.esp ECX) (.reg .eax)
    |>.movl (.reg .eax) (.fs 12 .edx)
    |>.movl (.esp EDX) (.reg .eax)
    |>.movl (.reg .eax) (.fs 16 .edx)
    |>.movl (.esp EFLAGS) (.reg .eax)
    |>.movl (.reg .eax) (.fs 20 .edx)
    |>.movl (.reg .ebx) (.fs 24 .edx)

/-- The routine. `current` and `task` are the values of `_current` and of `_task`, which is
`task[0]`. -/
def next (current task : Word) (va : VerifyArea) : Label × Cpu → (Label × Cpu) ⊕ Outcome
  | (.retFromSysCall, m) =>
    let m := m.movl (.imm current) (.reg .eax) |>.cmpl (.imm task) (.reg .eax)
    if m.zf then .inl (.restore, m)
    else
      let m := m.movl (.esp CS) (.reg .ebx) |>.testl (.imm 3) (.reg .ebx)
      if m.zf then .inl (.restore, m)
      else
        let m := m.cmpw (.imm 0x17) (.esp OLDSS)
        if m.zf then .inl (.nextSignal, m) else .inl (.restore, m)
  | (.nextSignal, m) =>
    let m := scan m
    if m.zf then .inl (.restore, m)
    else
      let m := take m
      if m.cf then .inl (.defaultSignal, m)
      else if m.zf then .inl (.nextSignal, m)
      else .inl (.restore, deliver va m)
  | (.restore, m) =>
    -- `iret` takes the last five words.
    let w (i : ℕ) : Word := m.stack.getD i 0
    .inr (.iret ⟨w 0, w 1, w 2, w 3, w 4, w 5, w 6, w 7, w 8, w 9, w 10, w 11⟩ m.data m.user)
  | (.defaultSignal, m) =>
    let m := m.incl (.reg .ecx) |>.cmpl (.imm SIG_CHLD) (.reg .ecx)
    if m.zf then .inl (.nextSignal, m)
    else
      let m := m.pushl (.reg .ecx)
      .inr (.doExit (m.get (.esp 0)) m.data)

/-! ### What is delivered -/

section Delivery

variable (current : Word) (data : Word → Word)

/-- `current->signal`. -/
def pending : Word := data (current + signal)

/-- The handler of the signal `i + 1`. -/
def handler (i : ℕ) : Word := data (current + sigFn + 4 * BitVec.ofNat 32 i)

/-- The signal `i + 1` is pending, is not ignored, and is not a child's death with the default. -/
def Deliverable (i : ℕ) : Prop :=
  (pending current data).getLsbD i = true ∧ handler current data i ≠ 1 ∧
    ¬ (i + 1 = 17 ∧ handler current data i = 0)

/-- The lowest of them. -/
structure Lowest (i : ℕ) : Prop where
  deliverable : Deliverable current data i
  lowest : ∀ j < i, ¬ Deliverable current data j

/-- The bits from `n` on. -/
def bitsFrom (w : Word) (n : ℕ) : Word := w >>> n <<< n

theorem getLsbD_bitsFrom (w : Word) (n i : ℕ) :
    (bitsFrom w n).getLsbD i = (decide (n ≤ i) && w.getLsbD i) := by
  rw [bitsFrom, BitVec.getLsbD_shiftLeft, BitVec.getLsbD_ushiftRight]
  rcases Nat.lt_or_ge i n with hi | hi
  · simp [hi, Nat.not_le.mpr hi]
  · rw [Nat.add_sub_cancel' hi]
    by_cases h32 : i < 32
    · simp [hi, h32, Nat.not_lt.mpr hi]
    · simp [BitVec.getLsbD_of_ge w i (Nat.not_lt.mp h32)]

/-- The data with other pending signals. -/
def setPending (w : Word) : Word → Word := Function.update data (current + signal) w

/-- The data with another handler of the signal `i + 1`. -/
def setHandler (i : ℕ) (w : Word) : Word → Word :=
  Function.update data (current + sigFn + 4 * BitVec.ofNat 32 i) w

/-- The outcome for the frame, the data and the memory of the process. -/
structure Dispatches (f : Frame) (user : Bytes) (o : Outcome) : Prop where
  /-- All pending signals are cleared, and the process goes on where it was. -/
  clears : (∀ i, ¬ Deliverable current data i) → o = .iret f (setPending current data 0) user
  /-- `do_exit` is called with the signal. -/
  exits : ∀ i, Lowest current data i → handler current data i = 0 →
    o = .doExit (BitVec.ofNat 32 (i + 1))
      (setPending current data (bitsFrom (pending current data) (i + 1)))
  /-- The process goes on in the handler, which is reset. -/
  enters : ∀ i, Lowest current data i → handler current data i ≠ 0 → ∃ user',
    Receives user user' (f.oldesp - 28) [data (current + restorer), BitVec.ofNat 32 (i + 1), f.eax,
      f.ecx, f.edx, f.eflags, f.eip] ∧
    o = .iret { f with eip := handler current data i, oldesp := f.oldesp - 28 }
      (setHandler current (setPending current data (bitsFrom (pending current data) (i + 1))) i 0)
      user'

end Delivery

/-! ### One turn -/

section Turn

variable {current : Word} {va : VerifyArea} {f : Frame} {rest : List Word} {m : Cpu}

theorem add_offset_ne {a b : Word} (h : a ≠ b) : current + a ≠ current + b :=
  fun he => h (add_left_cancel he)

variable (va) in
/-- The stack and the memory after the delivery. -/
theorem deliver_eq (hstack : m.stack = f.words ++ rest) (heax : m.reg .eax = current) :
    (deliver va m).stack =
      { f with eip := m.reg .ebx, oldesp := f.oldesp - 28 }.words ++ rest ∧
    (deliver va m).data = Function.update m.data (current + sigFn + 4 * m.reg .ecx) 0 ∧
    (deliver va m).user = storeWords m.user (f.oldesp - 28)
      [Function.update m.data (current + sigFn + 4 * m.reg .ecx) 0 (current + restorer),
        m.reg .ecx + 1, f.eax, f.ecx, f.edx, f.eflags, f.eip] := by
  subst heax
  obtain ⟨reg, stack, data, user, zf, cf⟩ := m
  dsimp only at hstack
  subst hstack
  simp [deliver, Cpu.movl, Cpu.incl, Cpu.xchgl, Cpu.subl, Cpu.pushl, Cpu.call, Cpu.popl,
    Cpu.dropl, Cpu.get,
    Cpu.set, Function.update_apply, Frame.words, EIP, OLDESP, EAX, ECX, EDX, EFLAGS,
      storeWords, add_assoc]

/-- The state after the bit `i` has been taken. -/
structure Taken (current : Word) (m : Cpu) (i : ℕ) (m' : Cpu) : Prop where
  eax : m'.reg .eax = current
  ebx : m'.reg .ebx = handler current m.data i
  ecx : m'.reg .ecx = BitVec.ofNat 32 i
  stack : m'.stack = m.stack
  data : m'.data = setPending current m.data (pending current m.data &&& ~~~((1 : Word) <<< i))
  user : m'.user = m.user

theorem handler_ne_signal {i : ℕ} (hi : i < 32) :
    current + sigFn + 4 * BitVec.ofNat 32 i ≠ current + signal := by
  rw [add_assoc]
  refine add_offset_ne ?_
  unfold sigFn signal
  bv_omega

theorem handler_ne_restorer {i : ℕ} (hi : i < 32) :
    current + restorer ≠ current + sigFn + 4 * BitVec.ofNat 32 i := by
  rw [add_assoc]
  refine add_offset_ne ?_
  unfold sigFn restorer
  bv_omega

theorem handler_setPending {data : Word → Word} {w : Word} {i : ℕ} (hi : i < 32) :
    handler current (setPending current data w) i = handler current data i :=
  Function.update_of_ne (handler_ne_signal hi) ..

/-- Without a pending signal the search ends. -/
theorem scan_zero (heax : m.reg .eax = current) (hp : pending current m.data = 0) :
    (scan m).zf = true ∧ (scan m).stack = m.stack ∧ (scan m).data = m.data ∧
      (scan m).user = m.user := by
  have hget : (m.movl (.mem signal .eax) (.reg .ebx)).get (.reg .ebx) = 0 := by
    subst heax
    exact hp
  rw [scan, Cpu.bsfl_zero hget]
  exact ⟨rfl, rfl, rfl, rfl⟩

/-- With one, its number is found. -/
theorem scan_of_ne (heax : m.reg .eax = current) (hp : pending current m.data ≠ 0) :
    scan m = { m with
      reg := Function.update (Function.update m.reg .ebx (pending current m.data)) .ecx
        (pending current m.data).ctz
      zf := false } := by
  subst heax
  have hget : (m.movl (.mem signal .eax) (.reg .ebx)).get (.reg .ebx) ≠ 0 := hp
  rw [scan, Cpu.bsfl_of_ne hget]
  rfl

theorem ult_one (w : Word) : w.ult 1 = decide (w = 0) := by
  rw [Bool.eq_iff_iff, decide_eq_true_iff, BitVec.ult_iff_lt]
  bv_omega

/-- The bit is cleared, and the handler is compared with 1. -/
theorem take_eq {h : Word} (heax : m.reg .eax = current)
    (hh : Function.update m.data (current + signal)
      (m.reg .ebx &&& ~~~((1 : Word) <<< ((m.reg .ecx).toNat % 32)))
        (current + sigFn + 4 * m.reg .ecx) = h) :
    take m = { m with
      reg := Function.update (Function.update m.reg .ebx
        (m.reg .ebx &&& ~~~((1 : Word) <<< ((m.reg .ecx).toNat % 32)))) .ebx h
      data := Function.update m.data (current + signal)
        (m.reg .ebx &&& ~~~((1 : Word) <<< ((m.reg .ecx).toNat % 32)))
      zf := h = 1
      cf := decide (h = 0) } := by
  subst heax hh
  rw [← ult_one]
  rfl

theorem taken_take (heax : m.reg .eax = current) (hp : pending current m.data ≠ 0) :
    Taken current m (pending current m.data).ctz.toNat (take (scan m)) ∧
      (take (scan m)).cf = decide (handler current m.data (pending current m.data).ctz.toNat = 0) ∧
      (take (scan m)).zf = decide (handler current m.data (pending current m.data).ctz.toNat =
        1) := by
  have hctz : (pending current m.data).ctz.toNat < 32 := BitVec.ctz_lt_iff_ne_zero.mpr hp
  have hmod := Nat.mod_eq_of_lt hctz
  have hhandler : handler current (setPending current m.data (pending current m.data &&&
      ~~~((1 : Word) <<< ((pending current m.data).ctz.toNat % 32))))
        (pending current m.data).ctz.toNat =
        handler current m.data (pending current m.data).ctz.toNat := handler_setPending hctz
  have hofNat : BitVec.ofNat 32 (pending current m.data).ctz.toNat =
      (pending current m.data).ctz := by
    rw [BitVec.ofNat_toNat, BitVec.setWidth_eq]
  rw [scan_of_ne heax hp]
  have htake := take_eq (m := { m with
      reg := Function.update (Function.update m.reg .ebx (pending current m.data)) .ecx
        (pending current m.data).ctz
      zf := false }) (h := handler current m.data (pending current m.data).ctz.toNat) heax (by
    rw [← hhandler, handler, hofNat]
    rfl)
  rw [htake]
  refine ⟨⟨heax, rfl, hofNat.symm, rfl, ?_, rfl⟩, rfl, rfl⟩
  change setPending current m.data (pending current m.data &&&
    ~~~((1 : Word) <<< ((pending current m.data).ctz.toNat % 32))) = _
  rw [hmod]

variable (current va) in
/-- `default_signal` goes back for a child's death and calls `do_exit` else. -/
theorem next_defaultSignal (task : Word) (m : Cpu) : ∃ m', m'.reg .eax = m.reg .eax ∧
    m'.stack = m.stack ∧ m'.data = m.data ∧ m'.user = m.user ∧
    next current task va (.defaultSignal, m) =
      if m.reg .ecx + 1 = 17 then .inl (.nextSignal, m')
      else .inr (.doExit (m.reg .ecx + 1) m.data) := by
  refine ⟨m.incl (.reg .ecx) |>.cmpl (.imm SIG_CHLD) (.reg .ecx), rfl, rfl, rfl, rfl, ?_⟩
  have hzf : (m.incl (.reg .ecx) |>.cmpl (.imm SIG_CHLD) (.reg .ecx)).zf =
      decide (m.reg .ecx + 1 = 17) := rfl
  unfold next
  dsimp only
  rw [hzf]
  by_cases hchld : m.reg .ecx + 1 = 17
  · rw [if_pos hchld, decide_eq_true hchld, if_pos rfl]
  · rw [if_neg hchld, decide_eq_false hchld, if_neg Bool.false_ne_true]
    rfl

end Turn

/-! ### The loop -/

section Loop

variable {current task : Word} {va : VerifyArea} {f : Frame} {rest : List Word}

theorem getLsbD_clear (w : Word) (i j : ℕ) :
    (w &&& ~~~((1 : Word) <<< i)).getLsbD j = (w.getLsbD j && decide (j ≠ i)) := by
  have hone (k : ℕ) : (1 : Word).getLsbD k = decide (k = 0) := by
    change (1#32).getLsbD k = _
    rw [BitVec.getLsbD_one]
    simp
  rw [BitVec.getLsbD_and, BitVec.getLsbD_not, BitVec.getLsbD_shiftLeft, hone]
  rcases Nat.lt_or_ge j 32 with hj | hj
  · rcases lt_trichotomy j i with h | rfl | h
    · simp [hj, h, h.ne]
    · simp [hj]
    · simp [hj, h.ne', Nat.sub_ne_zero_of_lt h]
  · rw [BitVec.getLsbD_of_ge w j hj, Bool.false_and, Bool.false_and]

variable {w : Word}

theorem getLsbD_ctz (hw : w ≠ 0) : w.getLsbD w.ctz.toNat = true :=
  BitVec.getLsbD_true_ctz_of_ne_zero hw

/-- Without its lowest bit there are the bits above it. -/
theorem clear_ctz (w : Word) :
    w &&& ~~~((1 : Word) <<< w.ctz.toNat) = bitsFrom w (w.ctz.toNat + 1) := by
  refine BitVec.eq_of_getLsbD_eq fun j _ => ?_
  rw [getLsbD_clear, getLsbD_bitsFrom]
  rcases lt_trichotomy j w.ctz.toNat with h | h | h
  · rw [BitVec.getLsbD_false_of_lt_ctz h, Bool.false_and, Bool.and_false]
  · simp [h]
  · simp [h.ne', Nat.succ_le_of_lt h]

theorem clear_lt (hw : w ≠ 0) : (w &&& ~~~((1 : Word) <<< w.ctz.toNat)).toNat < w.toNat := by
  refine lt_of_le_of_ne ?_ fun he => ?_
  · rw [BitVec.toNat_and]
    exact Nat.and_le_left
  · have hbit := getLsbD_clear w w.ctz.toNat w.ctz.toNat
    rw [BitVec.eq_of_toNat_eq he, getLsbD_ctz hw] at hbit
    simp at hbit

/-- Bits that are left alone stay so when a lower bit is cleared. -/
theorem bitsFrom_clear {i n : ℕ} (h : i < n) :
    bitsFrom (w &&& ~~~((1 : Word) <<< i)) n = bitsFrom w n := by
  refine BitVec.eq_of_getLsbD_eq fun j _ => ?_
  rw [getLsbD_bitsFrom, getLsbD_bitsFrom, getLsbD_clear]
  by_cases hj : n ≤ j
  · simp [(h.trans_le hj).ne']
  · simp [hj]

variable {data : Word → Word} {user : Bytes} {o : Outcome}

theorem pending_setPending (w : Word) : pending current (setPending current data w) = w :=
  Function.update_self ..

theorem Deliverable.lt {i : ℕ} (h : Deliverable current data i) : i < 32 := by
  by_contra hi
  have hbit := h.1
  rw [BitVec.getLsbD_of_ge _ _ (Nat.not_lt.mp hi)] at hbit
  exact Bool.false_ne_true hbit

/-- Clearing a signal that is not delivered does not change what is. -/
theorem deliverable_clear {i : ℕ} (hnot : ¬ Deliverable current data i) (j : ℕ) :
    Deliverable current (setPending current data (pending current data &&& ~~~((1 : Word) <<< i)))
      j ↔
      Deliverable current data j := by
  have hbit := getLsbD_clear (pending current data) i j
  by_cases hj : j < 32
  · rw [Deliverable, Deliverable, handler_setPending hj, pending_setPending, hbit]
    by_cases hji : j = i
    · subst hji
      exact iff_of_false (fun h => by simp at h) hnot
    · simp [hji]
  · exact iff_of_false (fun h => hj h.lt) fun h => hj h.lt

theorem Dispatches.of_clear {i : ℕ} (hnot : ¬ Deliverable current data i)
    (hlow : ∀ j < i, (pending current data).getLsbD j = false)
    (h : Dispatches current
      (setPending current data (pending current data &&& ~~~((1 : Word) <<< i))) f user o) :
    Dispatches current data f user o := by
  have hdeliverable := deliverable_clear hnot
  have hset (w : Word) : setPending current (setPending current data
      (pending current data &&& ~~~((1 : Word) <<< i))) w = setPending current data w :=
    Function.update_idem ..
  have hlowest {j : ℕ} (hj : Lowest current data j) : Lowest current
      (setPending current data (pending current data &&& ~~~((1 : Word) <<< i))) j :=
    ⟨(hdeliverable j).mpr hj.deliverable, fun k hk hd => hj.lowest k hk ((hdeliverable k).mp hd)⟩
  -- The signal that is delivered lies above the one that is cleared.
  have habove {j : ℕ} (hj : Lowest current data j) : i < j := by
    rcases lt_trichotomy j i with hji | rfl | hij
    · exact absurd ((hlow j hji).symm.trans hj.deliverable.1) Bool.false_ne_true
    · exact absurd hj.deliverable hnot
    · exact hij
  have hrest {j : ℕ} (hj : Lowest current data j) : setPending current (setPending current data
      (pending current data &&& ~~~((1 : Word) <<< i)))
        (bitsFrom (pending current (setPending current
        data (pending current data &&& ~~~((1 : Word) <<< i)))) (j + 1)) =
      setPending current data (bitsFrom (pending current data) (j + 1)) := by
    rw [hset, pending_setPending, bitsFrom_clear (Nat.lt_succ_of_lt (habove hj))]
  have hrestorer (w : Word) : setPending current data w (current + restorer) =
      data (current + restorer) :=
    Function.update_of_ne (add_offset_ne (by decide)) ..
  refine ⟨fun hnone => ?_, fun j hj hh => ?_, fun j hj hh => ?_⟩
  · rw [← hset]
    exact h.clears fun j hd => hnone j ((hdeliverable j).mp hd)
  · rw [← hrest hj]
    exact h.exits j (hlowest hj) ((handler_setPending hj.deliverable.lt).trans hh)
  · obtain ⟨user', hreceives, ho⟩ := h.enters j (hlowest hj)
      ((handler_setPending hj.deliverable.lt).trans_ne hh)
    rw [hrestorer] at hreceives
    rw [handler_setPending hj.deliverable.lt, hrest hj] at ho
    exact ⟨user', hreceives, ho⟩

theorem Lowest.unique {i j : ℕ} (hi : Lowest current data i) (hj : Lowest current data j) :
    j = i := by
  rcases lt_trichotomy j i with h | h | h
  · exact absurd hj.deliverable (hi.lowest j h)
  · exact h
  · exact absurd hi.deliverable (hj.lowest i h)

/-- The lowest pending signal is delivered, if it can be. -/
theorem lowest_ctz (h : Deliverable current data (pending current data).ctz.toNat) :
    Lowest current data (pending current data).ctz.toNat :=
  ⟨h, fun _ hj hd => Bool.false_ne_true ((BitVec.getLsbD_false_of_lt_ctz hj).symm.trans hd.1)⟩

theorem Dispatches.of_default {i : ℕ} (hi : Lowest current data i)
    (hh : handler current data i = 0) :
    Dispatches current data f user (.doExit (BitVec.ofNat 32 (i + 1))
      (setPending current data (bitsFrom (pending current data) (i + 1)))) := by
  refine ⟨fun hnone => absurd hi.deliverable (hnone i), fun j hj _ => ?_, fun j hj hne => ?_⟩
  · rw [hi.unique hj]
  · rw [hi.unique hj] at hne
    exact absurd hh hne

theorem Dispatches.of_handler {i : ℕ} {user' : Bytes} (hi : Lowest current data i)
    (hh : handler current data i ≠ 0)
    (huser : Receives user user' (f.oldesp - 28)
      [data (current + restorer), BitVec.ofNat 32 (i + 1),
      f.eax, f.ecx, f.edx, f.eflags, f.eip]) :
    Dispatches current data f user (.iret
      { f with eip := handler current data i, oldesp := f.oldesp - 28 }
      (setHandler current (setPending current data (bitsFrom (pending current data) (i + 1))) i 0)
      user') := by
  refine ⟨fun hnone => absurd hi.deliverable (hnone i), fun j hj hzero => ?_, fun j hj _ => ?_⟩
  · rw [hi.unique hj] at hzero
    exact absurd hzero hh
  · rw [hi.unique hj]
    exact ⟨user', huser, rfl⟩

/-- The number of the signal. -/
theorem ofNat_succ (i : ℕ) : BitVec.ofNat 32 i + 1 = BitVec.ofNat 32 (i + 1) :=
  (BitVec.ofNat_add ..).symm

theorem next_restore {m : Cpu} (hstack : m.stack = f.words ++ rest) :
    next current task va (.restore, m) = .inr (.iret f m.data m.user) := by
  rw [next, hstack]
  rfl

variable {m : Cpu}

/-- Nothing is pending. -/
theorem ends_of_zero (heax : m.reg .eax = current) (hstack : m.stack = f.words ++ rest)
    (hp : pending current m.data = 0) : ∃ o,
    Ends (next current task va) (.nextSignal, m) o ∧ Dispatches current m.data f m.user o := by
  obtain ⟨hzf, hstack', hdata', huser'⟩ := scan_zero heax hp
  have hnext : next current task va (.nextSignal, m) = .inl (.restore, scan m) := by
    rw [next, hzf]
    rfl
  refine ⟨_, .go hnext (.leave (next_restore (hstack'.trans hstack))), ?_⟩
  have hdeliverable (i : ℕ) : ¬ Deliverable current m.data i := fun hd => by
    have hbit := hd.1
    rw [hp] at hbit
    simp at hbit
  refine ⟨fun _ => ?_, fun i hi => absurd hi.deliverable (hdeliverable i),
    fun i hi => absurd hi.deliverable (hdeliverable i)⟩
  rw [hdata', huser', ← hp, setPending, pending, Function.update_eq_self]

variable (task va) in
/-- The handler of the lowest pending signal is entered. -/
theorem dispatches_deliver {m' : Cpu} (hstack : m.stack = f.words ++ rest)
    (ht : Taken current m (pending current m.data).ctz.toNat m')
    (hi : Lowest current m.data (pending current m.data).ctz.toNat)
    (hh : handler current m.data (pending current m.data).ctz.toNat ≠ 0) : ∃ o,
    next current task va (.restore, deliver va m') = .inr o ∧
      Dispatches current m.data f m.user o := by
  obtain ⟨hstack', hdata', huser'⟩ := deliver_eq va (ht.stack.trans hstack) ht.eax
  rw [ht.ecx, ht.data] at hdata' huser'
  rw [ht.ebx] at hstack'
  refine ⟨_, next_restore hstack', ?_⟩
  have hrestorer : Function.update (setPending current m.data (pending current m.data &&&
      ~~~((1 : Word) <<< (pending current m.data).ctz.toNat)))
      (current + sigFn + 4 * BitVec.ofNat 32 (pending current m.data).ctz.toNat) 0
        (current + restorer) = m.data (current + restorer) := by
    rw [Function.update_of_ne (handler_ne_restorer hi.deliverable.lt), setPending,
      Function.update_of_ne (add_offset_ne (by decide))]
  rw [hrestorer, ofNat_succ, ht.user] at huser'
  rw [hdata', huser', clear_ctz]
  exact .of_handler hi hh (receives_storeWords _ _ _ (show 4 * 7 ≤ 2 ^ 32 by decide))

variable (task va) in
/-- The handler decides where a turn goes on. -/
theorem next_nextSignal (heax : m.reg .eax = current) (hp : pending current m.data ≠ 0) :
    next current task va (.nextSignal, m) =
      if handler current m.data (pending current m.data).ctz.toNat = 0 then
        .inl (.defaultSignal, take (scan m))
      else if handler current m.data (pending current m.data).ctz.toNat = 1 then
        .inl (.nextSignal, take (scan m))
      else .inl (.restore, deliver va (take (scan m))) := by
  obtain ⟨-, hcf, hzf⟩ := taken_take heax hp
  have hscan : (scan m).zf = false := by rw [scan_of_ne heax hp]
  rw [next, hscan]
  dsimp only
  rw [hcf, hzf]
  simp only [decide_eq_true_eq, Bool.false_eq_true, if_false]

variable (task va) in
/-- The routine from label `2`, by induction on the set of pending signals. -/
theorem ends_nextSignal (heax : m.reg .eax = current) (hstack : m.stack = f.words ++ rest) : ∃ o,
    Ends (next current task va) (.nextSignal, m) o ∧ Dispatches current m.data f m.user o := by
  induction hn : (pending current m.data).toNat using Nat.strongRecOn generalizing m with
  | ind n ih =>
    subst hn
    by_cases hp : pending current m.data = 0
    · exact ends_of_zero heax hstack hp
    obtain ⟨ht, -⟩ := taken_take heax hp
    have hnext := next_nextSignal task va heax hp
    have hi : (pending current m.data).ctz.toNat < 32 := BitVec.ctz_lt_iff_ne_zero.mpr hp
    -- The turns that go on do so with one signal less.
    have hagain {m' : Cpu} (heax' : m'.reg .eax = current) (hstack' : m'.stack = m.stack)
        (hdata' : m'.data = setPending current m.data (pending current m.data &&&
          ~~~((1 : Word) <<< (pending current m.data).ctz.toNat))) (huser' : m'.user = m.user)
        (hnot : ¬ Deliverable current m.data (pending current m.data).ctz.toNat) : ∃ o,
        Ends (next current task va) (.nextSignal, m') o ∧ Dispatches current m.data f m.user o := by
      have hpending := congrArg (pending current) hdata'
      rw [pending_setPending] at hpending
      obtain ⟨o, hends, ho⟩ := ih _ (hpending ▸ clear_lt hp) heax' (hstack'.trans hstack) rfl
      rw [hdata', huser'] at ho
      exact ⟨o, hends, ho.of_clear hnot fun j hj => BitVec.getLsbD_false_of_lt_ctz hj⟩
    by_cases hzero : handler current m.data (pending current m.data).ctz.toNat = 0
    · rw [if_pos hzero] at hnext
      obtain ⟨m', heax', hstack', hdata', huser', hdefault⟩ :=
        next_defaultSignal current va task (take (scan m))
      rw [ht.ecx, ofNat_succ, ht.data, clear_ctz] at hdefault
      by_cases hnumber : (pending current m.data).ctz.toNat + 1 = 17
      · obtain ⟨o, hends, ho⟩ := hagain (heax'.trans ht.eax) (hstack'.trans ht.stack)
          (hdata'.trans ht.data) (huser'.trans ht.user) fun hd => hd.2.2 ⟨hnumber, hzero⟩
        rw [hnumber, if_pos (show (17#32 : Word) = 17 from rfl)] at hdefault
        exact ⟨o, .go hnext (.go hdefault hends), ho⟩
      · have hd : Deliverable current m.data (pending current m.data).ctz.toNat :=
          ⟨getLsbD_ctz hp, fun hone => absurd (hzero.symm.trans hone) (by decide),
            fun h => hnumber h.1⟩
        have hword : BitVec.ofNat 32 ((pending current m.data).ctz.toNat + 1) ≠ 17 := by bv_omega
        rw [if_neg hword] at hdefault
        exact ⟨_, .go hnext (.leave hdefault), .of_default (lowest_ctz hd) hzero⟩
    · rw [if_neg hzero] at hnext
      by_cases hone : handler current m.data (pending current m.data).ctz.toNat = 1
      · rw [if_pos hone] at hnext
        obtain ⟨o, hends, ho⟩ := hagain ht.eax ht.stack ht.data ht.user fun hd => hd.2.1 hone
        exact ⟨o, .go hnext hends, ho⟩
      · rw [if_neg hone] at hnext
        have hd : Deliverable current m.data (pending current m.data).ctz.toNat :=
          ⟨getLsbD_ctz hp, hone, fun h => hzero h.2⟩
        obtain ⟨o, hrestore, ho⟩ := dispatches_deliver task va hstack ht (lowest_ctz hd) hzero
        exact ⟨o, .go hnext (.leave hrestore), ho⟩

end Loop

section Entry

variable {current task : Word} (va : VerifyArea) {f : Frame} {rest : List Word} {m : Cpu}
  (htask : current ≠ task) (hstack : m.stack = f.words ++ rest) (hcs : f.cs &&& 3 ≠ 0)
  (hss : f.oldss.setWidth 16 = (0x17 : BitVec 16))

include htask hstack hcs hss

/-- The tests on entry find that signals are to be looked at. -/
theorem next_retFromSysCall :
    ∃ m', next current task va (.retFromSysCall, m) = .inl (.nextSignal, m') ∧
      m'.reg .eax = current ∧ m'.stack = m.stack ∧ m'.data = m.data ∧ m'.user = m.user := by
  let m₁ := m.movl (.imm current) (.reg .eax) |>.cmpl (.imm task) (.reg .eax)
  let m₂ := m₁.movl (.esp CS) (.reg .ebx) |>.testl (.imm 3) (.reg .ebx)
  let m₃ := m₂.cmpw (.imm 0x17) (.esp OLDSS)
  have h₁ : m₁.zf = false := decide_eq_false htask
  have h₂ : m₂.zf = false := by
    refine decide_eq_false ?_
    change m.stack.getD 8 0 &&& 3 ≠ 0
    rw [hstack]
    exact hcs
  have h₃ : m₃.zf = true := by
    refine decide_eq_true ?_
    change (m.stack.getD 11 0).setWidth 16 = _
    rw [hstack]
    exact hss
  refine ⟨m₃, ?_, rfl, rfl, rfl, rfl⟩
  change (if m₁.zf then .inl (.restore, m₁) else if m₂.zf then .inl (.restore, m₂)
    else if m₃.zf then .inl (.nextSignal, m₃) else .inl (.restore, m₃) : (Label × Cpu) ⊕ Outcome) =
      _
  rw [h₁, h₂, h₃]
  rfl

theorem ends_retFromSysCall :
    ∃ o, Ends (next current task va) (.retFromSysCall, m) o ∧ Dispatches current m.data f
      m.user o := by
  obtain ⟨m', hnext, heax, hstack', hdata, huser⟩ := next_retFromSysCall va htask hstack hcs hss
  obtain ⟨o, hends, ho⟩ := ends_nextSignal task va heax (hstack'.trans hstack)
  rw [hdata, huser] at ho
  exact ⟨o, .go hnext hends, ho⟩

end Entry

/-- A process other than task 0 comes back to user mode, with any signals pending and any handlers:
the routine is left, in one way. -/
theorem dispatches_iff {current task : Word} {va : VerifyArea} {f : Frame}
    {rest : List Word} {m : Cpu}
    (htask : current ≠ task) (hstack : m.stack = f.words ++ rest) (hcs : f.cs &&& 3 ≠ 0)
    (hss : f.oldss.setWidth 16 = (0x17 : BitVec 16)) :
    ∃ o, (∀ o', Ends (next current task va) (.retFromSysCall, m) o' ↔ o' = o) ∧
      Dispatches current m.data f m.user o := by
  obtain ⟨o, hends, ho⟩ := ends_retFromSysCall va htask hstack hcs hss
  exact ⟨o, fun o' => ⟨hends.unique, fun h => h ▸ hends⟩, ho⟩

/-- Task 1 comes back with signal 2 pending, whose handler is at 0x1000. -/
theorem dispatches_iff_two : ∃ o,
    (∀ o', Ends (next 0x20000 0x10000 ⟨fun _ => ⟨0, 0, 0, false, false⟩, fun _ => 0⟩)
      (.retFromSysCall, ⟨fun _ => 0, (Frame.mk 1 2 3 4 0x17 0x17 0x17 0x500 0x0f 0x202 0x8000
        0x17).words,
        Function.update (setPending 0x20000 (fun _ => 0) 2)
          (0x20000 + sigFn + 4 * BitVec.ofNat 32 1) 0x1000,
        fun _ => 0, false, false⟩) o' ↔ o' = o) ∧
      Dispatches 0x20000 (Function.update (setPending 0x20000 (fun _ => 0) 2)
        (0x20000 + sigFn + 4 * BitVec.ofNat 32 1) 0x1000)
        ⟨1, 2, 3, 4, 0x17, 0x17, 0x17, 0x500, 0x0f, 0x202, 0x8000, 0x17⟩ (fun _ => 0) o :=
  dispatches_iff (by decide) (List.append_nil _).symm (by decide) (by decide)

end Linux001.Signals
