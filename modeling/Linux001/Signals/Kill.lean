import Linux001.Lib.Sizes
import Mathlib.Data.BitVec
import Mathlib.Logic.Function.Basic

/-!
# The processes that `kill` and `waitpid` select

The model of `send_sig`, `do_kill` and `sys_kill` of `kernel/exit.c`, and of the selection of
`sys_waitpid`. A pid argument stands for one process, for the processes of a group, or for all. The
two functions take it apart separately, and for the argument 0 `do_kill` compares the groups with
the number of the caller instead of the group of the caller.

## Main definitions

* `Process`, `Table`: what the functions look at of a task, and the table `task`.
* `sendSig`, `doKill`, `sysKill`: the functions.
* `WaitpidSelects`, `Denotes`: the processes that `sys_waitpid` waits for, and what the argument
  says.
* `Agrees`: `do_kill` sets the signal in the processes that `sys_waitpid` selects.

## Main results

* `doKill_apply`: the effect of `do_kill` on a slot.
* `denotes_iff`: `sys_waitpid` selects what the argument denotes.
* `kill_agrees_iff`: when the two agree.
-/

namespace Linux001.Signals

/-- A word of 32 bits. -/
abbrev Word := BitVec 32

/-- The fields of `struct task_struct` that the functions look at. -/
structure Process where
  pid : Word
  pgrp : Word
  uid : ℕ
  euid : ℕ
  signal : Word

/-- `task[NR_TASKS]`. -/
abbrev Table := ℕ → Option Process

/-- `1<<(sig-1)`. -/
def sigBit (sig : Word) : Word := (1 : Word) <<< (sig - 1).toNat

/-- `p->signal |= (1<<(sig-1))`. -/
def Process.raise (p : Process) (sig : Word) : Process :=
  { p with signal := p.signal ||| sigBit sig }

/-- The caller may send signals to the process. -/
def MaySignal (current : Process) (priv : Bool) (p : Process) : Prop :=
  priv = true ∨ current.uid = p.uid ∨ current.euid = p.uid ∨ current.uid = p.euid ∨
    current.euid = p.euid

instance (current : Process) (priv : Bool) (p : Process) : Decidable (MaySignal current priv p) :=
  inferInstanceAs (Decidable (_ ∨ _))

/-- `send_sig(sig, p, priv)`. -/
def sendSig (current : Process) (sig : Word) (priv : Bool) (p : Process) : Process :=
  if sig.toInt < 1 ∨ 32 < sig.toInt then p
  else if MaySignal current priv p then p.raise sig
  else p

/-- A loop of `do_kill` over the slots `n` to 1, in this order. -/
def forTasks (f : Process → Process) : ℕ → Table → Table
  | 0, task => task
  | i + 1, task => forTasks f i (Function.update task (i + 1) ((task (i + 1)).map f))

/-- `do_kill(pid, sig, priv)`. -/
def doKill (current : Process) (pid sig : Word) (priv : Bool) (task : Table) : Table :=
  if pid = 0 then
    forTasks (fun p => if p.pgrp = current.pid then sendSig current sig priv p else p) 63 task
  else if 0 < pid.toInt then
    forTasks (fun p => if p.pid = pid then sendSig current sig priv p else p) 63 task
  else if pid = -1 then
    forTasks (sendSig current sig priv) 63 task
  else
    forTasks (fun p => if p.pgrp = -pid then sendSig current sig priv p else p) 63 task

/-- `sys_kill(pid, sig)`. -/
def sysKill (current : Process) (pid sig : Word) (task : Table) : Table :=
  doKill current pid sig (current.uid = 0 ∧ current.euid = 0) task

/-- The condition on `pid` in the loop of `sys_waitpid`. -/
def WaitpidSelects (current : Process) (pid : Word) (p : Process) : Prop :=
  pid = -1 ∨ p.pid = pid ∨ (pid = 0 ∧ p.pgrp = current.pgrp) ∨ (pid.toInt < 0 ∧ p.pgrp = -pid)

instance (current : Process) (pid : Word) (p : Process) :
    Decidable (WaitpidSelects current pid p) :=
  inferInstanceAs (Decidable (_ ∨ _))

/-- What a pid argument denotes: a process, the group of the caller, all processes, or a group. -/
def Denotes (current : Process) (pid : Word) (p : Process) : Prop :=
  if 0 < pid.toInt then p.pid = pid
  else if pid = 0 then p.pgrp = current.pgrp
  else if pid = -1 then True
  else p.pgrp = -pid

/-- The slots that the loops look at. -/
def Slot (i : ℕ) : Prop := 1 ≤ i ∧ i ≤ 63

instance (i : ℕ) : Decidable (Slot i) := inferInstanceAs (Decidable (_ ∧ _))

/-- The signal is set in the processes that `sys_waitpid` selects for the argument and that the
caller may signal, and nothing else changes. -/
def Agrees (current : Process) (pid sig : Word) (priv : Bool) (task : Table) : Prop :=
  ∀ i, doKill current pid sig priv task i =
    if Slot i then (task i).map fun p =>
      if WaitpidSelects current pid p ∧ MaySignal current priv p then p.raise sig else p
    else task i

/-- The processes have positive numbers, as `find_empty_process` gives them. -/
def Table.Numbered (task : Table) : Prop := ∀ i p, Slot i → task i = some p → 0 < p.pid.toInt

variable {current p : Process} {pid sig : Word} {priv : Bool} {task : Table} {i : ℕ}

/-! ### The loops -/

theorem forTasks_apply (f : Process → Process) (n : ℕ) (task : Table) (i : ℕ) :
    forTasks f n task i = if 1 ≤ i ∧ i ≤ n then (task i).map f else task i := by
  induction n generalizing task with
  | zero => rw [forTasks, if_neg (by omega)]
  | succ n ih =>
    rw [forTasks, ih]
    rcases eq_or_ne i (n + 1) with rfl | hne
    · rw [if_neg (by omega), if_pos (by omega), Function.update_self]
    · rw [Function.update_of_ne hne]
      refine if_congr ?_ rfl rfl
      omega

/-- The condition of the loop of `do_kill` for its argument. -/
def KillSelects (current : Process) (pid : Word) (p : Process) : Prop :=
  if pid = 0 then p.pgrp = current.pid
  else if 0 < pid.toInt then p.pid = pid
  else if pid = -1 then True
  else p.pgrp = -pid

instance (current : Process) (pid : Word) (p : Process) :
    Decidable (KillSelects current pid p) := by
  unfold KillSelects
  infer_instance

theorem sendSig_eq (h : 1 ≤ sig.toInt) (h' : sig.toInt ≤ 32) : sendSig current sig priv p =
    if MaySignal current priv p then p.raise sig else p :=
  if_neg (by omega)

/-- A loop that sends the signal to the processes that are selected. -/
theorem forTasks_sendSig (h : 1 ≤ sig.toInt) (h' : sig.toInt ≤ 32) {c : Process → Prop}
    [DecidablePred c] (hc : ∀ p, c p ↔ KillSelects current pid p) (task : Table) (i : ℕ) :
    forTasks (fun p => if c p then sendSig current sig priv p else p) 63 task i =
      if Slot i then (task i).map fun p =>
        if KillSelects current pid p ∧ MaySignal current priv p then p.raise sig else p
      else task i := by
  rw [forTasks_apply]
  refine if_congr Iff.rfl (congrArg (fun f => (task i).map f) (funext fun p => ?_)) rfl
  rw [sendSig_eq h h', ← ite_and]
  exact if_congr (and_congr_left' (hc p)) rfl rfl

/-- What `do_kill` does to a slot. -/
theorem doKill_apply (h : 1 ≤ sig.toInt) (h' : sig.toInt ≤ 32) (task : Table) (i : ℕ) :
    doKill current pid sig priv task i =
      if Slot i then (task i).map fun p =>
        if KillSelects current pid p ∧ MaySignal current priv p then p.raise sig else p
      else task i := by
  unfold doKill
  by_cases h0 : pid = 0
  · rw [if_pos h0]
    exact forTasks_sendSig (c := fun p => p.pgrp = current.pid) h h'
      (fun p => by rw [KillSelects, if_pos h0]) task i
  rw [if_neg h0]
  by_cases hpos : 0 < pid.toInt
  · rw [if_pos hpos]
    exact forTasks_sendSig (c := fun p => p.pid = pid) h h'
      (fun p => by rw [KillSelects, if_neg h0, if_pos hpos]) task i
  rw [if_neg hpos]
  by_cases hall : pid = -1
  · rw [if_pos hall, ← forTasks_sendSig (c := fun _ => True) h h'
      (fun p => by rw [KillSelects, if_neg h0, if_neg hpos, if_pos hall]) task i]
    rfl
  · rw [if_neg hall]
    exact forTasks_sendSig (c := fun p => p.pgrp = -pid) h h'
      (fun p => by rw [KillSelects, if_neg h0, if_neg hpos, if_neg hall]) task i

/-! ### The selections -/

/-- `sys_waitpid` selects what the argument denotes. -/
theorem denotes_iff (hp : 0 < p.pid.toInt) :
    Denotes current pid p ↔ WaitpidSelects current pid p := by
  unfold Denotes WaitpidSelects
  split_ifs with hpos h0 hall
  · have hne : pid ≠ -1 := by
      rintro rfl
      exact absurd hpos (by decide)
    have hne' : pid ≠ 0 := by
      rintro rfl
      exact absurd hpos (by decide)
    rw [or_iff_right hne, or_iff_left]
    rintro (⟨h, -⟩ | ⟨h, -⟩)
    · exact hne' h
    · exact h.not_gt hpos
  · have hne : p.pid ≠ 0 := by
      intro h
      rw [h] at hp
      exact absurd hp (by decide)
    have hne' : (0 : Word) ≠ -1 := by decide
    subst h0
    rw [or_iff_right hne', or_iff_right hne, or_iff_left fun h => absurd h.1 (by decide)]
    exact (and_iff_right rfl).symm
  · exact iff_of_true trivial (.inl hall)
  · have hneg : pid.toInt < 0 := by
      have hzero : pid.toInt ≠ 0 := fun h => h0 (BitVec.eq_of_toInt_eq h)
      omega
    have hne : p.pid ≠ pid := by
      rintro rfl
      exact hneg.not_gt hp
    rw [or_iff_right hall, or_iff_right hne, or_iff_right fun h => h0 h.1]
    exact (and_iff_right hneg).symm

/-- The two selections differ for the argument 0 only. -/
theorem killSelects_iff (hp : 0 < p.pid.toInt) : (KillSelects current pid p ↔
    WaitpidSelects current pid p) ↔ (pid = 0 → (p.pgrp = current.pid ↔ p.pgrp = current.pgrp)) := by
  rw [← denotes_iff hp]
  unfold KillSelects Denotes
  by_cases h0 : pid = 0
  · have hpos : ¬0 < pid.toInt := by
      rw [h0]
      decide
    rw [if_pos h0, if_neg hpos, if_pos h0]
    exact (forall_prop_of_true (q := fun _ => p.pgrp = current.pid ↔ p.pgrp = current.pgrp) h0).symm
  · rw [if_neg h0, if_neg h0]
    exact iff_of_true Iff.rfl fun h => absurd h h0

/-- The signal is pending already. -/
def Pending (sig : Word) (p : Process) : Prop := p.signal.getLsbD (sig - 1).toNat = true

theorem getLsbD_one_shiftLeft {k : ℕ} (hk : k < 32) (j : ℕ) :
    ((1 : Word) <<< k).getLsbD j = decide (j = k) := by
  have hone : (1 : Word).getLsbD (j - k) = decide (j - k = 0) := by
    rw [show (1 : Word) = 1#32 from rfl, BitVec.getLsbD_one]
    simp
  rw [BitVec.getLsbD_shiftLeft, hone, Bool.eq_iff_iff]
  simp only [Bool.and_eq_true, Bool.not_eq_true', decide_eq_true_eq, decide_eq_false_iff_not]
  omega

/-- Raising a signal that is pending changes nothing. -/
theorem raise_eq_iff (h : 1 ≤ sig.toInt) (h' : sig.toInt ≤ 32) :
    p.raise sig = p ↔ Pending sig p := by
  have hlt : (sig - 1).toNat < 32 := by
    have hcond := BitVec.toInt_eq_toNat_cond sig
    have hone : (1 : Word).toNat = 1 := rfl
    rw [BitVec.toNat_sub, hone]
    split_ifs at hcond <;> omega
  have hbit : ∀ k, (p.raise sig).signal.getLsbD k =
      (p.signal.getLsbD k || decide (k = (sig - 1).toNat)) :=
    fun k => by rw [Process.raise, BitVec.getLsbD_or, sigBit, getLsbD_one_shiftLeft hlt]
  constructor
  · intro heq
    have hself := hbit (sig - 1).toNat
    rw [heq, decide_eq_true rfl, Bool.or_true] at hself
    exact hself
  · intro hpending
    have hsignal : (p.raise sig).signal = p.signal := by
      refine BitVec.eq_of_getLsbD_eq fun k _ => ?_
      rw [hbit]
      by_cases hself : k = (sig - 1).toNat
      · rw [hself, show p.signal.getLsbD (sig - 1).toNat = true from hpending, Bool.true_or]
      · rw [decide_eq_false hself, Bool.or_false]
    exact congrArg (fun w => { p with signal := w }) hsignal

/-- Two selections leave a process in the same state. -/
theorem raised_eq_iff (h : 1 ≤ sig.toInt) (h' : sig.toInt ≤ 32) (c c' : Prop) [Decidable c]
    [Decidable c'] : ((if c ∧ MaySignal current priv p then p.raise sig else p) =
      if c' ∧ MaySignal current priv p then p.raise sig else p) ↔
        (MaySignal current priv p → ¬Pending sig p → (c ↔ c')) := by
  by_cases hmay : MaySignal current priv p
  swap
  · rw [if_neg fun hc => hmay hc.2, if_neg fun hc => hmay hc.2]
    exact iff_of_true rfl fun hm => absurd hm hmay
  by_cases hpending : Pending sig p
  · rw [(raise_eq_iff h h').mpr hpending, ite_self, ite_self]
    exact iff_of_true rfl fun _ hnot => absurd hpending hnot
  · have hne : p.raise sig ≠ p := (raise_eq_iff h h').not.mpr hpending
    by_cases hc : c <;> by_cases hc' : c'
    · simp [hc, hc']
    · simp [hc, hc', hmay, hpending, hne]
    · simp [hc, hc', hmay, hpending, hne.symm]
    · simp [hc, hc']

/-! ### Main theorem -/

/-- **`kill` sets the signal in exactly the processes that `waitpid` selects, if and only if the
argument is not 0, or being in the group of the caller is the same as being in the group that has
the number of the caller, for all processes where it matters.** -/
theorem kill_agrees_iff (h : 1 ≤ sig.toInt) (h' : sig.toInt ≤ 32) (hn : task.Numbered) :
    Agrees current pid sig priv task ↔ pid ≠ 0 ∨ ∀ i p, Slot i → task i = some p →
      MaySignal current priv p → ¬Pending sig p →
        (p.pgrp = current.pid ↔ p.pgrp = current.pgrp) := by
  constructor
  · intro hagrees
    by_cases h0 : pid = 0
    · refine .inr fun i p hi hp hmay hpending => ?_
      have hslot := hagrees i
      rw [doKill_apply h h', if_pos hi, if_pos hi, hp] at hslot
      have hselects := (raised_eq_iff h h' _ _).mp (Option.some.inj hslot) hmay hpending
      exact (killSelects_iff (hn i p hi hp)).mp hselects h0
    · exact .inl h0
  · intro hcond i
    rw [doKill_apply h h']
    refine if_ctx_congr Iff.rfl (fun hi => ?_) fun _ => rfl
    cases hp : task i with
    | none => rfl
    | some p =>
      refine congrArg some ((raised_eq_iff h h' _ _).mpr fun hmay hpending => ?_)
      refine (killSelects_iff (hn i p hi hp)).mpr fun h0 => ?_
      exact hcond.resolve_left (not_not.mpr h0) i p hi hp hmay hpending

/-- A process of the user 7. -/
def process (pid pgrp : Word) : Process := ⟨pid, pgrp, 7, 7, 0⟩

/-- The processes 5 and 6, in one group. -/
def twoProcesses (pgrp : Word) : Table := fun i =>
  if i = 1 then some (process 5 pgrp) else if i = 2 then some (process 6 pgrp) else none

theorem numbered_twoProcesses (pgrp : Word) : (twoProcesses pgrp).Numbered := fun i p _ hp => by
  unfold twoProcesses at hp
  split_ifs at hp
  · obtain rfl := Option.some.inj hp
    exact (by decide : 0 < (5 : Word).toInt)
  · obtain rfl := Option.some.inj hp
    exact (by decide : 0 < (6 : Word).toInt)

/-- The leader of the group 5 sends `SIGTERM` to its group. -/
theorem kill_agrees_iff_leader : (1 ≤ (15 : Word).toInt ∧ (15 : Word).toInt ≤ 32) ∧
    (twoProcesses 5).Numbered ∧ Agrees (process 5 5) 0 15 false (twoProcesses 5) := by
  have h : 1 ≤ (15 : Word).toInt := by decide
  have h' : (15 : Word).toInt ≤ 32 := by decide
  have hn := numbered_twoProcesses 5
  exact ⟨⟨h, h'⟩, hn, (kill_agrees_iff h h' hn).mpr (.inr fun _ _ _ _ _ _ => Iff.rfl)⟩

/-- The process 5 sends `SIGTERM` to its group, the group 3, and neither of the two members gets
it. -/
theorem not_agrees_member :
    (twoProcesses 3).Numbered ∧ ¬Agrees (process 5 3) 0 15 false (twoProcesses 3) := by
  refine ⟨numbered_twoProcesses 3, fun h => ?_⟩
  have hslot := congrArg (Option.map Process.signal) (h 2)
  exact absurd hslot (by decide)

end Linux001.Signals
