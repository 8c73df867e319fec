import Linux001.Inodes.Exact
import Linux001.UserMemory.CopyOut
import Mathlib.Tactic.Linarith

/-!
# Stores to verified memory

The processor does not look at the write protection of pages when the kernel stores to them, so a
page that is shared after a `fork` must have been copied before. This is what `verify_area` does for
a range of addresses. All system calls that store to user memory call it for the range that they
store to, with the exception of `sys_pipe`.

## Main results

* `storesIn_readInode`: what `sys_read` calls stores in the range of the buffer.
* `checks_code`: all calls but `sys_pipe` store to verified addresses only, and which ranges they
  verify.
* `checked_iff`: a call stores to an address that has not been verified exactly if it is a
  `sys_pipe` that has all it needs.
-/

namespace Linux001.UserMemory

open Set
open Inodes (Slot FileNr Outside Cpu)

variable {D : Type} (V : Env D) {R : Set ℕ} {P : ℕ → ℕ → Prop}

/-! ### Accesses -/

theorem storesIn_state : StoresIn R (state : U D (Machine D)) := .kernel _

theorem storesIn_update (f : Machine D → Machine D) : StoresIn R (update f) := .kernel _

theorem storesIn_when {c : Prop} [Decidable c] {m : U D Unit} (h : StoresIn R m) :
    StoresIn R (when c m) := .ite (fun _ => h) fun _ => .pure _

theorem storesIn_outside {α : Type} (m : Outside D α) : StoresIn R (outside m : U D α) := .kernel _

theorem storesIn_wait : StoresIn R (wait V) := .kernel _

theorem storesIn_bread (dev block : ℕ) : StoresIn R (bread V dev block) :=
  (storesIn_outside _).bind fun _ => (storesIn_wait V).bind fun _ => .pure _

theorem storesIn_setInode (k : Slot) (f : Inodes.Inode → Inodes.Inode) :
    StoresIn R (setInode k f : U D Unit) := .kernel _

theorem storesIn_setFile (f : FileNr) (g : Inodes.File → Inodes.File) :
    StoresIn R (setFile f g : U D Unit) := .kernel _

theorem storesIn_putFsByte {addr : ℕ} (h : addr ∈ R) : StoresIn R (putFsByte V addr) := by
  refine (StoresIn.put fun x hx => ?_).bind fun _ => storesIn_outside _
  rwa [show x = addr from le_antisymm (Nat.lt_succ_iff.mp hx.2) hx.1]

theorem storesIn_putFsLong {addr : ℕ} (h : Ico addr (addr + 4) ⊆ R) :
    StoresIn R (putFsLong V addr) :=
  (StoresIn.put h).bind fun _ => storesIn_outside _

theorem storesIn_putFsBytes {addr n : ℕ} (h : Ico addr (addr + n) ⊆ R) :
    StoresIn R (putFsBytes V addr n) := by
  refine .forM fun i hi => storesIn_putFsByte V (h ⟨by omega, ?_⟩)
  exact Nat.add_lt_add_left (List.mem_range.mp hi) addr

/-- Code that stores in a range, after a `verify_area` of the range. -/
theorem checks_verifyArea {α : Type} {addr size : ℕ} {m : U D α}
    (h : StoresIn (Ico addr (addr + size)) m) (hP : P addr size) :
    Checks P (verifyArea V addr size >>= fun _ => m) := by
  unfold verifyArea
  rw [bind_assoc]
  exact .of_storesIn ((storesIn_outside _).bind fun _ => h) hP

/-- A range without its first bytes. -/
theorem Ico_add_subset {b n m : ℕ} (hm : m ≤ n) (h : Ico b (b + n) ⊆ R) :
    Ico (b + m) (b + m + (n - m)) ⊆ R := fun x hx => by
  obtain ⟨h₁, h₂⟩ := hx
  exact h ⟨by omega, by omega⟩

/-- The first bytes of a range. -/
theorem Ico_le_subset {b n m : ℕ} (hm : m ≤ n) (h : Ico b (b + n) ⊆ R) : Ico b (b + m) ⊆ R :=
  fun _ hx => h ⟨hx.1, hx.2.trans_le (Nat.add_le_add_left hm b)⟩

/-! ### Pipes -/

theorem storesIn_pipeWait (k : Slot) (turns : ℕ) : StoresIn R (pipeWait V k turns) := by
  induction turns with
  | zero => exact .throw _
  | succ turns ih =>
    refine storesIn_state.bind fun s => .ite (fun _ => .ite (fun _ => .pure _) fun _ => ?_)
      fun _ => .pure _
    exact (storesIn_wait V).bind fun _ => ih

theorem storesIn_pipeCopy (k : Slot) {count b : ℕ} (h : Ico b (b + count) ⊆ R) :
    StoresIn R (pipeCopy V k count b) := by
  induction count generalizing b with
  | zero => exact .pure _
  | succ count ih =>
    refine storesIn_state.bind fun s => .ite (fun _ => .pure _) fun _ => ?_
    refine (storesIn_putFsByte V (h ⟨le_rfl, by omega⟩)).bind fun _ =>
      (storesIn_setInode k _).bind fun _ => ih ?_
    exact Ico_add_subset (Nat.le_add_left 1 count) h

theorem storesIn_readPipe (k : Slot) {buf count : ℕ} (h : Ico buf (buf + count) ⊆ R)
    (turns : ℕ) : StoresIn R (readPipe V k buf count turns) :=
  (storesIn_pipeWait V k turns).bind fun _ => .ite (fun _ => .pure _) fun _ =>
    (storesIn_pipeCopy V k h).bind fun _ => .pure _

/-! ### Terminals -/

theorem storesIn_sleepIfEmpty (channel turns : ℕ) :
    StoresIn R (sleepIfEmpty V channel turns) := by
  induction turns with
  | zero => exact .throw _
  | succ turns ih =>
    refine storesIn_state.bind fun s => .ite (fun _ => ?_) fun _ => .pure _
    exact (storesIn_wait V).bind fun _ => ih

theorem storesIn_ttyCopy (channel : ℕ) {nr b : ℕ} (h : Ico b (b + nr) ⊆ R) :
    StoresIn R (ttyCopy V channel nr b) := by
  induction nr generalizing b with
  | zero => exact .pure _
  | succ nr ih =>
    refine (storesIn_wait V).bind fun _ => storesIn_state.bind fun s =>
      (storesIn_update _).bind fun _ => (storesIn_when (storesIn_update _)).bind fun _ => ?_
    refine .ite (fun _ => .pure _) fun _ => ?_
    refine (storesIn_putFsByte V (h ⟨le_rfl, by omega⟩)).bind fun _ =>
      storesIn_state.bind fun s => ?_
    exact .ite (fun _ => .pure _) fun _ => ih (Ico_add_subset (Nat.le_add_left 1 nr) h)

/-- The room that is left, and the characters that have been read, are the room there was. -/
theorem returns_ttyCopy (channel nr b : ℕ) :
    Returns (fun r => r.2.1 + r.2.2 = b + nr ∧ b ≤ r.2.1) (ttyCopy V channel nr b) := by
  induction nr generalizing b with
  | zero => exact .pure ⟨rfl, le_rfl⟩
  | succ nr ih =>
    refine .bind fun _ => .bind fun s => .bind fun _ => .bind fun _ => ?_
    refine .ite (fun _ => .pure ⟨rfl, le_rfl⟩) fun _ => .bind fun _ => .bind fun s => ?_
    have hsucc : b + 1 + nr = b + (nr + 1) := by omega
    refine .ite (fun _ => .pure ⟨hsucc, Nat.le_succ b⟩) fun _ => (ih (b + 1)).mono fun r hr => ?_
    exact ⟨hr.1.trans hsucc, (Nat.le_succ b).trans hr.2⟩

theorem storesIn_ttyAlarm (channel oldalarm time : ℕ) (flag : Bool) :
    StoresIn R (ttyAlarm channel oldalarm time flag : U D Bool) :=
  storesIn_state.bind fun _ => .ite
    (fun _ => .ite (fun _ => (storesIn_update _).bind fun _ => .pure _)
      fun _ => (storesIn_update _).bind fun _ => .pure _)
    fun _ => .pure _

theorem storesIn_ttyLoop (channel buf minimum oldalarm time : ℕ) {turns : ℕ} {flag : Bool}
    {b nr : ℕ} (h : Ico b (b + nr) ⊆ R) :
    StoresIn R (ttyLoop V channel buf minimum oldalarm time turns flag b nr) := by
  induction turns generalizing flag b nr with
  | zero => exact .throw _
  | succ turns ih =>
    refine storesIn_state.bind fun s => .ite (fun _ => .pure _) fun _ => ?_
    refine .ite (fun _ => (storesIn_update _).bind fun _ => .pure _) fun _ => ?_
    refine .ite (fun _ => .pure _) fun _ => .ite (fun _ => ?_) fun _ => ?_
    · exact (storesIn_sleepIfEmpty V channel turns).bind fun _ => ih h
    · -- The loop goes on in what the copied characters have left of the range.
      refine (storesIn_ttyCopy V channel h).bind_of (returns_ttyCopy V channel nr b) ?_
      rintro ⟨eof, b', nr'⟩ ⟨hsum, hle⟩
      refine .ite (fun _ => .pure _) fun _ => (storesIn_ttyAlarm channel _ _ _).bind fun flag' =>
        storesIn_state.bind fun s => ?_
      refine .ite (fun _ => .pure _) fun _ => ih fun x hx => h ⟨hle.trans hx.1, ?_⟩
      exact hx.2.trans_eq hsum

theorem storesIn_ttyRead (channel : ℕ) {buf nr : ℕ} (h : Ico buf (buf + nr) ⊆ R) (turns : ℕ) :
    StoresIn R (ttyRead V channel buf nr turns) := by
  refine .ite (fun _ => .pure _) fun _ => storesIn_state.bind fun s =>
    (storesIn_when (storesIn_update _)).bind fun _ => (storesIn_ttyLoop V _ _ _ _ _ h).bind ?_
  rintro ⟨eof, b⟩
  refine .ite (fun _ => .pure _) fun _ => (storesIn_update _).bind fun _ =>
    storesIn_state.bind fun s => ?_
  exact .ite (fun _ => .pure _) fun _ => .pure _

theorem storesIn_rwChar (dev : ℕ) {buf count : ℕ} (h : Ico buf (buf + count) ⊆ R) (turns : ℕ) :
    StoresIn R (rwChar V dev buf count turns) := by
  refine .ite (fun _ => .throw _) fun _ => .ite (fun _ => storesIn_ttyRead V _ h turns) fun _ =>
    .ite (fun _ => storesIn_state.bind fun s => ?_) fun _ => .throw _
  exact .ite (fun _ => .pure _) fun _ => storesIn_ttyRead V _ h turns

/-! ### Files and block devices -/

theorem storesIn_blockReadFrom (dev : ℕ) (f : FileNr) {turns block buf count read : ℕ}
    (h : Ico buf (buf + count) ⊆ R) :
    StoresIn R (blockReadFrom V dev f turns block buf count read) := by
  induction turns generalizing block buf count read with
  | zero => exact .pure _
  | succ turns ih =>
    refine .ite (fun _ => .pure _) fun _ => (storesIn_bread V dev block).bind fun ok => ?_
    refine .ite (fun _ => .pure _) fun _ => (storesIn_setFile f _).bind fun _ => ?_
    have hle : min count 1024 ≤ count := min_le_left count 1024
    refine (storesIn_putFsBytes V (Ico_le_subset hle h)).bind fun _ => ?_
    exact (storesIn_outside _).bind fun _ => (storesIn_outside _).bind fun _ =>
      ih (Ico_add_subset hle h)

theorem storesIn_breadUnless (dev nr : ℕ) : StoresIn R (breadUnless V dev nr) :=
  .ite (fun _ => .pure _) fun _ => storesIn_bread V dev nr

theorem storesIn_fileReadFrom (k : Slot) (f : FileNr) {turns buf left : ℕ}
    (h : Ico buf (buf + left) ⊆ R) : StoresIn R (fileReadFrom V k f turns buf left) := by
  induction turns generalizing buf left with
  | zero => exact .pure _
  | succ turns ih =>
    refine .ite (fun _ => .pure _) fun _ => storesIn_state.bind fun s =>
      (storesIn_outside _).bind fun nr => (storesIn_wait V).bind fun _ =>
        storesIn_state.bind fun s => (storesIn_breadUnless V _ nr).bind fun ok => ?_
    refine .ite (fun _ => .pure _) fun _ => storesIn_state.bind fun s =>
      (storesIn_setFile f _).bind fun _ => ?_
    have hle : min (1024 - (s.cpu.file f).pos % 1024) left ≤ left := min_le_right _ left
    refine (storesIn_putFsBytes V (Ico_le_subset hle h)).bind fun _ => ?_
    exact (storesIn_when (storesIn_outside _)).bind fun _ => ih (Ico_add_subset hle h)

/-- All that `sys_read` calls stores in the range of the buffer. -/
theorem storesIn_readInode (f : FileNr) (k : Slot) {buf count : ℕ}
    (h : Ico buf (buf + count) ⊆ R) (turns : ℕ) :
    StoresIn R (readInode V f k buf count turns) := by
  refine storesIn_state.bind fun s => .ite (fun _ => .ite (fun _ => ?_) fun _ => .pure _) fun _ =>
    .ite (fun _ => storesIn_rwChar V _ h turns) fun _ => .ite (fun _ => ?_) fun _ =>
      .ite (fun _ => .ite (fun _ => .pure _) fun _ => ?_) fun _ => .pure _
  · exact storesIn_readPipe V k h turns
  · exact storesIn_state.bind fun s => storesIn_blockReadFrom V _ f h
  · -- No more than `count` bytes are read.
    refine (storesIn_fileReadFrom V k f (Ico_le_subset ?_ h)).bind fun _ => .pure _
    split_ifs
    · omega
    · simp

/-! ### Calls -/

theorem checks_sysRead (fd : ℕ) {buf : ℕ} {count : ℤ} (hP : P buf count.toNat) (turns : ℕ) :
    Checks P (sysRead V fd buf count turns) := by
  refine (Checks.of_silent storesIn_state).bind fun s => ?_
  cases s.cpu.current.filpAt fd with
  | none => exact .of_silent (.pure _)
  | some f =>
    refine .ite (fun _ => .of_silent (.pure _)) fun _ => .ite (fun _ => .of_silent (.pure _))
      fun _ => checks_verifyArea V ?_ hP
    cases (s.cpu.file f).inode with
    | none => exact .throw _
    | some k => exact storesIn_readInode V f k subset_rfl turns

theorem storesIn_waitpidFrom (pid : ℤ) {statAddr : ℕ} (h : Ico statAddr (statAddr + 4) ⊆ R)
    (options turns : ℕ) : StoresIn R (waitpidFrom V pid statAddr options turns) := by
  induction turns with
  | zero => exact .throw _
  | succ turns ih =>
    refine storesIn_state.bind fun s => ?_
    dsimp only
    split
    · split
      · exact .pure _
      · refine (storesIn_putFsLong V h).bind fun _ => StoresIn.bind ?_ fun _ => .pure _
        exact (storesIn_update _).bind fun _ => (storesIn_outside _).bind fun _ => storesIn_wait V
    · refine .ite (fun _ => .pure _) fun _ => .ite (fun _ => .pure _) fun _ => ?_
      refine (storesIn_wait V).bind fun _ => (storesIn_update _).bind fun _ =>
        storesIn_state.bind fun s => ?_
      exact .ite (fun _ => ih) fun _ => .pure _

section Small

-- All other calls verify ranges of a few bytes.
variable (hP : ∀ a, ∀ n ≤ utsnameSize, P a n)
include hP

theorem checks_sysWaitpid (pid : ℤ) (statAddr options turns : ℕ) :
    Checks P (sysWaitpid V pid statAddr options turns) :=
  checks_verifyArea V (storesIn_waitpidFrom V pid subset_rfl options turns) (hP _ _ (by decide))

theorem checks_sysTime (tloc : ℕ) : Checks P (sysTime V tloc) := by
  refine (Checks.of_silent storesIn_state).bind fun s => .ite (fun _ => ?_) fun _ =>
    .of_silent (.pure _)
  exact checks_verifyArea V ((storesIn_putFsLong V subset_rfl).bind fun _ => .pure _)
    (hP _ _ (by decide))

theorem checks_sysTimes (tbuf : ℕ) : Checks P (sysTimes V tbuf) := by
  refine (Checks.of_silent storesIn_state).bind fun s => .ite (fun _ => .of_silent (.pure _))
    fun _ => checks_verifyArea V ?_ (hP _ _ (by decide))
  have hfield {i : ℕ} (hi : i + 4 ≤ 16) : Ico (tbuf + i) (tbuf + i + 4) ⊆ Ico tbuf (tbuf + 16) :=
    Ico_subset_Ico (Nat.le_add_right _ _) (by omega)
  refine (storesIn_putFsLong V (hfield (i := 0) (by decide))).bind fun _ => ?_
  refine (storesIn_putFsLong V (hfield (by decide))).bind fun _ => ?_
  refine (storesIn_putFsLong V (hfield (by decide))).bind fun _ => ?_
  refine (storesIn_putFsLong V (hfield (by decide))).bind fun _ => ?_
  exact storesIn_state.bind fun s => .pure _

/-- The copying of a structure to a place that has been verified. -/
theorem checks_copyStruct (addr : ℕ) {size : ℕ} (hsize : size ≤ utsnameSize) :
    Checks P (verifyArea V addr size >>= fun _ => putFsBytes V addr size >>= fun _ =>
      (pure 0 : U D ℤ)) :=
  checks_verifyArea V ((storesIn_putFsBytes V subset_rfl).bind fun _ => .pure _) (hP _ _ hsize)

theorem checks_sysUname (name : ℕ) : Checks P (sysUname V name) :=
  .ite (fun _ => .of_silent (.pure _)) fun _ => checks_copyStruct V hP name le_rfl

theorem checks_sysStat (filename : List UInt8) (statbuf : ℕ) :
    Checks P (sysStat V filename statbuf) := by
  refine (Checks.of_silent storesIn_state).bind fun s => (Checks.of_silent (.kernel _)).bind ?_
  rintro (_ | k)
  · exact .of_silent (.pure _)
  · exact (checks_copyStruct V hP statbuf (by decide)).bind fun i =>
      (Checks.of_silent (.kernel _)).bind fun _ => .of_silent (.pure _)

theorem checks_sysFstat (fd statbuf : ℕ) : Checks P (sysFstat V fd statbuf) := by
  refine (Checks.of_silent storesIn_state).bind fun s => ?_
  split
  · exact .of_silent (.pure _)
  · exact checks_copyStruct V hP statbuf (by decide)

theorem checks_ttyIoctl (dev : ℕ) (cmd : IoctlCmd) (arg : ℕ) :
    Checks P (ttyIoctl V dev cmd arg) := by
  refine (Checks.of_silent storesIn_state).bind fun s => .ite (fun _ => .of_silent (.throw _))
    fun _ => ?_
  have hlong : Checks P (verifyArea V arg 4 >>= fun _ => putFsLong V arg >>= fun _ =>
      (pure 0 : U D ℤ)) :=
    checks_verifyArea V ((storesIn_putFsLong V subset_rfl).bind fun _ => .pure _)
      (hP _ _ (by decide))
  cases cmd with
  | TCGETS | TCGETA => exact checks_copyStruct V hP arg (by decide)
  | TIOCGPGRP => exact hlong
  | TIOCOUTQ => exact hlong
  | other cmd => exact .of_silent (.kernel _)

theorem checks_sysIoctl (fd : ℕ) (cmd : IoctlCmd) (arg : ℕ) :
    Checks P (sysIoctl V fd cmd arg) := by
  refine (Checks.of_silent storesIn_state).bind fun s => ?_
  split
  · exact .of_silent (.pure _)
  · exact .of_silent (.throw _)
  · refine .ite (fun _ => .of_silent (.pure _)) fun _ => .ite (fun _ => .of_silent (.throw _))
      fun _ => .ite (fun _ => checks_ttyIoctl V hP _ cmd arg) fun _ => .of_silent (.pure _)

end Small

/-- The ranges that a call may verify. -/
def Call.Range : Call → ℕ → ℕ → Prop
  | .read _ buf count, a, n => a = buf ∧ n = count.toNat
  | _, _, n => n ≤ utsnameSize

/-- All calls but `sys_pipe` store to verified addresses only. -/
theorem checks_code {call : Call} (h : ∀ fildes, call ≠ .pipe fildes) (turns : ℕ) :
    Checks call.Range (call.code V turns) := by
  have hsmall : ∀ a : ℕ, ∀ n ≤ utsnameSize, n ≤ utsnameSize := fun _ _ hn => hn
  cases call with
  | pipe fildes => exact absurd rfl (h fildes)
  | read fd buf count => exact checks_sysRead V fd ⟨rfl, rfl⟩ turns
  | waitpid pid statAddr options => exact checks_sysWaitpid V hsmall pid statAddr options turns
  | time tloc => exact checks_sysTime V hsmall tloc
  | times tbuf => exact checks_sysTimes V hsmall tbuf
  | uname name => exact checks_sysUname V hsmall name
  | stat filename statbuf => exact checks_sysStat V hsmall filename statbuf
  | fstat fd statbuf => exact checks_sysFstat V hsmall fd statbuf
  | ioctl fd cmd arg => exact checks_sysIoctl V hsmall fd cmd arg

/-! ### `sys_pipe` -/

/-- There are two free entries of the file table and two free descriptors, and `get_pipe_inode` has
an inode and a page. -/
def Machine.PipeReady (s : Machine D) : Prop :=
  2 ≤ ((List.finRange 64).filter fun f => (s.cpu.file f).count = 0).length ∧
    2 ≤ ((List.finRange 20).filter fun fd => s.cpu.current.filp fd = none).length ∧
      ∃ k T, Inodes.getPipeInode V.toServices s.cpu.table = .ok (some k, T)

/-- `sys_pipe` succeeds with files and an inode. -/
def Machine.PipeOk (s : Machine D) : Prop :=
  ∃ r c, Inodes.sysPipe V.toServices s.cpu = .ok (.ok r, c)

/-- The end of `sys_pipe` succeeds exactly if there is an inode for the pipe. -/
theorem pipeInode_ok_iff (fd₀ fd₁ : Inodes.Fd) (f₀ f₁ : FileNr) (c : Cpu D) :
    (∃ r c', Inodes.pipeInode V.toServices fd₀ fd₁ f₀ f₁ c = .ok (.ok r, c')) ↔
      ∃ k T, Inodes.getPipeInode V.toServices c.table = .ok (some k, T) := by
  obtain ⟨c₁, h₁, ht₁⟩ : ∃ c₁ : Cpu D, Inodes.setFilp fd₀ (some f₀) c = .ok ((), c₁) ∧
      c₁.table = c.table := ⟨_, rfl, rfl⟩
  obtain ⟨c₂, h₂, ht₂⟩ : ∃ c₂ : Cpu D, Inodes.setFilp fd₁ (some f₁) c₁ = .ok ((), c₂) ∧
      c₂.table = c₁.table := ⟨_, rfl, rfl⟩
  have hbind {α β : Type} {m : Inodes.C D α} {f : α → Inodes.C D β} {a : α} {c c' : Cpu D}
      (h : m c = .ok (a, c')) : (m >>= f) c = f a c' := by
    change (m c).bind _ = _
    rw [h]
    rfl
  rw [Inodes.pipeInode, hbind h₁, hbind h₂]
  constructor
  · rintro ⟨r, c', h⟩
    obtain ⟨⟨a, c₃⟩, ha, h⟩ := bind_eq_ok.mp h
    rw [Inodes.onTable, ht₂, ht₁] at ha
    rcases hg : Inodes.getPipeInode V.toServices c.table with e | ⟨_ | k, T⟩ <;> rw [hg] at ha
    · cases ha
    · cases ha
      cases h
    · exact ⟨k, T, rfl⟩
  · rintro ⟨k, T, hg⟩
    refine ⟨0, _, bind_eq_ok.mpr ⟨(some k, { c₂ with table := T }), ?_, rfl⟩⟩
    rw [Inodes.onTable, ht₂, ht₁, hg]

/-- `sys_pipe` succeeds exactly if it has all it needs. -/
theorem pipeOk_iff (s : Machine D) : s.PipeOk V ↔ s.PipeReady V := by
  have hget {α : Type} (f : Cpu D → Inodes.C D α) (c : Cpu D) : (get >>= f) c = f c c := rfl
  rw [Machine.PipeOk, Machine.PipeReady, Inodes.sysPipe, hget]
  rcases (List.finRange 64).filter fun f => (s.cpu.file f).count = 0 with _ | ⟨f₀, _ | ⟨f₁, fs⟩⟩
  · refine ⟨?_, fun h => absurd h.1 (by simp)⟩
    rintro ⟨r, c, hc⟩
    cases hc
  · refine ⟨?_, fun h => absurd h.1 (by simp)⟩
    rintro ⟨r, c, hc⟩
    cases hc
  rcases (List.finRange 20).filter fun fd => s.cpu.current.filp fd = none with
    _ | ⟨fd₀, _ | ⟨fd₁, fds⟩⟩
  · refine ⟨?_, fun h => absurd h.2.1 (by simp)⟩
    rintro ⟨r, c, hc⟩
    cases hc
  · refine ⟨?_, fun h => absurd h.2.1 (by simp)⟩
    rintro ⟨r, c, hc⟩
    cases hc
  · refine (pipeInode_ok_iff V fd₀ fd₁ f₀ f₁ _).trans ⟨fun h => ⟨?_, ?_, h⟩, fun h => h.2.2⟩ <;>
      exact Nat.le_add_left 2 _

/-- The stores of a `sys_pipe` that succeeds have not been verified. -/
theorem checked_sysPipe (fildes : ℕ) (s : Machine D) :
    Checked ((sysPipe V fildes).trace s []) ↔ ¬ s.PipeReady V := by
  rw [← pipeOk_iff, Machine.PipeOk]
  unfold sysPipe
  rw [trace_bind]
  have hcpu : (onCpu (Inodes.sysPipe V.toServices) : U D _) (s, []) =
      match Inodes.sysPipe V.toServices s.cpu with
      | .ok (r, c) => (.ok r, { s with cpu := c }, [])
      | .error e => (.error e, s, []) := by
    unfold onCpu kernel
    dsimp only
    cases Inodes.sysPipe V.toServices s.cpu <;> rfl
  rw [hcpu]
  rcases Inodes.sysPipe V.toServices s.cpu with e | ⟨e | r, c⟩
  · refine ⟨fun _ hok => ?_, fun _ => trivial⟩
    obtain ⟨_, _, hok⟩ := hok
    cases hok
  · refine ⟨fun _ hok => ?_, fun _ => trivial⟩
    obtain ⟨_, _, hok⟩ := hok
    cases hok
  · -- The first store is not preceded by anything.
    refine ⟨fun h => ?_, fun h => absurd ⟨r, c, rfl⟩ h⟩
    have hput : StoresIn univ (outside (V.fault fildes) >>= fun _ =>
        putFsLong V (fildes + 4) >>= fun _ => (pure 0 : U D ℤ)) :=
      (storesIn_outside _).bind fun _ => (storesIn_putFsLong V (subset_univ _)).bind fun _ =>
        .pure _
    obtain ⟨new, hnew, -⟩ := hput { s with cpu := c } [.put fildes 4]
    have hfirst : Checked (new ++ [.put fildes 4]) := by
      rw [← hnew]
      exact h
    obtain ⟨a, n, ha, -⟩ := hfirst.of_append.1
        (show fildes ∈ Set.Ico fildes (fildes + 4) from ⟨le_rfl, by omega⟩)
    cases ha

/-- Which ranges a call verifies. -/
theorem ranges_code (call : Call) (turns : ℕ) (s : Machine D) :
    Ranges call.Range ((call.code V turns).trace s []) := by
  by_cases hcall : ∃ fildes, call = .pipe fildes
  · obtain ⟨fildes, rfl⟩ := hcall
    have hpipe : StoresIn univ (sysPipe V fildes) := (StoresIn.kernel _).bind fun r => by
      cases r with
      | error e => exact .pure _
      | ok r => exact (storesIn_putFsLong V (subset_univ _)).bind fun _ =>
          (storesIn_putFsLong V (subset_univ _)).bind fun _ => .pure _
    obtain ⟨new, hnew, hput⟩ := hpipe s []
    intro a n hmem
    change _ ∈ (sysPipe V fildes).trace s [] at hmem
    rw [hnew, List.append_nil] at hmem
    obtain ⟨_, _, hverify, -⟩ := hput _ hmem
    cases hverify
  · exact (checks_code V (fun fildes h => hcall ⟨fildes, h⟩) turns s []
      ⟨trivial, fun _ _ h => nomatch h⟩).2

/-- A call stores only to addresses in ranges that it has passed to `verify_area` before, if and
only if it is not a `sys_pipe` that has all it needs. -/
theorem checked_iff (call : Call) (turns : ℕ) (s : Machine D) :
    Checked ((call.code V turns).trace s []) ↔
      ¬ ∃ fildes, call = .pipe fildes ∧ s.PipeReady V := by
  by_cases hcall : ∃ fildes, call = .pipe fildes
  · obtain ⟨fildes, rfl⟩ := hcall
    refine (checked_sysPipe V fildes s).trans (not_congr ⟨fun h => ⟨fildes, rfl, h⟩, ?_⟩)
    rintro ⟨_, -, h⟩
    exact h
  · refine ⟨fun _ ⟨fildes, h, _⟩ => hcall ⟨fildes, h⟩, fun _ => ?_⟩
    exact (checks_code V (fun fildes h => hcall ⟨fildes, h⟩) turns s [] ⟨trivial, fun _ _ h =>
      nomatch h⟩).1

/-- An environment in which nothing happens besides the call. -/
def quietEnv : Env Inodes.Outer where
  toServices := Inodes.mounted Inodes.smallDevice 769
  bmap _ _ := pure 0
  writeVerify _ _ := pure ()
  fault _ := pure ()
  otherIoctl _ _ _ := pure 0
  others := id

/-- A kernel with one process, which has nothing open. -/
def quietMachine : Machine Inodes.Outer where
  cpu := ⟨Inodes.bareKernel.table, Inodes.bareKernel.file, Inodes.bareTask, fun _ => 0, none, none⟩
  tty _ := ⟨true, 0, 1, 4, ⟨0, 0, 0, fun _ => 0, [], [], false, false⟩⟩
  task _ := none
  self := 1
  signal := 0
  alarm := 0
  jiffies := 0
  startupTime := 0

theorem quietMachine_pipeReady : quietMachine.PipeReady quietEnv := by
  have hinode : ((Inodes.getPipeInode quietEnv.toServices quietMachine.cpu.table).toOption.any
      fun r => r.1.isSome) = true := by
    decide +kernel
  refine ⟨by decide, by decide, ?_⟩
  rcases hg : Inodes.getPipeInode quietEnv.toServices quietMachine.cpu.table with
    e | ⟨_ | k, T⟩ <;> rw [hg] at hinode
  · cases hinode
  · cases hinode
  · exact ⟨k, T, rfl⟩

end Linux001.UserMemory
