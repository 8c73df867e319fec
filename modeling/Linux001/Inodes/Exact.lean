import Linux001.Inodes.Calls
import Linux001.Inodes.OnDisk
import Linux001.Inodes.References
import Linux001.Lib.Counting
import Mathlib.Algebra.BigOperators.Fin
import Mathlib.Algebra.BigOperators.Pi

/-!
# Reference counts of inodes are exact

The ledger of the whole kernel: what the counters of the file table and of the inode table say, less
what refers to them. Every complete call keeps it, and after `mount_root` it is zero.

## Main definitions

* `Cpu.due`, `Kernel.due`: counters less references, for every file and every slot.

## Main results

* `keeps_code`: the calls of one process keep the balance.
* `Kernel.due_perform`: every complete call does.
* `counts_exact`: `i_count` is the number of references to the slot.
-/

namespace Linux001.Inodes

variable {D : Type}

/-! ### The balance -/

/-- The slot that an entry of the file table refers to. -/
def File.link (v : File) : Slot → ℤ := if v.count = 0 then 0 else ref v.inode

/-- The files that a process refers to. -/
def Task.uses (c : Task) : FileNr → ℤ := ∑ fd, ref (c.filp fd)

/-- The slots that a process refers to. -/
def Task.pins (c : Task) : Slot → ℤ := ref c.pwd + ref c.root

/-- The counters of files and slots. -/
abbrev Balance := (FileNr → ℤ) × (Slot → ℤ)

namespace Cpu

variable (s : Cpu D)

/-- The counters `f_count` of all files. -/
def fileCounts : FileNr → ℤ := fun f => (s.file f).count

/-- The counters less the references of the tables and of the running process. -/
def due : Balance :=
  (s.fileCounts - s.current.uses,
    counts s.table - ∑ f, (s.file f).link - (ref s.isup + ref s.imount) - s.current.pins)

theorem due_table (T : Table D) :
    due { s with table := T } = s.due + (0, counts T - counts s.table) := by
  refine Prod.ext (add_zero _).symm ?_
  simp only [due, Prod.snd_add]
  abel

theorem due_current (c : Task) :
    due { s with current := c } =
      s.due + (s.current.uses - c.uses, s.current.pins - c.pins) := by
  refine Prod.ext ?_ ?_
  · exact (sub_add_sub_cancel _ _ _).symm
  · simp only [due, Prod.snd_add]
    abel

/-- A task that refers to the same files and slots. -/
theorem due_sameRefs {c : Task} (huses : c.uses = s.current.uses)
    (hpins : c.pins = s.current.pins) : due { s with current := c } = s.due := by
  rw [due_current, huses, hpins, sub_self, sub_self]
  exact add_zero _

theorem due_file (f : FileNr) (v : File) :
    due { s with file := Function.update s.file f v } = s.due +
      (Pi.single f ((v.count : ℤ) - (s.file f).count), (s.file f).link - v.link) := by
  refine Prod.ext ?_ ?_
  · funext g
    by_cases h : g = f
    · subst h
      simp [due, fileCounts]
    · simp [due, fileCounts, Function.update_of_ne h, Pi.single_eq_of_ne h]
  · simp only [due, Prod.snd_add, sum_update_sub]
    abel

end Cpu

/-- Storing to a descriptor changes what the process refers to. -/
theorem Task.uses_update (c : Task) (fd : Fd) (x : Option FileNr) (c' : Task)
    (h : c'.filp = Function.update c.filp fd x) :
    c'.uses = c.uses + (ref x - ref (c.filp fd)) := by
  unfold Task.uses
  rw [h]
  exact sum_update_sub c.filp ref fd x

/-! ### Calls of one process -/

section Calls

/-- Code on the inode table leaves the rest alone. -/
theorem ensures_onTable {α : Type} {m : M D α} {δ : α → Slot → ℤ} (h : Charges counts m δ)
    (s : Cpu D) : Ensures (onTable m) s fun a s' =>
      ∃ T, s' = { s with table := T } ∧ counts T = counts s.table + δ a := by
  intro a s' hm
  unfold onTable at hm
  split at hm
  next hT =>
    obtain ⟨rfl, rfl⟩ := Prod.mk.inj (Except.ok.inj hm)
    exact ⟨_, rfl, h _ _ _ hT⟩
  · cases hm

theorem charges_onTable {α : Type} {m : M D α} {δ : α → Slot → ℤ} (h : Charges counts m δ) :
    Charges Cpu.due (onTable m) fun a => (0, δ a) := by
  intro s
  refine (ensures_onTable h s).mono ?_
  rintro a _ ⟨T, rfl, hT⟩
  rw [Cpu.due_table, hT, add_sub_cancel_left]

theorem keeps_onTable {α : Type} {m : M D α} (h : Charges counts m fun _ => 0) :
    Charges Cpu.due (onTable m) fun _ => 0 :=
  charges_onTable h

/-- A store to the task that keeps its references. -/
theorem keeps_setCurrent {f : Task → Task} (huses : ∀ c, (f c).uses = c.uses)
    (hpins : ∀ c, (f c).pins = c.pins) :
    Charges (Cpu.due : Cpu D → Balance) (setCurrent f) fun _ => 0 :=
  .update fun s => s.due_sameRefs (huses s.current) (hpins s.current)

variable (V : Services D)

theorem charges_withInode (current : Task) (filename : List UInt8)
    {body : Slot → M D (Result ℕ)} (h : ∀ k, Charges counts (body k) fun _ => 0) :
    Charges counts (withInode V current filename body) fun _ => 0 := by
  refine (charges_namei V current filename).bind fun r => ?_
  rcases r with - | k
  · exact .pure (sub_self _)
  · exact (h k).seq fun _ => (charges_iput V k).bind fun _ => .pure (by simp)

theorem charges_sysAccess (current : Task) (filename : List UInt8) (mode : UInt16) :
    Charges counts (sysAccess V current filename mode) fun _ => 0 := by
  refine (charges_namei V current filename).bind fun r => ?_
  rcases r with - | k
  · exact .pure (sub_self _)
  refine .get_bind fun s => (charges_iput V k).bind fun _ => .get_bind fun s => ?_
  exact .ite (fun _ => .pure (by simp)) fun _ => .pure (by simp)

theorem charges_sysChmod (current : Task) (filename : List UInt8) (mode : UInt16) :
    Charges counts (sysChmod V current filename mode) fun _ => 0 := by
  refine charges_withInode V current filename fun k => .get_bind fun s => ?_
  refine .ite (fun _ => .pure rfl) fun _ => (charges_edit k _).seq fun _ => ?_
  exact (charges_setDirt k true).seq fun _ => .pure rfl

theorem charges_sysChown (current : Task) (filename : List UInt8) (uid gid : ℕ) :
    Charges counts (sysChown V current filename uid gid) fun _ => 0 := by
  refine charges_withInode V current filename fun k => .ite (fun _ => .pure rfl) fun _ => ?_
  exact (charges_edit k _).seq fun _ => (charges_setDirt k true).seq fun _ => .pure rfl

theorem charges_directory (current : Task) (filename : List UInt8) :
    Charges counts (directory V current filename) resultRef := by
  refine (charges_namei V current filename).bind fun r => ?_
  rcases r with - | k
  · exact .pure (sub_self _)
  refine .get_bind fun s => .ite (fun _ => ?_) fun _ => .pure (sub_self _)
  exact charges_iput_error V k _ (by simp)

theorem keeps_byCurrent {m : Task → M D (Result ℕ)}
    (h : ∀ c, Charges counts (m c) fun _ => 0) :
    Charges Cpu.due (byCurrent m) fun _ => 0 :=
  .get_bind fun s => keeps_onTable (h s.current)

/-- The end of `sys_chdir` and `sys_chroot`: a pointer of the task is given back and replaced. -/
theorem keeps_exchange (s : Cpu D) (old : Option Slot) (k : Slot) (f : Task → Task)
    (huses : (f s.current).uses = s.current.uses)
    (hpins : (f s.current).pins = s.current.pins - ref old + ref (some k)) :
    Ensures (onTable (iput V old) >>= fun _ => setCurrent f >>= fun _ =>
      (pure (.ok 0) : C D (Result ℕ))) s fun _ s' => s'.due + (0, ref (some k)) = s.due := by
  refine (ensures_onTable (charges_iput V old) s).bind ?_
  rintro - _ ⟨T, rfl, hT⟩
  refine ensures_modify_bind.mpr (ensures_pure.mpr ?_)
  rw [Cpu.due_current, Cpu.due_table, hT]
  dsimp only
  rw [huses, hpins, sub_self]
  refine Prod.ext ?_ ?_
  · simp
  · simp only [Prod.snd_add]
    abel

theorem keeps_sysChdir (filename : List UInt8) :
    Charges Cpu.due (sysChdir V filename) fun _ => 0 := by
  refine fun s => ensures_get_bind.mpr ?_
  refine (ensures_onTable (charges_directory V s.current filename) s).bind ?_
  rintro (e | k) _ ⟨T, rfl, hT⟩
  · refine ensures_pure.mpr ?_
    rw [Cpu.due_table, hT, resultRef_error, add_zero, sub_self]
    rfl
  refine (keeps_exchange V _ _ k _ rfl ?_).mono fun _ s' h => ?_
  · simp only [Task.pins]
    abel
  refine add_right_cancel (h.trans ?_)
  rw [Cpu.due_table, hT, add_sub_cancel_left, add_zero, resultRef_ok]

theorem keeps_sysChroot (filename : List UInt8) :
    Charges Cpu.due (sysChroot V filename) fun _ => 0 := by
  refine fun s => ensures_get_bind.mpr ?_
  refine (ensures_onTable (charges_directory V s.current filename) s).bind ?_
  rintro (e | k) _ ⟨T, rfl, hT⟩
  · refine ensures_pure.mpr ?_
    rw [Cpu.due_table, hT, resultRef_error, add_zero, sub_self]
    rfl
  refine (keeps_exchange V _ _ k _ rfl ?_).mono fun _ s' h => ?_
  · simp only [Task.pins]
    abel
  refine add_right_cancel (h.trans ?_)
  rw [Cpu.due_table, hT, add_sub_cancel_left, add_zero, resultRef_ok]

/-! ### Files -/

/-- `current->filp[fd] = f` changes the balance by what `fd` refers to. -/
theorem ensures_setFilp (fd : Fd) (x : Option FileNr) (s : Cpu D) :
    Ensures (setFilp fd x) s fun _ s' =>
      s'.due = s.due + (ref (s.current.filp fd) - ref x, 0) ∧ s'.file = s.file ∧
      s'.current.filp = Function.update s.current.filp fd x := by
  refine ensures_modify.mpr ⟨?_, rfl, rfl⟩
  have huses := Task.uses_update s.current fd x
    { s.current with filp := Function.update s.current.filp fd x } rfl
  rw [Cpu.due_current, huses]
  refine congrArg (s.due + ·) (Prod.ext ?_ (sub_self _))
  dsimp only
  abel

theorem ensures_setFile (f : FileNr) (g : File → File) (s : Cpu D) :
    Ensures (setFile f g) s fun _ s' =>
      s'.due = s.due + (Pi.single f (((g (s.file f)).count : ℤ) - (s.file f).count),
        (s.file f).link - (g (s.file f)).link) ∧
      s'.file = Function.update s.file f (g (s.file f)) ∧ s'.current = s.current :=
  ensures_modify.mpr ⟨Cpu.due_file _ _ _, rfl, rfl⟩

theorem ensures_setCloseOnExec (fd : Fd) (b : Bool) (s : Cpu D) :
    Ensures (setCloseOnExec fd b) s fun _ s' =>
      s'.due = s.due ∧ s'.file = s.file ∧ s'.current.filp = s.current.filp :=
  ensures_modify.mpr ⟨s.due_sameRefs rfl rfl, rfl, rfl⟩

/-- Code on the inode table leaves files and tasks alone. -/
theorem ensures_due_onTable {α : Type} {m : M D α} {δ : α → Slot → ℤ} (h : Charges counts m δ)
    (s : Cpu D) : Ensures (onTable m) s fun a s' =>
      s'.due = s.due + (0, δ a) ∧ s'.file = s.file ∧ s'.current = s.current := by
  refine (ensures_onTable h s).mono ?_
  rintro a _ ⟨T, rfl, hT⟩
  refine ⟨?_, rfl, rfl⟩
  rw [Cpu.due_table, hT, add_sub_cancel_left]

theorem File.link_of_count_zero {v : File} (h : v.count = 0) : v.link = 0 := if_pos h

theorem File.link_of_count_ne {v : File} (h : v.count ≠ 0) : v.link = ref v.inode := if_neg h

/-- A process drops a reference to a file. What the file refers to is due if it was the last. -/
theorem due_dropFile {s : Cpu D} {fd : Fd} {f : FileNr} (hfd : s.current.filp fd = some f)
    (hcount : (s.file f).count ≠ 0) {c : Task}
    (hc : c.filp = Function.update s.current.filp fd none) (hpins : c.pins = s.current.pins) :
    Cpu.due { s with
      current := c
      file := Function.update s.file f { s.file f with count := (s.file f).count - 1 } } =
      s.due + (0, if (s.file f).count - 1 ≠ 0 then 0 else ref (s.file f).inode) := by
  have hfile := Cpu.due_file { s with current := c } f
    { s.file f with count := (s.file f).count - 1 }
  have huses : s.current.uses - c.uses = Pi.single f 1 := by
    rw [Task.uses_update s.current fd none c hc, hfd, ref_none, zero_sub, ← sub_eq_add_neg,
      sub_sub_cancel]
    rfl
  have hone : (((s.file f).count - 1 : ℕ) : ℤ) - (s.file f).count = -1 := by omega
  refine hfile.trans ?_
  dsimp only
  rw [Cpu.due_current, huses, hpins, sub_self, hone, add_assoc]
  refine congrArg (s.due + ·) (Prod.ext ?_ ?_)
  · rw [Prod.fst_add, Pi.single_neg]
    exact add_neg_cancel (Pi.single f 1 : FileNr → ℤ)
  · rw [Prod.snd_add, zero_add, File.link_of_count_ne hcount]
    split_ifs with hlast
    · rw [File.link_of_count_ne hlast, sub_self]
    · rw [File.link_of_count_zero (not_not.mp hlast), sub_zero]

/-- `sys_close` keeps the balance, and the descriptor is free afterwards. -/
theorem ensures_closeFd (fd : Fd) (s : Cpu D) :
    Ensures (closeFd V fd) s fun _ s' => s'.due = s.due ∧
      s'.current.filp = Function.update s.current.filp fd none ∧
      s'.current.pwd = s.current.pwd ∧ s'.current.root = s.current.root := by
  unfold closeFd
  refine ensures_get_bind.mpr (ensures_modify_bind.mpr ?_)
  split
  next hfd =>
    refine ensures_pure.mpr ⟨?_, ?_, rfl, rfl⟩
    · exact s.due_sameRefs rfl rfl
    · exact (Function.update_eq_self_iff.mpr hfd.symm).symm
  next f hfd =>
    refine ensures_modify_bind.mpr (ensures_ite (fun _ => ensures_throw) fun hcount => ?_)
    have hdrop := due_dropFile hfd hcount (c := { s.current with
      closeOnExec := Function.update s.current.closeOnExec fd false
      filp := Function.update s.current.filp fd none }) rfl rfl
    refine ensures_modify_bind.mpr (ensures_ite (fun hlast => ?_) fun hlast => ?_)
    · refine ensures_pure.mpr ⟨hdrop.trans ?_, rfl, rfl, rfl⟩
      rw [if_pos hlast]
      exact add_zero _
    · refine (ensures_onTable (charges_iput V (s.file f).inode) _).bind ?_
      rintro - _ ⟨T, rfl, hT⟩
      refine ensures_pure.mpr ⟨?_, rfl, rfl, rfl⟩
      rw [if_neg hlast] at hdrop
      refine (Cpu.due_table _ T).trans ?_
      rw [hT, add_sub_cancel_left]
      refine (congrArg (· + _) hdrop).trans (Prod.ext ?_ ?_)
      · simp
      · simp

theorem keeps_closeFd (fd : Fd) : Charges Cpu.due (closeFd V fd) fun _ => 0 :=
  fun s => (ensures_closeFd V fd s).mono fun _ _ h => h.1.trans (add_zero _).symm

theorem keeps_sysClose (fd : ℕ) : Charges Cpu.due (sysClose V fd) fun _ => 0 := by
  unfold sysClose
  split
  · exact keeps_closeFd V _
  · exact .pure rfl

/-- The files have at least the references of the running process. -/
def Cpu.Covered (s : Cpu D) : Prop := ∀ f, 0 ≤ s.due.1 f

theorem ref_nonneg {α : Type} [DecidableEq α] (x : Option α) (a : α) : 0 ≤ ref x a := by
  rcases x with - | b
  · exact le_rfl
  · by_cases h : a = b
    · subst h
      simp [ref]
    · simp [ref, Pi.single_eq_of_ne h]

theorem Task.uses_nonneg (c : Task) (f : FileNr) : 0 ≤ c.uses f := by
  rw [Task.uses, Finset.sum_apply]
  exact Finset.sum_nonneg fun fd _ => ref_nonneg _ _

/-- A file that the process refers to is in use. -/
theorem Cpu.Covered.count_ne {s : Cpu D} (h : s.Covered) {fd : Fd} {f : FileNr}
    (hfd : s.current.filp fd = some f) : (s.file f).count ≠ 0 := by
  have hone : (1 : ℤ) ≤ s.current.uses f := by
    rw [Task.uses, Finset.sum_apply]
    have hle := Finset.single_le_sum (f := fun fd => ref (s.current.filp fd) f)
      (fun fd _ => ref_nonneg _ _) (Finset.mem_univ fd)
    refine le_trans ?_ hle
    rw [hfd]
    simp [ref]
  have hdue : 0 ≤ ((s.file f).count : ℤ) - s.current.uses f := h f
  omega

/-- One more reference to a file in use. -/
theorem ensures_incFile {s : Cpu D} {f : FileNr} (h : (s.file f).count ≠ 0) :
    Ensures (incFile f) s fun _ s' => s'.due = s.due + (ref (some f), 0) ∧
      s'.file = Function.update s.file f { s.file f with count := (s.file f).count + 1 } ∧
      s'.current = s.current := by
  refine (ensures_setFile f _ s).mono fun _ s' hs' => ⟨hs'.1.trans ?_, hs'.2⟩
  refine congrArg (s.due + ·) (Prod.ext ?_ ?_)
  · dsimp only
    rw [Nat.cast_succ, add_sub_cancel_left]
    rfl
  · dsimp only
    rw [File.link_of_count_ne h, File.link_of_count_ne (Nat.succ_ne_zero _)]
    exact sub_self _

/-- `dupfd` keeps the balance. -/
theorem ensures_dupfd {s : Cpu D} (h : s.Covered) (fd arg : ℕ) :
    Ensures (dupfd fd arg) s fun _ s' => s'.due = s.due := by
  unfold dupfd
  refine ensures_get_bind.mpr ?_
  split
  · exact ensures_pure.mpr rfl
  next f hf =>
    refine ensures_ite (fun _ => ensures_pure.mpr rfl) fun _ => ?_
    split
    · exact ensures_pure.mpr rfl
    next i hi =>
      have hfree : s.current.filp i = none := by
        have hi := List.find?_some hi
        rw [decide_eq_true_iff] at hi
        exact hi.2
      have hcount : (s.file f).count ≠ 0 := by
        unfold Task.filpAt at hf
        split_ifs at hf
        exact h.count_ne hf
      refine (ensures_setCloseOnExec i false s).bind fun _ s₁ ⟨hd₁, hf₁, hc₁⟩ => ?_
      refine (ensures_setFilp i (some f) s₁).bind fun _ s₂ ⟨hd₂, hf₂, _⟩ => ?_
      rw [← hf₁, ← hf₂] at hcount
      refine (ensures_incFile hcount).bind fun _ s₃ ⟨hd₃, _⟩ => ensures_pure.mpr ?_
      rw [hd₃, hd₂, hd₁, hc₁, hfree]
      exact Prod.ext (by simp) (by simp)

/-- `dup2` keeps the balance. -/
theorem ensures_sysDup2 {s : Cpu D} (h : s.Covered) (oldfd newfd : ℕ) :
    Ensures (sysDup2 V oldfd newfd) s fun _ s' => s'.due = s.due := by
  refine (keeps_sysClose V newfd s).bind fun _ s₁ h₁ => ?_
  rw [add_zero] at h₁
  have hs₁ : s₁.Covered := fun f => by
    rw [h₁]
    exact h f
  exact (ensures_dupfd hs₁ oldfd newfd).mono fun _ _ h₂ => h₂.trans h₁

/-- `sys_fcntl` keeps the balance. -/
theorem ensures_sysFcntl {s : Cpu D} (h : s.Covered) (fd : ℕ) (cmd : Cmd) (arg : ℕ) :
    Ensures (sysFcntl fd cmd arg) s fun _ s' => s'.due = s.due := by
  unfold sysFcntl
  refine ensures_get_bind.mpr ?_
  split
  swap
  · exact ensures_pure.mpr rfl
  split
  · exact ensures_pure.mpr rfl
  next f _ =>
    cases cmd with
    | dupfd => exact ensures_dupfd h fd arg
    | setfd =>
      refine (ensures_setCloseOnExec _ _ s).bind fun _ s₁ h₁ => ensures_pure.mpr h₁.1
    | setfl =>
      refine (ensures_setFile f _ s).bind fun _ s₁ h₁ => ensures_pure.mpr (h₁.1.trans ?_)
      dsimp only
      rw [sub_self, Pi.single_zero, File.link, File.link, sub_self]
      exact add_zero _
    | getfd | getfl | other => exact ensures_pure.mpr rfl

/-- A free entry of the file table is taken; it may point to a slot still. -/
theorem ensures_incFile_free {s : Cpu D} {f : FileNr} (h : (s.file f).count = 0) :
    Ensures (incFile f) s fun _ s' => s'.due = s.due + (ref (some f), -ref (s.file f).inode) ∧
      s'.file = Function.update s.file f { s.file f with count := (s.file f).count + 1 } ∧
      s'.current = s.current := by
  refine (ensures_setFile f _ s).mono fun _ s' hs' => ⟨hs'.1.trans ?_, hs'.2⟩
  dsimp only
  rw [Nat.cast_succ, add_sub_cancel_left, File.link_of_count_zero h,
    File.link_of_count_ne (Nat.succ_ne_zero _), zero_sub]
  rfl

/-- An entry of the file table with one reference is given back. -/
theorem ensures_clearFile {s : Cpu D} {f : FileNr} (hone : (s.file f).count = 1) :
    Ensures (clearFile f) s fun _ s' => s'.due = s.due + (-ref (some f), ref (s.file f).inode) ∧
      s'.file = Function.update s.file f { s.file f with count := 0 } ∧
      s'.current = s.current := by
  refine (ensures_setFile f _ s).mono fun _ s' hs' => ⟨hs'.1.trans ?_, hs'.2⟩
  have hnew : File.link { s.file f with count := 0 } = 0 := if_pos rfl
  rw [hone, hnew, File.link_of_count_ne (by omega), sub_zero, Nat.cast_zero, Nat.cast_one, zero_sub,
    Pi.single_neg]
  rfl

/-- An entry of the file table with one reference gets another slot. -/
theorem ensures_fillFile {s : Cpu D} {f : FileNr} (hone : (s.file f).count = 1)
    {g : File → File} (hg : (g (s.file f)).count = 1) :
    Ensures (setFile f g) s fun _ s' =>
      s'.due = s.due + (0, ref (s.file f).inode - ref (g (s.file f)).inode) ∧
      s'.file = Function.update s.file f (g (s.file f)) ∧ s'.current = s.current := by
  refine (ensures_setFile f g s).mono fun _ s' hs' => ⟨hs'.1.trans ?_, hs'.2⟩
  rw [hone, hg, sub_self, Pi.single_zero, File.link_of_count_ne (by omega),
    File.link_of_count_ne (by omega)]

/-- The error returns of `sys_open` give back the entry of the file table. -/
theorem ensures_openFail {s : Cpu D} {fd : Fd} {f : FileNr} (hfd : s.current.filp fd = some f)
    (hone : (s.file f).count = 1) (e : Errno) :
    Ensures (openFail fd f e) s fun _ s' => s'.due = s.due + (0, ref (s.file f).inode) := by
  refine (ensures_setFilp fd none s).bind fun _ s₁ ⟨hd₁, hf₁, _⟩ => ?_
  rw [← hf₁] at hone
  refine (ensures_clearFile hone).bind fun _ s₂ ⟨hd₂, _⟩ => ensures_pure.mpr ?_
  rw [hd₂, hd₁, hf₁, hfd]
  exact Prod.ext (by simp) (by simp)

theorem ensures_openTty (k : Slot) (s : Cpu D) :
    Ensures (openTty k) s fun _ s' =>
      s'.due = s.due ∧ s'.file = s.file ∧ s'.current.filp = s.current.filp := by
  unfold openTty
  refine ensures_get_bind.mpr (ensures_ite (fun _ => ensures_pure.mpr ⟨rfl, rfl, rfl⟩) fun _ => ?_)
  refine ensures_ite (fun _ => ?_) fun _ => ensures_ite (fun _ => ?_) fun _ => ?_
  · refine ensures_ite (fun _ => ?_) fun _ => ensures_pure.mpr ⟨rfl, rfl, rfl⟩
    refine ensures_modify_bind.mpr (ensures_pure.mpr ⟨?_, rfl, rfl⟩)
    exact s.due_sameRefs rfl rfl
  · exact ensures_pure.mpr ⟨rfl, rfl, rfl⟩
  · exact ensures_pure.mpr ⟨rfl, rfl, rfl⟩

/-- The end of `sys_open` uses up the reference that `open_namei` has returned. -/
theorem ensures_openFile {s : Cpu D} {fd : Fd} {f : FileNr} (hfd : s.current.filp fd = some f)
    (hone : (s.file f).count = 1) (flag : UInt16) (k : Slot) :
    Ensures (openFile V fd f flag k) s fun _ s' =>
      s'.due + (0, ref (some k)) = s.due + (0, ref (s.file f).inode) := by
  refine (ensures_openTty k s).bind ?_
  rintro go s₁ ⟨hd₁, hf₁, hc₁⟩
  refine ensures_ite (fun _ => ?_) fun _ => ensures_get_bind.mpr ?_
  · refine (ensures_due_onTable (charges_iput V (some k)) s₁).bind ?_
    rintro _ s₂ ⟨hd₂, hf₂, hc₂⟩
    rw [← hc₁, ← hc₂] at hfd
    rw [← hf₁, ← hf₂] at hone
    refine (ensures_openFail hfd hone _).mono fun _ s₃ h₃ => ?_
    rw [h₃, hd₂, hd₁, hf₂, hf₁]
    refine Prod.ext (by simp) ?_
    simp only [Prod.snd_add]
    abel
  · rw [← hf₁] at hone
    refine (ensures_fillFile hone rfl).bind ?_
    rintro _ s₂ ⟨hd₂, _, _⟩
    refine ensures_pure.mpr ?_
    rw [hd₂, hd₁, hf₁]
    refine Prod.ext (by simp) ?_
    simp only [Prod.snd_add]
    abel

/-- `sys_open` keeps the balance. -/
theorem keeps_sysOpen (filename : List UInt8) (flag mode : UInt16) :
    Charges Cpu.due (sysOpen V filename flag mode) fun _ => 0 := by
  intro s
  suffices h : Ensures (sysOpen V filename flag mode) s fun _ s' => s'.due = s.due from
    h.mono fun _ _ h => h.trans (add_zero _).symm
  unfold sysOpen
  refine ensures_get_bind.mpr ?_
  split
  · exact ensures_pure.mpr rfl
  next fd hfd =>
    have hfree : s.current.filp fd = none := by simpa using List.find?_some hfd
    refine (ensures_setCloseOnExec fd false s).bind fun _ s₁ ⟨hd₁, hf₁, hc₁⟩ => ?_
    split
    · exact ensures_pure.mpr hd₁
    next f hf =>
      have hzero : (s.file f).count = 0 := by simpa using List.find?_some hf
      refine (ensures_setFilp fd (some f) s₁).bind fun _ s₂ ⟨hd₂, hf₂, hc₂⟩ => ?_
      have hzero₂ : (s₂.file f).count = 0 := by rw [hf₂, hf₁, hzero]
      refine (ensures_incFile_free hzero₂).bind fun _ s₃ ⟨hd₃, hf₃, hc₃⟩ => ?_
      have hone : (s₃.file f).count = 1 := by
        rw [hf₃, Function.update_self, hf₂, hf₁, hzero]
      have hinode : (s₃.file f).inode = (s.file f).inode := by
        rw [hf₃, Function.update_self, hf₂, hf₁]
      have hfilp : s₃.current.filp fd = some f := by
        rw [hc₃, hc₂, Function.update_self]
      have hdue : s₃.due + (0, ref (s₃.file f).inode) = s.due := by
        rw [hd₃, hd₂, hd₁, hc₁, hfree, hinode, hf₂, hf₁]
        exact Prod.ext (by simp) (by simp)
      refine (ensures_due_onTable (charges_openNamei V s.current filename flag _) s₃).bind ?_
      rintro (e | k) s₄ ⟨hd₄, hf₄, hc₄⟩
      · rw [← hc₄] at hfilp
        rw [← hf₄] at hone
        refine (ensures_openFail hfilp hone e).mono fun _ s₅ h₅ => ?_
        rw [h₅, hd₄, hf₄, ← hdue]
        exact Prod.ext (by simp) (by simp)
      · rw [← hc₄] at hfilp
        rw [← hf₄] at hone
        refine (ensures_openFile V hfilp hone flag k).mono fun _ s₅ h₅ => ?_
        refine add_right_cancel (h₅.trans ?_)
        rw [hd₄, hf₄, ← hdue, resultRef_ok]
        exact add_right_comm _ _ _

/-- The end of `sys_pipe`, with two entries of the file table that have just been taken. -/
theorem ensures_pipeInode {s : Cpu D} {fd₀ fd₁ : Fd} {f₀ f₁ : FileNr} (hfd : fd₀ ≠ fd₁)
    (hf : f₀ ≠ f₁) (h₀ : s.current.filp fd₀ = none) (h₁ : s.current.filp fd₁ = none)
    (hone₀ : (s.file f₀).count = 1) (hone₁ : (s.file f₁).count = 1) :
    Ensures (pipeInode V fd₀ fd₁ f₀ f₁) s fun _ s' =>
      s'.due + (ref (some f₀) + ref (some f₁), 0) =
        s.due + (0, ref (s.file f₀).inode + ref (s.file f₁).inode) := by
  refine (ensures_setFilp fd₀ (some f₀) s).bind ?_
  rintro _ s₁ ⟨hd₁, hf₁, hc₁⟩
  refine (ensures_setFilp fd₁ (some f₁) s₁).bind ?_
  rintro _ s₂ ⟨hd₂, hf₂, hc₂⟩
  refine (ensures_due_onTable (charges_getPipeInode V) s₂).bind ?_
  rintro (- | k) s₃ ⟨hd₃, hf₃, hc₃⟩
  · have hg₀ : s₃.current.filp fd₀ = some f₀ := by
      rw [hc₃, hc₂, Function.update_of_ne hfd, hc₁, Function.update_self]
    have hg₁ : s₃.current.filp fd₁ = some f₁ := by rw [hc₃, hc₂, Function.update_self]
    refine (ensures_setFilp fd₁ none s₃).bind ?_
    rintro _ s₄ ⟨hd₄, hf₄, hc₄⟩
    refine (ensures_setFilp fd₀ none s₄).bind ?_
    rintro _ s₅ ⟨hd₅, hf₅, hc₅⟩
    have hfile : s₅.file = s.file := by rw [hf₅, hf₄, hf₃, hf₂, hf₁]
    rw [← hfile] at hone₀ hone₁
    refine (ensures_clearFile hone₁).bind ?_
    rintro _ s₆ ⟨hd₆, hf₆, hc₆⟩
    have hone₀' : (s₆.file f₀).count = 1 := by rw [hf₆, Function.update_of_ne hf, hone₀]
    have hinode : (s₆.file f₀).inode = (s.file f₀).inode := by
      rw [hf₆, Function.update_of_ne hf, hfile]
    refine (ensures_clearFile hone₀').bind ?_
    rintro _ s₇ ⟨hd₇, _⟩
    refine ensures_pure.mpr ?_
    have hkeep : s₄.current.filp fd₀ = some f₀ := by rw [hc₄, Function.update_of_ne hfd, hg₀]
    rw [hd₇, hinode, hd₆, hfile, hd₅, hkeep, hd₄, hg₁, hd₃, hd₂, hc₁,
      Function.update_of_ne hfd.symm, h₁, hd₁, h₀]
    refine Prod.ext ?_ ?_
    · simp
    · simp only [Prod.snd_add, ref_none]
      abel
  · have hfile : s₃.file = s.file := by rw [hf₃, hf₂, hf₁]
    rw [← hfile] at hone₀ hone₁
    refine (ensures_fillFile hone₁ hone₁).bind ?_
    rintro _ s₄ ⟨hd₄, hf₄, hc₄⟩
    have hone₀' : (s₄.file f₀).count = 1 := by rw [hf₄, Function.update_of_ne hf, hone₀]
    have hinode : (s₄.file f₀).inode = (s.file f₀).inode := by
      rw [hf₄, Function.update_of_ne hf, hfile]
    refine (ensures_fillFile hone₀' hone₀').bind ?_
    rintro _ s₅ ⟨hd₅, _⟩
    refine ensures_pure.mpr ?_
    rw [hd₅, hinode, hd₄, hfile, hd₃, hd₂, hc₁, Function.update_of_ne hfd.symm, h₁, hd₁, h₀]
    refine Prod.ext ?_ ?_
    · simp only [Prod.fst_add, ref_none]
      abel
    · simp only [Prod.snd_add]
      abel

/-- The first two elements of a filtered enumeration. -/
theorem filter_finRange_cons {n : ℕ} {p : Fin n → Bool} {a b : Fin n} {l : List (Fin n)}
    (h : (List.finRange n).filter p = a :: b :: l) : a ≠ b ∧ p a ∧ p b := by
  have hnodup := (List.nodup_finRange n).filter p
  have hmem (x : Fin n) (hx : x ∈ a :: b :: l) : p x := by
    rw [← h] at hx
    exact (List.mem_filter.mp hx).2
  rw [h, List.nodup_cons] at hnodup
  refine ⟨fun hab => hnodup.1 (hab ▸ List.mem_cons_self), hmem a List.mem_cons_self, ?_⟩
  exact hmem b (List.mem_cons_of_mem _ List.mem_cons_self)

/-- `sys_pipe` keeps the balance. -/
theorem keeps_sysPipe : Charges Cpu.due (sysPipe V) fun _ => 0 := by
  intro s
  suffices h : Ensures (sysPipe V) s fun _ s' => s'.due = s.due from
    h.mono fun _ _ h => h.trans (add_zero _).symm
  unfold sysPipe
  refine ensures_get_bind.mpr ?_
  split
  swap
  · exact ensures_pure.mpr rfl
  next f₀ f₁ _ hfiles =>
    obtain ⟨hf, hz₀, hz₁⟩ := filter_finRange_cons hfiles
    rw [decide_eq_true_iff] at hz₀ hz₁
    refine (ensures_incFile_free hz₀).bind ?_
    rintro _ s₁ ⟨hd₁, hf₁, hc₁⟩
    have hz₁' : (s₁.file f₁).count = 0 := by rw [hf₁, Function.update_of_ne hf.symm, hz₁]
    refine (ensures_incFile_free hz₁').bind ?_
    rintro _ s₂ ⟨hd₂, hf₂, hc₂⟩
    have hone₀ : (s₂.file f₀).count = 1 := by
      rw [hf₂, Function.update_of_ne hf, hf₁, Function.update_self, hz₀]
    have hone₁ : (s₂.file f₁).count = 1 := by rw [hf₂, Function.update_self, hz₁']
    have hi₀ : (s₂.file f₀).inode = (s.file f₀).inode := by
      rw [hf₂, Function.update_of_ne hf, hf₁, Function.update_self]
    have hi₁ : (s₂.file f₁).inode = (s₁.file f₁).inode := by rw [hf₂, Function.update_self]
    split
    next fd₀ fd₁ _ hfds =>
      obtain ⟨hfd, hn₀, hn₁⟩ := filter_finRange_cons hfds
      rw [decide_eq_true_iff, ← hc₁, ← hc₂] at hn₀ hn₁
      refine (ensures_pipeInode V hfd hf hn₀ hn₁ hone₀ hone₁).mono fun _ s₃ h₃ => ?_
      refine add_right_cancel (h₃.trans ?_)
      rw [hd₂, hd₁, hi₀, hi₁]
      refine Prod.ext ?_ ?_
      · simp only [Prod.fst_add]
        abel
      · simp only [Prod.snd_add]
        abel
    · refine (ensures_clearFile hone₁).bind ?_
      rintro _ s₃ ⟨hd₃, hf₃, hc₃⟩
      have hone₀' : (s₃.file f₀).count = 1 := by rw [hf₃, Function.update_of_ne hf, hone₀]
      have hi₀' : (s₃.file f₀).inode = (s.file f₀).inode := by
        rw [hf₃, Function.update_of_ne hf, hi₀]
      refine (ensures_clearFile hone₀').bind ?_
      rintro _ s₄ ⟨hd₄, _⟩
      refine ensures_pure.mpr ?_
      rw [hd₄, hi₀', hd₃, hi₁, hd₂, hd₁]
      refine Prod.ext ?_ ?_
      · simp only [Prod.fst_add]
        abel
      · simp only [Prod.snd_add]
        abel

/-! ### `execve`, `fork` and `exit` -/

/-- The first part of `do_execve` charges the reference it returns. -/
theorem charges_execCheck (current : Task) (filename : List UInt8) (fit : Bool) :
    Charges counts (execCheck V current filename fit) resultRef := by
  unfold execCheck
  refine (charges_namei V current filename).bind fun r => ?_
  rcases r with - | k
  · exact .pure (sub_self _)
  have hput (e : Errno) : Charges counts (iput V k >>= fun _ =>
      (pure (.error e) : M D (Result Slot))) fun r => resultRef r - ref (some k) :=
    charges_iput_error V k e (by simp)
  refine .get_bind fun s => .ite (fun _ => hput _) fun _ => .ite (fun _ => hput _) fun _ => ?_
  refine (charges_outside _).seq fun read => .ite (fun _ => hput _) fun _ => ?_
  refine (charges_outside _).seq fun b => (charges_outside _).seq fun _ => ?_
  exact .ite (fun _ => hput _) fun _ => .ite (fun _ => hput _) fun _ => .pure (sub_self _)

theorem keeps_closeOnExecLoop (fds : List Fd) :
    Charges Cpu.due (closeOnExecLoop V fds) fun _ => 0 := by
  refine (Charges.forM (d := fun _ => 0) fun fd _ => .get_bind fun s => ?_).congr fun _ => by simp
  exact .ite (fun _ => (keeps_closeFd V fd).seq fun _ => .pure rfl) fun _ => .pure rfl

theorem keeps_doExecve (filename : List UInt8) (fit read : Bool) :
    Charges Cpu.due (doExecve V filename fit read) fun _ => 0 := by
  refine .get_bind fun s =>
    (charges_onTable (charges_execCheck V s.current filename fit)).bind fun r => ?_
  rcases r with e | k
  · exact .pure (sub_self _)
  refine (keeps_closeOnExecLoop V _).seq fun _ => ?_
  have hclear : Charges (Cpu.due : Cpu D → Balance)
      (setCurrent fun c => { c with closeOnExec := fun _ => false }) fun _ => 0 :=
    keeps_setCurrent (fun _ => rfl) fun _ => rfl
  refine hclear.seq fun _ => (charges_onTable (charges_iput V (some k))).bind fun _ => .pure ?_
  exact Prod.ext (by simp) (by simp)

/-- The child refers to all files that its parent refers to. -/
theorem ensures_shareFiles (l : List Fd) {s : Cpu D} (h : s.Covered) :
    Ensures (l.forM shareFile) s fun _ s' =>
      s'.due = s.due + ((l.map fun fd => ref (s.current.filp fd)).sum, 0) ∧
      s'.current = s.current := by
  induction l generalizing s with
  | nil => exact ensures_pure.mpr ⟨(add_zero _).symm, rfl⟩
  | cons fd l ih =>
    have hfd : Ensures (shareFile fd) s fun _ s' =>
        s'.due = s.due + (ref (s.current.filp fd), 0) ∧ s'.current = s.current := by
      refine ensures_get_bind.mpr ?_
      split
      next hnone => exact ensures_pure.mpr ⟨by rw [hnone]; exact (add_zero _).symm, rfl⟩
      next f hf =>
        rw [hf]
        exact (ensures_incFile (h.count_ne hf)).mono fun _ _ hs => ⟨hs.1, hs.2.2⟩
    refine hfd.bind ?_
    rintro _ s₁ ⟨hd₁, hc₁⟩
    have hs₁ : s₁.Covered := fun f => by
      rw [hd₁]
      exact add_nonneg (h f) (ref_nonneg _ f)
    refine (ih hs₁).mono ?_
    rintro _ s₂ ⟨hd₂, hc₂⟩
    refine ⟨?_, hc₂.trans hc₁⟩
    rw [hd₂, hd₁, hc₁, add_assoc, List.map_cons, List.sum_cons]
    exact congrArg (s.due + ·) (Prod.ext rfl (add_zero _))

theorem charges_shareInode (k : Option Slot) :
    Charges (Cpu.due : Cpu D → Balance) (shareInode k) fun _ => (0, ref k) := by
  rcases k with - | k
  · exact .pure rfl
  · exact charges_onTable (charges_incCount k)

/-- The child refers to all that its parent refers to. -/
theorem ensures_share {s : Cpu D} (h : s.Covered) :
    Ensures share s fun _ s' => s'.due = s.due + (s.current.uses, s.current.pins) := by
  refine (ensures_shareFiles _ h).bind fun _ s₁ ⟨hd₁, hc₁⟩ => ensures_get_bind.mpr ?_
  rw [hc₁]
  refine (charges_shareInode _ s₁).bind fun _ s₂ h₂ => ?_
  refine (charges_shareInode _ s₂).mono fun _ s₃ h₃ => ?_
  rw [h₃, h₂, hd₁, add_assoc, add_assoc, Task.uses, Fin.sum_univ_def]
  refine congrArg (s.due + ·) (Prod.ext ?_ ?_)
  · simp
  · simp [Task.pins]

/-- The loop of `do_exit` keeps the balance and frees the descriptors. -/
theorem ensures_exitLoop (l : List Fd) (s : Cpu D) :
    Ensures (exitLoop V l) s fun _ s' =>
      s'.due = s.due ∧ ∀ fd, s'.current.filp fd = if fd ∈ l then none else s.current.filp fd := by
  induction l generalizing s with
  | nil => exact ensures_pure.mpr ⟨rfl, fun fd => rfl⟩
  | cons fd l ih =>
    have hfd : Ensures (get >>= fun s : Cpu D => if (s.current.filp fd).isSome then
        closeFd V fd >>= fun _ => (pure ⟨⟩ : C D PUnit) else pure ⟨⟩) s fun _ s' =>
        s'.due = s.due ∧ s'.current.filp = Function.update s.current.filp fd none := by
      refine ensures_get_bind.mpr (ensures_ite (fun _ => ?_) fun hnone => ?_)
      · exact (ensures_closeFd V fd s).bind fun _ s₁ h₁ => ensures_pure.mpr ⟨h₁.1, h₁.2.1⟩
      · refine ensures_pure.mpr ⟨rfl, (Function.update_eq_self_iff.mpr ?_).symm⟩
        exact (Option.not_isSome_iff_eq_none.mp hnone).symm
    refine hfd.bind fun _ s₁ ⟨hd₁, hc₁⟩ => (ih s₁).mono fun _ s₂ ⟨hd₂, hc₂⟩ => ⟨hd₂.trans hd₁, ?_⟩
    intro fd'
    rw [hc₂, hc₁, Function.update_apply]
    by_cases hl : fd' ∈ l
    · rw [if_pos hl, if_pos (List.mem_cons_of_mem _ hl)]
    · by_cases heq : fd' = fd
      · rw [if_neg hl, if_pos heq, if_pos (heq ▸ List.mem_cons_self)]
      · rw [if_neg hl, if_neg heq, if_neg fun h => (List.mem_cons.mp h).elim heq hl]

/-- A process that exits gives back all that it refers to. -/
theorem ensures_exitFiles (s : Cpu D) :
    Ensures (exitFiles V) s fun _ s' =>
      s'.due = s.due ∧ s'.current.uses = 0 ∧ s'.current.pins = 0 := by
  refine (ensures_exitLoop V _ s).bind fun _ s₁ ⟨hd₁, hc₁⟩ => ensures_get_bind.mpr ?_
  have hfilp (fd : Fd) : s₁.current.filp fd = none := by
    rw [hc₁, if_pos (List.mem_finRange fd)]
  refine (ensures_onTable (charges_iput V s₁.current.pwd) s₁).bind ?_
  rintro - _ ⟨T, rfl, hT⟩
  refine ensures_modify_bind.mpr ?_
  refine (ensures_onTable (charges_iput V s₁.current.root) _).bind ?_
  rintro - _ ⟨T', rfl, hT'⟩
  have hdue (tty : ℤ → ℤ) : Cpu.due ⟨T', s₁.file,
      { s₁.current with pwd := none, root := none }, tty, s₁.isup, s₁.imount⟩ = s.due := by
    rw [← hd₁]
    refine Prod.ext rfl ?_
    simp only [Cpu.due, hT', hT, Task.pins, ref_none]
    abel
  have hpins : Task.pins { s₁.current with pwd := none, root := none } = 0 := by simp [Task.pins]
  have huses : Task.uses { s₁.current with pwd := none, root := none } = 0 :=
    Finset.sum_eq_zero fun fd _ => by rw [hfilp fd, ref_none]
  refine ensures_modify_bind.mpr (ensures_ite (fun _ => ensures_modify.mpr ?_) fun _ => ?_)
  · exact ⟨hdue _, huses, hpins⟩
  · exact ensures_pure.mpr ⟨hdue _, huses, hpins⟩

/-- Every call of one process keeps the balance. -/
theorem ensures_code {s : Cpu D} (h : s.Covered) (call : Call) :
    Ensures (call.code V) s fun _ s' => s'.due = s.due := by
  have hkeeps {m : C D (Result ℕ)} (hm : Charges Cpu.due m fun _ => 0) :
      Ensures m s fun _ s' => s'.due = s.due :=
    (hm s).mono fun _ _ h => h.trans (add_zero _)
  cases call with
  | «open» filename flag mode => exact hkeeps (keeps_sysOpen V filename flag mode)
  | creat pathname mode => exact hkeeps (keeps_sysOpen V pathname _ mode)
  | close fd => exact hkeeps (keeps_sysClose V fd)
  | dup fildes => exact ensures_dupfd h fildes 0
  | dup2 oldfd newfd => exact ensures_sysDup2 V h oldfd newfd
  | fcntl fd cmd arg => exact ensures_sysFcntl h fd cmd arg
  | pipe => exact hkeeps (keeps_sysPipe V)
  | chdir filename => exact hkeeps (keeps_sysChdir V filename)
  | chroot filename => exact hkeeps (keeps_sysChroot V filename)
  | link old new => exact hkeeps (keeps_byCurrent fun c => charges_sysLink V c old new)
  | unlink name => exact hkeeps (keeps_byCurrent fun c => charges_sysUnlink V c name)
  | mkdir name mode => exact hkeeps (keeps_byCurrent fun c => charges_sysMkdir V c name mode)
  | rmdir name => exact hkeeps (keeps_byCurrent fun c => charges_sysRmdir V c name)
  | stat filename =>
    exact hkeeps (keeps_byCurrent fun c => charges_withInode V c filename fun _ => .pure rfl)
  | chmod filename mode =>
    exact hkeeps (keeps_byCurrent fun c => charges_sysChmod V c filename mode)
  | chown filename uid gid =>
    exact hkeeps (keeps_byCurrent fun c => charges_sysChown V c filename uid gid)
  | utime filename =>
    refine hkeeps (keeps_byCurrent fun c => charges_withInode V c filename fun k => ?_)
    exact (charges_setDirt k true).seq fun _ => .pure rfl
  | access filename mode =>
    exact hkeeps (keeps_byCurrent fun c => charges_sysAccess V c filename mode)
  | setuid uid | setgid gid =>
    refine ensures_get_bind.mpr (ensures_ite (fun _ => ?_) fun _ => ?_)
    · refine ensures_ite (fun _ => ?_) fun _ => ensures_pure.mpr rfl
      exact ensures_modify_bind.mpr (ensures_pure.mpr (s.due_sameRefs rfl rfl))
    · exact ensures_modify_bind.mpr (ensures_pure.mpr (s.due_sameRefs rfl rfl))
  | setsid =>
    refine ensures_get_bind.mpr (ensures_ite (fun _ => ensures_pure.mpr rfl) fun _ => ?_)
    refine ensures_ite (fun _ => ensures_pure.mpr rfl) fun _ => ?_
    exact ensures_modify_bind.mpr (ensures_pure.mpr (s.due_sameRefs rfl rfl))
  | umask mask =>
    exact ensures_get_bind.mpr (ensures_modify_bind.mpr (ensures_pure.mpr (s.due_sameRefs rfl rfl)))

/-- `mount_root` on tables that refer to nothing. -/
theorem ensures_mountRoot {s : Cpu D} (hcounts : counts s.table = 0)
    (huses : s.current.uses = 0) :
    Ensures (mountRoot V) s fun _ s' => s'.due = 0 := by
  refine ensures_modify_bind.mpr ?_
  refine (ensures_onTable (charges_outside V.doMount) _).bind ?_
  rintro - _ ⟨T₁, rfl, hT₁⟩
  refine (ensures_onTable (charges_iget V V.rootDev 1) _).bind ?_
  rintro (- | k) _ ⟨T₂, rfl, hT₂⟩
  · exact ensures_throw
  have hthree : Charges (counts : Table D → Slot → ℤ)
      (setInode k fun i => { i with count := i.count + 3 }) fun _ => Pi.single k 3 := by
    refine fun T => ensures_modify.mpr ((counts_update _ _ _).trans ?_)
    dsimp only
    rw [Nat.cast_add, add_sub_cancel_left]
    rfl
  refine (ensures_onTable hthree _).bind ?_
  rintro - _ ⟨T₃, rfl, hT₃⟩
  refine ensures_modify.mpr (Prod.ext ?_ ?_)
  · funext f
    exact (congrArg (0 - · f) huses).trans rfl
  · have hlink : ∑ f, File.link { s.file f with count := 0 } = 0 :=
      Finset.sum_eq_zero fun f _ => if_pos rfl
    have hthree : (Pi.single k 3 : Slot → ℤ) = ref (some k) + ref (some k) + ref (some k) := by
      change Pi.single k 3 = Pi.single k 1 + Pi.single k 1 + Pi.single k 1
      rw [← Pi.single_add, ← Pi.single_add]
      rfl
    simp only [Cpu.due, hT₃, hT₂, hT₁, hcounts, hlink, hthree, Task.pins]
    change _ = (0 : Slot → ℤ)
    abel

end Calls

/-! ### The kernel -/

namespace Proc

/-- The files that an entry of `task` refers to. -/
def uses : Proc → FileNr → ℤ
  | .running c => c.uses
  | _ => 0

/-- `pwd`, which is `NULL` in a zombie. -/
def pwd : Proc → Option Slot
  | .running c => c.pwd
  | _ => none

/-- `root`, which is `NULL` in a zombie. -/
def root : Proc → Option Slot
  | .running c => c.root
  | _ => none

/-- The slots that an entry of `task` refers to. -/
def pins (p : Proc) : Slot → ℤ := ref p.pwd + ref p.root

theorem uses_nonneg (p : Proc) (f : FileNr) : 0 ≤ p.uses f := by
  cases p with
  | running c => exact c.uses_nonneg f
  | free | zombie => exact le_rfl

theorem uses_orphan (p : Proc) (pid : ℤ) : (p.orphan pid).uses = p.uses := by
  cases p with
  | running c =>
    change Task.uses (if _ then _ else _) = _
    split_ifs <;> rfl
  | free | zombie => rfl

theorem pins_orphan (p : Proc) (pid : ℤ) : (p.orphan pid).pins = p.pins := by
  cases p with
  | running c =>
    change ref (Task.pwd (if _ then _ else _)) + ref (Task.root (if _ then _ else _)) = _
    split_ifs <;> rfl
  | free | zombie => rfl

end Proc

namespace Kernel

variable (S : Kernel D)

/-- The counters less the references of the tables and of all processes. -/
def due : Balance :=
  ((fun f => ((S.file f).count : ℤ)) - ∑ t, (S.task t).uses,
    counts S.table - ∑ f, (S.file f).link - (ref S.isup + ref S.imount) - ∑ t, (S.task t).pins)

/-- After code of a running process the balance has changed by what the code has done, and by the
references that its entry of `task` has lost. -/
theorem due_resume {t : TaskNr} {c : Task} (ht : S.task t = .running c) (s : Cpu D) (p : Proc) :
    (S.resume t s p).due = S.due + (s.due - (S.cpu c).due) +
      (s.current.uses - p.uses, s.current.pins - p.pins) := by
  have huses := sum_update_sub S.task Proc.uses t p
  have hpins := sum_update_sub S.task Proc.pins t p
  rw [ht] at huses hpins
  refine Prod.ext ?_ ?_
  · change s.fileCounts - ∑ q, (Function.update S.task t p q).uses =
      (S.cpu c).fileCounts - ∑ q, (S.task q).uses +
        (s.fileCounts - s.current.uses - ((S.cpu c).fileCounts - c.uses)) +
        (s.current.uses - p.uses)
    rw [huses, show (Proc.running c).uses = c.uses from rfl]
    abel
  · simp only [due, resume, Cpu.due, cpu, Prod.snd_add, Prod.snd_sub, hpins]
    rw [show (Proc.running c).pins = c.pins from rfl]
    abel

/-- The balance with an entry of `task` replaced. -/
theorem due_setTask (t : TaskNr) (p : Proc) :
    (S.setTask t p).due = S.due + ((S.task t).uses - p.uses, (S.task t).pins - p.pins) := by
  refine Prod.ext ?_ ?_
  · simp only [due, setTask, Prod.fst_add, sum_update_sub S.task Proc.uses]
    abel
  · simp only [due, setTask, Prod.snd_add, sum_update_sub S.task Proc.pins]
    abel

/-- When all counters are exact, the files have the references of each process. -/
theorem covered {t : TaskNr} {c : Task} (ht : S.task t = .running c) (h : S.due = 0) :
    (S.cpu c).Covered := by
  intro f
  have hf : ((S.file f).count : ℤ) - (∑ t, (S.task t).uses) f = 0 :=
    congrFun (congrArg Prod.fst h) f
  have hle := Finset.single_le_sum (f := fun t => (S.task t).uses f)
    (fun t _ => (S.task t).uses_nonneg f) (Finset.mem_univ t)
  rw [ht] at hle
  rw [Finset.sum_apply] at hf
  change 0 ≤ ((S.file f).count : ℤ) - c.uses f
  change c.uses f ≤ _ at hle
  omega

theorem run_ok {α : Type} {m : C D α} {t : TaskNr} {c : Task} {r : α × Kernel D}
    (h : S.run m t c = .ok r) :
    ∃ s, m (S.cpu c) = .ok (r.1, s) ∧ r.2 = S.resume t s (.running s.current) := by
  unfold run at h
  cases hm : m (S.cpu c) with
  | error e =>
    rw [hm] at h
    cases h
  | ok q =>
    rw [hm] at h
    obtain rfl := Except.ok.inj h
    exact ⟨q.2, rfl, rfl⟩

/-- Code of one process that keeps its balance keeps the balance of the kernel. -/
theorem due_run {α : Type} {m : C D α} {t : TaskNr} {c : Task} (ht : S.task t = .running c)
    {δ : Balance} (hm : Ensures m (S.cpu c) fun _ s' => s'.due = (S.cpu c).due + δ)
    {r : α × Kernel D} (h : S.run m t c = .ok r) : r.2.due = S.due + δ := by
  obtain ⟨s, hs, hr⟩ := S.run_ok h
  rw [hr, S.due_resume ht, hm _ _ hs, add_sub_cancel_left]
  refine Prod.ext ?_ ?_
  · simp [Proc.uses]
  · simp [Proc.pins, Proc.pwd, Proc.root, Task.pins]

variable (V : Services D)

theorem due_orphan (pid : ℤ) :
    due { S with task := fun i => (S.task i).orphan pid } = S.due := by
  simp only [due, Proc.uses_orphan, Proc.pins_orphan]

/-- `exit` keeps the balance. -/
theorem due_doExit {t : TaskNr} {c : Task} (ht : S.task t = .running c) {S' : Kernel D}
    (h : S.doExit V t c = .ok S') : S'.due = S.due := by
  unfold doExit at h
  have ht' : (S.task t).orphan c.pid =
      .running (if c.father = c.pid then { c with father := 0 } else c) := by rw [ht]; rfl
  generalize hc : (if c.father = c.pid then { c with father := 0 } else c) = c' at h ht'
  generalize hS : ({ S with task := fun i => (S.task i).orphan c.pid } : Kernel D) = T at h
  have hT : T.task t = .running c' := by rw [← hS]; exact ht'
  have hdue : T.due = S.due := by rw [← hS]; exact S.due_orphan c.pid
  have hend (s : Cpu D) (a : Unit) (hs : exitFiles V (T.cpu c') = .ok (a, s)) (p : Proc)
      (hp : p.uses = 0 ∧ p.pins = 0) : (T.resume t s p).due = S.due := by
    obtain ⟨hd, huses, hpins⟩ := ensures_exitFiles V _ _ _ hs
    rw [T.due_resume hT, hd, huses, hpins, hp.1, hp.2, sub_self, hdue]
    exact Prod.ext (by simp) (by simp)
  change (exitFiles V (T.cpu c')).bind _ = _ at h
  cases hm : exitFiles V (T.cpu c') with
  | error e =>
    rw [hm] at h
    cases h
  | ok q =>
    rw [hm] at h
    change (if _ then _ else _) = _ at h
    have hnone : ((0 : FileNr → ℤ) = 0) ∧ (ref (none : Option Slot) + ref none = 0) :=
      ⟨rfl, add_zero _⟩
    split_ifs at h
    · obtain rfl := Except.ok.inj h
      exact hend q.2 q.1 hm _ hnone
    · obtain rfl := Except.ok.inj h
      exact hend q.2 q.1 hm _ hnone

/-- `execve` keeps the balance, also when the process exits. -/
theorem due_execve {t : TaskNr} {c : Task} (ht : S.task t = .running c) {filename : List UInt8}
    {fit read : Bool} {S' : Kernel D} (h : S.execve V t c filename fit read = .ok S') :
    S'.due = S.due := by
  unfold execve at h
  cases hm : doExecve V filename fit read (S.cpu c) with
  | error e =>
    rw [hm] at h
    cases h
  | ok q =>
    rw [hm] at h
    have hrun : S.run (doExecve V filename fit read) t c =
        .ok (q.1, S.resume t q.2 (.running q.2.current)) := by
      rw [run, hm]
      rfl
    have hdue := S.due_run ht (keeps_doExecve V filename fit read (S.cpu c)) hrun
    rw [add_zero] at hdue
    dsimp only [Except.bind] at h
    split at h
    · have hq : (S.resume t q.2 (.running q.2.current)).task t = .running q.2.current :=
        Function.update_self t _ S.task
      exact (due_doExit _ V hq h).trans hdue
    · obtain rfl := Except.ok.inj h
      exact hdue

/-- `fork` keeps the balance: the references of the child are counted. -/
theorem due_fork {t : TaskNr} {c : Task} (ht : S.task t = .running c) (hS : S.due = 0) {pid : ℤ}
    {mem : Bool} {S' : Kernel D} (h : S.fork t c pid mem = .ok S') : S'.due = S.due := by
  unfold fork at h
  split at h
  · rw [Except.ok.inj h]
  next nr hnr =>
    have hnr := List.find?_some hnr
    rw [Bool.and_eq_true, decide_eq_true_iff] at hnr
    split_ifs at h
    · cases hr : S.run share t c with
      | error e =>
        rw [hr] at h
        cases h
      | ok r =>
        rw [hr] at h
        obtain rfl := Except.ok.inj h
        obtain ⟨s, hs, hr₂⟩ := S.run_ok hr
        have hfree : r.2.task nr = .free := by
          have hne : nr ≠ t := by
            rintro rfl
            rw [ht] at hnr
            cases hnr.2
          rw [hr₂]
          change Function.update S.task t _ nr = _
          rw [Function.update_of_ne hne]
          cases hp : S.task nr with
          | free => rfl
          | running | zombie =>
            rw [hp] at hnr
            cases hnr.2
        rw [due_setTask, hfree, S.due_run ht (ensures_share (S.covered ht hS)) hr]
        refine Prod.ext ?_ ?_
        · simp [Proc.uses, Task.uses, cpu]
        · simp [Proc.pins, Proc.pwd, Proc.root, Task.pins, cpu]
          abel
    · rw [Except.ok.inj h]

/-- `waitpid` keeps the balance: a zombie has no references. -/
theorem due_waitpid (c : Task) (pid : ℤ) : (S.waitpid c pid).due = S.due := by
  unfold waitpid
  split
  · rfl
  next i hi =>
    have hi := List.find?_some hi
    rw [Bool.and_eq_true] at hi
    cases hp : S.task i with
    | free | running =>
      rw [hp] at hi
      cases hi.2
    | zombie =>
      rw [due_setTask, hp]
      exact Prod.ext (by simp [Proc.uses]) (by simp [Proc.pins, Proc.pwd, Proc.root])

/-- Every complete call keeps the counters exact. -/
theorem due_perform {t : TaskNr} {c : Task} (ht : S.task t = .running c) (hS : S.due = 0)
    {e : Event} {S' : Kernel D} (h : perform V t c S e = .ok S') : S'.due = 0 := by
  cases e with
  | call call =>
    cases hr : S.run (call.code V) t c with
    | error e =>
      rw [perform, hr] at h
      cases h
    | ok r =>
      rw [perform, hr] at h
      obtain rfl := Except.ok.inj h
      have hcode := (ensures_code V (S.covered ht hS) call).mono
        fun _ _ h => h.trans (add_zero _).symm
      rw [S.due_run ht hcode hr, hS, add_zero]
  | execve filename fit read => exact (S.due_execve V ht h).trans hS
  | fork pid mem => exact (S.due_fork ht hS h).trans hS
  | exit => exact (S.due_doExit V ht h).trans hS
  | waitpid pid =>
    obtain rfl := Except.ok.inj h
    exact (S.due_waitpid c pid).trans hS

/-- After `mount_root` all counters are exact. -/
theorem due_boot {S : Kernel D} (h : Boot V S) : S.due = 0 := by
  obtain ⟨S₀, hfresh, t, c, ht, hrun⟩ := h
  have huses (p : TaskNr) : (S₀.task p).uses = 0 := by
    cases hp : S₀.task p with
    | running c =>
      change ∑ fd, ref (c.filp fd) = 0
      refine Finset.sum_eq_zero fun fd _ => ?_
      rw [hfresh.filp p c hp, ref_none]
    | free | zombie => rfl
  have hpins (p : TaskNr) : (S₀.task p).pins = 0 := by
    cases hp : S₀.task p with
    | running c =>
      change ref c.pwd + ref c.root = 0
      rw [hfresh.pwd p c hp, hfresh.root p c hp, ref_none, add_zero]
    | free | zombie => exact add_zero _
  have hcounts : counts S₀.table = 0 := by
    funext k
    rw [counts, hfresh.inode k]
    rfl
  obtain ⟨s, hs, rfl⟩ := S₀.run_ok hrun
  have hcpu : s.due = 0 := by
    refine ensures_mountRoot V (s := S₀.cpu c) hcounts ?_ _ _ hs
    have huses := huses t
    rwa [ht] at huses
  have hothers (q : TaskNr) (hq : q ≠ t) :
      (Function.update S₀.task t (.running s.current) q).uses = 0 ∧
        (Function.update S₀.task t (.running s.current) q).pins = 0 := by
    rw [Function.update_of_ne hq]
    exact ⟨huses q, hpins q⟩
  refine Eq.trans (Prod.ext ?_ ?_) hcpu
  · refine congrArg (s.fileCounts - ·) ((Finset.sum_eq_single_of_mem t (Finset.mem_univ t)
      fun q _ hq => (hothers q hq).1).trans ?_)
    exact congrArg Proc.uses (Function.update_self t _ S₀.task)
  · refine congrArg (counts s.table - ∑ f, (s.file f).link - (ref s.isup + ref s.imount) - ·)
      ((Finset.sum_eq_single_of_mem t (Finset.mem_univ t) fun q _ hq => (hothers q hq).2).trans ?_)
    exact congrArg Proc.pins (Function.update_self t _ S₀.task)

/-- The number of references to a slot: from files in use, as `pwd`, as `root`, and from the super
block. -/
def references (k : Slot) : ℕ :=
  (Finset.univ.filter fun f => (S.file f).count ≠ 0 ∧ (S.file f).inode = some k).card +
    (Finset.univ.filter fun t => (S.task t).pwd = some k).card +
    (Finset.univ.filter fun t => (S.task t).root = some k).card +
    ((if S.isup = some k then 1 else 0) + if S.imount = some k then 1 else 0)

theorem ref_apply (x : Option Slot) (k : Slot) : ref x k = if x = some k then 1 else 0 := by
  rcases x with - | j
  · rfl
  · by_cases h : j = k
    · subst h
      simp [ref]
    · rw [if_neg fun hk => h (Option.some.inj hk)]
      exact Pi.single_eq_of_ne (Ne.symm h) 1

/-- When the balance is zero, `i_count` is the number of references. -/
theorem count_eq_references (h : S.due = 0) (k : Slot) :
    (S.table.inode k).count = S.references k := by
  have hk := congrFun (congrArg Prod.snd h) k
  have hlink (f : FileNr) : (S.file f).link k =
      if (S.file f).count ≠ 0 ∧ (S.file f).inode = some k then 1 else 0 := by
    unfold File.link
    by_cases hc : (S.file f).count = 0
    · rw [if_pos hc, if_neg fun hf => hf.1 hc]
      rfl
    · rw [if_neg hc, ref_apply]
      simp only [hc, ne_eq, not_false_eq_true, true_and]
  simp only [due, Pi.sub_apply, Pi.add_apply, Finset.sum_apply, Proc.pins, hlink, ref_apply,
    Finset.sum_add_distrib, Finset.sum_boole] at hk
  change ((S.table.inode k).count : ℤ) - _ - _ - _ = 0 at hk
  have hcast : ((S.table.inode k).count : ℤ) = (S.references k : ℤ) := by
    rw [references]
    push_cast
    linarith
  exact_mod_cast hcast

end Kernel

/-! ### The main result -/

variable (V : Services D)

/-- No counter of an inode differs between two states. -/
def SameCounts (T T' : Table D) : Prop := ∀ k, (T'.inode k).count = (T.inode k).count

theorem sameCounts_of_charges {α : Type} {m : M D α} {δ : α → Slot → ℤ} (h : Charges counts m δ)
    {a : α} (ha : δ a = 0) {T T' : Table D} (hm : m T = .ok (a, T')) : SameCounts T T' := by
  intro k
  have hk := congrFun (h T a T' hm) k
  rw [ha, add_zero] at hk
  exact Int.ofNat_inj.mp hk

/-- In every state between complete calls, `i_count` of each slot is the number of references to
it; and when `namei`, `open_namei`, `sys_mkdir`, `sys_rmdir`, `sys_unlink`, `sys_link` or
`do_execve` returns an error, no counter has changed. -/
theorem counts_exact :
    (∀ S₀ es S, Boot V S₀ → Runs (Step V) S₀ es S → ∀ k,
      (S.table.inode k).count = S.references k) ∧
    (∀ c path T T', namei V c path T = .ok (none, T') → SameCounts T T') ∧
    (∀ c path flag mode e T T', openNamei V c path flag mode T = .ok (.error e, T') →
      SameCounts T T') ∧
    (∀ c path mode e T T', sysMkdir V c path mode T = .ok (.error e, T') → SameCounts T T') ∧
    (∀ c path e T T', sysRmdir V c path T = .ok (.error e, T') → SameCounts T T') ∧
    (∀ c path e T T', sysUnlink V c path T = .ok (.error e, T') → SameCounts T T') ∧
    (∀ c old new e T T', sysLink V c old new T = .ok (.error e, T') → SameCounts T T') ∧
    (∀ path fit read e s s', doExecve V path fit read s = .ok (.error e, s') →
      SameCounts s.table s'.table) := by
  refine ⟨fun S₀ es S hboot hrun k => S.count_eq_references ?_ k, fun c path T T' h => ?_,
    fun c path flag mode e T T' h => ?_, fun c path mode e T T' h => ?_, fun c path e T T' h => ?_,
    fun c path e T T' h => ?_, fun c old new e T T' h => ?_, fun path fit read e s s' h => ?_⟩
  · refine Runs.invariant (I := fun S => S.due = 0) (fun S e S' hS hstep => ?_)
      (Kernel.due_boot V hboot) hrun
    obtain ⟨c, hc, hp⟩ := hstep
    exact S.due_perform V hc hS hp
  · exact sameCounts_of_charges (charges_namei V c path) rfl h
  · exact sameCounts_of_charges (charges_openNamei V c path flag mode) rfl h
  · exact sameCounts_of_charges (charges_sysMkdir V c path mode) rfl h
  · exact sameCounts_of_charges (charges_sysRmdir V c path) rfl h
  · exact sameCounts_of_charges (charges_sysUnlink V c path) rfl h
  · exact sameCounts_of_charges (charges_sysLink V c old new) rfl h
  · have hcheck : Ensures (doExecve V path fit read) s fun r s' =>
        ∀ e, r = .error e → SameCounts s.table s'.table := by
      refine ensures_get_bind.mpr ?_
      refine (ensures_onTable (charges_execCheck V s.current path fit) s).bind ?_
      rintro (e | k) _ ⟨T, rfl, hT⟩
      · refine ensures_pure.mpr fun _ _ k => ?_
        have hk := congrFun hT k
        rw [resultRef_error, add_zero] at hk
        exact Int.ofNat_inj.mp hk
      · refine Ensures.self.bind fun _ _ _ => Ensures.self.bind fun _ _ _ => ?_
        exact Ensures.self.bind fun _ _ _ => ensures_pure.mpr fun _ he => by cases he
    exact hcheck _ _ h e rfl

/-! ### A run -/

/-- The state after a call that completes. -/
def next (S : Kernel D) (e : TaskNr × Event) : Option (Kernel D) :=
  match S.task e.1 with
  | .running c => (perform V e.1 c S e.2).toOption
  | _ => none

theorem step_of_next {S S' : Kernel D} {e : TaskNr × Event} (h : next V S e = some S') :
    Step V S e S' := by
  unfold next at h
  split at h
  next c hc =>
    refine ⟨c, hc, ?_⟩
    cases hp : perform V e.1 c S e.2 with
    | error f =>
      rw [hp] at h
      cases h
    | ok T =>
      rw [hp] at h
      exact congrArg Except.ok (Option.some.inj h)
  · cases h

/-- The super block of a device with 64 blocks. -/
def smallDevice : Fs.Super := .small

/-- A device whose root directory is empty, and unused memory. -/
def smallOuter : Outer where
  fs :=
    { ino := fun _ => Fs.Inode.zero
      count := fun _ => 0
      dirt := fun _ => false
      diskIno := fun _ => { Fs.Inode.zero with mode := 0o040755, nlinks := 2 }
      imap := fun j => j ≤ 1
      zmap := fun j => j = 0
      cache := ⟨fun _ => none, [none], fun _ => Fs.zeroBlock, Fs.Cache.clean_none⟩
      overflow := false
      destroyed := [] }
  mem := ⟨fun _ => 0, fun _ => 0⟩

/-- A process that has nothing open. -/
def bareTask : Task where
  uid := 0
  euid := 0
  suid := 0
  gid := 0
  egid := 0
  sgid := 0
  umask := 0
  pid := 1
  father := 0
  pgrp := 0
  leader := false
  tty := -1
  pwd := none
  root := none
  filp := fun _ => none
  closeOnExec := fun _ => false

/-- The kernel before `mount_root`, with one process. -/
def bareKernel : Kernel Outer where
  table := ⟨fun _ => Inode.zero, 0, smallOuter⟩
  file := fun _ => ⟨0, 0, 0, none, 0⟩
  ttyPgrp := fun _ => 0
  isup := none
  imount := none
  task := fun t => if t = 1 then .running bareTask else .free

theorem fresh_bareKernel : Fresh bareKernel := by
  have htask (t : TaskNr) (c : Task) (h : bareKernel.task t = .running c) : c = bareTask := by
    change (if t = 1 then _ else _) = _ at h
    split_ifs at h
    exact (Proc.running.inj h).symm
  refine ⟨fun _ => rfl, fun t c h => ?_, fun t c h => ?_, fun t c h => ?_, rfl, rfl⟩
  all_goals rw [htask t c h]; rfl

/-- A process goes to the root directory, makes a pipe and forks, and its child exits. -/
theorem counts_exact_pipe : ∃ S₀ es S, Boot (mounted smallDevice 769) S₀ ∧
    Runs (Step (mounted smallDevice 769)) S₀ es S ∧
      (∀ k, (S.table.inode k).count = S.references k) ∧ (S.table.inode 0).count = 4 ∧
        ∃ k, (S.table.inode k).pipe ∧ (S.table.inode k).count = 2 := by
  have hexec : (((bareKernel.run (mountRoot (mounted smallDevice 769)) 1 bareTask).toOption.bind
      fun r => exec (next (mounted smallDevice 769)) r.2
        [(1, .call (.chdir [47])), (1, .call .pipe), (1, .fork 2 true), (2, .exit)]).any fun S =>
          (S.table.inode 0).count = 4 ∧ ∃ k, (S.table.inode k).pipe ∧ (S.table.inode k).count = 2) =
      true := by
    decide +kernel
  obtain ⟨S, hS, hcount⟩ := Option.any_eq_true _ _ |>.mp hexec
  obtain ⟨r, hr, hS⟩ := Option.bind_eq_some_iff.mp hS
  have hboot : Boot (mounted smallDevice 769) r.2 := by
    refine ⟨bareKernel, fresh_bareKernel, 1, bareTask, rfl, ?_⟩
    cases hm : bareKernel.run (mountRoot (mounted smallDevice 769)) 1 bareTask with
    | error e =>
      rw [hm] at hr
      cases hr
    | ok q =>
      rw [hm] at hr
      rw [Option.some.inj hr]
  have hrun := (runs_of_exec hS).mono fun S e S' => step_of_next _
  obtain ⟨hzero, hpipe⟩ := of_decide_eq_true hcount
  exact ⟨r.2, _, S, hboot, hrun, (counts_exact _).1 _ _ _ hboot hrun, hzero, hpipe⟩

end Linux001.Inodes
