import Linux001.Inodes.Names
import Linux001.Lib.Ledger
import Mathlib.Algebra.Group.Pi.Lemmas
import Mathlib.Tactic.Abel

/-!
# References handed out by the inode functions

The ledger of the inode table: the balance of a state is the vector of its counters `i_count`. A
function that returns a slot charges one reference to it, `iput` gives one back, and on every error
return of a function of `fs/namei.c` the amounts cancel.

## Main definitions

* `counts`: the counters as integers.
* `ref`: one reference to a slot, or none to `NULL`.

## Main results

* `charges_iput`, `charges_getEmptyInode`, `charges_iget`, `charges_newInode`: the functions of
  `fs/inode.c`.
* `charges_namei`, `charges_openNamei`, `charges_sysMkdir`, `charges_sysRmdir`,
  `charges_sysUnlink`, `charges_sysLink`: the functions of `fs/namei.c`.
-/

namespace Linux001.Inodes

/-- One reference to what a pointer points to. -/
def ref {α : Type} [DecidableEq α] : Option α → α → ℤ
  | none => 0
  | some k => Pi.single k 1

@[simp] theorem ref_none {α : Type} [DecidableEq α] : ref (none : Option α) = 0 := rfl

variable {D : Type}

/-- The counters `i_count` of all slots. -/
def counts (s : Table D) : Slot → ℤ := fun k => (s.inode k).count

/-- A store to a slot changes the balance by the change of its counter. -/
theorem counts_update (s : Table D) (k : Slot) (i : Inode) :
    counts { s with inode := Function.update s.inode k i } =
      counts s + Pi.single k ((i.count : ℤ) - (s.inode k).count) := by
  funext j
  by_cases h : j = k
  · subst h
    simp [counts]
  · simp [counts, Function.update_of_ne h, Pi.single_eq_of_ne h]

/-! ### Stores that keep the counters -/

/-- Functions outside of the model do not touch the counters. -/
theorem charges_outside {α : Type} (m : Outside D α) : Charges counts (outside m) fun _ => 0 := by
  intro s a s' h
  unfold outside at h
  split at h
  · obtain ⟨-, rfl⟩ := Prod.mk.inj (Except.ok.inj h)
    exact (add_zero _).symm
  · cases h

theorem charges_setInode (k : Slot) {f : Inode → Inode} (hf : ∀ i, (f i).count = i.count) :
    Charges (counts : Table D → Slot → ℤ) (setInode k f) fun _ => 0 :=
  .update fun s => by rw [counts_update, hf, sub_self, Pi.single_zero, add_zero]

theorem charges_edit (k : Slot) (f : Fs.Inode → Fs.Inode) :
    Charges (counts : Table D → Slot → ℤ) (edit k f) fun _ => 0 :=
  charges_setInode k fun _ => rfl

theorem charges_setDirt (k : Slot) (b : Bool) :
    Charges (counts : Table D → Slot → ℤ) (setDirt k b) fun _ => 0 :=
  charges_setInode k fun _ => rfl

variable (V : Services D)

theorem charges_brelse (de : ℕ × ℕ) : Charges counts (brelse V de) fun _ => 0 :=
  charges_outside _

theorem charges_setEntry (de : ℕ × ℕ) (n : ℕ) : Charges counts (setEntry V de n) fun _ => 0 :=
  charges_outside _

theorem charges_entryInode (de : ℕ × ℕ) : Charges counts (entryInode V de) fun _ => 0 :=
  (charges_outside _).seq fun _ => .pure rfl

theorem charges_findEntry (k : Slot) (name : List UInt8) :
    Charges counts (findEntry V k name) fun _ => 0 :=
  .get_bind fun _ => charges_outside _

theorem charges_emptyDir (k : Slot) : Charges counts (emptyDir V k) fun _ => 0 :=
  .get_bind fun _ => charges_outside _

theorem charges_addEntry (k : Slot) (name : List UInt8) :
    Charges counts (addEntry V k name) fun _ => 0 := by
  refine .get_bind fun _ => (charges_outside _).seq fun r => ?_
  refine (charges_setInode k ?_).seq fun _ => .pure rfl
  exact fun _ => rfl

theorem charges_truncate (k : Slot) : Charges counts (truncate V k) fun _ => 0 :=
  .get_bind fun _ => (charges_outside _).seq fun _ => charges_setInode k fun _ => rfl

theorem charges_readInode (k : Slot) : Charges counts (readInode V k) fun _ => 0 :=
  .get_bind fun _ => (charges_outside _).seq fun _ => charges_edit k _

theorem charges_writeInode (k : Slot) : Charges counts (writeInode V k) fun _ => 0 :=
  .get_bind fun _ => (charges_outside _).seq fun _ => charges_setDirt k _

/-! ### `inode.c` and `bitmap.c` -/

/-- `free_inode` clears the counter with the slot. -/
theorem ensures_freeInode (k : Slot) (s : Table D) :
    Ensures (freeInode V k) s fun _ s' =>
      counts s' = counts s + Pi.single k (-((s.inode k).count : ℤ)) := by
  have hclear (s₁ : Table D) (h : counts s₁ = counts s) :
      Ensures (setInode k fun _ => Inode.zero) s₁ fun _ s' =>
        counts s' = counts s + Pi.single k (-((s.inode k).count : ℤ)) := by
    refine ensures_modify.mpr ?_
    have hk : ((s₁.inode k).count : ℤ) = (s.inode k).count := congrFun h k
    rw [counts_update, h, hk]
    exact congrArg (counts s + Pi.single k ·) (zero_sub _)
  unfold freeInode
  refine ensures_get_bind.mpr (ensures_ite (fun _ => hclear s rfl) fun _ => ?_)
  refine ensures_ite (fun _ => ensures_throw) fun _ => ?_
  refine ensures_ite (fun _ => ensures_throw) fun _ => ?_
  refine (charges_outside _ s).bind fun _ s₁ h => hclear s₁ ?_
  rw [h, add_zero]

/-- `iput` gives back one reference. -/
theorem charges_iput (k : Option Slot) : Charges counts (iput V k) fun _ => -ref k := by
  rcases k with - | k
  · exact .pure neg_zero
  intro s
  have hdec (s₁ : Table D) (h : counts s₁ = counts s) (i : Inode)
      (hi : i.count + 1 = (s.inode k).count) :
      counts { s₁ with inode := Function.update s₁.inode k i } = counts s + -ref (some k) := by
    have hk : ((s₁.inode k).count : ℤ) = (s.inode k).count := congrFun h k
    have hval : (i.count : ℤ) - (s.inode k).count = -1 := by omega
    rw [counts_update, h, hk, hval, Pi.single_neg]
    rfl
  simp only [iput]
  refine ensures_get_bind.mpr (ensures_ite (fun _ => ensures_throw) fun hcount => ?_)
  refine ensures_ite (fun _ => ?_) fun _ => ?_
  · refine ensures_ite (fun _ => ?_) fun hlast => ?_
    · exact ensures_modify.mpr (hdec s rfl _ (by dsimp only; omega))
    refine (charges_outside _ s).bind fun _ s₁ h => ensures_modify.mpr ?_
    exact hdec s₁ (by rw [h, add_zero]) _ (by dsimp only; omega)
  refine ensures_ite (fun _ => ?_) fun hone => ?_
  · exact ensures_modify.mpr (hdec s rfl _ (by dsimp only; omega))
  refine ensures_ite (fun _ => ?_) fun _ => ?_
  · refine (charges_truncate V k s).bind fun _ s₁ h => ?_
    refine (ensures_freeInode V k s₁).mono fun _ s₂ h₂ => ?_
    have hk : ((s₁.inode k).count : ℤ) = (s.inode k).count := by
      rw [add_zero] at h
      exact congrFun h k
    rw [h₂, h, add_zero, hk]
    have hval : -((s.inode k).count : ℤ) = -1 := by omega
    rw [hval, Pi.single_neg]
    rfl
  · refine ensures_ite (fun _ => ?_) fun _ => ?_
    swap
    · exact ensures_modify.mpr (hdec s rfl _ (by dsimp only; omega))
    refine (charges_writeInode V k s).bind fun _ s₁ h => ensures_modify.mpr ?_
    exact hdec s₁ (by rw [h, add_zero]) _ (by dsimp only; omega)

/-- `get_empty_inode` takes one reference to a slot whose counter is 0 before. -/
theorem ensures_getEmptyInode (s : Table D) :
    Ensures (getEmptyInode V) s fun r s' =>
      counts s' = counts s + ref r ∧ ∀ k, r = some k → (s'.inode k).count = 1 := by
  unfold getEmptyInode
  refine ensures_get_bind.mpr ?_
  split
  · exact ensures_throw
  next k hk =>
    have hfree : (s.inode k).count = 0 := by simpa using List.find?_some hk
    have htake (s₁ : Table D) (h : counts s₁ = counts s) :
        Ensures (setInode k (fun _ => { Inode.zero with count := 1 }) >>= fun _ => pure (some k)) s₁
          fun r s' => counts s' = counts s + ref r ∧ ∀ k, r = some k → (s'.inode k).count = 1 := by
      refine ensures_modify_bind.mpr (ensures_pure.mpr ⟨?_, fun j hj => ?_⟩)
      · have hk₁ : ((s₁.inode k).count : ℤ) = (s.inode k).count := congrFun h k
        rw [counts_update, h, hk₁, hfree]
        rfl
      · obtain rfl := Option.some.inj hj
        dsimp only
        rw [Function.update_self]
    refine ensures_modify_bind.mpr (ensures_ite (fun _ => ?_) fun _ => htake _ rfl)
    refine (charges_writeInode V k _).bind fun _ s₁ h => htake s₁ ?_
    rw [h, add_zero]
    rfl

theorem charges_getEmptyInode : Charges counts (getEmptyInode V) ref :=
  fun s => (ensures_getEmptyInode V s).mono fun _ _ h => h.1

/-- `get_pipe_inode` takes the references of a reader and a writer. -/
theorem charges_getPipeInode : Charges counts (getPipeInode V) fun r => ref r + ref r := by
  intro s
  refine (ensures_getEmptyInode V s).bind fun r s₁ ⟨h₁, hone⟩ => ?_
  rcases r with - | k
  · exact ensures_pure.mpr h₁
  have hset (s₂ : Table D) (h : counts s₂ = counts s₁) (i : Inode) :
      counts { s₂ with inode := Function.update s₂.inode k i } =
        counts s + ref (some k) + Pi.single k ((i.count : ℤ) - 1) := by
    have hk : ((s₂.inode k).count : ℤ) = 1 := (congrFun h k).trans (by
      change ((s₁.inode k).count : ℤ) = 1
      rw [hone k rfl]
      rfl)
    rw [counts_update, h, h₁, hk]
  refine (charges_outside _ s₁).bind fun page s₂ h₂ => ?_
  refine (charges_edit k _ s₂).bind fun _ s₃ h₃ => ?_
  rw [h₂, add_zero, add_zero] at h₃
  refine ensures_ite (fun _ => ?_) fun _ => ?_
  · refine ensures_modify_bind.mpr (ensures_pure.mpr ((hset s₃ h₃ _).trans ?_))
    dsimp only
    rw [Nat.cast_zero, zero_sub, Pi.single_neg, ref_none, add_zero, add_zero]
    exact add_neg_cancel_right _ _
  · refine ensures_modify_bind.mpr (ensures_pure.mpr ((hset s₃ h₃ _).trans ?_))
    exact add_assoc _ _ _

/-- `iget` takes one reference to the slot it returns. -/
theorem charges_iget (dev nr : ℕ) : Charges counts (iget V dev nr) ref := by
  unfold iget
  refine .ite (fun _ => .throw) fun _ s => ?_
  refine (charges_getEmptyInode V s).bind fun empty s₁ h₁ => ensures_get_bind.mpr ?_
  split
  next k _ =>
    refine ensures_modify_bind.mpr ((charges_iput V empty _).bind fun _ s₂ h₂ => ?_)
    refine ensures_pure.mpr (h₂.trans ?_)
    rw [counts_update, h₁]
    dsimp only
    rw [Nat.cast_succ, add_sub_cancel_left, add_right_comm, add_neg_cancel_right]
    rfl
  · rcases empty with - | e
    · exact ensures_pure.mpr h₁
    dsimp only
    refine (charges_setInode e ?_ s₁).bind fun _ s₂ h₂ => ?_
    · exact fun _ => rfl
    refine (charges_readInode V e s₂).bind fun _ s₃ h₃ => ensures_pure.mpr ?_
    rw [h₃, h₂, h₁, add_zero, add_zero]

/-- `new_inode` takes one reference to the slot it returns. -/
theorem charges_newInode (dev : ℕ) : Charges counts (newInode V dev) ref := by
  intro s
  refine (ensures_getEmptyInode V s).bind fun r s₁ ⟨h₁, hone⟩ => ?_
  rcases r with - | k
  · exact ensures_pure.mpr h₁
  refine (charges_outside _ s₁).bind fun r s₂ h₂ => ?_
  rw [h₁, add_zero] at h₂
  rcases r with - | n
  · refine (charges_iput V (some k) s₂).bind fun _ s₃ h₃ => ensures_pure.mpr ?_
    rw [h₃, h₂, ref_none, add_zero, add_neg_cancel_right]
  · refine ensures_modify_bind.mpr (ensures_pure.mpr ?_)
    have hk : ((s₂.inode k).count : ℤ) = 1 := (congrFun h₂ k).trans (by
      rw [← h₁]
      change ((s₁.inode k).count : ℤ) = 1
      rw [hone k rfl]
      rfl)
    rw [counts_update, h₂, hk]
    dsimp only
    rw [Nat.cast_one, sub_self, Pi.single_zero, add_zero]

/-! ### `namei.c` -/

variable (current : Task)

/-- `get_dir` exchanges its reference to a directory for one to the next. -/
theorem charges_getDirFrom (k : Slot) (names : List (List UInt8)) :
    Charges counts (getDirFrom V current k names) fun r => ref r - ref (some k) := by
  induction names generalizing k with
  | nil =>
    unfold getDirFrom
    refine .get_bind fun s => .ite (fun _ => ?_) fun _ => .pure (sub_self _)
    exact (charges_iput V k).bind fun _ => .pure (by simp)
  | cons name rest ih =>
    unfold getDirFrom
    refine .get_bind fun s => .ite (fun _ => ?_) fun _ => ?_
    · exact (charges_iput V k).bind fun _ => .pure (by simp)
    refine (charges_findEntry V k name).seq fun r => ?_
    rcases r with - | de
    · exact (charges_iput V k).bind fun _ => .pure (by simp)
    refine (charges_entryInode V de).seq fun inr => .get_bind fun s => ?_
    refine (charges_brelse V de).seq fun _ => (charges_iput V k).bind fun _ => ?_
    refine (charges_iget V _ inr).bind fun r => ?_
    rcases r with - | k'
    · exact .pure (by simp)
    · exact (ih k').congr fun _ => by abel

theorem charges_incCount (k : Slot) :
    Charges (counts : Table D → Slot → ℤ) (incCount k) fun _ => ref (some k) := by
  refine fun s => ensures_modify.mpr ?_
  rw [counts_update]
  dsimp only
  rw [Nat.cast_succ, add_sub_cancel_left]
  rfl

theorem charges_getDir (pathname : List UInt8) :
    Charges counts (getDir V current pathname) ref := by
  unfold getDir
  refine .get_bind fun s => .ite (fun _ => .throw) fun _ => .ite (fun _ => .throw) fun _ => ?_
  split
  · exact .pure rfl
  split
  · exact .pure rfl
  next k _ =>
    exact (charges_incCount k).bind fun _ => charges_getDirFrom V current k _

/-- The reference to the directory that `dir_namei` returns. -/
def dirRef : Option (Slot × List UInt8) → Slot → ℤ := fun r => ref (r.map Prod.fst)

@[simp] theorem dirRef_none : dirRef none = 0 := rfl

@[simp] theorem dirRef_some (dir : Slot) (basename : List UInt8) :
    dirRef (some (dir, basename)) = ref (some dir) := rfl

theorem charges_dirNamei (pathname : List UInt8) :
    Charges counts (dirNamei V current pathname) dirRef := by
  refine (charges_getDir V current pathname).bind fun r => ?_
  rcases r with - | dir
  · exact .pure (sub_self _)
  · exact .pure (sub_self _)

/-- `namei` charges the reference it returns. -/
theorem charges_namei (pathname : List UInt8) :
    Charges counts (namei V current pathname) ref := by
  refine (charges_dirNamei V current pathname).bind fun r => ?_
  rcases r with - | ⟨dir, basename⟩
  · exact .pure (sub_self _)
  refine .ite (fun _ => .pure (sub_self _)) fun _ => ?_
  refine (charges_findEntry V dir basename).seq fun r => ?_
  rcases r with - | de
  · exact (charges_iput V dir).bind fun _ => .pure (by simp)
  refine (charges_entryInode V de).seq fun inr => .get_bind fun s => ?_
  refine (charges_brelse V de).seq fun _ => (charges_iput V dir).bind fun _ => ?_
  refine (charges_iget V _ inr).bind fun r => ?_
  rcases r with - | k
  · exact .pure (by simp)
  · exact (charges_setDirt k true).seq fun _ => .pure (by simp)

/-- The reference that `open_namei` returns. -/
def resultRef : Result Slot → Slot → ℤ
  | .ok k => ref (some k)
  | .error _ => 0

@[simp] theorem resultRef_ok (k : Slot) : resultRef (.ok k) = ref (some k) := rfl

@[simp] theorem resultRef_error (e : Errno) : resultRef (.error e) = 0 := rfl

/-- The end of a call that gives back its directory and fails. -/
theorem charges_iput_error {α : Type} (dir : Slot) (e : Errno) {δ : Result α → Slot → ℤ}
    (hδ : δ (.error e) = -ref (some dir)) :
    Charges counts (iput V dir >>= fun _ => (pure (.error e) : M D (Result α))) δ :=
  (charges_iput V dir).bind fun _ => .pure (by rw [hδ, sub_self])

theorem charges_openCreate (dir : Slot) (basename : List UInt8) (flag mode : UInt16) :
    Charges counts (openCreate V current dir basename flag mode) fun r =>
      resultRef r - ref (some dir) := by
  unfold openCreate
  refine .get_bind fun s => .ite (fun _ => ?_) fun _ => .ite (fun _ => ?_) fun _ => ?_
  · exact charges_iput_error V dir _ (by simp)
  · exact charges_iput_error V dir _ (by simp)
  refine (charges_newInode V _).bind fun r => ?_
  rcases r with - | k
  · exact charges_iput_error V dir _ (by simp)
  refine (charges_edit k _).seq fun _ => (charges_setDirt k true).seq fun _ => ?_
  refine (charges_addEntry V dir basename).seq fun r => ?_
  rcases r with - | de
  · refine (charges_edit k _).seq fun _ => (charges_iput V k).bind fun _ => ?_
    exact charges_iput_error V dir _ (by simp)
  · refine .get_bind fun s => (charges_setEntry V de _).seq fun _ => ?_
    refine (charges_brelse V de).seq fun _ => (charges_iput V dir).bind fun _ => .pure ?_
    simp

/-- `open_namei` charges the reference it returns. -/
theorem charges_openNamei (pathname : List UInt8) (flag mode : UInt16) :
    Charges counts (openNamei V current pathname flag mode) resultRef := by
  unfold openNamei
  refine (charges_dirNamei V current pathname).bind fun r => ?_
  rcases r with - | ⟨dir, basename⟩
  · exact .pure (sub_self _)
  refine .ite (fun _ => .ite (fun _ => .pure (sub_self _)) fun _ => ?_) fun _ => ?_
  · exact charges_iput_error V dir _ (by simp)
  refine (charges_findEntry V dir basename).seq fun r => ?_
  rcases r with - | de
  · exact charges_openCreate V current dir basename _ _
  refine (charges_entryInode V de).seq fun inr => .get_bind fun s => ?_
  refine (charges_brelse V de).seq fun _ => (charges_iput V dir).bind fun _ => ?_
  refine .ite (fun _ => .pure (by simp)) fun _ => (charges_iget V _ inr).bind fun r => ?_
  rcases r with - | k
  · exact .pure (by simp)
  refine .get_bind fun s => .ite (fun _ => ?_) fun _ => .ite (fun _ => ?_) fun _ => ?_
  · exact charges_iput_error V k _ (by simp)
  · exact (charges_truncate V k).seq fun _ => .pure (by simp)
  · exact .pure (by simp)

/-! ### System calls on directories -/

theorem charges_mkdirIn (dir : Slot) (basename : List UInt8) (mode : UInt16) (k : Slot) :
    Charges counts (mkdirIn V current dir basename mode k) fun _ =>
      -ref (some dir) - ref (some k) := by
  unfold mkdirIn
  refine (charges_edit k _).seq fun _ => (charges_setDirt k true).seq fun _ => .get_bind fun s => ?_
  refine (charges_outside _).seq fun z => (charges_edit k _).seq fun _ => ?_
  refine .ite (fun _ => ?_) fun _ => (charges_setDirt k true).seq fun _ => ?_
  · refine (charges_iput V dir).bind fun _ => (charges_edit k _).seq fun _ => ?_
    exact charges_iput_error V k _ (by abel)
  refine (charges_outside _).seq fun read => .ite (fun _ => ?_) fun _ => .get_bind fun s => ?_
  · refine (charges_iput V dir).bind fun _ => .get_bind fun s => (charges_outside _).seq fun _ => ?_
    exact (charges_edit k _).seq fun _ => charges_iput_error V k _ (by abel)
  refine (charges_outside _).seq fun _ => (charges_outside _).seq fun _ => ?_
  refine (charges_edit k _).seq fun _ => (charges_outside _).seq fun _ => ?_
  refine (charges_edit k _).seq fun _ => (charges_setDirt k true).seq fun _ => ?_
  refine (charges_addEntry V dir basename).seq fun r => ?_
  rcases r with - | de
  · refine (charges_iput V dir).bind fun _ => .get_bind fun s => (charges_outside _).seq fun _ => ?_
    exact (charges_edit k _).seq fun _ => charges_iput_error V k _ (by abel)
  · refine .get_bind fun s => (charges_setEntry V de _).seq fun _ => ?_
    refine (charges_edit dir _).seq fun _ => ?_
    refine (charges_setDirt dir true).seq fun _ => (charges_iput V dir).bind fun _ => ?_
    refine (charges_iput V k).bind fun _ => (charges_brelse V de).seq fun _ => .pure ?_
    abel

theorem charges_sysMkdir (pathname : List UInt8) (mode : UInt16) :
    Charges counts (sysMkdir V current pathname mode) fun _ => 0 := by
  unfold sysMkdir
  refine .ite (fun _ => .pure rfl) fun _ => (charges_dirNamei V current pathname).bind fun r => ?_
  rcases r with - | ⟨dir, basename⟩
  · exact .pure (sub_self _)
  refine .get_bind fun s => .ite (fun _ => ?_) fun _ => .ite (fun _ => ?_) fun _ => ?_
  · exact charges_iput_error V dir _ (by simp)
  · exact charges_iput_error V dir _ (by simp)
  refine (charges_findEntry V dir basename).seq fun r => ?_
  rcases r with - | de
  · refine .get_bind fun s => (charges_newInode V _).bind fun r => ?_
    rcases r with - | k
    · exact charges_iput_error V dir _ (by simp)
    · exact (charges_mkdirIn V current dir basename mode k).congr fun _ => by simp
  · exact (charges_brelse V de).seq fun _ => charges_iput_error V dir _ (by simp)

theorem charges_putBoth (dir : Slot) (de : ℕ × ℕ) (k : Slot) (e : Errno) :
    Charges counts (putBoth V dir de k e) fun _ => -ref (some dir) - ref (some k) := by
  refine (charges_iput V k).bind fun _ => (charges_iput V dir).bind fun _ => ?_
  exact (charges_brelse V de).seq fun _ => .pure (by abel)

/-- The return of `sys_rmdir` and `sys_unlink` when there is no inode. -/
theorem charges_put_brelse (dir : Slot) (de : ℕ × ℕ) (e : Errno) :
    Charges counts (iput V dir >>= fun _ => brelse V de >>= fun _ =>
      (pure (.error e) : M D (Result ℕ))) fun _ => -ref (some dir) :=
  (charges_iput V dir).bind fun _ => (charges_brelse V de).seq fun _ => .pure (sub_self _)

theorem charges_sysRmdir (name : List UInt8) :
    Charges counts (sysRmdir V current name) fun _ => 0 := by
  unfold sysRmdir
  refine .ite (fun _ => .pure rfl) fun _ => (charges_dirNamei V current name).bind fun r => ?_
  rcases r with - | ⟨dir, basename⟩
  · exact .pure (sub_self _)
  refine .ite (fun _ => charges_iput_error V dir _ (by simp)) fun _ => ?_
  refine (charges_findEntry V dir basename).seq fun r => ?_
  rcases r with - | de
  · exact charges_iput_error V dir _ (by simp)
  refine .get_bind fun s => .ite (fun _ => ?_) fun _ => ?_
  · exact (charges_put_brelse V dir de _).congr fun _ => by simp
  refine (charges_entryInode V de).seq fun nr => (charges_iget V _ nr).bind fun r => ?_
  rcases r with - | k
  · exact (charges_put_brelse V dir de _).congr fun _ => by simp
  have hboth (e : Errno) : Charges counts (putBoth V dir de k e) fun _ =>
      0 - dirRef (some (dir, basename)) - ref (some k) :=
    (charges_putBoth V dir de k e).congr fun _ => by simp
  refine .get_bind fun s => .ite (fun _ => hboth _) fun _ => .ite (fun _ => hboth _) fun _ => ?_
  refine (charges_emptyDir V k).seq fun empty => .ite (fun _ => hboth _) fun _ => ?_
  refine (charges_setEntry V de 0).seq fun _ => (charges_brelse V de).seq fun _ => ?_
  refine (charges_edit k _).seq fun _ => (charges_setDirt k true).seq fun _ => ?_
  refine (charges_edit dir _).seq fun _ => (charges_setDirt dir true).seq fun _ => ?_
  refine (charges_iput V dir).bind fun _ => (charges_iput V k).bind fun _ => .pure ?_
  rw [dirRef_some]
  abel

theorem charges_sysUnlink (name : List UInt8) :
    Charges counts (sysUnlink V current name) fun _ => 0 := by
  unfold sysUnlink
  refine (charges_dirNamei V current name).bind fun r => ?_
  rcases r with - | ⟨dir, basename⟩
  · exact .pure (sub_self _)
  refine .get_bind fun s => .ite (fun _ => ?_) fun _ => .ite (fun _ => ?_) fun _ => ?_
  · exact charges_iput_error V dir _ (by simp)
  · exact charges_iput_error V dir _ (by simp)
  refine (charges_findEntry V dir basename).seq fun r => ?_
  rcases r with - | de
  · exact charges_iput_error V dir _ (by simp)
  refine (charges_entryInode V de).seq fun nr => (charges_iget V _ nr).bind fun r => ?_
  rcases r with - | k
  · exact (charges_put_brelse V dir de _).congr fun _ => by simp
  refine .get_bind fun s => .ite (fun _ => ?_) fun _ => ?_
  · exact (charges_putBoth V dir de k _).congr fun _ => by simp
  have hrest : Charges counts (setEntry V de 0 >>= fun _ => brelse V de >>= fun _ =>
      edit k (fun i => { i with nlinks := (i.nlinks + 255) % 256 }) >>= fun _ =>
      setDirt k true >>= fun _ => iput V k >>= fun _ => iput V dir >>= fun _ =>
      (pure (.ok 0) : M D (Result ℕ))) fun _ =>
        0 - dirRef (some (dir, basename)) - ref (some k) := by
    refine (charges_setEntry V de 0).seq fun _ => (charges_brelse V de).seq fun _ => ?_
    refine (charges_edit k _).seq fun _ => (charges_setDirt k true).seq fun _ => ?_
    exact (charges_iput V k).bind fun _ => (charges_iput V dir).bind fun _ => .pure (by simp)
  exact .ite (fun _ => (charges_edit k _).seq fun _ => hrest) fun _ => hrest

theorem charges_sysLink (oldname newname : List UInt8) :
    Charges counts (sysLink V current oldname newname) fun _ => 0 := by
  unfold sysLink
  refine (charges_namei V current oldname).bind fun r => ?_
  rcases r with - | k
  · exact .pure (sub_self _)
  refine .get_bind fun s => .ite (fun _ => charges_iput_error V k _ (by simp)) fun _ => ?_
  refine (charges_dirNamei V current newname).bind fun r => ?_
  rcases r with - | ⟨dir, basename⟩
  · exact charges_iput_error V k _ (by simp)
  have hdk (e : Errno) : Charges counts (iput V dir >>= fun _ => iput V k >>= fun _ =>
      (pure (.error e) : M D (Result ℕ))) fun _ =>
        0 - ref (some k) - dirRef (some (dir, basename)) :=
    (charges_iput V dir).bind fun _ => charges_iput_error V k _ (by simp)
  refine .get_bind fun s => .ite (fun _ => ?_) fun _ => ?_
  · refine (charges_iput V k).bind fun _ => charges_iput_error V dir _ ?_
    rw [dirRef_some]
    abel
  refine .ite (fun _ => hdk _) fun _ => .ite (fun _ => hdk _) fun _ => ?_
  refine (charges_findEntry V dir basename).seq fun r => ?_
  rcases r with - | de
  · refine (charges_addEntry V dir basename).seq fun r => ?_
    rcases r with - | de
    · exact hdk _
    refine .get_bind fun s => (charges_setEntry V de _).seq fun _ => ?_
    refine (charges_brelse V de).seq fun _ => (charges_iput V dir).bind fun _ => ?_
    refine (charges_edit k _).seq fun _ => (charges_setDirt k true).seq fun _ => ?_
    exact (charges_iput V k).bind fun _ => .pure (by simp)
  · exact (charges_brelse V de).seq fun _ => hdk _

end Linux001.Inodes
