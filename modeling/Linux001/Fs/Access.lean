import Linux001.Fs.Calls
import Linux001.Lib.Frames
import Mathlib.Tactic.IntervalCases

/-!
# Files change only with write permission

`open_namei` checks the permission to write that the access mode of an open asks for, where who
truncates a file asks to write it. The access mode is kept in `f_flags`, is inherited through `dup`
and `fork`, and would have to be looked at again by `sys_write`. The runs of this module are those
of processes that open, read, write, position, duplicate and close descriptors and that fork; a
ghost keeps for every entry of the file table the open that has filled it.

## Main definitions

* `Devices`: the functions for device files, which are parameters.
* `sysRead`, `sysWriteTo`, `sysDup`, `share`: the calls that are not in `Fs.Calls`.
* `Grant`, `openNameiGrant`: what `open_namei` has made sure of when it returns an inode.
* `Traced`, `Traced.Step`: the runs, with the opens of the entries of the file table.

## Main results

* `openNamei_eq`: the ghost of `open_namei` goes unnoticed.
* `Traced.write_permitted`: a write is through a file that was opened for writing, with the
  permission checked, or created, if and only if the open has asked to write or truncate it, or has
  found no file of the name.
* `Traced.not_write_permitted`: a file that was opened for reading only is written.
-/

namespace Linux001.Fs

/-! ### Reading, writing and duplicating -/

/-- The functions that `sys_read` and `sys_write` call for device files, as far as they concern the
file system. The functions for block devices return the new position as well. -/
structure Devices where
  rwChar : (write : Bool) → (dev : ℕ) → (buf : ℕ → UInt8) → (count : ℕ) → M Result
  blockRead : (dev pos count : ℕ) → M (Result × ℕ)
  blockWrite : (dev pos : ℕ) → (buf : ℕ → UInt8) → (count : ℕ) → M (Result × ℕ)

variable (sb : Super) (dev : Devices)

/-- The loop of `file_read`, with the bytes that have been read. Every turn reads at least one, so
that `left` turns are enough. -/
def fileReadFrom (n : ℕ) : ℕ → ℕ → ℕ → List UInt8 → M (ℕ × List UInt8)
  | 0, pos, _, bytes => pure (pos, bytes)
  | fuel + 1, pos, left, bytes =>
    if left = 0 then pure (pos, bytes)
    else do
      let nr ← bmap sb n (pos / 1024)
      let chars := min (1024 - pos % 1024) left
      if nr = 0 then
        fileReadFrom n fuel (pos + chars) (left - chars) (bytes ++ List.replicate chars 0)
      else do
        bread nr
        let s ← get
        let new := (List.range chars).map fun i => s.data nr (pos % 1024 + i)
        brelse nr
        fileReadFrom n fuel (pos + chars) (left - chars) (bytes ++ new)

/-- `file_read(inode, filp, buf, count)`: the bytes that are put into the buffer. -/
def fileRead (n : ℕ) (f : Fin 64) (count : ℕ) : K (Except Errno (List UInt8)) := do
  let S ← get
  let r ← onFs (fileReadFrom sb n count (S.files f).pos count [])
  setFile f fun v => { v with pos := r.1 }
  if r.2 = [] then pure (.error .ERROR) else pure (.ok r.2)

/-- `sys_read(fd, buf, count)`, on an open file. The check `verify_area` of the buffer is not about
the file system. -/
def sysRead (t : Fin 64) (fd : ℕ) (count : ℤ) : K Result := do
  let S ← get
  if h : fd < 20 then
    match (S.tasks t).filp ⟨fd, h⟩ with
    | none => pure (.error .EINVAL)
    | some f =>
      if count < 0 then pure (.error .EINVAL)
      else if count = 0 then pure (.ok 0)
      else
        let n := (S.files f).inode
        let i := S.fs.ino n
        if sIschr i.mode then onFs (dev.rwChar false (i.zone 0) (fun _ => 0) count.toNat)
        else if sIsblk i.mode then do
          let r ← onFs (dev.blockRead (i.zone 0) (S.files f).pos count.toNat)
          setFile f fun v => { v with pos := r.2 }
          pure r.1
        else if sIsdir i.mode || sIsreg i.mode then
          let left : ℤ := if (i.size : ℤ) < count + (S.files f).pos then
            i.size - (S.files f).pos else count
          if left ≤ 0 then pure (.ok 0)
          else do
            let r ← fileRead sb n f left.toNat
            pure (r.map List.length)
        else pure (.error .EINVAL)
  else pure (.error .EINVAL)

/-- `sys_write(fd, buf, count)`, on an open file, with the functions for device files. -/
def sysWriteTo (t : Fin 64) (fd : ℕ) (buf : ℕ → UInt8) (count : ℤ) : K Result := do
  let S ← get
  if h : fd < 20 then
    match (S.tasks t).filp ⟨fd, h⟩ with
    | none => pure (.error .EINVAL)
    | some f =>
      if count < 0 then pure (.error .EINVAL)
      else if count = 0 then pure (.ok 0)
      else
        let n := (S.files f).inode
        let i := S.fs.ino n
        if sIschr i.mode then onFs (dev.rwChar true (i.zone 0) buf count.toNat)
        else if sIsblk i.mode then do
          let r ← onFs (dev.blockWrite (i.zone 0) (S.files f).pos buf count.toNat)
          setFile f fun v => { v with pos := r.2 }
          pure r.1
        else if sIsreg i.mode then fileWrite sb n f buf count.toNat
        else pure (.error .EINVAL)
  else pure (.error .EINVAL)

/-- `f->f_count++`. -/
def incFile (f : Fin 64) : K Unit := setFile f fun v => { v with count := v.count + 1 }

/-- `sys_dup(fildes)`, that is `dupfd(fildes, 0)`. -/
def sysDup (t : Fin 64) (fildes : ℕ) : K Result := do
  let S ← get
  if h : fildes < 20 then
    match (S.tasks t).filp ⟨fildes, h⟩ with
    | none => pure (.error .EBADF)
    | some f =>
      match (List.finRange 20).find? fun fd => (S.tasks t).filp fd = none with
      | none => pure (.error .EMFILE)
      | some fd => do
        setTask t fun c => { c with closeOnExec := Function.update c.closeOnExec fd false }
        setFilp t fd (some f)
        incFile f
        pure (.ok fd)
  else pure (.error .EBADF)

/-- The part of `copy_process` that concerns files and inodes, for the child in the slot `nr`. -/
def share (t nr : Fin 64) : K Unit := do
  let S ← get
  setTask nr fun _ => { S.tasks t with leader := false }
  (List.finRange 20).forM fun fd =>
    match (S.tasks t).filp fd with
    | none => pure ()
    | some f => incFile f
  onFs (modify fun s => { s with
    count := Function.update s.count (S.tasks t).pwd (s.count (S.tasks t).pwd + 1) })
  onFs (modify fun s => { s with
    count := Function.update s.count (S.tasks t).root (s.count (S.tasks t).root + 1) })

/-! ### What `open_namei` makes sure of -/

/-- Why `open_namei` has returned an inode: it is a directory that the name ends with, a file that
has been created, or a file whose permissions the task has passed. -/
inductive Grant
  | directory
  | created
  | checked (current : Task) (i : Inode)

/-- The flags with which `open_namei` goes on: who truncates a file writes it. -/
def openFlag (flag : UInt16) : UInt16 :=
  if flag &&& O_TRUNC ≠ 0 ∧ flag &&& O_ACCMODE = 0 then flag ||| O_WRONLY else flag

/-- With this grant, a file may be opened with the flags. -/
def Grant.Allows (flag : UInt16) : Grant → Prop
  | .directory => openFlag flag &&& O_ACCMODE = 0
  | .created => True
  | .checked current i => openFlag flag &&& O_ACCMODE ≠ 0 → permission current i MAY_WRITE ≠ 0

/-- The directory of the name is there, and it has no entry of that name. -/
def isMissing (current : Task) (pathname : List UInt8) (s : State) : Bool :=
  match dirNamei sb current pathname s with
  | .ok (some (dir, basename), s) =>
    basename ≠ [] && match findEntry sb dir basename s with
      | .ok (none, _) => true
      | _ => false
  | _ => false

/-- `open_namei`, with the reason for its result. -/
def openNameiGrant (current : Task) (pathname : List UInt8) (flag mode : UInt16) :
    M (Except Errno (ℕ × Grant)) := do
  let flag := if flag &&& O_TRUNC ≠ 0 ∧ flag &&& O_ACCMODE = 0 then flag ||| O_WRONLY else flag
  let mode := mode &&& 0o777 &&& ~~~current.umask ||| 0o100000
  match ← dirNamei sb current pathname with
  | none => pure (.error .ENOENT)
  | some (dir, basename) =>
    if basename = [] then
      if flag &&& (O_ACCMODE ||| O_CREAT ||| O_TRUNC) = 0 then pure (.ok (dir, .directory))
      else do
        iput sb dir
        pure (.error .EISDIR)
    else do
      match ← findEntry sb dir basename with
      | none => do
        let r ← openCreate sb current dir basename flag mode
        pure (r.map fun n => (n, .created))
      | some de => do
        let s ← get
        let inr := entryInode (s.data de.1) de.2
        brelse de.1
        iput sb dir
        if flag &&& O_EXCL ≠ 0 then pure (.error .EEXIST)
        else do
          iget sb inr
          let s ← get
          if (sIsdir (s.ino inr).mode ∧ flag &&& O_ACCMODE ≠ 0) ∨
              permission current (s.ino inr) (accMode flag) ≠ accMode flag then do
            iput sb inr
            pure (.error .EPERM)
          else do
            if flag &&& O_TRUNC ≠ 0 then truncate sb inr else pure ()
            pure (.ok (inr, .checked current (s.ino inr)))

/-- The reason is a ghost: without it, this is `open_namei`. -/
theorem openNamei_eq (current : Task) (pathname : List UInt8) (flag mode : UInt16) :
    openNamei sb current pathname flag mode =
      openNameiGrant sb current pathname flag mode >>= fun r => pure (r.map Prod.fst) := by
  unfold openNamei openNameiGrant
  extract_lets flag' mode'
  rw [bind_assoc]
  refine bind_congr fun r => ?_
  rcases r with - | ⟨dir, basename⟩
  · rfl
  dsimp only
  by_cases hbase : basename = []
  · rw [if_pos hbase, if_pos hbase]
    split_ifs
    · rfl
    · rw [bind_assoc]
      rfl
  rw [if_neg hbase, if_neg hbase, bind_assoc]
  refine bind_congr fun r => ?_
  rcases r with - | de
  · dsimp only
    rw [bind_assoc]
    refine (bind_pure _).symm.trans (bind_congr fun r => ?_)
    rcases r with e | n <;> rfl
  · simp only [bind_assoc]
    refine bind_congr fun s => bind_congr fun _ => bind_congr fun _ => ?_
    by_cases hexcl : flag' &&& O_EXCL ≠ 0
    · rw [if_pos hexcl, if_pos hexcl]
      rfl
    rw [if_neg hexcl, if_neg hexcl]
    simp only [bind_assoc]
    refine bind_congr fun _ => bind_congr fun s => ?_
    split_ifs
    · rw [bind_assoc]
      rfl
    · rw [bind_assoc]
      rfl
    · rfl

theorem permission_eq (current : Task) {i : Inode} (h : i.nlinks ≠ 0) :
    ∃ mode, ∀ mask, permission current i mask = mode &&& mask &&& 7 :=
  ⟨_, fun _ => if_neg h⟩

/-- The permissions that an access mode with writing asks for include that to write. -/
theorem may_write_of_accMode {current : Task} {i : Inode} {flag : UInt16}
    (hflag : flag &&& O_ACCMODE ≠ 0)
    (h : permission current i (accMode flag) = accMode flag) :
    permission current i MAY_WRITE ≠ 0 := by
  have hlt : (flag &&& O_ACCMODE).toNat < 4 := by
    rw [UInt16.toNat_and]
    exact lt_of_le_of_lt Nat.and_le_right (by decide)
  have hne : (flag &&& O_ACCMODE).toNat ≠ 0 := fun hc => hflag (UInt16.toNat_inj.mp hc)
  have hmask : accMode flag = 2 ∨ accMode flag = 6 ∨ accMode flag = 0o377 := by
    rw [accMode]
    interval_cases (flag &&& O_ACCMODE).toNat
    · exact absurd rfl hne
    · exact .inl rfl
    · exact .inr (.inl rfl)
    · exact .inr (.inr rfl)
  by_cases hlinks : i.nlinks = 0
  · rw [permission, if_pos hlinks] at h
    rcases hmask with hm | hm | hm <;> rw [hm] at h <;> cases h
  obtain ⟨mode, hmode⟩ := permission_eq current hlinks
  rw [hmode] at h ⊢
  rcases hmask with hm | hm | hm <;> rw [hm] at h
  · rw [MAY_WRITE, h]
    decide
  · have hbit : mode &&& 2 &&& 7 = (mode &&& 6 &&& 7) &&& 2 := by
      simp only [UInt16.and_assoc]
      rfl
    rw [MAY_WRITE, hbit, h]
    decide
  · have hbit : (mode &&& 0o377 &&& 7) &&& 8 = 0 := by
      simp only [UInt16.and_assoc]
      exact UInt16.and_zero
    rw [h] at hbit
    cases hbit

/-- An access mode that includes writing, after `O_TRUNC` has been looked at. -/
theorem openFlag_accmode (flag : UInt16) :
    openFlag flag &&& O_ACCMODE ≠ 0 ↔ flag &&& (O_ACCMODE ||| O_TRUNC) ≠ 0 := by
  have hor : flag &&& (O_ACCMODE ||| O_TRUNC) = flag &&& O_ACCMODE ||| flag &&& O_TRUNC :=
    UInt16.eq_of_toBitVec_eq BitVec.and_or_distrib_left
  rw [hor, Ne, Ne, UInt16.or_eq_zero_iff, openFlag]
  split_ifs with h
  · have hbit : (flag ||| O_WRONLY) &&& O_ACCMODE = flag &&& O_ACCMODE ||| O_WRONLY :=
      UInt16.eq_of_toBitVec_eq BitVec.and_or_distrib_right
    rw [hbit, h.2]
    exact iff_of_true (by decide) fun hc => h.1 hc.2
  · refine not_congr ⟨fun hacc => ⟨hacc, ?_⟩, And.left⟩
    by_contra hc
    exact h ⟨hc, hacc⟩

/-- `open_namei` has made sure of what the flags ask for, and creates a file only where there is
none. -/
theorem openNameiGrant_sound (current : Task) (pathname : List UInt8) (flag mode : UInt16)
    (s : State) : Ensures (openNameiGrant sb current pathname flag mode) s fun r _ =>
      ∀ n g, r = .ok (n, g) →
        g.Allows flag ∧ (isMissing sb current pathname s = true ↔ g = .created) := by
  unfold openNameiGrant
  extract_lets flag' mode'
  have hflag' : openFlag flag = flag' := rfl
  refine Ensures.self.bind fun r s₁ hdir => ?_
  rcases r with - | ⟨dir, basename⟩
  · exact ensures_pure.mpr fun _ _ h => nomatch h
  refine ensures_ite (fun hbase => ?_) fun hbase => Ensures.self.bind fun r s₂ hfind => ?_
  · refine ensures_ite (fun h => ?_) fun _ => ?_
    · refine ensures_pure.mpr fun n g hr => ?_
      rw [← (Prod.mk.inj (Except.ok.inj hr)).2]
      refine ⟨?_, iff_of_false (fun hc => ?_) fun hc => nomatch hc⟩
      · have hbit : flag' &&& O_ACCMODE =
            (flag' &&& (O_ACCMODE ||| O_CREAT ||| O_TRUNC)) &&& O_ACCMODE := by
          rw [UInt16.and_assoc]
          rfl
        rw [Grant.Allows, hflag', hbit, h, UInt16.zero_and]
      · rw [isMissing, hdir] at hc
        exact of_decide_eq_true ((Bool.and_eq_true _ _).mp hc).1 hbase
    · exact Ensures.self.bind fun _ _ _ => ensures_pure.mpr fun _ _ h => nomatch h
  rcases r with - | de
  · refine Ensures.self.bind fun r s₃ _ => ensures_pure.mpr fun n g hr => ?_
    rcases r with e | k
    · cases hr
    · rw [← (Prod.mk.inj (Except.ok.inj hr)).2]
      refine ⟨trivial, iff_of_true ?_ rfl⟩
      rw [isMissing, hdir]
      dsimp only
      rw [hfind, decide_eq_true hbase]
      rfl
  · have hmissing : isMissing sb current pathname s = false := by
      rw [isMissing, hdir]
      dsimp only
      rw [hfind]
      exact Bool.and_false _
    refine ensures_get_bind.mpr (Ensures.self.bind fun _ s₃ _ => Ensures.self.bind fun _ s₄ _ => ?_)
    refine ensures_ite (fun _ => ensures_pure.mpr fun _ _ h => nomatch h) fun _ => ?_
    refine Ensures.self.bind fun _ s₅ _ => ensures_get_bind.mpr ?_
    refine ensures_ite (fun _ => ?_) fun h => ?_
    · exact Ensures.self.bind fun _ _ _ => ensures_pure.mpr fun _ _ h => nomatch h
    · have hgrant : (Grant.checked current (s₅.ino (entryInode (s₂.data de.1) de.2))).Allows flag :=
        fun hacc => may_write_of_accMode hacc (not_not.mp (not_or.mp h).2)
      have hend {s' : State} : Ensures (pure (Except.ok (entryInode (s₂.data de.1) de.2,
          Grant.checked current (s₅.ino (entryInode (s₂.data de.1) de.2)))) :
            M (Except Errno (ℕ × Grant))) s' fun r _ =>
          ∀ n g, r = .ok (n, g) →
            g.Allows flag ∧ (isMissing sb current pathname s = true ↔ g = .created) := by
        refine ensures_pure.mpr fun n g hr => ?_
        rw [← (Prod.mk.inj (Except.ok.inj hr)).2]
        refine ⟨hgrant, iff_of_false ?_ fun hc => nomatch hc⟩
        rw [hmissing]
        exact Bool.false_ne_true
      exact ensures_ite (fun _ => Ensures.self.bind fun _ _ _ => hend) fun _ => hend

/-! ### Runs -/

namespace Access

/-- The calls of a process. `mem` tells whether `fork` finds memory. -/
inductive Call
  | open (filename : List UInt8) (flag mode : UInt16)
  | read (fd : ℕ) (count : ℤ)
  | write (fd : ℕ) (buf : ℕ → UInt8) (count : ℤ)
  | lseek (fd : ℕ) (offset : ℤ) (origin : ℕ)
  | dup (fildes : ℕ)
  | close (fd : ℕ)
  | fork (mem : Bool)

/-- The open that has filled an entry of the file table: its flags, whether it has found no file of
the name, and what `open_namei` has returned. -/
structure Opening where
  flag : UInt16
  missing : Bool
  inode : ℕ
  grant : Grant

/-- The file has been created, or it has been opened for writing and the permission to write it has
been checked. -/
def Opening.Permitted (o : Opening) : Prop :=
  o.grant = .created ∨ openFlag o.flag &&& O_ACCMODE ≠ 0 ∧
    ∃ c i, o.grant = .checked c i ∧ permission c i MAY_WRITE ≠ 0

/-- The process has asked to write or to truncate the file, or there was none. -/
def Opening.Asks (o : Opening) : Prop :=
  o.flag &&& (O_ACCMODE ||| O_TRUNC) ≠ 0 ∨ o.missing = true

/-- `open_namei` has made sure of what the open asks for. -/
structure Opening.Sound (o : Opening) : Prop where
  allows : o.grant.Allows o.flag
  missing : o.missing = true ↔ o.grant = .created

/-- An open is permitted to write exactly if it has asked for it. -/
theorem Opening.Sound.permitted_iff {o : Opening} (h : o.Sound) : o.Permitted ↔ o.Asks := by
  obtain ⟨flag, missing, n, g⟩ := o
  obtain ⟨hallows, hmissing⟩ := h
  rw [Opening.Permitted, Opening.Asks, hmissing, ← openFlag_accmode, or_comm]
  refine or_congr_left' fun hg => ⟨And.left, fun hacc => ⟨hacc, ?_⟩⟩
  cases g with
  | directory => exact absurd hallows hacc
  | created => exact absurd rfl hg
  | checked c i => exact ⟨c, i, rfl, hallows hacc⟩

end Access

open Access

/-- `current->filp[fd]`, for any number `fd`. -/
def System.handle (S : System) (t : Fin 64) (fd : ℕ) : Option (Fin 64) :=
  if h : fd < 20 then (S.tasks t).filp ⟨fd, h⟩ else none

/-- The system, the slots of the task table that are in use, and the ghost: for each entry of the
file table, the open that has filled it. -/
structure Traced where
  sys : System
  alive : Fin 64 → Bool
  opened : Fin 64 → Option Opening

namespace Traced

variable (S : Traced) (t : Fin 64)

/-- What `open_namei` finds when the task opens a file now. -/
def opening (filename : List UInt8) (flag mode : UInt16) : Option Opening :=
  let c := S.sys.tasks t
  match openNameiGrant sb c filename flag (mode &&& 0o777 &&& ~~~c.umask) S.sys.fs with
  | .ok (.ok (n, g), _) => some ⟨flag, isMissing sb c filename S.sys.fs, n, g⟩
  | _ => none

/-- The search of `find_empty_process` for an empty slot. -/
def findEmpty : Option (Fin 64) := (List.finRange 64).find? fun i => i ≠ 0 && !S.alive i

/-- The state after code that opens no file. -/
def after (m : K Result) : Except Fault (Result × Traced) :=
  (m S.sys).map fun r => (r.1, { S with sys := r.2 })

/-- A call of the task `t`, from its start to its return. -/
def perform : Access.Call → Except Fault (Result × Traced)
  | .open filename flag mode => (sysOpen sb t filename flag mode S.sys).map fun r =>
    (r.1, { S with
      sys := r.2
      opened := fun f => match r.1 with
        | .ok fd => if r.2.handle t fd = some f then S.opening sb t filename flag mode
          else S.opened f
        | .error _ => S.opened f })
  | .read fd count => S.after (sysRead sb dev t fd count)
  | .write fd buf count => S.after (sysWriteTo sb dev t fd buf count)
  | .lseek fd offset origin => S.after (sysLseek t fd offset origin)
  | .dup fildes => S.after (sysDup t fildes)
  | .close fd => S.after (sysClose sb t fd)
  | .fork mem =>
    match S.findEmpty with
    | none => .ok (.error .EAGAIN, S)
    | some nr =>
      if mem then (share t nr S.sys).map fun r =>
        (.ok nr, { S with sys := r.2, alive := Function.update S.alive nr true })
      else .ok (.error .EAGAIN, S)

/-- A process makes a call, which returns. -/
def Step (S : Traced) (e : Fin 64 × Access.Call) (S' : Traced) : Prop :=
  S.alive e.1 = true ∧ ∃ r, S.perform sb dev e.1 e.2 = .ok (r, S')

/-- No file is open. -/
def Initial (S : Traced) : Prop := ∀ t fd, (S.sys.tasks t).filp fd = none

/-- Every descriptor refers to an entry that an open has filled, and that has its flags and its
inode. -/
def Known (S : Traced) : Prop :=
  ∀ t fd f, (S.sys.tasks t).filp fd = some f → ∃ o, S.opened f = some o ∧
    (S.sys.files f).flags = o.flag ∧ (S.sys.files f).inode = o.inode ∧ o.Sound

end Traced

/-! ### What the calls do to descriptors -/

/-- Descriptors refer to entries that descriptors have referred to, and these have the same flags
and inodes. -/
structure System.Inherits (S S' : System) : Prop where
  filp : ∀ t fd f, (S'.tasks t).filp fd = some f → ∃ t' fd', (S.tasks t').filp fd' = some f
  flags : ∀ f, (S'.files f).flags = (S.files f).flags
  inode : ∀ f, (S'.files f).inode = (S.files f).inode

namespace System.Inherits

variable {S S' S'' : System} {t : Fin 64}

theorem refl (S : System) : Inherits S S := ⟨fun t fd _ h => ⟨t, fd, h⟩, fun _ => rfl, fun _ => rfl⟩

theorem trans (h : Inherits S S') (h' : Inherits S' S'') : Inherits S S'' where
  filp t fd f hf := by
    obtain ⟨t', fd', hf'⟩ := h'.filp t fd f hf
    exact h.filp t' fd' f hf'
  flags f := (h'.flags f).trans (h.flags f)
  inode f := (h'.inode f).trans (h.inode f)

theorem bind {α β : Type} {m : K α} {k : α → K β}
    (h : Ensures m S fun _ S' => Inherits S S')
    (hk : ∀ a S', Ensures (k a) S' fun _ S'' => Inherits S' S'') :
    Ensures (m >>= k) S fun _ S'' => Inherits S S'' :=
  Ensures.bind h fun a S' hS => (hk a S').mono fun _ _ hS' => hS.trans hS'

theorem onFs {α : Type} (m : M α) (S : System) :
    Ensures (Fs.onFs m) S fun _ S' => Inherits S S' :=
  ensures_onFs fun _ _ _ => ⟨fun t fd _ h => ⟨t, fd, h⟩, fun _ => rfl, fun _ => rfl⟩

theorem pure {α : Type} (a : α) (S : System) :
    Ensures (Pure.pure a : K α) S fun _ S' => Inherits S S' := ensures_pure.mpr (refl S)

theorem setFile (f : Fin 64) (g : File → File) (hflags : ∀ v, (g v).flags = v.flags)
    (hinode : ∀ v, (g v).inode = v.inode) (S : System) :
    Ensures (Fs.setFile f g) S fun _ S' => Inherits S S' := by
  refine ensures_modify.mpr ⟨fun t fd _ h => ⟨t, fd, h⟩, fun f' => ?_, fun f' => ?_⟩
  · dsimp only
    rw [Function.update_apply]
    split_ifs with hf
    · rw [hflags, hf]
    · rfl
  · dsimp only
    rw [Function.update_apply]
    split_ifs with hf
    · rw [hinode, hf]
    · rfl

theorem setPos (f : Fin 64) (p : ℕ) (S : System) :
    Ensures (Fs.setFile f fun v => { v with pos := p }) S fun _ S' => Inherits S S' :=
  setFile f (fun v => { v with pos := p }) (fun _ => rfl) (fun _ => rfl) S

theorem setCount (f : Fin 64) (c : File → ℕ) (S : System) :
    Ensures (Fs.setFile f fun v => { v with count := c v }) S fun _ S' => Inherits S S' :=
  setFile f (fun v => { v with count := c v }) (fun _ => rfl) (fun _ => rfl) S

theorem forM {γ : Type} {l : List γ} {k : γ → K Unit}
    (hk : ∀ c S, Ensures (k c) S fun _ S' => Inherits S S') (S : System) :
    Ensures (l.forM k) S fun _ S' => Inherits S S' := by
  induction l generalizing S with
  | nil => exact pure _ S
  | cons c l ih => exact bind (hk c S) fun _ S' => ih S'

/-- A task gets descriptors that some task has. -/
theorem setTask {t : Fin 64} {g : Task → Task} {S : System}
    (hg : ∀ fd f, (g (S.tasks t)).filp fd = some f → ∃ t' fd', (S.tasks t').filp fd' = some f) :
    Ensures (Fs.setTask t g) S fun _ S' => Inherits S S' := by
  refine ensures_modify.mpr ⟨fun t' fd f hf => ?_, fun _ => rfl, fun _ => rfl⟩
  dsimp only at hf
  rw [Function.update_apply] at hf
  split_ifs at hf
  · exact hg fd f hf
  · exact ⟨t', fd, hf⟩

theorem setFilp {t : Fin 64} {fd : Fin 20} {o : Option (Fin 64)} {S : System}
    (ho : ∀ f, o = some f → ∃ t' fd', (S.tasks t').filp fd' = some f) :
    Ensures (Fs.setFilp t fd o) S fun _ S' => Inherits S S' := by
  refine setTask fun fd' f hf => ?_
  dsimp only at hf
  rw [Function.update_apply] at hf
  split_ifs at hf
  · exact ho f hf
  · exact ⟨t, fd', hf⟩

/-! ### The calls one by one -/

variable (t : Fin 64) (S : System)

theorem fileRead (n : ℕ) (f : Fin 64) (count : ℕ) :
    Ensures (Fs.fileRead sb n f count) S fun _ S' => Inherits S S' := by
  refine ensures_get_bind.mpr (bind (onFs _ _) fun r S₁ => ?_)
  refine bind (setPos f _ _) fun _ S₂ => ?_
  exact ensures_ite (fun _ => pure _ _) fun _ => pure _ _

theorem sysRead (fd : ℕ) (count : ℤ) :
    Ensures (Fs.sysRead sb dev t fd count) S fun _ S' => Inherits S S' := by
  refine ensures_get_bind.mpr (ensures_dite (fun h => ?_) fun _ => pure _ _)
  cases (S.tasks t).filp ⟨fd, h⟩ with
  | none => exact pure _ _
  | some f =>
    refine ensures_ite (fun _ => pure _ _) fun _ => ensures_ite (fun _ => pure _ _) fun _ => ?_
    refine ensures_ite (fun _ => onFs _ _) fun _ => ensures_ite (fun _ => ?_) fun _ => ?_
    · refine bind (onFs _ _) fun r S₁ => ?_
      exact bind (setPos f _ _) fun _ S₂ => pure _ _
    · refine ensures_ite (fun _ => ensures_ite (fun _ => pure _ _) fun _ => ?_) fun _ => pure _ _
      exact bind (fileRead sb _ _ f _) fun _ _ => pure _ _

theorem fileWrite (n : ℕ) (f : Fin 64) (buf : ℕ → UInt8) (count : ℕ) :
    Ensures (Fs.fileWrite sb n f buf count) S fun _ S' => Inherits S S' := by
  refine ensures_get_bind.mpr (bind (onFs _ _) fun r S₁ => ?_)
  have hend (S₂ : System) : Ensures (if r.2 = 0 then Pure.pure (.error .EPERM) else
      Pure.pure (.ok r.2) : K Result) S₂ fun _ S' => Inherits S₂ S' :=
    ensures_ite (fun _ => pure _ _) fun _ => pure _ _
  refine ensures_ite (fun _ => hend _) fun _ => bind ?_ fun _ S₂ => hend S₂
  exact setPos f _ _

theorem sysWriteTo (fd : ℕ) (buf : ℕ → UInt8) (count : ℤ) :
    Ensures (Fs.sysWriteTo sb dev t fd buf count) S fun _ S' => Inherits S S' := by
  refine ensures_get_bind.mpr (ensures_dite (fun h => ?_) fun _ => pure _ _)
  cases (S.tasks t).filp ⟨fd, h⟩ with
  | none => exact pure _ _
  | some f =>
    refine ensures_ite (fun _ => pure _ _) fun _ => ensures_ite (fun _ => pure _ _) fun _ => ?_
    refine ensures_ite (fun _ => onFs _ _) fun _ => ensures_ite (fun _ => ?_) fun _ => ?_
    · refine bind (onFs _ _) fun r S₁ => ?_
      exact bind (setPos f _ _) fun _ S₂ => pure _ _
    · exact ensures_ite (fun _ => fileWrite sb _ _ f buf _) fun _ => pure _ _

theorem sysLseek (fd : ℕ) (offset : ℤ) (origin : ℕ) :
    Ensures (Fs.sysLseek t fd offset origin) S fun _ S' => Inherits S S' := by
  refine ensures_get_bind.mpr (ensures_dite (fun h => ?_) fun _ => pure _ _)
  cases (S.tasks t).filp ⟨fd, h⟩ with
  | none => exact pure _ _
  | some f =>
    refine ensures_ite (fun _ => pure _ _) fun _ => ensures_ite (fun _ => pure _ _) fun _ => ?_
    exact bind (setPos f _ _) fun _ _ => pure _ _

theorem sysClose (fd : ℕ) :
    Ensures (Fs.sysClose sb t fd) S fun _ S' => Inherits S S' := by
  refine ensures_get_bind.mpr (ensures_dite (fun h => ?_) fun _ => pure _ _)
  refine bind (setTask fun fd f hf => ⟨t, fd, hf⟩) fun _ S₁ => ?_
  cases (S.tasks t).filp ⟨fd, h⟩ with
  | none => exact pure _ _
  | some f =>
    refine bind (setFilp fun _ hf => nomatch hf) fun _ S₂ => ensures_ite (fun _ => ?_) fun _ => ?_
    · exact ensures_throw
    · refine bind (setCount f _ _) fun _ S₃ => ?_
      exact ensures_ite (fun _ => pure _ _) fun _ => bind (onFs _ _) fun _ _ => pure _ _

theorem sysDup (fildes : ℕ) :
    Ensures (Fs.sysDup t fildes) S fun _ S' => Inherits S S' := by
  refine ensures_get_bind.mpr (ensures_dite (fun h => ?_) fun _ => pure _ _)
  cases hf : (S.tasks t).filp ⟨fildes, h⟩ with
  | none => exact pure _ _
  | some f =>
    dsimp only
    cases (List.finRange 20).find? fun fd => (S.tasks t).filp fd = none with
    | none => exact pure _ _
    | some fd =>
      refine ensures_modify_bind.mpr (ensures_modify_bind.mpr ?_)
      refine Ensures.bind (setCount f _ _) fun _ S₁ h₁ => ensures_pure.mpr (trans ?_ h₁)
      refine ⟨fun t' fd' f' hf' => ?_, fun _ => rfl, fun _ => rfl⟩
      dsimp only at hf'
      rw [Function.update_self, Function.update_idem, Function.update_apply] at hf'
      split_ifs at hf'
      · dsimp only at hf'
        rw [Function.update_apply] at hf'
        split_ifs at hf'
        · exact ⟨t, ⟨fildes, h⟩, hf.trans hf'⟩
        · exact ⟨t, fd', hf'⟩
      · exact ⟨t', fd', hf'⟩

theorem share (nr : Fin 64) : Ensures (Fs.share t nr) S fun _ S' => Inherits S S' := by
  refine ensures_get_bind.mpr (bind (setTask fun fd f hf => ⟨t, fd, hf⟩) fun _ S₁ => ?_)
  refine bind (forM (fun fd S₂ => ?_) S₁) fun _ S₂ => bind (onFs _ _) fun _ S₃ => onFs _ _
  cases (S.tasks t).filp fd with
  | none => exact pure _ _
  | some f => exact setCount f _ _

end System.Inherits

/-- In the midst of an open, the descriptor `i` of the task `t` refers to the entry `f`. -/
structure System.Taken (S : System) (t : Fin 64) (i : Fin 20) (f : Fin 64) (S' : System) :
    Prop where
  self : (S'.tasks t).filp i = some f
  filp : ∀ t' fd f', (S'.tasks t').filp fd = some f' →
    (t' = t ∧ fd = i ∧ f' = f) ∨ (S.tasks t').filp fd = some f'
  flags : ∀ f', (S'.files f').flags = (S.files f').flags
  inode : ∀ f', (S'.files f').inode = (S.files f').inode

namespace System.Taken

variable {S S' S'' : System} {t : Fin 64} {i : Fin 20} {f : Fin 64}

/-- Code that keeps descriptors and entries as they are. -/
theorem congr (h : S.Taken t i f S') (htasks : ∀ t, (S''.tasks t).filp = (S'.tasks t).filp)
    (hfiles : S''.files = S'.files) : S.Taken t i f S'' where
  self := (congrFun (htasks t) i).trans h.self
  filp t' fd f' hf' := h.filp t' fd f' ((congrFun (htasks t') fd).symm.trans hf')
  flags f' := hfiles ▸ h.flags f'
  inode f' := hfiles ▸ h.inode f'

/-- The descriptor is set to the entry. -/
theorem take (htasks : ∀ t, (S'.tasks t).filp = (S.tasks t).filp) (hfiles : S'.files = S.files) :
    Ensures (setFilp t i (some f)) S' fun _ S'' => S.Taken t i f S'' ∧ S''.fs = S'.fs := by
  refine ensures_modify.mpr ⟨⟨?_, fun t' fd f' hf' => ?_, fun _ => by rw [← hfiles],
    fun _ => by rw [← hfiles]⟩, rfl⟩
  · dsimp only
    rw [Function.update_self]
    exact Function.update_self _ _ _
  · dsimp only at hf'
    rw [Function.update_apply] at hf'
    split_ifs at hf' with ht
    · dsimp only at hf'
      rw [Function.update_apply] at hf'
      split_ifs at hf' with hfd
      · exact .inl ⟨ht, hfd, (Option.some.inj hf').symm⟩
      · exact .inr (by rw [← htasks, ht]; exact hf')
    · exact .inr (by rw [← htasks]; exact hf')

theorem setCount (h : S.Taken t i f S') (c : File → ℕ) :
    Ensures (setFile f fun v => { v with count := c v }) S' fun _ S'' =>
      S.Taken t i f S'' ∧ S''.fs = S'.fs := by
  refine ensures_modify.mpr ⟨⟨h.self, h.filp, fun f' => ?_, fun f' => ?_⟩, rfl⟩
  all_goals
    dsimp only
    rw [Function.update_apply]
    split_ifs with hf
  · exact (congrArg (fun f => (S'.files f).flags) hf).symm.trans (h.flags f')
  · exact h.flags f'
  · exact (congrArg (fun f => (S'.files f).inode) hf).symm.trans (h.inode f')
  · exact h.inode f'

/-- The error returns of `sys_open`. -/
theorem openFail (h : S.Taken t i f S') (e : Errno) :
    Ensures (openFail t i f e) S' fun r S'' => r = .error e ∧ S.Inherits S'' := by
  refine ensures_modify_bind.mpr ?_
  refine (System.Inherits.setCount f (fun _ => 0) _).bind fun _ S₁ h₁ => ensures_pure.mpr ⟨rfl, ?_⟩
  refine System.Inherits.trans ?_ h₁
  refine ⟨fun t' fd f' hf' => ?_, h.flags, h.inode⟩
  dsimp only at hf'
  rw [Function.update_apply] at hf'
  have hold (hne : ¬ (t' = t ∧ fd = i)) (hf' : (S'.tasks t').filp fd = some f') :
      ∃ t' fd', (S.tasks t').filp fd' = some f' :=
    (h.filp t' fd f' hf').elim (fun hc => absurd ⟨hc.1, hc.2.1⟩ hne) fun hf => ⟨t', fd, hf⟩
  split_ifs at hf' with ht
  · dsimp only at hf'
    rw [Function.update_apply] at hf'
    split_ifs at hf' with hfd
    exact hold (fun hc => hfd hc.2) (ht ▸ hf')
  · exact hold (fun hc => ht hc.1) hf'

theorem openTty (h : S.Taken t i f S') (n : ℕ) :
    Ensures (openTty t n) S' fun _ S'' => S.Taken t i f S'' := by
  refine ensures_get_bind.mpr (ensures_ite (fun _ => ensures_pure.mpr h) fun _ => ?_)
  refine ensures_ite (fun _ => ensures_ite (fun _ => ?_) fun _ => ensures_pure.mpr h) fun _ => ?_
  · refine ensures_modify_bind.mpr (ensures_modify_bind.mpr (ensures_pure.mpr ?_))
    refine h.congr (fun t' => ?_) rfl
    dsimp only
    rw [Function.update_apply]
    split_ifs with ht
    · rw [ht]
    · rfl
  · exact ensures_ite (fun _ => ensures_pure.mpr h) fun _ => ensures_pure.mpr h

end System.Taken

/-- Code of the file system, with its result. -/
theorem ensures_onFs_eq {α : Type} {m : M α} {S : System} :
    Ensures (onFs m) S fun a S' => ∃ s, m S.fs = .ok (a, s) ∧ S' = { S with fs := s } :=
  ensures_onFs fun _ s h => ⟨s, h, rfl⟩

/-- Setting a bit of `close_on_exec` keeps all descriptors. -/
theorem ensures_closeOnExec (t : Fin 64) (fd : Fin 20) (b : Bool) (S : System) :
    Ensures (setTask t fun c => { c with closeOnExec := Function.update c.closeOnExec fd b }) S
      fun _ S' => (∀ t', (S'.tasks t').filp = (S.tasks t').filp) ∧ S'.files = S.files ∧
        S'.fs = S.fs := by
  refine ensures_modify.mpr ⟨fun t' => ?_, rfl, rfl⟩
  dsimp only
  rw [Function.update_apply]
  split_ifs with ht
  · rw [ht]
  · rfl

/-- The reason for a result of `open_namei`. -/
theorem exists_grant {current : Task} {pathname : List UInt8} {flag mode : UInt16} {s s' : State}
    {n : ℕ} (h : openNamei sb current pathname flag mode s = .ok (.ok n, s')) :
    ∃ g, openNameiGrant sb current pathname flag mode s = .ok (.ok (n, g), s') := by
  rw [openNamei_eq] at h
  obtain ⟨⟨r, s₁⟩, hr, h⟩ := bind_eq_ok.mp h
  obtain ⟨hmap, rfl⟩ := Prod.mk.inj (Except.ok.inj h)
  obtain ⟨⟨k, g⟩, rfl, rfl⟩ := map_eq_ok.mp hmap
  exact ⟨g, hr⟩

/-- An open that fails leaves no new descriptor; one that succeeds fills an entry of the file table
for the descriptor that it returns. -/
theorem ensures_sysOpen (t : Fin 64) (filename : List UInt8) (flag mode : UInt16) (S : System) :
    Ensures (sysOpen sb t filename flag mode) S fun r S' =>
      (∃ e, r = .error e ∧ S.Inherits S') ∨
      ∃ (i : Fin 20) (f : Fin 64) (n : ℕ) (g : Grant) (s : State), r = .ok i.val ∧
        openNameiGrant sb (S.tasks t) filename flag (mode &&& 0o777 &&& ~~~(S.tasks t).umask) S.fs =
          .ok (.ok (n, g), s) ∧
        (S'.tasks t).filp i = some f ∧ (S'.files f).flags = flag ∧ (S'.files f).inode = n ∧
        (∀ t' fd f', (S'.tasks t').filp fd = some f' → f' = f ∨ (S.tasks t').filp fd = some f') ∧
        ∀ f', f' ≠ f → (S'.files f').flags = (S.files f').flags ∧
          (S'.files f').inode = (S.files f').inode := by
  refine ensures_get_bind.mpr ?_
  dsimp only
  cases (List.finRange 20).find? fun fd => (S.tasks t).filp fd = none with
  | none => exact ensures_pure.mpr (.inl ⟨_, rfl, .refl S⟩)
  | some i =>
    dsimp only
    cases (List.finRange 64).find? fun f => (S.files f).count = 0 with
    | none =>
      refine (System.Inherits.setTask fun fd f hf => ⟨t, fd, hf⟩).bind fun _ S₁ h₁ => ?_
      exact ensures_pure.mpr (.inl ⟨_, rfl, h₁⟩)
    | some f =>
      refine (ensures_closeOnExec t i false S).bind fun _ S₁ ⟨htasks, hfiles, hfs₁⟩ => ?_
      refine (System.Taken.take htasks hfiles).bind fun _ S₂ ⟨hT, hfs₂⟩ => ?_
      refine (hT.setCount _).bind fun _ S₃ ⟨hT, hfs₃⟩ => ?_
      have hfs : S₃.fs = S.fs := hfs₃.trans (hfs₂.trans hfs₁)
      refine ensures_onFs_eq.bind fun r S₄ ⟨s, hr, hS₄⟩ => ?_
      rw [hfs] at hr
      have hT : S.Taken t i f S₄ := hT.congr (fun _ => by rw [hS₄]) (by rw [hS₄])
      rcases r with e | n
      · exact (hT.openFail e).mono fun _ _ h => .inl ⟨e, h⟩
      obtain ⟨g, hg⟩ := exists_grant sb hr
      refine (hT.openTty n).bind fun go S₅ hT => ensures_ite (fun _ => ?_) fun _ => ?_
      · refine ensures_onFs_eq.bind fun _ S₆ ⟨s', _, hS₆⟩ => ?_
        have hT : S.Taken t i f S₆ := hT.congr (fun _ => by rw [hS₆]) (by rw [hS₆])
        exact (hT.openFail _).mono fun _ _ h => .inl ⟨_, h⟩
      · refine ensures_get_bind.mpr (ensures_modify_bind.mpr (ensures_pure.mpr (.inr ?_)))
        refine ⟨i, f, n, g, s, rfl, hg, hT.self, ?_, ?_, fun t' fd f' hf' => ?_, fun f' hf' => ?_⟩
        · dsimp only
          rw [Function.update_self]
        · dsimp only
          rw [Function.update_self]
        · exact (hT.filp t' fd f' hf').imp (fun h => h.2.2) id
        · dsimp only
          rw [Function.update_of_ne hf']
          exact ⟨hT.flags f', hT.inode f'⟩

theorem System.handle_eq_some {S : System} {t : Fin 64} {fd : ℕ} {f : Fin 64} :
    S.handle t fd = some f ↔ ∃ h : fd < 20, (S.tasks t).filp ⟨fd, h⟩ = some f := by
  unfold handle
  split_ifs with h
  · exact ⟨fun hf => ⟨h, hf⟩, fun ⟨_, hf⟩ => hf⟩
  · exact ⟨fun hf => (nomatch hf), fun ⟨hc, _⟩ => absurd hc h⟩

/-- `sys_write` changes the file system only through an open descriptor. -/
theorem ensures_sysWriteTo (t : Fin 64) (fd : ℕ) (buf : ℕ → UInt8) (count : ℤ) (S : System) :
    Ensures (sysWriteTo sb dev t fd buf count) S fun _ S' =>
      S'.fs ≠ S.fs → ∃ f, S.handle t fd = some f := by
  by_cases hopen : ∃ f, S.handle t fd = some f
  · exact Ensures.self.mono fun _ _ _ _ => hopen
  refine ensures_get_bind.mpr (ensures_dite (fun h => ?_) fun _ => ?_)
  · cases hf : (S.tasks t).filp ⟨fd, h⟩ with
    | none => exact ensures_pure.mpr fun hc => absurd rfl hc
    | some f => exact absurd ⟨f, System.handle_eq_some.mpr ⟨h, hf⟩⟩ hopen
  · exact ensures_pure.mpr fun hc => absurd rfl hc

namespace Traced

variable {sb dev} {S S' : Traced} {t : Fin 64}

theorem Known.inherit (h : S.Known) (hsys : S.sys.Inherits S'.sys)
    (hopened : S'.opened = S.opened) : S'.Known := fun t fd f hf => by
  obtain ⟨t', fd', hf'⟩ := hsys.filp t fd f hf
  rw [hsys.flags, hsys.inode, hopened]
  exact h t' fd' f hf'

theorem Known.after (h : S.Known) {m : K Result} {r : Result}
    (hm : Ensures m S.sys fun _ S' => S.sys.Inherits S') (hok : S.after m = .ok (r, S')) :
    S'.Known := by
  obtain ⟨⟨r', s⟩, hms, heq⟩ := map_eq_ok.mp hok
  rw [← (Prod.mk.inj heq).2]
  exact h.inherit (hm r' s hms) rfl

theorem Known.open (h : S.Known) {filename : List UInt8} {flag mode : UInt16} {r : Result}
    (hok : S.perform sb dev t (.open filename flag mode) = .ok (r, S')) : S'.Known := by
  obtain ⟨⟨r', s⟩, hopen, heq⟩ := map_eq_ok.mp hok
  rw [← (Prod.mk.inj heq).2]
  rcases ensures_sysOpen sb t filename flag mode S.sys r' s hopen with
    ⟨e, rfl, hsys⟩ | ⟨i, f, n, g, s', rfl, hg, hself, hflag, hinode, hfilp, hother⟩
  · exact h.inherit hsys rfl
  have hhandle : s.handle t i = some f := System.handle_eq_some.mpr ⟨i.isLt, hself⟩
  intro t' fd f' hf'
  dsimp only at hf' ⊢
  by_cases hff : f' = f
  · subst hff
    obtain ⟨hallows, hmissing⟩ := openNameiGrant_sound sb _ filename flag _ _ _ _ hg n g rfl
    refine ⟨⟨flag, isMissing sb (S.sys.tasks t) filename S.sys.fs, n, g⟩, ?_, hflag, hinode,
      hallows, hmissing⟩
    rw [if_pos hhandle, opening]
    rw [hg]
  · rw [if_neg fun hc => hff (Option.some.inj (hc.symm.trans hhandle)), (hother f' hff).1,
      (hother f' hff).2]
    exact h t' fd f' ((hfilp t' fd f' hf').resolve_left hff)

/-- **Step lemma.** Descriptors refer to entries that opens have filled. -/
theorem Known.step (h : S.Known) {e : Fin 64 × Access.Call} (hstep : Step sb dev S e S') :
    S'.Known := by
  obtain ⟨t, c⟩ := e
  obtain ⟨-, r, hok⟩ := hstep
  cases c with
  | «open» filename flag mode => exact h.open hok
  | read fd count => exact h.after (.sysRead sb dev t _ fd count) hok
  | write fd buf count => exact h.after (.sysWriteTo sb dev t _ fd buf count) hok
  | lseek fd offset origin => exact h.after (.sysLseek t _ fd offset origin) hok
  | dup fildes => exact h.after (.sysDup t _ fildes) hok
  | close fd => exact h.after (.sysClose sb t _ fd) hok
  | fork mem =>
    dsimp only [perform] at hok
    cases hnr : S.findEmpty with
    | none =>
      rw [hnr] at hok
      exact (Prod.mk.inj (Except.ok.inj hok)).2 ▸ h
    | some nr =>
      rw [hnr] at hok
      dsimp only at hok
      split_ifs at hok
      · obtain ⟨⟨u, s⟩, hshare, heq⟩ := map_eq_ok.mp hok
        rw [← (Prod.mk.inj heq).2]
        exact h.inherit (System.Inherits.share t _ nr u s hshare) rfl
      · exact (Prod.mk.inj (Except.ok.inj hok)).2 ▸ h

/-- **Files change only with write permission.** In any run, let a write change the file system. It
is through a file that an open has filled; the file has been created by the open, or opened for
writing with the permission to write it checked, if and only if the open has asked to write or to
truncate the file, or has found none of the name. -/
theorem write_permitted {S₀ : Traced} {es : List (Fin 64 × Access.Call)} {fd : ℕ}
    {buf : ℕ → UInt8} {count : ℤ} {r : Result} (h₀ : S₀.Initial)
    (h : Runs (Step sb dev) S₀ es S) (hok : S.perform sb dev t (.write fd buf count) = .ok (r, S'))
    (hchange : S'.sys.fs ≠ S.sys.fs) :
    ∃ f o, S.sys.handle t fd = some f ∧ S.opened f = some o ∧
      o.inode = (S.sys.files f).inode ∧ (o.Permitted ↔ o.Asks) := by
  have hknown : S.Known := h.invariant (I := Known) (fun _ _ _ hs hstep => hs.step hstep)
    fun t fd f hf => by rw [h₀] at hf; cases hf
  obtain ⟨⟨r', s⟩, hwrite, heq⟩ := map_eq_ok.mp hok
  rw [← (Prod.mk.inj heq).2] at hchange
  obtain ⟨f, hf⟩ := ensures_sysWriteTo sb dev t fd buf count S.sys r' s hwrite hchange
  obtain ⟨hlt, hfilp⟩ := System.handle_eq_some.mp hf
  obtain ⟨o, ho, -, hinode, hsound⟩ := hknown t ⟨fd, hlt⟩ f hfilp
  exact ⟨f, o, hf, ho, hinode.symm, hsound.permitted_iff⟩

/-! ### Two runs -/

/-- A device with 32 inodes and 64 zones. -/
def smallDevice : Super := .small

/-- No device file is read or written. -/
def noDevices : Devices := ⟨fun _ _ _ _ => throw .sleep, fun _ _ _ => throw .sleep,
  fun _ _ _ _ => throw .sleep⟩

/-- The entries `.`, `..` and `a` of the root directory. -/
def rootBlock : Block := fun j => [(0, 1), (2, 46), (16, 1), (18, 46), (19, 46), (32, 2),
  (34, 97)].lookup j |>.getD 0

/-- The device holds the root directory, in core, and a file with one byte that everybody may read
and nobody may write. -/
def readOnlyState : State where
  ino _ := ⟨0o040777, 5, 48, 5, 2, fun k => if k = 0 then 5 else 0⟩
  count n := if n = 1 then 2 else 0
  dirt _ := false
  diskIno n := if n = 2 then ⟨0o100444, 5, 1, 5, 1, fun k => if k = 0 then 6 else 0⟩ else .zero
  imap n := n < 3
  zmap n := n < 3
  cache := ⟨fun _ => none, [none, none, none], fun z => if z = 5 then rootBlock else zeroBlock,
    fun _ _ h => nomatch h⟩
  overflow := false
  destroyed := []

/-- An unprivileged process in the root directory, with no file open. -/
def userTask : Task where
  uid := 5
  euid := 5
  gid := 5
  egid := 5
  umask := 0
  pwd := 1
  root := 1
  filp _ := none
  closeOnExec _ := false
  leader := false
  tty := -1
  pgrp := 1

/-- The process 1 has no file open. -/
def readOnlySystem : Traced where
  sys := ⟨readOnlyState, fun _ => userTask, fun _ => ⟨0, 0, 0, 0, 0⟩, fun _ => 0⟩
  alive t := t = 1
  opened _ := none

theorem initial_readOnlySystem : readOnlySystem.Initial := fun _ _ => rfl

/-- The step of a process, if its call returns. -/
def next (S : Traced) (t : Fin 64) (c : Access.Call) : Option Traced :=
  match S.perform smallDevice noDevices t c with
  | .ok (_, S') => if S.alive t then some S' else none
  | .error _ => none

theorem perform_of_next {c : Access.Call} (h : next S t c = some S') :
    S.alive t = true ∧ ∃ r, S.perform smallDevice noDevices t c = .ok (r, S') := by
  unfold next at h
  split at h
  · rename_i r s hok
    split_ifs at h with halive
    exact ⟨halive, r, Option.some.inj h ▸ hok⟩
  · cases h

/-- A file that is created, without an access mode that includes writing, is written by a child of
the process that has created it. -/
theorem write_permitted_created : ∃ S S' : Traced, ∃ f o,
    Runs (Step smallDevice noDevices) readOnlySystem
      [(1, .fork true), (1, .open [98] 0o1100 0o644)] S ∧
    (∃ r, S.perform smallDevice noDevices 2 (.write 0 (fun _ => 98) 1) = .ok (r, S')) ∧
    S'.sys.fs ≠ S.sys.fs ∧ S.sys.handle 2 0 = some f ∧ S.opened f = some o ∧
    o.inode = (S.sys.files f).inode ∧ (o.Permitted ↔ o.Asks) := by
  have hexec : ((next readOnlySystem 1 (.open [98] 0o1100 0o644)).any fun S₁ =>
      (next S₁ 1 (.fork true)).any fun S =>
        (next S 2 (.write 0 (fun _ => 98) 1)).any fun S' =>
          (S'.sys.fs.ino 3).size ≠ (S.sys.fs.ino 3).size) = true := by
    decide +kernel
  obtain ⟨S₁, hS₁, hexec⟩ := (Option.any_eq_true _ _).mp hexec
  obtain ⟨S, hS, hexec⟩ := (Option.any_eq_true _ _).mp hexec
  obtain ⟨S', hS', hexec⟩ := (Option.any_eq_true _ _).mp hexec
  obtain ⟨-, r, hwrite⟩ := perform_of_next hS'
  have hruns : Runs (Step smallDevice noDevices) readOnlySystem
      [(1, .fork true), (1, .open [98] 0o1100 0o644)] S :=
    .cons (.cons .nil (perform_of_next hS₁)) (perform_of_next hS)
  have hchange : S'.sys.fs ≠ S.sys.fs := fun hc => of_decide_eq_true hexec (by rw [hc])
  obtain ⟨f, o, hopened⟩ := write_permitted initial_readOnlySystem hruns hwrite hchange
  exact ⟨S, S', f, o, hruns, ⟨r, hwrite⟩, hchange, hopened⟩

/-- The file has been opened for reading, by a process that may not write it. -/
def readOnly (S : Traced) (f : Fin 64) : Bool :=
  match S.opened f with
  | some ⟨flag, _, _, .checked c i⟩ =>
    openFlag flag &&& O_ACCMODE = 0 && permission c i MAY_WRITE = 0
  | _ => false

theorem not_permitted_of_readOnly {f : Fin 64} (h : readOnly S f = true) :
    ¬ ∃ o, S.opened f = some o ∧ o.Permitted := by
  rintro ⟨⟨flag, missing, n, g⟩, ho, hpermitted⟩
  rw [readOnly, ho] at h
  cases g with
  | checked c i =>
    rcases hpermitted with hc | ⟨hflag, -⟩
    · cases hc
    · exact hflag (of_decide_eq_true ((Bool.and_eq_true _ _).mp h).1)
  | directory | created => cases h

/-- **A file is written through a descriptor that was opened for reading.** An unprivileged process
opens a regular file that it may only read, and writes a byte of it. -/
theorem not_write_permitted : ∃ S S' : Traced, ∃ f r,
    readOnlySystem.Initial ∧
    (∀ t, (readOnlySystem.sys.tasks t).uid ≠ 0 ∧ (readOnlySystem.sys.tasks t).euid ≠ 0) ∧
    Runs (Step smallDevice noDevices) readOnlySystem [(1, .open [97] 0 0)] S ∧
    S.perform smallDevice noDevices 1 (.write 0 (fun _ => 98) 1) = .ok (r, S') ∧
    S.sys.handle 1 0 = some f ∧ sIsreg (S.sys.fs.ino (S.sys.files f).inode).mode = true ∧
    S'.sys.fs.data 6 ≠ S.sys.fs.data 6 ∧ ¬ ∃ o, S.opened f = some o ∧ o.Permitted := by
  have hexec : ((next readOnlySystem 1 (.open [97] 0 0)).any fun S =>
      ((S.sys.handle 1 0).any fun f => sIsreg (S.sys.fs.ino (S.sys.files f).inode).mode &&
        readOnly S f) && (next S 1 (.write 0 (fun _ => 98) 1)).any fun S' =>
          S'.sys.fs.data 6 0 ≠ S.sys.fs.data 6 0) = true := by
    decide +kernel
  obtain ⟨S, hS, hexec⟩ := (Option.any_eq_true _ _).mp hexec
  obtain ⟨hopen, hexec⟩ := (Bool.and_eq_true _ _).mp hexec
  obtain ⟨f, hf, hopen⟩ := (Option.any_eq_true _ _).mp hopen
  obtain ⟨hreg, hread⟩ := (Bool.and_eq_true _ _).mp hopen
  obtain ⟨S', hS', hexec⟩ := (Option.any_eq_true _ _).mp hexec
  obtain ⟨-, r, hwrite⟩ := perform_of_next hS'
  exact ⟨S, S', f, r, initial_readOnlySystem,
    fun _ => ⟨Nat.succ_ne_zero _, Nat.succ_ne_zero _⟩, .cons .nil (perform_of_next hS), hwrite, hf,
    hreg, fun hc => of_decide_eq_true hexec (by rw [hc]), not_permitted_of_readOnly hread⟩

end Traced

end Linux001.Fs
