import Linux001.Inodes.Exact
import Linux001.Lib.Frames
import Linux001.Lib.Runs

/-!
# Dropped privileges

A process that is not privileged may give itself the user and group ids that it has, or those that
have been saved. The saved ids are copied by `fork` and by nothing else changed, so that they are
those of the first process, the ids of the super-user.

## Main definitions

* `Ids`: the user and group ids of a process.
* `Event.ids`: what a call does to the ids of its process.
* `Descends`: the process of a slot is a given process of an earlier state, or a descendant of it.
* `Discreet`: the condition under which the saved group id is not used.

## Main results

* `fixes_code`: only two calls change the ids.
* `dropped_privileges`: an unprivileged process and its descendants stay within the ids that it has,
  unless one of them asks for the group 0.
* `not_dropped_privileges`: an unprivileged process may have the group 0.
-/

namespace Linux001.Inodes

/-- The user ids and the group ids of a process: real, effective and saved ones. -/
structure Ids where
  uid : ℕ
  euid : ℕ
  suid : ℕ
  gid : ℕ
  egid : ℕ
  sgid : ℕ
  deriving DecidableEq, Repr

def Task.ids (c : Task) : Ids := ⟨c.uid, c.euid, c.suid, c.gid, c.egid, c.sgid⟩

namespace Ids

/-- A process that is not that of the super-user. -/
def Unprivileged (i : Ids) : Prop := i.euid ≠ 0 ∧ i.uid ≠ 0

instance (i : Ids) : Decidable i.Unprivileged := inferInstanceAs (Decidable (_ ∧ _))

/-- The ids after `sys_setuid(uid)`. -/
def setuid (uid : ℕ) (i : Ids) : Ids :=
  if i.Unprivileged then
    if uid = i.uid ∨ i.suid = i.uid then { i with euid := uid % 65536 } else i
  else { i with euid := uid % 65536, uid := uid % 65536 }

/-- The ids after `sys_setgid(gid)`. -/
def setgid (gid : ℕ) (i : Ids) : Ids :=
  if i.Unprivileged then
    if i.gid = gid ∨ i.sgid = gid then { i with egid := gid % 65536 } else i
  else { i with gid := gid % 65536, egid := gid % 65536 }

/-- The saved ids are those of the first process. -/
structure Saved (i : Ids) : Prop where
  suid : i.suid = 0
  sgid : i.sgid = 0
  uid_lt : i.uid < 65536
  gid_lt : i.gid < 65536

/-- An unprivileged process has no effective ids that one with the ids `i₀` does not have. -/
structure Within (i₀ i : Ids) : Prop where
  unprivileged : i.Unprivileged
  uid : i.uid = i₀.uid
  gid : i.gid = i₀.gid
  euid : i.euid = i₀.uid ∨ i.euid = i₀.euid
  egid : i.egid = i₀.gid ∨ i.egid = i₀.egid

variable {i₀ i : Ids}

theorem Within.refl (h : i.Unprivileged) : Within i i := ⟨h, rfl, rfl, .inr rfl, .inr rfl⟩

theorem Saved.setuid (h : Saved i) (uid : ℕ) : Saved (i.setuid uid) := by
  rw [Ids.setuid]
  split_ifs
  · exact ⟨h.suid, h.sgid, h.uid_lt, h.gid_lt⟩
  · exact h
  · exact ⟨h.suid, h.sgid, Nat.mod_lt _ (by norm_num), h.gid_lt⟩

theorem Saved.setgid (h : Saved i) (gid : ℕ) : Saved (i.setgid gid) := by
  rw [Ids.setgid]
  split_ifs
  · exact ⟨h.suid, h.sgid, h.uid_lt, h.gid_lt⟩
  · exact h
  · exact ⟨h.suid, h.sgid, h.uid_lt, Nat.mod_lt _ (by norm_num)⟩

/-- The saved user id is 0, so that it is not that of an unprivileged process. -/
theorem Within.setuid (h : Within i₀ i) (hs : Saved i) (uid : ℕ) : Within i₀ (i.setuid uid) := by
  rw [Ids.setuid, if_pos h.unprivileged]
  split_ifs with hid
  · have huid : uid = i.uid := hid.resolve_right fun hc =>
      h.unprivileged.2 (hc.symm.trans hs.suid)
    have heuid : uid % 65536 = i.uid := by rw [huid, Nat.mod_eq_of_lt hs.uid_lt]
    refine ⟨⟨?_, h.unprivileged.2⟩, h.uid, h.gid, .inl (heuid.trans h.uid), h.egid⟩
    exact fun hc => h.unprivileged.2 (heuid.symm.trans hc)
  · exact h

/-- The saved group id is 0, and may well become the effective one. -/
theorem Within.setgid (h : Within i₀ i) (hs : Saved i) {gid : ℕ}
    (hgid : gid = 0 → i.gid = 0 ∨ i.egid = 0) : Within i₀ (i.setgid gid) := by
  rw [Ids.setgid, if_pos h.unprivileged]
  split_ifs with hid
  · refine ⟨h.unprivileged, h.uid, h.gid, h.euid, ?_⟩
    rcases hid with hid | hid
    · exact .inl (by rw [← hid, Nat.mod_eq_of_lt hs.gid_lt, h.gid])
    · have hzero : gid = 0 := hid.symm.trans hs.sgid
      rw [hzero]
      rcases hgid hzero with h₀ | h₀
      · exact .inl (h₀.symm.trans h.gid)
      · exact h.egid.imp (h₀.symm.trans ·) (h₀.symm.trans ·)
  · exact h

end Ids

/-- What a call does to the ids of the process that makes it. -/
def Event.ids : Event → Ids → Ids
  | .call (.setuid uid) => Ids.setuid uid
  | .call (.setgid gid) => Ids.setgid gid
  | _ => id

theorem Event.ids_cases (e : Event) (i : Ids) :
    (∃ uid, e.ids i = i.setuid uid) ∨ (∃ gid, e = .call (.setgid gid) ∧ e.ids i = i.setgid gid) ∨
      e.ids i = i := by
  unfold Event.ids
  split
  · exact .inl ⟨_, rfl⟩
  · exact .inr (.inl ⟨_, rfl, rfl⟩)
  · exact .inr (.inr rfl)

/-! ### The code of the calls -/

section Code

variable {D : Type}

/-- The ids of the running process. -/
def Cpu.ids (s : Cpu D) : Ids := s.current.ids

theorem fixes_onTable {α : Type} (m : M D α) : Fixes Cpu.ids (onTable m) := by
  intro s a s' h
  unfold onTable at h
  split at h
  · obtain ⟨rfl, rfl⟩ := Prod.mk.inj (Except.ok.inj h)
    rfl
  · cases h

theorem fixes_setFilp (fd : Fd) (f : Option FileNr) :
    Fixes (Cpu.ids : Cpu D → Ids) (setFilp fd f) := .update fun _ => rfl

theorem fixes_setCloseOnExec (fd : Fd) (b : Bool) :
    Fixes (Cpu.ids : Cpu D → Ids) (setCloseOnExec fd b) := .update fun _ => rfl

theorem fixes_setFile (f : FileNr) (g : File → File) :
    Fixes (Cpu.ids : Cpu D → Ids) (setFile f g) := .update fun _ => rfl

variable (V : Services D)

theorem fixes_openFail (fd : Fd) (f : FileNr) (e : Errno) :
    Fixes (Cpu.ids : Cpu D → Ids) (openFail fd f e) :=
  (fixes_setFilp fd none).bind fun _ => (fixes_setFile f _).bind fun _ => .pure _

theorem fixes_openTty (k : Slot) : Fixes (Cpu.ids : Cpu D → Ids) (openTty k) := by
  refine .get_bind fun s => .ite (.pure _) (.ite ?_ (.ite (.pure _) (.pure _)))
  exact .ite (.bind (.update fun _ => rfl) fun _ => .pure _) (.pure _)

theorem fixes_openFile (fd : Fd) (f : FileNr) (flag : UInt16) (k : Slot) :
    Fixes Cpu.ids (openFile V fd f flag k) :=
  (fixes_openTty k).bind fun _ => .ite
    ((fixes_onTable _).bind fun _ => fixes_openFail fd f _)
    (.get_bind fun _ => (fixes_setFile f _).bind fun _ => .pure _)

theorem fixes_sysOpen (filename : List UInt8) (flag mode : UInt16) :
    Fixes Cpu.ids (sysOpen V filename flag mode) := by
  refine .get_bind fun s => ?_
  dsimp only
  cases (List.finRange 20).find? fun fd => s.current.filp fd = none with
  | none => exact .pure _
  | some fd =>
    refine (fixes_setCloseOnExec fd false).bind fun _ => ?_
    cases (List.finRange 64).find? fun f => (s.file f).count = 0 with
    | none => exact .pure _
    | some f =>
      refine (fixes_setFilp fd _).bind fun _ => (fixes_setFile f _).bind fun _ => ?_
      refine (fixes_onTable _).bind fun r => ?_
      rcases r with e | k
      · exact fixes_openFail fd f e
      · exact fixes_openFile V fd f flag k

theorem fixes_closeFd (fd : Fd) : Fixes Cpu.ids (closeFd V fd) := by
  refine .get_bind fun s => (fixes_setCloseOnExec fd false).bind fun _ => ?_
  cases s.current.filp fd with
  | none => exact .pure _
  | some f =>
    refine (fixes_setFilp fd none).bind fun _ => .ite (.throw _) ?_
    refine (fixes_setFile f _).bind fun _ => .ite (.pure _) ?_
    exact (fixes_onTable _).bind fun _ => .pure _

theorem fixes_sysClose (fd : ℕ) : Fixes Cpu.ids (sysClose V fd) :=
  .dite (fun _ => fixes_closeFd V _) fun _ => .pure _

theorem fixes_dupfd (fd arg : ℕ) : Fixes (Cpu.ids : Cpu D → Ids) (dupfd fd arg) := by
  refine .get_bind fun s => ?_
  cases s.current.filpAt fd with
  | none => exact .pure _
  | some f =>
    refine .ite (.pure _) ?_
    cases (List.finRange 20).find? fun i => arg ≤ i.val ∧ s.current.filp i = none with
    | none => exact .pure _
    | some i =>
      refine (fixes_setCloseOnExec i false).bind fun _ => (fixes_setFilp i _).bind fun _ => ?_
      exact (fixes_setFile f _).bind fun _ => .pure _

theorem fixes_sysFcntl (fd : ℕ) (cmd : Cmd) (arg : ℕ) :
    Fixes (Cpu.ids : Cpu D → Ids) (sysFcntl fd cmd arg) := by
  refine .get_bind fun s => .dite (fun h => ?_) fun _ => .pure _
  cases s.current.filp ⟨fd, h⟩ with
  | none => exact .pure _
  | some f =>
    cases cmd with
    | dupfd => exact fixes_dupfd fd arg
    | setfd => exact (fixes_setCloseOnExec _ _).bind fun _ => .pure _
    | setfl => exact (fixes_setFile f _).bind fun _ => .pure _
    | getfd | getfl | other => exact .pure _

theorem fixes_pipeInode (fd₀ fd₁ : Fd) (f₀ f₁ : FileNr) :
    Fixes Cpu.ids (pipeInode V fd₀ fd₁ f₀ f₁) := by
  refine (fixes_setFilp fd₀ _).bind fun _ => (fixes_setFilp fd₁ _).bind fun _ => ?_
  refine (fixes_onTable _).bind fun r => ?_
  cases r with
  | none =>
    refine (fixes_setFilp fd₁ _).bind fun _ => (fixes_setFilp fd₀ _).bind fun _ => ?_
    exact (fixes_setFile f₁ _).bind fun _ => (fixes_setFile f₀ _).bind fun _ => .pure _
  | some k => exact (fixes_setFile f₁ _).bind fun _ => (fixes_setFile f₀ _).bind fun _ => .pure _

theorem fixes_sysPipe : Fixes Cpu.ids (sysPipe V) := by
  refine .get_bind fun s => ?_
  split
  · refine (fixes_setFile _ _).bind fun _ => (fixes_setFile _ _).bind fun _ => ?_
    split
    · exact fixes_pipeInode V _ _ _ _
    · exact (fixes_setFile _ _).bind fun _ => (fixes_setFile _ _).bind fun _ => .pure _
  · exact .pure _

/-- `sys_chdir` and `sys_chroot`: one of the two directories of the process is exchanged. -/
theorem fixes_exchange {m : M D (Result Slot)} {old : Option Slot} {f : Slot → Task → Task}
    (hf : ∀ k c, (f k c).ids = c.ids) :
    Fixes Cpu.ids (do
      match ← onTable m with
      | .error e => Pure.pure (.error e : Result ℕ)
      | .ok k => do
        onTable (iput V old)
        setCurrent (f k)
        Pure.pure (.ok 0)) := by
  refine (fixes_onTable m).bind fun r => ?_
  cases r with
  | error e => exact .pure _
  | ok k =>
    refine (fixes_onTable _).bind fun _ => .bind (.update fun s => ?_) fun _ => .pure _
    exact hf k s.current

theorem fixes_byCurrent (m : Task → M D (Result ℕ)) : Fixes Cpu.ids (byCurrent m) :=
  .get_bind fun _ => fixes_onTable _

/-- Only `sys_setuid` and `sys_setgid` change the ids. -/
theorem fixes_code {call : Call} (huid : ∀ uid, call ≠ .setuid uid)
    (hgid : ∀ gid, call ≠ .setgid gid) : Fixes Cpu.ids (call.code V) := by
  cases call with
  | setuid uid => exact absurd rfl (huid uid)
  | setgid gid => exact absurd rfl (hgid gid)
  | «open» filename flag mode => exact fixes_sysOpen V filename flag mode
  | creat pathname mode => exact fixes_sysOpen V pathname _ mode
  | close fd => exact fixes_sysClose V fd
  | dup fildes => exact fixes_dupfd fildes 0
  | dup2 oldfd newfd => exact (fixes_sysClose V newfd).bind fun _ => fixes_dupfd oldfd newfd
  | fcntl fd cmd arg => exact fixes_sysFcntl fd cmd arg
  | pipe => exact fixes_sysPipe V
  | chdir filename | chroot filename => exact .get_bind fun _ => fixes_exchange V fun _ _ => rfl
  | setsid =>
    refine .get_bind fun _ => .ite (.pure _) (.ite (.pure _) ?_)
    exact .bind (.update fun _ => rfl) fun _ => .pure _
  | umask mask => exact .get_bind fun _ => .bind (.update fun _ => rfl) fun _ => .pure _
  | link | unlink | mkdir | rmdir | stat | chmod | chown | utime | access =>
    dsimp only [Call.code]
    exact fixes_byCurrent _

theorem fixes_doExecve (filename : List UInt8) (fit read : Bool) :
    Fixes Cpu.ids (doExecve V filename fit read) := by
  refine .get_bind fun s => (fixes_onTable _).bind fun r => ?_
  cases r with
  | error e => exact .pure _
  | ok k =>
    refine (Fixes.forM fun fd => .get_bind fun _ => .ite ?_ (.pure _)).bind fun _ => ?_
    · exact (fixes_closeFd V fd).bind fun _ => .pure _
    · exact .bind (.update fun _ => rfl) fun _ => (fixes_onTable _).bind fun _ => .pure _

theorem fixes_shareInode (k : Option Slot) : Fixes (Cpu.ids : Cpu D → Ids) (shareInode k) := by
  cases k with
  | none => exact .pure _
  | some k => exact fixes_onTable (incCount k)

theorem fixes_share : Fixes (Cpu.ids : Cpu D → Ids) share := by
  refine (Fixes.forM fun fd => .get_bind fun s => ?_).bind fun _ => .get_bind fun s => ?_
  · cases s.current.filp fd with
    | none => exact .pure _
    | some f => exact fixes_setFile f _
  · exact (fixes_shareInode _).bind fun _ => fixes_shareInode _

theorem ids_sysSetuid (uid : ℕ) (s : Cpu D) :
    Ensures (sysSetuid uid) s fun _ s' => s'.ids = s.ids.setuid uid := by
  refine ensures_get_bind.mpr ?_
  rw [Ids.setuid]
  refine ensures_ite (fun hun => ?_) fun hun => ?_
  · rw [if_pos (c := s.ids.Unprivileged) hun]
    refine ensures_ite (fun hid => ?_) fun hid => ?_
    · rw [if_pos (c := uid = s.ids.uid ∨ s.ids.suid = s.ids.uid) hid]
      exact ensures_modify_bind.mpr (ensures_pure.mpr rfl)
    · rw [if_neg (c := uid = s.ids.uid ∨ s.ids.suid = s.ids.uid) hid]
      exact ensures_pure.mpr rfl
  · rw [if_neg (c := s.ids.Unprivileged) hun]
    exact ensures_modify_bind.mpr (ensures_pure.mpr rfl)

theorem ids_sysSetgid (gid : ℕ) (s : Cpu D) :
    Ensures (sysSetgid gid) s fun _ s' => s'.ids = s.ids.setgid gid := by
  refine ensures_get_bind.mpr ?_
  rw [Ids.setgid]
  refine ensures_ite (fun hun => ?_) fun hun => ?_
  · rw [if_pos (c := s.ids.Unprivileged) hun]
    refine ensures_ite (fun hid => ?_) fun hid => ?_
    · rw [if_pos (c := s.ids.gid = gid ∨ s.ids.sgid = gid) hid]
      exact ensures_modify_bind.mpr (ensures_pure.mpr rfl)
    · rw [if_neg (c := s.ids.gid = gid ∨ s.ids.sgid = gid) hid]
      exact ensures_pure.mpr rfl
  · rw [if_neg (c := s.ids.Unprivileged) hun]
    exact ensures_modify_bind.mpr (ensures_pure.mpr rfl)

/-- What a call does to the ids of the process that makes it. -/
theorem ids_code (call : Call) (s : Cpu D) :
    Ensures (call.code V) s fun _ s' => s'.ids = (Event.call call).ids s.ids := by
  cases call with
  | setuid uid => exact ids_sysSetuid uid s
  | setgid gid => exact ids_sysSetgid gid s
  | _ => exact fixes_code V (fun _ h => by cases h) (fun _ h => by cases h) s

end Code

/-! ### Processes -/

/-- The ids of a process that has not exited. -/
def Proc.ids : Proc → Option Ids
  | .running c => some c.ids
  | _ => none

theorem Proc.ids_orphan (pid : ℤ) (p : Proc) : (p.orphan pid).ids = p.ids := by
  cases p with
  | free | zombie => rfl
  | running c =>
    rw [orphan]
    split_ifs <;> rfl

section Step

variable {D : Type} (V : Services D) {S S' : Kernel D} {t q : TaskNr} {c : Task} {e : Event}
  {i : Ids}

/-- Code of a process changes the ids of no other process. -/
theorem Kernel.ids_resume {s : Cpu D} {p : Proc}
    (h : ((S.resume t s p).task q).ids = some i) :
    (q ≠ t ∧ (S.task q).ids = some i) ∨ (q = t ∧ p.ids = some i) := by
  rw [Kernel.resume] at h
  dsimp only at h
  rw [Function.update_apply] at h
  split_ifs at h with hq
  · exact .inr ⟨hq, h⟩
  · exact .inl ⟨hq, h⟩

/-- Code that ends well, with the state it leaves. -/
theorem Kernel.run_eq_ok {α : Type} {m : C D α} {r : α × Kernel D} (h : S.run m t c = .ok r) :
    ∃ a s, m (S.cpu c) = .ok (a, s) ∧ r = (a, S.resume t s (.running s.current)) := by
  rw [Kernel.run] at h
  cases hm : m (S.cpu c) with
  | error err =>
    rw [hm] at h
    cases h
  | ok p =>
    rw [hm] at h
    exact ⟨p.1, p.2, rfl, (Except.ok.inj h).symm⟩

/-- The process of a slot after `do_exit` has been there before, and is another one. -/
theorem Kernel.ids_doExit (h : S.doExit V t c = .ok S') (hi : (S'.task q).ids = some i) :
    q ≠ t ∧ (S.task q).ids = some i := by
  obtain ⟨r, -, h⟩ := bind_eq_ok.mp h
  have horphan : q ≠ t ∧ ((S.task q).orphan c.pid).ids = some i := by
    split_ifs at h
    all_goals
      obtain rfl := Except.ok.inj h
      rcases ids_resume hi with hi | ⟨-, hi⟩
      · exact hi
      · cases hi
  rwa [Proc.ids_orphan] at horphan

/-- **Step lemma.** The ids of a process after a step: they are those it had, those that the call
has given it, or those of its father. -/
theorem ids_perform (hc : S.task t = .running c) (h : perform V t c S e = .ok S')
    (hi : (S'.task q).ids = some i) :
    (q ≠ t ∧ (S.task q).ids = some i) ∨ (q = t ∧ i = e.ids c.ids) ∨
      (S.task q = .free ∧ i = c.ids) := by
  have hrun {α : Type} {m : C D α} {r : α × Kernel D} (hr : S.run m t c = .ok r)
      (hm : Ensures m (S.cpu c) fun _ s' => s'.ids = e.ids c.ids)
      (hi : (r.2.task q).ids = some i) :
      (q ≠ t ∧ (S.task q).ids = some i) ∨ (q = t ∧ i = e.ids c.ids) := by
    obtain ⟨a, s, hms, rfl⟩ := Kernel.run_eq_ok hr
    rcases Kernel.ids_resume hi with hi | ⟨hq, hi⟩
    · exact .inl hi
    · exact .inr ⟨hq, (Option.some.inj hi).symm.trans (hm a s hms)⟩
  have hsame {i} (hi : (S.task q).ids = some i) :
      (q ≠ t ∧ (S.task q).ids = some i) ∨ (q = t ∧ i = c.ids) := by
    by_cases hq : q = t
    · rw [hq, hc] at hi
      exact .inr ⟨hq, (Option.some.inj hi).symm⟩
    · exact .inl ⟨hq, hi⟩
  cases e with
  | call call =>
    obtain ⟨r, hr, rfl⟩ := map_eq_ok.mp h
    exact (hrun hr (ids_code V call _) hi).imp id .inl
  | execve filename fit read =>
    obtain ⟨r, hr, h⟩ := bind_eq_ok.mp h
    have hids : r.2.ids = c.ids := fixes_doExecve V filename fit read _ _ _ hr
    have hafter {S₁ : Kernel D} (hS₁ : S₁ = S.resume t r.2 (.running r.2.current)) {q : TaskNr}
        {i : Ids} (hi : (S₁.task q).ids = some i) :
        (q ≠ t ∧ (S.task q).ids = some i) ∨ (q = t ∧ i = c.ids) := by
      rw [hS₁] at hi
      rcases Kernel.ids_resume hi with hi | ⟨hq, hi⟩
      · exact .inl hi
      · exact .inr ⟨hq, (Option.some.inj hi).symm.trans hids⟩
    split at h
    · obtain ⟨hq, hi⟩ := Kernel.ids_doExit V h hi
      exact (hafter rfl hi).imp id .inl
    · exact (hafter (Except.ok.inj h).symm hi).imp id .inl
  | fork pid mem =>
    dsimp only [perform, Kernel.fork] at h
    cases hnr : S.findEmpty with
    | none =>
      rw [hnr] at h
      rw [← Except.ok.inj h] at hi
      exact (hsame hi).imp id .inl
    | some nr =>
      rw [hnr] at h
      dsimp only at h
      split_ifs at h
      · obtain ⟨r, hr, rfl⟩ := map_eq_ok.mp h
        rw [Kernel.setTask] at hi
        dsimp only at hi
        rw [Function.update_apply] at hi
        split_ifs at hi with hq
        · refine .inr (.inr ⟨?_, (Option.some.inj hi).symm⟩)
          have hfree := List.find?_some hnr
          rw [hq]
          cases hS : S.task nr with
          | free => rfl
          | running | zombie => simp [hS, Proc.isFree] at hfree
        · exact (hrun hr (fixes_share _) hi).imp id .inl
      · rw [← Except.ok.inj h] at hi
        exact (hsame hi).imp id .inl
  | exit => exact .inl (Kernel.ids_doExit V h hi)
  | waitpid pid =>
    rw [← Except.ok.inj h, Kernel.waitpid] at hi
    split at hi
    · exact (hsame hi).imp id .inl
    · rw [Kernel.setTask] at hi
      dsimp only at hi
      rw [Function.update_apply] at hi
      split_ifs at hi
      · cases hi
      · exact (hsame hi).imp id .inl

end Step

/-! ### Descendants -/

section Runs

variable {D : Type} (V : Services D)

/-- The first process runs, with the ids of `INIT_TASK`. -/
def Initial (S : Kernel D) : Prop :=
  ∃ c, c.ids = ⟨0, 0, 0, 0, 0, 0⟩ ∧ ∀ t, S.task t = if t = 0 then .running c else .free

/-- No unprivileged process with another group asks for the group 0. -/
def Discreet (S : Kernel D) (e : TaskNr × Event) : Prop :=
  ∀ c, S.task e.1 = .running c → c.ids.Unprivileged → e.2 = .call (.setgid 0) →
    c.gid = 0 ∨ c.egid = 0

/-- After the events `es`, most recent first, that follow the state `S₀`, the process in a slot is
the one that was in the slot `p`, or a descendant of it. All events are discreet. -/
inductive Descends (S₀ : Kernel D) (p : TaskNr) : List (TaskNr × Event) → Kernel D → TaskNr → Prop
  | self : Descends S₀ p [] S₀ p
  | remain {es S e S' q} (h : Descends S₀ p es S q) (hstep : Step V S e S') (hd : Discreet S e)
      (hq : S.task q ≠ .free) : Descends S₀ p (e :: es) S' q
  | child {es S e S' q} (h : Descends S₀ p es S e.1) (hstep : Step V S e S') (hd : Discreet S e)
      (hq : S.task q = .free) : Descends S₀ p (e :: es) S' q

variable {V} {S₀ S S' : Kernel D} {es es' : List (TaskNr × Event)} {p q : TaskNr} {i i₀ : Ids}

/-- The saved ids are those of the first process in every state of every run. -/
theorem saved_of_runs (h₀ : Initial S₀) (h : Runs (Step V) S₀ es S) :
    ∀ q i, (S.task q).ids = some i → i.Saved := by
  refine h.invariant (I := fun S => ∀ q i, (S.task q).ids = some i → i.Saved)
    (fun S e S' hS hstep q i hi => ?_) fun q i hi => ?_
  · obtain ⟨c, hc, hp⟩ := hstep
    have hown : c.ids.Saved := hS e.1 c.ids (by rw [hc]; rfl)
    rcases ids_perform V hc hp hi with ⟨-, hi⟩ | ⟨-, rfl⟩ | ⟨-, rfl⟩
    · exact hS q i hi
    · rcases e.2.ids_cases c.ids with ⟨uid, h⟩ | ⟨gid, -, h⟩ | h <;> rw [h]
      · exact hown.setuid uid
      · exact hown.setgid gid
      · exact hown
    · exact hown
  · obtain ⟨c, hc, htask⟩ := h₀
    rw [htask q] at hi
    split_ifs at hi
    · obtain rfl : c.ids = i := Option.some.inj hi
      rw [hc]
      exact ⟨rfl, rfl, by norm_num, by norm_num⟩
    · cases hi

/-- The ids after a discreet call are within those before it. -/
theorem within_event {c : Task} {e : TaskNr × Event} (hc : S.task e.1 = .running c)
    (hd : Discreet S e) (hs : c.ids.Saved) (hw : Ids.Within i₀ c.ids) :
    Ids.Within i₀ (e.2.ids c.ids) := by
  rcases e.2.ids_cases c.ids with ⟨uid, h⟩ | ⟨gid, he, h⟩ | h <;> rw [h]
  · exact hw.setuid hs uid
  · exact hw.setgid hs fun hgid => hd c hc hw.unprivileged (by rw [he, hgid])
  · exact hw

theorem Descends.runs (h : Descends V S₀ p es S q) : Runs (Step V) S₀ es S := by
  induction h with
  | self => exact .nil
  | remain _ hstep _ _ ih => exact ih.cons hstep
  | child _ hstep _ _ ih => exact ih.cons hstep

/-- The ids of a process and of its descendants are within those that it has. -/
theorem Descends.within (h₀ : Initial S₀) (h₁ : Runs (Step V) S₀ es S)
    (hp : (S.task p).ids = some i₀) (hun : i₀.Unprivileged) (h : Descends V S p es' S' q)
    (hi : (S'.task q).ids = some i) : Ids.Within i₀ i := by
  induction h generalizing i with
  | self => exact Option.some.inj (hp.symm.trans hi) ▸ .refl hun
  | @remain es S₁ e S₂ q h hstep hd hq ih =>
    obtain ⟨c, hc, hperf⟩ := hstep
    have hsaved := saved_of_runs h₀ (h₁.append h.runs)
    rcases ids_perform V hc hperf hi with ⟨-, hi⟩ | ⟨rfl, rfl⟩ | ⟨hfree, -⟩
    · exact ih hi
    · have hids : (S₁.task e.1).ids = some c.ids := by rw [hc]; rfl
      exact within_event hc hd (hsaved _ _ hids) (ih hids)
    · exact absurd hfree hq
  | @child es S₁ e S₂ q h hstep hd hq ih =>
    obtain ⟨c, hc, hperf⟩ := hstep
    have hids : (S₁.task e.1).ids = some c.ids := by rw [hc]; rfl
    rcases ids_perform V hc hperf hi with ⟨-, hi⟩ | ⟨rfl, -⟩ | ⟨-, rfl⟩
    · rw [hq] at hi
      cases hi
    · rw [hq] at hc
      cases hc
    · exact ih hids

/-- **Dropped privileges stay dropped.** From a state of a run in which a process is unprivileged,
let events follow in which no unprivileged process with another group asks for the group 0. Neither
the process nor a descendant of it ever has the user id 0 or another effective user or group id than
one of those that the process had. -/
theorem dropped_privileges {c d : Task} (h₀ : Initial S₀) (h₁ : Runs (Step V) S₀ es S)
    (hc : S.task p = .running c) (huid : c.uid ≠ 0) (heuid : c.euid ≠ 0)
    (h : Descends V S p es' S' q) (hd : S'.task q = .running d) :
    d.uid ≠ 0 ∧ d.euid ≠ 0 ∧ (d.euid = c.uid ∨ d.euid = c.euid) ∧
      (d.egid = c.gid ∨ d.egid = c.egid) := by
  have hids : (S.task p).ids = some c.ids := by rw [hc]; rfl
  have hids' : (S'.task q).ids = some d.ids := by rw [hd]; rfl
  have hw := h.within h₀ h₁ hids ⟨heuid, huid⟩ hids'
  exact ⟨hw.unprivileged.2, hw.unprivileged.1, hw.euid, hw.egid⟩

/-! ### Two runs -/

/-- The kernel when task 0 begins to run. -/
def firstKernel : Kernel Outer :=
  { bareKernel with task := fun t => if t = 0 then .running bareTask else .free }

theorem initial_firstKernel : Initial firstKernel := ⟨bareTask, rfl, fun _ => rfl⟩

/-- The process in a slot has these user ids and group ids. -/
def hasIds (S : Kernel D) (q : TaskNr) (uid euid gid egid : ℕ) : Bool :=
  (S.task q).ids.any fun i => i.uid = uid && i.euid = euid && i.gid = gid && i.egid = egid

theorem exists_of_hasIds {uid euid gid egid : ℕ} (h : hasIds S q uid euid gid egid = true) :
    ∃ c, S.task q = .running c ∧ c.uid = uid ∧ c.euid = euid ∧ c.gid = gid ∧ c.egid = egid := by
  unfold hasIds at h
  cases hq : S.task q with
  | free | zombie => simp [hq, Proc.ids] at h
  | running c => exact ⟨c, rfl, by simpa [hq, Proc.ids, Task.ids, and_assoc] using h⟩

/-- Task 0 gives itself the group 5 and the user 7. -/
def dropping : List (TaskNr × Event) := [(0, .call (.setgid 5)), (0, .call (.setuid 7))]

/-- An unprivileged process forks, and its child asks for its own group. -/
theorem dropped_privileges_child : ∃ S₀ S S' : Kernel Outer, ∃ c d,
    Initial S₀ ∧ Runs (Step (mounted smallDevice 769)) S₀ dropping.reverse S ∧
    S.task 0 = .running c ∧
    Descends (mounted smallDevice 769) S 0 [(1, .call (.setgid 5)), (0, .fork 1 true)] S' 1 ∧
    S'.task 1 = .running d ∧ d.uid ≠ 0 ∧ d.euid ≠ 0 ∧ (d.euid = c.uid ∨ d.euid = c.euid) ∧
      (d.egid = c.gid ∨ d.egid = c.egid) := by
  have hexec : ((exec (next (mounted smallDevice 769)) firstKernel dropping).any fun S =>
      hasIds S 0 7 7 5 5 && (S.task 1).isFree &&
        (next (mounted smallDevice 769) S (0, .fork 1 true)).any fun S₁ =>
          !(S₁.task 1).isFree && (next (mounted smallDevice 769) S₁ (1, .call (.setgid 5))).any
            fun S₂ => hasIds S₂ 1 7 7 5 5) = true := by decide +kernel
  obtain ⟨S, hS, hexec⟩ := (Option.any_eq_true _ _).mp hexec
  rw [Bool.and_eq_true, Bool.and_eq_true] at hexec
  obtain ⟨⟨hids, hfree⟩, hexec⟩ := hexec
  obtain ⟨S₁, hS₁, hexec⟩ := (Option.any_eq_true _ _).mp hexec
  obtain ⟨hbusy, hexec⟩ := (Bool.and_eq_true _ _).mp hexec
  obtain ⟨S₂, hS₂, hexec⟩ := (Option.any_eq_true _ _).mp hexec
  obtain ⟨c, hc, huid, heuid, -⟩ := exists_of_hasIds hids
  obtain ⟨d, hd, -⟩ := exists_of_hasIds hexec
  have hrun := (runs_of_exec hS).mono fun S e S' => step_of_next _
  have hdesc : Descends (mounted smallDevice 769) S 0 [(1, .call (.setgid 5)), (0, .fork 1 true)]
      S₂ 1 := by
    refine .remain (.child .self (step_of_next _ hS₁) (fun _ _ _ h => nomatch h) ?_)
      (step_of_next _ hS₂) (fun _ _ _ h => by cases h) fun hf => ?_
    · cases hq : S.task 1 with
      | free => rfl
      | running | zombie => simp [hq, Proc.isFree] at hfree
    · simp [hf, Proc.isFree] at hbusy
  exact ⟨firstKernel, S, S₂, c, d, initial_firstKernel, hrun, hc, hdesc, hd,
    dropped_privileges initial_firstKernel hrun hc (by omega) (by omega) hdesc hd⟩

/-- **The saved group id comes back.** Task 0 gives itself the group 5 and the user 7. It is
unprivileged then, and may have the group 0 again. -/
theorem not_dropped_privileges : ∃ S₀ S S' : Kernel Outer, ∃ c d,
    Initial S₀ ∧ Runs (Step (mounted smallDevice 769)) S₀ dropping.reverse S ∧
    S.task 0 = .running c ∧ c.uid ≠ 0 ∧ c.euid ≠ 0 ∧
    Step (mounted smallDevice 769) S (0, .call (.setgid 0)) S' ∧ S'.task 0 = .running d ∧
    ¬ (d.egid = c.gid ∨ d.egid = c.egid) := by
  have hexec : ((exec (next (mounted smallDevice 769)) firstKernel dropping).any fun S =>
      hasIds S 0 7 7 5 5 && (next (mounted smallDevice 769) S (0, .call (.setgid 0))).any fun S' =>
        hasIds S' 0 7 7 5 0) = true := by decide +kernel
  obtain ⟨S, hS, hexec⟩ := (Option.any_eq_true _ _).mp hexec
  obtain ⟨hids, hexec⟩ := (Bool.and_eq_true _ _).mp hexec
  obtain ⟨S', hS', hexec⟩ := (Option.any_eq_true _ _).mp hexec
  obtain ⟨c, hc, huid, heuid, hgid, hegid⟩ := exists_of_hasIds hids
  obtain ⟨d, hd, -, -, -, hdgid⟩ := exists_of_hasIds hexec
  exact ⟨firstKernel, S, S', c, d, initial_firstKernel,
    (runs_of_exec hS).mono fun S e S' => step_of_next _, hc, by omega, by omega,
    step_of_next _ hS', hd, by omega⟩

end Runs

end Linux001.Inodes
