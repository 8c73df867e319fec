import Linux001.Fs.Access

/-!
# Three checks of the permissions of a file

`permission`, `sys_access` and `do_execve` each choose a class of users by the identities of the
process and of the inode, and look at the bits of that class. `sys_access` looks at the bits of the
owner when the process is in the group of the file.

## Main definitions

* `sysAccess`: `sys_access`.
* `execFile`: the part of `do_execve` that finds and checks the file.
* `Class`: the classes of users.
* `Agrees`: the three checks agree about a file.

## Main results

* `agrees_iff`: they agree exactly when the process is the owner of the file or not in its group.
* `not_agrees_group`: they do not agree about a file that its group may read.
-/

namespace Linux001.Fs

variable (sb : Super) (current : Task)

/-! ### The checks -/

/-- `res` in `sys_access`, once it has been shifted. -/
def accessBits (i : Inode) (res : UInt16) : UInt16 :=
  let res : UInt16 :=
    if ¬ (current.euid ≠ 0 ∧ current.uid ≠ 0) then if res &&& 0o111 ≠ 0 then 0o777 else 0o666
    else res
  if current.euid = i.uid then res >>> 6
  -- The source shifts by 6 here, too.
  else if current.egid = i.gid then res >>> 6
  else res

/-- `sys_access(filename, mode)`. The identities of the inode are looked at after `iput`. -/
def sysAccess (filename : List UInt8) (mode : UInt16) : M Result := do
  let mode := mode &&& 7
  match ← namei sb current filename with
  | none => pure (.error .EACCES)
  | some n => do
    let s ← get
    let res := (s.ino n).mode &&& 0o777
    iput sb n
    let s ← get
    if accessBits current (s.ino n) res &&& 7 &&& mode = mode then pure (.ok 0)
    else pure (.error .EACCES)

/-- `i` in `do_execve` when its lowest bit is tested. -/
def execBits (i : Inode) : UInt16 :=
  if current.uid ≠ 0 ∧ current.euid ≠ 0 then
    if current.euid = i.uid then i.mode >>> 6
    else if current.egid = i.gid then i.mode >>> 3
    else i.mode
  else if i.mode &&& 0o111 ≠ 0 then 1
  else i.mode

/-- The errors of `do_execve` up to its test of the permissions. -/
inductive ExecErrno
  | ENOENT | EACCES | ENOEXEC
  deriving DecidableEq, Repr

/-- `do_execve` up to its test of the permissions: the inode of a file that may be executed. -/
def execFile (filename : List UInt8) : M (Except ExecErrno ℕ) := do
  match ← namei sb current filename with
  | none => pure (.error .ENOENT)
  | some n => do
    let s ← get
    if sIsreg (s.ino n).mode = false then do
      iput sb n
      pure (.error .EACCES)
    else if execBits current (s.ino n) &&& 1 = 0 then do
      iput sb n
      pure (.error .ENOEXEC)
    else pure (.ok n)

/-! ### Classes of users -/

/-- The classes of users that a mode has bits for. -/
inductive Class
  | owner
  | group
  | other
  deriving DecidableEq

/-- The three bits of a class. -/
def Class.bits : Class → UInt16 → UInt16
  | owner, mode => mode >>> 6 &&& 7
  | group, mode => mode >>> 3 &&& 7
  | other, mode => mode &&& 7

/-- The class that a process with one user id and one group id is in. -/
def classOf (i : Inode) : Class :=
  if current.euid = i.uid then .owner else if current.egid = i.gid then .group else .other

/-- The class whose bits `sys_access` looks at. -/
def accessClass (i : Inode) : Class :=
  if current.euid = i.uid ∨ current.egid = i.gid then .owner else .other

/-- Different classes have different bits in some mode. -/
theorem Class.bits_inj {c c' : Class} (h : ∀ mode, c.bits mode = c'.bits mode) : c = c' := by
  have howner := h 0o700
  have hgroup := h 0o070
  revert howner hgroup
  cases c <;> cases c' <;> decide

variable {sb current} {i : Inode}

/-- A process with one user id, which is not that of the superuser, and one group id. -/
structure Ordinary (current : Task) : Prop where
  uid : current.uid = current.euid
  user : current.euid ≠ 0
  gid : current.gid = current.egid

/-- `permission` looks at the bits of the class of the process. -/
theorem permission_class (h : Ordinary current) (hlinks : i.nlinks ≠ 0) (mask : UInt16) :
    permission current i mask = (classOf current i).bits i.mode &&& mask := by
  have huser : ¬ ¬ (current.uid ≠ 0 ∧ current.euid ≠ 0) := not_not.mpr ⟨h.uid ▸ h.user, h.user⟩
  have hand (mode : UInt16) : mode &&& mask &&& 7 = mode &&& 7 &&& mask := by
    rw [UInt16.and_assoc, UInt16.and_assoc, UInt16.and_comm mask 7]
  unfold permission classOf
  rw [if_neg hlinks, if_neg huser]
  simp only [h.uid, h.gid, or_self, hand]
  split_ifs <;> rfl

theorem execBits_class (h : Ordinary current) :
    execBits current i &&& 1 = (classOf current i).bits i.mode &&& 1 := by
  have hand (mode : UInt16) : mode &&& 1 = mode &&& 7 &&& 1 := by
    rw [UInt16.and_assoc]
    rfl
  unfold execBits classOf
  rw [if_pos ⟨h.uid ▸ h.user, h.user⟩]
  split_ifs <;> exact hand _

theorem accessBits_class (h : Ordinary current) :
    accessBits current i (i.mode &&& 0o777) &&& 7 = (accessClass current i).bits i.mode := by
  have huser : ¬ ¬ (current.euid ≠ 0 ∧ current.uid ≠ 0) := not_not.mpr ⟨h.user, h.uid ▸ h.user⟩
  have hshift : (i.mode &&& (0o777 : UInt16)) >>> (6 : UInt16) &&& 7 =
      i.mode >>> (6 : UInt16) &&& 7 := by
    rw [UInt16.shiftRight_and, UInt16.and_assoc]
    rfl
  have hand : i.mode &&& (0o777 : UInt16) &&& 7 = i.mode &&& 7 := by
    rw [UInt16.and_assoc]
    rfl
  unfold accessBits accessClass
  dsimp only
  rw [if_neg huser]
  by_cases huid : current.euid = i.uid
  · rw [if_pos huid, if_pos (Or.inl huid), hshift]
    rfl
  by_cases hgid : current.egid = i.gid
  · rw [if_neg huid, if_pos hgid, if_pos (Or.inr hgid), hshift]
    rfl
  · rw [if_neg huid, if_neg hgid, if_neg (not_or.mpr ⟨huid, hgid⟩), hand]
    rfl

/-! ### The calls -/

/-- A call goes on where the first part has arrived. -/
theorem bind_of_ok {α β : Type} {m : M α} {k : α → M β} {s s' : State} {a : α}
    (h : m s = .ok (a, s')) : (m >>= k) s = k a s' := by
  change (m s >>= fun p => k p.1 p.2) = k a s'
  rw [h]
  rfl

theorem ensures_of_ok {α β : Type} {m : M α} {k : α → M β} {s s' : State} {a : α}
    {Q : β → State → Prop} (h : m s = .ok (a, s')) (hk : Ensures (k a) s' Q) :
    Ensures (m >>= k) s Q :=
  fun b s'' hok => hk b s'' ((bind_of_ok h).symm.trans hok)

/-- `iput` does not change an inode that has links. -/
theorem ensures_iput_ino {n : ℕ} {s : State} (h : (s.ino n).nlinks ≠ 0) :
    Ensures (iput sb n) s fun _ s' => s'.ino = s.ino := by
  have hcache {f : Cache → Option Cache} {e : Fault} : Fixes State.ino (onCache f e) := by
    intro s _ s' hok
    unfold onCache at hok
    split at hok
    · cases hok
    · cases hok
      rfl
  have hwrite : Fixes State.ino (writeInode sb n) := by
    refine Fixes.bind hcache fun _ => Fixes.bind (Fixes.update fun _ => rfl) fun _ => ?_
    exact Fixes.bind (Fixes.update fun _ => rfl) fun _ => hcache
  unfold iput
  refine ensures_get_bind.mpr (ensures_ite (fun _ => ensures_throw) fun _ => ?_)
  refine ensures_ite (fun _ => ensures_modify.mpr rfl) fun _ => ?_
  refine ensures_ite (fun hlinks => absurd hlinks h) fun _ => ?_
  refine ensures_ite (fun _ => ?_) fun _ => ensures_modify.mpr rfl
  exact (hwrite s).bind fun _ _ hs' => ensures_modify.mpr hs'

/-- What the calls find: the path leads to the inode `n`, which has links, and `iput` gives it
back. -/
structure Found (sb : Super) (current : Task) (filename : List UInt8) (s : State) (n : ℕ)
    (s₁ s₂ : State) : Prop where
  namei : namei sb current filename s = .ok (some n, s₁)
  iput : iput sb n s₁ = .ok ((), s₂)
  links : (s₁.ino n).nlinks ≠ 0

variable {filename : List UInt8} {s s₁ s₂ : State} {n : ℕ}

theorem sysAccess_iff (h : Found sb current filename s n s₁ s₂) {mask : UInt16}
    (hmask : mask &&& 7 = mask) :
    (∃ s', sysAccess sb current filename mask s = .ok (.ok 0, s')) ↔
      accessBits current (s₁.ino n) ((s₁.ino n).mode &&& 0o777) &&& 7 &&& mask = mask := by
  have hino : s₂.ino = s₁.ino := ensures_iput_ino h.links () s₂ h.iput
  have hcall : sysAccess sb current filename mask s =
      if accessBits current (s₁.ino n) ((s₁.ino n).mode &&& 0o777) &&& 7 &&& mask = mask then
        .ok (.ok 0, s₂)
      else .ok (.error .EACCES, s₂) := by
    unfold sysAccess
    rw [hmask, bind_of_ok h.namei]
    change (do
      iput sb n
      let s ← get
      if accessBits current (s.ino n) ((s₁.ino n).mode &&& 0o777) &&& 7 &&& mask = mask then
        pure (.ok 0)
      else pure (.error .EACCES) : M Result) s₁ = _
    rw [bind_of_ok h.iput, ← hino]
    exact apply_ite (fun m : M Result => m s₂) _ _ _
  rw [hcall]
  split_ifs with hgrant
  · exact iff_of_true ⟨s₂, rfl⟩ hgrant
  · exact iff_of_false (fun ⟨_, hok⟩ => nomatch hok) hgrant

theorem execFile_iff (h : Found sb current filename s n s₁ s₂)
    (hreg : sIsreg (s₁.ino n).mode = true) :
    (∃ s', execFile sb current filename s = .ok (.ok n, s')) ↔
      execBits current (s₁.ino n) &&& 1 ≠ 0 := by
  have hcall : execFile sb current filename s =
      if execBits current (s₁.ino n) &&& 1 = 0 then .ok (.error .ENOEXEC, s₂)
      else .ok (.ok n, s₁) := by
    unfold execFile
    rw [bind_of_ok h.namei]
    change (if sIsreg (s₁.ino n).mode = false then do
        iput sb n
        pure (.error .EACCES)
      else if execBits current (s₁.ino n) &&& 1 = 0 then do
        iput sb n
        pure (.error .ENOEXEC)
      else pure (.ok n) : M (Except ExecErrno ℕ)) s₁ = _
    rw [if_neg (hreg ▸ Bool.noConfusion)]
    split_ifs
    · exact bind_of_ok h.iput
    · rfl
  rw [hcall]
  split_ifs with hbit
  · exact iff_of_false (fun ⟨_, hok⟩ => nomatch hok) (not_not.mpr hbit)
  · exact iff_of_true ⟨s₁, rfl⟩ hbit

/-- The three checks agree for the process about the file `n`, to which the path leads in the state
`s`, where `s₁` is the state in which it has been found. -/
structure Agrees (sb : Super) (current : Task) (filename : List UInt8) (s : State) (n : ℕ)
    (s₁ : State) : Prop where
  access : ∀ mask : UInt16, mask &&& 7 = mask →
    ((∃ s', sysAccess sb current filename mask s = .ok (.ok 0, s')) ↔
      permission current (s₁.ino n) mask = mask)
  exec : sIsreg (s₁.ino n).mode = true →
    ((∃ s', execFile sb current filename s = .ok (.ok n, s')) ↔
      permission current (s₁.ino n) MAY_EXEC ≠ 0)
  /-- One class decides, whatever the mode of the file is. -/
  decides : ∃! c : Class, ∀ mode : UInt16, let i := { s₁.ino n with mode := mode }
    permission current i 7 = c.bits mode ∧
      accessBits current i (mode &&& 0o777) &&& 7 = c.bits mode ∧
      execBits current i &&& 1 = c.bits mode &&& 1

/-- A class decides if and only if it is the one that all checks choose. -/
theorem decides_iff (hcurrent : Ordinary current) (hlinks : i.nlinks ≠ 0) (c : Class) :
    (∀ mode : UInt16, let j := { i with mode := mode }
      permission current j 7 = c.bits mode ∧
        accessBits current j (mode &&& 0o777) &&& 7 = c.bits mode ∧
        execBits current j &&& 1 = c.bits mode &&& 1) ↔
      classOf current i = c ∧ accessClass current i = c := by
  have hpermission (mode : UInt16) :
      permission current { i with mode := mode } 7 = (classOf current i).bits mode := by
    have hseven : (classOf current i).bits mode &&& 7 = (classOf current i).bits mode := by
      cases classOf current i <;> exact (UInt16.and_assoc _ 7 7).trans rfl
    exact (permission_class (i := { i with mode := mode }) hcurrent hlinks 7).trans hseven
  have haccess (mode : UInt16) : accessBits current { i with mode := mode } (mode &&& 0o777) &&& 7 =
      (accessClass current i).bits mode := accessBits_class (i := { i with mode := mode }) hcurrent
  have hexec (mode : UInt16) : execBits current { i with mode := mode } &&& 1 =
      (classOf current i).bits mode &&& 1 := execBits_class (i := { i with mode := mode }) hcurrent
  dsimp only
  simp only [hpermission, haccess, hexec]
  constructor
  · intro h
    exact ⟨Class.bits_inj fun mode => (h mode).1, Class.bits_inj fun mode => (h mode).2.1⟩
  · rintro ⟨rfl, hclass⟩ mode
    rw [hclass]
    exact ⟨rfl, rfl, rfl⟩

theorem accessClass_eq_iff : accessClass current i = classOf current i ↔
    current.euid = i.uid ∨ current.egid ≠ i.gid := by
  unfold accessClass classOf
  by_cases huid : current.euid = i.uid
  · simp [huid]
  · by_cases hgid : current.egid = i.gid <;> simp [huid, hgid]

/-- The three checks agree about a file if and only if the process is the owner of the file, or is
not in its group. -/
theorem agrees_iff (hcurrent : Ordinary current) (h : Found sb current filename s n s₁ s₂) :
    Agrees sb current filename s n s₁ ↔
      current.euid = (s₁.ino n).uid ∨ current.egid ≠ (s₁.ino n).gid := by
  rw [← accessClass_eq_iff]
  refine ⟨fun hagrees => ?_, fun hclass => ⟨fun mask hmask => ?_, fun hreg => ?_, ?_⟩⟩
  · obtain ⟨c, hc, -⟩ := hagrees.decides
    obtain ⟨hpermission, haccess⟩ := (decides_iff hcurrent h.links c).mp hc
    exact haccess.trans hpermission.symm
  · rw [sysAccess_iff h hmask, accessBits_class hcurrent, permission_class hcurrent h.links, hclass]
  · rw [execFile_iff h hreg, execBits_class hcurrent, permission_class hcurrent h.links]
    rfl
  · refine ⟨classOf current (s₁.ino n), ?_, fun c hc => ?_⟩
    · exact (decides_iff hcurrent h.links _).mpr ⟨rfl, hclass⟩
    · exact ((decides_iff hcurrent h.links c).mp hc).1.symm

/-- A file that its owner may read and write, and its group may read. -/
def groupState : State := { Traced.readOnlyState with
  diskIno := fun n =>
    if n = 2 then ⟨0o100640, 5, 1, 5, 1, fun k => if k = 0 then 6 else 0⟩ else .zero }

/-- A process in the group of the file. -/
def groupTask : Task := { Traced.userTask with uid := 7, euid := 7 }

theorem ordinary_groupTask : Ordinary groupTask := ⟨rfl, by decide, rfl⟩

/-- The file as `namei` finds it, with the state after `iput`. -/
def findGroup : Option (State × State) :=
  match namei Traced.smallDevice groupTask [97] groupState with
  | .ok (some 2, s₁) =>
    match iput Traced.smallDevice 2 s₁ with
    | .ok ((), s₂) => if (s₁.ino 2).nlinks ≠ 0 then some (s₁, s₂) else none
    | .error _ => none
  | _ => none

theorem found_of_findGroup (h : findGroup = some (s₁, s₂)) :
    Found Traced.smallDevice groupTask [97] groupState 2 s₁ s₂ := by
  unfold findGroup at h
  split at h
  · rename_i s₁ hnamei
    split at h
    · rename_i s₂ hiput
      split_ifs at h with hlinks
      cases h
      exact ⟨hnamei, hiput, hlinks⟩
    · cases h
  · cases h

theorem exists_findGroup : ∃ s₁ s₂, findGroup = some (s₁, s₂) ∧ (s₁.ino 2).mode = 0o100640 ∧
    (s₁.ino 2).uid = 5 ∧ (s₁.ino 2).gid = 5 := by
  have hexec : (findGroup.any fun p =>
      (p.1.ino 2).mode = 0o100640 ∧ (p.1.ino 2).uid = 5 ∧ (p.1.ino 2).gid = 5) = true := by
    decide +kernel
  obtain ⟨⟨s₁, s₂⟩, hfind, hfile⟩ := (Option.any_eq_true _ _).mp hexec
  exact ⟨s₁, s₂, hfind, of_decide_eq_true hfile⟩

theorem agrees_iff_group : ∃ s₁ s₂, Found Traced.smallDevice groupTask [97] groupState 2 s₁ s₂ ∧
    (Agrees Traced.smallDevice groupTask [97] groupState 2 s₁ ↔
      groupTask.euid = (s₁.ino 2).uid ∨ groupTask.egid ≠ (s₁.ino 2).gid) := by
  obtain ⟨s₁, s₂, hfind, -⟩ := exists_findGroup
  have hfound := found_of_findGroup hfind
  exact ⟨s₁, s₂, hfound, agrees_iff ordinary_groupTask hfound⟩

/-- **The group may write what it may only read.** `sys_access` grants a process in the group of the
file what the owner may do. -/
theorem not_agrees_group : ¬ ∀ (sb : Super) (current : Task) (filename : List UInt8) (s : State)
    (n : ℕ) (s₁ s₂ : State), Ordinary current → Found sb current filename s n s₁ s₂ →
      Agrees sb current filename s n s₁ := by
  intro h
  obtain ⟨s₁, s₂, hfind, hmode, huid, hgid⟩ := exists_findGroup
  have hfound := found_of_findGroup hfind
  have hwrite := (h _ _ _ _ _ _ _ ordinary_groupTask hfound).access 2 rfl
  have howner : accessClass groupTask (s₁.ino 2) = .owner := by
    unfold accessClass
    rw [huid, hgid]
    rfl
  have hgroup : classOf groupTask (s₁.ino 2) = .group := by
    unfold classOf
    rw [huid, hgid]
    rfl
  rw [sysAccess_iff hfound rfl, accessBits_class ordinary_groupTask,
    permission_class ordinary_groupTask hfound.links, howner, hgroup, hmode] at hwrite
  exact absurd hwrite (by decide)

end Linux001.Fs
