import Linux001.Files.OpenCounts

/-!
# Close on exec

`sys_open` and `dupfd` clear the bit of `close_on_exec` of the descriptor that they return, and
`sys_pipe` does not. It need not: a bit is set only while its descriptor is open, since `sys_close`
clears it, and the descriptors that are free when `sys_pipe` takes them have none.

Beside the state goes what the processes have asked for: for every descriptor, whether
`sys_fcntl(fd, F_SETFD, ..)` was last called with the flag since the descriptor was returned by a
call. A child has what its parent has.

## Main definitions

* `returned`: the descriptors that a call returns.
* `Traced`: a state with what has been asked for, and with what that was at the last `execve`.
* `Exact`: the bits of a task are what has been asked for of its open descriptors.
* `Valid`: the invariant of a task, at each point where it may sleep.

## Main results

* `Cpu.valid_call`, `Cpu.valid_resume`: a step of a process keeps the invariant.
* `closeOnExec_exact`: which bits are set, and which descriptors `execve` closes.
-/

namespace Linux001.Files.Descriptors

/-! ### What has been asked for -/

/-- A call that has gone on at the point, and has returned the value, has returned the
descriptor. -/
def Pc.returns (value : ℤ) (fd : Fd) : Pc → Bool
  | .openNamei _ _ | .closeIput (.dup2 _ _) => decide (value = fd.val)
  | .pipeInode fd₀ fd₁ _ _ => decide (fd = fd₀ ∨ fd = fd₁)
  | _ => false

/-- The call of the task `c` has returned the descriptor `fd`, which has been opened, duplicated or
created by `sys_pipe`. -/
def returned (c : Task) (e : Event) (c' : Task) (fd : Fd) : Bool :=
  decide (c'.pc = .user) && match e with
  | .call _ (.dup _) | .call _ (.dup2 _ _) | .call _ (.fcntl _ .dupfd _) => decide (c'.eax = fd.val)
  | .resume _ .ok => c.pc.returns c'.eax fd
  | _ => false

/-- What `sys_fcntl(fd, F_SETFD, ..)` asks for. -/
def setfd (c : Task) (e : Event) (fd : Fd) : Option Bool :=
  match e with
  | .call _ (.fcntl n .setfd arg) =>
    if n = fd.val ∧ (c.filp fd).isSome then some (decide (arg % 2 = 1)) else none
  | _ => none

/-- What is asked for of the descriptors after a step. -/
def asked (c : Task) (e : Event) (c' : Task) (g : Fd → Bool) (fd : Fd) : Bool :=
  if returned c e c' fd then false else (setfd c e fd).getD (g fd)

def Event.task : Event → TaskNr
  | .call t _ | .resume t _ | .fork t _ _ | .exited t _ | .release t => t

/-- The descriptors of a task and what has been asked for. -/
structure Table where
  filp : Fd → Option File
  flagged : Fd → Bool

structure Traced where
  sys : State
  /-- What has been asked for. -/
  flagged : TaskNr → Fd → Bool
  /-- The descriptors of the tasks when they last called `execve`. -/
  called : TaskNr → Table

namespace Traced

def boot : Traced := ⟨.boot, fun _ _ => false, fun _ => ⟨fun _ => none, fun _ => false⟩⟩

/-- A step with what is asked for in it. -/
def record (s : Traced) (e : Event) (sys' : State) : Traced where
  sys := sys'
  flagged i :=
    match s.sys.task i, sys'.task i with
    | some c, some c' => if i = e.task then asked c e c' (s.flagged i) else s.flagged i
    | none, some _ => s.flagged e.task
    | _, none => s.flagged i
  called :=
    match e with
    | .call t .execve =>
      match s.sys.task t with
      | some c => Function.update s.called t ⟨c.filp, s.flagged t⟩
      | none => s.called
    | _ => s.called

def next (s : Traced) (e : Event) : Option Traced := (s.sys.next e).map (s.record e)

end Traced

/-! ### The invariant -/

/-- A bit is set if and only if its descriptor is open and the flag has been asked for. -/
def Exact (g : Fd → Bool) (c : Task) : Prop :=
  ∀ fd, c.closeOnExec fd = true ↔ c.filp fd ≠ none ∧ g fd = true

/-- What holds of a task at the points where it may sleep. Descriptors that `sys_open` and
`sys_pipe` are about to return have no bit. `execve` has closed what has been asked for, except of
the descriptors that it has not come to. The end of a process may come in the middle of a call. -/
def Valid (g : Fd → Bool) (b : Table) (c : Task) : Prop :=
  match c.pc with
  | .openNamei fd _ | .openIput fd _ => Exact (Function.update g fd false) c
  | .pipeInode fd₀ fd₁ _ _ => Exact (Function.update (Function.update g fd₀ false) fd₁ false) c
  | .execNamei => Exact g c ∧ b = ⟨c.filp, g⟩
  | .closeIput (.execve rest) => Exact g c ∧ b.flagged = g ∧ rest.Nodup ∧
      ∀ fd, c.filp fd = if fd ∈ rest then b.filp fd else if g fd then none else b.filp fd
  | .execRead => Exact g c ∧ b.flagged = g ∧ ∀ fd, c.filp fd = if g fd then none else b.filp fd
  | .closeIput (.exit _) | .exitIput | .zombie => ∃ g', Exact g' c
  | .user | .closeIput .user | .closeIput (.dup2 _ _) => Exact g c

variable {g : Fd → Bool} {b : Table} {c : Task}

theorem Exact.congr (h : Exact g c) {c' : Task} (hfilp : c'.filp = c.filp)
    (hbits : c'.closeOnExec = c.closeOnExec) : Exact g c' := by
  intro fd
  rw [hfilp, hbits]
  exact h fd

/-- The descriptor `fd` is given up, with its bit. -/
def Task.closed (c : Task) (fd : Fd) : Task :=
  { c with
    filp := Function.update c.filp fd none
    closeOnExec := Function.update c.closeOnExec fd false }

theorem Exact.closed (h : Exact g c) (fd : Fd) : Exact g (c.closed fd) := by
  intro i
  unfold Task.closed
  dsimp only
  by_cases hi : i = fd
  · subst hi
    rw [Function.update_self, Function.update_self]
    simp
  · rw [Function.update_of_ne hi, Function.update_of_ne hi]
    exact h i

/-- A descriptor is taken, without a bit. -/
theorem Exact.taken (h : Exact g c) {c' : Task} {fd : Fd} {f : File}
    (hfilp : c'.filp = Function.update c.filp fd (some f))
    (hbits : c'.closeOnExec = Function.update c.closeOnExec fd false) :
    Exact (Function.update g fd false) c' := by
  intro i
  rw [hfilp, hbits]
  by_cases hi : i = fd
  · subst hi
    rw [Function.update_self, Function.update_self]
    simp
  · rw [Function.update_of_ne hi, Function.update_of_ne hi, Function.update_of_ne hi]
    exact h i

/-- A descriptor that is free has no bit. -/
theorem Exact.bit_of_free (h : Exact g c) {fd : Fd} (hfd : c.filp fd = none) :
    c.closeOnExec fd = false :=
  Bool.eq_false_iff.mpr fun hbit => ((h fd).mp hbit).1 hfd

theorem Exact.taken_free (h : Exact g c) {c' : Task} {fd : Fd} {f : File} (hfd : c.filp fd = none)
    (hfilp : c'.filp = Function.update c.filp fd (some f))
    (hbits : c'.closeOnExec = c.closeOnExec) :
    Exact (Function.update g fd false) c' := by
  refine h.taken hfilp (hbits.trans ?_)
  rw [← h.bit_of_free hfd, Function.update_eq_self]

/-- What is asked for of a descriptor that is free does not matter. -/
theorem Exact.of_free {x : Bool} {fd : Fd} (h : Exact (Function.update g fd x) c)
    (hfd : c.filp fd = none) : Exact g c := by
  intro i
  by_cases hi : i = fd
  · subst hi
    rw [h.bit_of_free hfd, hfd]
    simp
  · have hexact := h i
    rwa [Function.update_of_ne hi] at hexact

/-- A descriptor is given back. -/
theorem Exact.untaken {fd : Fd} (h : Exact (Function.update g fd false) c) {c' : Task}
    (hfilp : c'.filp = Function.update c.filp fd none) (hbits : c'.closeOnExec = c.closeOnExec) :
    Exact g c' := by
  suffices hexact : Exact (Function.update g fd false) c' from
    hexact.of_free (by rw [hfilp, Function.update_self])
  intro i
  rw [hfilp, hbits]
  by_cases hi : i = fd
  · subst hi
    rw [h i, Function.update_self, Function.update_self]
    simp
  · rw [Function.update_of_ne hi]
    exact h i

namespace Cpu

variable {s : Cpu}

theorem close_current (s : Cpu) (fd : ℕ) :
    (s.close fd).2.current = if h : fd < 20 then s.current.closed ⟨fd, h⟩ else s.current := by
  unfold close
  split_ifs with h
  · dsimp only
    cases hfilp : (s.setCloseOnExec ⟨fd, h⟩ false).current.filp ⟨fd, h⟩ with
    | none =>
      have hfree : Function.update s.current.filp ⟨fd, h⟩ none = s.current.filp := by
        rw [← hfilp]
        exact Function.update_eq_self ..
      rw [Task.closed, hfree]
      rfl
    | some f =>
      dsimp only
      split_ifs <;> rfl
  · rfl

theorem close_panic (s : Cpu) (fd : ℕ) (h : (s.close fd).1 = .panic) :
    (s.close fd).2.panicked = true := by
  unfold close at h ⊢
  split_ifs at h ⊢
  · dsimp only at h ⊢
    cases hfilp : (s.setCloseOnExec ⟨fd, _⟩ false).current.filp ⟨fd, _⟩ with
    | none =>
      rw [hfilp] at h
      cases h
    | some f =>
      rw [hfilp] at h
      dsimp only at h ⊢
      split_ifs at h ⊢
      rfl

theorem exact_close (h : Exact g s.current) (fd : ℕ) : Exact g (s.close fd).2.current := by
  rw [close_current]
  split_ifs with hfd
  · exact h.closed ⟨fd, hfd⟩
  · exact h

theorem close_cases (h : Exact g s.current) (fd : ℕ) : ∃ r s', s.close fd = (r, s') ∧
    Exact g s'.current ∧ (r = .panic → s'.panicked = true) :=
  ⟨_, _, rfl, exact_close h fd, close_panic s fd⟩

/-- A rule for the loops of `do_execve` and `do_exit`: what holds with the descriptors still to look
at is kept by a turn, and gives what is wanted where the process sleeps and at the end. -/
theorem closeEach_rule {test : Task → Fd → Bool} {caller : List Fd → Caller} {done : Cpu → Cpu}
    {I : List Fd → Task → Prop} {Q : Task → Prop}
    (hskip : ∀ fd rest c, test c fd = false → I (fd :: rest) c → I rest c)
    (hclose : ∀ fd rest c, test c fd = true → I (fd :: rest) c → I rest (c.closed fd))
    (hsleep : ∀ rest c, I rest c → Q { c with pc := .closeIput (caller rest) })
    (hdone : ∀ s, I [] s.current → Q (done s).current) (fds : List Fd) {s : Cpu}
    (h : I fds s.current) (hrun : (closeEach test caller done fds s).panicked = false) :
    Q (closeEach test caller done fds s).current := by
  induction fds generalizing s with
  | nil => exact hdone s h
  | cons fd rest ih =>
    rw [closeEach] at hrun ⊢
    cases htest : test s.current fd with
    | false =>
      rw [htest] at hrun
      exact ih (hskip fd rest _ htest h) hrun
    | true =>
      rw [htest] at hrun
      have hI := hclose fd rest _ htest h
      have hcurrent := s.close_current fd
      rw [dif_pos fd.isLt] at hcurrent
      have hpanic := close_panic s fd
      rcases hc : s.close fd with ⟨r, s'⟩
      rw [hc] at hcurrent hpanic
      rw [hc] at hrun
      dsimp only at hcurrent
      rw [← hcurrent] at hI
      cases r with
      | panic => exact absurd ((hpanic rfl).symm.trans hrun) (by decide)
      | iput => exact hsleep rest _ hI
      | value v => exact ih hI hrun

/-- `execve` closes what has been asked for, and goes on. -/
theorem valid_execLoop {fds : List Fd} (h : Exact g s.current) (hb : b.flagged = g)
    (hfds : fds.Nodup) (hfilp : ∀ fd, s.current.filp fd =
      if fd ∈ fds then b.filp fd else if g fd then none else b.filp fd)
    (hrun : (s.execLoop fds).panicked = false) : Valid g b (s.execLoop fds).current := by
  refine closeEach_rule (I := fun fds c => Exact g c ∧ b.flagged = g ∧ fds.Nodup ∧ ∀ fd,
    c.filp fd = if fd ∈ fds then b.filp fd else if g fd then none else b.filp fd) ?_ ?_ ?_ ?_ fds
    ⟨h, hb, hfds, hfilp⟩ hrun
  · rintro fd rest c htest ⟨hexact, hb, hnodup, hfilp⟩
    obtain ⟨hfd, hrest⟩ := List.nodup_cons.mp hnodup
    refine ⟨hexact, hb, hrest, fun i => ?_⟩
    by_cases hi : i = fd
    · -- Without a bit the descriptor is free, or nothing has been asked for.
      subst hi
      have hopen := hfilp i
      rw [if_pos List.mem_cons_self] at hopen
      rw [if_neg hfd]
      split_ifs with hg
      · by_contra hne
        exact absurd ((hexact i).mpr ⟨hne, hg⟩) (Bool.eq_false_iff.mp htest)
      · exact hopen
    · rw [hfilp i]
      simp only [List.mem_cons, hi, false_or]
  · rintro fd rest c htest ⟨hexact, hb, hnodup, hfilp⟩
    obtain ⟨hfd, hrest⟩ := List.nodup_cons.mp hnodup
    refine ⟨hexact.closed fd, hb, hrest, fun i => ?_⟩
    by_cases hi : i = fd
    · subst hi
      rw [if_neg hfd, if_pos ((hexact i).mp htest).2]
      exact Function.update_self ..
    · refine (Function.update_of_ne hi ..).trans ((hfilp i).trans ?_)
      simp only [List.mem_cons, hi, false_or]
  · rintro rest c ⟨hexact, hb, hnodup, hfilp⟩
    exact ⟨hexact.congr rfl rfl, hb, hnodup, hfilp⟩
  · rintro s ⟨hexact, hb, -, hfilp⟩
    have hfilp' (fd : Fd) : s.current.filp fd = if g fd then none else b.filp fd := by
      rw [hfilp fd, if_neg List.not_mem_nil]
    refine ⟨fun fd => ⟨fun hbit => Bool.noConfusion hbit, fun ⟨hopen, hg⟩ => ?_⟩, hb, hfilp'⟩
    exact absurd ((hfilp' fd).trans (if_pos hg)) hopen

/-- The end of a process. -/
theorem valid_exitLoop {fds : List Fd} (h : ∃ g', Exact g' s.current)
    (hrun : (s.exitLoop fds).panicked = false) : Valid g b (s.exitLoop fds).current := by
  refine closeEach_rule (I := fun _ c => ∃ g', Exact g' c) ?_ ?_ ?_ ?_ fds h hrun
  · exact fun _ _ _ _ h => h
  · exact fun fd _ _ _ ⟨g', h⟩ => ⟨g', h.closed fd⟩
  · exact fun _ _ ⟨g', h⟩ => ⟨g', h.congr rfl rfl⟩
  · exact fun _ ⟨g', h⟩ => ⟨g', h.congr rfl rfl⟩

theorem asked_of_silent {e : Event} {c c' : Task} (hret : ∀ fd, returned c e c' fd = false)
    (hset : ∀ fd, setfd c e fd = none) : asked c e c' g = g := by
  funext fd
  rw [asked, hret, hset]
  rfl

theorem silent {e : Event} {c c' : Task} (h : Valid g b c')
    (hret : ∀ fd, returned c e c' fd = false)
    (hset : ∀ fd, setfd c e fd = none) : Valid (asked c e c' g) b c' := by
  rw [asked_of_silent hret hset]
  exact h

theorem asked_of_returned {e : Event} {c c' : Task} {i : Fd}
    (hret : ∀ fd, returned c e c' fd = decide (fd = i)) (hset : ∀ fd, setfd c e fd = none) :
    asked c e c' g = Function.update g i false := by
  funext fd
  rw [asked, hret, hset, Function.update_apply]
  simp

/-- `dupfd` returns a descriptor without a bit, or an error. -/
theorem dupfd_cases (h : Exact g s.current) (fd arg : ℕ) :
    (s.dupfd fd arg).current.pc = .user ∧
      ((s.dupfd fd arg).current.eax < 0 ∧ Exact g (s.dupfd fd arg).current ∨
        ∃ i : Fd, (s.dupfd fd arg).current.eax = i.val ∧
          Exact (Function.update g i false) (s.dupfd fd arg).current) := by
  have herror (v : ℤ) (hv : v < 0) : (s.ret v).current.pc = .user ∧
      ((s.ret v).current.eax < 0 ∧ Exact g (s.ret v).current ∨ ∃ i : Fd,
        (s.ret v).current.eax = i.val ∧ Exact (Function.update g i false) (s.ret v).current) :=
    ⟨rfl, Or.inl ⟨hv, h.congr rfl rfl⟩⟩
  unfold dupfd
  cases s.filpAt fd with
  | none => exact herror (-EBADF) (by decide)
  | some f =>
    dsimp only
    split_ifs
    · exact herror (-EINVAL) (by decide)
    · cases (List.finRange 20).find? fun i => arg ≤ i.val ∧ s.current.filp i = none with
      | none => exact herror (-EMFILE) (by decide)
      | some i => exact ⟨rfl, Or.inr ⟨i, rfl, h.taken rfl rfl⟩⟩

/-- A call that ends with `dupfd`. -/
theorem valid_dupfd (h : Exact g s.current) (fd arg : ℕ) {e : Event} {c : Task}
    (hret : ∀ c' fd, returned c e c' fd = (decide (c'.pc = .user) && decide (c'.eax = fd.val)))
    (hset : ∀ fd, setfd c e fd = none) :
    Valid (asked c e (s.dupfd fd arg).current g) b (s.dupfd fd arg).current := by
  obtain ⟨hpc, hcases⟩ := dupfd_cases h fd arg
  have hvalid {g' : Fd → Bool} (h' : Exact g' (s.dupfd fd arg).current) :
      Valid g' b (s.dupfd fd arg).current := by
    unfold Valid
    rw [hpc]
    exact h'
  rcases hcases with ⟨heax, hexact⟩ | ⟨i, heax, hexact⟩
  · rw [asked_of_silent (fun i => ?_) hset]
    · exact hvalid hexact
    · have hne : (s.dupfd fd arg).current.eax ≠ i.val := by omega
      rw [hret, decide_eq_false hne, Bool.and_false]
  · rw [asked_of_returned (i := i) (fun fd => ?_) hset]
    · exact hvalid hexact
    · rw [hret, hpc, heax]
      simp [Fin.ext_iff, eq_comm]

theorem valid_sysOpen (h : Exact g s.current) : Valid g b s.sysOpen.current := by
  unfold sysOpen
  cases hfree : (List.finRange 20).find? fun fd => s.current.filp fd = none with
  | none => exact h.congr rfl rfl
  | some fd =>
    have hfd : s.current.filp fd = none := by simpa using List.find?_some hfree
    dsimp only
    cases (List.finRange 64).find? fun f => (s.setCloseOnExec fd false).fcount f = 0 with
    | none =>
      have hbit : Function.update s.current.closeOnExec fd false = s.current.closeOnExec := by
        rw [← h.bit_of_free hfd, Function.update_eq_self]
      exact h.congr rfl hbit
    | some f => exact h.taken rfl rfl

/-- The descriptors that `sys_pipe` takes are free, and have no bits. -/
theorem valid_sysPipe (h : Exact g s.current) : Valid g b s.sysPipe.current := by
  unfold sysPipe
  split
  · rename_i f₀ f₁ files hfiles
    dsimp only
    split
    · rename_i fd₀ fd₁ rest hfds
      have hfree (fd : Fd) (hfd : fd ∈ fd₀ :: fd₁ :: rest) : s.current.filp fd = none := by
        rw [← hfds] at hfd
        have hfilter := List.of_mem_filter hfd
        exact of_decide_eq_true hfilter
      have hfd : fd₀ ≠ fd₁ := by
        have hnodup : (fd₀ :: fd₁ :: rest).Nodup := hfds ▸ (List.nodup_finRange 20).filter _
        exact fun h => (List.nodup_cons.mp hnodup).1 (h ▸ List.mem_cons_self)
      have hfd₁ : (s.setFilp fd₀ (some f₀)).current.filp fd₁ = none :=
        (Function.update_of_ne hfd.symm ..).trans
          (hfree fd₁ (List.mem_cons_of_mem _ List.mem_cons_self))
      have h₀ : Exact (Function.update g fd₀ false) (s.setFilp fd₀ (some f₀)).current :=
        h.taken_free (hfree fd₀ List.mem_cons_self) rfl rfl
      exact h₀.taken_free hfd₁ rfl rfl
    · exact h.congr rfl rfl
  · exact h.congr rfl rfl

theorem valid_sysClose (h : Exact g s.current) (fd : ℕ)
    (hrun : (s.sysClose fd).panicked = false) : Valid g b (s.sysClose fd).current := by
  obtain ⟨r, s', hclose, hexact, hpanic⟩ := close_cases h fd
  unfold sysClose at hrun ⊢
  rw [hclose] at hrun ⊢
  cases r with
  | panic => exact absurd ((hpanic rfl).symm.trans hrun) (by decide)
  | iput => exact hexact.congr rfl rfl
  | value v => exact hexact.congr rfl rfl

theorem valid_sysDup2 (h : Exact g s.current) (t : TaskNr) (oldfd newfd : ℕ)
    (hrun : (s.sysDup2 oldfd newfd).panicked = false) :
    Valid (asked s.current (.call t (.dup2 oldfd newfd)) (s.sysDup2 oldfd newfd).current g) b
      (s.sysDup2 oldfd newfd).current := by
  obtain ⟨r, s', hclose, hexact, hpanic⟩ := close_cases h newfd
  unfold sysDup2 at hrun ⊢
  rw [hclose] at hrun ⊢
  cases r with
  | panic => exact absurd ((hpanic rfl).symm.trans hrun) (by decide)
  | iput => exact silent (hexact.congr rfl rfl) (fun _ => rfl) fun _ => rfl
  | value v => exact valid_dupfd hexact oldfd newfd (fun _ _ => rfl) fun _ => rfl

/-- `F_SETFD` sets the bit of an open descriptor to what is asked for. -/
theorem valid_setfd (h : Exact g s.current) (t : TaskNr) (fd : ℕ) (arg : ℕ) :
    Valid (asked s.current (.call t (.fcntl fd .setfd arg)) (s.sysFcntl fd .setfd arg).current g) b
      (s.sysFcntl fd .setfd arg).current := by
  have hasked (c' : Task) (i : Fd) : asked s.current (.call t (.fcntl fd .setfd arg)) c' g i =
      if fd = i.val ∧ (s.current.filp i).isSome then decide (arg % 2 = 1) else g i := by
    have hret : returned s.current (.call t (.fcntl fd .setfd arg)) c' i = false := Bool.and_false _
    rw [asked, hret, if_neg Bool.false_ne_true, setfd]
    split_ifs <;> rfl
  unfold sysFcntl
  cases hfilp : s.filpAt fd with
  | none =>
    intro i
    rw [hasked, if_neg]
    · exact h i
    · rintro ⟨rfl, hopen⟩
      rw [filpAt, dif_pos i.isLt] at hfilp
      rw [hfilp] at hopen
      cases hopen
  | some f =>
    dsimp only
    unfold filpAt at hfilp
    split_ifs at hfilp with hlt
    rw [dif_pos hlt]
    intro i
    rw [hasked]
    change Function.update s.current.closeOnExec ⟨fd, hlt⟩ (decide (arg % 2 = 1)) i = true ↔
      s.current.filp i ≠ none ∧ _
    by_cases hi : i = ⟨fd, hlt⟩
    · subst hi
      rw [Function.update_self, if_pos ⟨rfl, by rw [hfilp]; rfl⟩, hfilp]
      simp
    · rw [Function.update_of_ne hi, if_neg fun hfd => hi (Fin.ext hfd.1.symm)]
      exact h i

theorem valid_sysFcntl (h : Exact g s.current) (t : TaskNr) (fd : ℕ) (cmd : Cmd) (arg : ℕ) :
    Valid (asked s.current (.call t (.fcntl fd cmd arg)) (s.sysFcntl fd cmd arg).current g) b
      (s.sysFcntl fd cmd arg).current := by
  cases cmd with
  | dupfd =>
    have heq : s.sysFcntl fd .dupfd arg = s.dupfd fd arg := by
      unfold sysFcntl
      cases hfilp : s.filpAt fd with
      | none =>
        rw [dupfd, hfilp]
      | some f => rfl
    rw [heq]
    exact valid_dupfd h fd arg (fun _ _ => rfl) fun _ => rfl
  | getfd | other v =>
    refine silent ?_ (fun _ => Bool.and_false _) fun _ => rfl
    unfold sysFcntl
    cases s.filpAt fd <;> exact h.congr rfl rfl
  | setfd => exact valid_setfd h t fd arg

/-- What a call does up to the first sleep. -/
theorem valid_call (h : Exact g s.current) (t : TaskNr) (call : Call)
    (hexec : call = .execve → b = ⟨s.current.filp, g⟩) (hrun : (s.call call).panicked = false) :
    Valid (asked s.current (.call t call) (s.call call).current g) b (s.call call).current := by
  cases call with
  | «open» | creat => exact silent (valid_sysOpen h) (fun _ => Bool.and_false _) fun _ => rfl
  | close fd => exact silent (valid_sysClose h fd hrun) (fun _ => Bool.and_false _) fun _ => rfl
  | dup fildes => exact valid_dupfd h fildes 0 (fun _ _ => rfl) fun _ => rfl
  | dup2 oldfd newfd => exact valid_sysDup2 h t oldfd newfd hrun
  | fcntl fd cmd arg => exact valid_sysFcntl h t fd cmd arg
  | pipe => exact silent (valid_sysPipe h) (fun _ => Bool.and_false _) fun _ => rfl
  | execve =>
    exact silent ⟨h.congr rfl rfl, hexec rfl⟩ (fun _ => Bool.and_false _) fun _ => rfl
  | exit =>
    exact silent (valid_exitLoop ⟨g, h⟩ hrun) (fun _ => Bool.and_false _) fun _ => rfl

/-- `sys_pipe` gives the descriptors back. -/
theorem valid_pipeFail {fd₀ fd₁ : Fd} (f₀ f₁ : File)
    (h : Exact (Function.update (Function.update g fd₀ false) fd₁ false) s.current) :
    Valid g b (s.pipeFail fd₀ fd₁ f₀ f₁).current := by
  have h₁ : Exact (Function.update g fd₀ false) (s.setFilp fd₁ none).current := h.untaken rfl rfl
  exact h₁.untaken rfl rfl

theorem returned_resume {c c' : Task} {t : TaskNr} {fd : Fd} {pc : Pc} (hpc : c.pc = pc) :
    returned c (.resume t .ok) c' fd = (decide (c'.pc = .user) && pc.returns c'.eax fd) := by
  subst hpc
  rfl

/-- What the caller of `sys_close` does. -/
theorem valid_afterClose {caller : Caller} (h : Valid g b s.current)
    (hpc : s.current.pc = .closeIput caller) (t : TaskNr)
    (hrun : (s.afterClose caller).panicked = false) :
    Valid (asked s.current (.resume t .ok) (s.afterClose caller).current g) b
      (s.afterClose caller).current := by
  unfold Valid at h
  rw [hpc] at h
  cases caller with
  | user =>
    exact silent (Exact.congr h rfl rfl)
      (fun _ => (returned_resume hpc).trans (Bool.and_false _)) fun _ => rfl
  | dup2 oldfd newfd =>
    exact valid_dupfd h oldfd newfd (fun _ _ => returned_resume hpc) fun _ => rfl
  | execve rest =>
    obtain ⟨hexact, hb, hnodup, hfilp⟩ := h
    exact silent (valid_execLoop hexact hb hnodup hfilp hrun)
      (fun _ => (returned_resume hpc).trans (Bool.and_false _)) fun _ => rfl
  | exit rest =>
    exact silent (valid_exitLoop h hrun)
      (fun _ => (returned_resume hpc).trans (Bool.and_false _)) fun _ => rfl

/-- What a process does after it may have slept, up to the next sleep. -/
theorem valid_resume {s' : Cpu} (h : Valid g b s.current) (t : TaskNr) {a : Answer}
    (hs : s.resume a = some s') (hrun : s'.panicked = false) :
    Valid (asked s.current (.resume t a) s'.current g) b s'.current := by
  have hvalid := h
  unfold resume at hs
  unfold Valid at h
  split at hs
  all_goals
    rename_i hpc
    try rw [hpc] at h
    try obtain rfl := Option.some.inj hs
  · rename_i fd f
    have hasked : asked s.current (.resume t .ok) ((s.setCount f 1).ret fd).current g =
        Function.update g fd false := by
      refine asked_of_returned (fun i => (returned_resume hpc).trans ?_) fun _ => rfl
      simp [Cpu.ret, Pc.returns, Fin.ext_iff, eq_comm]
    exact hasked ▸ Exact.congr h rfl rfl
  · exact silent (Exact.untaken h rfl rfl) (fun _ => Bool.and_false _) fun _ => rfl
  · exact silent (Exact.congr h rfl rfl) (fun _ => Bool.and_false _) fun _ => rfl
  · exact silent (Exact.untaken h rfl rfl)
      (fun _ => (returned_resume hpc).trans (Bool.and_false _)) fun _ => rfl
  · rename_i fd₀ fd₁ f₀ f₁
    have hasked : asked s.current (.resume t .ok) (s.ret 0).current g =
        Function.update (Function.update g fd₀ false) fd₁ false := by
      funext i
      rw [asked, returned_resume hpc]
      simp only [Cpu.ret, Pc.returns, setfd, Function.update_apply]
      by_cases h₁ : i = fd₁ <;> by_cases h₀ : i = fd₀ <;> simp [h₀, h₁]
    exact hasked ▸ Exact.congr h rfl rfl
  · exact silent (valid_pipeFail _ _ h) (fun _ => Bool.and_false _) fun _ => rfl
  · exact valid_afterClose hvalid hpc t hrun
  · obtain ⟨hexact, hb⟩ := h
    have hfilp (fd : Fd) : s.current.filp fd =
        if fd ∈ List.finRange 20 then b.filp fd else if g fd then none else b.filp fd := by
      rw [if_pos (List.mem_finRange fd), hb]
    exact silent (valid_execLoop hexact (by rw [hb]) (List.nodup_finRange 20) hfilp hrun)
      (fun _ => (returned_resume hpc).trans (Bool.and_false _)) fun _ => rfl
  · exact silent (Exact.congr h.1 rfl rfl) (fun _ => Bool.and_false _) fun _ => rfl
  · exact silent (Exact.congr h.1 rfl rfl)
      (fun _ => (returned_resume hpc).trans (Bool.and_false _)) fun _ => rfl
  · exact silent (valid_exitLoop ⟨g, h.1⟩ hrun) (fun _ => Bool.and_false _) fun _ => rfl
  · exact silent (valid_exitLoop ⟨_, h⟩ hrun) (fun _ => Bool.and_false _) fun _ => rfl
  · exact silent (valid_exitLoop ⟨_, h⟩ hrun) (fun _ => Bool.and_false _) fun _ => rfl
  · exact silent (valid_exitLoop ⟨g, h.1⟩ hrun) (fun _ => Bool.and_false _) fun _ => rfl
  · cases hs

theorem copyFilp_current (filp : Fd → Option File) (fds : List Fd) (s : Cpu) :
    (s.copyFilp filp fds).current = s.current := by
  induction fds generalizing s with
  | nil => rfl
  | cons fd fds ih =>
    refine (ih _).trans ?_
    dsimp only
    split
    · rfl
    · rfl

end Cpu

/-! ### Runs -/

namespace Traced

/-- The counts are exact, and every task has what has been asked for. -/
structure Inv (s : Traced) : Prop where
  counts : s.sys.Inv
  valid : ∀ i c, s.sys.task i = some c → Valid (s.flagged i) (s.called i) c

variable {s s' : Traced}

theorem inv_boot : Inv boot where
  counts := .boot
  valid i c h := by
    change State.boot.task i = some c at h
    unfold State.boot at h
    dsimp only at h
    split_ifs at h
    obtain rfl := Option.some.inj h
    exact fun fd => by simp

/-- What is recorded of another task. -/
theorem flagged_of_ne {e : Event} {sys' : State} {i : TaskNr} (hi : i ≠ e.task)
    (htask : sys'.task i = s.sys.task i) : (s.record e sys').flagged i = s.flagged i := by
  unfold record
  dsimp only
  rw [htask]
  cases s.sys.task i with
  | none => rfl
  | some c => exact if_neg hi

theorem called_of_ne {e : Event} {sys' : State} {i : TaskNr} (hi : i ≠ e.task) :
    (s.record e sys').called i = s.called i := by
  unfold record
  dsimp only
  split
  · rename_i t
    cases s.sys.task t with
    | none => rfl
    | some c => exact Function.update_of_ne hi ..
  · rfl

/-- What is recorded of the task that has run. -/
theorem flagged_self {e : Event} {sys' : State} {c c' : Task} (hc : s.sys.task e.task = some c)
    (hc' : sys'.task e.task = some c') :
    (s.record e sys').flagged e.task = asked c e c' (s.flagged e.task) := by
  unfold record
  dsimp only
  rw [hc, hc']
  exact if_pos rfl

/-- One task has run. -/
theorem valid_put {e : Event} {c : Task} {k : Cpu} (h : Inv s) (hc : s.sys.task e.task = some c)
    (hk : Valid (asked c e k.current (s.flagged e.task))
      ((s.record e (s.sys.put e.task k)).called e.task) k.current) (i : TaskNr) (c' : Task)
    (hc' : (s.sys.put e.task k).task i = some c') :
    Valid ((s.record e (s.sys.put e.task k)).flagged i)
      ((s.record e (s.sys.put e.task k)).called i) c' := by
  have htask : (s.sys.put e.task k).task e.task = some k.current := Function.update_self ..
  by_cases hi : i = e.task
  · subst hi
    obtain rfl := Option.some.inj (htask.symm.trans hc')
    rwa [flagged_self hc htask]
  · have hsame : (s.sys.put e.task k).task i = s.sys.task i := Function.update_of_ne hi ..
    rw [flagged_of_ne hi hsame, called_of_ne hi]
    exact h.valid i c' (hsame ▸ hc')

/-- A task is freed. -/
theorem valid_free {e : Event} {sys' : State} (h : Inv s)
    (hsys : sys'.task = Function.update s.sys.task e.task none) (i : TaskNr) (c' : Task)
    (hc' : sys'.task i = some c') :
    Valid ((s.record e sys').flagged i) ((s.record e sys').called i) c' := by
  by_cases hi : i = e.task
  · rw [hsys, hi, Function.update_self] at hc'
    cases hc'
  · have hsame : sys'.task i = s.sys.task i := by rw [hsys, Function.update_of_ne hi]
    rw [flagged_of_ne hi hsame, called_of_ne hi]
    exact h.valid i c' (hsame ▸ hc')

/-- A process in user mode has exactly what has been asked for. -/
theorem Inv.exact (h : Inv s) {t : TaskNr} {c : Task} (hc : s.sys.task t = some c)
    (hpc : c.pc = .user) : Exact (s.flagged t) c := by
  have hvalid := h.valid t c hc
  unfold Valid at hvalid
  rwa [hpc] at hvalid

/-- The child has the descriptors of its parent, and what has been asked for. -/
theorem valid_fork {t : TaskNr} {c : Task} (page copied : Bool) (h : Inv s)
    (hc : s.sys.task t = some c) (hpc : c.pc = .user) (i : TaskNr) (c' : Task)
    (hc' : (s.sys.fork t c page copied).task i = some c') :
    Valid ((s.record (.fork t page copied) (s.sys.fork t c page copied)).flagged i)
      ((s.record (.fork t page copied) (s.sys.fork t c page copied)).called i) c' := by
  have hexact := h.exact hc hpc
  have hparent {k : Cpu} {v : ℤ} (hk : k.current = c) {b : Table} :
      Valid (asked c (.fork t page copied) (k.ret v).current (s.flagged t)) b
        (k.ret v).current := by
    have hret : Exact (s.flagged t) (k.ret v).current := hexact.congr (hk ▸ rfl) (hk ▸ rfl)
    exact Cpu.silent hret (fun _ => Bool.and_false _) fun _ => rfl
  have hfails (v : ℤ) (hc' : (s.sys.put t ((s.sys.cpu c).ret v)).task i = some c') :
      Valid ((s.record (.fork t page copied) (s.sys.put t ((s.sys.cpu c).ret v))).flagged i)
        ((s.record (.fork t page copied) (s.sys.put t ((s.sys.cpu c).ret v))).called i) c' :=
    valid_put (e := .fork t page copied) h hc (hparent rfl) i c' hc'
  unfold State.fork at hc' ⊢
  split
  · rename_i hnone
    rw [hnone] at hc'
    exact hfails _ hc'
  · rename_i nr hnr
    rw [hnr] at hc'
    dsimp only at hc' ⊢
    have hfree := State.Inv.findEmptyProcess_free hnr
    have hne : nr ≠ t := by
      rintro rfl
      rw [hfree] at hc
      cases hc
    split_ifs with hcopied
    · rw [if_pos hcopied] at hc'
      set k := ((s.sys.cpu c).copyFilp c.filp (List.finRange 20)).ret nr with hk
      by_cases hi : i = nr
      · subst hi
        have hchild : c' = { c with eax := 0 } :=
          Option.some.inj (hc'.symm.trans (Function.update_self ..))
        have hflagged : (s.record (.fork t page copied) { s.sys.put t k with
            task := Function.update (s.sys.put t k).task i (some { c with eax := 0 }) }).flagged i =
              s.flagged t := by
          unfold record
          dsimp only
          rw [hfree, Function.update_self]
          rfl
        rw [hflagged, hchild]
        unfold Valid
        dsimp only
        rw [hpc]
        exact hexact.congr rfl rfl
      · have hput : (s.sys.put t k).task i = some c' :=
          (Function.update_of_ne hi ..).symm.trans hc'
        have hvalid := valid_put (e := .fork t page copied) (k := k) h hc
          (hparent (Cpu.copyFilp_current ..)) i c' hput
        have hrecord : (s.record (.fork t page copied) { s.sys.put t k with
            task := Function.update (s.sys.put t k).task nr (some { c with eax := 0 }) }).flagged
              i =
              (s.record (.fork t page copied) (s.sys.put t k)).flagged i := by
          unfold record
          dsimp only
          rw [Function.update_of_ne hi]
        rw [hrecord]
        exact hvalid
    · rw [if_neg hcopied] at hc'
      exact hfails _ hc'

theorem inv_step {e : Event} (h : Inv s) (hs : s.next e = some s') : Inv s' := by
  obtain ⟨sys', hsys, rfl⟩ := Option.map_eq_some_iff.mp hs
  have hcounts : sys'.Inv := h.counts.step hsys
  refine ⟨hcounts, ?_⟩
  change ∀ i c', sys'.task i = some c' → _
  cases e with
  | call t call =>
    obtain ⟨c, hc, hsys⟩ := Option.bind_eq_some_iff.mp hsys
    obtain ⟨⟨-, hpc⟩, hsys⟩ := Option.ite_none_right_eq_some.mp hsys
    obtain rfl := Option.some.inj hsys
    refine valid_put (e := .call t call) h hc
      (Cpu.valid_call (h.exact hc hpc) t call ?_ hcounts.running)
    rintro rfl
    unfold record
    dsimp only
    rw [hc]
    exact Function.update_self ..
  | resume t a =>
    obtain ⟨c, hc, hsys⟩ := Option.bind_eq_some_iff.mp hsys
    obtain ⟨-, hsys⟩ := Option.ite_none_right_eq_some.mp hsys
    obtain ⟨k, hk, rfl⟩ := Option.map_eq_some_iff.mp hsys
    exact valid_put (e := .resume t a) h hc
      (Cpu.valid_resume (h.valid t c hc) t hk hcounts.running)
  | fork t page copied =>
    obtain ⟨c, hc, hsys⟩ := Option.bind_eq_some_iff.mp hsys
    obtain ⟨⟨-, hpc⟩, hsys⟩ := Option.ite_none_right_eq_some.mp hsys
    obtain rfl := Option.some.inj hsys
    exact valid_fork page copied h hc hpc
  | exited t father =>
    obtain ⟨c, hc, hsys⟩ := Option.bind_eq_some_iff.mp hsys
    obtain ⟨⟨-, hpc⟩, hsys⟩ := Option.ite_none_right_eq_some.mp hsys
    have hvalid := h.valid t c hc
    unfold Valid at hvalid
    rw [hpc] at hvalid
    split_ifs at hsys
    · obtain rfl := Option.some.inj hsys
      obtain ⟨g', hg'⟩ := hvalid
      exact valid_put (e := .exited t father) h hc ⟨g', hg'.congr rfl rfl⟩
    · obtain rfl := Option.some.inj hsys
      exact valid_free (e := .exited t father) h rfl
  | release t =>
    obtain ⟨c, hc, hsys⟩ := Option.bind_eq_some_iff.mp hsys
    obtain ⟨-, hsys⟩ := Option.ite_none_right_eq_some.mp hsys
    obtain rfl := Option.some.inj hsys
    exact valid_free (e := .release t) h rfl

end Traced

theorem Valid.exact {g : Fd → Bool} {b : Table} {c : Task} (h : Valid g b c) :
    ∃ g', Exact g' c := by
  unfold Valid at h
  split at h
  all_goals first
    | exact ⟨_, h⟩
    | exact ⟨_, h.1⟩
    | exact h

/-- **Close on exec is exact.** In every state that is reached a bit is set only for an open
descriptor, and for a process in user mode exactly if the flag has been asked for. The descriptors
that a call returns have no bit. When `execve` returns to a new program it has closed the
descriptors for which the flag had been asked for when it was called, and no others. -/
theorem closeOnExec_exact {es : List Event} {s : Traced}
    (h : Runs (fun s e s' => Traced.next s e = some s') Traced.boot es s) :
    (∀ t c fd, s.sys.task t = some c → c.closeOnExec fd = true → c.filp fd ≠ none) ∧
    (∀ t c fd, s.sys.task t = some c → c.pc = .user →
      (c.closeOnExec fd = true ↔ c.filp fd ≠ none ∧ s.flagged t fd = true)) ∧
    (∀ e s' c c' fd, s.next e = some s' → s.sys.task e.task = some c →
      s'.sys.task e.task = some c' →
      returned c e c' fd = true → c'.closeOnExec fd = false) ∧
    ∀ t s' c c', s.next (.resume t .ok) = some s' → s.sys.task t = some c →
      s'.sys.task t = some c' → c.pc = .execRead → c'.pc = .user ∧ ∀ fd, c'.closeOnExec fd = false ∧
        c'.filp fd = if (s.called t).flagged fd then none else (s.called t).filp fd := by
  have hI : s.Inv := h.invariant (I := Traced.Inv) (fun _ _ _ hI hs => Traced.inv_step hI hs)
    Traced.inv_boot
  refine ⟨fun t c fd hc hbit => ?_, fun t c fd hc hpc => hI.exact hc hpc fd,
    fun e s' c c' fd hs hc hc' hret => ?_, fun t s' c c' hs hc hc' hpc => ?_⟩
  · obtain ⟨g', hg'⟩ := (hI.valid t c hc).exact
    exact ((hg' fd).mp hbit).1
  · have hpc : c'.pc = .user := by
      unfold returned at hret
      exact of_decide_eq_true (Bool.and_eq_true_iff.mp hret).1
    have hexact := (Traced.inv_step hI hs).exact hc' hpc fd
    obtain ⟨sys', -, rfl⟩ := Option.map_eq_some_iff.mp hs
    have hflagged : (s.record e sys').flagged e.task = asked c e c' (s.flagged e.task) :=
      Traced.flagged_self hc hc'
    rw [hflagged, asked, if_pos hret] at hexact
    exact Bool.eq_false_iff.mpr fun hbit => Bool.noConfusion (hexact.mp hbit).2
  · have hvalid := hI.valid t c hc
    unfold Valid at hvalid
    rw [hpc] at hvalid
    obtain ⟨hexact, hflagged, hfilp⟩ := hvalid
    obtain ⟨sys', hsys, rfl⟩ := Option.map_eq_some_iff.mp hs
    obtain ⟨c₀, hc₀, hsys⟩ := Option.bind_eq_some_iff.mp hsys
    obtain rfl := Option.some.inj (hc.symm.trans hc₀)
    obtain ⟨-, hsys⟩ := Option.ite_none_right_eq_some.mp hsys
    obtain ⟨k, hk, rfl⟩ := Option.map_eq_some_iff.mp hsys
    have hk' : (s.sys.cpu c).ret 0 = k := by
      unfold Cpu.resume at hk
      rw [show (s.sys.cpu c).current.pc = .execRead from hpc] at hk
      exact Option.some.inj hk
    have hput : (s.sys.put t k).task t = some k.current := Function.update_self ..
    obtain rfl : k.current = c' := Option.some.inj (hput.symm.trans hc')
    subst hk'
    refine ⟨rfl, fun fd => ⟨?_, ?_⟩⟩
    · refine Bool.eq_false_iff.mpr fun hbit => ?_
      obtain ⟨hopen, hasked⟩ := (hexact fd).mp hbit
      exact hopen ((hfilp fd).trans (if_pos hasked))
    · rw [hflagged]
      exact hfilp fd

/-- A task opens a file and duplicates the descriptor, asks for the flag of the first, and calls
`execve`, which closes that. -/
theorem closeOnExec_exact_two : ∃ es s s' c c',
    Runs (fun s e s' => Traced.next s e = some s') Traced.boot es s ∧
      s.next (.resume 0 .ok) = some s' ∧ s.sys.task 0 = some c ∧ s'.sys.task 0 = some c' ∧
      c.pc = .execRead ∧ (s.called 0).flagged 0 = true ∧ c'.filp 0 = none ∧
      c'.filp 1 = (s.called 0).filp 1 := by
  have hexec : ∃ s s' c c', exec Traced.next Traced.boot
      [.call 0 .open, .resume 0 .ok, .call 0 (.dup 0), .call 0 (.fcntl 0 .setfd 1), .call 0 .execve,
        .resume 0 .ok] = some s ∧ s.next (.resume 0 .ok) = some s' ∧ s.sys.task 0 = some c ∧
      s'.sys.task 0 = some c' ∧ c.pc = .execRead ∧ (s.called 0).flagged 0 = true ∧
      (s.called 0).flagged 1 = false := ⟨_, _, _, _, rfl, rfl, rfl, rfl, rfl, rfl, rfl⟩
  obtain ⟨s, s', c, c', hs, hnext, hc, hc', hpc, h₀, h₁⟩ := hexec
  have hclosed := ((closeOnExec_exact (runs_of_exec hs)).2.2.2 0 s' c c' hnext hc hc' hpc).2
  exact ⟨_, s, s', c, c', runs_of_exec hs, hnext, hc, hc', hpc, h₀,
    ((hclosed 0).2.trans (if_pos h₀)), (hclosed 1).2.trans (if_neg (by rw [h₁]; decide))⟩

end Linux001.Files.Descriptors
