import Linux001.Lib.Panics
import Linux001.Mm.AddressSpaces

/-!
# What a call does to the task table

A call changes at most a few fields of the table of tasks. This module says once, for every call,
which changes these are; what holds of the tasks in every state of a run is then a matter of eight
cases, and the monadic code of the calls is not looked at again.

## Main definitions

* `Task.child`: the task structure that `copy_process` makes.
* `System.Change`: the changes of the task table and of `last_pid` that a call of a task may make.

## Main results

* `System.perform_change`: a call that returns has made one of these changes.
-/

namespace Linux001.Mm

/-- The structure that `copy_process` makes for a child of `t` in the slot `nr`. -/
def Task.child (t : Task) (nr page : ℕ) (pid : ℤ) : Task :=
  { t with
    page := page, zombie := false, pid := pid, father := t.pid, args := none
    code := t.code.setBase (BitVec.ofNat 32 (nr * 0x4000000))
    data := t.data.setBase (BitVec.ofNat 32 (nr * 0x4000000)) }

/-- The task structure of an exiting task, once its children are orphans. -/
def Task.exited (t : Task) (father : ℤ) : Task :=
  { t with zombie := true, father := father, args := none }

/-- A child of the process `pid` becomes an orphan. -/
def Task.orphaned (t : Task) (pid : ℤ) : Task :=
  if t.father = pid then { t with father := 0 } else t

namespace System

/-- The slot whose task structure is in the page `p`, as `release` finds it. -/
def slotOf (s : System) (p : ℕ) : Option ℕ :=
  taskSlots.find? fun i => (s.task i).any fun t => t.page == p

/-- The tasks after the loop of `do_exit` over the children of the process `pid`. -/
def orphans (pid : ℤ) (s : System) (i : ℕ) : Option Task :=
  (s.task i).map fun t => t.orphaned pid

/-- The calls in which a process may exit: `verify_area` and page faults end in `do_exit` when there
is no memory left. -/
def Call.mayExit : Call → Bool
  | .exit | .verify _ _ | .fault _ _ => true
  | .fork | .execve _ _ _ | .load | .waitpid _ => false

/-- The changes of the task table and of `last_pid` by a call `c` of the task `t` in the slot
`n`. -/
inductive Change (n : ℕ) (t : Task) (c : Call) (s s' : System) : Prop
  /-- A call that is not about tasks, or does not find what it needs. -/
  | keep (htask : s'.task = s.task) (hlast : s'.lastPid = s.lastPid)
  /-- A `fork` that fails. -/
  | search (hpid : s.freshPid (nrTasks + 1) s.lastPid = some s'.lastPid) (htask : s'.task = s.task)
  /-- A `fork` that makes a child. -/
  | fork (nr page : ℕ) (hpid : s.freshPid (nrTasks + 1) s.lastPid = some s'.lastPid)
      (hnr : s.findEmpty = some nr)
      (htask : s'.task = Function.update s.task nr (some (t.child nr page s'.lastPid)))
  /-- The first part of `do_execve`, on a header that it accepts. -/
  | arguments (page : ℕ → ℕ) (ex : Exec) (size : Word) (envp argv : List ℕ)
      (hcall : c = .execve (some (ex, size)) envp argv) (hex : ex.refused size = false)
      (htask : s'.task = Function.update s.task n (some { t with args := some ⟨page, ex.text⟩ }))
      (hlast : s'.lastPid = s.lastPid)
  /-- The second part of `do_execve`. -/
  | load (args : Args) (hargs : t.args = some args) (hfree : ∃ m, freeTables t s.mem = .ok m)
      (htask : s'.task = Function.update s.task n (some (newSegments t args.text)))
      (hlast : s'.lastPid = s.lastPid)
  /-- The exit of a task that has a father. -/
  | exit (hcall : c.mayExit = true) (hfather : t.father ≠ 0) (hne : t.father ≠ t.pid)
      (hfree : ∃ m₀ m, freeTables t m₀ = .ok m)
      (htask : s'.task = Function.update (orphans t.pid s) n (some (t.exited t.father)))
      (hlast : s'.lastPid = s.lastPid)
  /-- The exit of a task that has no father. -/
  | leave (hcall : c.mayExit = true) (i : ℕ) (hfather : t.father = 0 ∨ t.father = t.pid)
      (hfree : ∃ m₀ m, freeTables t m₀ = .ok m) (hi : s.slotOf t.page = some i)
      (htask : s'.task = Function.update (orphans t.pid s) i none)
      (hlast : s'.lastPid = s.lastPid)
  /-- A `waitpid` that finds a zombie. -/
  | reap (i j : ℕ) (p : Task) (pid : ℤ) (hne : i ≠ n) (hi : i ∈ taskSlots) (hp : s.task i = some p)
      (hawait : awaited t pid p = true) (hz : p.zombie = true) (hj : s.slotOf p.page = some j)
      (htask : s'.task = Function.update s.task j none) (hlast : s'.lastPid = s.lastPid)

variable {s s' : System} {n : ℕ} {t : Task} {c : Call}

/-- The search of `release` does not look at fathers. -/
theorem slotOf_orphan (pid : ℤ) (p : ℕ) : (orphan pid s).slotOf p = s.slotOf p := by
  have hpred : (fun i => ((orphan pid s).task i).any fun t => t.page == p) =
      fun i => (s.task i).any fun t => t.page == p := funext fun i => by
    rw [orphan]
    dsimp only
    rw [Option.any_map]
    refine congrArg (Option.any · (s.task i)) (funext fun t => ?_)
    split_ifs <;> rfl
  rw [slotOf, slotOf, hpred]

/-- `release` empties the slot that it finds. -/
theorem release_eq_ok {p : ℕ} (h : release p s = .ok s') : ∃ i, s.slotOf p = some i ∧
    s'.task = Function.update s.task i none ∧ s'.lastPid = s.lastPid := by
  rw [release, ← slotOf] at h
  cases hi : s.slotOf p with
  | none =>
    rw [hi] at h
    cases h
  | some i =>
    rw [hi] at h
    obtain ⟨m, -, h⟩ := bind_eq_ok.mp h
    obtain rfl := Except.ok.inj h
    exact ⟨i, rfl, rfl, rfl⟩

/-- `do_exit`, also when it is called in a state of which only the memory differs. -/
theorem doExit_eq_ok {m₀ : Memory} (h : doExit n t { s with mem := m₀ } = .ok s') :
    (∃ m, freeTables t m₀ = .ok m) ∧ s'.lastPid = s.lastPid ∧
      (t.father ≠ 0 ∧ t.father ≠ t.pid ∧
          s'.task = Function.update (orphans t.pid s) n (some (t.exited t.father)) ∨
        (t.father = 0 ∨ t.father = t.pid) ∧ ∃ i, s.slotOf t.page = some i ∧
          s'.task = Function.update (orphans t.pid s) i none) := by
  obtain ⟨m, hfree, h⟩ := bind_eq_ok.mp h
  refine ⟨⟨m, hfree⟩, ?_⟩
  dsimp only at h
  split_ifs at h with heq hfather hfather
  · exact absurd rfl hfather
  · obtain ⟨i, hi, htask, hlast⟩ := release_eq_ok h
    rw [slotOf_orphan] at hi
    exact ⟨hlast, .inr ⟨.inr heq, i, hi, htask⟩⟩
  · obtain rfl := Except.ok.inj h
    exact ⟨rfl, .inl ⟨hfather, heq, rfl⟩⟩
  · obtain ⟨i, hi, htask, hlast⟩ := release_eq_ok h
    rw [slotOf_orphan] at hi
    exact ⟨hlast, .inr ⟨.inl (not_not.mp hfather), i, hi, htask⟩⟩

theorem doExit_change (hc : c.mayExit = true) (m₀ : Memory)
    (h : doExit n t { s with mem := m₀ } = .ok s') : Change n t c s s' := by
  obtain ⟨⟨m, hfree⟩, hlast, ⟨hfather, hne, htask⟩ | ⟨hfather, i, hi, htask⟩⟩ := doExit_eq_ok h
  · exact .exit hc hfather hne ⟨_, _, hfree⟩ htask hlast
  · exact .leave hc i hfather ⟨_, _, hfree⟩ hi htask hlast

theorem copyMem_eq_ok {nr : ℕ} {p : Task} {m : Memory} {r : Bool × Task × Memory}
    (h : copyMem nr t p m = .ok r) :
    r.2.1 = { p with
      code := p.code.setBase (BitVec.ofNat 32 (nr * 0x4000000))
      data := p.data.setBase (BitVec.ofNat 32 (nr * 0x4000000)) } := by
  rw [copyMem] at h
  dsimp only at h
  split_ifs at h
  obtain ⟨r', -, h⟩ := bind_eq_ok.mp h
  split_ifs at h
  · obtain ⟨m', -, h⟩ := bind_eq_ok.mp h
    rw [← Except.ok.inj h]
  · rw [← Except.ok.inj h]

theorem fork_change (h : System.fork t s = .ok s') : Change n t c s s' := by
  rw [System.fork] at h
  cases hpid : s.freshPid (nrTasks + 1) s.lastPid with
  | none =>
    rw [hpid] at h
    cases h
  | some pid =>
    rw [hpid] at h
    dsimp only at h
    have hempty : System.findEmpty { s with lastPid := pid } = s.findEmpty := rfl
    rw [hempty] at h
    cases hnr : s.findEmpty with
    | none =>
      rw [hnr] at h
      obtain rfl := Except.ok.inj h
      exact .search hpid rfl
    | some nr =>
      rw [hnr] at h
      dsimp only [copyProcess] at h
      cases hpage : s.mem.getFreePage with
      | none =>
        rw [hpage] at h
        obtain rfl := Except.ok.inj h
        exact .search hpid rfl
      | some pm =>
        rw [hpage] at h
        obtain ⟨r, hr, h⟩ := bind_eq_ok.mp h
        split_ifs at h
        · obtain rfl := Except.ok.inj h
          exact .fork nr pm.1 hpid hnr (by rw [setTask, copyMem_eq_ok hr]; rfl)
        · obtain ⟨m, -, h⟩ := bind_eq_ok.mp h
          obtain rfl := Except.ok.inj h
          exact .search hpid rfl

theorem execve_change {file : Option (Exec × Word)} {envp argv : List ℕ}
    (h : System.execve n t file envp argv s = .ok s') :
    Change n t (.execve file envp argv) s s' := by
  cases file with
  | none =>
    obtain rfl := Except.ok.inj h
    exact .keep rfl rfl
  | some f =>
    dsimp only [System.execve] at h
    split_ifs at h with hex
    · obtain rfl := Except.ok.inj h
      exact .keep rfl rfl
    · obtain ⟨r, -, h⟩ := bind_eq_ok.mp h
      obtain ⟨r', -, h⟩ := bind_eq_ok.mp h
      split_ifs at h
      · obtain ⟨m, -, h⟩ := bind_eq_ok.mp h
        obtain rfl := Except.ok.inj h
        exact .keep rfl rfl
      · obtain rfl := Except.ok.inj h
        exact .arguments r'.2.page f.1 f.2 envp argv rfl (Bool.not_eq_true _ ▸ hex) rfl rfl

theorem waitpid_change {pid : ℤ} (h : System.waitpid n t pid s = .ok s') : Change n t c s s' := by
  rw [System.waitpid] at h
  cases hf : taskSlots.reverse.find? fun i =>
      i ≠ n && (s.task i).any fun p => awaited t pid p && p.zombie with
  | none =>
    rw [hf] at h
    obtain rfl := Except.ok.inj h
    exact .keep rfl rfl
  | some i =>
    rw [hf] at h
    have hany := List.find?_some hf
    cases hi : s.task i with
    | none => simp [hi] at hany
    | some p =>
      simp only [hi, Option.any_some, Bool.and_eq_true, decide_eq_true_eq] at hany
      dsimp only at h
      rw [hi] at h
      obtain ⟨j, hj, htask, hlast⟩ := release_eq_ok h
      exact .reap i j p pid hany.1 (List.mem_reverse.mp (List.mem_of_find?_eq_some hf)) hi
        hany.2.1 hany.2.2 hj htask hlast

/-- The effect of an event is that of the call of its task. -/
theorem perform_eq {e : Event} (ht : s.task e.slot = some t) :
    s.perform e = call e.slot t s e.call := by
  rw [perform, ht]

/-- **Inversion.** A call that returns has made one of the changes. -/
theorem perform_change {e : Event} (ht : s.task e.slot = some t) (h : s.perform e = .ok s') :
    Change e.slot t e.call s s' := by
  rw [perform_eq ht] at h
  obtain ⟨n, c⟩ := e
  dsimp only at h ht ⊢
  cases c with
  | fork => exact fork_change h
  | execve file envp argv => exact execve_change h
  | load =>
    dsimp only [call] at h
    cases hargs : t.args with
    | none =>
      rw [hargs] at h
      obtain rfl := Except.ok.inj h
      exact .keep rfl rfl
    | some args =>
      rw [hargs] at h
      obtain ⟨m, hfree, h⟩ := bind_eq_ok.mp h
      obtain rfl := Except.ok.inj h
      exact .load args hargs ⟨m, hfree⟩ rfl rfl
  | exit => exact doExit_change rfl s.mem h
  | waitpid pid => exact waitpid_change h
  | verify addr size =>
    dsimp only [call] at h
    rw [verify] at h
    generalize verifyTurns addr size = turns at h
    split at h
    · obtain rfl := Except.ok.inj h
      exact .keep rfl rfl
    · exact doExit_change rfl _ h
  | fault off write =>
    dsimp only [call, fault] at h
    split at h
    · obtain rfl := Except.ok.inj h
      exact .keep rfl rfl
    · exact doExit_change rfl _ h

end System

end Linux001.Mm
