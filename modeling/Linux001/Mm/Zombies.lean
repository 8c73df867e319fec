import Linux001.Mm.ProcessTable

/-!
# Zombies are waited for

A process that has exited stays in the table until its father waits for it. The loop of `do_exit`
over the children of an exiting process makes them orphans, those that have exited before it as well
as the others; but an orphan that has exited is a process that nobody waits for.

## Main definitions

* `Table.Tended`: every process that has exited has a father.
* `System.LeavesNoZombie`: the condition under which an exit leaves no such orphan behind.

## Main results

* `System.zombies_reaped`: if no process exits before its zombies are waited for, then in every
  state the father of a zombie is a process that can wait for it, and so release it.
* `System.Inv.zombie_stranded`: otherwise a zombie is left that has no father.
-/

namespace Linux001.Mm

namespace Table

/-- Every process that has exited has a father. -/
def Tended (f : Table) : Prop := ∀ n b, f n = some b → b.zombie = true → b.father ≠ 0

/-- A process leaves no zombie behind. -/
def Heeds (f : Table) (pid : ℤ) : Prop :=
  ∀ n b, f n = some b → b.zombie = true → b.father ≠ pid

variable {f f' : Table} {n : ℕ} {a : Member} {pid : ℤ}

theorem Tended.update (h : Tended f) {o : Option Member}
    (ho : ∀ b, o = some b → b.zombie = true → b.father ≠ 0) : Tended (Function.update f n o) :=
  fun i b hb hz => by
    rcases update_eq_some hb with ⟨-, hb⟩ | ⟨-, hb⟩
    · exact ho b hb hz
    · exact h i b hb hz

theorem Tended.orphan (h : Tended f) (hpid : f.Heeds pid) : Tended (f.orphan pid) :=
  fun i b hb hz => by
    obtain ⟨c, hc, rfl⟩ := Option.map_eq_some_iff.mp hb
    split_ifs at hz ⊢ with hf
    · exact absurd hf (hpid i c hc hz)
    · exact h i c hc hz

/-- A move keeps the zombies tended, unless it is the exit of the father of one. -/
theorem Tended.move (h : Tended f) {exits : Bool} (hm : Move n a exits f f')
    (hheeds : exits = true → f.Heeds a.pid) : Tended f' := by
  cases hm with
  | stay hf => exact hf ▸ h
  | fork nr pid _ _ _ _ hf =>
    rw [hf]
    exact h.update fun b hb hz => by
      rw [← Option.some.inj hb] at hz
      cases hz
  | exit hexits _ hfather _ hf =>
    rw [hf]
    exact (h.orphan (hheeds hexits)).update fun b hb _ => Option.some.inj hb ▸ hfather
  | leave hexits _ _ hf =>
    rw [hf]
    exact (h.orphan (hheeds hexits)).update fun _ hb => nomatch hb
  | reap i b _ _ hf =>
    rw [hf]
    exact h.update fun _ hb => nomatch hb

end Table

namespace System

variable {s s' : System} {n : ℕ} {t : Task} {held : Finset ℕ}

/-- The calls of the life of a process. -/
def Lifecycle (e : Event) : Prop := e.call = .fork ∨ e.call = .exit ∨ ∃ pid, e.call = .waitpid pid

/-- A process that exits is not the father of a zombie. -/
def LeavesNoZombie (s : System) (e : Event) : Prop :=
  e.call = .exit → ∀ t, s.task e.slot = some t → ∀ n u, s.task n = some u → u.zombie = true →
    u.father ≠ t.pid

/-- A step of the life of a process. -/
def Lives (s : System) (e : Event) (s' : System) : Prop := Step s e s' ∧ Lifecycle e

/-- No process is between the two parts of `do_execve`. -/
def NoArgs (s : System) : Prop := ∀ n t, s.task n = some t → t.args = none

theorem NoArgs.update (h : NoArgs s) {o : Option Task} (ho : ∀ u, o = some u → u.args = none)
    (htask : s'.task = Function.update s.task n o) : NoArgs s' := fun k u hu => by
  rw [htask, Function.update_apply] at hu
  split_ifs at hu
  · exact ho u hu
  · exact h k u hu

theorem NoArgs.orphans (h : NoArgs s) (pid : ℤ) : NoArgs { s with task := System.orphans pid s } :=
  fun n u hu => by
    obtain ⟨v, hv, rfl⟩ := Option.map_eq_some_iff.mp hu
    rw [Task.orphaned]
    split_ifs <;> exact h n v hv

/-- What holds in the runs in which no process exits before its zombies are waited for. -/
structure Peaceful (s : System) : Prop where
  orderly : Orderly s
  noArgs : NoArgs s
  tended : s.table.Tended

theorem NoArgs.change (h : NoArgs s) {c : Call} (hc : Change n t c s s')
    (hlife : ∀ file envp argv, c ≠ .execve file envp argv) : NoArgs s' := by
  cases hc with
  | keep htask | search _ htask => exact fun k u hu => h k u (htask ▸ hu)
  | fork nr page _ _ htask | load args _ _ htask =>
    exact h.update (fun u hu => Option.some.inj hu ▸ rfl) htask
  | arguments page ex size envp argv hcall => exact absurd hcall (hlife _ _ _)
  | exit _ _ _ _ htask =>
    exact (h.orphans t.pid).update (fun u hu => Option.some.inj hu ▸ rfl) htask
  | leave _ i _ _ _ htask =>
    exact (h.orphans t.pid).update (o := none) (fun _ hu => nomatch hu) htask
  | reap i j p _ _ _ _ _ _ _ htask =>
    exact h.update (n := j) (o := none) (fun _ hu => nomatch hu) htask

theorem Peaceful.step {e : Event} (h : Peaceful s) (hstep : Lives s e s')
    (hheeds : s.LeavesNoZombie e) : Peaceful s' := by
  obtain ⟨hs, hlife⟩ := hstep
  have horderly := h.orderly.step hs
  obtain ⟨⟨held, hinv⟩, -⟩ := h.orderly
  obtain ⟨⟨-, t, ht, hz, -⟩, hok⟩ := hs
  have hc := perform_change ht hok
  refine ⟨horderly, h.noArgs.change hc fun file envp argv hcall => ?_, ?_⟩
  · rcases hlife with hl | hl | ⟨pid, hl⟩ <;> cases hcall.symm.trans hl
  · refine h.tended.move (hinv.move ht hc) fun hmay k b hb hbz => ?_
    obtain ⟨u, hu, rfl⟩ := table_eq_some hb
    refine hheeds ?_ t ht k u hu hbz
    rcases hlife with hl | hl | ⟨pid, hl⟩
    · rw [hl] at hmay
      cases hmay
    · exact hl
    · rw [hl] at hmay
      cases hmay

theorem Peaceful.boot (other : ℕ → Word) : Peaceful (System.boot other) := by
  have hold : ∀ n t, (System.boot other).task n = some t → t = initTask := by
    intro n t ht
    rw [System.boot] at ht
    dsimp only at ht
    split_ifs at ht with hn
    exact (Option.some.inj ht).symm
  refine ⟨Orderly.boot other, fun n t ht => hold n t ht ▸ rfl, fun n b hb hz => ?_⟩
  obtain ⟨t, ht, rfl⟩ := table_eq_some hb
  rw [hold n t ht] at hz
  cases hz

/-- `sys_waitpid`, called for the number of a zombie by its father, finds it. -/
theorem find_zombie (hsound : s.table.Sound) (ht : s.task n = some t) (hmem : n ∈ taskSlots)
    (hz : t.zombie = true) {m : ℕ} {u : Task} (hnm : n ≠ m) (hfather : t.father = u.pid) :
    (taskSlots.reverse.find? fun i =>
      i ≠ m && (s.task i).any fun p => awaited u t.pid p && p.zombie) = some n := by
  cases hf : taskSlots.reverse.find? fun i =>
      i ≠ m && (s.task i).any fun p => awaited u t.pid p && p.zombie with
  | none =>
    rw [List.find?_eq_none] at hf
    exact absurd (by simp [ht, hnm, awaited, hz, hfather]) (hf n (List.mem_reverse.mpr hmem))
  | some i =>
    have hn : n ≠ 0 := Nat.one_le_iff_ne_zero.mp (List.mem_range'_1.mp hmem).1
    have hpos : 0 < t.pid := hsound.pos n _ hn (table_of_task ht)
    have hany := List.find?_some hf
    cases hi : s.task i with
    | none => simp [hi] at hany
    | some p =>
      have hpid : p.pid = t.pid := by
        simp only [hi, Option.any_some, Bool.and_eq_true, awaited, Bool.or_eq_true, beq_iff_eq,
          decide_eq_true_eq] at hany
        omega
      exact congrArg some (hsound.inj i n _ _ (table_of_task hi) (table_of_task ht) hpid)

/-- A father that waits for a zombie by its number releases it. -/
theorem Inv.waitpid_zombie (h : Inv held s) (hsound : s.table.Sound) (ht : s.task n = some t)
    (hn : n ≠ 0) (hz : t.zombie = true) {m : ℕ} {u : Task} (hu : s.task m = some u)
    (huz : u.zombie = false) (hfather : t.father = u.pid) :
    ∃ mem, s.mem.freePage t.page = .ok mem ∧
      s.perform ⟨m, .waitpid t.pid⟩ = .ok (setTask { s with mem := mem } n none) := by
  have hpos := Nat.one_le_iff_ne_zero.mpr hn
  have hmem : n ∈ taskSlots := List.mem_range'_1.mpr ⟨hpos, (h.slot n t ht).lt⟩
  have hnm : n ≠ m := by
    rintro rfl
    obtain rfl := Option.some.inj (hu.symm.trans ht)
    cases huz.symm.trans hz
  have hfind := find_zombie hsound ht hmem hz hnm hfather
  obtain ⟨s', -, hok, -⟩ := h.waitpid (n := m) (t := u) t.pid
  rw [System.waitpid, hfind] at hok
  dsimp only at hok
  rw [ht, Option.elim_some, System.release, ← System.slotOf, h.slotOf ht hpos] at hok
  obtain ⟨mem, hmm, -⟩ := bind_eq_ok.mp hok
  have hfree : s.mem.freePage t.page = .ok mem := by
    cases hf : s.mem.freePage t.page with
    | error e =>
      rw [hf] at hmm
      cases hmm
    | ok mem' =>
      rw [hf] at hmm
      rw [Except.ok.inj hmm]
  refine ⟨mem, hfree, ?_⟩
  rw [System.perform_eq hu]
  dsimp only [call, System.waitpid]
  rw [hfind]
  dsimp only
  rw [ht, Option.elim_some, System.release, ← System.slotOf, h.slotOf ht hpos]
  dsimp only
  rw [hfree, mm_ok_bind]

/-- **Zombies are reaped.** In every run of fork, exit and waitpid in which no process exits while
it is the father of a zombie, the father of every zombie is a process other than task 0 that has not
exited; and when it waits for the zombie, the slot and the page of the zombie are free again. -/
theorem zombies_reaped {other : ℕ → Word} {es : List Event}
    (h : Runs (fun s e s' => Lives s e s' ∧ s.LeavesNoZombie e) (boot other) es s)
    (ht : s.task n = some t) (hz : t.zombie = true) :
    ∃ m u mem, m ≠ 0 ∧ s.task m = some u ∧ u.zombie = false ∧ u.pid = t.father ∧
      s.mem.freePage t.page = .ok mem ∧
      Step s ⟨m, .waitpid t.pid⟩ (setTask { s with mem := mem } n none) := by
  obtain ⟨⟨⟨held, hinv⟩, hsound⟩, hargs, htended⟩ :=
    h.invariant (I := Peaceful) (fun _ _ _ hs hstep => hs.step hstep.1 hstep.2)
      (Peaceful.boot other)
  have hn : n ≠ 0 := by
    rintro rfl
    obtain ⟨b, hb, -, hbz⟩ := hsound.zero
    obtain rfl := Option.some.inj (hb.symm.trans (table_of_task ht))
    cases hbz.symm.trans hz
  obtain ⟨m, b, hm, hb, hbz, hpid⟩ :=
    hsound.father_ne_zero hn (table_of_task ht) (htended n _ (table_of_task ht) hz)
  obtain ⟨u, hu, rfl⟩ := table_eq_some hb
  obtain ⟨mem, hfree, hok⟩ := hinv.waitpid_zombie hsound ht hn hz hu hbz hpid.symm
  exact ⟨m, u, mem, hm, hu, hbz, hpid, hfree,
    ⟨(hinv.slot m u hu).lt, u, hu, hbz, hargs m u hu⟩, hok⟩

/-- **A zombie is stranded.** When the father of a zombie exits, the zombie has no father. -/
theorem Inv.zombie_stranded (h : Inv held s) (ht : s.task n = some t) (hz : t.zombie = true)
    {m : ℕ} {u : Task} (hu : s.task m = some u) (hfather : t.father = u.pid)
    (hstep : Step s ⟨m, .exit⟩ s') : s'.task n = some { t with father := 0 } := by
  obtain ⟨⟨-, v, hv, hvz, -⟩, hok⟩ := hstep
  obtain rfl : v = u := Option.some.inj (hv.symm.trans hu)
  have hnm : n ≠ m := by
    rintro rfl
    obtain rfl := Option.some.inj (hu.symm.trans ht)
    cases hvz.symm.trans hz
  have horphan : orphans v.pid s n = some { t with father := 0 } := by
    rw [orphans, ht, Option.map_some, Task.orphaned, if_pos hfather]
  rw [perform_eq hu] at hok
  obtain ⟨⟨mem, hfree⟩, -, ⟨-, -, htask⟩ | ⟨-, i, hi, htask⟩⟩ := doExit_eq_ok  hok
  · rw [htask, Function.update_of_ne hnm, horphan]
  · have hm := Nat.one_le_iff_ne_zero.mpr (h.ne_zero_of_freeTables hu hfree)
    obtain rfl : m = i := Option.some.inj ((h.slotOf hu hm).symm.trans hi)
    rw [htask, Function.update_of_ne hnm, horphan]

/-- The member of the table in a slot makes system calls. -/
def ready (s : System) (n : ℕ) (b : Member) : Bool :=
  (s.task n).any fun t => t.member = b && t.args.isNone

theorem exists_of_ready {b : Member} (h : s.ready n b = true) :
    ∃ t, s.task n = some t ∧ t.member = b ∧ t.args = none := by
  obtain ⟨t, ht, hb⟩ := (Option.any_eq_true _ _).mp h
  simpa [ht] using hb

/-- The state after an event, when it returns. -/
def next (s : System) (e : Event) : Option System := (s.perform e).toOption

/-- A process that makes system calls makes a step of its life, when the call returns. -/
theorem lives_of_next {e : Event} {pid father : ℤ} (hready : s.ready e.slot ⟨pid, father, false⟩)
    (hn : e.slot < nrTasks) (hlife : Lifecycle e) (h : s.next e = some s') : Lives s e s' := by
  obtain ⟨t, ht, hb, hargs⟩ := exists_of_ready hready
  have hz : t.zombie = false := congrArg Member.zombie hb
  refine ⟨⟨⟨hn, t, ht, hz, ?_⟩, ?_⟩, hlife⟩
  · rcases hlife with hl | hl | ⟨p, hl⟩ <;> rw [hl]
    · exact hargs
    · trivial
    · exact hargs
  · rw [next] at h
    cases hp : s.perform e with
    | error err =>
      rw [hp] at h
      cases h
    | ok s₁ =>
      rw [hp] at h
      rw [Option.some.inj h]

/-- No process has exited. -/
def allAlive (s : System) : Bool :=
  (List.range nrTasks).all fun n => (s.task n).all fun t => !t.zombie

theorem Inv.alive (h : Inv held s) (halive : s.allAlive = true) (ht : s.task n = some t) :
    t.zombie = false := by
  have hn := List.all_eq_true.mp halive n (List.mem_range.mpr (h.slot n t ht).lt)
  rw [ht] at hn
  simpa using hn

/-- Task 0 has a child, which has a child. -/
theorem runs_forks : ∃ s, Runs (fun s e s' => Lives s e s' ∧ s.LeavesNoZombie e) (boot fun _ => 0)
      [⟨1, .fork⟩, ⟨0, .fork⟩] s ∧
    s.ready 1 ⟨1, 0, false⟩ ∧ s.ready 2 ⟨2, 1, false⟩ ∧ s.allAlive := by
  have hrun : ((boot fun _ => 0).next ⟨0, .fork⟩).any (fun s₁ => s₁.ready 1 ⟨1, 0, false⟩ &&
      (s₁.next ⟨1, .fork⟩).any fun s₂ => s₂.ready 1 ⟨1, 0, false⟩ && s₂.ready 2 ⟨2, 1, false⟩ &&
        s₂.allAlive) = true := by decide +kernel
  obtain ⟨s₁, h₁, hrun⟩ := (Option.any_eq_true _ _).mp hrun
  obtain ⟨hready, hrun⟩ := (Bool.and_eq_true _ _).mp hrun
  obtain ⟨s₂, h₂, hrun⟩ := (Option.any_eq_true _ _).mp hrun
  rw [Bool.and_eq_true, Bool.and_eq_true] at hrun
  have hboot : (boot fun _ => 0).ready 0 ⟨0, -1, false⟩ = true := rfl
  exact ⟨s₂, .cons (.cons .nil ⟨lives_of_next hboot (by decide) (.inl rfl) h₁, nofun⟩)
    ⟨lives_of_next hready (by decide) (.inl rfl) h₂, nofun⟩, hrun.1.1, hrun.1.2, hrun.2⟩

/-- An exit returns, unless it is that of task 0. -/
theorem Orderly.exit (h : Orderly s) (hn : n ≠ 0) {pid father : ℤ}
    (hready : s.ready n ⟨pid, father, false⟩) : ∃ s', Lives s ⟨n, .exit⟩ s' := by
  obtain ⟨⟨held, hinv⟩, -⟩ := h
  obtain ⟨t, ht, hb, -⟩ := exists_of_ready hready
  have ha : Admissible s ⟨n, .exit⟩ :=
    ⟨(hinv.slot n t ht).lt, t, ht, congrArg Member.zombie hb, trivial⟩
  rcases hinv.perform ha with ⟨s', -, hok, -⟩ | ⟨hc, -⟩ | ⟨⟨_, _, _, hc⟩, -⟩
  · exact ⟨s', ⟨ha, hok⟩, .inr (.inl rfl)⟩
  · exact absurd hc hn
  · cases hc

/-- The grandchild of task 0 exits before its father. -/
theorem runs_zombie : ∃ s t, Runs (fun s e s' => Lives s e s' ∧ s.LeavesNoZombie e)
      (boot fun _ => 0) [⟨2, .exit⟩, ⟨1, .fork⟩, ⟨0, .fork⟩] s ∧
    s.task 2 = some t ∧ t.zombie = true ∧ t.father = 1 ∧ s.ready 1 ⟨1, 0, false⟩ := by
  obtain ⟨s, hs, hready₁, hready₂, halive⟩ := runs_forks
  have horderly := Orderly.of_runs (hs.mono fun _ _ _ h => h.1.1)
  obtain ⟨s', hlives⟩ := horderly.exit (by decide) hready₂
  obtain ⟨t, ht, hb, -⟩ := exists_of_ready hready₂
  obtain ⟨u, hu, hbu, hargs⟩ := exists_of_ready hready₁
  obtain ⟨⟨held, hinv⟩, -⟩ := horderly
  have hheeds : s.LeavesNoZombie ⟨2, .exit⟩ := fun _ _ _ k v hv hz => by
    cases (hinv.alive halive hv).symm.trans hz
  have hok := hlives.1.2
  rw [perform_eq ht] at hok
  have htf : t.father = 1 := congrArg Member.father hb
  have htp : t.pid = 2 := congrArg Member.pid hb
  have huf : u.father = 0 := congrArg Member.father hbu
  obtain ⟨-, -, ⟨-, -, htask⟩ | ⟨hfather, -⟩⟩ := doExit_eq_ok  hok
  · refine ⟨s', t.exited t.father, hs.cons ⟨hlives, hheeds⟩, ?_, rfl, htf, ?_⟩
    · rw [htask, Function.update_self]
    have hu' : s'.task 1 = some u := by
      rw [htask, Function.update_of_ne (by decide), orphans, hu, Option.map_some, Task.orphaned,
        if_neg (by omega)]
    rw [ready, hu']
    simp [hbu, hargs]
  · omega

/-- The grandchild of task 0 exits before its father, which can wait for it. -/
theorem zombies_reaped_grandchild : ∃ s t m u mem,
    Runs (fun s e s' => Lives s e s' ∧ s.LeavesNoZombie e) (boot fun _ => 0)
      [⟨2, .exit⟩, ⟨1, .fork⟩, ⟨0, .fork⟩] s ∧ s.task 2 = some t ∧ t.zombie = true ∧ m ≠ 0 ∧
    s.task m = some u ∧ u.zombie = false ∧ u.pid = t.father ∧ s.mem.freePage t.page = .ok mem ∧
    Step s ⟨m, .waitpid t.pid⟩ (setTask { s with mem := mem } 2 none) := by
  obtain ⟨s, t, hs, ht, hz, -⟩ := runs_zombie
  obtain ⟨m, u, mem, hm, hu, huz, hpid, hfree, hstep⟩ := zombies_reaped hs ht hz
  exact ⟨s, t, m, u, mem, hs, ht, hz, hm, hu, huz, hpid, hfree, hstep⟩

/-- **The father exits before its zombie is waited for.** The zombie is left without a father: its
slot and its page stay occupied by a process that nobody can wait for. -/
theorem not_zombies_reaped : ∃ s t, Runs Lives (boot fun _ => 0)
      [⟨1, .exit⟩, ⟨2, .exit⟩, ⟨1, .fork⟩, ⟨0, .fork⟩] s ∧
    s.task 2 = some t ∧ t.zombie = true ∧
    ¬ ∃ m u, m ≠ 0 ∧ s.task m = some u ∧ u.zombie = false ∧ u.pid = t.father := by
  obtain ⟨s, t, hs, ht, hz, hfather, hready⟩ := runs_zombie
  have hs := Runs.mono (fun _ _ _ h => h.1) hs
  have horderly := Orderly.of_runs (hs.mono fun _ _ _ h => h.1)
  obtain ⟨s', hlives⟩ := horderly.exit (by decide) hready
  obtain ⟨u, hu, hb, -⟩ := exists_of_ready hready
  obtain ⟨⟨held, hinv⟩, -⟩ := horderly
  have hpid : u.pid = 1 := congrArg Member.pid hb
  have hsound := (Orderly.of_runs ((hs.cons hlives).mono fun _ _ _ h => h.1)).2
  refine ⟨s', _, hs.cons hlives,
    hinv.zombie_stranded ht hz hu (hfather.trans hpid.symm) hlives.1, hz, ?_⟩
  rintro ⟨m, v, hm, hv, -, hvpid⟩
  have hpos : 0 < v.pid := hsound.pos m _ hm (table_of_task hv)
  exact hpos.ne' hvpid

end System

end Linux001.Mm
