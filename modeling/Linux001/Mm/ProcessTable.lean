import Linux001.Mm.Slots
import Linux001.Mm.Transitions

/-!
# The table of processes

Processes are known by numbers. A number is chosen by a search that restarts at every collision, a
process that has exited keeps its number until it is waited for, and fathers are recorded by number.
What matters of the table for all this is a number, a father and a state for each slot. Calls change
such a table in five ways, and the invariant is a fact about these.

## Main definitions

* `Member`, `Table`: what the table says about the processes.
* `Table.Move`: how a process changes it.
* `Table.Sound`: numbers are distinct, and fathers have not exited.
* `System.table`: the table of a system.

## Main results

* `Table.Sound.move`: moves keep a table sound.
* `System.Inv.move`: a call is a move.
* `System.process_table`: the table is sound in every state of every run, different slots hold
  different task structures, and the search for a process number ends.
-/

namespace Linux001.Mm

/-! ### Numbers, fathers and states -/

/-- The number of a process, the number of its father, and whether it has exited. -/
structure Member where
  pid : ℤ
  father : ℤ
  zombie : Bool
  deriving DecidableEq, Repr

/-- The processes in the slots of the table. -/
abbrev Table := ℕ → Option Member

namespace Table

/-- The children of `pid` become orphans. -/
def orphan (pid : ℤ) (f : Table) : Table := fun i =>
  (f i).map fun b => if b.father = pid then { b with father := 0 } else b

/-- What the process `a` in the slot `n` may do to the table; it does not exit unless `exits` is
true. -/
inductive Move (n : ℕ) (a : Member) (exits : Bool) (f f' : Table) : Prop
  | stay (h : f' = f)
  | fork (nr : ℕ) (pid : ℤ) (hnr : nr ≠ 0) (hempty : f nr = none) (hpid : 0 < pid)
      (hfresh : ∀ k b, f k = some b → b.pid ≠ pid)
      (h : f' = Function.update f nr (some ⟨pid, a.pid, false⟩))
  | exit (hexits : exits = true) (hn : n ≠ 0) (hfather : a.father ≠ 0) (hne : a.father ≠ a.pid)
      (h : f' = Function.update (f.orphan a.pid) n (some ⟨a.pid, a.father, true⟩))
  | leave (hexits : exits = true) (hn : n ≠ 0) (hfather : a.father = 0 ∨ a.father = a.pid)
      (h : f' = Function.update (f.orphan a.pid) n none)
  | reap (i : ℕ) (b : Member) (hb : f i = some b) (hz : b.zombie = true)
      (h : f' = Function.update f i none)

/-- The number `p` is that of a process that has not exited. -/
def Alive (f : Table) (p : ℤ) : Prop := ∃ m b, f m = some b ∧ b.zombie = false ∧ b.pid = p

/-- Slot 0 holds the process 0, numbers are distinct, and other processes have positive numbers and
fathers that have not exited. -/
structure Sound (f : Table) : Prop where
  zero : ∃ b, f 0 = some b ∧ b.pid = 0 ∧ b.zombie = false
  inj : ∀ i j b c, f i = some b → f j = some c → b.pid = c.pid → i = j
  pos : ∀ n b, n ≠ 0 → f n = some b → 0 < b.pid
  father : ∀ n b, n ≠ 0 → f n = some b → b.father = 0 ∨ f.Alive b.father

variable {f f' : Table} {n i : ℕ} {a b : Member} {o : Option Member} {pid : ℤ}

theorem update_eq_some (h : Function.update f n o i = some b) :
    (i = n ∧ o = some b) ∨ (i ≠ n ∧ f i = some b) := by
  rw [Function.update_apply] at h
  split_ifs at h with hi
  · exact .inl ⟨hi, h⟩
  · exact .inr ⟨hi, h⟩

/-- An orphan has kept its number and its state. -/
theorem orphan_eq_some (h : f.orphan pid i = some b) : ∃ c, f i = some c ∧ b.pid = c.pid ∧
    b.zombie = c.zombie ∧ (b.father = 0 ∨ b.father = c.father ∧ c.father ≠ pid) := by
  obtain ⟨c, hc, rfl⟩ := Option.map_eq_some_iff.mp h
  refine ⟨c, hc, ?_⟩
  split_ifs with hf
  · exact ⟨rfl, rfl, .inl rfl⟩
  · exact ⟨rfl, rfl, .inr ⟨rfl, hf⟩⟩

theorem orphan_of_eq_some (pid : ℤ) (h : f i = some b) :
    ∃ c, f.orphan pid i = some c ∧ c.pid = b.pid ∧ c.zombie = b.zombie := by
  refine ⟨_, congrArg _ h, ?_⟩
  dsimp only
  split_ifs <;> exact ⟨rfl, rfl⟩

namespace Sound

/-- At most one process that has not exited has a given number. -/
theorem existsUnique (h : Sound f) {p : ℤ} (hp : f.Alive p) :
    ∃! m, ∃ b, f m = some b ∧ b.zombie = false ∧ b.pid = p := by
  obtain ⟨m, b, hb, hz, rfl⟩ := hp
  refine ⟨m, ⟨b, hb, hz, rfl⟩, ?_⟩
  rintro k ⟨c, hc, -, hpid⟩
  exact h.inj k m c b hc hb hpid

/-- A father that has not exited is not task 0, unless the process has no father. -/
theorem father_ne_zero (h : Sound f) (hn : n ≠ 0) (ha : f n = some a) (hf : a.father ≠ 0) :
    ∃ m b, m ≠ 0 ∧ f m = some b ∧ b.zombie = false ∧ b.pid = a.father := by
  obtain ⟨m, b, hb, hz, hpid⟩ := (h.father n a hn ha).resolve_left hf
  refine ⟨m, b, ?_, hb, hz, hpid⟩
  rintro rfl
  obtain ⟨c, hc, hc₀, -⟩ := h.zero
  obtain rfl := Option.some.inj (hb.symm.trans hc)
  exact hf (hpid.symm.trans hc₀)

/-- The slots of a table in which the number of the process in one slot, and the fathers that
refer to it, have gone. -/
theorem orphan_update (h : Sound f) (hn : n ≠ 0) (ha : f n = some a)
    (ho : ∀ b, o = some b → b.pid = a.pid ∧ (b.father = 0 ∨ b.father = a.father ∧
      a.father ≠ a.pid)) : Sound (Function.update (f.orphan a.pid) n o) := by
  have hold : ∀ i b, Function.update (f.orphan a.pid) n o i = some b → ∃ c, f i = some c ∧
      b.pid = c.pid ∧ (b.father = 0 ∨ b.father = c.father ∧ c.father ≠ a.pid) := by
    intro i b hb
    rcases update_eq_some hb with ⟨rfl, hb'⟩ | ⟨-, hb'⟩
    · exact ⟨a, ha, ho b hb'⟩
    · obtain ⟨c, hc, hpid, -, hf⟩ := orphan_eq_some hb'
      exact ⟨c, hc, hpid, hf⟩
  refine ⟨?_, fun i j b c hb hc hpid => ?_, fun i b hi hb => ?_, fun i b hi hb => ?_⟩
  · obtain ⟨b, hb, hpid, hz⟩ := h.zero
    obtain ⟨c, hc, hcpid, hcz⟩ := orphan_of_eq_some a.pid hb
    exact ⟨c, (Function.update_of_ne hn.symm _ _).trans hc, hcpid.trans hpid, hcz.trans hz⟩
  · obtain ⟨b', hb', hbpid, -⟩ := hold i b hb
    obtain ⟨c', hc', hcpid, -⟩ := hold j c hc
    exact h.inj i j b' c' hb' hc' (by rw [← hbpid, ← hcpid, hpid])
  · obtain ⟨b', hb', hbpid, -⟩ := hold i b hb
    rw [hbpid]
    exact h.pos i b' hi hb'
  · obtain ⟨b', hb', -, hf⟩ := hold i b hb
    rcases hf with hf | ⟨hf, hne⟩
    · exact .inl hf
    rw [hf]
    refine (h.father i b' hi hb').imp id fun ⟨m, c, hc, hz, hpid⟩ => ?_
    -- The father is not the process that has gone, whose children are orphans now.
    have hmn : m ≠ n := by
      rintro rfl
      obtain rfl := Option.some.inj (hc.symm.trans ha)
      exact hne hpid.symm
    obtain ⟨c', hc', hcpid, hcz⟩ := orphan_of_eq_some a.pid hc
    exact ⟨m, c', (Function.update_of_ne hmn _ _).trans hc', hcz.trans hz, hcpid.trans hpid⟩

/-- **Step lemma.** The moves of processes that have not exited keep a table sound. -/
theorem move (h : Sound f) (ha : f n = some a) (hz : a.zombie = false) {exits : Bool}
    (hm : Move n a exits f f') : Sound f' := by
  cases hm with
  | stay hf => exact hf ▸ h
  | fork nr pid hnr hempty hpid hfresh hf =>
    have halive : ∀ p, f.Alive p → f'.Alive p := by
      rintro p ⟨m, b, hb, hbz, hbp⟩
      have hm : m ≠ nr := by
        rintro rfl
        cases hb.symm.trans hempty
      exact ⟨m, b, by rw [hf, Function.update_of_ne hm, hb], hbz, hbp⟩
    refine ⟨?_, fun i j b c hb hc heq => ?_, fun i b hi hb => ?_, fun i b hi hb => ?_⟩
    · obtain ⟨b, hb, hz'⟩ := h.zero
      exact ⟨b, by rw [hf, Function.update_of_ne hnr.symm, hb], hz'⟩
    · rw [hf] at hb hc
      rcases update_eq_some hb with ⟨hi, hb'⟩ | ⟨-, hb'⟩ <;>
        rcases update_eq_some hc with ⟨hj, hc'⟩ | ⟨-, hc'⟩
      · rw [hi, hj]
      · rw [← Option.some.inj hb'] at heq
        exact absurd heq.symm (hfresh j c hc')
      · rw [← Option.some.inj hc'] at heq
        exact absurd heq (hfresh i b hb')
      · exact h.inj i j b c hb' hc' heq
    · rw [hf] at hb
      rcases update_eq_some hb with ⟨-, hb⟩ | ⟨-, hb⟩
      · rw [← Option.some.inj hb]
        exact hpid
      · exact h.pos i b hi hb
    · rw [hf] at hb
      rcases update_eq_some hb with ⟨-, hb⟩ | ⟨-, hb⟩
      · rw [← Option.some.inj hb]
        exact .inr (halive _ ⟨n, a, ha, hz, rfl⟩)
      · exact (h.father i b hi hb).imp id (halive _)
  | exit _ hn hfather hne hf =>
    rw [hf]
    exact h.orphan_update hn ha fun b hb => Option.some.inj hb ▸ ⟨rfl, .inr ⟨rfl, hne⟩⟩
  | leave _ hn hfather hf =>
    rw [hf]
    exact h.orphan_update hn ha fun b hb => nomatch hb
  | reap i b hb hbz hf =>
    rw [hf]
    have hi : ∀ k c, Function.update f i none k = some c → f k = some c := fun k c hc =>
      (update_eq_some hc).elim (fun ⟨_, hc⟩ => nomatch hc) And.right
    have hne : ∀ {k c}, f k = some c → c.zombie = false → Function.update f i none k = some c := by
      intro k c hc hcz
      rw [Function.update_of_ne, hc]
      rintro rfl
      rw [Option.some.inj (hc.symm.trans hb), hbz] at hcz
      cases hcz
    refine ⟨?_, fun k j c d hc hd => h.inj k j c d (hi k c hc) (hi j d hd),
      fun k c hk hc => h.pos k c hk (hi k c hc), fun k c hk hc => ?_⟩
    · obtain ⟨c, hc, hpid, hcz⟩ := h.zero
      exact ⟨c, hne hc hcz, hpid, hcz⟩
    · exact (h.father k c hk (hi k c hc)).imp id fun ⟨m, d, hd, hdz, hpid⟩ =>
        ⟨m, d, hne hd hdz, hdz, hpid⟩

end Sound

end Table

/-! ### The table of a system -/

/-- What the table says about a task. -/
def Task.member (t : Task) : Member := ⟨t.pid, t.father, t.zombie⟩

namespace System

/-- What the table says about the tasks of a system. -/
def table (s : System) : Table := fun n => (s.task n).map Task.member

variable {s s' : System} {n : ℕ} {t : Task} {held : Finset ℕ}

theorem table_of_task (ht : s.task n = some t) : s.table n = some t.member := congrArg _ ht

theorem table_eq_some {b : Member} (h : s.table n = some b) :
    ∃ t, s.task n = some t ∧ t.member = b := Option.map_eq_some_iff.mp h

theorem table_congr (h : s'.task = s.task) : s'.table = s.table := by
  funext i
  rw [table, table, h]

theorem table_update {task : ℕ → Option Task} {o : Option Task}
    (h : s'.task = Function.update task n o) :
    s'.table = Function.update (fun i => (task i).map Task.member) n (o.map Task.member) := by
  funext i
  rw [table, h, Function.update_apply, Function.update_apply]
  split_ifs <;> rfl

/-- A task gets a new structure with the same number, father and state. -/
theorem table_update_self {u : Task} (ht : s.task n = some t)
    (h : s'.task = Function.update s.task n (some u)) (hu : u.member = t.member) :
    s'.table = s.table := by
  rw [table_update h, Option.map_some, hu, ← table_of_task ht]
  exact Function.update_eq_self n s.table

theorem table_orphans (pid : ℤ) :
    (fun i => (orphans pid s i).map Task.member) = s.table.orphan pid := by
  funext i
  rw [orphans, Table.orphan, table, Option.map_map, Option.map_map]
  refine congrArg (Option.map · (s.task i)) (funext fun t => ?_)
  rw [Function.comp_apply, Function.comp_apply, Task.orphaned]
  split_ifs with h₁ h₂ h₂
  · rfl
  · exact absurd h₁ h₂
  · exact absurd h₂ h₁
  · rfl

/-- A number that a search has found is positive, and no task has it. -/
theorem freshPid_fresh : ∀ {fuel : ℕ} {p q : ℤ}, 0 ≤ p → s.freshPid fuel p = some q →
    0 < q ∧ s.pidUsed q = false
  | 0, _, _, _, h => nomatch h
  | fuel + 1, p, q, hlo, h => by
    have hnext : 0 < nextPid p := by
      rw [nextPid]
      split_ifs <;> omega
    rw [freshPid] at h
    split_ifs at h with hused
    · exact freshPid_fresh hnext.le h
    · rw [← Option.some.inj h]
      exact ⟨hnext, Bool.not_eq_true _ ▸ hused⟩

theorem ne_of_pidUsed {p : ℤ} (h : s.pidUsed p = false) (hn : n < nrTasks)
    (ht : s.task n = some t) : t.pid ≠ p := by
  rintro rfl
  rw [pidUsed, List.any_eq_false] at h
  exact h n (List.mem_range.mpr hn) (by simp [ht])

namespace Inv

/-- Task 0 gives up no address space, in whatever memory. -/
theorem ne_zero_of_freeTables (h : Inv held s) (ht : s.task n = some t) {m₀ m : Memory}
    (hfree : System.freeTables t m₀ = .ok m) : n ≠ 0 := by
  rintro rfl
  have hbase : t.code.getBase = 0 := (h.slot 0 t ht).codeBase
  rw [System.freeTables, hbase] at hfree
  cases hfree

/-- **Refinement.** A change of the system by a task is a move of its process. -/
theorem move (h : Inv held s) (ht : s.task n = some t) {c : Call}
    (hc : Change n t c s s') : Table.Move n t.member c.mayExit s.table s'.table := by
  cases hc with
  | keep htask | search _ htask => exact .stay (table_congr htask)
  | fork nr page hpid hnr htask =>
    have hfree := List.find?_some hnr
    have hmem := List.mem_range'_1.mp (List.mem_of_find?_eq_some hnr)
    have hempty : s.task nr = none := by simpa using hfree
    obtain ⟨hpos, hfresh⟩ := freshPid_fresh h.lastPid.1 hpid
    refine .fork nr s'.lastPid (Nat.one_le_iff_ne_zero.mp hmem.1) (congrArg _ hempty) hpos
      (fun k b hb => ?_) (table_update htask)
    obtain ⟨u, hu, rfl⟩ := table_eq_some hb
    exact ne_of_pidUsed hfresh (h.slot k u hu).lt hu
  | arguments page ex size _ _ _ _ htask | load args _ _ htask =>
    exact .stay (table_update_self ht htask rfl)
  | exit hcall hfather hne hfree htask =>
    obtain ⟨m₀, m, hfree⟩ := hfree
    refine .exit hcall (h.ne_zero_of_freeTables ht hfree) hfather hne ?_
    rw [table_update htask, table_orphans]
    rfl
  | leave hcall i hfather hfree hi htask =>
    obtain ⟨m₀, m, hfree⟩ := hfree
    have hn := h.ne_zero_of_freeTables ht hfree
    obtain rfl : n = i :=
      Option.some.inj ((h.slotOf ht (Nat.one_le_iff_ne_zero.mpr hn)).symm.trans hi)
    refine .leave hcall hn hfather ?_
    rw [table_update htask, table_orphans]
    rfl
  | reap i j p _ _ hi hp _ hpz hj htask =>
    obtain rfl : i = j :=
      Option.some.inj ((h.slotOf hp (List.mem_range'_1.mp hi).1).symm.trans hj)
    exact .reap i p.member (table_of_task hp) hpz (table_update htask)

end Inv

/-- What holds in every state of a run. -/
def Orderly (s : System) : Prop := (∃ held, Inv held s) ∧ s.table.Sound

namespace Orderly

theorem boot (other : ℕ → Word) : Orderly (System.boot other) := by
  refine ⟨⟨∅, Inv.boot other⟩, ?_⟩
  have hold : ∀ n b, (System.boot other).table n = some b → n = 0 ∧ b = initTask.member := by
    intro n b hb
    rw [table, System.boot] at hb
    dsimp only at hb
    split_ifs at hb with hn
    · exact ⟨hn, (Option.some.inj hb).symm⟩
    · cases hb
  exact ⟨⟨initTask.member, rfl, rfl, rfl⟩,
    fun i j b c hb hc _ => (hold i b hb).1.trans (hold j c hc).1.symm,
    fun n b hn hb => absurd (hold n b hb).1 hn, fun n b hn hb => absurd (hold n b hb).1 hn⟩

theorem step {e : Event} (h : Orderly s) (hstep : Step s e s') : Orderly s' := by
  obtain ⟨⟨held, hinv⟩, hsound⟩ := h
  obtain ⟨ha, hok⟩ := hstep
  constructor
  · rcases hinv.perform ha with ⟨s₁, held₁, h₁, hinv₁⟩ | ⟨-, he⟩ | ⟨-, he⟩
    · obtain rfl := Except.ok.inj (h₁.symm.trans hok)
      exact ⟨held₁, hinv₁⟩
    · cases he.symm.trans hok
    · cases he.symm.trans hok
  · obtain ⟨-, t, ht, hz, -⟩ := ha
    exact hsound.move (table_of_task ht) hz (hinv.move ht (perform_change ht hok))

theorem of_runs {other : ℕ → Word} {es : List Event} (h : Runs Step (System.boot other) es s) :
    Orderly s := h.invariant (I := Orderly) (fun _ _ _ hs hstep => hs.step hstep) (boot other)

end Orderly

/-- **Process-table identity.** In every state of every run, tasks have distinct process numbers; a
task other than task 0 has a positive number, and its father is 0 or the number of exactly one task
that has not exited; two slots other than slot 0 hold different task structures; and the search for
a process number ends, with one that no task has. -/
theorem process_table {other : ℕ → Word} {es : List Event} (h : Runs Step (boot other) es s) :
    (∀ i j t u, s.task i = some t → s.task j = some u → t.pid = u.pid → i = j) ∧
    (∀ n t, n ≠ 0 → s.task n = some t → 0 < t.pid ∧
      (t.father = 0 ∨ ∃! m, ∃ u, s.task m = some u ∧ u.zombie = false ∧ u.pid = t.father)) ∧
    (∀ i j t u, i ≠ 0 → j ≠ 0 → i ≠ j → s.task i = some t → s.task j = some u →
      t.page ≠ u.page) ∧
    ∃ turns pid, s.freshPid turns s.lastPid = some pid ∧ 0 < pid ∧ s.pidUsed pid = false := by
  obtain ⟨⟨held, hinv⟩, hsound⟩ := Orderly.of_runs h
  refine ⟨fun i j t u ht hu hpid => ?_, fun n t hn ht => ⟨?_, ?_⟩,
    fun i j t u hi hj hne ht hu hpage => ?_, ?_⟩
  · exact hsound.inj i j _ _ (table_of_task ht) (table_of_task hu) hpid
  · exact hsound.pos n _ hn (table_of_task ht)
  · refine (hsound.father n _ hn (table_of_task ht)).imp id fun halive => ?_
    obtain ⟨m, ⟨b, hb, hz, hpid⟩, huniq⟩ := hsound.existsUnique halive
    obtain ⟨u, hu, rfl⟩ := table_eq_some hb
    exact ⟨m, ⟨u, hu, hz, hpid⟩, fun k ⟨v, hv, hvz, hvpid⟩ =>
      huniq k ⟨_, table_of_task hv, hvz, hvpid⟩⟩
  · have hti := hinv.slotOf ht (Nat.one_le_iff_ne_zero.mpr hi)
    have htj := hinv.slotOf hu (Nat.one_le_iff_ne_zero.mpr hj)
    rw [hpage] at hti
    exact hne (Option.some.inj (hti.symm.trans htj))
  · obtain ⟨pid, hpid, -⟩ := freshPid_spec s hinv.lastPid.1 hinv.lastPid.2
    exact ⟨_, pid, hpid, freshPid_fresh hinv.lastPid.1 hpid⟩

/-- Task 0 forks: its child has a number of its own, and a father that has not exited. -/
theorem process_table_fork : ∃ s t, Runs Step (boot fun _ => 0) [⟨0, .fork⟩] s ∧
    s.task 1 = some t ∧ 0 < t.pid ∧
    (t.father = 0 ∨ ∃! m, ∃ u, s.task m = some u ∧ u.zombie = false ∧ u.pid = t.father) := by
  have hfork : ∃ s t, Runs Step (boot fun _ => 0) [⟨0, .fork⟩] s ∧ s.task 1 = some t :=
    ⟨_, _, .cons .nil ⟨⟨by decide, _, rfl, rfl, rfl⟩, rfl⟩, rfl⟩
  obtain ⟨s, t, hs, ht⟩ := hfork
  exact ⟨s, t, hs, ht, (process_table hs).2.1 1 t (by decide) ht⟩

end System

end Linux001.Mm
