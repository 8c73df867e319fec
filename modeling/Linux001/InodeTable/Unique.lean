import Linux001.InodeTable.Counts

/-!
# One copy of every inode

At most one slot of `inode_table` has a given label. The reason is that `iget` does not sleep
between the last search of the table, which it begins again after every wait, and the moment it
labels its empty slot; and a slot that a process refers to keeps its label, because
`get_empty_inode` takes slots without references only.

The calls of `iput` are for inodes with links, so none of them gets to `truncate`. After 65536 calls
of `iget` for an inode its counter is zero, and its slot counts as one without references.

## Main definitions

* `Proc.named`: the slots that a process has found, or labelled, for an inode.
* `UniqueInv`: the invariant.

## Main results

* `UniqueInv.step`: the invariant is kept.
* `inode_unique`: as long as no counter runs over, one slot at most has a label, and processes that
  hold the same inode hold the same slot.
* `State.exec_iget_new`, `State.exec_iget_found`, `State.exec_iput`: calls that do not wait.
* `inode_not_unique`: when a counter runs over, two processes hold different slots for an inode.
-/

namespace Linux001.InodeTable

/-- The slot that a position has found, or labelled, for an inode. -/
def Pc.named : Pc → List (Label × Slot)
  | .readLock e l | .readInode e l | .readDone e l => [(l, e)]
  | .iput _ r | .iputWrite _ r | .iputWrote _ r | .truncate _ r => r.toList
  | _ => []

/-- The slots that a process has found, or labelled, for an inode. -/
def Proc.named (q : Proc) : List (Label × Slot) := q.pc.named ++ q.held

/-- The empty slot of an `iget` that searches the table. -/
def Pc.empty : Pc → Option Slot
  | .scan e _ | .scanWait _ e _ => some e
  | _ => none

/-- The inode that an `iget` looks for. -/
def Pc.goal : Pc → Option Label
  | .getEmpty l | .emptyWait _ l | .emptyWrite _ l | .emptyWrote _ l | .scan _ l
  | .scanWait _ _ l => some l
  | _ => none

variable {n : ℕ} {s s' : State n} {p : Fin n} {t : Slot → Inode} {q : Proc}

/-- What holds in runs without `truncate`. -/
structure UniqueInv (s : State n) : Prop where
  counted : Counted s
  unique : ∀ j k, (s.table j).label = (s.table k).label → (s.table j).label.dev ≠ 0 → j = k
  named : ∀ p, ∀ x ∈ (s.proc p).named, (s.table x.2).label = x.1 ∧ x.1.dev ≠ 0
  empty : ∀ p e, (s.proc p).pc.empty = some e →
    (s.table e).label.dev = 0 ∧ (s.table e).count = 1
  goal : ∀ p l, (s.proc p).pc.goal = some l → l.dev ≠ 0
  links : ∀ p k, (s.proc p).pc.truncates k = false

theorem Proc.mem_slots_of_named {x : Label × Slot} (h : x ∈ q.named) : x.2 ∈ q.slots := by
  rcases List.mem_append.mp h with hpc | hheld
  · refine Proc.mem_slots ?_
    cases hq : q.pc <;> simp_all [Pc.named, Pc.slots]
  · exact List.mem_append_right _ (List.mem_map_of_mem hheld)

theorem Proc.mem_slots_of_empty {e : Slot} (h : q.pc.empty = some e) : e ∈ q.slots := by
  refine Proc.mem_slots ?_
  cases hq : q.pc <;> simp_all [Pc.empty, Pc.slots]

/-- What a process grabs is dirty and without references, or has the label it looks for. -/
theorem State.grabs_cases {k : Slot} (h : s.grabs p = some k) :
    (∃ l, (s.proc p).pc = .emptyWait k l) ∨ (s.proc p).pc.goal = some (s.table k).label := by
  rw [State.grabs] at h
  split at h
  case h_1 j l hpc =>
    split_ifs at h
    obtain rfl := Option.some.inj h
    exact .inl ⟨l, hpc⟩
  case h_2 e l hpc =>
    obtain ⟨hf, -⟩ := Option.filter_eq_some_iff.mp h
    rw [hpc, State.findLabel_eq_some hf]
    exact .inr rfl
  case h_3 j e l hpc =>
    split_ifs at h with hc
    obtain rfl := Option.some.inj h
    rw [hpc, hc.2]
    exact .inr rfl
  case h_4 => simp at h

namespace Trans

/-- A slot in use keeps its label, unless it is the empty one of the process that takes the step. -/
theorem label_of_count (h : Trans s p t q) {k : Slot} (hc : (s.table k).count ≠ 0)
    (he : (s.proc p).pc.empty ≠ some k) (hfree : (s.proc p).pc.truncates k = false) :
    (t k).label = (s.table k).label := by
  have hupd : ∀ (j : Slot) (i : Inode), (k = j → i.label = (s.table k).label) →
      (Function.update s.table j i k).label = (s.table k).label := fun j i hi => by
    rw [Function.update_apply]
    split_ifs with hkj
    · exact hi hkj
    · rfl
  cases h with
  | iget | put | pick | await | rescan => rfl
  | use | emptyStore | read | putStore | flush | lock | putFlush | retry | readEnd | destroy | found
  | drop => exact hupd _ _ fun hk => by rw [hk]
  | take hpc hcount => exact hupd _ _ fun hk => absurd (hk ▸ hcount) hc
  | name hpc => exact hupd _ _ fun hk => absurd (by rw [hpc, hk]; rfl) he
  | free hpc =>
    refine hupd _ _ fun hk => ?_
    simp [hpc, Pc.truncates, hk] at hfree

/-- A label that is new in the table was nowhere in it before. -/
theorem label_new (h : Trans s p t q) (k : Slot) :
    (t k).label = (s.table k).label ∨ (t k).label.dev = 0 ∨
      ∀ j, (s.table j).label ≠ (t k).label ∧ (j ≠ k → t j = s.table j) := by
  have hupd : ∀ (j : Slot) (i : Inode), i.label = (s.table j).label →
      (Function.update s.table j i k).label = (s.table k).label := fun j i hi => by
    rw [Function.update_apply]
    split_ifs with hkj
    · rw [hi, hkj]
    · rfl
  cases h with
  | iget | put | pick | await | rescan => exact .inl rfl
  | use | emptyStore | read | putStore | flush | lock | putFlush | retry | readEnd | destroy | found
  | drop => exact .inl (hupd _ _ (by rfl))
  | @take j _ _ _ | @free j _ _ =>
    by_cases hk : k = j
    · subst hk
      exact .inr (.inl (by rw [Function.update_self]; rfl))
    · exact .inl (by rw [Function.update_of_ne hk])
  | @name e l hpc hnew =>
    by_cases hk : k = e
    · subst hk
      refine .inr (.inr fun j => ⟨?_, fun hj => Function.update_of_ne hj _ _⟩)
      rw [Function.update_self]
      exact hnew j
    · exact .inl (by rw [Function.update_of_ne hk])

/-- What a process has found, or labelled, by a step has the label it was looking for. -/
theorem named_new (h : Trans s p t q) {x : Label × Slot} (hx : x ∈ q.named) :
    x ∈ (s.proc p).named ∨ (t x.2).label = x.1 ∧ (s.proc p).pc.goal = some x.1 := by
  cases h with
  | @put j y hpc hy =>
    left
    have hx' : x ∈ (s.proc p).held.eraseIdx j := by simpa [Proc.named, Pc.named] using hx
    simpa [Proc.named, Pc.named, hpc] using List.mem_of_mem_eraseIdx hx'
  | use => exact .inl hx
  | @found k e l hpc hlock hl hgrabs =>
    have hcases : x = (l, k) ∨ x ∈ (s.proc p).held := by simpa [Proc.named, Pc.named] using hx
    rcases hcases with rfl | hheld
    · refine .inr ⟨by rw [Function.update_self]; exact hl, ?_⟩
      rcases hpc with hpc | hpc <;> rw [hpc] <;> rfl
    · exact .inl (List.mem_append_right _ hheld)
  | @name e l hpc hnew =>
    have hcases : x = (l, e) ∨ x ∈ (s.proc p).held := by simpa [Proc.named, Pc.named] using hx
    rcases hcases with rfl | hheld
    · exact .inr ⟨by rw [Function.update_self], by rw [hpc]; rfl⟩
    · exact .inl (List.mem_append_right _ hheld)
  | flush hpc | take hpc | retry hpc =>
    exact .inl (List.mem_append_right _ (by simpa [Proc.named, Pc.named] using hx))
  | drop hpc | putFlush hpc | destroy hpc =>
    left
    rcases hpc with ⟨hpc, -⟩ | hpc <;> simpa [Proc.named, Pc.named, hpc] using hx
  | iget hpc | pick hpc | emptyStore hpc | await hpc | rescan hpc | lock hpc | read hpc
  | readEnd hpc | putStore hpc | free hpc =>
    left
    simpa [Proc.named, Pc.named, hpc] using hx

/-- A process that searches the table has an empty slot. -/
theorem empty_new (h : Trans s p t q) {e : Slot} (hq : q.pc.empty = some e)
    (hold : (s.proc p).pc.empty = some e → (s.table e).label.dev = 0 ∧ (s.table e).count = 1) :
    (t e).label.dev = 0 ∧ (t e).count = 1 := by
  cases h with
  | take hpc hcount =>
    obtain rfl := Option.some.inj hq
    rw [Function.update_self]
    exact ⟨rfl, rfl⟩
  | await hpc | rescan hpc =>
    obtain rfl := Option.some.inj hq
    exact hold (by rw [hpc]; rfl)
  | use hpc => simp [hpc, Pc.empty] at hq
  | _ => simp [Pc.empty] at hq

/-- An `iget` goes on to look for the same inode. -/
theorem goal_new (h : Trans s p t q) {l : Label} (hq : q.pc.goal = some l) :
    (s.proc p).pc.goal = some l ∨ l.dev ≠ 0 := by
  cases h with
  | iget hpc hl =>
    obtain rfl := Option.some.inj hq
    exact .inr hl
  | flush hpc | take hpc | retry hpc =>
    obtain rfl := Option.some.inj hq
    rcases hpc with ⟨hpc, -⟩ | hpc <;> exact .inl (by rw [hpc]; rfl)
  | pick hpc | emptyStore hpc | await hpc | rescan hpc =>
    obtain rfl := Option.some.inj hq
    exact .inl (by rw [hpc]; rfl)
  | use hpc => simp [hpc, Pc.goal] at hq
  | _ => simp [Pc.goal] at hq

end Trans

namespace UniqueInv

theorem init (disk : Label → ℕ) (imap : Label → Bool) :
    UniqueInv (State.init disk imap : State n) := by
  refine ⟨(Inv.init disk imap).counted, ?_, ?_, ?_, ?_, ?_⟩
  · intro j k _ hdev
    simp [State.init, Inode.zero] at hdev
  · intro p x hx
    simp [State.init, Proc.named, Pc.named] at hx
  · intro p e hp
    simp [State.init, Pc.empty] at hp
  · intro p l hp
    simp [State.init, Pc.goal] at hp
  · intro p k
    simp [State.init, Pc.truncates]

/-- The empty slot of a process is not referred to by another one. -/
theorem not_mem_of_empty (h : UniqueInv s) {e : Slot} (hp : (s.proc p).pc.empty = some e)
    {p' : Fin n} (hne : p' ≠ p) : e ∉ (s.proc p').slots := by
  intro he
  have htwo := h.counted.two_le hne he (Proc.mem_slots_of_empty hp)
  rw [(h.empty p e hp).2] at htwo
  omega

/-- Every step that does not get to `truncate`, and at which no counter runs over, keeps the
invariant. -/
theorem step {e : Event n} (h : UniqueInv s) (hroom : s.Room e) (hs : s.next e = some s')
    (hlinks : ∀ p k, (s'.proc p).pc.truncates k = false) : UniqueInv s' := by
  rcases State.next_cases hs with ⟨-, htable, hproc⟩ | ⟨-, q, htrans, hproc⟩
  · refine ⟨fun k => ?_, ?_, ?_, ?_, ?_, hlinks⟩
    · rw [State.refs, htable, hproc]
      exact h.counted k
    · rw [htable]
      exact h.unique
    all_goals rw [hproc]
    · rw [htable]
      exact h.named
    · rw [htable]
      exact h.empty
    · exact h.goal
  set p := e.proc with hpdef
  have hself : s'.proc p = q := by rw [hproc, Function.update_self]
  have hother : ∀ {p'}, p' ≠ p → s'.proc p' = s.proc p' := fun hne => by
    rw [hproc, Function.update_of_ne hne]
  have hfree : ∀ k r, (s.proc p).pc = .truncate k r → (s.table k).count = 1 := fun k r hpc => by
    have hno := h.links p k
    simp [hpc, Pc.truncates] at hno
  -- What was named before keeps its label.
  have hkept : ∀ {p' x}, x ∈ (s.proc p').named →
      (s'.table x.2).label = x.1 ∧ x.1.dev ≠ 0 := fun {p' x} hx => by
    obtain ⟨hlabel, hdev⟩ := h.named p' x hx
    have hcount := h.counted.one_le (Proc.mem_slots_of_named hx)
    refine ⟨?_, hdev⟩
    rw [htrans.label_of_count (by omega) (fun he => hdev ?_) (h.links p x.2)]
    · exact hlabel
    · rw [← hlabel]
      exact (h.empty p x.2 he).1
  refine ⟨h.counted.of_update hproc (htrans.balance h.counted hroom hfree), fun j k hjk hdev => ?_,
    fun p' x hx => ?_, fun p' e' he => ?_, fun p' l hl => ?_, hlinks⟩
  · by_contra hne
    rcases htrans.label_new j with hj | hj | hj
    · rcases htrans.label_new k with hk | hk | hk
      · rw [hj] at hjk hdev
        rw [hk] at hjk
        exact hne (h.unique j k hjk hdev)
      · exact hdev (hjk ▸ hk)
      · exact (hk j).1 (hj.symm.trans hjk)
    · exact hdev hj
    · have hk := (hj k).2 (Ne.symm hne)
      exact (hj k).1 (by rw [← hk, hjk])
  · by_cases hne : p' = p
    · rw [hne, hself] at hx
      rcases htrans.named_new hx with hold | ⟨hlabel, hgoal⟩
      · exact hkept hold
      · exact ⟨hlabel, h.goal p x.1 hgoal⟩
    · rw [hother hne] at hx
      exact hkept hx
  · by_cases hne : p' = p
    · rw [hne, hself] at he
      exact htrans.empty_new he (h.empty p e')
    · rw [hother hne] at he
      obtain ⟨hdev, hcount⟩ := h.empty p' e' he
      have hnot := h.not_mem_of_empty he (Ne.symm hne)
      rw [htrans.count_of_notMem hnot (by omega) fun hg => ?_,
        htrans.label_of_count (by omega) (fun he' => hnot (Proc.mem_slots_of_empty he'))
          (h.links p e')]
      · exact ⟨hdev, hcount⟩
      · rcases State.grabs_cases hg with hwait | hgoal
        · exact hwait
        · exact absurd hdev (h.goal p _ hgoal)
  · by_cases hne : p' = p
    · rw [hne, hself] at hl
      rcases htrans.goal_new hl with hold | hdev
      · exact h.goal p l hold
      · exact hdev
    · rw [hother hne] at hl
      exact h.goal p' l hl

end UniqueInv

/-- **At most one in-core copy of an inode.** In every run in which the calls of `iput` that get to
test `i_nlinks` find links, and in which no counter runs over, at most one slot of the table has a
given label, and two processes that hold an inode hold the same slot. -/
theorem inode_unique {disk : Label → ℕ} {imap : Label → Bool} {es : List (Event n)}
    (h : Runs (fun s e s' => s.next e = some s' ∧ s.Room e ∧
      ∀ p k, (s'.proc p).pc.truncates k = false) (State.init disk imap) es s) :
    (∀ j k, (s.table j).label = (s.table k).label → (s.table j).label.dev ≠ 0 → j = k) ∧
    ∀ p p' l j k, (l, j) ∈ (s.proc p).held → (l, k) ∈ (s.proc p').held → j = k := by
  have hinv : UniqueInv s := h.invariant (fun s e s' hs ⟨hnext, hroom, hlinks⟩ =>
    hs.step hroom hnext hlinks) (UniqueInv.init disk imap)
  refine ⟨hinv.unique, fun p p' l j k hj hk => ?_⟩
  obtain ⟨hlj, hdev⟩ := hinv.named p (l, j) (List.mem_append_right _ hj)
  obtain ⟨hlk, -⟩ := hinv.named p' (l, k) (List.mem_append_right _ hk)
  dsimp only at hlj hlk hdev
  exact hinv.unique j k (hlj.trans hlk.symm) (by rw [hlj]; exact hdev)

/-- Two processes get the inode 5 of device 1, one after the other. -/
def twoUsers : List (Event 2) :=
  [.iget 0 ⟨1, 5⟩, .run 0, .run 0, .run 0, .run 0, .run 0, .run 0,
    .iget 1 ⟨1, 5⟩, .run 1, .run 1, .run 1, .run 1]

/-- Both of them hold the first slot, and no other slot has its label. -/
theorem inode_unique_twoUsers : ∃ s,
    Runs (fun s e s' => State.next s e = some s' ∧ s.Room e ∧
      ∀ p k, (s'.proc p).pc.truncates k = false)
      (State.init (fun _ => 1) fun _ => true : State 2) twoUsers.reverse s ∧
    (⟨1, 5⟩, 0) ∈ (s.proc 0).held ∧ (⟨1, 5⟩, 0) ∈ (s.proc 1).held ∧
    ∀ k, (s.table k).label = (s.table 0).label → (s.table k).label.dev ≠ 0 → k = 0 := by
  have hexec : ∃ s, exec (fun s e => (State.next s e).filter fun s' =>
      s.Room e ∧ ∀ p k, (s'.proc p).pc.truncates k = false)
      (State.init (fun _ => 1) fun _ => true : State 2) twoUsers = some s ∧
        (⟨1, 5⟩, 0) ∈ (s.proc 0).held ∧ (⟨1, 5⟩, 0) ∈ (s.proc 1).held :=
    ⟨_, rfl, by decide, by decide⟩
  obtain ⟨s, hs, h₀, h₁⟩ := hexec
  have hrun := runs_of_exec_guarded hs
  exact ⟨s, hrun, h₀, h₁, fun k => (inode_unique hrun).1 k 0⟩

/-! ### Calls that do not wait -/

namespace State

variable {l : Label} {e k a : Slot} {pc : Pc}

/-- The state while the process `p` is in a call. -/
def inCall (s : State n) (p : Fin n) (table : Slot → Inode) (last : Slot) (pc : Pc) : State n :=
  { s with
    table := table
    last := last
    proc := Function.update s.proc p ⟨pc, (s.proc p).held⟩
    current := some p }

theorem inCall_proc : (s.inCall p t a pc).proc p = ⟨pc, (s.proc p).held⟩ := Function.update_self ..

theorem inCall_setPc (t' : Slot → Inode) (a' : Slot) (pc' : Pc) :
    State.setPc { s.inCall p t a pc with table := t', last := a' } p pc' =
      s.inCall p t' a' pc' := by
  rw [setPc, inCall]
  dsimp only
  rw [Function.update_self, Function.update_idem]
  rfl

theorem inCall_finish (t' : Slot → Inode) (r : Return) :
    State.finish { s.inCall p t a pc with table := t' } p r =
      { s with
        table := t'
        last := a
        proc := Function.update s.proc p ⟨.idle, r.toList ++ (s.proc p).held⟩
        current := some p } := by
  rw [finish, inCall]
  dsimp only
  rw [Function.update_self, Function.update_idem]

/-- A process in a call goes on. -/
theorem next_inCall (hpanic : s.panic = none) {s' : State n}
    (h : (s.inCall p t a pc).run p = some s') :
    (s.inCall p t a pc).next (.run p) = some { s' with current := some p } := by
  have hrun : (s.inCall p t a pc).mayRun p = true := by
    simp only [mayRun, inCall, decide_true, Bool.true_or]
  have hact : (s.inCall p t a pc).act (.run p) = some s' := h
  rw [next, if_pos ⟨hpanic, hrun⟩, hact]
  rfl

theorem mayRun_of_idle (hidle : ∀ q, (s.proc q).pc = .idle) : s.mayRun p = true := by
  unfold mayRun
  cases s.current with
  | none => rfl
  | some q => simp only [sleeps, hidle q, Bool.or_true]

theorem next_iget (hpanic : s.panic = none) (hidle : ∀ q, (s.proc q).pc = .idle) (hl : l.dev ≠ 0) :
    s.next (.iget p l) = some (s.inCall p s.table s.last (.getEmpty l)) := by
  rw [next, if_pos ⟨hpanic, mayRun_of_idle hidle⟩]
  simp only [act, Event.proc, hidle, call, hl, if_true, if_false]
  rfl

theorem next_getEmpty (hpanic : s.panic = none)
    (he : ((List.finRange nrInode).map (a + ·)).find? (fun k => (t k).count = 0) = some e) :
    (s.inCall p t a (.getEmpty l)).next (.run p) = some (s.inCall p t e (.emptyWait e l)) := by
  have hfind : (s.inCall p t a (.getEmpty l)).findEmpty = some e := he
  have hrun : (s.inCall p t a (.getEmpty l)).run p = some (s.inCall p t e (.emptyWait e l)) := by
    rw [run, inCall_proc]
    dsimp only
    rw [getEmpty, hfind]
    exact congrArg some (inCall_setPc t e (.emptyWait e l))
  exact next_inCall hpanic hrun

theorem next_emptyWait (hpanic : s.panic = none) (hlock : (t e).lock = false)
    (hdirt : (t e).dirt = false) (hcount : (t e).count = 0) :
    (s.inCall p t a (.emptyWait e l)).next (.run p) =
      some (s.inCall p (Function.update t e { Inode.zero with count := 1 }) a (.scan e l)) := by
  have htable : (s.inCall p t a (.emptyWait e l)).table = t := rfl
  have hrun : (s.inCall p t a (.emptyWait e l)).run p =
      some (s.inCall p (Function.update t e { Inode.zero with count := 1 }) a (.scan e l)) := by
    rw [run, inCall_proc]
    dsimp only
    rw [emptyCheck, htable, hlock, hdirt, hcount]
    exact congrArg some (inCall_setPc _ a (.scan e l))
  exact next_inCall hpanic hrun

theorem next_scan_none (hpanic : s.panic = none) (hnew : ∀ k, (t k).label ≠ l) :
    (s.inCall p t a (.scan e l)).next (.run p) =
      some (s.inCall p (Function.update t e { t e with label := l }) a (.readLock e l)) := by
  have hfind : (s.inCall p t a (.scan e l)).findLabel l = none :=
    List.find?_eq_none.mpr fun k _ => by
      rw [decide_eq_true_iff]
      exact hnew k
  have hrun : (s.inCall p t a (.scan e l)).run p =
      some (s.inCall p (Function.update t e { t e with label := l }) a (.readLock e l)) := by
    rw [run, inCall_proc]
    dsimp only
    rw [scan, hfind]
    exact congrArg some (inCall_setPc _ a (.readLock e l))
  exact next_inCall hpanic hrun

theorem next_scan_some (hpanic : s.panic = none)
    (hfind : (List.finRange nrInode).find? (fun k => (t k).label = l) = some k)
    (hlock : (t k).lock = false) :
    (s.inCall p t a (.scan e l)).next (.run p) =
      some (s.inCall p (Function.update t k { t k with count := incCount (t k).count }) a
        (.iput e (some (l, k)))) := by
  have hfind : (s.inCall p t a (.scan e l)).findLabel l = some k := hfind
  have htable : (s.inCall p t a (.scan e l)).table = t := rfl
  have hrun : (s.inCall p t a (.scan e l)).run p =
      some (s.inCall p (Function.update t k { t k with count := incCount (t k).count }) a
        (.iput e (some (l, k)))) := by
    rw [run, inCall_proc]
    dsimp only
    rw [scan, hfind]
    dsimp only
    rw [if_neg (by rw [htable, hlock]; exact Bool.false_ne_true)]
    exact congrArg some (inCall_setPc _ a (.iput e (some (l, k))))
  exact next_inCall hpanic hrun

/-- `read_inode` of the empty slot that `iget` has labelled. -/
theorem exec_readInode (hpanic : s.panic = none) (hlock : (t e).lock = false) :
    exec next (s.inCall p t a (.readLock e l)) [.run p, .run p, .run p] =
      some { s with
        table := Function.update t e { t e with nlinks := s.disk (t e).label }
        last := a
        proc := Function.update s.proc p ⟨.idle, (l, e) :: (s.proc p).held⟩
        current := some p } := by
  have h₁ : (s.inCall p t a (.readLock e l)).run p =
      some (s.inCall p (Function.update t e { t e with lock := true }) a (.readInode e l)) := by
    have htable : (s.inCall p t a (.readLock e l)).table = t := rfl
    rw [run, inCall_proc]
    dsimp only
    rw [htable, hlock]
    exact congrArg some (inCall_setPc _ a (.readInode e l))
  have h₂ (t : Slot → Inode) : (s.inCall p t a (.readInode e l)).run p =
      some (s.inCall p (Function.update t e { t e with nlinks := s.disk (t e).label }) a
        (.readDone e l)) := by
    rw [run, inCall_proc]
    exact congrArg some (inCall_setPc _ a (.readDone e l))
  have h₃ (t : Slot → Inode) : (s.inCall p t a (.readDone e l)).run p = some { s with
      table := Function.update t e { t e with lock := false }
      last := a
      proc := Function.update s.proc p ⟨.idle, (l, e) :: (s.proc p).held⟩
      current := some p } := by
    rw [run, inCall_proc]
    exact congrArg some (inCall_finish _ (some (l, e)))
  simp only [exec, next_inCall hpanic h₁, Option.bind_some]
  have h₂' := next_inCall hpanic (h₂ (Function.update t e { t e with lock := true }))
  have h₃' := next_inCall hpanic (h₃ (Function.update
    (Function.update t e { t e with lock := true }) e
      { t e with lock := true, nlinks := s.disk (t e).label }))
  rw [Function.update_self] at h₂'
  simp only [Function.update_idem, Function.update_self] at h₂' h₃'
  refine (congrArg (Option.bind · _) h₂').trans ?_
  refine (congrArg (Option.bind · _) h₃').trans ?_
  rw [← hlock]
  rfl

/-- An `iget` of an inode that is not in core. -/
theorem exec_iget_new (hpanic : s.panic = none) (hidle : ∀ q, (s.proc q).pc = .idle)
    (hl : l.dev ≠ 0) (he : s.findEmpty = some e) (hlock : (s.table e).lock = false)
    (hdirt : (s.table e).dirt = false) (hnew : ∀ k ≠ e, (s.table k).label ≠ l) :
    exec next s (.iget p l :: List.replicate 6 (.run p)) = some { s with
      table := Function.update s.table e ⟨l, 1, s.disk l, false, false⟩
      last := e
      proc := Function.update s.proc p ⟨.idle, (l, e) :: (s.proc p).held⟩
      current := some p } := by
  have hcount : (s.table e).count = 0 := by simpa using List.find?_some he
  have hnew' (k : Slot) :
      (Function.update s.table e { Inode.zero with count := 1 } k).label ≠ l := by
    rw [Function.update_apply]
    split_ifs with hk
    · rintro rfl
      exact hl rfl
    · exact hnew k hk
  have h₁ := next_iget (p := p) hpanic hidle hl
  have h₂ : (s.inCall p s.table s.last (.getEmpty l)).next (.run p) = _ := next_getEmpty hpanic he
  have h₃ : (s.inCall p s.table e (.emptyWait e l)).next (.run p) = _ :=
    next_emptyWait hpanic hlock hdirt hcount
  have h₄ : (s.inCall p _ e (.scan e l)).next (.run p) = _ := next_scan_none hpanic hnew'
  have h₅ := exec_readInode (p := p) (l := l) (a := e) (e := e)
    (t := Function.update (Function.update s.table e { Inode.zero with count := 1 }) e
      { Inode.zero with label := l, count := 1 }) hpanic (by rw [Function.update_self]; rfl)
  simp only [Function.update_self, Function.update_idem] at h₄ h₅
  refine (congrArg (Option.bind · _) h₁).trans ?_
  refine (congrArg (Option.bind · _) h₂).trans ?_
  refine (congrArg (Option.bind · _) h₃).trans ?_
  refine (congrArg (Option.bind · _) h₄).trans ?_
  exact h₅

/-- An `iget` of an inode that is in core and not locked. -/
theorem exec_iget_found (hpanic : s.panic = none) (hidle : ∀ q, (s.proc q).pc = .idle)
    (hl : l.dev ≠ 0) (he : s.findEmpty = some e) (hempty : s.table e = Inode.zero)
    (hfind : s.findLabel l = some k) (hlock : (s.table k).lock = false) :
    exec next s (.iget p l :: List.replicate 4 (.run p)) = some { s with
      table := Function.update s.table k { s.table k with count := incCount (s.table k).count }
      last := e
      proc := Function.update s.proc p ⟨.idle, (l, k) :: (s.proc p).held⟩
      current := some p } := by
  have hlabel := findLabel_eq_some hfind
  have hke : k ≠ e := by
    rintro rfl
    rw [hempty] at hlabel
    exact hl (congrArg Label.dev hlabel.symm)
  set t := Function.update s.table e { Inode.zero with count := 1 } with ht
  have htk : t k = s.table k := Function.update_of_ne hke ..
  have hfind' : (List.finRange nrInode).find? (fun k => (t k).label = l) = some k := by
    rw [← hfind, State.findLabel]
    congr 1
    funext j
    rw [ht, Function.update_apply]
    split_ifs with hj
    · rw [hj, hempty]
    · rfl
  have h₁ := next_iget (p := p) hpanic hidle hl
  have h₂ : (s.inCall p s.table s.last (.getEmpty l)).next (.run p) = _ := next_getEmpty hpanic he
  have h₃ : (s.inCall p s.table e (.emptyWait e l)).next (.run p) = some (s.inCall p t e _) :=
    next_emptyWait hpanic (by rw [hempty]; rfl) (by rw [hempty]; rfl) (by rw [hempty]; rfl)
  have h₄ : (s.inCall p t e (.scan e l)).next (.run p) = _ :=
    next_scan_some hpanic hfind' (by rw [htk]; exact hlock)
  have hrun : (s.inCall p (Function.update t k { t k with count := incCount (t k).count }) e
      (.iput e (some (l, k)))).run p = some { s with
        table := Function.update (Function.update t k { t k with count := incCount (t k).count }) e
          Inode.zero
        last := e
        proc := Function.update s.proc p ⟨.idle, (l, k) :: (s.proc p).held⟩
        current := some p } := by
    have hslot : (s.inCall p (Function.update t k { t k with count := incCount (t k).count }) e
        (.iput e (some (l, k)))).table e = { Inode.zero with count := 1 } :=
      (Function.update_of_ne hke.symm ..).trans (Function.update_self ..)
    rw [run, inCall_proc]
    dsimp only
    rw [hslot, if_neg (by decide), State.iput, hslot, if_neg (by decide), if_pos (.inl rfl), drop,
      hslot]
    exact congrArg some (inCall_finish _ (some (l, k)))
  have h₅ := next_inCall hpanic hrun
  refine (congrArg (Option.bind · _) h₁).trans ?_
  refine (congrArg (Option.bind · _) h₂).trans ?_
  refine (congrArg (Option.bind · _) h₃).trans ?_
  refine (congrArg (Option.bind · _) h₄).trans ?_
  refine (congrArg (Option.bind · _) h₅).trans ?_
  have htable : Function.update (Function.update t k { t k with count := incCount (t k).count }) e
      Inode.zero =
      Function.update s.table k { s.table k with count := incCount (s.table k).count } := by
    rw [Function.update_comm hke, htk, ht, Function.update_idem, ← hempty, Function.update_eq_self]
  rw [htable]
  rfl
/-- An `iput` that is not the last one of an inode on the disk, or finds it clean and with links. -/
theorem exec_iput {j : ℕ} (hpanic : s.panic = none) (hidle : ∀ q, (s.proc q).pc = .idle)
    (hj : (s.proc p).held[j]? = some (l, k)) (hlock : (s.table k).lock = false)
    (hcount : (s.table k).count ≠ 0) (hdirt : (s.table k).dirt = false)
    (hlinks : (s.table k).nlinks ≠ 0) :
    exec next s [.iput p j, .run p] = some { s with
      table := Function.update s.table k { s.table k with count := decCount (s.table k).count }
      proc := Function.update s.proc p ⟨.idle, (s.proc p).held.eraseIdx j⟩
      current := some p } := by
  have hmay : s.mayRun p = true := mayRun_of_idle hidle
  set s₁ : State n := { s with
    proc := Function.update s.proc p ⟨.iput k none, (s.proc p).held.eraseIdx j⟩
    current := some p } with hs₁
  have h₁ : s.next (.iput p j) = some s₁ := by
    rw [next, if_pos ⟨hpanic, hmay⟩]
    simp only [act, Event.proc, hidle, call, hj, if_true]
    rfl
  have hproc : s₁.proc p = ⟨.iput k none, (s.proc p).held.eraseIdx j⟩ := Function.update_self ..
  have hdrop : s₁.drop p k none = { s with
      table := Function.update s.table k { s.table k with count := decCount (s.table k).count }
      proc := Function.update s.proc p ⟨.idle, (s.proc p).held.eraseIdx j⟩
      current := some p } := by
    rw [drop, finish, setInode]
    dsimp only
    rw [hproc, hs₁]
    dsimp only
    rw [Function.update_idem]
    rfl
  have hrun : s₁.run p = some (s₁.drop p k none) := by
    have htable : s₁.table = s.table := rfl
    rw [run, hproc]
    dsimp only
    rw [htable, hlock, if_neg Bool.false_ne_true, State.iput, htable, if_neg hcount]
    split_ifs
    · rfl
    · rw [iputRepeat, htable, if_neg hlinks, hdirt, if_neg Bool.false_ne_true]
  have hmay₁ : s₁.mayRun p = true := by
    simp only [mayRun, hs₁, decide_true, Bool.true_or]
  have h₂ : s₁.next (.run p) = some { s₁.drop p k none with current := some p } := by
    have hact : s₁.act (.run p) = some (s₁.drop p k none) := hrun
    rw [next, if_pos ⟨hpanic, hmay₁⟩, hact]
    rfl
  refine (congrArg (Option.bind · _) h₁).trans ?_
  refine (congrArg (Option.bind · _) h₂).trans ?_
  rw [hdrop]
  rfl

end State

/-! ### A counter that runs over -/

/-- The event drops no link. -/
def Event.keepsLinks : Event n → Bool
  | .unlink _ _ => false
  | _ => true

/-- The states of two processes that drop no link, on a disk on which every inode has one link. -/
def Linked (s : State 2) : Prop :=
  ∃ es, Runs (fun s e s' => State.next s e = some s') (State.init (fun _ => 1) fun _ => true) es s ∧
    ∀ e ∈ es, e.keepsLinks = true

theorem Linked.exec {s s' : State 2} {es : List (Event 2)} (h : Linked s)
    (hs : Linux001.exec State.next s es = some s') (hes : ∀ e ∈ es, e.keepsLinks = true) :
    Linked s' := by
  obtain ⟨past, hrun, hpast⟩ := h
  refine ⟨es.reverse ++ past, hrun.append (runs_of_exec hs), fun e he => ?_⟩
  rcases List.mem_append.mp he with he | he
  · exact hes e (List.mem_reverse.mp he)
  · exact hpast e he

theorem keepsLinks_iget (p : Fin n) (l : Label) (m : ℕ) :
    ∀ e ∈ Event.iget p l :: List.replicate m (.run p), e.keepsLinks = true := by
  intro e he
  rcases List.mem_cons.mp he with rfl | he
  · rfl
  · rw [List.eq_of_mem_replicate he]
    rfl

/-- The first process has taken references to the inode 5 of device 1 until its counter is `c`, and
the second one has the inodes from 101 on in the next `j` slots. -/
def crowded (c j : ℕ) (held held' : List (Label × Slot)) (last : Slot) (q : Fin 2) : State 2 where
  table k := if k = 0 then ⟨⟨1, 5⟩, c, 1, false, false⟩
    else if k.val ≤ j then ⟨⟨1, 100 + k⟩, 1, 1, false, false⟩ else Inode.zero
  last := last
  disk _ := 1
  imap _ := true
  proc r := if r = 0 then ⟨.idle, held⟩ else ⟨.idle, held'⟩
  current := some q
  panic := none

variable {c j : ℕ} {held held' : List (Label × Slot)} {a : Slot} {r : Fin 2}

theorem crowded_idle (q : Fin 2) : ((crowded c j held held' a r).proc q).pc = .idle := by
  simp only [crowded]
  split_ifs <;> rfl

/-- The first process takes one more reference. -/
theorem crowded_iget (ha : a = 1 ∨ a = 0 ∧ c ≠ 0) :
    exec State.next (crowded c 0 held [] a 0) (.iget 0 ⟨1, 5⟩ :: List.replicate 4 (.run 0)) =
      some (crowded (incCount c) 0 ((⟨1, 5⟩, 0) :: held) [] 1 0) := by
  have hempty : (crowded c 0 held [] a 0).findEmpty = some 1 := by
    rcases ha with rfl | ⟨rfl, hc⟩
    · rfl
    · have hlist : (List.finRange nrInode).map ((0 : Slot) + ·) =
          0 :: 1 :: ((List.finRange nrInode).map ((0 : Slot) + ·)).drop 2 := rfl
      change ((List.finRange nrInode).map ((0 : Slot) + ·)).find? _ = _
      rw [hlist, List.find?_cons_of_neg (by simpa [crowded] using hc),
        List.find?_cons_of_pos rfl]
  have hrun := State.exec_iget_found (p := (0 : Fin 2)) (l := ⟨1, 5⟩) (k := 0) rfl crowded_idle
    Nat.one_ne_zero hempty rfl rfl rfl
  rw [hrun]
  refine congrArg some ?_
  simp only [crowded, State.mk.injEq, and_true, true_and]
  refine ⟨funext fun k => ?_, funext fun q => ?_⟩
  · rw [Function.update_apply]
    split_ifs <;> rfl
  · rw [Function.update_apply]
    split_ifs <;> rfl

/-- The second process gets the next of its inodes. -/
theorem crowded_next (hj : j + 1 < nrInode) (ha : a = if j = 0 then 1 else ⟨j, by omega⟩) :
    exec State.next (crowded 0 j held held' a r)
        (.iget 1 ⟨1, 100 + (j + 1)⟩ :: List.replicate 6 (.run 1)) =
      some (crowded 0 (j + 1) held ((⟨1, 100 + (j + 1)⟩, ⟨j + 1, hj⟩) :: held') ⟨j + 1, hj⟩ 1) := by
  have hall : ∀ i : Fin 31, (crowded 0 i [] [] (if i.val = 0 then 1 else
      ⟨i.val, Nat.lt_succ_of_lt i.isLt⟩) 0).findEmpty =
        (some ⟨i.val + 1, Nat.succ_lt_succ i.isLt⟩ : Option Slot) := by
    decide
  have hempty : (crowded 0 j held held' a r).findEmpty = some ⟨j + 1, hj⟩ := by
    rw [ha]
    exact hall ⟨j, Nat.lt_of_succ_lt_succ hj⟩
  have hne : (⟨j + 1, hj⟩ : Slot) ≠ 0 := fun h => Nat.succ_ne_zero j (congrArg Fin.val h)
  have hslot : (crowded 0 j held held' a r).table ⟨j + 1, hj⟩ = Inode.zero := by
    rw [crowded]
    dsimp only
    rw [if_neg hne, if_neg (Nat.not_succ_le_self j)]
  have hnew : ∀ k ≠ (⟨j + 1, hj⟩ : Slot),
      ((crowded 0 j held held' a r).table k).label ≠ ⟨1, 100 + (j + 1)⟩ := by
    intro k _ hk
    have hnum := congrArg Label.num hk
    simp only [crowded] at hnum
    split_ifs at hnum with h₀ hle
    · dsimp only at hnum
      omega
    · dsimp only at hnum
      omega
    · cases hnum
  have hrun := State.exec_iget_new (p := (1 : Fin 2)) rfl crowded_idle Nat.one_ne_zero hempty
    (by rw [hslot]; rfl) (by rw [hslot]; rfl) hnew
  rw [hrun]
  refine congrArg some ?_
  simp only [crowded, State.mk.injEq, and_true, true_and]
  refine ⟨funext fun k => ?_, funext fun q => ?_⟩
  · rw [Function.update_apply]
    by_cases hk : k = ⟨j + 1, hj⟩
    · rw [hk, if_pos rfl, if_neg hne, if_pos le_rfl]
    · have hval : k.val ≠ j + 1 := fun hc => hk (Fin.ext hc)
      have hle : k.val ≤ j ↔ k.val ≤ j + 1 := by omega
      rw [if_neg hk]
      exact if_congr Iff.rfl rfl (if_congr hle rfl rfl)
  · rw [Function.update_apply]
    by_cases hq : q = 1
    · rw [hq]
      rfl
    · obtain rfl : q = 0 := by omega
      rfl

/-- The first process takes references until the counter has run over. -/
theorem linked_references (m : ℕ) :
    Linked (crowded ((m + 1) % 65536) 0 (List.replicate (m + 1) (⟨1, 5⟩, 0)) []
      (if m = 0 then 0 else 1) 0) := by
  induction m with
  | zero =>
    have hinit : Linked (State.init (fun _ => 1) fun _ => true) :=
      ⟨[], .nil, fun _ h => nomatch h⟩
    refine hinit.exec ?_ (keepsLinks_iget 0 ⟨1, 5⟩ 6)
    have hrun := State.exec_iget_new (s := State.init (fun _ => 1) fun _ => true) (p := (0 : Fin 2))
      (l := ⟨1, 5⟩) (e := 0) rfl (fun _ => rfl) Nat.one_ne_zero rfl rfl rfl
      fun _ _ h => Nat.zero_ne_one (congrArg Label.dev h)
    rw [hrun]
    refine congrArg some ?_
    simp only [crowded, State.init, State.mk.injEq, and_true, true_and]
    refine ⟨funext fun k => ?_, rfl, funext fun q => ?_⟩
    · rw [Function.update_apply]
      split_ifs with hk hle
      · rfl
      · exact absurd (Fin.ext (Nat.le_zero.mp hle)) hk
      · rfl
    · rw [Function.update_apply]
      split_ifs <;> rfl
  | succ m ih =>
    have hstep := ih.exec (crowded_iget (by
      split_ifs with hm
      · exact .inr ⟨rfl, by rw [hm]; decide⟩
      · exact .inl rfl)) (keepsLinks_iget 0 ⟨1, 5⟩ 4)
    have hcount : incCount ((m + 1) % 65536) = (m + 1 + 1) % 65536 := Nat.mod_add_mod ..
    rw [hcount] at hstep
    rw [if_neg (Nat.succ_ne_zero m), List.replicate_succ]
    exact hstep

/-- The other inodes of the second process. -/
def others : ℕ → List (Label × Slot)
  | 0 => []
  | j + 1 => (⟨1, 100 + (j + 1)⟩, Fin.ofNat nrInode (j + 1)) :: others j

/-- The second process takes all slots but the first. -/
theorem linked_others (h : Linked (crowded 0 0 held [] 1 0)) (hj : j < nrInode) :
    Linked (crowded 0 j held (others j) (if j = 0 then 1 else ⟨j, hj⟩)
      (if j = 0 then 0 else 1)) := by
  induction j with
  | zero => exact h
  | succ j ih =>
    have hslot : (⟨j + 1, hj⟩ : Slot) = Fin.ofNat nrInode (j + 1) :=
      Fin.ext (Nat.mod_eq_of_lt hj).symm
    have hstep := (ih (Nat.lt_of_succ_lt hj)).exec (crowded_next hj rfl)
      (keepsLinks_iget 1 ⟨1, 100 + (j + 1)⟩ 6)
    rw [if_neg (Nat.succ_ne_zero j), if_neg (Nat.succ_ne_zero j), others, ← hslot]
    exact hstep

/-- **A counter runs over.** A process takes 65536 references to an inode, so that its counter is
zero and its slot is given to another inode. Who asks for the inode then gets a second copy. -/
theorem inode_not_unique : ∃ s, Linked s ∧ (⟨1, 5⟩, 0) ∈ (s.proc 0).held ∧
    (⟨1, 5⟩, 31) ∈ (s.proc 1).held := by
  have hfull : Linked (crowded 0 0 (List.replicate 65536 (⟨1, 5⟩, 0)) [] 1 0) :=
    linked_references 65535
  have hmem : ((⟨1, 5⟩, 0) : Label × Slot) ∈ List.replicate 65536 ((⟨1, 5⟩, 0) : Label × Slot) :=
    List.mem_replicate.mpr ⟨by decide, rfl⟩
  generalize List.replicate 65536 ((⟨1, 5⟩, 0) : Label × Slot) = held at hfull hmem
  have hothers : Linked (crowded 0 31 held (others 31) 31 1) := linked_others hfull (by decide)
  -- The slot with the references is the next one without any, for the counter.
  have hempty : (crowded 0 31 [] [] 31 1).findEmpty = some 0 := by decide
  have hnew : ∀ k, ((crowded 0 31 [] [] 31 1).table k).label ≠ ⟨1, 200⟩ := by decide
  have htaken := hothers.exec (State.exec_iget_new (p := (1 : Fin 2)) (l := ⟨1, 200⟩) (e := 0) rfl
    crowded_idle Nat.one_ne_zero hempty rfl rfl fun k _ => hnew k) (keepsLinks_iget 1 _ 6)
  set s₁ : State 2 := { crowded 0 31 held (others 31) 31 1 with
    table := Function.update (crowded 0 31 held (others 31) 31 1).table 0
      ⟨⟨1, 200⟩, 1, 1, false, false⟩
    last := 0
    proc := Function.update (crowded 0 31 held (others 31) 31 1).proc 1
      ⟨.idle, (⟨1, 200⟩, 0) :: others 31⟩
    current := some 1 }
  have hidle₁ : ∀ q, (s₁.proc q).pc = .idle := by
    intro q
    match q with
    | 0 => rfl
    | 1 => rfl
  have hput := Linked.exec (s := s₁) htaken (State.exec_iput (p := (1 : Fin 2)) (l := ⟨1, 131⟩)
    (k := 31) (j := 1) rfl hidle₁ rfl rfl Nat.one_ne_zero rfl Nat.one_ne_zero) (by decide)
  set s₂ : State 2 := { s₁ with
    table := Function.update s₁.table 31 ⟨⟨1, 131⟩, 0, 1, false, false⟩
    proc := Function.update s₁.proc 1 ⟨.idle, (⟨1, 200⟩, 0) :: others 30⟩
    current := some 1 }
  have hidle₂ : ∀ q, (s₂.proc q).pc = .idle := by
    intro q
    match q with
    | 0 => rfl
    | 1 => rfl
  have hnew₂ : ∀ k ≠ (31 : Slot), (Function.update (Function.update
      (crowded 0 31 [] [] 31 1).table 0 ⟨⟨1, 200⟩, 1, 1, false, false⟩) 31
        ⟨⟨1, 131⟩, 0, 1, false, false⟩ k).label ≠ ⟨1, 5⟩ := by
    decide
  have hempty₂ : State.findEmpty { crowded 0 31 [] [] 0 1 with
      table := Function.update (Function.update (crowded 0 31 [] [] 31 1).table 0
        ⟨⟨1, 200⟩, 1, 1, false, false⟩) 31 ⟨⟨1, 131⟩, 0, 1, false, false⟩ } = some 31 := by
    decide
  have hsecond := Linked.exec (s := s₂) hput (State.exec_iget_new (p := (1 : Fin 2)) (l := ⟨1, 5⟩)
    (e := 31) rfl hidle₂ Nat.one_ne_zero hempty₂ rfl rfl hnew₂) (keepsLinks_iget 1 _ 6)
  exact ⟨_, hsecond, hmem, List.mem_cons_self⟩

end Linux001.InodeTable
