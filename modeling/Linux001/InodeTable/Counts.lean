import Linux001.InodeTable.Processes
import Linux001.Lib.Counting

/-!
# References to inodes

The counter `i_count` of a slot is the number of references to it: the inodes that processes hold,
and the slots that their calls of `iget` and `iput` work on. An `iput` that finds the counter at one
has the last reference, and as long as no `iget` takes a new one it goes on to have it; a locked
inode is safe from this, because `iget` waits for it, but an inode is not locked while `truncate`
frees its blocks. A counter that runs over is not the number of references any more.

## Main definitions

* `Proc.slots`, `State.refs`: the references.
* `State.Quiet`, `State.Room`: no `iget` takes a reference to an inode in `truncate`, and no counter
  runs over.
* `Inv`: the invariant of such runs.

## Main results

* `Inv.step`: the invariant is kept.
* `truncate_sole`: in such runs the inode that `iput` destroys has no other user.
* `truncate_not_sole`: in other runs it may have one.
-/

namespace Linux001.InodeTable

/-- The slots that a position holds references to. -/
def Pc.slots : Pc → List Slot
  | .scan e _ | .scanWait _ e _ | .readLock e _ | .readInode e _ | .readDone e _ => [e]
  | .iput k r | .iputWrite k r | .iputWrote k r | .truncate k r => k :: r.toList.map Prod.snd
  | _ => []

/-- The slots that a process holds references to. -/
def Proc.slots (q : Proc) : List Slot := q.pc.slots ++ q.held.map Prod.snd

/-- The slot that a process has locked. -/
def Pc.locks : Pc → Option Slot
  | .emptyWrite k _ | .emptyWrote k _ | .readInode k _ | .readDone k _ | .iputWrite k _
  | .iputWrote k _ => some k
  | _ => none

/-- The slot that an `iput` has found to have no other user. -/
def Pc.last : Pc → Option Slot
  | .iputWrite k _ | .iputWrote k _ | .truncate k _ => some k
  | _ => none

variable {n : ℕ} {s s' : State n} {p : Fin n} {t : Slot → Inode} {q : Proc}

/-- The number of references to a slot. -/
def State.refs (s : State n) (k : Slot) : ℕ := ∑ p, (s.proc p).slots.count k

/-- The counters are exact. -/
def Counted (s : State n) : Prop := ∀ k, (s.table k).count = s.refs k

namespace Counted

theorem one_le (h : Counted s) {k : Slot} (hk : k ∈ (s.proc p).slots) :
    1 ≤ (s.table k).count := by
  rw [h k, State.refs]
  exact (List.count_pos_iff.mpr hk).trans_le (Finset.single_le_sum
    (f := fun p => (s.proc p).slots.count k) (fun _ _ => Nat.zero_le _) (Finset.mem_univ p))

/-- A slot that two processes refer to is counted twice. -/
theorem two_le (h : Counted s) {k : Slot} {p' : Fin n} (hne : p ≠ p')
    (hk : k ∈ (s.proc p).slots) (hk' : k ∈ (s.proc p').slots) : 2 ≤ (s.table k).count := by
  have hp := List.count_pos_iff.mpr hk
  have hp' := List.count_pos_iff.mpr hk'
  have hle := add_le_sum_of_ne (fun p => (s.proc p).slots.count k) hne
  rw [h k, State.refs]
  omega

/-- The counters stay exact when the one of every slot follows the references of the process that
takes the step. -/
theorem of_update (h : Counted s) (hproc : s'.proc = Function.update s.proc p q)
    (hbal : ∀ k, (s'.table k).count + (s.proc p).slots.count k =
      (s.table k).count + q.slots.count k) : Counted s' := by
  intro k
  have hsum := sum_update_add s.proc (fun q => q.slots.count k) p q
  have hk := hbal k
  have hold := h k
  rw [State.refs] at hold ⊢
  rw [hproc]
  omega

end Counted

private theorem balance_of_same {j : Slot} {i : Inode} (hi : i.count = (s.table j).count)
    (hq : q.slots = (s.proc p).slots) (k : Slot) :
    (Function.update s.table j i k).count + (s.proc p).slots.count k =
      (s.table k).count + q.slots.count k := by
  rw [hq, Function.update_apply]
  split_ifs with hkj
  · rw [hi, hkj]
  · rfl

/-- The references of the process that takes a step, and the counters, change together; the
inode that is freed must have had one user. -/
theorem Trans.balance (h : Trans s p t q) (hc : Counted s)
    (hroom : ∀ k, s.takes p = some k → (s.table k).count < 65535)
    (hfree : ∀ k r, (s.proc p).pc = .truncate k r → (s.table k).count = 1) (k : Slot) :
    (t k).count + (s.proc p).slots.count k = (s.table k).count + q.slots.count k := by
  have hone : ∀ j ∈ (s.proc p).slots, 1 ≤ (s.table j).count := fun j hj => hc.one_le hj
  cases h with
  | iget hpc | pick hpc | await hpc | rescan hpc => simp [Proc.slots, hpc, Pc.slots]
  | @put j x hpc hx =>
    obtain ⟨hj, rfl⟩ := List.getElem?_eq_some_iff.mp hx
    have hperm := ((List.getElem_cons_eraseIdx_perm hj).map Prod.snd).count_eq k
    simp only [Proc.slots, hpc, Pc.slots, Option.toList_none, List.map_nil, List.nil_append,
      List.singleton_append]
    rw [← hperm, List.map_cons]
  | use => exact balance_of_same (by rfl) rfl k
  | flush hpc _ | retry hpc | putFlush hpc | destroy hpc =>
    refine balance_of_same (by rfl) ?_ k
    rcases hpc with ⟨hpc, -⟩ | hpc <;> simp [Proc.slots, hpc, Pc.slots]
  | @take j l hpc hcount =>
    have hslots : ∀ k, (s.proc p).slots.count k = ((s.proc p).held.map Prod.snd).count k := by
      rcases hpc with ⟨hpc, -⟩ | hpc <;> simp [Proc.slots, hpc, Pc.slots]
    rw [hslots, Function.update_apply]
    simp only [Proc.slots, Pc.slots, List.singleton_append, List.count_cons, beq_iff_eq]
    by_cases hkj : k = j
    · subst hkj
      simp only [if_true, hcount]
      omega
    · rw [if_neg hkj, if_neg fun hc => hkj hc.symm, Nat.add_zero]
  | emptyStore hpc | name hpc hnew | lock hpc hlock | read hpc | readEnd hpc | putStore hpc =>
    exact balance_of_same (by rfl) (by simp [Proc.slots, hpc, Pc.slots]) k
  | @found j e l hpc hlock hl htakes =>
    have hinc : incCount (s.table j).count = (s.table j).count + 1 :=
      Nat.mod_eq_of_lt (Nat.succ_lt_succ (hroom j htakes))
    have hslots : ∀ k, (s.proc p).slots.count k =
        (e :: (s.proc p).held.map Prod.snd).count k := by
      rcases hpc with hpc | hpc <;> simp [Proc.slots, hpc, Pc.slots]
    rw [hslots, Function.update_apply]
    simp only [Proc.slots, Pc.slots, Option.toList_some, List.map_cons, List.map_nil,
      List.cons_append, List.nil_append, List.count_cons, beq_iff_eq]
    by_cases hkj : k = j
    · subst hkj
      simp only [if_true, hinc]
      omega
    · have hjk : j ≠ k := fun hc => hkj hc.symm
      rw [if_neg hkj, if_neg hjk, Nat.add_zero]
  | @drop j r hpc =>
    have hslots : (s.proc p).slots = j :: (r.toList ++ (s.proc p).held).map Prod.snd := by
      rcases hpc with ⟨hpc, -⟩ | hpc <;> simp [Proc.slots, hpc, Pc.slots]
    have hpos := hone j (by rw [hslots]; exact List.mem_cons_self)
    have hdec : decCount (s.table j).count = (s.table j).count - 1 :=
      if_neg (Nat.one_le_iff_ne_zero.mp hpos)
    rw [hslots, Function.update_apply]
    simp only [Proc.slots, Pc.slots, List.nil_append, List.count_cons, beq_iff_eq]
    by_cases hkj : k = j
    · subst hkj
      simp only [if_true, hdec]
      omega
    · rw [if_neg hkj, if_neg fun hc => hkj hc.symm, Nat.add_zero]
  | @free j r hpc =>
    have hslots : (s.proc p).slots = j :: (r.toList ++ (s.proc p).held).map Prod.snd := by
      simp [Proc.slots, hpc, Pc.slots]
    have hcount := hfree j r hpc
    rw [hslots, Function.update_apply]
    simp only [Proc.slots, Pc.slots, List.nil_append, List.count_cons, beq_iff_eq, Inode.zero]
    by_cases hkj : k = j
    · subst hkj
      simp only [if_true]
      omega
    · rw [if_neg hkj, if_neg fun hc => hkj hc.symm, Nat.add_zero]

/-! ### The last reference -/

/-- What holds in runs in which no process grabs an inode that another one truncates. -/
structure Inv (s : State n) : Prop where
  counted : Counted s
  lock : ∀ p k, (s.proc p).pc.locks = some k → (s.table k).lock = true
  lock_inj : ∀ p p' k, (s.proc p).pc.locks = some k → (s.proc p').pc.locks = some k → p = p'
  last : ∀ p k, (s.proc p).pc.last = some k → (s.table k).count = 1
  unlocked : ∀ p k r, (s.proc p).pc = .truncate k r → ∀ p', (s.proc p').pc.locks ≠ some k

/-- The position is in `truncate` of the slot. -/
def Pc.truncates : Pc → Slot → Bool
  | .truncate k _, j => k = j
  | _, _ => false

/-- No process grabs an inode that another one truncates. -/
def State.Quiet (s : State n) (e : Event n) : Prop :=
  ∀ k, s.grabs e.proc = some k → ∀ p, (s.proc p).pc.truncates k = false

instance (s : State n) : DecidablePred s.Quiet := fun e =>
  inferInstanceAs (Decidable (∀ k, s.grabs e.proc = some k → ∀ p,
    (s.proc p).pc.truncates k = false))

/-- No process takes a reference to an inode whose counter is at its greatest value. -/
def State.Room (s : State n) (e : Event n) : Prop :=
  ∀ k, s.takes e.proc = some k → (s.table k).count < 65535

instance (s : State n) : DecidablePred s.Room := fun e =>
  inferInstanceAs (Decidable (∀ k, s.takes e.proc = some k → (s.table k).count < 65535))

theorem Pc.mem_slots_of_last {pc : Pc} {k : Slot} (h : pc.last = some k) : k ∈ pc.slots := by
  cases pc <;> simp_all [Pc.last, Pc.slots]

theorem Pc.last_cases {pc : Pc} {k : Slot} (h : pc.last = some k) :
    pc.locks = some k ∨ ∃ r, pc = .truncate k r := by
  cases pc <;> simp_all [Pc.last, Pc.locks]

theorem Proc.mem_slots {k : Slot} (h : k ∈ q.pc.slots) : k ∈ q.slots :=
  List.mem_append_left _ h

namespace Trans

/-- A slot whose lock is lost was locked by the process that takes the step, or is freed by it. -/
theorem lock_of_ne (h : Trans s p t q) {k : Slot} (hl : (s.table k).lock = true)
    (hp : (s.proc p).pc.locks ≠ some k) (hfree : ∀ r, (s.proc p).pc ≠ .truncate k r) :
    (t k).lock = true := by
  have hupd : ∀ (j : Slot) (i : Inode), (k = j → i.lock = true) →
      (Function.update s.table j i k).lock = true := fun j i hi => by
    rw [Function.update_apply]
    split_ifs with hkj
    · exact hi hkj
    · exact hl
  -- The slot is not the one of a process that goes on with an unlocked slot.
  have hready : ∀ {j : Slot}, (s.table j).lock = false ∨ (s.proc p).pc.locks = some j → k ≠ j := by
    rintro j (hno | hlocks) rfl
    · exact absurd (hl.symm.trans hno) (by simp)
    · exact hp hlocks
  have hempty : ∀ {j l}, EmptyReady s (s.proc p).pc j l → k ≠ j := by
    rintro j l (⟨-, hno⟩ | hpc)
    · exact hready (.inl hno)
    · exact hready (.inr (by rw [hpc]; rfl))
  have hput : ∀ {j r}, PutReady s (s.proc p).pc j r → k ≠ j := by
    rintro j r (⟨-, hno, -⟩ | hpc)
    · exact hready (.inl hno)
    · exact hready (.inr (by rw [hpc]; rfl))
  cases h with
  | iget | put | pick | await | rescan => exact hl
  | use | emptyStore | found | name | read | putStore => exact hupd _ _ fun hk => hk ▸ hl
  | flush | lock | putFlush => exact hupd _ _ fun _ => rfl
  | take hpc | retry hpc => exact hupd _ _ fun hk => absurd hk (hempty hpc)
  | readEnd hpc => exact hupd _ _ fun hk => absurd hk (hready (.inr (by rw [hpc]; rfl)))
  | drop hpc =>
    refine hupd _ _ fun hk => absurd hk ?_
    rcases hpc with ⟨-, hno⟩ | hpc
    · exact hready (.inl hno)
    · exact hready (.inr (by rw [hpc]; rfl))
  | destroy hpc => exact hupd _ _ fun hk => absurd hk (hput hpc)
  | free hpc => exact hupd _ _ fun hk => absurd hpc (hk ▸ hfree _)

/-- The slot that a process has locked after a step is locked. It was locked by the process before,
or by nobody, and then the process grabs it or refers to it. -/
theorem locks_new (h : Trans s p t q) {k : Slot} (hq : q.pc.locks = some k)
    (hl : (s.proc p).pc.locks = some k → (s.table k).lock = true) :
    ((s.proc p).pc.locks = some k ∨
      (s.table k).lock = false ∧ (s.grabs p = some k ∨ k ∈ (s.proc p).slots)) ∧
      (t k).lock = true := by
  cases h with
  | iget | put | pick | await | rescan | take | retry | found | name | readEnd | drop | destroy
  | free => simp [Pc.locks] at hq
  | use hpc hx => simp [hpc, Pc.locks] at hq
  | flush hpc hgrabs =>
    obtain rfl := Option.some.inj hq
    rw [Function.update_self]
    refine ⟨?_, rfl⟩
    rcases hpc with ⟨hpc, hno⟩ | hpc
    · exact .inr ⟨hno, .inl (hgrabs hpc)⟩
    · exact .inl (by rw [hpc]; rfl)
  | putFlush hpc =>
    obtain rfl := Option.some.inj hq
    rw [Function.update_self]
    refine ⟨?_, rfl⟩
    rcases hpc with ⟨hpc, hno, -⟩ | hpc
    · exact .inr ⟨hno, .inr (Proc.mem_slots (by simp [hpc, Pc.slots]))⟩
    · exact .inl (by rw [hpc]; rfl)
  | lock hpc hlock =>
    obtain rfl := Option.some.inj hq
    rw [Function.update_self]
    exact ⟨.inr ⟨hlock, .inr (Proc.mem_slots (by simp [hpc, Pc.slots]))⟩, rfl⟩
  | @emptyStore j l hpc | @read j l m hpc | @putStore j r hpc =>
    obtain rfl := Option.some.inj hq
    rw [Function.update_self]
    have hp : (s.proc p).pc.locks = some j := by rw [hpc]; rfl
    exact ⟨.inl hp, hl hp⟩

/-- An `iput` that has found itself to be the last user had found so before, or does it now. -/
theorem last_new (h : Trans s p t q) {k : Slot} (hq : q.pc.last = some k)
    (hl : (s.proc p).pc.last = some k → (s.table k).count = 1) : (t k).count = 1 := by
  cases h with
  | iget | put | pick | await | rescan | take | retry | found | name | readEnd | drop | flush
  | lock | emptyStore | read | free => simp [Pc.last] at hq
  | use hpc hx => simp [hpc, Pc.last] at hq
  | putFlush hpc | destroy hpc =>
    obtain rfl := Option.some.inj hq
    rw [Function.update_self]
    rcases hpc with ⟨-, -, hone⟩ | hpc
    · exact hone
    · exact hl (by rw [hpc]; rfl)
  | putStore hpc =>
    obtain rfl := Option.some.inj hq
    rw [Function.update_self]
    exact hl (by rw [hpc]; rfl)

/-- A process that begins to truncate a slot had locked it, or nobody had. -/
theorem truncate_new (h : Trans s p t q) {k : Slot} {r : Return} (hq : q.pc = .truncate k r) :
    (s.proc p).pc.locks = some k ∨ (s.table k).lock = false := by
  cases h with
  | destroy hpc =>
    obtain ⟨rfl, rfl⟩ := Pc.truncate.inj hq
    rcases hpc with ⟨-, hno, -⟩ | hpc
    · exact .inr hno
    · exact .inl (by rw [hpc]; rfl)
  | use hpc hx => simp [hpc] at hq
  | _ => simp at hq

/-- The counter of a slot in use changes only when a process that refers to it drops it, or when an
`iget` grabs it. -/
theorem count_of_notMem (h : Trans s p t q) {k : Slot} (hk : k ∉ (s.proc p).slots)
    (hc : (s.table k).count ≠ 0) (hg : s.grabs p = some k → ∃ l, (s.proc p).pc = .emptyWait k l) :
    (t k).count = (s.table k).count := by
  have hupd : ∀ (j : Slot) (i : Inode), (k = j → i.count = (s.table k).count) →
      (Function.update s.table j i k).count = (s.table k).count := fun j i hi => by
    rw [Function.update_apply]
    split_ifs with hkj
    · exact hi hkj
    · rfl
  cases h with
  | iget | put | pick | await | rescan => rfl
  | use | emptyStore | name | read | putStore | flush | lock | putFlush | retry | readEnd
  | destroy => exact hupd _ _ fun hk => by rw [hk]
  | take hpc hcount => exact hupd _ _ fun hk => absurd (hk ▸ hcount) hc
  | found hpc hlock hl htakes =>
    refine hupd _ _ fun hkj => ?_
    subst hkj
    obtain ⟨l, hwait⟩ := hg (State.grabs_of_takes htakes)
    rcases hpc with hpc | hpc <;> exact absurd (hwait.symm.trans hpc) (by simp)
  | drop hpc =>
    refine hupd _ _ fun hkj => absurd ?_ hk
    subst hkj
    refine Proc.mem_slots ?_
    rcases hpc with ⟨hpc, -⟩ | hpc <;> simp [hpc, Pc.slots]
  | free hpc =>
    refine hupd _ _ fun hkj => absurd (Proc.mem_slots ?_) hk
    simp [hpc, Pc.slots, hkj]

end Trans

namespace Inv

theorem init (disk : Label → ℕ) (imap : Label → Bool) :
    Inv (State.init disk imap : State n) := by
  refine ⟨fun k => ?_, ?_, ?_, ?_, ?_⟩
  · simp [State.init, State.refs, Inode.zero, Proc.slots, Pc.slots]
  · intro p k hp
    simp [State.init, Pc.locks] at hp
  · intro p p' k hp
    simp [State.init, Pc.locks] at hp
  · intro p k hp
    simp [State.init, Pc.last] at hp
  · intro p k r hp
    simp [State.init] at hp

/-- No other process refers to the slot of an `iput` that is past its test of `i_count`. -/
theorem not_mem_of_last (h : Inv s) {k : Slot} (hp : (s.proc p).pc.last = some k) {p' : Fin n}
    (hne : p' ≠ p) : k ∉ (s.proc p').slots := by
  intro hk
  have htwo := h.counted.two_le hne hk (Proc.mem_slots (Pc.mem_slots_of_last hp))
  rw [h.last p k hp] at htwo
  omega

/-- A locked slot is not grabbed. -/
theorem grabs_ne_of_lock {k : Slot} (hl : (s.table k).lock = true) : s.grabs p ≠ some k := by
  intro hg
  rw [State.grabs] at hg
  split at hg
  · split_ifs at hg with hc
    obtain rfl := Option.some.inj hg
    exact absurd (hl.symm.trans hc.1) (by simp)
  · obtain ⟨-, hno⟩ := Option.filter_eq_some_iff.mp hg
    simp [hl] at hno
  · split_ifs at hg with hc
    obtain rfl := Option.some.inj hg
    exact absurd (hl.symm.trans hc.1) (by simp)
  · simp at hg

/-- Every step keeps the invariant, as long as no process grabs an inode that another one
truncates, and no counter runs over. -/
theorem step {e : Event n} (h : Inv s) (hquiet : s.Quiet e) (hroom : s.Room e)
    (hs : s.next e = some s') : Inv s' := by
  rcases State.next_cases hs with ⟨-, htable, hproc⟩ | ⟨-, q, htrans, hproc⟩
  · refine ⟨fun k => ?_, ?_, ?_, ?_, ?_⟩
    · rw [State.refs, htable, hproc]
      exact h.counted k
    all_goals rw [hproc]
    · rw [htable]
      exact h.lock
    · exact h.lock_inj
    · rw [htable]
      exact h.last
    · exact h.unlocked
  set p := e.proc with hpdef
  have hself : s'.proc p = q := by rw [hproc, Function.update_self]
  have hother : ∀ {p'}, p' ≠ p → s'.proc p' = s.proc p' := fun hne => by
    rw [hproc, Function.update_of_ne hne]
  -- The slot that a process other than `p` truncates or writes is not grabbed by `p`.
  have hgrabs : ∀ {p' k}, (s.proc p').pc.last = some k → s.grabs p ≠ some k := by
    intro p' k hp' hg
    rcases Pc.last_cases hp' with hlocks | ⟨r, hpc⟩
    · exact grabs_ne_of_lock (h.lock p' k hlocks) hg
    · have hno := hquiet k hg p'
      simp [hpc, Pc.truncates] at hno
  have hlock : ∀ p' k, (s'.proc p').pc.locks = some k → (s'.table k).lock = true := by
    intro p' k hp'
    by_cases hne : p' = p
    · rw [hne, hself] at hp'
      exact (htrans.locks_new hp' (h.lock p k)).2
    · rw [hother hne] at hp'
      refine htrans.lock_of_ne (h.lock p' k hp') (fun hp => hne (h.lock_inj p' p k hp' hp)) ?_
      exact fun r hpc => h.unlocked p k r hpc p' hp'
  have hfree : ∀ k r, (s.proc p).pc = .truncate k r → (s.table k).count = 1 := fun k r hpc =>
    h.last p k (by rw [hpc]; rfl)
  refine ⟨h.counted.of_update hproc (htrans.balance h.counted hroom hfree), hlock, ?_, ?_, ?_⟩
  · -- Two processes have not locked the same slot: the one that has just done so has found it free.
    have hnew : ∀ {p' k}, p' ≠ p → (s.proc p').pc.locks = some k → q.pc.locks ≠ some k := by
      intro p' k hne hp' hq
      rcases (htrans.locks_new hq (h.lock p k)).1 with hp | ⟨hno, -⟩
      · exact hne (h.lock_inj p' p k hp' hp)
      · exact absurd (hno.symm.trans (h.lock p' k hp')) (by simp)
    intro p₁ p₂ k h₁ h₂
    by_cases hne₁ : p₁ = p <;> by_cases hne₂ : p₂ = p
    · rw [hne₁, hne₂]
    · rw [hne₁, hself] at h₁
      rw [hother hne₂] at h₂
      exact absurd h₁ (hnew hne₂ h₂)
    · rw [hne₂, hself] at h₂
      rw [hother hne₁] at h₁
      exact absurd h₂ (hnew hne₁ h₁)
    · rw [hother hne₁] at h₁
      rw [hother hne₂] at h₂
      exact h.lock_inj p₁ p₂ k h₁ h₂
  · intro p' k hp'
    by_cases hne : p' = p
    · rw [hne, hself] at hp'
      exact htrans.last_new hp' (h.last p k)
    · rw [hother hne] at hp'
      have hone := h.last p' k hp'
      rw [htrans.count_of_notMem (h.not_mem_of_last hp' (Ne.symm hne)) (by omega)
        fun hg => absurd hg (hgrabs hp')]
      exact hone
  · intro p' k r hp' p'' hlocks
    by_cases hne : p' = p
    · rw [hne, hself] at hp'
      by_cases hne' : p'' = p
      · rw [hne', hself, hp'] at hlocks
        simp [Pc.locks] at hlocks
      · rw [hother hne'] at hlocks
        rcases htrans.truncate_new hp' with hp | hno
        · exact hne' (h.lock_inj p'' p k hlocks hp)
        · exact absurd (hno.symm.trans (h.lock p'' k hlocks)) (by simp)
    · rw [hother hne] at hp'
      by_cases hne' : p'' = p
      · rw [hne', hself] at hlocks
        have hlast : (s.proc p').pc.last = some k := by rw [hp']; rfl
        rcases (htrans.locks_new hlocks (h.lock p k)).1 with hp | ⟨-, hg | hk⟩
        · exact h.unlocked p' k r hp' p hp
        · exact hgrabs hlast hg
        · exact h.not_mem_of_last hlast (Ne.symm hne) hk
      · rw [hother hne'] at hlocks
        exact h.unlocked p' k r hp' p'' hlocks

end Inv

/-! ### Runs -/

/-- **The last reference.** In every run in which no process locks, or takes a reference to, an
inode while another one's `iput` is in `truncate` of it, and no counter runs over, an inode that
`iput` destroys has a counter of one and no other process refers to it; the panic of `free_inode`
over the counter does not occur. -/
theorem truncate_sole {disk : Label → ℕ} {imap : Label → Bool} {es : List (Event n)}
    (h : Runs (fun s e s' => s.next e = some s' ∧ s.Quiet e ∧ s.Room e) (State.init disk imap) es
      s) :
    (∀ p k r, (s.proc p).pc = .truncate k r →
      (s.table k).count = 1 ∧ ∀ p' ≠ p, k ∉ (s.proc p').slots) ∧
    s.panic ≠ some .freeInode := by
  have hinv : Inv s ∧ s.panic ≠ some .freeInode := by
    refine h.invariant (I := fun s => Inv s ∧ s.panic ≠ some .freeInode) ?_
      ⟨Inv.init disk imap, by simp [State.init]⟩
    rintro s e s' ⟨hs, hpanic⟩ ⟨hnext, hquiet, hroom⟩
    refine ⟨hs.step hquiet hroom hnext, fun hp => ?_⟩
    rcases State.next_cases hnext with ⟨hfree, -⟩ | ⟨heq, -⟩
    · obtain ⟨k, r, hpc, hcount⟩ := hfree hp
      have hone := hs.last _ k (by rw [hpc]; rfl)
      omega
    · exact hpanic (heq ▸ hp)
  refine ⟨fun p k r hpc => ?_, hinv.2⟩
  have hlast : (s.proc p).pc.last = some k := by rw [hpc]; rfl
  exact ⟨hinv.1.last p k hlast, fun p' hne => hinv.1.not_mem_of_last hlast hne⟩

/-- Two processes, of which the first frees the inode 5 of device 1. -/
def lastUse : List (Event 2) :=
  [.iget 0 ⟨1, 5⟩, .run 0, .run 0, .run 0, .run 0, .run 0, .run 0, .unlink 0 0, .iput 0 0, .run 0]

/-- The first process is the only user of the inode it destroys. -/
theorem truncate_sole_lastUse : ∃ s,
    Runs (fun s e s' => State.next s e = some s' ∧ s.Quiet e ∧ s.Room e)
      (State.init (fun _ => 1) fun _ => true : State 2) lastUse.reverse s ∧
    (s.proc 0).pc = .truncate 0 none ∧ (s.table 0).count = 1 := by
  have hexec : ∃ s, exec (fun s e => (State.next s e).filter fun _ => s.Quiet e ∧ s.Room e)
      (State.init (fun _ => 1) fun _ => true : State 2) lastUse = some s ∧
        (s.proc 0).pc = .truncate 0 none := ⟨_, rfl, rfl⟩
  obtain ⟨s, hs, hpc⟩ := hexec
  have hrun := runs_of_exec_guarded hs
  exact ⟨s, hrun, hpc, ((truncate_sole hrun).1 0 0 none hpc).1⟩

/-- The second process finds the inode while the first one truncates it, and the first one goes
on. -/
def lateUse : List (Event 2) :=
  [.iget 1 ⟨1, 5⟩, .run 1, .run 1, .run 1, .run 1, .run 0]

/-- A process begins to destroy an inode as its last user, and while it sleeps in `truncate` another
one takes a reference: `free_inode` panics over the counter. -/
theorem truncate_not_sole : ∃ es s,
    Runs (fun s e s' => State.next s e = some s')
      (State.init (fun _ => 1) fun _ => true : State 2) es s ∧
    ((s.proc 0).pc = .truncate 0 none ∧ (s.table 0).count = 2 ∧ 0 ∈ (s.proc 1).slots) ∧
    s.panic = some .freeInode := by
  have hexec : ∃ s, exec State.next (State.init (fun _ => 1) fun _ => true : State 2)
      (lastUse ++ lateUse) = some s ∧ ((s.proc 0).pc = .truncate 0 none ∧ (s.table 0).count = 2 ∧
        0 ∈ (s.proc 1).slots) ∧ s.panic = some .freeInode :=
    ⟨_, rfl, by decide, by decide⟩
  obtain ⟨s, hs, hbad⟩ := hexec
  exact ⟨_, s, runs_of_exec hs, hbad⟩

end Linux001.InodeTable
