import Linux001.BufferCache.Locks

/-!
# Clean buffers and the disk

The interrupt that ends a transfer clears the dirty mark of the buffer. A change that is made while
the buffer is written, after the disk has taken its data, is then forgotten. Without such changes,
and as long as no buffer gets the label of one that another process still recycles, a buffer that is
up to date, clean and unlocked has the contents of its block.

## Main definitions

* `State.Careful`: the event changes no locked buffer, gives no label of a recycled buffer to
  another one, and makes no counter wrap around.
* `Coherent`: the invariant of runs of such events.

## Main results

* `clean_eq_disk`: in such runs a clean buffer has the contents of its block.
* `clean_ne_disk`: in other runs it may have other contents.
-/

namespace Linux001.BufferCache

variable {D : Type*} {N n : ℕ} {s s' : State D N n} {p : Fin n}
  {c : Option ((Label × Fin N) × D)} {q : Queues N} {f : Fin N → Buf D} {pr : Proc N}

/-- The event changes no locked buffer, gives no label of a buffer that another process recycles to
another one, and makes no counter wrap around. -/
structure State.Careful (s : State D N n) (e : Event D N n) : Prop where
  noWrap : s.NoWrap e
  unlocked : ∀ c ∈ s.changes e, (s.buf c.1.2).lock = none
  alone : ∀ p ∈ e.proc, ∀ l ∈ s.relabels p, ∀ p' ≠ p, ∀ b ∈ (s.proc p').pc.recycles,
    (s.buf b).label ≠ l

instance (s : State D N n) : DecidablePred s.Careful := fun e =>
  decidable_of_iff (s.NoWrap e ∧ (∀ c ∈ s.changes e, (s.buf c.1.2).lock = none) ∧
    ∀ p ∈ e.proc, ∀ l ∈ s.relabels p, ∀ p' ≠ p, ∀ b ∈ (s.proc p').pc.recycles,
      (s.buf b).label ≠ l)
    ⟨fun h => ⟨h.1, h.2.1, h.2.2⟩, fun h => ⟨h.noWrap, h.unlocked, h.alone⟩⟩

/-- A buffer that is up to date, clean and unlocked has the contents of its block, and so does one
whose transfer is about to end. -/
structure Buf.Coherent (x : Buf D) (disk : Label → D) : Prop where
  clean : x.label.dev ≠ 0 → x.uptodate = true → x.Quiet → x.data = disk x.label
  taken : ∀ t, x.label.dev ≠ 0 → x.lock = some t → t.taken = true → x.data = disk x.label

/-- What holds in runs of careful events: besides, no two buffers have the same label, whether they
are in the queues or not. -/
structure Coherent (s : State D N n) : Prop where
  unique : ∀ b b', (s.buf b).label.dev ≠ 0 → (s.buf b).label = (s.buf b').label → b = b'
  coherent : ∀ b, (s.buf b).Coherent s.disk

namespace Coherent

/-- A step of a process leaves the buffers coherent. -/
private theorem coherent_trans (hc : Coherent s) (hs : Settled s) (h : Trans s p c q f pr)
    (hlock : ∀ y ∈ c, (s.buf y.1.2).lock = none) (b : Fin N) : (f b).Coherent s.disk := by
  have hself := hs.passed p
  have hupd : ∀ {c : Fin N} {x : Buf D}, ((s.buf c).Coherent s.disk → x.Coherent s.disk) →
      (Function.update s.buf c x b).Coherent s.disk := by
    intro c x hx
    rw [Function.update_apply]
    split_ifs
    · exact hx (hc.coherent c)
    · exact hc.coherent b
  have hnot : ∀ {x : Buf D}, (∀ t, x.lock = some t → t.taken = false) →
      (x.Quiet → x.uptodate = false) → x.Coherent s.disk := by
    intro x hx hup
    refine ⟨fun _ hu hq => absurd (hu.symm.trans (hup hq)) (by simp), fun t _ ht htaken => ?_⟩
    exact absurd (htaken.symm.trans (hx t ht)) (by simp)
  cases h with
  | move | release | hold | leak => exact hc.coherent b
  | @use q x d up hpc hx hup =>
    have hnone := hlock (x, d) rfl
    refine hupd fun _ => hnot (fun t ht => ?_) fun hq => ?_
    · exact absurd (hnone.symm.trans ht) (by simp)
    · exact absurd hq.2 (by simp)
  | hit | take | put => exact hupd fun hx => ⟨hx.clean, hx.taken⟩
  | read | write | wonRead =>
    refine hupd fun _ => hnot (fun t ht => ?_) fun hq => ?_
    · obtain rfl := Option.some.inj ht
      rfl
    · exact absurd hq.1 (by simp)
  | discard hpc hnone =>
    refine hupd fun _ => hnot (fun t ht => ?_) fun _ => rfl
    exact absurd (hnone.symm.trans ht) (by simp)
  | lost => exact hupd fun _ => ⟨fun hdev => absurd rfl hdev, fun t hdev => absurd rfl hdev⟩
  | won hpc =>
    rw [hpc] at hself
    refine hupd fun _ => hnot (fun t ht => ?_) fun _ => rfl
    exact absurd (hself.1.symm.trans ht) (by simp)

/-- A step of a process leaves the labels unique. -/
private theorem unique_trans (hc : Coherent s) (hinv : Inv s)
    (h : Trans s p c q f pr) (halone : ∀ l ∈ s.relabels p, ∀ p' ≠ p,
      ∀ b ∈ (s.proc p').pc.recycles, (s.buf b).label ≠ l) (b b' : Fin N)
    (hdev : (f b).label.dev ≠ 0) (heq : (f b).label = (f b').label) : b = b' := by
  have hsame : (fun b => (f b).label) = s.labels → b = b' := fun hl => by
    have hb : ∀ d, (f d).label = (s.buf d).label := congrFun hl
    rw [hb] at hdev heq
    exact hc.unique b b' hdev (heq.trans (hb b'))
  rcases h.queue_cases with ⟨-, hl, -⟩ | ⟨t, -, -, -, hl, -⟩ | ⟨t, l, hr, -, hl, -, hnew⟩
  · exact hsame hl
  · exact hsame hl
  · -- No other buffer has the new label: it is not found, and it is not recycled.
    have hfresh : l.dev ≠ 0 → ∀ d, d ≠ t → s.labels d ≠ l := by
      intro hldev d hdt
      obtain ⟨hrel, hfind⟩ := hnew.resolve_left hldev
      by_cases hd : s.out d
      · obtain ⟨p', hp'⟩ := hd
        refine halone l hrel p' (fun hne => hdt ?_) d hp'
        rw [hne, hr] at hp'
        exact (Option.some.inj hp').symm
      · exact hinv.label_new ⟨p, hr⟩ (.inr hfind) hldev d hd
    have hold : ∀ d, d ≠ t → (f d).label = s.labels d := fun d hdt =>
      (congrFun hl d).trans (Function.update_of_ne hdt _ _)
    have ht : (f t).label = l := (congrFun hl t).trans (Function.update_self _ _ _)
    by_cases hbt : b = t <;> by_cases hbt' : b' = t
    · rw [hbt, hbt']
    · rw [hbt, ht] at hdev heq
      exact absurd (heq.trans (hold b' hbt')).symm (hfresh hdev b' hbt')
    · rw [hbt', ht] at heq
      rw [heq] at hdev
      exact absurd ((hold b hbt).symm.trans heq) (hfresh hdev b hbt)
    · rw [hold b hbt] at hdev heq
      exact hc.unique b b' hdev (heq.trans (hold b' hbt'))

/-- A step of the disk keeps the invariant. -/
private theorem transferred (hc : Coherent s) (hs : Settled s) {b : Fin N}
    (h : s.Transferred b s') : Coherent s' := by
  have hlabel : ∀ d, (s'.buf d).label = (s.buf d).label := fun d => (h.frame.2.2 d).1
  refine ⟨fun d d' hdev heq => ?_, fun d => ?_⟩
  · rw [hlabel] at hdev heq
    exact hc.unique d d' hdev (heq.trans (hlabel d'))
  obtain ⟨t, ht, ⟨-, -, rfl⟩ | ⟨-, -, rfl⟩ | ⟨htaken, rfl⟩⟩ := h
  · -- The disk takes the data of `b`, which no other buffer has the label of.
    have htl := hs.label b t ht
    change (Function.update s.buf b _ d).Coherent (Function.update s.disk t.label (s.buf b).data)
    by_cases hdb : d = b
    · subst hdb
      rw [Function.update_self, htl]
      refine ⟨fun _ _ hq => absurd hq.1 (by simp), fun _ _ _ _ => ?_⟩
      change _ = Function.update s.disk (s.buf d).label (s.buf d).data (s.buf d).label
      rw [Function.update_self]
    · rw [Function.update_of_ne hdb]
      have hne : (s.buf d).label.dev ≠ 0 → (s.buf d).label ≠ t.label := fun hdev heq =>
        hdb (hc.unique d b hdev (heq.trans htl))
      refine ⟨fun hdev hup hq => ?_, fun t' hdev ht' htaken => ?_⟩
      · rw [Function.update_of_ne (hne hdev)]
        exact (hc.coherent d).clean hdev hup hq
      · rw [Function.update_of_ne (hne hdev)]
        exact (hc.coherent d).taken t' hdev ht' htaken
  · change (Function.update s.buf b _ d).Coherent s.disk
    by_cases hdb : d = b
    · subst hdb
      rw [Function.update_self]
      refine ⟨fun _ _ hq => absurd hq.1 (by simp), fun _ _ _ _ => ?_⟩
      exact congrArg s.disk (hs.label d t ht)
    · rw [Function.update_of_ne hdb]
      exact hc.coherent d
  · change (Function.update s.buf b _ d).Coherent s.disk
    by_cases hdb : d = b
    · subst hdb
      rw [Function.update_self]
      refine ⟨fun hdev _ _ => (hc.coherent d).taken t hdev ht htaken, fun _ _ h => ?_⟩
      simp at h
    · rw [Function.update_of_ne hdb]
      exact hc.coherent d

/-- Every careful step keeps the invariant. -/
theorem step {e : Event D N n} (hc : Coherent s) (hinv : Inv s) (hs : Settled s)
    (he : s.Careful e) (h : s.next e = some s') : Coherent s' := by
  rcases State.next_cases h with ⟨b, -, hdisk⟩ | ⟨p, hp, hd, hpanic | ⟨pr, htrans, hproc⟩⟩
  · exact hc.transferred hs hdisk
  · exact absurd hpanic hinv.no_panic
  · refine ⟨hc.unique_trans hinv htrans (he.alone p hp), fun b => ?_⟩
    rw [hd]
    exact hc.coherent_trans hs htrans he.unlocked b

theorem init [NeZero N] (disk : Label → D) (data : Fin N → D) :
    Coherent (State.init disk data : State D N n) :=
  ⟨fun _ _ hdev => absurd rfl hdev, fun _ => ⟨fun hdev => absurd rfl hdev,
    fun _ hdev => absurd rfl hdev⟩⟩

end Coherent

/-! ### Runs -/

/-- **Clean buffers.** In every run in which no locked buffer is changed, no buffer gets the label
of one that another process still recycles, and no counter wraps around, a buffer with a device that
is up to date, clean and unlocked has exactly the contents of its block on the disk. -/
theorem clean_eq_disk [NeZero N] {disk : Label → D} {data : Fin N → D} {es : List (Event D N n)}
    (h : Runs (fun s e s' => s.next e = some s' ∧ s.Careful e) (State.init disk data) es s) :
    ∀ b, (s.buf b).label.dev ≠ 0 → (s.buf b).uptodate = true → (s.buf b).dirt = false →
      (s.buf b).lock = none → (s.buf b).data = s.disk (s.buf b).label := by
  have hinv : Inv s ∧ Settled s ∧ Coherent s := by
    refine h.invariant (I := fun s => Inv s ∧ Settled s ∧ Coherent s) ?_
      ⟨Inv.init disk data, Settled.init disk data, Coherent.init disk data⟩
    rintro s e s' ⟨hinv, hs, hc⟩ ⟨hnext, he⟩
    exact ⟨hinv.step he.noWrap hnext, hs.step hinv hnext, hc.step hinv hs he hnext⟩
  intro b hdev hup hdirt hlock
  exact (hinv.2.2.coherent b).clean hdev hup ⟨hlock, hdirt⟩

/-- A process reads a block, changes it, and the other one has it written. -/
def writeOnce : List (Event ℕ 2 2) :=
  [.call 0 ⟨1, 1⟩ (.get true), .run 0, .run 0, .run 0, .run 0, .disk 0, .intr 0, .run 0,
    .change 0 0 0 5, .sync 1, .run 1, .run 1, .disk 0]

/-- The interrupt ends the write. -/
def writeEnd : List (Event ℕ 2 2) := writeOnce ++ [.intr 0]

/-- The first process changes the block again before the interrupt. -/
def changeLate : List (Event ℕ 2 2) := writeOnce ++ [.change 0 0 0 6, .intr 0]

/-- After the write the buffer is clean and the disk has the change. -/
theorem clean_eq_disk_writeEnd : ∃ s,
    Runs (fun s e s' => State.next s e = some s' ∧ s.Careful e)
      (State.init (fun _ => 0) fun _ => 0 : State ℕ 2 2) writeEnd.reverse s ∧
    (s.buf 0).dirt = false ∧ (s.buf 0).data = 5 ∧ s.disk ⟨1, 1⟩ = 5 := by
  have hexec : ((exec (fun s e => (State.next s e).filter fun _ => s.Careful e)
      (State.init (fun _ => 0) fun _ => 0 : State ℕ 2 2) writeEnd).map fun s =>
        ((s.buf 0).label, (s.buf 0).uptodate, (s.buf 0).dirt, (s.buf 0).lock, (s.buf 0).data)) =
      some (⟨1, 1⟩, true, false, none, 5) := by
    decide +kernel
  obtain ⟨s, hs, hbuf⟩ := Option.map_eq_some_iff.mp hexec
  simp only [Prod.mk.injEq] at hbuf
  obtain ⟨hlabel, hup, hdirt, hlock, hdata⟩ := hbuf
  have hrun := runs_of_exec_guarded hs
  have hclean := clean_eq_disk hrun 0 (by rw [hlabel]; simp) hup hdirt hlock
  rw [hlabel, hdata] at hclean
  exact ⟨s, hrun, hdirt, hdata, hclean.symm⟩

/-- A change that is made after the disk has taken the data is forgotten: the interrupt clears the
dirty mark, and the buffer is up to date, clean and unlocked with other contents than its block. -/
theorem clean_ne_disk : ∃ es s,
    Runs (fun s e s' => State.next s e = some s')
      (State.init (fun _ => 0) fun _ => 0 : State ℕ 2 2) es s ∧
    (s.buf 0).label.dev ≠ 0 ∧ (s.buf 0).uptodate = true ∧ (s.buf 0).dirt = false ∧
      (s.buf 0).lock = none ∧ (s.buf 0).data ≠ s.disk (s.buf 0).label := by
  have hexec : ∃ s, exec State.next (State.init (fun _ => 0) fun _ => 0 : State ℕ 2 2)
      changeLate = some s ∧ (s.buf 0).label.dev ≠ 0 ∧
      (s.buf 0).uptodate = true ∧ (s.buf 0).dirt = false ∧ (s.buf 0).lock = none ∧
      (s.buf 0).data ≠ s.disk (s.buf 0).label := ⟨_, rfl, by decide⟩
  obtain ⟨s, hs, hbad⟩ := hexec
  exact ⟨_, s, runs_of_exec hs, hbad⟩

end Linux001.BufferCache
