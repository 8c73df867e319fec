import Linux001.BufferCache.Recycling

/-!
# Exact reference counts

`get_hash_table` looks at the label of the buffer again after it has waited for it. As long as no
counter wraps around this is not needed: a buffer with a reference keeps its label. When moreover no
`free_block` returns with the reference that it has taken, `b_count` is exactly the number of
references to the buffer.

## Main definitions

* `Labelled`: the buffers that processes refer to have the labels that these know them by.
* `State.NoLeak`: the step is no return from `free_block` that keeps a reference.
* `Exact`: the invariant of runs without wrapping counters and without leaks.

## Main results

* `Exact.step`: the invariant is kept.
-/

namespace Linux001.BufferCache

variable {D : Type*} {N n : ℕ} {s s' : State D N n} {p : Fin n}
  {c : Option ((Label × Fin N) × D)} {q : Queues N} {f : Fin N → Buf D} {pr : Proc N}

/-- The buffer that a position refers to has the label that was looked for. -/
def Pc.Labelled (label : Fin N → Label) : Pc N → Prop
  | .hashWait b l _ | .readWait b l => label b = l
  | .brelse _ r => r = none
  | _ => True

/-- The buffers that a process refers to have the labels that it knows them by. -/
structure Proc.Labelled (pr : Proc N) (label : Fin N → Label) : Prop where
  pc : pr.pc.Labelled label
  held : ∀ x ∈ pr.held, label x.2 = x.1

/-- What processes look for, and what for. -/
def Pc.goal : Pc N → Option (Label × Use)
  | .find l u | .hashWait _ l u => some (l, u)
  | .scan _ l read | .freeWait _ l read | .noFree _ l read => some (l, .get read)
  | .sync (some r) _ | .syncWait (some r) _ | .syncWrite (some r) _ | .relabel r =>
    some (r.label, .get r.read)
  | .readWait _ l => some (l, .get true)
  | .brelse _ r => r
  | .idle | .sync none _ | .syncWait none _ | .syncWrite none _ => none

/-- The step is no return from `free_block` that keeps a reference. -/
def State.NoLeak (s : State D N n) (e : Event D N n) : Prop :=
  ∀ p, e = .run p → ∀ b l, (s.proc p).pc = .hashWait b l .free → (s.buf b).label = l →
    (s.buf b).count = 1

/-- What holds in runs in which no counter wraps around and no reference is left behind. -/
structure Exact (s : State D N n) : Prop where
  inv : Inv s
  labelled : ∀ p, (s.proc p).Labelled s.labels
  counted : ∀ b, (s.buf b).count = ∑ q, (s.proc q).refs.count b

theorem Proc.Labelled.congr {label label' : Fin N → Label} (h : pr.Labelled label)
    (hl : ∀ b ∈ pr.refs, label' b = label b) : pr.Labelled label' where
  pc := by
    have hpc := h.pc
    have href : ∀ b, pr.pc.ref = some b → label' b = label b := fun b hb =>
      hl b (by simp [refs, hb])
    generalize pr.pc = pc at hpc href
    cases pc with
    | hashWait b l u => exact (href b rfl).trans hpc
    | readWait b l => exact (href b rfl).trans hpc
    | brelse b r => exact hpc
    | _ => trivial
  held x hx := (hl _ (List.mem_append_right _ (List.mem_map_of_mem hx))).trans (h.held x hx)

/-- A store that leaves the label of a buffer head as it is. -/
theorem labels_store {b : Fin N} {x : Buf D} (hx : x.label = (s.buf b).label) :
    (fun b' => (Function.update s.buf b x b').label) = s.labels := by
  rw [State.labels_update, hx]
  exact Function.update_eq_self b s.labels

/-- After a step of a process, the buffers that it refers to have the labels that it knows them
by. -/
theorem Trans.labelled (h : Trans s p c q f pr) (hs : (s.proc p).Labelled s.labels)
    (hinv : Inv s) : pr.Labelled fun b => (f b).label := by
  have hself := hs.pc
  have hput {t : Fin N} {l : Label} (ht : (s.proc p).pc.recycles = some t) :
      ∀ x ∈ (s.proc p).held, Function.update s.labels t l x.2 = x.1 := fun x hx => by
    rw [Function.update_of_ne (hinv.not_held ⟨p, ht⟩ hx)]
    exact hs.held x hx
  cases h with
  | @move pc h =>
    refine ⟨?_, hs.held⟩
    generalize (s.proc p).pc = pc₀ at h hself
    cases h with
    | stale hl => exact absurd hself hl
    | unread => rfl
    | @await r i => cases r <;> trivial
    | @clean r i => cases r <;> trivial
    | @written r i => cases r <;> trivial
    | _ => trivial
  | release => exact ⟨rfl, fun x hx => hs.held x (List.mem_of_mem_eraseIdx hx)⟩
  | use =>
    rw [labels_store (by rfl)]
    exact hs
  | hit hpc hf =>
    rw [labels_store (by rfl)]
    exact ⟨(hinv.hashed.find_eq_some hf).2.1, hs.held⟩
  | @hold b l hpc =>
    refine ⟨trivial, List.forall_mem_cons.mpr ⟨?_, hs.held⟩⟩
    generalize (s.proc p).pc = pc at hpc hself
    cases hpc with
    | hash hl | get hl | bread hl => exact hl
    | read => exact hself
  | read hpc hlock hl =>
    rw [labels_store (by rfl)]
    exact ⟨hl, hs.held⟩
  | leak => exact ⟨trivial, hs.held⟩
  | discard =>
    rw [labels_store (by rfl)]
    exact ⟨rfl, hs.held⟩
  | @take t l read pc hpc hlock hcount hpc' =>
    rw [labels_store (by rfl)]
    rcases hpc' with ⟨-, rfl⟩ | ⟨-, rfl⟩ <;> exact ⟨trivial, hs.held⟩
  | write =>
    rw [labels_store (by rfl)]
    exact ⟨trivial, hs.held⟩
  | lost hpc =>
    rw [State.labels_update]
    exact ⟨trivial, hput (by rw [hpc]; rfl)⟩
  | won hpc =>
    rw [State.labels_update]
    exact ⟨trivial, List.forall_mem_cons.mpr ⟨Function.update_self _ _ _,
      hput (by rw [hpc]; rfl)⟩⟩
  | wonRead hpc =>
    rw [State.labels_update]
    exact ⟨Function.update_self _ _ _, hput (by rw [hpc]; rfl)⟩
  | put hpc =>
    rw [labels_store (by rfl)]
    rw [hpc] at hself
    obtain rfl : _ = none := hself
    exact ⟨trivial, hs.held⟩

/-- How a process goes on that looks for the label `l`: it still does, there is no buffer for it,
the call returns with a buffer, or the buffer is to be released. -/
inductive Served (held : List (Label × Fin N)) (label : Fin N → Label) (l : Label) (u : Use) :
    Proc N → Prop
  | going {pc : Pc N} (h : pc.goal = some (l, u)) : Served held label l u ⟨pc, held⟩
  | missed (hu : ∀ read, u ≠ .get read) : Served held label l u ⟨.idle, held⟩
  | got {b : Fin N} (hu : u ≠ .free) : Served held label l u ⟨.idle, (l, b) :: held⟩
  | dropped {b : Fin N} (hu : u ≠ .get false) (hl : label b = l) :
      Served held label l u ⟨.brelse b none, held⟩

/-- A step of a process that looks for a label. -/
theorem Trans.served (h : Trans s p c q f pr) {l : Label} {u : Use}
    (hg : (s.proc p).pc.goal = some (l, u)) (hs : (s.proc p).Labelled s.labels)
    (hnull : ∀ l read, (s.proc p).pc = .find l (.get read) → pr.pc ≠ .idle) :
    Served (s.proc p).held (fun b => (f b).label) l u pr := by
  have hself := hs.pc
  have hgoal {pc : Pc N} (hpc : (s.proc p).pc = pc) : pc.goal = some (l, u) := hpc ▸ hg
  cases h with
  | @move pc h =>
    generalize (s.proc p).pc = pc₀ at h hself hg hnull
    cases h with
    | call | callSync | syncEnd => cases hg
    | null hf =>
      obtain ⟨rfl, rfl⟩ := Prod.mk.inj (Option.some.inj hg)
      exact .missed fun read hu => hnull _ read (by rw [hu]) rfl
    | stale hl => exact absurd hself hl
    | @unread b l' hlock hup =>
      obtain ⟨rfl, rfl⟩ := Prod.mk.inj (Option.some.inj hg)
      exact .dropped nofun hself
    | @await r i => cases r <;> exact .going hg
    | @clean r i => cases r <;> exact .going hg
    | @written r i => cases r <;> exact .going hg
    | _ => exact .going hg
  | release hpc | use hpc => cases hgoal hpc
  | hit hpc | read hpc | lost hpc =>
    have hnew := hgoal hpc
    exact .going hnew
  | @hold b l' hpc =>
    generalize (s.proc p).pc = pc at hpc hg
    cases hpc with
    | hash | get | bread | read =>
      obtain ⟨rfl, rfl⟩ := Prod.mk.inj (Option.some.inj hg)
      exact .got nofun
  | leak hpc =>
    obtain ⟨rfl, rfl⟩ := Prod.mk.inj (Option.some.inj (hgoal hpc))
    exact .missed nofun
  | discard hpc =>
    obtain ⟨rfl, rfl⟩ := Prod.mk.inj (Option.some.inj (hgoal hpc))
    refine .dropped nofun ?_
    rw [hpc] at hself
    exact (congrFun (labels_store (by rfl)) _).trans hself
  | @take t l' read pc hpc hlock hcount hpc' =>
    have hnew := hgoal hpc
    rcases hpc' with ⟨-, rfl⟩ | ⟨-, rfl⟩ <;> exact .going hnew
  | @write r i hpc =>
    have hnew := hgoal hpc
    cases r <;> exact .going hnew
  | won hpc hread =>
    obtain ⟨rfl, rfl⟩ := Prod.mk.inj (Option.some.inj (hgoal hpc))
    exact .got nofun
  | wonRead hpc hread =>
    refine .going ?_
    obtain ⟨rfl, rfl⟩ := Prod.mk.inj (Option.some.inj (hgoal hpc))
    rw [hread]
    rfl
  | put hpc =>
    rw [hpc] at hself
    obtain rfl : _ = none := hself
    cases hgoal hpc

/-- A step that leaves no reference behind changes the counters with the references. -/
theorem Trans.balanced_exact (h : Trans s p c q f pr)
    (hwrap : ∀ b ∈ s.hits p, (s.buf b).count < 255)
    (hone : ∀ b, (s.proc p).pc.recycles = some b → (s.buf b).count = 1)
    (hleak : (s.proc p).pc.frees → pr.pc ≠ .idle) (b : Fin N) :
    (f b).count + (s.proc p).refs.count b = (s.buf b).count + pr.refs.count b := by
  obtain ⟨k, hbal, hk⟩ := h.balanced hwrap hone b
  by_cases hzero : k = 0
  · rwa [hzero, Nat.add_zero] at hbal
  have hfrees := hk hzero
  have hrefs {pc : Pc N} (hpc : pc.ref = (s.proc p).pc.ref) :
      (⟨pc, (s.proc p).held⟩ : Proc N).refs = (s.proc p).refs := by
    rw [Proc.refs, Proc.refs, hpc]
  cases h with
  | move h => rw [hrefs h.ref_eq.1]
  | leak => exact absurd rfl (hleak hfrees)
  | @discard d l hpc =>
    have href : (Pc.brelse d none).ref = (s.proc p).pc.ref := by rw [hpc]; rfl
    rw [hrefs href, Function.update_apply]
    split_ifs with hb
    · rw [hb]
    · rfl
  | hold hpc =>
    generalize (s.proc p).pc = pc at hpc hfrees
    cases hpc <;> cases hfrees
  | release hpc | use hpc | hit hpc | read hpc | take hpc | write hpc | lost hpc | won hpc
  | wonRead hpc | put hpc =>
    rw [hpc] at hfrees
    cases hfrees

namespace Exact

/-- A buffer to which one process refers once has one reference. -/
theorem count_eq_one (hs : Exact s) {b : Fin N} (hself : (s.proc p).refs.count b = 1)
    (hother : ∀ p' ≠ p, b ∉ (s.proc p').refs) : (s.buf b).count = 1 := by
  rw [hs.counted, Finset.sum_eq_single p]
  · exact hself
  · exact fun p' _ hne => List.count_eq_zero.mpr (hother p' hne)
  · exact fun h => absurd (Finset.mem_univ p) h

theorem count_eq_zero (hs : Exact s) {b : Fin N} (h : ∀ p, b ∉ (s.proc p).refs) :
    (s.buf b).count = 0 := by
  rw [hs.counted]
  exact Finset.sum_eq_zero fun p _ => List.count_eq_zero.mpr (h p)

end Exact

/-- The effect of a step that a process takes by itself. -/
theorem State.next_run_eq (h : s.next (.run p) = some s') :
    s.sleeps p = false ∧ s' = (s.run p).yield p := by
  obtain ⟨s₁, hact, rfl⟩ := next_act rfl h
  simp only [act] at hact
  split_ifs at hact with hsleeps
  exact ⟨Bool.eq_false_iff.mpr hsleeps, congrArg (yield · p) (Option.some.inj hact).symm⟩

/-- A process begins a call, or calls `brelse`, or uses a buffer, when it is in no call. -/
theorem State.pc_idle {e : Event D N n} (hp : e.proc = some p) (hrun : e ≠ .run p)
    (h : s.next e = some s') : (s.proc p).pc = .idle := by
  obtain ⟨s₁, hact, rfl⟩ := next_act hp h
  cases e with
  | run => exact absurd (congrArg Event.run (Option.some.inj hp)) hrun
  | call | sync | brelse | change | fill =>
    rw [← Option.some.inj hp]
    simp only [act] at hact
    split_ifs at hact with hidle
    first
    | exact hidle
    | exact hidle.1
  | disk | intr => cases hp

/-- `getblk` goes on to the free list when it finds no buffer. -/
theorem State.pc_search {l : Label} {read : Bool} (h : s.next (.run p) = some s')
    (hpc : (s.proc p).pc = .find l (.get read)) : (s'.proc p).pc ≠ .idle := by
  obtain ⟨-, rfl⟩ := next_run_eq h
  cases hf : s.find l <;> simp [run, hpc, lookUp, hf, yield, setPc, setBuf]

/-- `free_block` discards the contents of a buffer with one reference. -/
theorem State.pc_discard {b : Fin N} {l : Label} (h : s.next (.run p) = some s')
    (hpc : (s.proc p).pc = .hashWait b l .free) (hlabel : (s.buf b).label = l)
    (hcount : (s.buf b).count = 1) : (s'.proc p).pc = .brelse b none := by
  obtain ⟨-, rfl⟩ := next_run_eq h
  simp [run, hpc, hashCheck, hlabel, hcount, yield, setPc]

/-- A step changes neither the processes that do not take it nor the labels of the buffers that they
refer to. -/
theorem State.next_other {e : Event D N n} (hs : Inv s) (h : s.next e = some s') {p' : Fin n}
    (hp' : e.proc ≠ some p') :
    s'.proc p' = s.proc p' ∧ ∀ b ∈ (s.proc p').refs, s'.labels b = s.labels b := by
  rcases State.next_cases h with ⟨b, -, hdisk⟩ | ⟨p, hp, -, hpanic | ⟨pr, htrans, hproc⟩⟩
  · obtain ⟨-, hproc, hbuf⟩ := hdisk.frame
    exact ⟨by rw [hproc], fun b _ => (hbuf b).1⟩
  · exact absurd hpanic hs.no_panic
  · have hne : p' ≠ p := fun hc => hp' (hc ▸ hp)
    rw [hproc, Function.update_of_ne hne]
    exact ⟨rfl, fun b hb => htrans.label_eq hs hne hb⟩

/-- The buffers that processes refer to keep the labels that these know them by. -/
theorem labelled_step {e : Event D N n} (hs : Inv s) (hl : ∀ p, (s.proc p).Labelled s.labels)
    (h : s.next e = some s') (p : Fin n) : (s'.proc p).Labelled s'.labels := by
  by_cases hp : e.proc = some p
  · rcases State.next_cases h with ⟨b, he, -⟩ | ⟨p', hp', -, hpanic | ⟨pr, htrans, hproc⟩⟩
    · rcases he with rfl | rfl <;> cases hp
    · exact absurd hpanic hs.no_panic
    · obtain rfl := Option.some.inj (hp.symm.trans hp')
      rw [hproc, Function.update_self]
      exact htrans.labelled (hl p) hs
  · obtain ⟨hproc, hlabels⟩ := State.next_other hs h hp
    rw [hproc]
    exact (hl p).congr hlabels

theorem labelled_of_runs [NeZero N] {disk : Label → D} {data : Fin N → D}
    {es : List (Event D N n)}
    (h : Runs (fun s e s' => s.next e = some s' ∧ s.NoWrap e) (State.init disk data) es s) :
    Inv s ∧ ∀ p, (s.proc p).Labelled s.labels := by
  refine h.invariant (I := fun s => Inv s ∧ ∀ p, (s.proc p).Labelled s.labels) ?_
    ⟨Inv.init disk data, fun p => ⟨trivial, fun x hx => ?_⟩⟩
  · rintro s e s' ⟨hs, hl⟩ ⟨hnext, hwrap⟩
    exact ⟨hs.step hwrap hnext, labelled_step hs hl hnext⟩
  · cases hx

/-- Every step that neither makes a counter wrap around nor leaves a reference behind keeps the
invariant. -/
theorem Exact.step {e : Event D N n} (hs : Exact s) (hwrap : s.NoWrap e) (hleak : s.NoLeak e)
    (h : s.next e = some s') : Exact s' := by
  refine ⟨hs.inv.step hwrap h, labelled_step hs.inv hs.labelled h, fun b => ?_⟩
  rcases State.next_cases h with ⟨b', -, hdisk⟩ | ⟨p, hp, -, hpanic | ⟨pr, htrans, hproc⟩⟩
  · obtain ⟨-, hproc, hbuf⟩ := hdisk.frame
    rw [hproc, (hbuf b).2]
    exact hs.counted b
  · exact absurd hpanic hs.inv.no_panic
  · have hbal := htrans.balanced_exact (hwrap p hp) (hs.inv.recycled p) (fun hfrees hidle => ?_) b
    · have hsum := sum_update_add s.proc (fun pr => pr.refs.count b) p pr
      have hold := hs.counted b
      rw [hproc]
      omega
    have hpc : (s'.proc p).pc = .idle := by
      rw [hproc, Function.update_self]
      exact hidle
    by_cases hrun : e = .run p
    · have hlabelled := (hs.labelled p).pc
      cases hpc₀ : (s.proc p).pc with
      | hashWait b l u =>
        cases u with
        | free =>
          rw [hpc₀] at hlabelled
          rw [hrun] at h
          rw [State.pc_discard h hpc₀ hlabelled (hleak p hrun b l hpc₀ hlabelled)] at hpc
          cases hpc
        | _ => rw [hpc₀] at hfrees; cases hfrees
      | _ => rw [hpc₀] at hfrees; cases hfrees
    · rw [State.pc_idle hp hrun h] at hfrees
      cases hfrees

/-- The effect of the beginning of a call. -/
theorem State.next_call {l : Label} {u : Use} (h : s.next (.call p l u) = some s') :
    s'.proc p = ⟨.find l u, (s.proc p).held⟩ := by
  obtain ⟨s₁, hact, rfl⟩ := next_act rfl h
  simp only [act] at hact
  split_ifs at hact
  rw [← Option.some.inj hact]
  exact Function.update_self p _ s.proc

/-- The effect of `brelse` when it begins. -/
theorem State.next_brelse {j : ℕ} (h : s.next (.brelse p j) = some s') :
    ∃ x, (s.proc p).held[j]? = some x ∧
      s'.proc p = ⟨.brelse x.2 none, (s.proc p).held.eraseIdx j⟩ ∧ s'.labels = s.labels := by
  obtain ⟨s₁, hact, rfl⟩ := next_act rfl h
  simp only [act] at hact
  split_ifs at hact
  obtain ⟨x, hx, rfl⟩ := Option.map_eq_some_iff.mp hact
  exact ⟨x, hx, Function.update_self p _ s.proc, rfl⟩

/-- The effect of a store that fills a buffer. -/
theorem State.next_fill {j : ℕ} {d : D} (h : s.next (.fill p j d) = some s') :
    s'.proc = s.proc ∧ s'.labels = s.labels := by
  obtain ⟨s₁, hact, rfl⟩ := next_act rfl h
  simp only [act] at hact
  split_ifs at hact
  obtain ⟨x, hx, rfl⟩ := Option.map_eq_some_iff.mp hact
  exact ⟨rfl, labels_store (by rfl)⟩

/-- The effect of `brelse` when it ends. -/
theorem State.next_put {b : Fin N} (hs : Inv s) (h : s.next (.run p) = some s')
    (hpc : (s.proc p).pc = .brelse b none) : s'.proc p = ⟨.idle, (s.proc p).held⟩ := by
  obtain ⟨-, rfl⟩ := next_run_eq h
  have hcount : (s.buf b).count ≠ 0 := fun hc => hs.no_panic ⟨b, none, hpc, hc⟩
  simp [run, hpc, State.brelse, hcount, yield, setPc, setBuf, afterBrelse]

/-- The effect of a step of a process that looks for a label. -/
theorem State.next_served {l : Label} {u : Use} (hs : Inv s)
    (hl : (s.proc p).Labelled s.labels) (h : s.next (.run p) = some s')
    (hg : (s.proc p).pc.goal = some (l, u)) :
    Served (s.proc p).held s'.labels l u (s'.proc p) := by
  rcases State.next_cases h with ⟨b, he, -⟩ | ⟨p', hp', -, hpanic | ⟨pr, htrans, hproc⟩⟩
  · rcases he with he | he <;> cases he
  · exact absurd hpanic hs.no_panic
  · obtain rfl := Option.some.inj hp'
    have hpr : s'.proc p = pr := by rw [hproc, Function.update_self]
    rw [hpr]
    refine htrans.served hg hl fun l read hpc => ?_
    rw [← hpr]
    exact pc_search h hpc

end Linux001.BufferCache
