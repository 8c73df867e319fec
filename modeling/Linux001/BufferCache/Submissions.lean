import Linux001.BufferCache.Locks

/-!
# Requests to the disk

`rw_abs_hd` locks a buffer without waiting for it to be unlocked; its callers have to see to that.
`sys_sync`, `sync_dev` and `bread` call `ll_rw_block` right after a `wait_on_buffer`, and a buffer
head that `getblk` has recycled is unlocked, as long as the process that recycles it is the only one
to refer to it.

## Main definitions

* `State.submits`: the buffer for which a step calls `ll_rw_block`.
* `State.pending`: the numbers of requests that have not been ended by an interrupt.

## Main results

* `State.lock_next`: a step locks the buffers that it submits and no others.
* `submitted_unlocked`: as long as no counter wraps around, no locked buffer is submitted.
* `submitted_twice`: otherwise one may be.
-/

namespace Linux001.BufferCache

variable {D : Type*} {N n : ℕ}

namespace State

variable (s : State D N n)

/-- The buffer for which a process calls `ll_rw_block` when it goes on. -/
def requests (p : Fin n) : Option (Fin N) :=
  match (s.proc p).pc with
  | .hashWait b l (.get true) =>
    if (s.buf b).label = l ∧ (s.buf b).uptodate = false then some b else none
  | .syncWait _ i => if (s.buf i).dirt then some i else none
  | .relabel r =>
    if r.read ∧ (s.setBuf r.tmp ((s.buf r.tmp).renew r.label)).find r.label = none then some r.tmp
    else none
  | _ => none

/-- The buffer for which a step calls `ll_rw_block`. -/
def submits : Event D N n → Option (Fin N)
  | .run p => s.requests p
  | _ => none

/-- The requests for a buffer that are pending after a step, when there have been `k` of them. -/
def pending (k : Fin N → ℕ) (e : Event D N n) (b : Fin N) : ℕ :=
  match e with
  | .intr b' => if b = b' then k b - 1 else k b
  | e => if s.submits e = some b then k b + 1 else k b

/-- The effect of an event on the cache, and on the numbers of pending requests. -/
def nextPending (σ : State D N n × (Fin N → ℕ)) (e : Event D N n) :
    Option (State D N n × (Fin N → ℕ)) :=
  (σ.1.next e).map fun s' => (s', σ.1.pending σ.2 e)

/-! ### What a step locks -/

variable {s} {s' : State D N n} {p : Fin n} {b : Fin N}

/-- The buffer has been locked if it has been submitted, and else is locked as it was. -/
def LockedIf (submitted : Prop) (x y : Buf D) : Prop :=
  submitted ∧ y.lock.isSome = true ∨ ¬ submitted ∧ y.lock = x.lock

/-- A store that leaves the lock of a buffer head as it is. -/
theorem lock_eq_of_update {c : Fin N} {x : Buf D} (hbuf : s'.buf = Function.update s.buf c x)
    (hx : x.lock = (s.buf c).lock) : (s'.buf b).lock = (s.buf b).lock := by
  rw [hbuf, Function.update_apply]
  split_ifs with hbc
  · rw [hx, hbc]
  · rfl

theorem lockedIf_request {write : Bool} {c : Fin N} :
    LockedIf (some c = some b) (s.buf b) ((s.request write c).buf b) := by
  by_cases hbc : c = b
  · refine .inl ⟨congrArg some hbc, ?_⟩
    rw [← hbc]
    exact congrArg (fun x : Buf D => x.lock.isSome) (Function.update_self c _ s.buf)
  · exact .inr ⟨fun h => hbc (Option.some.inj h),
      congrArg Buf.lock (Function.update_of_ne (Ne.symm hbc) _ s.buf)⟩

theorem lockedIf_none {x y : Buf D} (h : y.lock = x.lock) : LockedIf (none = some b) x y :=
  .inr ⟨nofun, h⟩

private theorem lockedIf_got {c : Fin N} {l : Label} {read : Bool} :
    LockedIf ((if read ∧ (s.buf c).uptodate = false then some c else none) = some b) (s.buf b)
      ((s.got p c l read).buf b) := by
  unfold got
  split_ifs
  · exact lockedIf_request
  · exact .inr ⟨nofun, rfl⟩

private theorem lockedIf_relabel {r : Recycle N} :
    LockedIf ((if r.read ∧ (s.setBuf r.tmp ((s.buf r.tmp).renew r.label)).find r.label = none
      then some r.tmp else none) = some b) (s.buf b) ((s.relabel p r).buf b) := by
  have hself : (s.setBuf r.tmp ((s.buf r.tmp).renew r.label)).buf r.tmp =
      (s.buf r.tmp).renew r.label := Function.update_self _ _ _
  have hlock : ((s.setBuf r.tmp ((s.buf r.tmp).renew r.label)).buf b).lock = (s.buf b).lock :=
    lock_eq_of_update rfl rfl
  unfold relabel
  dsimp only
  cases hf : (s.setBuf r.tmp ((s.buf r.tmp).renew r.label)).find r.label with
  | some c =>
    rw [if_neg fun h => nomatch h.2]
    dsimp only
    refine lockedIf_none (Eq.trans ?_ hlock)
    exact lock_eq_of_update rfl rfl
  | none =>
    dsimp only
    have hgot : LockedIf _ _ ((State.got { s.setBuf r.tmp ((s.buf r.tmp).renew r.label) with
      queues := s.queues.insert r.label r.tmp } p r.tmp r.label r.read).buf b) := lockedIf_got
    dsimp only at hgot
    rw [hself] at hgot
    rcases hgot with ⟨hsub, hl⟩ | ⟨hsub, hl⟩
    · refine .inl ⟨?_, hl⟩
      rw [← hsub]
      simp [Buf.renew]
    · refine .inr ⟨fun h => hsub ?_, hl.trans hlock⟩
      rw [← h]
      simp [Buf.renew]

/-- A process that goes on locks the buffer that it submits. -/
theorem lockedIf_run : LockedIf (s.requests p = some b) (s.buf b) ((s.run p).buf b) := by
  unfold requests run
  cases hpc : (s.proc p).pc with
  | idle | noFree | syncWrite => exact lockedIf_none rfl
  | find l u =>
    refine lockedIf_none ?_
    dsimp only [lookUp]
    cases s.find l with
    | some c =>
      dsimp only
      exact lock_eq_of_update rfl rfl
    | none => cases u <;> rfl
  | hashWait c l u =>
    dsimp only [hashCheck]
    by_cases hl : (s.buf c).label = l
    · rw [if_neg (not_not.mpr hl)]
      cases u with
      | hash => exact lockedIf_none rfl
      | free =>
        refine lockedIf_none ?_
        dsimp only
        split_ifs
        · rfl
        · exact lock_eq_of_update rfl rfl
      | get read =>
        have hgot : LockedIf _ _ ((s.got p c l read).buf b) := lockedIf_got
        cases read with
        | false => simpa using hgot
        | true => simpa [hl] using hgot
    · rw [if_pos hl]
      cases u with
      | hash | free => exact lockedIf_none rfl
      | get read =>
        cases read with
        | false => exact lockedIf_none rfl
        | true =>
          dsimp only
          rw [if_neg fun h => hl h.1]
          exact lockedIf_none rfl
  | scan t l read =>
    refine lockedIf_none ?_
    dsimp only [advance]
    split_ifs <;> rfl
  | freeWait t l read =>
    refine lockedIf_none ?_
    dsimp only [advance]
    split_ifs
    · exact lock_eq_of_update rfl rfl
    · rfl
    · rfl
  | sync r i =>
    refine lockedIf_none ?_
    dsimp only [syncNext]
    split_ifs with hi
    · cases r with
      | none => rfl
      | some r =>
        dsimp only
        split_ifs <;> rfl
    · cases r <;> rfl
  | syncWait r i =>
    dsimp only
    by_cases hdirt : (s.buf i).dirt = true
    · rw [if_pos hdirt, if_pos hdirt]
      exact lockedIf_request
    · rw [if_neg hdirt, if_neg hdirt]
      exact lockedIf_none rfl
  | relabel r => exact lockedIf_relabel
  | readWait c l =>
    refine lockedIf_none ?_
    dsimp only
    split_ifs <;> rfl
  | brelse c r =>
    refine lockedIf_none ?_
    dsimp only [State.brelse]
    split_ifs
    · exact lock_eq_of_update rfl rfl
    · exact lock_eq_of_update rfl rfl

/-- What a step does to the lock of a buffer: an interrupt ends its transfer, it is submitted, or
neither. -/
inductive LockStep (s : State D N n) (e : Event D N n) (b : Fin N) (s' : State D N n) : Prop
  | ended (he : e = .intr b) (h : s.locked b = true) (h' : s'.locked b = false)
  | submitted (he : e ≠ .intr b) (hsub : s.submits e = some b) (h' : s'.locked b = true)
  | kept (he : e ≠ .intr b) (hsub : s.submits e ≠ some b) (h' : s'.locked b = s.locked b)

/-- A step locks the buffers that it submits, unlocks those whose transfer it ends, and no
others. -/
theorem lock_next {e : Event D N n} (h : s.next e = some s') (b : Fin N) : LockStep s e b s' := by
  have hother {s' : State D N n} (he : ∀ b', e ≠ .intr b') (hsub : s.submits e = none)
      (hlock : (s'.buf b).lock = (s.buf b).lock) : LockStep s e b s' :=
    .kept (he b) (by rw [hsub]; simp) (congrArg Option.isSome hlock)
  cases e with
  | run p =>
    obtain ⟨s₁, hact, rfl⟩ := next_act rfl h
    simp only [act] at hact
    split_ifs at hact with hsleeps
    rw [← Option.some.inj hact]
    rcases lockedIf_run (s := s) (p := p) (b := b) with ⟨hsub, hl⟩ | ⟨hsub, hl⟩
    · exact .submitted (by simp) hsub hl
    · exact .kept (by simp) hsub (congrArg Option.isSome hl)
  | call p l u | sync p =>
    obtain ⟨s₁, hact, rfl⟩ := next_act rfl h
    simp only [act] at hact
    split_ifs at hact with hidle
    rw [← Option.some.inj hact]
    exact hother (by simp) rfl rfl
  | brelse p j =>
    obtain ⟨s₁, hact, rfl⟩ := next_act rfl h
    simp only [act] at hact
    split_ifs at hact with hidle
    obtain ⟨x, hx, rfl⟩ := Option.map_eq_some_iff.mp hact
    exact hother (by simp) rfl rfl
  | change p q j d | fill p j d =>
    obtain ⟨s₁, hact, rfl⟩ := next_act rfl h
    simp only [act] at hact
    split_ifs at hact with hidle
    obtain ⟨x, hx, rfl⟩ := Option.map_eq_some_iff.mp hact
    exact hother (by simp) rfl (lock_eq_of_update rfl rfl)
  | disk c =>
    unfold next at h
    split_ifs at h with hpanic
    obtain ⟨t, ht, h⟩ := Option.bind_eq_some_iff.mp h
    have hlocked {x : Buf D} (hx : x.lock.isSome = true) :
        (Function.update s.buf c x b).lock.isSome = (s.buf b).lock.isSome := by
      rw [Function.update_apply]
      split_ifs with hbc
      · rw [hx, hbc, ht]
        rfl
      · rfl
    refine .kept (by simp) (by simp [submits]) ?_
    split_ifs at h
    · rw [← Option.some.inj h]
      exact hlocked rfl
    · rw [← Option.some.inj h]
      exact hlocked rfl
  | intr c =>
    unfold next at h
    split_ifs at h with hpanic
    obtain ⟨t, ht, h⟩ := Option.bind_eq_some_iff.mp h
    split_ifs at h
    rw [← Option.some.inj h]
    by_cases hbc : b = c
    · subst hbc
      refine .ended rfl (congrArg Option.isSome ht) ?_
      exact congrArg (fun x : Buf D => x.lock.isSome) (Function.update_self b _ s.buf)
    · refine .kept (fun he => hbc (Event.intr.inj he).symm) (by simp [submits]) ?_
      exact congrArg (fun x : Buf D => x.lock.isSome) (Function.update_of_ne hbc _ s.buf)

/-- A buffer that is submitted is not locked, as long as nobody else uses the buffer heads that are
recycled. -/
theorem unlocked_of_submits (hs : Settled s) {e : Event D N n} (h : s.next e = some s')
    (hsub : s.submits e = some b) : s.locked b = false := by
  cases e with
  | run p =>
    obtain ⟨s₁, hact, rfl⟩ := next_act rfl h
    simp only [act] at hact
    split_ifs at hact with hsleeps
    have hpassed := hs.passed p
    change s.requests p = some b at hsub
    unfold requests at hsub
    unfold sleeps at hsleeps
    cases hpc : (s.proc p).pc with
    | hashWait c l u =>
      rw [hpc] at hsub hsleeps
      have hc : s.locked c = false := Bool.eq_false_iff.mpr hsleeps
      cases u with
      | hash | free => cases hsub
      | get read =>
        cases read with
        | false => cases hsub
        | true =>
          dsimp only at hsub
          split_ifs at hsub
          exact Option.some.inj hsub ▸ hc
    | syncWait r i =>
      rw [hpc] at hsub hsleeps
      have hi : s.locked i = false := Bool.eq_false_iff.mpr hsleeps
      dsimp only at hsub
      split_ifs at hsub
      exact Option.some.inj hsub ▸ hi
    | relabel r =>
      rw [hpc] at hsub hpassed
      dsimp only at hsub
      split_ifs at hsub
      rw [← Option.some.inj hsub, locked, hpassed.1]
      rfl
    | _ => rw [hpc] at hsub; cases hsub
  | _ => cases hsub

/-- The pending requests are those for the locked buffers. -/
theorem pending_next {e : Event D N n} {k : Fin N → ℕ} (hk : k b = if s.locked b then 1 else 0)
    (hlock : LockStep s e b s') (hsub : s.submits e = some b → s.locked b = false) :
    s.pending k e b = if s'.locked b then 1 else 0 := by
  cases hlock with
  | ended he h h' =>
    subst he
    rw [pending, if_pos rfl, hk, h, h']
    rfl
  | submitted he hs h' =>
    cases e with
    | run p =>
      refine (if_pos hs).trans ?_
      rw [hk, hsub hs, h']
      rfl
    | _ => cases hs
  | kept he hs h' =>
    rw [h', ← hk]
    cases e with
    | intr c => exact if_neg fun hbc => he (congrArg Event.intr hbc.symm)
    | _ => exact if_neg (t := k b + 1) hs

end State

/-! ### Runs -/

/-- **No buffer is submitted twice.** In every run in which no counter wraps around, `ll_rw_block`
is called for unlocked buffers only, and a buffer has one pending request if it is locked, and else
none. -/
theorem submitted_unlocked [NeZero N] {disk : Label → D} {data : Fin N → D}
    {es : List (Event D N n)} {s : State D N n} {k : Fin N → ℕ}
    (h : Runs (fun σ e σ' => State.nextPending σ e = some σ' ∧ σ.1.NoWrap e)
      (State.init disk data, fun _ => 0) es (s, k)) :
    (∀ b, k b = if s.locked b then 1 else 0) ∧
      ∀ e s' b, s.next e = some s' → s.submits e = some b → s.locked b = false := by
  have hinv : Inv s ∧ Settled s ∧ ∀ b, k b = if s.locked b then 1 else 0 := by
    refine h.invariant
      (I := fun σ => Inv σ.1 ∧ Settled σ.1 ∧ ∀ b, σ.2 b = if σ.1.locked b then 1 else 0) ?_
      ⟨Inv.init disk data, Settled.init disk data, fun _ => rfl⟩
    rintro ⟨s, k⟩ e ⟨s', k'⟩ ⟨hinv, hs, hk⟩ ⟨hnext, hwrap⟩
    obtain ⟨s₁, hs₁, heq⟩ := Option.map_eq_some_iff.mp hnext
    obtain ⟨rfl, rfl⟩ := Prod.mk.inj heq
    refine ⟨hinv.step hwrap hs₁, hs.step hinv hs₁, fun b => ?_⟩
    exact State.pending_next (hk b) (State.lock_next hs₁ b) (State.unlocked_of_submits hs hs₁)
  exact ⟨hinv.2.2, fun e s' b hnext hsub => State.unlocked_of_submits hinv.2.1 hnext hsub⟩

/-- Two processes read a block. The second one changes it, and the first one calls `sys_sync`. -/
def readWrite : List (Event ℕ 2 2) :=
  [.call 0 ⟨1, 1⟩ (.get true), .run 0, .run 0, .run 0, .run 0, .call 1 ⟨1, 1⟩ (.get true), .run 1,
    .disk 0, .intr 0, .run 0, .run 1, .change 1 1 0 5, .sync 0, .run 0]

/-- The buffer is submitted for the write once the first one goes on. -/
theorem submitted_unlocked_readWrite : ∃ s s' k,
    Runs (fun σ e σ' => State.nextPending σ e = some σ' ∧ σ.1.NoWrap e)
      ((State.init (fun _ => 0) fun _ => 0 : State ℕ 2 2), fun _ => 0) readWrite.reverse (s, k) ∧
    s.next (.run 0) = some s' ∧ s.submits (.run 0) = some 0 ∧ s.locked 0 = false ∧
    s'.locked 0 = true := by
  have hexec : ((exec (fun σ e => (State.nextPending σ e).filter fun _ => σ.1.NoWrap e)
      ((State.init (fun _ => 0) fun _ => 0 : State ℕ 2 2), fun _ => 0) readWrite).any fun σ =>
        σ.1.submits (.run 0) = some 0 && (σ.1.next (.run 0)).any fun s' => s'.locked 0) = true := by
    decide +kernel
  obtain ⟨⟨s, k⟩, hs, hexec⟩ := (Option.any_eq_true _ _).mp hexec
  obtain ⟨hsub, hexec⟩ := (Bool.and_eq_true _ _).mp hexec
  obtain ⟨s', hs', hlocked⟩ := (Option.any_eq_true _ _).mp hexec
  have hrun := runs_of_exec_guarded hs
  exact ⟨s, s', k, hrun, hs', of_decide_eq_true hsub,
    (submitted_unlocked hrun).2 _ s' 0 hs' (of_decide_eq_true hsub), hlocked⟩

/-! ### A counter that wraps around -/

/-- A `getblk` of a block that is in a buffer. -/
theorem State.exec_get {s : State D N n} {p : Fin n} {b : Fin N} {l : Label}
    (h : s.Finds p b l) :
    exec State.next s [.call p l (.get false), .run p, .run p] =
      some ((s.setBuf b { s.buf b with count := ((s.buf b).count + 1) % 256 }).hold p b l) := by
  have hcheck : (s.raised p b l (.get false)).hashCheck p b l (.get false) =
      (s.raised p b l (.get false)).hold p b l := by
    simp [hashCheck, got, raised, setPc, setBuf, h.label]
  rw [exec_check h (by rw [hcheck]; simp [sleeps, hold]), hcheck]
  simp [hold, raised, setPc, setBuf, h.current]

/-- A number of calls of `getblk`. -/
def gets (p : Fin n) (l : Label) : ℕ → List (Event D N n)
  | 0 => []
  | k + 1 => gets p l k ++ [.call p l (.get false), .run p, .run p]

/-- The state after a number of calls of `getblk`. -/
def State.gotten (s : State D N n) (p : Fin n) (b : Fin N) (l : Label) (k : ℕ) : State D N n :=
  { s with
    buf := Function.update s.buf b { s.buf b with count := ((s.buf b).count + k) % 256 }
    proc := Function.update s.proc p ⟨.idle, List.replicate k (l, b) ++ (s.proc p).held⟩ }

theorem State.exec_gets {s : State D N n} {p : Fin n} {b : Fin N} {l : Label}
    (h : s.Finds p b l) (hcount : (s.buf b).count < 256) (k : ℕ) :
    exec State.next s (gets p l k) = some (s.gotten p b l k) := by
  induction k with
  | zero =>
    have hbuf : ({ s.buf b with count := ((s.buf b).count + 0) % 256 } : Buf D) = s.buf b := by
      rw [Nat.add_zero, Nat.mod_eq_of_lt hcount]
    have hproc : (⟨.idle, List.replicate 0 (l, b) ++ (s.proc p).held⟩ : Proc N) = s.proc p := by
      rw [← h.idle]
      rfl
    rw [gotten, hbuf, hproc, Function.update_eq_self, Function.update_eq_self]
    rfl
  | succ k ih =>
    have hbuf : (s.gotten p b l k).buf b =
        { s.buf b with count := ((s.buf b).count + k) % 256 } := Function.update_self _ _ _
    have hproc : (s.gotten p b l k).proc p =
        ⟨.idle, List.replicate k (l, b) ++ (s.proc p).held⟩ := Function.update_self _ _ _
    have hfind : (s.gotten p b l k).find l = some b := by
      have hlabels : (s.gotten p b l k).labels = s.labels :=
        (labels_update _ _ _).trans (Function.update_eq_self b s.labels)
      rw [← h.find, find, find, hlabels]
      rfl
    have hstep := exec_get (s := s.gotten p b l k) (p := p) ⟨h.panic, h.current, by rw [hproc],
      h.valid, hfind, by rw [hbuf]; exact h.label, by rw [hbuf]; exact h.lock⟩
    rw [gets, exec_append, ih]
    refine hstep.trans (congrArg some ?_)
    have hmod : (((s.buf b).count + k) % 256 + 1) % 256 = ((s.buf b).count + (k + 1)) % 256 := by
      omega
    rw [hold, setBuf, hbuf, hproc, gotten, gotten]
    simp only [Function.update_idem, hmod]
    rfl

/-- The event is no call of `free_block` or of `get_hash_table` by itself. -/
def Event.Plain : Event D N n → Bool
  | .call _ _ .free | .call _ _ .hash => false
  | _ => true

theorem plain_of_mem_gets {p : Fin n} {l : Label} {k : ℕ} {e : Event D N n}
    (he : e ∈ gets p l k) : e.Plain = true := by
  induction k with
  | zero => cases he
  | succ k ih =>
    rcases List.mem_append.mp he with he | he
    · exact ih he
    · simp only [List.mem_cons, List.not_mem_nil, or_false] at he
      rcases he with rfl | rfl | rfl <;> rfl

/-- The first of three processes gets hold of both buffers. -/
def holdBoth : List (Event ℕ 2 3) :=
  [1, 3].flatMap fun k => [.call 0 ⟨1, k⟩ (.get false), .run 0, .run 0, .run 0, .run 0]

/-- The state in which it does. -/
def bothHeld : State ℕ 2 3 :=
  (exec State.next (State.init (fun _ => 0) fun _ => 0) holdBoth).getD
    (State.init (fun _ => 0) fun _ => 0)

/-- Both buffers are changed. The second process takes the first one out of the queues, writes it,
and writes the other one. Meanwhile the first process changes the first buffer again, and the third
one has it written. -/
def submitTwice : List (Event ℕ 2 3) :=
  [.fill 0 0 5, .fill 0 255 6, .call 1 ⟨1, 2⟩ (.get true), .run 1, .run 1, .run 1, .run 1, .run 1,
    .disk 0, .intr 0, .run 1, .run 1, .run 1, .change 0 0 0 7, .sync 2, .run 2, .run 2, .disk 1,
    .intr 1, .run 1, .run 1]

/-- **A buffer is submitted twice.** A process has called `getblk` 256 times for a block. Its buffer
is recycled, and is locked when the process that recycles it calls `ll_rw_block`. -/
theorem submitted_twice : ∃ es s s',
    Runs (fun s e s' => State.next s e = some s')
      (State.init (fun _ => 0) fun _ => 0 : State ℕ 2 3) es s ∧
    (∀ e ∈ es, e.Plain = true) ∧ s.next (.run 1) = some s' ∧ s.submits (.run 1) = some 0 ∧
      s.locked 0 = true := by
  have hhold : exec State.next (State.init (fun _ => 0) fun _ => 0) holdBoth = some bothHeld := rfl
  have hgets : exec State.next bothHeld (gets 0 ⟨1, 1⟩ 255) =
      some (bothHeld.gotten 0 0 ⟨1, 1⟩ 255) := by
    obtain ⟨hpanic, hcurrent, hpc, hfind, hlabel, hlock, hcount⟩ : bothHeld.panic = none ∧
        bothHeld.current = none ∧ (bothHeld.proc 0).pc = .idle ∧ bothHeld.find ⟨1, 1⟩ = some 0 ∧
        (bothHeld.buf 0).label = ⟨1, 1⟩ ∧ (bothHeld.buf 0).lock = none ∧
        (bothHeld.buf 0).count < 256 := by decide +kernel
    exact State.exec_gets ⟨hpanic, hcurrent, hpc, by decide, hfind, hlabel, hlock⟩ hcount 255
  have htwice : ((exec State.next (bothHeld.gotten 0 0 ⟨1, 1⟩ 255) submitTwice).any fun s =>
      (s.next (.run 1)).isSome && s.submits (.run 1) = some 0 && s.locked 0) = true := by
    decide +kernel
  obtain ⟨s, hs, htwice⟩ := (Option.any_eq_true _ _).mp htwice
  rw [Bool.and_eq_true, Bool.and_eq_true] at htwice
  obtain ⟨⟨hnext, hsub⟩, hlocked⟩ := htwice
  obtain ⟨s', hs'⟩ := Option.isSome_iff_exists.mp hnext
  have hexec : exec State.next (State.init (fun _ => 0) fun _ => 0)
      (holdBoth ++ (gets 0 ⟨1, 1⟩ 255 ++ submitTwice)) = some s := by
    rw [exec_append, hhold, Option.bind_some, exec_append, hgets, Option.bind_some, hs]
  refine ⟨_, s, s', runs_of_exec hexec, fun e he => ?_, hs', of_decide_eq_true hsub, hlocked⟩
  rw [List.mem_reverse, List.mem_append, List.mem_append] at he
  have hplain : ∀ e ∈ holdBoth ++ submitTwice, e.Plain = true := by decide
  rcases he with he | he | he
  · exact hplain e (List.mem_append_left _ he)
  · exact plain_of_mem_gets he
  · exact hplain e (List.mem_append_right _ he)

end Linux001.BufferCache
