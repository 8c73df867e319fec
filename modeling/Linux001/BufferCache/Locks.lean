import Linux001.BufferCache.Recycling

/-!
# Locked and recycled buffers

A buffer that is written stays dirty, and keeps its label, until the interrupt that ends the
transfer. A process that recycles a dirty buffer head calls `sync_dev`, and when that has passed the
buffer head it is neither dirty nor locked any more: no process refers to it, so that nothing makes
it dirty again. It is therefore clean and unlocked when it gets its new label.

## Main definitions

* `Pc.Passed`: what a process that recycles a buffer head knows about it.
* `Settled`: the invariant.

## Main results

* `Settled.step`: the invariant is kept.
-/

namespace Linux001.BufferCache

variable {D : Type*} {N n : ℕ} {s s' : State D N n} {p : Fin n}
  {c : Option ((Label × Fin N) × D)} {q : Queues N} {f : Fin N → Buf D} {pr : Proc N}

/-- The buffer is neither locked nor dirty. -/
def Buf.Quiet (x : Buf D) : Prop := x.lock = none ∧ x.dirt = false

/-- The loop of `sync_dev` writes the device of the buffer head that is recycled, and has made the
buffer quiet if it has passed it. -/
def Recycle.Passed (r : Recycle N) (f : Fin N → Buf D) (i : ℕ) : Prop :=
  r.dev = (f r.tmp).label.dev ∧ (r.tmp < i → (f r.tmp).Quiet)

/-- What a process that recycles a buffer head knows about it. -/
def Pc.Passed (f : Fin N → Buf D) : Pc N → Prop
  | .sync (some r) i => r.Passed f i
  | .syncWait (some r) i => r.Passed f i
  | .syncWrite (some r) i =>
    r.Passed f i ∧ (r.tmp = i → (f i).lock = none → (f i).dirt = false)
  | .relabel r => (f r.tmp).Quiet
  | _ => True

/-- What holds of locked buffers and of recycled buffer heads. -/
structure Settled (s : State D N n) : Prop where
  label : ∀ b t, (s.buf b).lock = some t → t.label = (s.buf b).label
  dirt : ∀ b t, (s.buf b).lock = some t → t.write = true → (s.buf b).dirt = true
  passed : ∀ p, (s.proc p).pc.Passed s.buf

/-- The position knows nothing when it recycles nothing. -/
theorem Pc.passed_of_none {pc : Pc N} (h : pc.recycles = none) : pc.Passed f := by
  cases pc with
  | sync r _ | syncWait r _ | syncWrite r _ =>
    cases r with
    | none => exact trivial
    | some r => simp [recycles] at h
  | relabel r => simp [recycles] at h
  | _ => exact trivial

/-- What a process knows about a buffer head depends on its label, its lock and its dirty mark
alone. -/
theorem Pc.Passed.congr {f f' : Fin N → Buf D} {pc : Pc N} (h : pc.Passed f)
    (hf : ∀ b, pc.recycles = some b → (f' b).label = (f b).label ∧
      ((f b).Quiet → (f' b).Quiet) ∧
      (((f b).lock = none → (f b).dirt = false) → (f' b).lock = none → (f' b).dirt = false)) :
    pc.Passed f' := by
  have hpassed : ∀ {r : Recycle N} {i : ℕ}, pc.recycles = some r.tmp → r.Passed f i →
      r.Passed f' i := by
    rintro r i hr ⟨hdev, hquiet⟩
    obtain ⟨hlabel, hq, -⟩ := hf r.tmp hr
    exact ⟨by rw [hlabel]; exact hdev, fun hi => hq (hquiet hi)⟩
  cases pc with
  | sync r i | syncWait r i =>
    cases r with
    | none => exact trivial
    | some r => exact hpassed rfl h
  | syncWrite r i =>
    cases r with
    | none => exact trivial
    | some r =>
      refine ⟨hpassed rfl h.1, ?_⟩
      rintro rfl
      exact (hf r.tmp rfl).2.2 (h.2 rfl)
  | relabel r => exact (hf r.tmp rfl).2.1 h
  | _ => exact trivial

/-- A buffer head that another process recycles is left as it is, or a dirty one is written. -/
theorem Trans.buf_cases (h : Trans s p c q f pr) (hs : Inv s) {b : Fin N} {p' : Fin n}
    (hne : p' ≠ p)
    (hb : (s.proc p').pc.recycles = some b) :
    f b = s.buf b ∨ (s.buf b).lock = none ∧ (s.buf b).dirt = true ∧
      f b = { s.buf b with lock := some ⟨true, (s.buf b).label, false⟩ } := by
  have hother : ∀ {c : Fin N} {x : Buf D}, b ≠ c → Function.update s.buf c x b = s.buf b ∨
      (s.buf b).lock = none ∧ (s.buf b).dirt = true ∧ Function.update s.buf c x b =
        { s.buf b with lock := some ⟨true, (s.buf b).label, false⟩ } :=
    fun hbc => .inl (Function.update_of_ne hbc _ _)
  have href : (s.proc p).pc.ref ≠ some b := fun hr =>
    hs.not_mem_refs hb hne.symm (by simp [Proc.refs, hr])
  have hout : s.out b := ⟨p', hb⟩
  cases h with
  | move | release | hold | leak => exact .inl rfl
  | use hpc hx => exact hother fun hbx => hs.not_held hout hx hbx.symm
  | @hit c l u hpc hf =>
    refine hother fun hbc => hs.not_out_of_hit (p := p) (b := c) ?_ (hbc ▸ hout)
    simp [State.hits, hpc, hf]
  | read hpc | discard hpc | lost hpc | won hpc | wonRead hpc | put hpc =>
    exact hother fun hbc => href (by rw [hpc, hbc]; rfl)
  | take hpc hlock hcount => exact hother fun hbt => hs.not_out_of_count hcount (hbt ▸ hout)
  | @write r i hpc hlock hdirt =>
    by_cases hbi : b = i
    · subst hbi
      exact .inr ⟨hlock, hdirt, Function.update_self _ _ _⟩
    · exact hother hbi

namespace Settled

/-- What a process that recycles a buffer head knows after a step of its own. -/
private theorem passed_self (hs : Settled s) (h : Trans s p c q f pr) : pr.pc.Passed f := by
  have hself := hs.passed p
  cases h with
  | @move pc h =>
    generalize hpc : (s.proc p).pc = pc₀ at h hself
    cases h with
    | @synced r i hi => exact hself.2 (r.tmp.isLt.trans_le hi)
    | @skip r i hdev =>
      refine ⟨hself.1, fun hi => hself.2 ?_⟩
      have hne : r.tmp ≠ i := fun heq => hdev (by rw [← heq]; exact hself.1.symm)
      have hval : (r.tmp : ℕ) ≠ i := fun heq => hne (Fin.ext heq)
      omega
    | @await r i => cases r <;> exact hself
    | @clean r i hlock hdirt =>
      cases r with
      | none => exact trivial
      | some r =>
        refine ⟨hself.1, fun hi => ?_⟩
        by_cases heq : r.tmp = i
        · rw [heq]
          exact ⟨hlock, hdirt⟩
        · have hval : (r.tmp : ℕ) ≠ i := fun h => heq (Fin.ext h)
          exact hself.2 (by omega)
    | @written r i hlock =>
      cases r with
      | none => exact trivial
      | some r =>
        refine ⟨hself.1.1, fun hi => ?_⟩
        by_cases heq : r.tmp = i
        · rw [heq]
          exact ⟨hlock, hself.2 heq hlock⟩
        · have hval : (r.tmp : ℕ) ≠ i := fun h => heq (Fin.ext h)
          exact hself.1.2 (by omega)
    | _ => exact trivial
  | use hpc => exact Pc.passed_of_none (by rw [hpc]; rfl)
  | @take t l read pc hpc hlock hcount hpc' =>
    rcases hpc' with ⟨-, rfl⟩ | ⟨hdirt, rfl⟩
    · refine ⟨?_, fun hi => absurd hi (Nat.not_lt_zero _)⟩
      rw [Function.update_self]
    · change (Function.update s.buf t _ t).Quiet
      rw [Function.update_self]
      exact ⟨hlock, hdirt⟩
  | @write r i hpc hlock hdirt =>
    rw [hpc] at hself
    cases r with
    | none => exact trivial
    | some r =>
      have hlabel : (Function.update s.buf i { s.buf i with
          lock := some ⟨true, (s.buf i).label, false⟩ } r.tmp).label = (s.buf r.tmp).label := by
        rw [Function.update_apply]
        split_ifs with heq
        · rw [heq]
        · rfl
      refine ⟨⟨by rw [hlabel]; exact hself.1, fun hi => ?_⟩, fun heq hnone => ?_⟩
      · have hne : r.tmp ≠ i := fun h => absurd (congrArg Fin.val h) (by omega)
        rw [Function.update_of_ne hne]
        exact hself.2 hi
      · rw [Function.update_self] at hnone
        simp at hnone
  | @put b r => exact Pc.passed_of_none (by cases r <;> rfl)
  | release | hit | hold | read | leak | discard | lost | won | wonRead => exact trivial

private theorem lock_trans (hs : Settled s) (h : Trans s p c q f pr) (b : Fin N) (t : Transfer)
    (ht : (f b).lock = some t) :
    t.label = (f b).label ∧ (t.write = true → (f b).dirt = true) := by
  have hself := hs.passed p
  -- A store to one buffer head: the others are as they were.
  have hupd : ∀ {c : Fin N} {x : Buf D}, (Function.update s.buf c x b).lock = some t →
      (x.lock = some t → t.label = x.label ∧ (t.write = true → x.dirt = true)) →
      t.label = (Function.update s.buf c x b).label ∧
        (t.write = true → (Function.update s.buf c x b).dirt = true) := by
    intro c x hl hx
    rw [Function.update_apply] at hl ⊢
    split_ifs at hl ⊢ with hbc
    · exact hx hl
    · exact ⟨hs.label b t hl, hs.dirt b t hl⟩
  have hnone : ∀ {x : Buf D} {P : Prop}, x.lock = none → x.lock = some t → P := fun h h' =>
    absurd (h.symm.trans h') (by simp)
  cases h with
  | move | release | hold | leak => exact ⟨hs.label b t ht, hs.dirt b t ht⟩
  | use => exact hupd ht fun hl => ⟨hs.label _ t hl, fun _ => rfl⟩
  | hit | take | put => exact hupd ht fun hl => ⟨hs.label _ t hl, hs.dirt _ t hl⟩
  | read hpc hlock hl hup =>
    refine hupd ht fun hl' => ?_
    obtain rfl := Option.some.inj hl'
    exact ⟨hl.symm, fun h => absurd h (by simp)⟩
  | discard hpc hlock => exact hupd ht fun hl => hnone hlock hl
  | write hpc hlock hdirt =>
    refine hupd ht fun hl' => ?_
    obtain rfl := Option.some.inj hl'
    exact ⟨rfl, fun _ => hdirt⟩
  | lost hpc | won hpc =>
    rw [hpc] at hself
    exact hupd ht fun hl => hnone hself.1 hl
  | wonRead hpc =>
    refine hupd ht fun hl' => ?_
    obtain rfl := Option.some.inj hl'
    exact ⟨rfl, fun h => absurd h (by simp)⟩

/-- Every step of a process keeps the invariant. -/
theorem trans (hs : Settled s) (hinv : Inv s) (h : Trans s p c s'.queues s'.buf pr)
    (hproc : s'.proc = Function.update s.proc p pr) : Settled s' := by
  refine ⟨fun b t ht => (hs.lock_trans h b t ht).1, fun b t ht => (hs.lock_trans h b t ht).2,
    fun p' => ?_⟩
  rw [hproc]
  by_cases hne : p' = p
  · subst hne
    rw [Function.update_self]
    exact hs.passed_self h
  · rw [Function.update_of_ne hne]
    refine (hs.passed p').congr fun b hb => ?_
    rcases h.buf_cases hinv hne hb with heq | ⟨hlock, hdirt, heq⟩
    · rw [heq]
      exact ⟨rfl, id, id⟩
    · rw [heq]
      refine ⟨rfl, fun hq => absurd (hq.2.symm.trans hdirt) (by simp), fun _ h => ?_⟩
      simp at h

/-- Every step of the disk keeps the invariant. -/
theorem transferred (hs : Settled s) {b : Fin N} (h : s.Transferred b s') : Settled s' := by
  obtain ⟨y, hbuf, hproc, hlabel, hy⟩ : ∃ y, s'.buf = Function.update s.buf b y ∧
      s'.proc = s.proc ∧ y.label = (s.buf b).label ∧
      ((∃ t, (s.buf b).lock = some t ∧ y.lock = some { t with taken := true } ∧
        y.dirt = (s.buf b).dirt) ∨ y.Quiet) := by
    obtain ⟨t, ht, ⟨-, -, rfl⟩ | ⟨-, -, rfl⟩ | ⟨-, rfl⟩⟩ := h
    · exact ⟨_, rfl, rfl, rfl, .inl ⟨t, ht, rfl, rfl⟩⟩
    · exact ⟨_, rfl, rfl, rfl, .inl ⟨t, ht, rfl, rfl⟩⟩
    · exact ⟨_, rfl, rfl, rfl, .inr ⟨rfl, rfl⟩⟩
  have hlock : ∀ c t, (s'.buf c).lock = some t →
      t.label = (s'.buf c).label ∧ (t.write = true → (s'.buf c).dirt = true) := by
    intro c t hc
    rw [hbuf, Function.update_apply] at hc ⊢
    split_ifs at hc ⊢ with hcb
    · rcases hy with ⟨t', ht', hy, hd⟩ | ⟨hy, -⟩
      · obtain rfl := Option.some.inj (hy.symm.trans hc)
        exact ⟨(hs.label b t' ht').trans hlabel.symm, fun hw => hd.trans (hs.dirt b t' ht' hw)⟩
      · exact absurd (hy.symm.trans hc) (by simp)
    · exact ⟨hs.label c t hc, hs.dirt c t hc⟩
  refine ⟨fun c t hc => (hlock c t hc).1, fun c t hc => (hlock c t hc).2, fun p' => ?_⟩
  rw [hproc, hbuf]
  refine (hs.passed p').congr fun c _ => ?_
  rw [Function.update_apply]
  split_ifs with hcb
  · subst hcb
    refine ⟨hlabel, ?_⟩
    rcases hy with ⟨t, ht, hy, -⟩ | hquiet
    · refine ⟨fun hq => absurd (hq.1.symm.trans ht) (by simp), fun _ hnone => ?_⟩
      exact absurd (hnone.symm.trans hy) (by simp)
    · exact ⟨fun _ => hquiet, fun _ _ => hquiet.2⟩
  · exact ⟨rfl, id, id⟩

/-- Every step keeps the invariant. -/
theorem step {e : Event D N n} (hs : Settled s) (hinv : Inv s) (h : s.next e = some s') :
    Settled s' := by
  rcases State.next_cases h with ⟨b, -, hdisk⟩ | ⟨p, -, -, hpanic | ⟨pr, htrans, hproc⟩⟩
  · exact hs.transferred hdisk
  · exact absurd hpanic hinv.no_panic
  · exact hs.trans hinv htrans hproc

theorem init [NeZero N] (disk : Label → D) (data : Fin N → D) :
    Settled (State.init disk data : State D N n) := by
  refine ⟨fun b t ht => ?_, fun b t ht => ?_, fun p => trivial⟩
  · simp [State.init] at ht
  · simp [State.init] at ht

end Settled

end Linux001.BufferCache
