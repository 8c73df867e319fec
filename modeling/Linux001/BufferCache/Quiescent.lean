import Linux001.BufferCache.Alone
import Linux001.BufferCache.References

/-!
# States in which no buffer is recycled

Whenever all processes are outside of the functions of the cache, or at least none of them is
recycling a buffer, the cache is in a state from which a process can go on alone: its queues are
well formed, and a dirty buffer is up to date and belongs to a block of a device.

## Main definitions

* `State.toCache`: the cache of a state.
* `State.Reads`: a change of a buffer follows a read.

## Main results

* `sound_of_runs`: the cache is sound in all runs without wrapping counters.
-/

namespace Linux001.BufferCache

variable {D : Type*} {N n : ℕ} {s s' : State D N n} {p : Fin n}
  {c : Option ((Label × Fin N) × D)} {q : Queues N} {f : Fin N → Buf D} {pr : Proc N}

/-- The buffer heads, their queues and the disk. -/
def State.toCache (s : State D N n) : Cache D N := ⟨s.queues, s.buf, s.disk⟩

/-- A process that changes parts of a buffer has read its block, or filled it, before. -/
def State.Reads (s : State D N n) : Event D N n → Prop
  | .change _ q j _ => ∀ x ∈ (s.proc q).held[j]?, (s.buf x.2).uptodate = true
  | _ => True

instance (s : State D N n) : DecidablePred s.Reads
  | .change _ q j _ =>
    inferInstanceAs (Decidable (∀ x ∈ (s.proc q).held[j]?, (s.buf x.2).uptodate = true))
  | .run _ | .call _ _ _ | .sync _ | .brelse _ _ | .fill _ _ _ | .disk _ | .intr _ =>
    .isTrue trivial

/-- A dirty buffer is up to date and has a device, and so have all labels that processes know.
Counters are bytes. -/
structure Filled (s : State D N n) : Prop where
  uptodate : ∀ b, (s.buf b).dirt = true → (s.buf b).uptodate = true
  device : ∀ b, (s.buf b).dirt = true → (s.buf b).label.dev ≠ 0
  goal : ∀ p l u, (s.proc p).pc.goal = some (l, u) → l.dev ≠ 0
  held : ∀ p, ∀ x ∈ (s.proc p).held, x.1.dev ≠ 0
  count : ∀ b, (s.buf b).count < 256

/-- A process gets to know labels with a device only. -/
private theorem Trans.known (h : Trans s p c q f pr)
    (hgoal : ∀ l u, (s.proc p).pc.goal = some (l, u) → l.dev ≠ 0)
    (hheld : ∀ x ∈ (s.proc p).held, x.1.dev ≠ 0) :
    (∀ l u, pr.pc.goal = some (l, u) → l.dev ≠ 0) ∧ ∀ x ∈ pr.held, x.1.dev ≠ 0 := by
  have hgot {l : Label} {b : Fin N} (hl : l.dev ≠ 0) :
      ∀ x ∈ (l, b) :: (s.proc p).held, x.1.dev ≠ 0 := fun x hx => by
    rcases List.mem_cons.mp hx with rfl | hx
    · exact hl
    · exact hheld x hx
  cases h with
  | @move pc h =>
    refine ⟨?_, hheld⟩
    generalize (s.proc p).pc = pc₀ at h hgoal
    intro l u hl
    cases h with
    | call hdev =>
      obtain rfl := congrArg Prod.fst (Option.some.inj hl)
      exact hdev
    | @await r i => cases r <;> exact hgoal l u hl
    | @clean r i => cases r <;> exact hgoal l u hl
    | @written r i => cases r <;> exact hgoal l u hl
    | callSync | null | syncEnd | unread => cases hl
    | _ => exact hgoal l u hl
  | release => exact ⟨fun l u hl => (nomatch hl), fun x hx => hheld x (List.mem_of_mem_eraseIdx hx)⟩
  | use => exact ⟨hgoal, hheld⟩
  | hit hpc | read hpc | lost hpc =>
    rw [hpc] at hgoal
    exact ⟨hgoal, hheld⟩
  | hold hpc =>
    generalize (s.proc p).pc = pc at hpc hgoal
    refine ⟨fun l u hl => (nomatch hl), ?_⟩
    cases hpc with
    | _ => exact hgot (hgoal _ _ rfl)
  | leak | discard => exact ⟨fun l u hl => (nomatch hl), hheld⟩
  | take hpc _ _ hpc' =>
    rw [hpc] at hgoal
    refine ⟨?_, hheld⟩
    rcases hpc' with ⟨-, rfl⟩ | ⟨-, rfl⟩ <;> exact hgoal
  | @write r i hpc =>
    rw [hpc] at hgoal
    exact ⟨by cases r <;> exact hgoal, hheld⟩
  | won hpc =>
    rw [hpc] at hgoal
    exact ⟨fun l u hl => (nomatch hl), hgot (hgoal _ _ rfl)⟩
  | wonRead hpc hread =>
    rw [hpc] at hgoal
    refine ⟨fun l u hl => ?_, hheld⟩
    obtain rfl := congrArg Prod.fst (Option.some.inj hl)
    exact hgoal _ _ rfl
  | @put b r hpc =>
    rw [hpc] at hgoal
    refine ⟨?_, hheld⟩
    cases r with
    | none => exact fun l u hl => (nomatch hl)
    | some r => exact hgoal

/-- A buffer head is stored that is dirty only if the old one is. -/
private theorem Filled.store (hf : Filled s) {b b' : Fin N} {x : Buf D}
    (hx : x.dirt = true → x.label = (s.buf b').label ∧ x.uptodate = (s.buf b').uptodate ∧
      (s.buf b').dirt = true) (hd : (Function.update s.buf b' x b).dirt = true) :
    (Function.update s.buf b' x b).uptodate = true ∧
      (Function.update s.buf b' x b).label.dev ≠ 0 := by
  by_cases hb : b = b'
  · subst hb
    rw [Function.update_self] at hd ⊢
    obtain ⟨hlabel, hup, hd⟩ := hx hd
    rw [hlabel, hup]
    exact ⟨hf.uptodate b hd, hf.device b hd⟩
  · rw [Function.update_of_ne hb] at hd ⊢
    exact ⟨hf.uptodate b hd, hf.device b hd⟩

/-- A step that changes no data makes no buffer dirty. -/
private theorem Trans.dirty (h : Trans s p none q f pr) (hf : Filled s) {b : Fin N}
    (hdirt : (f b).dirt = true) : (f b).uptodate = true ∧ (f b).label.dev ≠ 0 := by
  cases h with
  | move | release | hold | leak => exact ⟨hf.uptodate b hdirt, hf.device b hdirt⟩
  | hit | read | take | write | put => exact hf.store (fun hd => ⟨rfl, rfl, hd⟩) hdirt
  | discard | lost | won | wonRead => exact hf.store (fun hd => (nomatch hd)) hdirt

/-- A counter is below 256 when a buffer head is stored that has such a counter. -/
private theorem Filled.store_count (hf : Filled s) {b : Fin N} {x : Buf D} (hx : x.count < 256)
    (b' : Fin N) : (Function.update s.buf b x b').count < 256 := by
  rw [Function.update_apply]
  split_ifs
  · exact hx
  · exact hf.count b'

/-- Counters are bytes. -/
private theorem Trans.count_lt (h : Trans s p c q f pr) (hf : Filled s) :
    ∀ b, (f b).count < 256 := by
  cases h with
  | move | release | hold | leak => exact hf.count
  | hit => exact hf.store_count (Nat.mod_lt _ (by decide))
  | take => exact hf.store_count (show 1 < 256 by decide)
  | lost => exact hf.store_count (show 0 < 256 by decide)
  | put => exact hf.store_count ((Nat.sub_le _ _).trans_lt (hf.count _))
  | _ => exact hf.store_count (hf.count _)

/-- The buffer of an event that changes data. -/
private theorem State.next_use {e : Event D N n} {y : (Label × Fin N) × D}
    (h : s.next e = some s') (hc : s.changes e = some y) (hreads : s.Reads e) :
    s'.buf = Function.update s.buf y.1.2
      { s.buf y.1.2 with data := y.2, uptodate := true, dirt := true } ∧
      ∃ q, y.1 ∈ (s.proc q).held := by
  cases e with
  | change p q j d | fill p j d =>
    obtain ⟨s₁, hact, rfl⟩ := State.next_act rfl h
    simp only [act] at hact
    split_ifs at hact
    obtain ⟨x, hx, rfl⟩ := Option.map_eq_some_iff.mp hact
    obtain ⟨x', hx', rfl⟩ := Option.map_eq_some_iff.mp hc
    obtain rfl := Option.some.inj (hx.symm.trans hx')
    refine ⟨?_, _, List.mem_of_getElem? hx⟩
    first
    | rw [← hreads x hx]; rfl
    | rfl
  | _ => cases hc

/-- Every step keeps the invariant, when processes read what they change. -/
theorem Filled.step {e : Event D N n} (hf : Filled s) (hs : Inv s)
    (hl : ∀ p, (s.proc p).Labelled s.labels) (hreads : s.Reads e) (h : s.next e = some s') :
    Filled s' := by
  rcases State.next_cases h with ⟨b, -, hdisk⟩ | ⟨p, -, -, hpanic | ⟨pr, htrans, hproc⟩⟩
  · obtain ⟨-, hproc, hbuf⟩ := hdisk.frame
    have hdirty : ∀ b', (s'.buf b').dirt = true →
        (s'.buf b').uptodate = true ∧ (s'.buf b').label.dev ≠ 0 := by
      obtain ⟨t, ht, ⟨-, -, rfl⟩ | ⟨-, -, rfl⟩ | ⟨-, rfl⟩⟩ := hdisk
      · exact fun b' hd => hf.store (fun hd => ⟨rfl, rfl, hd⟩) hd
      · exact fun b' hd => hf.store (fun hd => ⟨rfl, rfl, hd⟩) hd
      · exact fun b' hd => hf.store (fun hd => (nomatch hd)) hd
    refine ⟨fun b' hd => (hdirty b' hd).1, fun b' hd => (hdirty b' hd).2, fun p => ?_, fun p => ?_,
      fun b' => (hbuf b').2 ▸ hf.count b'⟩
    · rw [hproc]
      exact hf.goal p
    · rw [hproc]
      exact hf.held p
  · exact absurd hpanic hs.no_panic
  · obtain ⟨hgoal, hheld⟩ := htrans.known (hf.goal p) (hf.held p)
    have hdirty : ∀ b, (s'.buf b).dirt = true →
        (s'.buf b).uptodate = true ∧ (s'.buf b).label.dev ≠ 0 := by
      cases hc : s.changes e with
      | none =>
        rw [hc] at htrans
        exact fun b hd => htrans.dirty hf hd
      | some y =>
        obtain ⟨hbuf, q, hy⟩ := State.next_use h hc hreads
        intro b hd
        rw [hbuf] at hd ⊢
        by_cases hb : b = y.1.2
        · rw [hb, Function.update_self]
          refine ⟨rfl, ?_⟩
          rw [show (s.buf y.1.2).label = y.1.1 from (hl q).held y.1 hy]
          exact hf.held q y.1 hy
        · rw [Function.update_of_ne hb] at hd ⊢
          exact ⟨hf.uptodate b hd, hf.device b hd⟩
    refine ⟨fun b hd => (hdirty b hd).1, fun b hd => (hdirty b hd).2, fun p' => ?_, fun p' => ?_,
      htrans.count_lt hf⟩
    · rw [hproc, Function.update_apply]
      split_ifs
      · exact hgoal
      · exact hf.goal p'
    · rw [hproc, Function.update_apply]
      split_ifs
      · exact hheld
      · exact hf.held p'

/-- **Sound caches.** In every run in which no counter wraps around and processes read what they
change, with more buffer heads than processes, the cache is sound whenever no buffer is recycled,
and counters are bytes. -/
theorem sound_of_runs [NeZero N] {disk : Label → D} {data : Fin N → D} {es : List (Event D N n)}
    (hn : n < N)
    (h : Runs (fun s e s' => s.next e = some s' ∧ s.NoWrap e ∧ s.Reads e)
      (State.init disk data) es s)
    (hquiet : ∀ p, (s.proc p).pc.recycles = none) :
    s.toCache.Sound ∧ ∀ b, (s.buf b).count < 256 := by
  have hinv : (Inv s ∧ ∀ p, (s.proc p).Labelled s.labels) ∧ Filled s := by
    refine h.invariant
      (I := fun s => (Inv s ∧ ∀ p, (s.proc p).Labelled s.labels) ∧ Filled s) ?_
      ⟨labelled_of_runs .nil, fun b hd => (nomatch hd), fun b hd => (nomatch hd),
        fun p l u hl => (nomatch hl), fun p x hx => (nomatch hx), fun _ => show 0 < 256 by decide⟩
    rintro s e s' ⟨⟨hs, hl⟩, hf⟩ ⟨hnext, hwrap, hreads⟩
    exact ⟨⟨hs.step hwrap hnext, labelled_step hs hl hnext⟩, hf.step hs hl hreads hnext⟩
  have hformed : s.queues.Formed s.labels fun _ => False := by
    refine (queues_formed hn (h.mono fun _ _ _ hstep => ⟨hstep.1, hstep.2.1⟩)).congr
      (fun _ _ => rfl) fun b => ?_
    exact iff_of_false (fun hf => hf) fun ⟨p, hp⟩ => by simp [hquiet p] at hp
  refine ⟨⟨⟨fun b b' heq hdev => ?_, hinv.2.uptodate, hinv.2.device⟩, hformed⟩, hinv.2.count⟩
  exact hformed.unique b b' (fun hf => hf) (fun hf => hf) hdev heq

end Linux001.BufferCache
