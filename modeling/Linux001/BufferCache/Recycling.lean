import Linux001.BufferCache.Processes
import Linux001.Lib.Counting

/-!
# The queues stay well formed

A buffer head is taken out of the queues when its counter is zero, and its counter is one until it
is put back. As long as `b_count`, which has eight bits, does not wrap around, it is at least the
number of references to the buffer, so that a process that recycles a buffer head is the only one to
refer to it, and the queues contain all the others.

## Main definitions

* `Proc.refs`: the references of a process.
* `State.NoWrap`: the step does not make a counter wrap around.
* `Inv`: the invariant of runs in which none does.

## Main results

* `Inv.step`: the invariant is kept.
* `queues_formed`: in such runs the queues are well formed.
* `queues_not_formed`: in other runs they may be damaged.
-/

namespace Linux001.BufferCache

/-- The buffer head that a position refers to. -/
def Pc.ref {N : ℕ} : Pc N → Option (Fin N)
  | .hashWait b _ _ | .readWait b _ | .brelse b _ => some b
  | .sync (some r) _ | .syncWait (some r) _ | .syncWrite (some r) _ | .relabel r => some r.tmp
  | _ => none

/-- The buffer head that a process at this position recycles: it has taken it out of the queues and
not yet put it back. -/
def Pc.recycles {N : ℕ} : Pc N → Option (Fin N)
  | .sync (some r) _ | .syncWait (some r) _ | .syncWrite (some r) _ | .relabel r => some r.tmp
  | _ => none

/-- The buffer heads that a process refers to. -/
def Proc.refs {N : ℕ} (pr : Proc N) : List (Fin N) := pr.pc.ref.toList ++ pr.held.map Prod.snd

/-- The position is in `free_block`. -/
def Pc.frees {N : ℕ} : Pc N → Prop
  | .hashWait _ _ .free => True
  | _ => False

variable {D : Type*} {N n : ℕ} {s s' : State D N n} {p : Fin n}
  {c : Option ((Label × Fin N) × D)} {q : Queues N} {f : Fin N → Buf D} {pr : Proc N}

/-- The buffer heads outside of the queues. -/
def State.out (s : State D N n) (b : Fin N) : Prop := ∃ p, (s.proc p).pc.recycles = some b

/-- The buffer whose counter the next step of a process raises. -/
def State.hits (s : State D N n) (p : Fin n) : Option (Fin N) :=
  match (s.proc p).pc with
  | .find l _ => s.find l
  | _ => none

/-- The label that the next step of a process gives to a buffer head. -/
def State.relabels (s : State D N n) (p : Fin n) : Option Label :=
  match (s.proc p).pc with
  | .relabel r => some r.label
  | _ => none

/-- The event does not make a counter wrap around. -/
def State.NoWrap (s : State D N n) (e : Event D N n) : Prop :=
  ∀ p ∈ e.proc, ∀ b ∈ s.hits p, (s.buf b).count < 255

instance (s : State D N n) : DecidablePred s.NoWrap := fun e =>
  inferInstanceAs (Decidable (∀ p ∈ e.proc, ∀ b ∈ s.hits p, (s.buf b).count < 255))

theorem Pc.ref_of_recycles {pc : Pc N} {b : Fin N} (h : pc.recycles = some b) :
    pc.ref = some b := by
  cases pc with
  | sync r _ | syncWait r _ | syncWrite r _ => cases r <;> simp_all [recycles, ref]
  | relabel r => exact h
  | _ => simp [recycles] at h

theorem Proc.mem_refs_of_recycles {b : Fin N} (h : pr.pc.recycles = some b) : b ∈ pr.refs := by
  simp [refs, Pc.ref_of_recycles h]

/-- A step that only moves a process keeps its references. -/
theorem Moves.ref_eq {pc pc' : Pc N} (h : Moves s pc pc') :
    pc'.ref = pc.ref ∧ pc'.recycles = pc.recycles := by
  cases h with
  | @await r i => cases r <;> exact ⟨rfl, rfl⟩
  | @clean r i => cases r <;> exact ⟨rfl, rfl⟩
  | @written r i => cases r <;> exact ⟨rfl, rfl⟩
  | _ => exact ⟨rfl, rfl⟩

/-! ### Counting references -/

/-- The references of the process that takes a step have changed with the counter of every buffer,
up to what `free_block` leaves behind. -/
def Balanced (s : State D N n) (p : Fin n) (f : Fin N → Buf D) (pr : Proc N) (b : Fin N) : Prop :=
  ∃ k, (f b).count + (s.proc p).refs.count b = (s.buf b).count + pr.refs.count b + k ∧
    (k ≠ 0 → (s.proc p).pc.frees)

private theorem balanced_of_same {f : Fin N → Buf D} (hf : ∀ b, (f b).count = (s.buf b).count)
    (href : pr.pc.ref = (s.proc p).pc.ref) (hheld : pr.held = (s.proc p).held) (b : Fin N) :
    Balanced s p f pr b := by
  refine ⟨0, ?_, fun h => absurd rfl h⟩
  rw [hf, Proc.refs, Proc.refs, href, hheld, Nat.add_zero]

/-- A store that leaves the counter of a buffer head as it is. -/
private theorem count_update {c : Fin N} {x : Buf D} (hx : x.count = (s.buf c).count) (b : Fin N) :
    (Function.update s.buf c x b).count = (s.buf b).count := by
  rw [Function.update_apply]
  split_ifs with hbc
  · rw [hx, hbc]
  · rfl

/-- A process lets go of the buffer head `c`, or takes hold of it, and its counter follows. -/
private theorem balanced_of_change {c : Fin N} {x : Buf D} {refs : List (Fin N)}
    (h : x.count + (s.proc p).refs.count c = (s.buf c).count + pr.refs.count c)
    (hold : (s.proc p).refs = refs ∨ (s.proc p).refs = c :: refs)
    (hnew : pr.refs = refs ∨ pr.refs = c :: refs) (b : Fin N) :
    Balanced s p (Function.update s.buf c x) pr b := by
  refine ⟨0, ?_, fun h => absurd rfl h⟩
  rw [Nat.add_zero, Function.update_apply]
  split_ifs with hbc
  · rw [hbc]
    exact h
  · have hcons : (c :: refs).count b = refs.count b := List.count_cons_of_ne (Ne.symm hbc)
    have h₁ : (s.proc p).refs.count b = refs.count b := by
      rcases hold with hold | hold
      · rw [hold]
      · rw [hold, hcons]
    have h₂ : pr.refs.count b = refs.count b := by
      rcases hnew with hnew | hnew
      · rw [hnew]
      · rw [hnew, hcons]
    rw [h₁, h₂]

theorem Trans.balanced (h : Trans s p c q f pr) (hwrap : ∀ b ∈ s.hits p, (s.buf b).count < 255)
    (hone : ∀ b, (s.proc p).pc.recycles = some b → (s.buf b).count = 1) (b : Fin N) :
    Balanced s p f pr b := by
  have hrefs : ∀ {pc}, (s.proc p).pc = pc →
      (s.proc p).refs = pc.ref.toList ++ (s.proc p).held.map Prod.snd := by
    rintro pc rfl
    rfl
  cases h with
  | @move pc h =>
    refine balanced_of_same (fun _ => ?_) ?_ ?_ b
    · rfl
    · exact h.ref_eq.1
    · rfl
  | @release j x hpc hx =>
    obtain ⟨hj, rfl⟩ := List.getElem?_eq_some_iff.mp hx
    have hperm := ((List.getElem_cons_eraseIdx_perm hj).map Prod.snd).count_eq b
    refine ⟨0, ?_, fun h => absurd rfl h⟩
    rw [hrefs hpc]
    simp only [Proc.refs, Pc.ref, Option.toList_none, Option.toList_some, List.nil_append,
      List.singleton_append, Nat.add_zero]
    rw [← hperm, List.map_cons]
  | use hpc hx hup => exact balanced_of_same (count_update (by rfl)) rfl rfl b
  | @hit c l u hpc hf =>
    have hc : c ∈ s.hits p := by simp [State.hits, hpc, hf]
    refine balanced_of_change ?_ (.inl (hrefs hpc)) (.inr rfl) b
    rw [hrefs hpc, Nat.mod_eq_of_lt (by have := hwrap c hc; omega)]
    simp only [Proc.refs, Pc.ref, Option.toList_none, Option.toList_some, List.nil_append,
      List.singleton_append, List.count_cons_self]
    omega
  | @hold c l hpc hlock =>
    refine ⟨0, ?_, fun h => absurd rfl h⟩
    have href : (s.proc p).pc.ref = some c := by
      generalize (s.proc p).pc = pc at hpc
      cases hpc <;> rfl
    simp only [Proc.refs, href]
    rfl
  | read hpc | discard hpc =>
    refine balanced_of_same (count_update ?_) ?_ ?_ b
    · rfl
    · rw [hpc]
      rfl
    · rfl
  | @leak c l hpc =>
    refine ⟨if b = c then 1 else 0, ?_, fun _ => by simp [hpc, Pc.frees]⟩
    rw [hrefs hpc]
    simp only [Proc.refs, Pc.ref, Option.toList_none, Option.toList_some, List.nil_append,
      List.singleton_append, List.count_cons, beq_iff_eq, eq_comm (a := c)]
    omega
  | @take t l read pc hpc hlock hcount hpc' =>
    have href : pc.ref = some t := by
      rcases hpc' with ⟨-, rfl⟩ | ⟨-, rfl⟩ <;> rfl
    have hnew : (⟨pc, (s.proc p).held⟩ : Proc N).refs = t :: (s.proc p).held.map Prod.snd := by
      simp only [Proc.refs, href]
      rfl
    refine balanced_of_change ?_ (.inl (hrefs hpc)) (.inr hnew) b
    rw [hrefs hpc, hnew]
    simp only [Pc.ref, Option.toList_none, List.nil_append, List.count_cons_self, hcount]
    omega
  | @write r i hpc =>
    refine balanced_of_same (count_update ?_) ?_ ?_ b
    · rfl
    · rw [hpc]
      cases r <;> rfl
    · rfl
  | @lost r hpc =>
    refine balanced_of_change ?_ (.inr (hrefs hpc)) (.inl rfl) b
    rw [hrefs hpc]
    simp only [Proc.refs, Pc.ref, Option.toList_none, Option.toList_some, List.nil_append,
      List.singleton_append, List.count_cons_self, hone r.tmp (by rw [hpc]; rfl)]
    omega
  | @won r hpc | @wonRead r hpc =>
    refine balanced_of_change ?_ (.inr (hrefs hpc)) (.inr rfl) b
    rw [hrefs hpc]
    rfl
  | @put c r hpc hlock hcount =>
    have hnew : (⟨State.afterBrelse r, (s.proc p).held⟩ : Proc N).refs =
        (s.proc p).held.map Prod.snd := by
      cases r <;> rfl
    refine balanced_of_change ?_ (.inr (hrefs hpc)) (.inl hnew) b
    rw [hrefs hpc, hnew]
    simp only [Pc.ref, Option.toList_some, List.singleton_append, List.count_cons_self]
    omega

/-! ### The invariant -/

/-- What holds in runs in which no counter wraps around. -/
structure Inv (s : State D N n) : Prop where
  hashed : s.queues.Hashed s.labels s.out
  refs : ∀ b, ∑ q, (s.proc q).refs.count b ≤ (s.buf b).count
  recycled : ∀ p b, (s.proc p).pc.recycles = some b → (s.buf b).count = 1

/-- What a step does to the queues: nothing, or a buffer head without references is taken out, or a
recycled one is put back under a new label. -/
theorem Trans.queue_cases (h : Trans s p c q f pr) :
    (q = s.queues ∧ (fun b => (f b).label) = s.labels ∧
      pr.pc.recycles = (s.proc p).pc.recycles) ∨
    (∃ t, (s.proc p).pc.recycles = none ∧ (s.buf t).count = 0 ∧
      q = s.queues.remove (s.labels t) t ∧ (fun b => (f b).label) = s.labels ∧
      pr.pc.recycles = some t) ∨
    ∃ t l, (s.proc p).pc.recycles = some t ∧ q = s.queues.insert l t ∧
      (fun b => (f b).label) = Function.update s.labels t l ∧ pr.pc.recycles = none ∧
      (l.dev = 0 ∨ s.relabels p = some l ∧
        s.queues.find (Function.update s.labels t l) l = none) := by
  have hlabels : ∀ (b : Fin N) (x : Buf D), x.label = s.labels b →
      (fun c => (Function.update s.buf b x c).label) = s.labels := fun b x hx => by
    rw [State.labels_update, hx]
    exact Function.update_eq_self b s.labels
  cases h with
  | move h => exact .inl ⟨rfl, rfl, h.ref_eq.2⟩
  | release hpc | leak hpc => exact .inl ⟨rfl, rfl, by rw [hpc]; rfl⟩
  | use => exact .inl ⟨rfl, hlabels _ _ rfl, rfl⟩
  | hit hpc | read hpc | discard hpc => exact .inl ⟨rfl, hlabels _ _ rfl, by rw [hpc]; rfl⟩
  | hold hpc =>
    refine .inl ⟨rfl, rfl, ?_⟩
    generalize (s.proc p).pc = pc at hpc
    cases hpc <;> rfl
  | @take t l read pc hpc hlock hcount hpc' =>
    refine .inr (.inl ⟨t, by rw [hpc]; rfl, hcount, rfl, hlabels _ _ rfl, ?_⟩)
    rcases hpc' with ⟨-, rfl⟩ | ⟨-, rfl⟩ <;> rfl
  | @write r i hpc | @put b r hpc =>
    refine .inl ⟨rfl, hlabels _ _ rfl, ?_⟩
    rw [hpc]
    cases r <;> rfl
  | @lost r hpc =>
    exact .inr (.inr ⟨r.tmp, ⟨0, 0⟩, by rw [hpc]; rfl, rfl, State.labels_update _ _ _,
      rfl, .inl rfl⟩)
  | @won r hpc _ hf | @wonRead r hpc _ hf =>
    exact .inr (.inr ⟨r.tmp, r.label, by rw [hpc]; rfl, rfl, State.labels_update _ _ _, rfl,
      .inr ⟨by simp [State.relabels, hpc], hf⟩⟩)

/-- A counter that a step changes is that of a buffer that is found, or that the process refers to,
or that has no reference. -/
theorem Trans.count_eq (h : Trans s p c q f pr) {b : Fin N} (hb : b ∉ (s.proc p).refs)
    (hcount : (s.buf b).count ≠ 0) (hhit : s.hits p ≠ some b) :
    (f b).count = (s.buf b).count := by
  have hne : ∀ {c : Fin N} {x : Buf D}, b ≠ c → (Function.update s.buf c x b).count =
      (s.buf b).count := fun hbc => by rw [Function.update_of_ne hbc]
  have href : (s.proc p).pc.ref ≠ some b := fun hr => hb (by simp [Proc.refs, hr])
  cases h with
  | move | release | hold | leak => rfl
  | use | read | discard | write => exact count_update (by rfl) b
  | @hit c l u hpc hf =>
    refine hne fun hbc => hhit ?_
    rw [hbc]
    simp [State.hits, hpc, hf]
  | take hpc hlock hzero => exact hne fun hbt => hcount (hbt ▸ hzero)
  | lost hpc | won hpc | wonRead hpc | put hpc => exact hne fun hbc => href (by rw [hpc, hbc]; rfl)

/-- A buffer head that a process recycles was recycled before, or has been taken with this step. -/
theorem Trans.recycles_new (h : Trans s p c q f pr) {b : Fin N} (hb : pr.pc.recycles = some b) :
    (f b).count = 1 ∨ (s.proc p).pc.recycles = some b ∧ (f b).count = (s.buf b).count := by
  have hnone : ∀ {pc : Pc N}, pc.recycles = some b → pc.recycles = none → False := fun h h' =>
    absurd (h.symm.trans h') (by simp)
  cases h with
  | move h => exact .inr ⟨h.ref_eq.2.symm.trans hb, rfl⟩
  | use => exact .inr ⟨hb, count_update (by rfl) b⟩
  | @take t l read pc hpc hlock hcount hpc' =>
    have ht : pc.recycles = some t := by
      rcases hpc' with ⟨-, rfl⟩ | ⟨-, rfl⟩ <;> rfl
    obtain rfl := Option.some.inj (hb.symm.trans ht)
    exact .inl (by rw [Function.update_self])
  | @write r i hpc =>
    refine .inr ⟨?_, count_update (by rfl) b⟩
    rw [hpc]
    cases r with
    | none => exact (hnone hb rfl).elim
    | some r => exact hb
  | @put c r hpc =>
    cases r <;> exact (hnone hb rfl).elim
  | release | hit | hold | read | leak | discard | lost | won | wonRead =>
    exact (hnone hb rfl).elim

namespace Inv

/-- A buffer that is found is in the queues. -/
theorem not_out_of_hit (h : Inv s) {b : Fin N} (hb : s.hits p = some b) : ¬ s.out b := by
  unfold State.hits at hb
  cases hpc : (s.proc p).pc <;> rw [hpc] at hb <;> simp only [reduceCtorEq] at hb
  exact (h.hashed.find_eq_some hb).1

theorem one_le (h : Inv s) {b : Fin N} (hb : b ∈ (s.proc p).refs) : 1 ≤ (s.buf b).count :=
  (List.count_pos_iff.mpr hb).trans_le ((Finset.single_le_sum
    (f := fun p => (s.proc p).refs.count b) (fun _ _ => Nat.zero_le _)
      (Finset.mem_univ p)).trans (h.refs b))

/-- No other process refers to a buffer head that is recycled. -/
theorem not_mem_refs (h : Inv s) {b : Fin N} (hb : (s.proc p).pc.recycles = some b) {p' : Fin n}
    (hne : p' ≠ p) : b ∉ (s.proc p').refs := by
  intro hmem
  have hp := List.count_pos_iff.mpr (Proc.mem_refs_of_recycles hb)
  have hp' := List.count_pos_iff.mpr hmem
  have hle := add_le_sum_of_ne (fun p => (s.proc p).refs.count b) hne
  have hrefs := h.refs b
  have hone := h.recycled p b hb
  omega

/-- A recycled buffer head is not held by any process. -/
theorem not_held (h : Inv s) {b : Fin N} (hb : s.out b) {p' : Fin n} {x : Label × Fin N}
    (hx : x ∈ (s.proc p').held) : x.2 ≠ b := by
  rintro rfl
  obtain ⟨p, hp⟩ := hb
  have hmem : x.2 ∈ (s.proc p').held.map Prod.snd := List.mem_map_of_mem hx
  by_cases hne : p' = p
  · subst hne
    have hcount : 2 ≤ (s.proc p').refs.count x.2 := by
      have hpos := List.count_pos_iff.mpr hmem
      rw [Proc.refs, Pc.ref_of_recycles hp]
      simp only [Option.toList_some, List.singleton_append, List.count_cons_self]
      omega
    have hle := Finset.single_le_sum (f := fun p => (s.proc p).refs.count x.2)
      (fun _ _ => Nat.zero_le _) (Finset.mem_univ p')
    have hrefs := h.refs x.2
    have hone := h.recycled p' x.2 hp
    omega
  · exact h.not_mem_refs hp hne (List.mem_append_right _ hmem)

theorem not_out_of_count (h : Inv s) {b : Fin N} (hb : (s.buf b).count = 0) : ¬ s.out b := by
  rintro ⟨p, hp⟩
  have hone := h.recycled p b hp
  omega

end Inv

/-- A step of a process leaves the labels of the buffers that others refer to. -/
theorem Trans.label_eq (h : Trans s p c q f pr) (hinv : Inv s) {p' : Fin n} (hne : p' ≠ p)
    {b : Fin N} (hb : b ∈ (s.proc p').refs) : (f b).label = (s.buf b).label := by
  rcases h.queue_cases with ⟨-, hl, -⟩ | ⟨t, -, -, -, hl, -⟩ | ⟨t, l, hr, -, hl, -⟩
  · exact congrFun hl b
  · exact congrFun hl b
  · refine (congrFun hl b).trans (Function.update_of_ne (fun hbt => ?_) _ _)
    exact hinv.not_mem_refs (hbt ▸ hr) hne hb

private theorem out_iff (hproc : s'.proc = Function.update s.proc p pr) (b : Fin N) :
    s'.out b ↔ pr.pc.recycles = some b ∨ ∃ p' ≠ p, (s.proc p').pc.recycles = some b := by
  constructor
  · rintro ⟨p', hp'⟩
    rw [hproc] at hp'
    by_cases hne : p' = p
    · subst hne
      rw [Function.update_self] at hp'
      exact .inl hp'
    · rw [Function.update_of_ne hne] at hp'
      exact .inr ⟨p', hne, hp'⟩
  · rintro (hb | ⟨p', hne, hp'⟩)
    · exact ⟨p, by rw [hproc, Function.update_self]; exact hb⟩
    · exact ⟨p', by rw [hproc, Function.update_of_ne hne]; exact hp'⟩

/-- The step leaves the buffer heads outside of the queues as they are. -/
theorem out_of_same (hproc : s'.proc = Function.update s.proc p pr)
    (hr : pr.pc.recycles = (s.proc p).pc.recycles) (b : Fin N) : s'.out b ↔ s.out b := by
  rw [out_iff hproc, hr]
  constructor
  · rintro (hb | ⟨p', -, hp'⟩)
    · exact ⟨p, hb⟩
    · exact ⟨p', hp'⟩
  · rintro ⟨p', hp'⟩
    by_cases hne : p' = p
    · exact .inl (hne ▸ hp')
    · exact .inr ⟨p', hne, hp'⟩

/-- The step takes one more out. -/
theorem out_of_take (hproc : s'.proc = Function.update s.proc p pr) {t : Fin N}
    (hold : (s.proc p).pc.recycles = none) (hnew : pr.pc.recycles = some t) (b : Fin N) :
    s'.out b ↔ s.out b ∨ b = t := by
  rw [out_iff hproc, hnew]
  constructor
  · rintro (hb | ⟨p', -, hp'⟩)
    · exact .inr (Option.some.inj hb).symm
    · exact .inl ⟨p', hp'⟩
  · rintro (⟨p', hp'⟩ | rfl)
    · refine .inr ⟨p', fun hne => ?_, hp'⟩
      rw [hne, hold] at hp'
      simp at hp'
    · exact .inl rfl

/-- The step puts one back. -/
theorem out_of_insert (h : Inv s) (hproc : s'.proc = Function.update s.proc p pr)
    {t : Fin N} (hold : (s.proc p).pc.recycles = some t) (hnew : pr.pc.recycles = none)
    (b : Fin N) : s'.out b ↔ s.out b ∧ b ≠ t := by
  rw [out_iff hproc, hnew]
  constructor
  · rintro (hb | ⟨p', hne, hp'⟩)
    · simp at hb
    · refine ⟨⟨p', hp'⟩, ?_⟩
      rintro rfl
      exact h.not_mem_refs hold hne (Proc.mem_refs_of_recycles hp')
  · rintro ⟨⟨p', hp'⟩, hbt⟩
    refine .inr ⟨p', fun hne => hbt ?_, hp'⟩
    rw [hne, hold] at hp'
    exact (Option.some.inj hp').symm

/-- There are buffer heads in the queues besides any one of them, when there are more of them than
processes. -/
theorem exists_other (hn : n < N) (hp : (s.proc p).pc.recycles = none) (t : Fin N) :
    ∃ c, c ≠ t ∧ ¬ s.out c := by
  let g : Fin n → Fin N := fun p' => if p' = p then t else (s.proc p').pc.recycles.getD t
  have hcard : (Finset.univ.image g).card < (Finset.univ : Finset (Fin N)).card := by
    refine Finset.card_image_le.trans_lt ?_
    simpa using hn
  obtain ⟨c, -, hc⟩ := Finset.exists_mem_notMem_of_card_lt_card hcard
  have hg : ∀ p', g p' ≠ c := fun p' h => hc (Finset.mem_image.mpr ⟨p', Finset.mem_univ p', h⟩)
  refine ⟨c, fun hct => hg p (by simp [g, hct]), ?_⟩
  rintro ⟨p', hp'⟩
  have hne : p' ≠ p := fun h => by
    rw [h, hp] at hp'
    simp at hp'
  exact hg p' (by simp [g, hne, hp'])

/-- A label under which a recycled buffer head is put back is new to the queues. -/
theorem Inv.label_new (h : Inv s) {t : Fin N} {l : Label} (ht : s.out t)
    (hl : l.dev = 0 ∨ s.queues.find (Function.update s.labels t l) l = none) :
    l.dev ≠ 0 → ∀ c, ¬ s.out c → s.labels c ≠ l := by
  intro hdev c hc
  have hct : c ≠ t := fun hct => hc (hct ▸ ht)
  have hashed : s.queues.Hashed (Function.update s.labels t l) s.out :=
    h.hashed.congr (fun b hb => Function.update_of_ne (fun hbt : b = t => hb (hbt ▸ ht)) _ _)
      fun _ => Iff.rfl
  have hnew := hashed.find_eq_none hdev (hl.resolve_left hdev) c hc
  rwa [Function.update_of_ne hct] at hnew

section Step

variable (hs : Inv s) (h : Trans s p c s'.queues s'.buf pr)
  (hproc : s'.proc = Function.update s.proc p pr)

include hs h hproc

private theorem Inv.hashed_step : s'.queues.Hashed s'.labels s'.out := by
  rcases h.queue_cases with ⟨hq, hl, hr⟩ | ⟨t, hr, hcount, hq, hl, hr'⟩ |
    ⟨t, l, hr, hq, hl, hr', hnew⟩
  · rw [hq]
    exact hs.hashed.congr (fun b _ => congrFun hl b) (out_of_same hproc hr)
  · rw [hq]
    exact (hs.hashed.remove (hs.not_out_of_count hcount)).congr (fun b _ => congrFun hl b)
      (out_of_take hproc hr hr')
  · rw [hq]
    exact (hs.hashed.insert ⟨p, hr⟩ (hs.label_new ⟨p, hr⟩ (hnew.imp_right And.right))).congr
      (fun b _ => congrFun hl b) (out_of_insert hs hproc hr hr')

/-- The queues stay well formed when there are more buffer heads than processes. -/
theorem Inv.formed_step (hn : n < N) (hformed : s.queues.Formed s.labels s.out) :
    s'.queues.Formed s'.labels s'.out := by
  rcases h.queue_cases with ⟨hq, hl, hr⟩ | ⟨t, hr, hcount, hq, hl, hr'⟩ |
    ⟨t, l, hr, hq, hl, hr', hnew⟩
  · rw [hq]
    exact hformed.congr (fun b _ => congrFun hl b) (out_of_same hproc hr)
  · rw [hq]
    exact (hformed.remove (hs.not_out_of_count hcount) (exists_other hn hr t)).congr
      (fun b _ => congrFun hl b) (out_of_take hproc hr hr')
  · rw [hq]
    exact (hformed.insert ⟨p, hr⟩ (hs.label_new ⟨p, hr⟩ (hnew.imp_right And.right))).congr
      (fun b _ => congrFun hl b) (out_of_insert hs hproc hr hr')

private theorem Inv.recycled_step (p' : Fin n) (b : Fin N)
    (hp' : (s'.proc p').pc.recycles = some b) : (s'.buf b).count = 1 := by
  rw [hproc] at hp'
  by_cases hne : p' = p
  · subst hne
    rw [Function.update_self] at hp'
    rcases h.recycles_new hp' with hone | ⟨hr, hcount⟩
    · exact hone
    · exact hcount.trans (hs.recycled p' b hr)
  · rw [Function.update_of_ne hne] at hp'
    have hone := hs.recycled p' b hp'
    rw [h.count_eq (hs.not_mem_refs hp' (Ne.symm hne)) (by omega) fun hhit => ?_]
    · exact hone
    · exact (hs.not_out_of_hit hhit) ⟨p', hp'⟩

private theorem Inv.refs_step (hwrap : ∀ b ∈ s.hits p, (s.buf b).count < 255) (b : Fin N) :
    ∑ q, (s'.proc q).refs.count b ≤ (s'.buf b).count := by
  obtain ⟨k, hbal, -⟩ := h.balanced hwrap (hs.recycled p) b
  have hsum := sum_update_add s.proc (fun pr => pr.refs.count b) p pr
  have hold := hs.refs b
  rw [hproc]
  omega

/-- Every step of a process keeps the invariant. -/
theorem Inv.trans (hwrap : ∀ b ∈ s.hits p, (s.buf b).count < 255) : Inv s' :=
  ⟨hs.hashed_step h hproc, hs.refs_step h hproc hwrap, hs.recycled_step h hproc⟩

end Step

/-- A step of the disk changes neither labels nor counters. -/
theorem State.Transferred.frame {b : Fin N} (h : s.Transferred b s') :
    s'.queues = s.queues ∧ s'.proc = s.proc ∧
      ∀ c, (s'.buf c).label = (s.buf c).label ∧ (s'.buf c).count = (s.buf c).count := by
  have hupd : ∀ x : Buf D, x.label = (s.buf b).label ∧ x.count = (s.buf b).count →
      ∀ c, (Function.update s.buf b x c).label = (s.buf c).label ∧
        (Function.update s.buf b x c).count = (s.buf c).count := fun x hx c => by
    rw [Function.update_apply]
    split_ifs with hc
    · rw [hc]
      exact hx
    · exact ⟨rfl, rfl⟩
  obtain ⟨t, -, ⟨-, -, rfl⟩ | ⟨-, -, rfl⟩ | ⟨-, rfl⟩⟩ := h
  all_goals exact ⟨rfl, rfl, hupd _ ⟨rfl, rfl⟩⟩

namespace Inv

/-- A `brelse` has a reference to give back. -/
theorem no_panic (hs : Inv s) :
    ¬ ∃ b r, (s.proc p).pc = .brelse b r ∧ (s.buf b).count = 0 := by
  rintro ⟨b, r, hpc, hzero⟩
  have hone := hs.one_le (p := p) (b := b) (by simp [Proc.refs, hpc, Pc.ref])
  omega

/-- Every step keeps the invariant. -/
theorem step {e : Event D N n} (hs : Inv s) (hwrap : s.NoWrap e) (h : s.next e = some s') :
    Inv s' := by
  rcases State.next_cases h with ⟨b, -, hdisk⟩ | ⟨p, hp, -, hpanic | ⟨pr, htrans, hproc⟩⟩
  · obtain ⟨hq, hproc, hbuf⟩ := hdisk.frame
    have hlabels : s'.labels = s.labels := funext fun c => (hbuf c).1
    have hout : s'.out = s.out := by
      funext c
      rw [State.out, hproc]
      rfl
    refine ⟨by rw [hq, hlabels, hout]; exact hs.hashed, fun c => ?_, fun p c hp => ?_⟩
    · rw [hproc, (hbuf c).2]
      exact hs.refs c
    · rw [hproc] at hp
      rw [(hbuf c).2]
      exact hs.recycled p c hp
  · exact absurd hpanic hs.no_panic
  · exact hs.trans htrans hproc (hwrap p hp)

theorem init [NeZero N] (disk : Label → D) (data : Fin N → D) :
    Inv (State.init disk data : State D N n) := by
  have hidle : ∀ b, ¬ (State.init disk data : State D N n).out b := by
    rintro b ⟨p, hp⟩
    simp [State.init, Pc.recycles] at hp
  refine ⟨?_, fun b => ?_, fun p b hp => absurd ⟨p, hp⟩ (hidle b)⟩
  · exact (Queues.Formed.of_init fun _ => rfl).toHashed.congr (fun _ _ => rfl) fun b =>
      iff_false_intro (hidle b)
  · simp [State.init, Proc.refs, Pc.ref]

end Inv

/-! ### Runs -/

/-- **The queues.** In every run in which no counter wraps around, with more buffer heads than
processes, the free list is a circular list of all buffer heads except those that a process
recycles, and every other buffer head with a device is in the hash chain of its label, which no
other one there has. -/
theorem queues_formed [NeZero N] {disk : Label → D} {data : Fin N → D} {es : List (Event D N n)}
    (hn : n < N)
    (h : Runs (fun s e s' => s.next e = some s' ∧ s.NoWrap e) (State.init disk data) es s) :
    s.queues.Formed s.labels s.out := by
  have hinv : Inv s ∧ s.queues.Formed s.labels s.out := by
    refine h.invariant (I := fun s => Inv s ∧ s.queues.Formed s.labels s.out) ?_
      ⟨Inv.init disk data, ?_⟩
    · rintro s e s' ⟨hs, hformed⟩ ⟨hnext, hwrap⟩
      refine ⟨hs.step hwrap hnext, ?_⟩
      rcases State.next_cases hnext with ⟨b, -, hdisk⟩ | ⟨p, hp, -, hpanic | ⟨pr, htrans, hproc⟩⟩
      · obtain ⟨hq, hproc, hbuf⟩ := hdisk.frame
        rw [hq]
        refine hformed.congr (fun c _ => (hbuf c).1) fun c => ?_
        rw [State.out, State.out, hproc]
      · exact absurd hpanic hs.no_panic
      · exact hs.formed_step htrans hproc hn hformed
    · refine (Queues.Formed.of_init fun _ => rfl).congr (fun _ _ => rfl) fun b => ?_
      exact iff_false_intro fun ⟨p, hp⟩ => by simp [State.init, Pc.recycles] at hp
  exact hinv.2

/-- Two buffers, of which a process recycles one to read a block. -/
def firstRead : List (Event ℕ 2 1) := [.call 0 ⟨1, 1⟩ (.get true), .run 0, .run 0, .run 0]

/-- The first buffer head is out of the queues, and the free list is the other one. -/
theorem queues_formed_firstRead : ∃ s,
    Runs (fun s e s' => State.next s e = some s' ∧ s.NoWrap e)
      (State.init (fun _ => 0) fun _ => 0 : State ℕ 2 1) firstRead.reverse s ∧
    s.out 0 ∧ s.queues.Formed s.labels s.out := by
  have hexec : ∃ s, exec (fun s e => (State.next s e).filter fun _ => s.NoWrap e)
      (State.init (fun _ => 0) fun _ => 0 : State ℕ 2 1) firstRead = some s ∧
        (s.proc 0).pc.recycles = some 0 := ⟨_, rfl, rfl⟩
  obtain ⟨s, hs, hout⟩ := hexec
  have hrun := runs_of_exec_guarded hs
  exact ⟨s, hrun, ⟨0, hout⟩, queues_formed (by decide) hrun⟩

/-! ### A counter that wraps around -/

theorem State.next_run (hpanic : s.panic = none) (hcurrent : s.current = some p)
    (hsleeps : s.sleeps p = false) : s.next (.run p) = some ((s.run p).yield p) := by
  unfold State.next
  rw [if_pos hpanic]
  simp [Event.proc, hcurrent, act, hsleeps]

/-- A process is in no call, and finds a block in a buffer that is not locked. -/
structure State.Finds (s : State D N n) (p : Fin n) (b : Fin N) (l : Label) : Prop where
  panic : s.panic = none
  current : s.current = none
  idle : (s.proc p).pc = .idle
  valid : l.dev ≠ 0 ∧ l.block < 65536
  find : s.find l = some b
  label : (s.buf b).label = l
  lock : (s.buf b).lock = none

/-- The process has found it, and has raised `b_count`. -/
def State.raised (s : State D N n) (p : Fin n) (b : Fin N) (l : Label) (u : Use) : State D N n :=
  { (s.setBuf b { s.buf b with count := ((s.buf b).count + 1) % 256 }).setPc p
    (.hashWait b l u) with current := some p }

theorem State.exec_find {b : Fin N} {l : Label} {u : Use} (h : s.Finds p b l) :
    exec State.next s [.call p l u, .run p] = some (s.raised p b l u) := by
  let s₁ : State D N n := { s.setPc p (.find l u) with current := some p }
  let x : Buf D := { s.buf b with count := ((s.buf b).count + 1) % 256 }
  have hpc₁ : (s₁.proc p).pc = .find l u := by
    simp [s₁, setPc]
  have h₁ : s.next (.call p l u) = some s₁ := by
    have hyield : (s.setPc p (.find l u)).yield p = s₁ := by
      simp [yield, sleeps, setPc, s₁]
    unfold State.next
    rw [if_pos h.panic]
    simp [Event.proc, h.current, act, h.idle, h.valid, hyield]
  have hsleeps : s₁.sleeps p = false := by
    unfold sleeps
    rw [hpc₁]
  have hrun : s₁.run p = (s₁.setBuf b x).setPc p (.hashWait b l u) := by
    have hf₁ : s₁.find l = some b := h.find
    unfold run
    rw [hpc₁]
    dsimp only [lookUp]
    rw [hf₁]
    rfl
  have hawake : ((s₁.setBuf b x).setPc p (.hashWait b l u)).sleeps p = false := by
    unfold sleeps
    simp [setPc, locked, setBuf, x, h.lock]
  have hnext : s₁.next (.run p) = some ((s₁.run p).yield p) := next_run h.panic (by rfl) hsleeps
  simp only [exec, h₁, hnext, Option.bind_some]
  rw [hrun, yield, hawake]
  simp [s₁, x, setPc, setBuf, raised]

/-- What it does with the buffer ends its call. -/
theorem State.exec_check {b : Fin N} {l : Label} {u : Use} (h : s.Finds p b l)
    (hidle : ((s.raised p b l u).hashCheck p b l u).sleeps p = true) :
    exec State.next s [.call p l u, .run p, .run p] =
      some { (s.raised p b l u).hashCheck p b l u with current := none } := by
  have hpc : ((s.raised p b l u).proc p).pc = .hashWait b l u := by
    simp [raised, setPc]
  have hsleeps : (s.raised p b l u).sleeps p = false := by
    unfold sleeps
    rw [hpc]
    simp [raised, locked, setPc, setBuf, h.lock]
  have hrun : (s.raised p b l u).run p = (s.raised p b l u).hashCheck p b l u := by
    unfold run
    rw [hpc]
  refine (exec_append [Event.call p l u, .run p] [.run p]).trans ?_
  rw [exec_find h, Option.bind_some]
  change ((s.raised p b l u).next (.run p)).bind some = _
  rw [next_run (s := s.raised p b l u) h.panic rfl hsleeps, hrun, yield, hidle, Option.bind_some,
    if_pos rfl]

/-- A `free_block` of a block that is in use leaves `b_count` raised. -/
theorem State.exec_leak {b : Fin N} {l : Label} (h : s.Finds p b l)
    (hcount : ((s.buf b).count + 1) % 256 ≠ 1) :
    exec State.next s [.call p l .free, .run p, .run p] =
      some (s.setBuf b { s.buf b with count := ((s.buf b).count + 1) % 256 }) := by
  have hcheck : (s.raised p b l .free).hashCheck p b l .free =
      (s.raised p b l .free).setPc p .idle := by
    simp [hashCheck, raised, setPc, setBuf, h.label, hcount]
  have hproc : ((s.raised p b l .free).setPc p .idle).proc = s.proc := by
    simp only [raised, setPc, setBuf, Function.update_self, Function.update_idem]
    rw [← h.idle]
    exact Function.update_eq_self p s.proc
  rw [exec_check h (by rw [hcheck]; simp [sleeps, setPc]), hcheck]
  dsimp only
  rw [hproc, ← h.current]
  rfl

/-- A number of calls of `free_block`. -/
def leaks (p : Fin n) (l : Label) : ℕ → List (Event D N n)
  | 0 => []
  | k + 1 => leaks p l k ++ [.call p l .free, .run p, .run p]

theorem State.exec_leaks {b : Fin N} {l : Label} (h : s.Finds p b l)
    (hcount : (s.buf b).count = 1) {k : ℕ} (hk : k ≤ 255) :
    exec State.next s (leaks p l k) =
      some (s.setBuf b { s.buf b with count := (1 + k) % 256 }) := by
  induction k with
  | zero =>
    have hself : ({ s.buf b with count := 1 } : Buf D) = s.buf b := by rw [← hcount]
    have hupd : s.setBuf b { s.buf b with count := (1 + 0) % 256 } = s := by
      change s.setBuf b { s.buf b with count := 1 } = s
      rw [hself, setBuf, Function.update_eq_self]
    rw [hupd]
    rfl
  | succ k ih =>
    let s₁ := s.setBuf b { s.buf b with count := (1 + k) % 256 }
    have hbuf : s₁.buf b = { s.buf b with count := (1 + k) % 256 } := Function.update_self _ _ _
    have hlabels : s₁.labels = s.labels :=
      (labels_update _ _ _).trans (Function.update_eq_self b s.labels)
    have hfind : s₁.find l = some b := by
      rw [← h.find, find, find, hlabels]
      rfl
    have hstep := exec_leak (s := s₁) ⟨h.panic, h.current, h.idle, h.valid, hfind,
      by rw [hbuf]; exact h.label, by rw [hbuf]; exact h.lock⟩ (by rw [hbuf]; dsimp only; omega)
    rw [leaks, exec_append, ih (by omega)]
    refine hstep.trans (congrArg some ?_)
    rw [hbuf, setBuf, setBuf]
    change { s with buf := Function.update (Function.update s.buf b _) b _ } = _
    rw [Function.update_idem]
    have hmod : ((1 + k) % 256 + 1) % 256 = (1 + (k + 1)) % 256 := by omega
    rw [hmod]

/-- The first of four processes gets hold of all five buffers. -/
def holdAll : List (Event ℕ 5 4) :=
  [1, 4, 5, 6, 7].flatMap fun k => [.call 0 ⟨1, k⟩ (.get false), .run 0, .run 0, .run 0, .run 0]

/-- The state in which it does. -/
def allHeld : State ℕ 5 4 :=
  (exec State.next (State.init (fun _ => 0) fun _ => 0) holdAll).getD
    (State.init (fun _ => 0) fun _ => 0)

/-- While the fourth process writes the first buffer, the third and then the second one wait for it
in `getblk`. At the end of the write the first process changes it again, so that the second one, the
last to fall asleep, writes it once more after it has taken it out of the queues. The others go back
to sleep, and the first process waits in `brelse`; it is the last, and goes on first. Then the
fourth process ends its `sys_sync`, the third one takes the buffer, too, and the second one puts it
back. -/
def takeTwice : List (Event ℕ 5 4) :=
  [.change 0 0 4 7, .sync 3, .run 3, .run 3, .call 2 ⟨1, 3⟩ (.get false), .run 2, .run 2,
    .call 1 ⟨1, 2⟩ (.get false), .run 1, .run 1, .disk 0, .intr 0, .change 0 0 4 8,
    .run 1, .run 1, .run 1, .brelse 0 4, .disk 0, .intr 0, .run 0] ++
  List.replicate 10 (.run 3) ++ [.run 2, .run 2] ++ List.replicate 11 (.run 1)

/-- After 255 calls of `free_block` on a block in use its buffer is recycled by two processes at the
same time. In the end it is in the hash chain of another block. -/
theorem queues_not_formed : ∃ es s,
    Runs (fun s e s' => State.next s e = some s')
      (State.init (fun _ => 0) fun _ => 0 : State ℕ 5 4) es s ∧
    ¬ s.queues.Formed s.labels s.out := by
  have hhold : exec State.next (State.init (fun _ => 0) fun _ => 0) holdAll = some allHeld := rfl
  have hleak : exec State.next allHeld (leaks 0 ⟨1, 1⟩ 255) =
      some (allHeld.setBuf 0 { allHeld.buf 0 with count := 0 }) := by
    obtain ⟨hpanic, hcurrent, hpc, hfind, hlabel, hlock, hcount⟩ : allHeld.panic = none ∧
        allHeld.current = none ∧ (allHeld.proc 0).pc = .idle ∧ allHeld.find ⟨1, 1⟩ = some 0 ∧
        (allHeld.buf 0).label = ⟨1, 1⟩ ∧ (allHeld.buf 0).lock = none ∧
        (allHeld.buf 0).count = 1 := by decide +kernel
    exact State.exec_leaks ⟨hpanic, hcurrent, hpc, by decide, hfind, hlabel, hlock⟩ hcount le_rfl
  have htwice : ((exec State.next (allHeld.setBuf 0 { allHeld.buf 0 with count := 0 })
      takeTwice).map fun s => (s.queues.hash 2, s.labels 0)) = some (some 0, ⟨1, 2⟩) := by
    decide +kernel
  obtain ⟨s, hs, hdamage⟩ := Option.map_eq_some_iff.mp htwice
  obtain ⟨hhash, hlabel⟩ := Prod.mk.inj hdamage
  have hexec : exec State.next (State.init (fun _ => 0) fun _ => 0)
      (holdAll ++ (leaks 0 ⟨1, 1⟩ 255 ++ takeTwice)) = some s := by
    rw [exec_append, hhold, Option.bind_some, exec_append, hleak, Option.bind_some, hs]
  refine ⟨_, s, runs_of_exec hexec, fun hformed => ?_⟩
  -- The buffer is at the head of the chain of block 3 and has the label of block 2.
  obtain ⟨ch, -, hchain, hmem⟩ := hformed.chain 2
  have hwrong := ((hmem 0).mp (hchain.head_mem hhash)).2.2
  rw [hlabel] at hwrong
  exact absurd hwrong (by decide)

end Linux001.BufferCache
