import Linux001.Hd.Queue
import Linux001.Lib.Sweeps
import Mathlib.Data.Prod.Lex

/-!
# The elevator

The order of the request queue when no interrupt falls into an `add_request`. The requests behind
the current one are one upward sweep over the disk followed by at most one more: `add_request` puts
the new request into the list as `Linux001.place` does, and the completion of a request takes the
first one of the list away. `add_request` does not touch the order of the first two requests.

## Main definitions

* `Request.key`: the place of a request on the disks, in the order `IN_ORDER`.
* `ElevatorStep`: no interrupt falls into an `add_request`, and the places of requests differ.
* `Elevator`: the invariant, with what `add_request` knows about the place of the new request.

## Main results

* `elevator_order`: the requests behind the current one are in two sweeps.
-/

namespace Linux001.Hd

variable {D : Type} {s s' : State D} {ok drq : Bool} {L L' : List (Fin 32)}

/-- The place of a request on the disks. -/
def Request.key (r : Request) : ℤ ×ₗ ℕ ×ₗ ℕ ×ₗ ℕ :=
  toLex (r.hd, toLex (r.cyl, toLex (r.head, r.sector)))

/-- The place of the request in an entry of the table. -/
def keyOf (s : State D) (r : Fin 32) : ℤ ×ₗ ℕ ×ₗ ℕ ×ₗ ℕ := (s.request r).key

/-- `IN_ORDER` compares places. -/
theorem inOrder_iff (a b : Request) : State.inOrder a b = true ↔ a.key < b.key := by
  simp only [State.inOrder, Request.key, Prod.Lex.toLex_lt_toLex, Bool.or_eq_true, Bool.and_eq_true,
    decide_eq_true_eq]

/-- The request that `add_request` has not linked in yet. -/
def AddPc.adding : AddPc → Option (Fin 32)
  | .idle | .finish | .restart | .call => none
  | .start req | .first req | .setThis req | .testNext req _ | .setNext req _ | .skip req _
  | .loop req _ | .order req _ | .copyNext req _ | .link req _ => some req

/-- The place of a new request is not that of a request in the queue. -/
def NewPlace (s : State D) : Event → Prop
  | .submit _ nr sec head cyl _ => ∀ r, s.linked r = true →
      keyOf s r ≠ toLex ((nr : ℤ), toLex (cyl, toLex (head, sec)))
  | .add _ | .intr _ _ => True

/-- The steps in which no interrupt falls into an `add_request`. -/
def ElevatorStep (s : State D) (e : Event) (s' : State D) : Prop :=
  Step s e s' ∧ (e.isIntr = true → s.pc = .idle) ∧ NewPlace s e

/-- Where `add_request` is in its search for the place of the request. -/
def Placing (s : State D) (L : List (Fin 32)) : AddPc → Prop
  | .idle | .start _ | .first _ | .setThis _ | .finish | .restart | .call => True
  | .testNext _ tmp => ∃ l, L = tmp :: l
  | .setNext _ tmp => L = [tmp]
  | .skip _ tmp => ∃ t l, L = tmp :: t :: l
  | .loop req tmp | .order req tmp => ∃ c l r, L = c :: (l ++ tmp :: r) ∧
      place (keyOf s) req (l ++ tmp :: r) = l ++ place (keyOf s) req (tmp :: r)
  | .copyNext req tmp | .link req tmp => ∃ c l r, L = c :: (l ++ tmp :: r) ∧
      place (keyOf s) req (l ++ tmp :: r) = l ++ tmp :: req :: r

/-- The requests in the queue are `L`, and those behind the current one are in two sweeps. -/
structure Elevator (s : State D) (L : List (Fin 32)) : Prop where
  queue : Queue s L
  mem : ∀ r, s.linked r = true → r ∈ L
  used : ∀ r, 0 ≤ (s.request r).hd → s.linked r = true ∨ s.pc.adding = some r
  sweeps : TwoSweeps (keyOf s) L.tail
  fresh : ∀ req, s.pc.adding = some req → ∀ r ∈ L, keyOf s r ≠ keyOf s req
  placing : Placing s L s.pc

/-- The request `req` is put in behind the first two requests, or at the end. -/
def Inserted (L L' : List (Fin 32)) (req : Fin 32) : Prop :=
  ∃ l r, L = l ++ r ∧ L' = l ++ req :: r ∧ (2 ≤ l.length ∨ r = [])

/-! ### Interrupts -/

/-- The requests are for the same sectors, unless they have been completed. -/
structure Aligned (s s' : State D) : Prop where
  cyl : ∀ q, (s'.request q).cyl = (s.request q).cyl
  head : ∀ q, (s'.request q).head = (s.request q).head
  sector : ∀ q, (s'.request q).sector = (s.request q).sector
  hd : ∀ q, (s'.linked q = s.linked q ∧ (s'.request q).hd = (s.request q).hd) ∨
    (s'.linked q = false ∧ (s'.request q).hd = -1)

theorem Aligned.of_eq (h : s'.request = s.request) (hlinked : s'.linked = s.linked) :
    Aligned s s' := by
  refine ⟨fun q => ?_, fun q => ?_, fun q => ?_, fun q => .inl ⟨congrFun hlinked q, ?_⟩⟩ <;> rw [h]

theorem Aligned.trans {s'' : State D} (h : Aligned s s') (h' : Aligned s' s'') : Aligned s s'' := by
  refine ⟨fun q => (h'.cyl q).trans (h.cyl q), fun q => (h'.head q).trans (h.head q),
    fun q => (h'.sector q).trans (h.sector q), fun q => ?_⟩
  rcases h'.hd q with ⟨hlinked', hhd'⟩ | hfreed
  · rw [hlinked', hhd']
    exact h.hd q
  · exact .inr hfreed

theorem aligned_setRequest (s : State D) (r : Fin 32) {f : Request → Request}
    (hf : ∀ q, (f q).cyl = q.cyl ∧ (f q).head = q.head ∧ (f q).sector = q.sector ∧
      (f q).hd = q.hd) : Aligned s (s.setRequest r f) := by
  have hrequest (q : Fin 32) :
      (s.setRequest r f).request q = if q = r then f (s.request q) else s.request q := by
    simp only [State.setRequest, Function.update_apply]
    split_ifs with hq
    · rw [hq]
    · rfl
  refine ⟨fun q => ?_, fun q => ?_, fun q => ?_, fun q => .inl ⟨rfl, ?_⟩⟩ <;> rw [hrequest] <;>
    split_ifs
  · exact (hf _).1
  · rfl
  · exact (hf _).2.1
  · rfl
  · exact (hf _).2.2.1
  · rfl
  · exact (hf _).2.2.2
  · rfl

theorem aligned_complete (s : State D) (r : Fin 32) (uptodate : Bool) :
    Aligned s (s.complete r uptodate) := by
  have hrequest (q : Fin 32) : (s.complete r uptodate).request q =
      if q = r then { s.request q with hd := -1 } else s.request q := by
    simp only [State.complete, State.setRequest, State.setBuffer, Function.update_apply]
    split_ifs with hq
    · rw [hq]
    · rfl
  refine ⟨fun q => ?_, fun q => ?_, fun q => ?_, fun q => ?_⟩ <;> rw [hrequest] <;> split_ifs with
    hq
  · rfl
  · rfl
  · rfl
  · rfl
  · rfl
  · rfl
  · subst hq
    exact .inr ⟨Function.update_self .., rfl⟩
  · exact .inl ⟨Function.update_of_ne hq .., rfl⟩

theorem resetHd_aligned {nr : ℤ} (h : s.resetHd nr = some s') : Aligned s s' := by
  rw [hdOut_eq_some h]
  exact .of_eq rfl rfl

theorem badRwIntr_aligned (h : s.badRwIntr = some s') : Aligned s s' := by
  unfold State.badRwIntr at h
  split at h
  · cases h
  · rename_i r hr
    have herrors := aligned_setRequest s r (f := fun q => { q with errors := q.errors + 1 })
      fun _ => ⟨rfl, rfl, rfl, rfl⟩
    dsimp only at h
    split_ifs at h
    · exact herrors.trans ((aligned_complete _ r false).trans (resetHd_aligned h))
    · exact herrors.trans (resetHd_aligned h)

theorem doRequest_aligned (h : s.doRequest drq = some s') : Aligned s s' :=
  .of_eq (doRequest_kept h).1 (doRequest_kept h).2.2.2.2

theorem readIntr_aligned {data : Option D} (h : s.readIntr data drq = some s') : Aligned s s' := by
  unfold State.readIntr at h
  split at h
  · exact badRwIntr_aligned h
  · cases h
  · rename_i d r hr
    dsimp only at h
    have hdata : Aligned s (s.setBuffer (s.request r).bh fun b =>
        { b with data := Function.update b.data ((s.request r).nsector % 2) d }) := .of_eq rfl rfl
    have hsector := hdata.trans (aligned_setRequest _ r
      (f := fun q => { q with errors := 0, nsector := q.nsector - 1 }) fun _ =>
        ⟨rfl, rfl, rfl, rfl⟩)
    split_ifs at h
    · exact Option.some.inj h ▸ hsector
    · exact hsector.trans ((aligned_complete _ r true).trans (doRequest_aligned h))

theorem writeIntr_aligned (h : s.writeIntr ok drq = some s') : Aligned s s' := by
  unfold State.writeIntr at h
  split at h
  · exact badRwIntr_aligned h
  · cases h
  · rename_i r hr
    have hsector := aligned_setRequest s r (f := fun q => { q with nsector := q.nsector - 1 })
      fun _ => ⟨rfl, rfl, rfl, rfl⟩
    dsimp only at h
    split_ifs at h
    · have hport : Aligned s ((s.setRequest r fun q =>
        { q with nsector := q.nsector - 1 }).portWrite
          r 1) := hsector.trans (.of_eq rfl rfl)
      exact Option.some.inj h ▸ hport
    · exact hsector.trans ((aligned_complete _ r true).trans (doRequest_aligned h))

theorem intr_aligned (h : s.intr ok drq = some s') : Aligned s s' := by
  obtain ⟨⟨s₁, data⟩, htransfer, h⟩ := Option.bind_eq_some_iff.mp h
  have hreq : s₁.request = s.request ∧ s₁.linked = s.linked := by
    rcases transfer_cases htransfer with ⟨-, rfl⟩ | ⟨_, _, _, _, _, _, _, _, -, rfl, -⟩ <;>
      exact ⟨rfl, rfl⟩
  dsimp only at h
  refine (Aligned.of_eq hreq.1 hreq.2).trans ?_
  split at h
  · cases h
  · exact readIntr_aligned h
  · exact writeIntr_aligned h
  · exact doRequest_aligned h

/-- The places of requests that are in use before and after. -/
theorem Aligned.keyOf_eq (h : Aligned s s') {q : Fin 32}
    (hd : (s'.request q).hd = (s.request q).hd) :
    keyOf s' q = keyOf s q := by
  rw [keyOf, keyOf, Request.key, Request.key, hd, h.cyl, h.head, h.sector]

/-- An interrupt takes the first request away or leaves the list as it is. -/
theorem Elevator.intr (h : Elevator s L) (hidle : s.pc = .idle) (hs : s.intr ok drq = some s') :
    ∃ L', Elevator s' L' ∧ (L' = L ∨ ∃ r, L = r :: L') := by
  have hpc : s'.pc = .idle := (intr_effect h.queue.wired hs).pc.trans hidle
  have haligned := intr_aligned hs
  have hnone : s.pc.adding = none := by rw [hidle]; rfl
  have hadding : s'.pc.adding = none := by rw [hpc]; rfl
  have hlinked_of_used (q : Fin 32) (hused : 0 ≤ (s.request q).hd) : s.linked q = true := by
    refine (h.used q hused).resolve_right fun hc => ?_
    rw [hnone] at hc
    cases hc
  have hfresh (L' : List (Fin 32)) : ∀ req, s'.pc.adding = some req →
      ∀ r ∈ L', keyOf s' r ≠ keyOf s' req := by
    rw [hadding]
    exact fun _ hc => nomatch hc
  have hplacing (L' : List (Fin 32)) : Placing s' L' s'.pc := by
    rw [hpc]
    trivial
  rcases h.queue.intr hs with ⟨hk, hq, -⟩ | ⟨r, L', rfl, hp, hq, -⟩
  · refine ⟨L, ⟨hq, hk.linked ▸ h.mem, fun q hused => ?_, h.sweeps.congr fun q _ =>
      haligned.keyOf_eq (hk.hd q), hfresh L, hplacing L⟩, .inl rfl⟩
    rw [hk.linked]
    exact .inl (hlinked_of_used q (hk.hd q ▸ hused))
  · have hnodup := List.nodup_cons.mp h.queue.nodup
    refine ⟨L', ⟨hq, fun q hlinked => ?_, fun q hused => ?_, ?_, hfresh L', hplacing L'⟩,
      .inr ⟨r, rfl⟩⟩
    · rw [hp.linked, Function.update_apply] at hlinked
      split_ifs at hlinked with hqr
      exact (List.mem_cons.mp (h.mem q hlinked)).resolve_left hqr
    · rcases haligned.hd q with ⟨hlinked, hhd⟩ | ⟨-, hhd⟩
      · rw [hlinked]
        exact .inl (hlinked_of_used q (hhd ▸ hused))
      · rw [hhd] at hused
        exact absurd hused (by decide)
    · refine h.sweeps.tail.congr fun q hq => haligned.keyOf_eq (hp.hd q ?_)
      rintro rfl
      exact hnodup.1 (List.mem_of_mem_tail hq)

/-! ### `rw_abs_hd` -/

/-- A free entry is filled in. -/
theorem submit_cases {cmd : Cmd} {nr sec head cyl bh : ℕ}
    (hs : s.submit cmd nr sec head cyl bh = some s') :
    s.pc = .idle ∧ ∃ r, (s.request r).hd < 0 ∧ s'.linked = s.linked ∧ s'.pc = .start r ∧
      s'.request = Function.update s.request r ⟨nr, 2, sec, head, cyl, cmd, 0, bh, none⟩ := by
  unfold State.submit at hs
  split at hs
  · rename_i hidle
    obtain ⟨r, hr, rfl⟩ := Option.map_eq_some_iff.mp hs
    exact ⟨hidle, r, by simpa using List.find?_some hr, rfl, rfl, rfl⟩
  · cases hs

theorem Elevator.submit (h : Elevator s L) {cmd : Cmd} {nr sec head cyl bh : ℕ}
    (hnew : NewPlace s (.submit cmd nr sec head cyl bh))
    (hs : s.submit cmd nr sec head cyl bh = some s') : Elevator s' L := by
  obtain ⟨hidle, r, hfree, hlinked, hpc, hrequest⟩ := submit_cases hs
  have hother {q : Fin 32} (hq : q ≠ r) : s'.request q = s.request q := by
    rw [hrequest, Function.update_of_ne hq]
  have hne {q : Fin 32} (hq : q ∈ L) : q ≠ r := by
    rintro rfl
    have := h.queue.used q (h.queue.linked q hq)
    omega
  have hkey {q : Fin 32} (hq : q ∈ L) : keyOf s' q = keyOf s q := by
    rw [keyOf, keyOf, hother (hne hq)]
  have hnone : s.pc.adding = none := by rw [hidle]; rfl
  refine ⟨(h.queue.submit hs).1, hlinked ▸ h.mem, fun q hused => ?_, h.sweeps.congr fun q hq =>
    hkey (List.mem_of_mem_tail hq), fun req hreq q hq => ?_, ?_⟩
  · rcases eq_or_ne q r with rfl | hqr
    · rw [hpc]
      exact .inr rfl
    · rw [hother hqr] at hused
      rw [hlinked]
      refine .inl ((h.used q hused).resolve_right fun hc => ?_)
      rw [hnone] at hc
      cases hc
  · rw [hpc] at hreq
    obtain rfl : r = req := Option.some.inj hreq
    have hplace : keyOf s' r = toLex ((nr : ℤ), toLex (cyl, toLex (head, sec))) := by
      rw [keyOf, hrequest, Function.update_self]
      rfl
    rw [hkey hq, hplace]
    exact hnew q (h.queue.linked q hq)
  · rw [hpc]
    trivial

/-! ### `add_request` -/

/-- The request after one in the list. -/
theorem listed_next {next : Fin 32 → Option (Fin 32)} {o : Option (Fin 32)} {l r : List (Fin 32)}
    {a : Fin 32} (h : Listed next o (l ++ a :: r)) : next a = r.head? := by
  induction l generalizing o with
  | nil =>
    obtain ⟨-, h⟩ := h
    cases r with
    | nil => exact h
    | cons b r => exact h.1
  | cons b l ih => exact ih h.2

/-- The list after a statement of `add_request`, when its links are known. -/
theorem Queue.addStep_of_listed (h : Queue s L) (hs : s.addStep drq = some s')
    (hl : Listed (nextOf s') s'.thisRequest L') : Queue s' L' := by
  obtain ⟨L'', hq, -⟩ := h.addStep hs
  rwa [hq.listed.unique hl] at hq

/-- A statement that does not change the list. -/
theorem Elevator.kept (h : Elevator s L) (hs : s.addStep drq = some s')
    (hthis : s'.thisRequest = s.thisRequest) (hnext : ∀ q ∈ L, nextOf s' q = nextOf s q)
    (hlinked : s'.linked = s.linked) (hhd : ∀ q, (s'.request q).hd = (s.request q).hd)
    (hkey : keyOf s' = keyOf s) (hadding : s'.pc.adding = s.pc.adding)
    (hplacing : Placing s L s'.pc) : Elevator s' L := by
  have hlisted : Listed (nextOf s') s'.thisRequest L := by
    rw [hthis]
    exact h.queue.listed.congr hnext
  refine ⟨h.queue.addStep_of_listed hs hlisted, hlinked ▸ h.mem, fun q hq => ?_, hkey ▸ h.sweeps,
    ?_, ?_⟩
  · rw [hlinked, hadding]
    exact h.used q (hhd q ▸ hq)
  · rw [hadding, hkey]
    exact h.fresh
  · have hcongr : Placing s' L s'.pc ↔ Placing s L s'.pc := by
      cases s'.pc <;> simp only [Placing, hkey]
    exact hcongr.mpr hplacing

/-- The statement that links the request in. -/
theorem Elevator.linked (h : Elevator s L) (hs : s.addStep drq = some s') {req : Fin 32}
    (hl : Listed (nextOf s') s'.thisRequest L')
    (hlinked : s'.linked = Function.update s.linked req true)
    (hhd : ∀ q, (s'.request q).hd = (s.request q).hd) (hkey : keyOf s' = keyOf s)
    (hadding : s.pc.adding = some req) (hpc : s'.pc = .finish) (hins : Inserted L L' req)
    (hsweeps : TwoSweeps (keyOf s) L'.tail) : Elevator s' L' := by
  obtain ⟨l, r, rfl, rfl, -⟩ := hins
  refine ⟨h.queue.addStep_of_listed hs hl, fun q hq => ?_, fun q hq => ?_, hkey ▸ hsweeps, ?_, ?_⟩
  · rw [hlinked, Function.update_apply] at hq
    split_ifs at hq with hqr
    · rw [hqr]
      simp
    · have := h.mem q hq
      simp only [List.mem_append, List.mem_cons] at this ⊢
      tauto
  · rw [hlinked, Function.update_apply]
    split_ifs with hqr
    · exact .inl rfl
    · refine .inl ((h.used q (hhd q ▸ hq)).resolve_right fun hc => hqr ?_)
      rw [hadding] at hc
      exact (Option.some.inj hc).symm
  · rw [hpc]
    exact fun _ hc => nomatch hc
  · rw [hpc]
    trivial

/-- A statement that changes only what comes next. -/
theorem Elevator.setPc (h : Elevator s L) {pc : AddPc} {sorting : Bool}
    (hs : s.addStep drq = some { s with sorting := sorting, pc := pc })
    (hadding : pc.adding = s.pc.adding) (hplacing : Placing s L pc) :
    Elevator { s with sorting := sorting, pc := pc } L :=
  h.kept hs rfl (fun _ _ => rfl) rfl (fun _ => rfl) rfl hadding hplacing

theorem Queue.Behind.keyOf {req tmp : Fin 32} (hb : Queue.Behind s s' req tmp) :
    Hd.keyOf s' = Hd.keyOf s := by
  funext q
  simp only [Hd.keyOf, hb.request, Function.update_apply]
  split_ifs with hq
  · rw [hq]
    rfl
  · rfl

/-- The request is linked in behind the entry `tmp`. -/
theorem Elevator.behind {l r : List (Fin 32)} {req tmp : Fin 32} (h : Elevator s (l ++ tmp :: r))
    (hs : s.addStep drq = some s') (hb : Queue.Behind s s' req tmp)
    (hf : Fresh s (l ++ tmp :: r) req)
    (hnext : nextOf s req = nextOf s tmp) (hadding : s.pc.adding = some req)
    (hlen : l ≠ [] ∨ r = [])
    (hsweeps : TwoSweeps (keyOf s) (l ++ tmp :: req :: r).tail) :
    ∃ L', Elevator s' L' ∧ Inserted (l ++ tmp :: r) L' req := by
  have hins : Inserted (l ++ tmp :: r) (l ++ tmp :: req :: r) req := by
    refine ⟨l ++ [tmp], r, by simp, by simp, hlen.imp_left fun hl => ?_⟩
    have := List.length_pos_iff.mpr hl
    rw [List.length_append, List.length_singleton]
    omega
  refine ⟨_, h.linked hs ?_ hb.linked hb.hd hb.keyOf hadding hb.pc hins hsweeps, hins⟩
  rw [hb.nextOf, hb.this]
  exact h.queue.listed.insert h.queue.nodup hf.notMem hnext

/-- The statements of `add_request` put the request into its place. -/
theorem Elevator.addStep (h : Elevator s L) (hs : s.addStep drq = some s') :
    ∃ L', Elevator s' L' ∧ (L' = L ∨ ∃ req, Inserted L L' req) := by
  have hpl := h.placing
  have hok := h.queue.pc
  have hs₀ := hs
  unfold State.addStep at hs
  cases hcase : s.pc with
  | idle =>
    rw [hcase] at hs
    cases hs
  | start req =>
    rw [hcase] at hs
    cases hs
    exact ⟨L, h.setPc hs₀ (by rw [hcase]; rfl) trivial, .inl rfl⟩
  | first req =>
    rw [hcase] at hs
    dsimp only at hs
    split at hs
    · cases hs
      exact ⟨L, h.setPc hs₀ (by rw [hcase]; rfl) trivial, .inl rfl⟩
    · rename_i tmp htmp
      cases hs
      exact ⟨L, h.setPc hs₀ (by rw [hcase]; rfl)
        (List.head?_eq_some_iff.mp (h.queue.head?_eq.trans htmp)), .inl rfl⟩
  | setThis req =>
    rw [hcase] at hs hok
    cases hs
    obtain ⟨-, hnext, rfl⟩ := hok
    have hins : Inserted [] [req] req := ⟨[], [], rfl, rfl, .inr rfl⟩
    exact ⟨[req], h.linked hs₀ ⟨rfl, hnext⟩ rfl (fun _ => rfl) rfl (by rw [hcase]; rfl) rfl hins
      (Rising.nil).twoSweeps, .inr ⟨req, hins⟩⟩
  | testNext req tmp =>
    rw [hcase] at hs hpl
    obtain ⟨l, rfl⟩ := hpl
    have hnext : nextOf s tmp = l.head? := listed_next (l := []) h.queue.listed
    dsimp only at hs
    split at hs
    · rename_i hnone
      cases hs
      refine ⟨tmp :: l, h.setPc hs₀ (by rw [hcase]; rfl) ?_, .inl rfl⟩
      obtain rfl := List.head?_eq_none_iff.mp (hnext.symm.trans hnone)
      rfl
    · rename_i t ht
      cases hs
      refine ⟨tmp :: l, h.setPc hs₀ (by rw [hcase]; rfl) ?_, .inl rfl⟩
      obtain ⟨r, rfl⟩ := List.head?_eq_some_iff.mp (hnext.symm.trans ht)
      exact ⟨t, r, rfl⟩
  | setNext req tmp =>
    rw [hcase] at hs hpl hok
    obtain rfl := hpl
    obtain ⟨hf, hnext, -, hnone, -⟩ := hok
    cases hs
    obtain ⟨L', hL', hins⟩ := h.behind (l := []) hs₀ (Queue.behind req tmp) hf
        (hnext.trans hnone.symm)
      (by rw [hcase]; rfl) (.inr rfl) (Rising.singleton req).twoSweeps
    exact ⟨L', hL', .inr ⟨req, hins⟩⟩
  | skip req tmp =>
    rw [hcase] at hs hpl
    obtain ⟨t, ht, rfl⟩ := Option.map_eq_some_iff.mp hs
    obtain ⟨u, l, rfl⟩ := hpl
    have hnext : nextOf s tmp = some u := listed_next (l := []) h.queue.listed
    obtain rfl : t = u := Option.some.inj (ht.symm.trans hnext)
    exact ⟨_, h.setPc hs₀ (by rw [hcase]; rfl) ⟨tmp, [], l, rfl, rfl⟩, .inl rfl⟩
  | loop req tmp =>
    rw [hcase] at hs hpl
    obtain ⟨c, l, r, rfl, hplace⟩ := hpl
    have hnext : nextOf s tmp = r.head? := listed_next (l := c :: l) h.queue.listed
    dsimp only at hs
    split at hs
    · -- The end of the list.
      rename_i hnone
      cases hs
      refine ⟨_, h.setPc hs₀ (by rw [hcase]; rfl) ?_, .inl rfl⟩
      obtain rfl := List.head?_eq_none_iff.mp (hnext.symm.trans hnone)
      exact ⟨c, l, [], rfl, hplace⟩
    · cases hs
      exact ⟨_, h.setPc hs₀ (by rw [hcase]; rfl) ⟨c, l, r, rfl, hplace⟩, .inl rfl⟩
  | order req tmp =>
    rw [hcase] at hs hpl
    obtain ⟨t, ht, hs⟩ := Option.map_eq_some_iff.mp hs
    obtain ⟨c, l, r, rfl, hplace⟩ := hpl
    have hnext : nextOf s tmp = r.head? := listed_next (l := c :: l) h.queue.listed
    obtain ⟨r, rfl⟩ := List.head?_eq_some_iff.mp (hnext.symm.trans ht)
    have htest : (State.inOrder (s.request tmp) (s.request req) ||
          !State.inOrder (s.request tmp) (s.request t)) &&
          State.inOrder (s.request req) (s.request t) ↔
        (keyOf s tmp < keyOf s req ∨ ¬ keyOf s tmp < keyOf s t) ∧ keyOf s req < keyOf s t := by
      simp only [Bool.and_eq_true, Bool.or_eq_true, Bool.not_eq_true', ← Bool.not_eq_true,
        inOrder_iff, keyOf]
    rw [place] at hplace
    by_cases hif : (keyOf s tmp < keyOf s req ∨ ¬ keyOf s tmp < keyOf s t) ∧
        keyOf s req < keyOf s t
    · rw [if_pos (htest.mpr hif)] at hs
      rw [if_pos hif] at hplace
      subst hs
      exact ⟨_, h.setPc hs₀ (by rw [hcase]; rfl) ⟨c, l, t :: r, rfl, hplace⟩, .inl rfl⟩
    · rw [if_neg (mt htest.mp hif)] at hs
      rw [if_neg hif] at hplace
      subst hs
      exact ⟨_, h.setPc hs₀ (by rw [hcase]; rfl) ⟨c, l ++ [tmp], r, by simp, by simpa using hplace⟩,
        .inl rfl⟩
  | copyNext req tmp =>
    rw [hcase] at hs hpl hok
    obtain ⟨hf, -⟩ := hok
    cases hs
    have hother {q : Fin 32} (hq : q ∈ L) : q ≠ req := fun heq => hf.notMem (heq ▸ hq)
    refine ⟨L, h.kept hs₀ rfl (fun q hq => ?_) rfl (fun q => ?_) ?_ (by rw [hcase]; rfl)
      hpl, .inl rfl⟩
    · exact congrArg Request.next (Function.update_of_ne (hother hq) ..)
    · simp only [State.setRequest, Function.update_apply]
      split_ifs with hq
      · rw [hq]
      · rfl
    · funext q
      simp only [keyOf, State.setRequest, Function.update_apply]
      split_ifs with hq
      · rw [hq]
        rfl
      · rfl
  | link req tmp =>
    rw [hcase] at hs hpl hok
    obtain ⟨c, l, r, rfl, hplace⟩ := hpl
    obtain ⟨hf, hnext, -⟩ := hok
    cases hs
    have hadding : s.pc.adding = some req := by rw [hcase]; rfl
    have hsweeps := h.sweeps.place fun q hq => h.fresh req hadding q (List.mem_of_mem_tail hq)
    rw [List.tail_cons, hplace] at hsweeps
    obtain ⟨L', hL', hins⟩ := Elevator.behind (l := c :: l) h hs₀ (Queue.behind req tmp) hf hnext
      hadding (.inl (List.cons_ne_nil _ _)) hsweeps
    exact ⟨L', hL', .inr ⟨req, hins⟩⟩
  | finish =>
    rw [hcase] at hs
    cases hs
    exact ⟨L, h.setPc hs₀ (by rw [hcase]; rfl) trivial, .inl rfl⟩
  | restart =>
    rw [hcase] at hs
    cases hs
    refine ⟨L, h.setPc hs₀ ?_ ?_, .inl rfl⟩
    · rw [hcase]
      split <;> rfl
    · split <;> trivial
  | call =>
    rw [hcase] at hs
    have hs : State.doRequest { s with pc := .idle } drq = some s' := hs
    obtain ⟨hreq, hthis, -, hpc, hlinked⟩ := doRequest_kept hs
    refine ⟨L, h.kept hs₀ hthis (fun _ _ => ?_) hlinked (fun _ => ?_) ?_ ?_ ?_, .inl rfl⟩
    · rw [nextOf, hreq]
      rfl
    · rw [hreq]
    · funext q
      rw [keyOf, hreq]
      rfl
    · rw [hpc, hcase]
      rfl
    · rw [hpc]
      trivial

/-! ### Runs -/

theorem Elevator.init (buffer : ℕ → Buffer D) (disk : ℤ → ℕ → ℕ → ℕ → D) :
    Elevator (State.init buffer disk) [] where
  queue := Queue.init buffer disk
  mem _ h := nomatch h
  used _ h := absurd (show (0 : ℤ) ≤ -1 from h) (by decide)
  sweeps := (Rising.nil).twoSweeps
  fresh _ h := nomatch h
  placing := trivial

/-- What a step does to the list. -/
theorem Elevator.step (h : Elevator s L) {e : Event} (hs : ElevatorStep s e s') :
    ∃ L', Elevator s' L' ∧ (L' = L ∨ (∃ drq req, e = .add drq ∧ Inserted L L' req) ∨
      ∃ ok drq r, e = .intr ok drq ∧ L = r :: L') := by
  obtain ⟨hs, hidle, hnew⟩ := hs
  cases e with
  | submit cmd nr sec head cyl bh => exact ⟨L, h.submit hnew hs, .inl rfl⟩
  | add drq =>
    obtain ⟨L', hL', heq | ⟨req, hins⟩⟩ := h.addStep hs
    · exact ⟨L', hL', .inl heq⟩
    · exact ⟨L', hL', .inr (.inl ⟨drq, req, rfl, hins⟩)⟩
  | intr ok drq =>
    obtain ⟨L', hL', heq | ⟨r, heq⟩⟩ := h.intr (hidle rfl) hs
    · exact ⟨L', hL', .inl heq⟩
    · exact ⟨L', hL', .inr (.inr ⟨ok, drq, r, rfl, heq⟩)⟩

/-- Elevator order: the requests linked from `this_request` on are those that have been added and
not completed, each once. The ones behind the current request are in two sweeps. An insertion leaves
the current request and its successor in their places, and a completion takes the current request
away. -/
theorem elevator_order {buffer : ℕ → Buffer D} {disk : ℤ → ℕ → ℕ → ℕ → D} {es : List Event}
    {s : State D} (h : Runs ElevatorStep (State.init buffer disk) es s) :
    ∃ L, Listed (nextOf s) s.thisRequest L ∧ L.Nodup ∧ (∀ r, r ∈ L ↔ s.linked r = true) ∧
      (s.pc = .idle → ∀ r, r ∈ L ↔ 0 ≤ (s.request r).hd) ∧ TwoSweeps (keyOf s) L.tail ∧
      ∀ e s', ElevatorStep s e s' → ∃ L', Listed (nextOf s') s'.thisRequest L' ∧
        (L' = L ∨ (∃ drq req, e = .add drq ∧ Inserted L L' req) ∨
          ∃ ok drq r, e = .intr ok drq ∧ L = r :: L') := by
  obtain ⟨L, hL⟩ : ∃ L, Elevator s L :=
    h.invariant (I := fun s => ∃ L, Elevator s L) (fun s e s' ⟨L, hI⟩ hs => by
      obtain ⟨L', hL', -⟩ := hI.step hs
      exact ⟨L', hL'⟩) ⟨[], .init buffer disk⟩
  refine ⟨L, hL.queue.listed, hL.queue.nodup, fun r => ⟨hL.queue.linked r, hL.mem r⟩,
    fun hidle r => ⟨fun hr => hL.queue.used r (hL.queue.linked r hr), fun hr => ?_⟩, hL.sweeps,
    fun e s' hs => ?_⟩
  · refine hL.mem r ((hL.used r hr).resolve_right fun hc => ?_)
    rw [hidle] at hc
    cases hc
  · obtain ⟨L', hL', heffect⟩ := hL.step hs
    exact ⟨L', hL'.queue.listed, heffect⟩

instance (s : State D) : (e : Event) → Decidable (NewPlace s e)
  | .submit _ _ _ _ _ _ => inferInstanceAs (Decidable (∀ r, s.linked r = true → keyOf s r ≠ _))
  | .add _ => .isTrue trivial
  | .intr _ _ => .isTrue trivial

/-- Four requests, of which the third one is put in behind the fourth one. -/
theorem elevator_order_four : ∃ es s, Runs ElevatorStep State.zero es s ∧
    ∃ L, Listed (nextOf s) s.thisRequest L ∧ L.Nodup ∧ TwoSweeps (keyOf s) L.tail ∧ 3 ∈ L := by
  have hexec : (exec (fun s e => (State.next s e).filter fun _ =>
      (e.isIntr = true → s.pc = .idle) ∧ NewPlace s e) State.zero
      (reads 0 0 6 ++ reads 2 1 6 ++ reads 6 2 9 ++ reads 4 3 10)).map (fun s => s.linked 3) =
        some true := by decide +kernel
  obtain ⟨s, hs, hlinked⟩ := Option.map_eq_some_iff.mp hexec
  have hrun : Runs ElevatorStep State.zero _ s := runs_of_exec_guarded hs
  obtain ⟨L, hlisted, hnodup, hmem, -, hsweeps, -⟩ := elevator_order hrun
  exact ⟨_, s, hrun, L, hlisted, hnodup, hsweeps, (hmem 3).mpr hlinked⟩

end Linux001.Hd
