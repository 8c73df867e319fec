import Linux001.Hd.Interrupts

/-!
# The request queue

The requests linked from `this_request` on form a list, at every statement of `add_request` and
after every interrupt. The argument of the source is that the handlers touch the first two elements
only: while `sorting` is set, `do_request` issues no command, so that at most one request is
completed. `add_request` walks through the list behind its first element, which is then never
completed. With a single request in the queue `add_request` stores to that request itself, and
loses the new one if the handler completes it in between.

## Main definitions

* `Queue s L`: the requests linked from `this_request` on are `L`, in order.
* `LinksLast`: `add_request` is about to link behind the only request.

## Main results

* `linked_reachable`: every request that has been linked in and has not been completed is reachable,
  unless the only request is completed while `add_request` links behind it.
* `command_outstanding`: a command is outstanding while the queue is not empty, unless an interrupt
  calls `do_request` while the queue is sorted.
-/

namespace Linux001.Hd

variable {D : Type} {s s' : State D} {ok drq : Bool} {L : List (Fin 32)}

/-- The `next` pointers. -/
def nextOf (s : State D) (r : Fin 32) : Option (Fin 32) := (s.request r).next

/-- `add_request` has set `sorting`. -/
def AddPc.sorts : AddPc → Bool
  | .idle | .start _ | .restart | .call => false
  | _ => true

/-- A request that is not linked yet. -/
structure Fresh (s : State D) (L : List (Fin 32)) (req : Fin 32) : Prop where
  used : 0 ≤ (s.request req).hd
  notMem : req ∉ L
  unlinked : s.linked req = false

/-- What `add_request` knows at each statement. Once a request has been completed, no transfer is
outstanding as long as `sorting` is set. -/
def PcOk (s : State D) (L : List (Fin 32)) : AddPc → Prop
  | .idle | .finish | .restart | .call => True
  | .start req | .first req => Fresh s L req ∧ nextOf s req = none
  | .setThis req => Fresh s L req ∧ nextOf s req = none ∧ L = []
  | .testNext req tmp => Fresh s L req ∧ nextOf s req = none ∧ tmp ≠ req ∧
      (L.head? = some tmp ∨ ¬ Transferring s ∧ s.thisRequest = nextOf s tmp)
  | .setNext req tmp => Fresh s L req ∧ nextOf s req = none ∧ tmp ≠ req ∧ nextOf s tmp = none ∧
      (L = [tmp] ∨ ¬ Transferring s ∧ L = [])
  | .skip req tmp => Fresh s L req ∧ tmp ≠ req ∧
      (L.head? = some tmp ∨ ¬ Transferring s ∧ s.thisRequest = nextOf s tmp)
  | .loop req tmp | .order req tmp | .copyNext req tmp =>
      Fresh s L req ∧ tmp ∈ L ∧ (L.head? ≠ some tmp ∨ ¬ Transferring s)
  | .link req tmp => Fresh s L req ∧ nextOf s req = nextOf s tmp ∧ tmp ∈ L ∧
      (L.head? ≠ some tmp ∨ ¬ Transferring s)

/-- The requests linked from `this_request` on are `L`. -/
structure Queue (s : State D) (L : List (Fin 32)) : Prop where
  listed : Listed (nextOf s) s.thisRequest L
  nodup : L.Nodup
  linked : ∀ r ∈ L, s.linked r = true
  used : ∀ r, s.linked r = true → 0 ≤ (s.request r).hd
  wired : Wired s
  doHd : s.doHd = none → s.ctl = none
  call : s.pc = .call → s.doHd = none
  sorting : s.sorting = s.pc.sorts
  pc : PcOk s L s.pc

namespace Queue

theorem init (buffer : ℕ → Buffer D) (disk : ℤ → ℕ → ℕ → ℕ → D) :
    Queue (State.init buffer disk) [] where
  listed := rfl
  nodup := List.nodup_nil
  linked _ h := nomatch h
  used _ h := nomatch h
  wired := ⟨(nomatch ·), (nomatch ·)⟩
  doHd _ := rfl
  call h := nomatch h
  sorting := rfl
  pc := trivial

theorem head?_eq (h : Queue s L) : L.head? = s.thisRequest := by
  cases L with
  | nil => exact h.listed.symm
  | cons r L => exact h.listed.1.symm

/-! ### Interrupts -/

/-- The knowledge of `add_request` is kept when the queue is. -/
theorem pcOk_kept (hk : Kept s s') {pc : AddPc} (hpc : PcOk s L pc)
    (hquiet : pc.sorts = true → ¬ Transferring s → ¬ Transferring s') : PcOk s' L pc := by
  have hnext : nextOf s' = nextOf s := funext hk.next
  have hfresh {req : Fin 32} (hf : Fresh s L req) : Fresh s' L req :=
    ⟨hk.hd req ▸ hf.used, hf.notMem, hk.linked ▸ hf.unlinked⟩
  cases pc with
  | idle | finish | restart | call => trivial
  | start req | first req | setThis req =>
    simp only [PcOk, hnext] at hpc ⊢
    exact ⟨hfresh hpc.1, hpc.2⟩
  | testNext req tmp =>
    simp only [PcOk, hnext, hk.this] at hpc ⊢
    exact ⟨hfresh hpc.1, hpc.2.1, hpc.2.2.1, hpc.2.2.2.imp_right fun h => ⟨hquiet rfl h.1, h.2⟩⟩
  | setNext req tmp =>
    simp only [PcOk, hnext] at hpc ⊢
    exact ⟨hfresh hpc.1, hpc.2.1, hpc.2.2.1, hpc.2.2.2.1,
      hpc.2.2.2.2.imp_right fun h => ⟨hquiet rfl h.1, h.2⟩⟩
  | skip req tmp =>
    simp only [PcOk, hnext, hk.this] at hpc ⊢
    exact ⟨hfresh hpc.1, hpc.2.1, hpc.2.2.imp_right fun h => ⟨hquiet rfl h.1, h.2⟩⟩
  | loop req tmp | order req tmp | copyNext req tmp =>
    simp only [PcOk] at hpc ⊢
    exact ⟨hfresh hpc.1, hpc.2.1, hpc.2.2.imp_right (hquiet rfl)⟩
  | link req tmp =>
    simp only [PcOk, hnext] at hpc ⊢
    exact ⟨hfresh hpc.1, hpc.2.1, hpc.2.2.1, hpc.2.2.2.imp_right (hquiet rfl)⟩

/-- The knowledge of `add_request` after the head of the queue has been completed. -/
theorem pcOk_popped {r : Fin 32} (h : Queue s (r :: L)) (hp : Popped s s' r)
    (htr : Transferring s) (hquiet : s.pc.sorts = true → ¬ Transferring s') : PcOk s' L s.pc := by
  have hnext : nextOf s' = nextOf s := funext hp.next
  have hnot : r ∉ L := (List.nodup_cons.mp h.nodup).1
  have hfresh {req : Fin 32} (hf : Fresh s (r :: L) req) : Fresh s' L req := by
    have hne : req ≠ r := fun heq => hf.notMem (heq ▸ List.mem_cons_self)
    refine ⟨hp.hd req hne ▸ hf.used, fun hm => hf.notMem (List.mem_cons_of_mem _ hm), ?_⟩
    rw [hp.linked, Function.update_of_ne hne]
    exact hf.unlinked
  have hpc := h.pc
  revert hpc hquiet
  cases s.pc with
  | idle | finish | restart | call => exact fun _ _ => trivial
  | start req | first req =>
    intro _ hpc
    simp only [PcOk, hnext] at hpc ⊢
    exact ⟨hfresh hpc.1, hpc.2⟩
  | setThis req =>
    intro _ hpc
    exact absurd hpc.2.2 (List.cons_ne_nil _ _)
  | testNext req tmp =>
    intro hquiet hpc
    simp only [PcOk, hnext] at hpc ⊢
    refine ⟨hfresh hpc.1, hpc.2.1, hpc.2.2.1, .inr ⟨hquiet rfl, ?_⟩⟩
    rcases hpc.2.2.2 with hhead | ⟨hq, -⟩
    · obtain rfl : r = tmp := Option.some.inj hhead
      exact hp.this
    · exact absurd htr hq
  | setNext req tmp =>
    intro hquiet hpc
    simp only [PcOk, hnext] at hpc ⊢
    refine ⟨hfresh hpc.1, hpc.2.1, hpc.2.2.1, hpc.2.2.2.1, .inr ⟨hquiet rfl, ?_⟩⟩
    rcases hpc.2.2.2.2 with hL | ⟨hq, -⟩
    · exact (List.cons.inj hL).2
    · exact absurd htr hq
  | skip req tmp =>
    intro hquiet hpc
    simp only [PcOk, hnext] at hpc ⊢
    refine ⟨hfresh hpc.1, hpc.2.1, .inr ⟨hquiet rfl, ?_⟩⟩
    rcases hpc.2.2 with hhead | ⟨hq, -⟩
    · obtain rfl : r = tmp := Option.some.inj hhead
      exact hp.this
    · exact absurd htr hq
  | loop req tmp | order req tmp | copyNext req tmp =>
    intro hquiet hpc
    simp only [PcOk] at hpc ⊢
    refine ⟨hfresh hpc.1, ?_, .inr (hquiet rfl)⟩
    rcases List.mem_cons.mp hpc.2.1 with rfl | hm
    · exact absurd htr (hpc.2.2.resolve_left fun hne => hne rfl)
    · exact hm
  | link req tmp =>
    intro hquiet hpc
    simp only [PcOk, hnext] at hpc ⊢
    refine ⟨hfresh hpc.1, hpc.2.1, ?_, .inr (hquiet rfl)⟩
    rcases List.mem_cons.mp hpc.2.2.1 with rfl | hm
    · exact absurd htr (hpc.2.2.2.resolve_left fun hne => hne rfl)
    · exact hm

/-- An interrupt leaves the list alone or removes its head. -/
theorem intr (h : Queue s L) (hs : s.intr ok drq = some s') :
    (Kept s s' ∧ Queue s' L ∧ ¬ Completes s ok) ∨
      ∃ r L', L = r :: L' ∧ Popped s s' r ∧ Queue s' L' ∧ Completes s ok := by
  have he := intr_effect h.wired hs
  have hcall : s'.pc = .call → s'.doHd = none := fun hpc => by
    have hctl : s.ctl = none := h.doHd (h.call (he.pc ▸ hpc))
    simp [State.intr, State.transfer, hctl] at hs
  rcases he.queue with ⟨hk, hnot⟩ | ⟨r, hp, hc⟩
  · refine .inl ⟨hk, ⟨?_, h.nodup, ?_, ?_, he.wired, he.doHd, hcall, ?_, ?_⟩, hnot⟩
    · rw [hk.this]
      exact h.listed.congr fun q _ => hk.next q
    · exact hk.linked ▸ h.linked
    · intro q hq
      rw [hk.hd]
      exact h.used q (hk.linked ▸ hq)
    · rw [he.sorting, he.pc, h.sorting]
    · rw [he.pc]
      exact pcOk_kept hk h.pc fun hsort hq => he.quiet (h.sorting.trans hsort) (.inr hq)
  · obtain ⟨L', rfl⟩ : ∃ L', L = r :: L' := by
      cases L with
      | nil =>
        have hnone : s.thisRequest = none := h.listed
        rw [hp.head] at hnone
        cases hnone
      | cons q L =>
        obtain rfl : r = q := Option.some.inj (hp.head.symm.trans h.listed.1)
        exact ⟨L, rfl⟩
    have hnot : r ∉ L' := (List.nodup_cons.mp h.nodup).1
    refine .inr ⟨r, L', rfl, hp, ⟨?_, (List.nodup_cons.mp h.nodup).2, fun q hq => ?_,
      fun q hq => ?_,
      he.wired, he.doHd, hcall, ?_, ?_⟩, hc⟩
    · rw [hp.this]
      exact h.listed.2.congr fun q _ => hp.next q
    · have hqr : q ≠ r := fun heq => hnot (heq ▸ hq)
      rw [hp.linked, Function.update_of_ne hqr]
      exact h.linked q (List.mem_cons_of_mem _ hq)
    · rw [hp.linked, Function.update_apply] at hq
      split_ifs at hq with hqr
      rw [hp.hd q hqr]
      exact h.used q hq
    · rw [he.sorting, he.pc, h.sorting]
    · rw [he.pc]
      exact pcOk_popped h hp hc.1 fun hsort => he.quiet (h.sorting.trans hsort) (.inl hc)

/-! ### `rw_abs_hd` and `add_request` -/

/-- A request is filled in that is not in the queue. -/
theorem submit (h : Queue s L) {cmd : Cmd} {nr sec head cyl bh : ℕ}
    (hs : s.submit cmd nr sec head cyl bh = some s') :
    Queue s' L ∧ s'.linked = s.linked ∧ s'.thisRequest = s.thisRequest ∧ s'.ctl = s.ctl ∧
      s'.doHd = s.doHd ∧ ∃ r, s'.pc = .start r := by
  unfold State.submit at hs
  split at hs
  · rename_i hidle
    obtain ⟨r, hr, hs'⟩ := Option.map_eq_some_iff.mp hs
    have hthis : s'.thisRequest = s.thisRequest := by rw [← hs']; rfl
    have hlinked : s'.linked = s.linked := by rw [← hs']; rfl
    have hctl : s'.ctl = s.ctl := by rw [← hs']; rfl
    have hdo : s'.doHd = s.doHd := by rw [← hs']; rfl
    have hpc : s'.pc = .start r := by rw [← hs']
    have hsorting : s'.sorting = s.sorting := by rw [← hs']; rfl
    have hreq : s'.request = Function.update s.request r
        ⟨nr, 2, sec, head, cyl, cmd, 0, bh, none⟩ := by
      rw [← hs']
      rfl
    have hfree : (s.request r).hd < 0 := by simpa using List.find?_some hr
    have hunlinked : s.linked r = false := by
      by_contra hl
      have := h.used r (by simpa using hl)
      omega
    have hnot : r ∉ L := fun hm => by
      have := h.used r (h.linked r hm)
      omega
    have hother {q : Fin 32} (hq : q ≠ r) : s'.request q = s.request q := by
      rw [hreq, Function.update_of_ne hq]
    refine ⟨⟨?_, h.nodup, hlinked ▸ h.linked, fun q hq => ?_, ⟨fun hc => ?_, fun hc => ?_⟩, ?_,
      fun hc => ?_, ?_, ?_⟩, hlinked, hthis, hctl, hdo, r, hpc⟩
    · rw [hthis]
      refine h.listed.congr fun q hq => ?_
      have hqr : q ≠ r := fun heq => hnot (heq ▸ hq)
      exact congrArg Request.next (hother hqr)
    · rw [hlinked] at hq
      have hqr : q ≠ r := by
        rintro rfl
        rw [hunlinked] at hq
        cases hq
      rw [hother hqr]
      exact h.used q hq
    · rw [hctl] at hc
      obtain ⟨hd, q, hq, hn⟩ := h.wired.rw hc
      have hqr : q ≠ r := by
        rintro rfl
        have hhead := h.head?_eq
        rw [hq] at hhead
        exact hnot (List.mem_of_mem_head? hhead)
      exact ⟨hdo.trans hd, q, hthis.trans hq, by rw [hother hqr, hn]⟩
    · rw [hdo]
      exact h.wired.specify (hctl ▸ hc)
    · rw [hdo, hctl]
      exact h.doHd
    · rw [hpc] at hc
      cases hc
    · have hsort := h.sorting
      rw [hidle] at hsort
      rw [hsorting, hpc, hsort]
      rfl
    · rw [hpc]
      refine ⟨⟨?_, hnot, hlinked ▸ hunlinked⟩, ?_⟩
      · rw [hreq, Function.update_self]
        exact Int.natCast_nonneg nr
      · simp only [nextOf, hreq, Function.update_self]
  · cases hs

/-- The rest of the invariant when only the statement of `add_request` changes. -/
theorem setPc (h : Queue s L) {pc : AddPc} {sorting : Bool} (hsort : sorting = pc.sorts)
    (hpc : PcOk s L pc) (hcall : pc = .call → s.doHd = none := by exact (nomatch ·)) :
    Queue { s with sorting := sorting, pc := pc } L := by
  refine ⟨h.listed, h.nodup, h.linked, h.used, ⟨h.wired.rw, h.wired.specify⟩, h.doHd,
    hcall, hsort, ?_⟩
  have hkept : Kept s { s with sorting := sorting, pc := pc } :=
    ⟨rfl, fun _ => rfl, fun _ => rfl, rfl⟩
  exact pcOk_kept hkept hpc fun _ hq => hq

/-- The request `req` has been linked in behind the entry `tmp`. -/
structure Behind (s s' : State D) (req tmp : Fin 32) : Prop where
  this : s'.thisRequest = s.thisRequest
  request : s'.request =
    Function.update s.request tmp { s.request tmp with next := some req }
  linked : s'.linked = Function.update s.linked req true
  ctl : s'.ctl = s.ctl
  doHd : s'.doHd = s.doHd
  sorting : s'.sorting = s.sorting
  pc : s'.pc = .finish

theorem behind (req tmp : Fin 32) : Behind s
    { (s.markLinked req).setRequest tmp (fun q => { q with next := some req }) with pc := .finish }
    req tmp :=
  ⟨rfl, rfl, rfl, rfl, rfl, rfl, rfl⟩

namespace Behind

variable {req tmp : Fin 32}

theorem nextOf (hb : Behind s s' req tmp) :
    Hd.nextOf s' = Function.update (Hd.nextOf s) tmp (some req) := by
  funext q
  simp only [Hd.nextOf, hb.request, Function.update_apply]
  split_ifs <;> rfl

theorem hd (hb : Behind s s' req tmp) (q : Fin 32) : (s'.request q).hd = (s.request q).hd := by
  simp only [hb.request, Function.update_apply]
  split_ifs with hq <;> simp [hq]

theorem nsector (hb : Behind s s' req tmp) (q : Fin 32) :
    (s'.request q).nsector = (s.request q).nsector := by
  simp only [hb.request, Function.update_apply]
  split_ifs with hq <;> simp [hq]

/-- The parts of the invariant that do not depend on the order of the queue. -/
theorem queue (hb : Behind s s' req tmp) (h : Queue s L) (hf : Fresh s L req)
    (hsort : s.sorting = true) {L' : List (Fin 32)}
    (hlisted : Listed (Hd.nextOf s') s'.thisRequest L') (hnodup : L'.Nodup)
    (hmem : ∀ r ∈ L', r = req ∨ r ∈ L) : Queue s' L' := by
  refine ⟨hlisted, hnodup, fun q hq => ?_, fun q hq => ?_, ⟨fun hc => ?_, fun hc => ?_⟩, ?_,
    fun hc => ?_, ?_, ?_⟩
  · rw [hb.linked, Function.update_apply]
    split_ifs with hqr
    · rfl
    · exact h.linked q ((hmem q hq).resolve_left hqr)
  · rw [hb.hd]
    rw [hb.linked, Function.update_apply] at hq
    split_ifs at hq with hqr
    · exact hqr ▸ hf.used
    · exact h.used q hq
  · rw [hb.ctl] at hc
    obtain ⟨hd, q, hq, hn⟩ := h.wired.rw hc
    exact ⟨hb.doHd.trans hd, q, hb.this.trans hq, (hb.nsector q).trans hn⟩
  · rw [hb.doHd]
    exact h.wired.specify (hb.ctl ▸ hc)
  · rw [hb.doHd, hb.ctl]
    exact h.doHd
  · rw [hb.pc] at hc
    cases hc
  · rw [hb.sorting, hb.pc, hsort]
    rfl
  · rw [hb.pc]
    trivial

/-- Linking behind an entry of the queue puts the request in. -/
theorem insert (hb : Behind s s' req tmp) (h : Queue s L) (hf : Fresh s L req) (htmp : tmp ∈ L)
    (hsort : s.sorting = true) (hnext : Hd.nextOf s req = Hd.nextOf s tmp) :
    ∃ L', Queue s' L' ∧ req ∈ L' ∧ ∀ r ∈ L, r ∈ L' := by
  obtain ⟨l, r, rfl⟩ := List.append_of_mem htmp
  have hperm : (l ++ tmp :: req :: r).Perm (req :: (l ++ tmp :: r)) := by
    have := @List.perm_middle _ req (l ++ [tmp]) r
    simpa using this
  refine ⟨l ++ tmp :: req :: r, hb.queue h hf hsort ?_ ?_ fun q hq => ?_, by simp, fun q hq => ?_⟩
  · rw [hb.nextOf, hb.this]
    exact h.listed.insert h.nodup hf.notMem hnext
  · exact hperm.nodup_iff.mpr (List.nodup_cons.mpr ⟨hf.notMem, h.nodup⟩)
  · exact List.mem_cons.mp (hperm.mem_iff.mp hq)
  · exact hperm.mem_iff.mpr (List.mem_cons_of_mem _ hq)

end Behind

/-- The pointer of the new request is set; it is not in the queue yet. -/
theorem copyNext (h : Queue s L) {req tmp : Fin 32} (hpc : PcOk s L (.copyNext req tmp))
    (hsort : s.sorting = true) :
    Queue { s.setRequest req (fun q => { q with next := (s.request tmp).next }) with
      pc := .link req tmp } L := by
  obtain ⟨hf, hmem, hL⟩ := hpc
  have htmp : tmp ≠ req := fun heq => hf.notMem (heq ▸ hmem)
  have hother {q : Fin 32} (hq : q ≠ req) (f : Request → Request) :
      (s.setRequest req f).request q = s.request q := Function.update_of_ne hq ..
  refine ⟨?_, h.nodup, h.linked, fun q hq => ?_, ⟨fun hc => ?_, h.wired.specify⟩, h.doHd,
    (nomatch ·),
    hsort, ⟨?_, hf.notMem, hf.unlinked⟩, ?_, hmem, hL⟩
  · refine h.listed.congr fun q hq => ?_
    have hqr : q ≠ req := fun heq => hf.notMem (heq ▸ hq)
    exact congrArg Request.next (Function.update_of_ne hqr _ _)
  · by_cases hqr : q = req
    · subst hqr
      simpa [State.setRequest] using hf.used
    · rw [hother hqr]
      exact h.used q hq
  · obtain ⟨hd, q, hq, hn⟩ := h.wired.rw hc
    have hqr : q ≠ req := by
      rintro rfl
      exact hf.notMem (List.mem_of_mem_head? (h.head?_eq.trans hq))
    exact ⟨hd, q, hq, by rw [hother hqr]; exact hn⟩
  · simpa [State.setRequest] using hf.used
  · simp [nextOf, State.setRequest, Function.update_of_ne htmp]

/-- What a statement of `add_request` does to the queue: nothing, or it puts the request in, or it
links the request behind one that has just been completed. -/
def Added (s : State D) (L : List (Fin 32)) (s' : State D) (L' : List (Fin 32)) : Prop :=
  (L' = L ∧ s'.linked = s.linked) ∨
  (∃ req, s'.linked = Function.update s.linked req true ∧ req ∈ L' ∧ (∀ r ∈ L, r ∈ L') ∧
    s'.pc = .finish) ∨
  ((∃ req tmp, s.pc = .setNext req tmp) ∧ L = [])

/-- The list has one element when `add_request` sees that no request follows it. -/
theorem pcOk_setNext {req tmp : Fin 32} (h : Queue s L) (hpc : PcOk s L (.testNext req tmp))
    (hnone : (s.request tmp).next = none) : PcOk s L (.setNext req tmp) := by
  obtain ⟨hf, hnext, hne, hL⟩ := hpc
  refine ⟨hf, hnext, hne, hnone, ?_⟩
  rcases hL with hhead | ⟨hq, hthis⟩
  · refine .inl ?_
    cases L with
    | nil => cases hhead
    | cons r L =>
      obtain rfl : r = tmp := Option.some.inj hhead
      have hl := h.listed.2
      rw [nextOf, hnone] at hl
      cases L with
      | nil => rfl
      | cons q L => cases hl.1
  · refine .inr ⟨hq, List.head?_eq_none_iff.mp ?_⟩
    rw [h.head?_eq, hthis]
    exact hnone

/-- The search begins behind the first request, or at the request that has become the first. -/
theorem pcOk_loop {req tmp t : Fin 32} (h : Queue s L) (hpc : PcOk s L (.skip req tmp))
    (ht : (s.request tmp).next = some t) : PcOk s L (.loop req t) := by
  obtain ⟨hf, hne, hL⟩ := hpc
  refine ⟨hf, ?_⟩
  rcases hL with hhead | ⟨hq, hthis⟩
  · -- `tmp` is the head, and `t` comes after it.
    cases L with
    | nil => cases hhead
    | cons r L =>
      obtain rfl : r = tmp := Option.some.inj hhead
      have hl := h.listed.2
      rw [nextOf, ht] at hl
      cases L with
      | nil => cases hl
      | cons q L =>
        obtain rfl : t = q := Option.some.inj hl.1
        refine ⟨by simp, .inl ?_⟩
        intro heq
        obtain rfl : r = t := Option.some.inj heq
        exact (List.nodup_cons.mp h.nodup).1 List.mem_cons_self
  · -- `tmp` has been completed, and `t` is the head; it will not be completed.
    refine ⟨List.mem_of_mem_head? ?_, .inr hq⟩
    rw [h.head?_eq, hthis]
    exact ht

/-- The call of `do_request` at the end leaves the list alone. -/
theorem call_kept (h : Queue s L) (hcase : s.pc = .call)
    (hs : State.doRequest { s with pc := .idle } drq = some s') :
    Queue s' L ∧ s'.linked = s.linked := by
  obtain ⟨hreq, hthis, hsort', hpc', hlinked⟩ := doRequest_kept hs
  have hctl : State.ctl { s with pc := .idle } = none := h.doHd (h.call hcase)
  refine ⟨⟨?_, h.nodup, hlinked ▸ h.linked, ?_, doRequest_wired hctl hs, fun hd => ?_,
    ?_, ?_, ?_⟩, hlinked⟩
  · have hnext : nextOf s' = nextOf s := by
      funext r
      rw [nextOf, hreq]
      rfl
    rw [hnext, hthis]
    exact h.listed
  · rw [hreq, hlinked]
    exact h.used
  · rcases doRequest_ctl hctl hs with ⟨-, hc⟩ | ⟨-, hc, -⟩ | ⟨hne, -⟩
    · exact hc
    · exact hc
    · exact absurd hd hne
  · rw [hpc']
    exact (nomatch ·)
  · rw [hsort', hpc']
    exact h.sorting.trans (by rw [hcase]; rfl)
  · rw [hpc']
    trivial

/-- The statements of `add_request` keep the list. -/
theorem addStep (h : Queue s L) (hs : s.addStep drq = some s') :
    ∃ L', Queue s' L' ∧ Added s L s' L' := by
  have hpc := h.pc
  have hsort := h.sorting
  unfold State.addStep at hs
  cases hcase : s.pc with
  | idle =>
    rw [hcase] at hs
    cases hs
  | start req =>
    rw [hcase] at hs hpc
    cases hs
    exact ⟨L, h.setPc rfl hpc, .inl ⟨rfl, rfl⟩⟩
  | first req =>
    rw [hcase] at hs hpc hsort
    simp only at hs
    split at hs
    · rename_i hnone
      cases hs
      refine ⟨L, h.setPc hsort ⟨hpc.1, hpc.2, ?_⟩, .inl ⟨rfl, rfl⟩⟩
      exact List.head?_eq_none_iff.mp (h.head?_eq.trans hnone)
    · rename_i tmp htmp
      cases hs
      have hhead : L.head? = some tmp := h.head?_eq.trans htmp
      refine ⟨L, h.setPc hsort ⟨hpc.1, hpc.2, ?_, .inl hhead⟩, .inl ⟨rfl, rfl⟩⟩
      rintro rfl
      exact hpc.1.notMem (List.mem_of_mem_head? hhead)
  | setThis req =>
    rw [hcase] at hs hpc hsort
    cases hs
    obtain ⟨hf, hnext, rfl⟩ := hpc
    refine ⟨[req], ⟨⟨rfl, hnext⟩, List.nodup_singleton _, fun q hq => ?_, fun q hq => ?_,
      ⟨fun hc => ?_, h.wired.specify⟩, h.doHd, (nomatch ·), hsort, trivial⟩,
      .inr (.inl ⟨req, rfl, by simp, by simp, rfl⟩)⟩
    · rw [List.mem_singleton.mp hq]
      simp [State.markLinked]
    · simp only [State.markLinked, Function.update_apply] at hq
      split_ifs at hq with hqr
      · exact hqr ▸ hf.used
      · exact h.used q hq
    · obtain ⟨-, q, hq, -⟩ := h.wired.rw hc
      have hnone : s.thisRequest = none := h.listed
      rw [hnone] at hq
      cases hq
  | testNext req tmp =>
    rw [hcase] at hs hpc hsort
    simp only at hs
    split at hs
    · rename_i hnone
      cases hs
      exact ⟨L, h.setPc hsort (h.pcOk_setNext hpc hnone), .inl ⟨rfl, rfl⟩⟩
    · cases hs
      exact ⟨L, h.setPc hsort ⟨hpc.1, hpc.2.2⟩, .inl ⟨rfl, rfl⟩⟩
  | setNext req tmp =>
    rw [hcase] at hs hpc hsort
    cases hs
    obtain ⟨hf, hnext, hne, hnone, hL⟩ := hpc
    rcases hL with rfl | ⟨hq, rfl⟩
    · obtain ⟨L', hL', hmem, hsub⟩ := (behind req tmp).insert h hf (List.mem_singleton_self _) hsort
        (hnext.trans hnone.symm)
      exact ⟨L', hL', .inr (.inl ⟨req, rfl, hmem, hsub, rfl⟩)⟩
    · refine ⟨[], (behind req tmp).queue h hf hsort ?_ List.nodup_nil (by simp),
        .inr (.inr ⟨⟨req, tmp,
        hcase⟩, rfl⟩)⟩
      exact h.listed
  | skip req tmp =>
    rw [hcase] at hs hpc hsort
    obtain ⟨t, ht, rfl⟩ := Option.map_eq_some_iff.mp hs
    exact ⟨L, h.setPc hsort (h.pcOk_loop hpc ht), .inl ⟨rfl, rfl⟩⟩
  | loop req tmp =>
    rw [hcase] at hs hpc hsort
    simp only at hs
    split at hs
    · cases hs
      exact ⟨L, h.setPc hsort hpc, .inl ⟨rfl, rfl⟩⟩
    · cases hs
      exact ⟨L, h.setPc hsort hpc, .inl ⟨rfl, rfl⟩⟩
  | order req tmp =>
    rw [hcase] at hs hpc hsort
    obtain ⟨t, ht, hs⟩ := Option.map_eq_some_iff.mp hs
    split at hs
    · cases hs
      exact ⟨L, h.setPc hsort hpc, .inl ⟨rfl, rfl⟩⟩
    · cases hs
      obtain ⟨hf, hmem, hL⟩ := hpc
      -- The entry after an entry of the list is not its head.
      obtain ⟨htL, hthead⟩ : t ∈ L ∧ L.head? ≠ some t := by
        obtain ⟨hm, hne⟩ := h.listed.next_mem h.nodup hmem ht
        exact ⟨hm, fun hc => hne (h.head?_eq.symm.trans hc)⟩
      exact ⟨L, h.setPc hsort ⟨hf, htL, .inl hthead⟩, .inl ⟨rfl, rfl⟩⟩
  | copyNext req tmp =>
    rw [hcase] at hs hpc hsort
    obtain rfl := Option.some.inj hs
    exact ⟨L, h.copyNext hpc hsort, .inl ⟨rfl, rfl⟩⟩
  | link req tmp =>
    rw [hcase] at hs hpc hsort
    cases hs
    obtain ⟨hf, hnext, hmem, hL⟩ := hpc
    obtain ⟨L', hL', hmem', hsub⟩ := (behind req tmp).insert h hf hmem hsort hnext
    exact ⟨L', hL', .inr (.inl ⟨req, rfl, hmem', hsub, rfl⟩)⟩
  | finish =>
    rw [hcase] at hs
    cases hs
    exact ⟨L, h.setPc rfl trivial, .inl ⟨rfl, rfl⟩⟩
  | restart =>
    rw [hcase] at hs hsort
    cases hs
    refine ⟨L, ?_, .inl ⟨rfl, rfl⟩⟩
    split
    · exact h.setPc hsort trivial fun _ => ‹_›
    · exact h.setPc hsort trivial
  | call =>
    rw [hcase] at hs
    obtain ⟨hqueue, hlinked⟩ := h.call_kept hcase hs
    exact ⟨L, hqueue, .inl ⟨rfl, hlinked⟩⟩

end Queue

/-! ### No request is lost -/

/-- `add_request` has seen, or is about to see, that no request follows the first one. -/
def LinksLast (s : State D) : Prop :=
  ∃ req tmp, (s.pc = .testNext req tmp ∨ s.pc = .setNext req tmp) ∧ nextOf s tmp = none

/-- The request that `add_request` links behind is still in the queue. -/
structure Anchored (s : State D) : Prop where
  testNext : ∀ {req tmp}, s.pc = .testNext req tmp →
    s.thisRequest = some tmp ∨ nextOf s tmp ≠ none
  setNext : ∀ {req tmp}, s.pc = .setNext req tmp → s.thisRequest ≠ none

/-- Where `add_request` takes the request to link behind from. -/
theorem addStep_pc (hs : s.addStep drq = some s') :
    (∀ {req tmp}, s'.pc = .testNext req tmp → s'.thisRequest = some tmp) ∧
    ∀ {req tmp}, s'.pc = .setNext req tmp →
      s.pc = .testNext req tmp ∧ nextOf s tmp = none ∧ s'.thisRequest = s.thisRequest := by
  unfold State.addStep at hs
  cases hcase : s.pc <;> rw [hcase] at hs
  case idle => cases hs
  case first req =>
    simp only at hs
    split at hs
    · cases hs
      exact ⟨(nomatch ·), (nomatch ·)⟩
    · cases hs
      refine ⟨fun h => ?_, (nomatch ·)⟩
      cases h
      assumption
  case testNext req tmp =>
    simp only at hs
    split at hs
    · cases hs
      refine ⟨(nomatch ·), fun h => ?_⟩
      cases h
      exact ⟨rfl, ‹_›, rfl⟩
    · cases hs
      exact ⟨(nomatch ·), (nomatch ·)⟩
  case loop req tmp =>
    simp only at hs
    split at hs <;> cases hs <;> exact ⟨(nomatch ·), (nomatch ·)⟩
  case skip req tmp =>
    obtain ⟨t, -, rfl⟩ := Option.map_eq_some_iff.mp hs
    exact ⟨(nomatch ·), (nomatch ·)⟩
  case order req tmp =>
    obtain ⟨t, -, hs⟩ := Option.map_eq_some_iff.mp hs
    split at hs <;> cases hs <;> exact ⟨(nomatch ·), (nomatch ·)⟩
  case restart =>
    cases hs
    constructor
    · intro req tmp h
      simp only at h
      split at h <;> cases h
    · intro req tmp h
      simp only at h
      split at h <;> cases h
  case call =>
    have hs : State.doRequest { s with pc := .idle } drq = some s' := hs
    have hpc : s'.pc = .idle := (doRequest_kept hs).2.2.2.1
    rw [hpc]
    exact ⟨(nomatch ·), (nomatch ·)⟩
  all_goals
    cases hs
    exact ⟨(nomatch ·), (nomatch ·)⟩

/-- Every request that has been linked in is in the list, and the one that `add_request` links
behind too. -/
def Complete (s : State D) : Prop :=
  ∃ L, Queue s L ∧ (∀ r, s.linked r = true → r ∈ L) ∧ Anchored s

theorem Complete.submit (h : Complete s) {cmd : Cmd} {nr sec head cyl bh : ℕ}
    (hs : s.submit cmd nr sec head cyl bh = some s') : Complete s' := by
  obtain ⟨L, hq, hmem, -⟩ := h
  obtain ⟨hq', hlinked, -, -, -, r, hpc⟩ := hq.submit hs
  refine ⟨L, hq', hlinked ▸ hmem, ⟨?_, ?_⟩⟩ <;> rw [hpc] <;> exact (nomatch ·)

theorem Complete.addStep (h : Complete s) (hs : s.addStep drq = some s') : Complete s' := by
  obtain ⟨L, hq, hmem, hanc⟩ := h
  obtain ⟨L', hq', hadd⟩ := hq.addStep hs
  obtain ⟨htest, hset⟩ := addStep_pc hs
  refine ⟨L', hq', ?_, ⟨fun hpc => .inl (htest hpc), fun hpc => ?_⟩⟩
  · rcases hadd with ⟨rfl, hlinked⟩ | ⟨req, hlinked, hreq, hsub, -⟩ | ⟨⟨req, tmp, hpc⟩, rfl⟩
    · exact hlinked ▸ hmem
    · intro r hr
      rw [hlinked, Function.update_apply] at hr
      split_ifs at hr with hrr
      · exact hrr ▸ hreq
      · exact hsub r (hmem r hr)
    · exact absurd hq.listed (hanc.setNext hpc)
  · obtain ⟨hpc', hnone, hthis⟩ := hset hpc
    rw [hthis, (hanc.testNext hpc').resolve_right (not_not.mpr hnone)]
    exact (nomatch ·)

theorem Complete.intr (h : Complete s) (hs : s.intr ok drq = some s')
    (hcond : Completes s ok → ¬ LinksLast s) : Complete s' := by
  obtain ⟨L, hq, hmem, hanc⟩ := h
  have hpc := (intr_effect hq.wired hs).pc
  rcases hq.intr hs with ⟨hk, hq', -⟩ | ⟨r, L', rfl, hp, hq', hc⟩
  · have hnext : nextOf s' = nextOf s := funext hk.next
    refine ⟨L, hq', hk.linked ▸ hmem, ⟨fun h => ?_, fun h => ?_⟩⟩
    · rw [hnext, hk.this]
      exact hanc.testNext (hpc ▸ h)
    · rw [hk.this]
      exact hanc.setNext (hpc ▸ h)
  · have hnext : nextOf s' = nextOf s := funext hp.next
    refine ⟨L', hq', fun q hql => ?_, ⟨fun h => .inr fun hnone => ?_, fun h _ => ?_⟩⟩
    · rw [hp.linked, Function.update_apply] at hql
      split_ifs at hql with hqr
      exact (List.mem_cons.mp (hmem q hql)).resolve_left hqr
    · exact hcond hc ⟨_, _, .inl (hpc ▸ h), hnext ▸ hnone⟩
    · have hok := hq'.pc
      rw [h] at hok
      exact hcond hc ⟨_, _, .inr (hpc ▸ h), hnext ▸ hok.2.2.2.1⟩

/-- The steps in which no interrupt completes the only request while `add_request` links behind
it. -/
def SafeStep (s : State D) (e : Event) (s' : State D) : Prop :=
  Step s e s' ∧ ∀ ok drq, e = .intr ok drq → Completes s ok → ¬ LinksLast s

/-- The requests found from `this_request` on are those that have linked themselves in and have not
been completed. -/
theorem linked_reachable {buffer : ℕ → Buffer D} {disk : ℤ → ℕ → ℕ → ℕ → D} {es : List Event}
    {s : State D} (h : Runs SafeStep (State.init buffer disk) es s) (r : Fin 32) :
    Reach (nextOf s) s.thisRequest r ↔ s.linked r = true := by
  have hinit : Complete (State.init buffer disk) :=
    ⟨[], Queue.init buffer disk, fun _ => (nomatch ·), ⟨(nomatch ·), (nomatch ·)⟩⟩
  obtain ⟨L, hq, hmem, -⟩ : Complete s := h.invariant (fun s e s' hI ⟨hs, hcond⟩ => by
    cases e with
    | submit cmd nr sec head cyl bh => exact hI.submit hs
    | add drq => exact hI.addStep hs
    | intr ok drq => exact hI.intr hs (hcond ok drq rfl)) hinit
  rw [hq.listed.reach_iff]
  exact ⟨hq.linked r, hmem r⟩

/-! ### Schedules -/

/-- The state after `hd_init`, with a disk of zeros. -/
def State.zero : State ℕ :=
  State.init (fun _ => ⟨fun _ => 0, false, false, false⟩) fun _ _ _ _ => 0

/-- `rw_abs_hd` reads two sectors into a buffer, and `add_request` runs through `n` statements. -/
def reads (sec bh n : ℕ) : List Event := .submit .read 0 sec 0 0 bh :: List.replicate n (.add true)

/-- The two interrupts of a read. -/
def answers : List Event := [.intr true true, .intr true true]

/-- Two requests are queued and the first is completed; no interrupt falls into an `add_request`. -/
theorem linked_reachable_two : ∃ es s, Runs SafeStep State.zero es s ∧ s.linked 1 = true ∧
    Reach (nextOf s) s.thisRequest 1 := by
  have hexec : (exec (fun s e => (State.next s e).filter fun _ => e.isIntr → s.pc = .idle)
      State.zero
      (reads 0 0 6 ++ reads 2 1 6 ++ answers)).map (fun s => s.linked 1) = some true := by decide
  obtain ⟨s, hs, hlinked⟩ := Option.map_eq_some_iff.mp hexec
  have hrun : Runs SafeStep State.zero _ s :=
    (runs_of_exec_guarded hs).mono fun s e s' ⟨hs, hidle⟩ =>
      ⟨hs, fun ok drq he _ ⟨req, tmp, hpc, _⟩ => by
        subst he
        rw [hidle rfl] at hpc
        rcases hpc with hpc | hpc <;> cases hpc⟩
  exact ⟨_, s, hrun, hlinked, (linked_reachable hrun 1).mpr hlinked⟩

/-- A request is linked behind one that has just been completed. -/
theorem linked_unreachable : ∃ es s, Runs Step State.zero es s ∧ s.linked 1 = true ∧
    ¬ Reach (nextOf s) s.thisRequest 1 := by
  have hexec : (exec State.next State.zero
      (reads 0 0 6 ++ reads 2 1 3 ++ answers ++ [.add true])).map
        (fun s => (s.linked 1, s.thisRequest)) = some (true, none) := by decide
  obtain ⟨s, hs, h⟩ := Option.map_eq_some_iff.mp hexec
  obtain ⟨hlinked, hthis⟩ := Prod.mk.inj h
  refine ⟨_, s, runs_of_exec hs, hlinked, ?_⟩
  rw [hthis]
  exact (nomatch ·)

/-! ### The queue does not stall -/

/-- Interrupts come, or `add_request` will look for them. -/
structure Busy (s : State D) : Prop where
  doHd : s.ctl = none → s.doHd = none
  this : s.thisRequest ≠ none → s.ctl ≠ none ∨ s.pc = .finish ∨ s.pc = .restart ∨ s.pc = .call

theorem Busy.submit {L : List (Fin 32)} (h : Busy s) (hq : Queue s L) {cmd : Cmd}
    {nr sec head cyl bh : ℕ} (hs : s.submit cmd nr sec head cyl bh = some s') : Busy s' := by
  obtain ⟨-, -, hthis, hctl, hdo, -⟩ := hq.submit hs
  have hidle : s.pc = .idle := by
    by_contra hne
    simp [State.submit, hne] at hs
  refine ⟨by rw [hctl, hdo]; exact h.doHd, fun hne => ?_⟩
  rw [hthis] at hne
  rw [hctl]
  have := h.this hne
  simp only [hidle, reduceCtorEq, or_false] at this
  exact .inl this

/-- The statements of `add_request` before `do_request()` issue no command, and once a request is
first in the queue it is not forgotten. -/
theorem addStep_ctl (hs : s.addStep drq = some s') (hcall : s.pc ≠ .call) :
    s'.ctl = s.ctl ∧ s'.doHd = s.doHd ∧
      (s'.pc = .finish ∨ s'.pc = .restart ∧ s.pc = .finish ∨
        s.pc = .restart ∧ (s.doHd = none ∧ s'.pc = .call ∨ s.doHd ≠ none) ∨
        s'.thisRequest = s.thisRequest ∧ s.pc ≠ .finish ∧ s.pc ≠ .restart) := by
  unfold State.addStep at hs
  cases hcase : s.pc <;> rw [hcase] at hs
  case idle => cases hs
  case call => exact absurd hcase hcall
  case first req =>
    simp only at hs
    split at hs <;> cases hs <;> exact ⟨rfl, rfl, .inr (.inr (.inr ⟨rfl, by simp, by simp⟩))⟩
  case testNext req tmp =>
    simp only at hs
    split at hs <;> cases hs <;> exact ⟨rfl, rfl, .inr (.inr (.inr ⟨rfl, by simp, by simp⟩))⟩
  case loop req tmp =>
    simp only at hs
    split at hs <;> cases hs <;> exact ⟨rfl, rfl, .inr (.inr (.inr ⟨rfl, by simp, by simp⟩))⟩
  case skip req tmp =>
    obtain ⟨t, -, rfl⟩ := Option.map_eq_some_iff.mp hs
    exact ⟨rfl, rfl, .inr (.inr (.inr ⟨rfl, by simp, by simp⟩))⟩
  case order req tmp =>
    obtain ⟨t, -, hs⟩ := Option.map_eq_some_iff.mp hs
    split at hs <;> cases hs <;> exact ⟨rfl, rfl, .inr (.inr (.inr ⟨rfl, by simp, by simp⟩))⟩
  case start req =>
    cases hs
    exact ⟨rfl, rfl, .inr (.inr (.inr ⟨rfl, by simp, by simp⟩))⟩
  case copyNext req tmp =>
    cases hs
    exact ⟨rfl, rfl, .inr (.inr (.inr ⟨rfl, by simp, by simp⟩))⟩
  case restart =>
    cases hs
    refine ⟨rfl, rfl, .inr (.inr (.inl ⟨rfl, ?_⟩))⟩
    by_cases hdo : s.doHd = none
    · exact .inl ⟨hdo, if_pos hdo⟩
    · exact .inr hdo
  case finish =>
    cases hs
    exact ⟨rfl, rfl, .inr (.inl ⟨rfl, rfl⟩)⟩
  all_goals
    cases hs
    exact ⟨rfl, rfl, .inl rfl⟩

theorem Busy.addStep {L : List (Fin 32)} (h : Busy s) (hq : Queue s L)
    (hs : s.addStep drq = some s') : Busy s' := by
  by_cases hcall : s.pc = .call
  · have hsort := hq.sorting
    unfold State.addStep at hs
    rw [hcall] at hs hsort
    have hs : State.doRequest { s with pc := .idle } drq = some s' := hs
    have hctl : State.ctl { s with pc := .idle } = none := hq.doHd (hq.call hcall)
    rcases doRequest_ctl hctl hs with ⟨hs', -⟩ | ⟨hdo, hctl, hthis⟩ | ⟨-, hne⟩
    · exact absurd (hs'.symm.trans hsort) (by simp [AddPc.sorts])
    · exact ⟨fun _ => hdo, fun hne => absurd hthis hne⟩
    · exact ⟨fun hc => absurd hc hne, fun _ => .inl hne⟩
  · obtain ⟨hctl, hdo, hpc⟩ := addStep_ctl hs hcall
    refine ⟨by rw [hctl, hdo]; exact h.doHd, fun hne => ?_⟩
    rcases hpc with hpc | ⟨hpc, -⟩ | ⟨-, ⟨-, hpc⟩ | hdo'⟩ | ⟨hthis, hfin, hres⟩
    · exact .inr (.inl hpc)
    · exact .inr (.inr (.inl hpc))
    · exact .inr (.inr (.inr hpc))
    · exact .inl fun hc => hdo' (h.doHd (hctl ▸ hc))
    · rw [hthis] at hne
      have := h.this hne
      simp only [hfin, hres, hcall, or_false] at this
      exact .inl (hctl ▸ this)

theorem Busy.intr (hw : Wired s) (hs : s.intr ok drq = some s')
    (hcond : s.sorting = true → ¬ CallsDoRequest s ok) : Busy s' := by
  have he := intr_effect hw hs
  have hnone (hc : s'.ctl = none) : s'.doHd = none ∧ s'.thisRequest = none :=
    (he.idle hc).resolve_left fun h => hcond h.1 h.2
  exact ⟨fun hc => (hnone hc).1, fun hne => .inl fun hc => hne (hnone hc).2⟩

/-- The steps in which no interrupt calls `do_request` while the queue is sorted. -/
def PromptStep (s : State D) (e : Event) (s' : State D) : Prop :=
  Step s e s' ∧ ∀ ok drq, e = .intr ok drq → s.sorting = true → ¬ CallsDoRequest s ok

/-- When no `add_request` is in progress and the queue is not empty, a command is outstanding. -/
theorem command_outstanding {buffer : ℕ → Buffer D} {disk : ℤ → ℕ → ℕ → ℕ → D} {es : List Event}
    {s : State D} (h : Runs PromptStep (State.init buffer disk) es s) (hidle : s.pc = .idle)
    (hthis : s.thisRequest ≠ none) : s.ctl ≠ none := by
  have hinit : (∃ L, Queue (State.init buffer disk) L) ∧ Busy (State.init buffer disk) :=
    ⟨⟨[], Queue.init buffer disk⟩, ⟨fun _ => rfl, fun hne => absurd rfl hne⟩⟩
  obtain ⟨-, hbusy⟩ := h.invariant (I := fun s => (∃ L, Queue s L) ∧ Busy s)
    (fun s e s' ⟨⟨L, hq⟩, hb⟩ ⟨hs, hcond⟩ => by
      cases e with
      | submit cmd nr sec head cyl bh => exact ⟨⟨L, (hq.submit hs).1⟩, hb.submit hq hs⟩
      | add drq =>
        obtain ⟨L', hq', -⟩ := hq.addStep hs
        exact ⟨⟨L', hq'⟩, hb.addStep hq hs⟩
      | intr ok drq =>
        refine ⟨?_, Busy.intr hq.wired hs (hcond ok drq rfl)⟩
        rcases hq.intr hs with ⟨-, hq', -⟩ | ⟨r, L', -, -, hq', -⟩
        · exact ⟨L, hq'⟩
        · exact ⟨L', hq'⟩) hinit
  have := hbusy.this hthis
  simpa only [hidle, reduceCtorEq, or_false] using this

/-- One read is in service and another is queued. -/
theorem command_outstanding_two : ∃ es s, Runs PromptStep State.zero es s ∧
    s.thisRequest = some 1 ∧ s.ctl ≠ none := by
  have hexec : (exec (fun s e => (State.next s e).filter fun _ => e.isIntr → s.sorting = false)
      State.zero (reads 0 0 6 ++ reads 2 1 6 ++ answers)).map
        (fun s => (s.thisRequest, s.pc)) = some (some 1, .idle) := by decide
  obtain ⟨s, hs, h⟩ := Option.map_eq_some_iff.mp hexec
  obtain ⟨hthis, hidle⟩ := Prod.mk.inj h
  have hrun : Runs PromptStep State.zero _ s :=
    (runs_of_exec_guarded hs).mono fun s e s' ⟨hs, hsort⟩ =>
      ⟨hs, fun ok drq he htrue => by
        subst he
        exact absurd ((hsort rfl).symm.trans htrue) (by simp)⟩
  exact ⟨_, s, hrun, hthis, command_outstanding hrun hidle (by simp [hthis])⟩

/-- The last request is completed while the queue is sorted, and the new one is not started. -/
theorem command_missing : ∃ es s, Runs Step State.zero es s ∧ s.pc = .idle ∧ s.sorting = false ∧
    s.thisRequest = some 1 ∧ s.ctl = none := by
  have hexec : (exec State.next State.zero
      (reads 0 0 6 ++ reads 2 1 1 ++ answers ++ List.replicate 4 (.add true))).map
        (fun s => (s.pc, s.sorting, s.thisRequest, s.ctl)) = some (.idle, false, some 1, none) := by
    decide
  obtain ⟨s, hs, h⟩ := Option.map_eq_some_iff.mp hexec
  simp only [Prod.mk.injEq] at h
  exact ⟨_, s, runs_of_exec hs, h⟩

end Linux001.Hd
