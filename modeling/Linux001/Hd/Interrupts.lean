import Linux001.Hd.Driver

/-!
# What an interrupt does to the request queue

The handlers of the driver change buffers, the controller and the queue. This file says once what
they do to the queue: an interrupt leaves it alone, or completes the request at its head. In both
cases the outstanding command, if any, fits the routine in `do_hd`.

## Main definitions

* `Wired`: the outstanding command fits `do_hd` and the request at the head of the queue.
* `Completes`, `CallsDoRequest`: what an interrupt leads to, by the state before it.
* `Kept`, `Popped`: the two effects on the queue.
* `Effect`: what is true of the state after an interrupt.

## Main results

* `intr_effect`: every interrupt has one of the two effects.
-/

namespace Linux001.Hd

variable {D : Type} {s s' : State D} {ok drq : Bool}

/-- The routine that handles the interrupts of a transfer. -/
def Cmd.handler : Cmd → Handler
  | .read => .readIntr
  | .write => .writeIntr

/-- A transfer is outstanding. -/
def Transferring (s : State D) : Prop :=
  ∃ cmd drive n t head cyl, s.ctl = some (.rw cmd drive n t head cyl)

/-- The outstanding command fits `do_hd`, and a transfer is one of the request at the head of the
queue, for the sectors it has left. -/
structure Wired (s : State D) : Prop where
  rw : ∀ {cmd drive n t head cyl}, s.ctl = some (.rw cmd drive n t head cyl) →
    s.doHd = some cmd.handler ∧ ∃ r, s.thisRequest = some r ∧ (s.request r).nsector = n
  specify : s.ctl = some .specify → s.doHd = some .doRequest

/-- The interrupt completes the request at the head of the queue: its last sector has been
transferred, or it is given up after an error. -/
def Completes (s : State D) (ok : Bool) : Prop :=
  Transferring s ∧ ∃ r, s.thisRequest = some r ∧
    if ok then (s.request r).nsector ≤ 1 else 5 ≤ (s.request r).errors

/-- The interrupt calls `do_request`: it ends a reset, or the transfer of a request. -/
def CallsDoRequest (s : State D) (ok : Bool) : Prop :=
  s.ctl = some .specify ∨ ok = true ∧ Completes s ok

/-- The links and the use of the entries are those of `s`. -/
structure Kept (s s' : State D) : Prop where
  this : s'.thisRequest = s.thisRequest
  next : ∀ r, (s'.request r).next = (s.request r).next
  hd : ∀ r, (s'.request r).hd = (s.request r).hd
  linked : s'.linked = s.linked

/-- The request `r` has been taken from the head of the queue. -/
structure Popped (s s' : State D) (r : Fin 32) : Prop where
  head : s.thisRequest = some r
  this : s'.thisRequest = (s.request r).next
  next : ∀ q, (s'.request q).next = (s.request q).next
  hd : ∀ q, q ≠ r → (s'.request q).hd = (s.request q).hd
  linked : s'.linked = Function.update s.linked r false

/-! ### Issuing commands -/

theorem hdOut_eq_some {drive : ℤ} {head : ℕ} {c : Command} {h : Handler}
    (hs : s.hdOut drive head c h = some s') :
    s' = { s with doHd := some h, ctl := some c, port := none } := by
  unfold State.hdOut at hs
  split at hs
  · cases hs
  · exact (Option.some.inj hs).symm

/-- What `do_request` does: nothing while the queue is sorted, else it issues the command of the
request at the head, or a reset, or finds the queue empty. -/
theorem doRequest_cases (hs : s.doRequest drq = some s') :
    (s.sorting = true ∧ s' = s) ∨
    (s.sorting = false ∧ s.thisRequest = none ∧ s' = { s with doHd := none }) ∨
    (s.sorting = false ∧ ∃ r port, s.thisRequest = some r ∧
      s' = { s with
        doHd := some (s.request r).cmd.handler
        ctl := some (.rw (s.request r).cmd (s.request r).hd (s.request r).nsector
          (s.request r).sector (s.request r).head (s.request r).cyl)
        port := port }) ∨
    (s.sorting = false ∧ s.thisRequest ≠ none ∧
      s' = { s with doHd := some .doRequest, ctl := some .specify, port := none }) := by
  unfold State.doRequest at hs
  split at hs
  · exact .inl ⟨‹_›, (Option.some.inj hs).symm⟩
  · rename_i hsort
    have hsort : s.sorting = false := by simpa using hsort
    refine .inr ?_
    split at hs
    · exact .inl ⟨hsort, ‹_›, (Option.some.inj hs).symm⟩
    · rename_i r hr
      refine .inr ?_
      cases hcmd : (s.request r).cmd with
      | read =>
        simp only [hcmd] at hs
        exact .inl ⟨hsort, r, none, hr, by rw [hcmd]; exact hdOut_eq_some hs⟩
      | write =>
        simp only [hcmd] at hs
        obtain ⟨s₁, hs₁, hs⟩ := Option.bind_eq_some_iff.mp hs
        obtain rfl := hdOut_eq_some hs₁
        split at hs
        · obtain rfl := Option.some.inj hs
          exact .inl ⟨hsort, r, _, hr, by rw [hcmd]; rfl⟩
        · refine .inr ⟨hsort, by simp [hr], ?_⟩
          exact hdOut_eq_some hs

/-- The queue is not touched by `do_request`. -/
theorem doRequest_kept (hs : s.doRequest drq = some s') :
    s'.request = s.request ∧ s'.thisRequest = s.thisRequest ∧ s'.sorting = s.sorting ∧
      s'.pc = s.pc ∧ s'.linked = s.linked := by
  rcases doRequest_cases hs with ⟨-, rfl⟩ | ⟨-, -, rfl⟩ | ⟨-, r, port, -, rfl⟩ | ⟨-, -, rfl⟩ <;>
    exact ⟨rfl, rfl, rfl, rfl, rfl⟩

/-- After `do_request` with no command outstanding, the command and `do_hd` fit. -/
theorem doRequest_wired (hctl : s.ctl = none) (hs : s.doRequest drq = some s') : Wired s' := by
  rcases doRequest_cases hs with ⟨-, rfl⟩ | ⟨-, -, rfl⟩ | ⟨-, r, port, hr, rfl⟩ | ⟨-, -, rfl⟩
  · exact ⟨fun h => by simp [hctl] at h, fun h => by simp [hctl] at h⟩
  · exact ⟨fun h => by simp [hctl] at h, fun h => by simp [hctl] at h⟩
  · refine ⟨fun h => ?_, fun h => by simp at h⟩
    simp only [Option.some.injEq, Command.rw.injEq] at h
    obtain ⟨rfl, -, rfl, -⟩ := h
    exact ⟨rfl, r, hr, rfl⟩
  · exact ⟨fun h => by simp at h, fun _ => rfl⟩

/-- After `do_request` with no command outstanding, one is outstanding unless the queue is empty or
being sorted. -/
theorem doRequest_ctl (hctl : s.ctl = none) (hs : s.doRequest drq = some s') :
    (s.sorting = true ∧ s'.ctl = none) ∨ (s'.doHd = none ∧ s'.ctl = none ∧ s'.thisRequest = none) ∨
      (s'.doHd ≠ none ∧ s'.ctl ≠ none) := by
  rcases doRequest_cases hs with ⟨h, rfl⟩ | ⟨-, hr, rfl⟩ | ⟨-, r, port, hr, rfl⟩ | ⟨-, -, rfl⟩
  · exact .inl ⟨h, hctl⟩
  · exact .inr (.inl ⟨rfl, hctl, hr⟩)
  · exact .inr (.inr ⟨by simp, by simp⟩)
  · exact .inr (.inr ⟨by simp, by simp⟩)

/-! ### Handlers -/

/-- What is true of the state after an interrupt. -/
structure Effect (s : State D) (ok : Bool) (s' : State D) : Prop where
  sorting : s'.sorting = s.sorting
  pc : s'.pc = s.pc
  wired : Wired s'
  queue : (Kept s s' ∧ ¬ Completes s ok) ∨ ∃ r, Popped s s' r ∧ Completes s ok
  quiet : s.sorting = true → Completes s ok ∨ ¬ Transferring s → ¬ Transferring s'
  idle : s'.ctl = none →
    s.sorting = true ∧ CallsDoRequest s ok ∨ s'.doHd = none ∧ s'.thisRequest = none
  doHd : s'.doHd = none → s'.ctl = none

/-- The controller's part changes neither the queue nor `do_hd`. -/
theorem transfer_cases {s₁ : State D} {data : Option D} (h : s.transfer ok = some (s₁, data)) :
    (s.ctl = some .specify ∧ s₁ = { s with ctl := none }) ∨
    ∃ cmd drive n t head cyl port disk, s.ctl = some (.rw cmd drive n t head cyl) ∧
      s₁ = { s with
        ctl := if ok then State.rest cmd drive n t head cyl else none
        port := port
        disk := disk } ∧
      (cmd = .read → data.isSome = ok) := by
  unfold State.transfer at h
  split at h
  · cases h
  · cases h
    exact .inl ⟨‹_›, rfl⟩
  · rename_i drive n t head cyl hctl
    refine .inr ⟨.read, drive, n, t, head, cyl, s.port, s.disk, hctl, ?_⟩
    split at h
    · rename_i hok
      cases h
      exact ⟨by simp [hok], fun _ => by simp [hok]⟩
    · rename_i hok
      cases h
      exact ⟨by simp [hok], fun _ => by simp [hok]⟩
  · rename_i drive n t head cyl hctl
    split at h
    · rename_i hok
      obtain ⟨d, -, hd⟩ := Option.map_eq_some_iff.mp h
      cases hd
      exact .inr ⟨.write, drive, n, t, head, cyl, none, _, hctl, by rw [if_pos hok], (nomatch ·)⟩
    · rename_i hok
      cases h
      exact .inr ⟨.write, drive, n, t, head, cyl, none, s.disk, hctl, by simp [hok], (nomatch ·)⟩

/-- `bad_rw_intr` gives up the request at the head or keeps it, and resets the controller. -/
theorem badRwIntr_cases (h : s.badRwIntr = some s') :
    ∃ r, s.thisRequest = some r ∧ s'.sorting = s.sorting ∧ s'.pc = s.pc ∧
      s'.ctl = some .specify ∧ s'.doHd = some .doRequest ∧
      ((s.request r).errors < 5 ∧ Kept s s' ∨ 5 ≤ (s.request r).errors ∧ Popped s s' r) := by
  unfold State.badRwIntr at h
  split at h
  · cases h
  · rename_i r hr
    refine ⟨r, hr, ?_⟩
    by_cases herr : 5 ≤ (s.request r).errors
    · simp only [herr, if_true] at h
      obtain rfl := hdOut_eq_some h
      refine ⟨rfl, rfl, rfl, rfl, .inr ⟨herr, hr, ?_, fun q => ?_, fun q hq => ?_, rfl⟩⟩
      · simp [State.complete, State.setRequest, State.setBuffer]
      · simp only [State.complete, State.setRequest, State.setBuffer, Function.update_apply]
        split_ifs with hq <;> simp [hq]
      · simp only [State.complete, State.setRequest, State.setBuffer, Function.update_of_ne hq]
    · simp only [herr, if_false] at h
      obtain rfl := hdOut_eq_some h
      refine ⟨rfl, rfl, rfl, rfl, .inl ⟨by omega, rfl, fun q => ?_, fun q => ?_, rfl⟩⟩
      · simp only [State.setRequest, Function.update_apply]
        split_ifs with hq <;> simp [hq]
      · simp only [State.setRequest, Function.update_apply]
        split_ifs with hq <;> simp [hq]

/-- The interrupt after an error. -/
theorem badRwIntr_effect {s₁ : State D} {cmd : Cmd} {drive : ℤ} {n t head cyl : ℕ}
    {port : Option D} {disk : ℤ → ℕ → ℕ → ℕ → D} (hctl : s.ctl = some (.rw cmd drive n t head cyl))
    (hs₁ : s₁ = { s with ctl := none, port := port, disk := disk })
    (h : s₁.badRwIntr = some s') : Effect s false s' := by
  subst hs₁
  obtain ⟨r, hr, hsort, hpc, hctl', hhd, hq⟩ := badRwIntr_cases h
  have hcompletes : Completes s false ↔ 5 ≤ (s.request r).errors := by
    constructor
    · rintro ⟨-, q, hq, he⟩
      obtain rfl : q = r := Option.some.inj (hq.symm.trans hr)
      simpa using he
    · exact fun he => ⟨⟨cmd, drive, n, t, head, cyl, hctl⟩, r, hr, by simpa using he⟩
  refine ⟨hsort, hpc, ⟨fun h => ?_, fun _ => hhd⟩, ?_, fun _ _ => ?_, fun h => ?_, fun h => ?_⟩
  · rw [hctl'] at h
    cases h
  · rcases hq with ⟨he, hk⟩ | ⟨he, hp⟩
    · refine .inl ⟨⟨hk.this, hk.next, hk.hd, hk.linked⟩, fun hc => ?_⟩
      have he : (s.request r).errors < 5 := he
      have := hcompletes.mp hc
      omega
    · exact .inr ⟨r, ⟨hp.head, hp.this, hp.next, hp.hd, hp.linked⟩, hcompletes.mpr he⟩
  · rintro ⟨_, _, _, _, _, _, h⟩
    rw [hctl'] at h
    cases h
  · rw [hctl'] at h
    cases h
  · rw [hhd] at h
    cases h

/-- The interrupt after a sector that is not the last one. -/
theorem sector_effect {cmd : Cmd} {drive : ℤ} {n t head cyl : ℕ} {r : Fin 32} {q : Request}
    (hw : Wired s) (hctl : s.ctl = some (.rw cmd drive n t head cyl)) (hr : s.thisRequest = some r)
    (hn : (s.request r).nsector - 1 ≠ 0) (hq : q.nsector = (s.request r).nsector - 1)
    (hnext : q.next = (s.request r).next) (hhd : q.hd = (s.request r).hd)
    (hs' : ∃ port disk buffer, s' = { s with
      ctl := State.rest cmd drive n t head cyl
      port := port
      disk := disk
      buffer := buffer
      request := Function.update s.request r q }) : Effect s true s' := by
  obtain ⟨port, disk, buffer, rfl⟩ := hs'
  obtain ⟨hdo, r', hr', hn'⟩ := hw.rw hctl
  obtain rfl : r' = r := Option.some.inj (hr'.symm.trans hr)
  have hrest : State.rest cmd drive n t head cyl =
      some (.rw cmd drive (n - 1) (t + 1) head cyl) := by
    unfold State.rest
    rw [if_neg (by omega)]
  have hcompletes : ¬ Completes s true := by
    rintro ⟨-, q', hq', he⟩
    obtain rfl : q' = r' := Option.some.inj (hq'.symm.trans hr)
    simp only [if_true] at he
    omega
  refine ⟨rfl, rfl, ⟨fun h => ?_, fun h => ?_⟩, .inl ⟨⟨rfl, fun p => ?_, fun p => ?_, rfl⟩,
    hcompletes⟩, fun _ h => ?_, fun h => ?_, fun h => ?_⟩
  · simp only [hrest, Option.some.injEq, Command.rw.injEq] at h
    obtain ⟨rfl, -, rfl, -⟩ := h
    exact ⟨hdo, r', hr, by simp only [Function.update_self]; omega⟩
  · simp [hrest] at h
  · simp only [Function.update_apply]
    split_ifs with hp <;> simp [hp, hnext]
  · simp only [Function.update_apply]
    split_ifs with hp <;> simp [hp, hhd]
  · rcases h with h | h
    · exact absurd h hcompletes
    · exact absurd ⟨cmd, drive, n, t, head, cyl, hctl⟩ h
  · simp [hrest] at h
  · rw [hdo] at h
    cases h

/-- The interrupt after the last sector of a request. -/
theorem complete_effect {s₁ : State D} {cmd : Cmd} {drive : ℤ} {n t head cyl : ℕ} {r : Fin 32}
    {q : Request} (hw : Wired s) (hctl : s.ctl = some (.rw cmd drive n t head cyl))
    (hr : s.thisRequest = some r) (hn : (s.request r).nsector - 1 = 0)
    (hnext : q.next = (s.request r).next)
    (hs₁ : ∃ port disk buffer, s₁ = { s with
      ctl := State.rest cmd drive n t head cyl
      port := port
      disk := disk
      buffer := buffer
      request := Function.update s.request r q })
    (h : (s₁.complete r true).doRequest drq = some s') : Effect s true s' := by
  obtain ⟨port, disk, buffer, rfl⟩ := hs₁
  obtain ⟨hdo, r', hr', hn'⟩ := hw.rw hctl
  obtain rfl : r' = r := Option.some.inj (hr'.symm.trans hr)
  have hrest : State.rest cmd drive n t head cyl = none := by
    unfold State.rest
    rw [if_pos (by omega)]
  have hcompletes : Completes s true := by
    refine ⟨⟨cmd, drive, n, t, head, cyl, hctl⟩, r', hr, ?_⟩
    simp only [if_true]
    omega
  obtain ⟨hreq, hthis, hsort, hpc, hlinked⟩ := doRequest_kept h
  have hctl₁ : (State.complete { s with
      ctl := State.rest cmd drive n t head cyl
      port := port
      disk := disk
      buffer := buffer
      request := Function.update s.request r' q } r' true).ctl = none := hrest
  refine ⟨hsort, hpc, doRequest_wired hctl₁ h, .inr ⟨r', ⟨hr, ?_, fun p => ?_, fun p hp => ?_, ?_⟩,
    hcompletes⟩, fun hs _ => ?_, fun hc => ?_, fun hd => ?_⟩
  · rw [hthis]
    simp [State.complete, State.setRequest, State.setBuffer, hnext]
  · rw [hreq]
    simp only [State.complete, State.setRequest, State.setBuffer, Function.update_apply]
    split_ifs with hp <;> simp [hp, hnext]
  · rw [hreq]
    simp only [State.complete, State.setRequest, State.setBuffer, Function.update_of_ne hp]
  · rw [hlinked]
    rfl
  · rcases doRequest_ctl hctl₁ h with ⟨-, hc⟩ | ⟨-, hc, -⟩ | ⟨-, -⟩
    · rintro ⟨_, _, _, _, _, _, h'⟩
      rw [hc] at h'
      cases h'
    · rintro ⟨_, _, _, _, _, _, h'⟩
      rw [hc] at h'
      cases h'
    · rcases doRequest_cases h with ⟨-, rfl⟩ | ⟨hf, -⟩ | ⟨hf, -⟩ | ⟨hf, -⟩
      · rintro ⟨_, _, _, _, _, _, h'⟩
        rw [hctl₁] at h'
        cases h'
      · exact absurd (hs.symm.trans hf) (by simp)
      · exact absurd (hs.symm.trans hf) (by simp)
      · exact absurd (hs.symm.trans hf) (by simp)
  · rcases doRequest_ctl hctl₁ h with ⟨hs, -⟩ | ⟨hd, -, ht⟩ | ⟨-, hne⟩
    · exact .inl ⟨hs, .inr ⟨rfl, hcompletes⟩⟩
    · exact .inr ⟨hd, ht⟩
    · exact absurd hc hne
  · rcases doRequest_ctl hctl₁ h with ⟨-, hc⟩ | ⟨-, hc, -⟩ | ⟨hne, -⟩
    · exact hc
    · exact hc
    · exact absurd hd hne

/-- The interrupt that ends a reset. -/
theorem specify_effect (hctl : s.ctl = some .specify)
    (h : State.doRequest { s with ctl := none } drq = some s') : Effect s ok s' := by
  obtain ⟨hreq, hthis, hsort, hpc, hlinked⟩ := doRequest_kept h
  have hnot : ¬ Transferring s := by
    rintro ⟨_, _, _, _, _, _, h'⟩
    rw [hctl] at h'
    cases h'
  refine ⟨hsort, hpc, doRequest_wired rfl h, .inl ⟨⟨hthis, fun r => by rw [hreq],
    fun r => by rw [hreq], hlinked⟩, fun hc => hnot hc.1⟩, fun hs _ => ?_, fun hc => ?_,
      fun hd => ?_⟩
  · rcases doRequest_cases h with ⟨-, rfl⟩ | ⟨hf, -⟩ | ⟨hf, -⟩ | ⟨hf, -⟩
    · rintro ⟨_, _, _, _, _, _, h'⟩
      cases h'
    · exact absurd (hs.symm.trans hf) (by simp)
    · exact absurd (hs.symm.trans hf) (by simp)
    · exact absurd (hs.symm.trans hf) (by simp)
  · rcases doRequest_ctl rfl h with ⟨hs, -⟩ | ⟨hd, -, ht⟩ | ⟨-, hne⟩
    · exact .inl ⟨hs, .inl hctl⟩
    · exact .inr ⟨hd, ht⟩
    · exact absurd hc hne
  · rcases doRequest_ctl rfl h with ⟨-, hc⟩ | ⟨-, hc, -⟩ | ⟨hne, -⟩
    · exact hc
    · exact hc
    · exact absurd hd hne

/-- Every interrupt leaves the queue alone or completes the request at its head. -/
theorem intr_effect (hw : Wired s) (h : s.intr ok drq = some s') : Effect s ok s' := by
  obtain ⟨⟨s₁, data⟩, htr, h⟩ := Option.bind_eq_some_iff.mp h
  rcases transfer_cases htr with ⟨hctl, hs₁⟩ |
    ⟨cmd, drive, n, t, head, cyl, port, disk, hctl, hs₁, hdata⟩
  · have hdo : s₁.doHd = some .doRequest := by
      rw [hs₁]
      exact hw.specify hctl
    simp only [hdo] at h
    exact specify_effect hctl (hs₁ ▸ h)
  · obtain ⟨hdo, r, hr, hn⟩ := hw.rw hctl
    have hdo₁ : s₁.doHd = some cmd.handler := by rw [hs₁, hdo]
    have hr₁ : s₁.thisRequest = some r := by rw [hs₁, hr]
    cases ok with
    | false =>
      have hbad : s₁.badRwIntr = some s' := by
        cases cmd with
        | read =>
          obtain rfl : data = none := by simpa using hdata rfl
          simpa only [hdo₁, Cmd.handler, State.readIntr] using h
        | write => simpa only [hdo₁, Cmd.handler, State.writeIntr] using h
      exact badRwIntr_effect hctl hs₁ hbad
    | true =>
      rw [if_pos rfl] at hs₁
      cases cmd with
      | read =>
        obtain ⟨d, rfl⟩ := Option.isSome_iff_exists.mp (hdata rfl)
        simp only [hdo₁, Cmd.handler, State.readIntr, hr₁] at h
        subst hs₁
        split at h
        · rename_i hne
          obtain rfl := Option.some.inj h
          exact sector_effect
            (q := { s.request r with errors := 0, nsector := (s.request r).nsector - 1 })
            hw hctl hr hne rfl rfl rfl ⟨port, disk, _, rfl⟩
        · rename_i heq
          exact complete_effect
            (q := { s.request r with errors := 0, nsector := (s.request r).nsector - 1 })
            hw hctl hr (not_not.mp heq) rfl ⟨port, disk, _, rfl⟩ h
      | write =>
        simp only [hdo₁, Cmd.handler, State.writeIntr, hr₁] at h
        subst hs₁
        split at h
        · rename_i hne
          obtain rfl := Option.some.inj h
          exact sector_effect (q := { s.request r with nsector := (s.request r).nsector - 1 })
            hw hctl hr hne rfl rfl rfl ⟨_, disk, s.buffer, rfl⟩
        · rename_i heq
          exact complete_effect (q := { s.request r with nsector := (s.request r).nsector - 1 })
            hw hctl hr (not_not.mp heq) rfl ⟨port, disk, s.buffer, rfl⟩ h

end Linux001.Hd
