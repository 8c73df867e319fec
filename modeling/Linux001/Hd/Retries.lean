import Linux001.Hd.Interrupts
import Mathlib.Data.List.Infix
import Mathlib.Data.List.ReduceOption

/-!
# Retries of a request

A request of two sectors is served by a command for both of them. After an error the controller is
reset and `do_request` issues a command from the fields of the request, of which `nsector` counts
down but `sector` does not count up. An error before the first sector thus repeats the transfer, and
an error between the two sectors transfers the first sector to or from the second half of the
buffer.

## Main definitions

* `Service r`: the interrupts up to the one that completes the request `r`, labelled by the outcome
  of a sector, or by `none` for the end of a reset.
* `Phase`: how far the request has been served, and after which errors.
* `InPlace`: what a completed request should have done.

## Main results

* `retries_inPlace`: the data is in place if and only if no error comes between the two sectors, or
  the data happens to make no difference.
-/

namespace Linux001.Hd

variable {D : Type} {s₀ s s' : State D} {r : Fin 32} {ok drq : Bool}

/-- An interrupt while the request is being served. -/
def Service (r : Fin 32) (s : State D) (o : Option Bool) (s' : State D) : Prop :=
  0 ≤ (s.request r).hd ∧ ∃ ok drq, s.intr ok drq = some s' ∧
    o = if s.ctl = some .specify then none else some ok

/-- The disk after a sector of the request's track has been written. -/
def putSector (q : Request) (disk : ℤ → ℕ → ℕ → ℕ → D) (t : ℕ) (d : D) : ℤ → ℕ → ℕ → ℕ → D :=
  fun d' c h k => if d' = q.hd ∧ c = q.cyl ∧ h = q.head ∧ k = t then d else disk d' c h k

/-- The sectors of the request's track. -/
def track (q : Request) (disk : ℤ → ℕ → ℕ → ℕ → D) (t : ℕ) : D := disk q.hd q.cyl q.head t

/-- What should be true when the request `r`, which was issued in `s₀`, has been completed. -/
def InPlace (s₀ s : State D) (r : Fin 32) : Prop :=
  let q := s₀.request r
  match q.cmd with
  | .read => (s.buffer q.bh).uptodate = true →
      (s.buffer q.bh).data 0 = track q s₀.disk q.sector ∧
      (s.buffer q.bh).data 1 = track q s₀.disk (q.sector + 1)
  | .write => track q s.disk q.sector = (s₀.buffer q.bh).data 0 ∧
      track q s.disk (q.sector + 1) = (s₀.buffer q.bh).data 1 ∧
      ∀ d c h k, ¬ (d = q.hd ∧ c = q.cyl ∧ h = q.head ∧ (k = q.sector ∨ k = q.sector + 1)) →
        s.disk d c h k = s₀.disk d c h k

/-- The contents that make a transfer to or from the wrong half invisible. After more than five
errors a write is given up, and the first sector keeps its half. -/
def Harmless (s₀ : State D) (r : Fin 32) (outcomes : List Bool) : Prop :=
  let q := s₀.request r
  match q.cmd with
  | .read => track q s₀.disk (q.sector + 1) = track q s₀.disk q.sector
  | .write => track q s₀.disk (q.sector + 1) = (s₀.buffer q.bh).data 1 ∧
      ((s₀.buffer q.bh).data 0 = (s₀.buffer q.bh).data 1 ∨ 5 < outcomes.count false)

/-! ### One interrupt -/

/-- The request `r` of `s₀` is being served, with `n` sectors left and the next one at `t`. -/
structure Live (s₀ : State D) (r : Fin 32) (n t : ℕ) (s : State D) : Prop where
  this : s.thisRequest = some r
  sorting : s.sorting = false
  request : s.request r =
    { s₀.request r with nsector := n, errors := (s.request r).errors }
  ctl : s.ctl = some .specify ∧ s.doHd = some .doRequest ∧ t = (s₀.request r).sector ∨
    s.ctl = some (.rw (s₀.request r).cmd (s₀.request r).hd n t (s₀.request r).head
      (s₀.request r).cyl) ∧ s.doHd = some (s₀.request r).cmd.handler ∧
      ((s₀.request r).cmd = .write → s.port = some ((s.buffer (s₀.request r).bh).data (n % 2)))

/-- The buffer of the request. -/
def dataOf (s₀ : State D) (r : Fin 32) (s : State D) : ℕ → D := (s.buffer (s₀.request r).bh).data

/-- `do_request` issues the command for what is left of the request, from its first sector on. -/
theorem doRequest_live {n : ℕ} (hthis : s.thisRequest = some r) (hsort : s.sorting = false)
    (hreq : s.request r = { s₀.request r with nsector := n, errors := (s.request r).errors })
    (hs : s.doRequest drq = some s') :
    Live s₀ r n (s₀.request r).sector s' ∧ s'.buffer = s.buffer ∧ s'.disk = s.disk ∧
      (s'.request r).errors = (s.request r).errors := by
  unfold State.doRequest at hs
  simp only [hsort, Bool.false_eq_true, if_false, hthis] at hs
  cases hcmd : (s.request r).cmd with
  | read =>
    have hcmd₀ : (s₀.request r).cmd = .read := by rw [hreq] at hcmd; exact hcmd
    simp only [hcmd] at hs
    obtain rfl := hdOut_eq_some hs
    refine ⟨⟨hthis, hsort, hreq, .inr ⟨?_, by rw [hcmd₀]; rfl, by rw [hcmd₀]; exact (nomatch ·)⟩⟩,
      rfl, rfl, rfl⟩
    rw [hreq, hcmd₀]
  | write =>
    have hcmd₀ : (s₀.request r).cmd = .write := by rw [hreq] at hcmd; exact hcmd
    simp only [hcmd] at hs
    obtain ⟨s₁, hs₁, hs⟩ := Option.bind_eq_some_iff.mp hs
    obtain rfl := hdOut_eq_some hs₁
    split at hs
    · obtain rfl := Option.some.inj hs
      refine ⟨⟨hthis, hsort, hreq, .inr ⟨?_, by rw [hcmd₀]; rfl, fun _ => ?_⟩⟩, rfl, rfl, rfl⟩
      · simp only [State.portWrite]
        rw [hreq, hcmd₀]
      · simp only [State.portWrite]
        rw [hreq]
    · obtain rfl := hdOut_eq_some hs
      exact ⟨⟨hthis, hsort, hreq, .inl ⟨rfl, rfl, rfl⟩⟩, rfl, rfl, rfl⟩

/-- What an interrupt leads to while the request is being served. -/
inductive Served (s₀ : State D) (r : Fin 32) (n t : ℕ) (s s' : State D) : Option Bool → Prop
  /-- A reset has ended, and the command is issued again. -/
  | reset (live : Live s₀ r n (s₀.request r).sector s') (buffer : dataOf s₀ r s' = dataOf s₀ r s)
      (disk : s'.disk = s.disk) (errors : (s'.request r).errors = (s.request r).errors) :
      Served s₀ r n t s s' none
  /-- After an error the request will be retried. -/
  | error (live : Live s₀ r n (s₀.request r).sector s') (buffer : dataOf s₀ r s' = dataOf s₀ r s)
      (disk : s'.disk = s.disk) (errors : (s'.request r).errors = (s.request r).errors + 1)
      (few : (s.request r).errors < 5) : Served s₀ r n t s s' (some false)
  /-- After too many errors the request is given up. -/
  | giveUp (hd : (s'.request r).hd < 0) (many : 5 ≤ (s.request r).errors)
      (disk : s'.disk = s.disk) : Served s₀ r n t s s' (some false)
  /-- The first sector has been transferred. -/
  | sector (two : 1 < n) (live : Live s₀ r (n - 1) (t + 1) s')
      (read : (s₀.request r).cmd = .read → s'.disk = s.disk ∧ (s'.request r).errors = 0 ∧
        dataOf s₀ r s' = Function.update (dataOf s₀ r s) (n % 2) (track (s₀.request r) s.disk t))
      (write : (s₀.request r).cmd = .write → dataOf s₀ r s' = dataOf s₀ r s ∧
        (s'.request r).errors = (s.request r).errors ∧
        s'.disk = putSector (s₀.request r) s.disk t (dataOf s₀ r s (n % 2))) :
      Served s₀ r n t s s' (some true)
  /-- The last sector has been transferred, and the request is completed. -/
  | last (one : n ≤ 1) (hd : (s'.request r).hd < 0)
      (uptodate : (s'.buffer (s₀.request r).bh).uptodate = true)
      (read : (s₀.request r).cmd = .read → s'.disk = s.disk ∧
        dataOf s₀ r s' = Function.update (dataOf s₀ r s) (n % 2) (track (s₀.request r) s.disk t))
      (write : (s₀.request r).cmd = .write → dataOf s₀ r s' = dataOf s₀ r s ∧
        s'.disk = putSector (s₀.request r) s.disk t (dataOf s₀ r s (n % 2))) :
      Served s₀ r n t s s' (some true)

/-- The state in which a handler runs: the controller's command has ended or goes on. -/
structure Handling (s s₁ : State D) : Prop where
  request : s₁.request = s.request
  this : s₁.thisRequest = s.thisRequest
  sorting : s₁.sorting = s.sorting
  buffer : s₁.buffer = s.buffer

/-- An error is counted, and the controller is reset. -/
theorem badRwIntr_served {n t : ℕ} {s₁ : State D} (h : Live s₀ r n t s) (hh : Handling s s₁)
    (hdisk : s₁.disk = s.disk) (hs : s₁.badRwIntr = some s') :
    Served s₀ r n t s s' (some false) := by
  unfold State.badRwIntr at hs
  simp only [hh.this, h.this, hh.request] at hs
  by_cases herr : 5 ≤ (s.request r).errors
  · simp only [herr, if_true] at hs
    obtain rfl := hdOut_eq_some hs
    refine .giveUp ?_ herr hdisk
    simp [State.complete, State.setRequest, State.setBuffer]
  · simp only [herr, if_false] at hs
    obtain rfl := hdOut_eq_some hs
    refine .error ⟨hh.this.trans h.this, hh.sorting.trans h.sorting, ?_, .inl ⟨rfl, rfl, rfl⟩⟩ ?_
      hdisk ?_ (by omega)
    · simp only [State.setRequest, Function.update_self, hh.request]
      rw [h.request]
    · simp only [dataOf, State.setRequest, hh.buffer]
    · simp [State.setRequest, hh.request]

/-- The request is completed after its last sector. -/
theorem complete_served {n t : ℕ} {s₁ : State D} (hs : (s₁.complete r true).doRequest drq = some s')
    (hone : n ≤ 1) (hbh : (s₁.request r).bh = (s₀.request r).bh)
    (hread : (s₀.request r).cmd = .read → s₁.disk = s.disk ∧
      dataOf s₀ r s₁ = Function.update (dataOf s₀ r s) (n % 2) (track (s₀.request r) s.disk t))
    (hwrite : (s₀.request r).cmd = .write → dataOf s₀ r s₁ = dataOf s₀ r s ∧
      s₁.disk = putSector (s₀.request r) s.disk t (dataOf s₀ r s (n % 2))) :
    Served s₀ r n t s s' (some true) := by
  obtain ⟨hreq, -, -, -, -⟩ := doRequest_kept hs
  have hmem : s'.buffer = (s₁.complete r true).buffer ∧ s'.disk = s₁.disk := by
    rcases doRequest_cases hs with ⟨-, rfl⟩ | ⟨-, -, rfl⟩ | ⟨-, q, port, -, rfl⟩ | ⟨-, -, rfl⟩ <;>
      exact ⟨rfl, rfl⟩
  have hdata : dataOf s₀ r s' = dataOf s₀ r s₁ := by
    simp [dataOf, hmem.1, State.complete, State.setRequest, State.setBuffer, hbh]
  refine .last hone ?_ ?_ (fun hc => ?_) fun hc => ?_
  · rw [hreq]
    simp [State.complete, State.setRequest, State.setBuffer]
  · rw [hmem.1]
    simp [State.complete, State.setRequest, State.setBuffer, hbh]
  · rw [hmem.2, hdata]
    exact hread hc
  · rw [hmem.2, hdata]
    exact hwrite hc

/-- The interrupts of a read. -/
theorem readIntr_served {n t : ℕ} {s₁ : State D} {data : Option D}
    (hs : s₁.readIntr data drq = some s') (h : Live s₀ r n t s) (hcmd : (s₀.request r).cmd = .read)
    (hh : Handling s s₁) (hdisk : s₁.disk = s.disk)
    (hctl : 1 < n → data ≠ none → s₁.ctl = some (.rw .read (s₀.request r).hd (n - 1) (t + 1)
      (s₀.request r).head (s₀.request r).cyl) ∧ s₁.doHd = some .readIntr)
    (hdata : ∀ d, data = some d → d = track (s₀.request r) s.disk t) :
    Served s₀ r n t s s' (some data.isSome) := by
  have hn : (s.request r).nsector = n := by rw [h.request]
  have hbh : (s.request r).bh = (s₀.request r).bh := by rw [h.request]
  have hnot : (s₀.request r).cmd ≠ .write := by simp [hcmd]
  cases data with
  | none => exact badRwIntr_served h hh hdisk hs
  | some d =>
    obtain rfl := hdata d rfl
    unfold State.readIntr at hs
    simp only [hh.this, h.this, hh.request, hn] at hs
    split at hs
    · rename_i hne
      obtain rfl := Option.some.inj hs
      obtain ⟨hctl, hdo⟩ := hctl (by omega) (by simp)
      refine .sector (by omega) ⟨hh.this.trans h.this, hh.sorting.trans h.sorting, ?_,
        .inr ⟨?_, ?_, fun hc => absurd hc hnot⟩⟩ (fun _ => ⟨hdisk, ?_, ?_⟩) fun hc => absurd hc hnot
      · simp only [State.setRequest, State.setBuffer, Function.update_self, hh.request, hn]
        rw [h.request]
      · rw [hcmd]
        exact hctl
      · rw [hcmd]
        exact hdo
      · simp [State.setRequest, State.setBuffer]
      · simp [dataOf, State.setRequest, State.setBuffer, hbh, hh.buffer]
    · refine complete_served hs (by omega) ?_ (fun _ => ⟨hdisk, ?_⟩) fun hc => absurd hc hnot
      · simp [State.setRequest, State.setBuffer, hh.request, hbh]
      · simp [dataOf, State.setRequest, State.setBuffer, hbh, hh.buffer]

/-- The interrupts of a write. -/
theorem writeIntr_served {n t : ℕ} {s₁ : State D} (hs : s₁.writeIntr ok drq = some s')
    (h : Live s₀ r n t s) (hn₂ : n ≤ 2) (hcmd : (s₀.request r).cmd = .write) (hh : Handling s s₁)
    (hbad : ok = false → s₁.disk = s.disk)
    (hgood : ok = true → s₁.disk = putSector (s₀.request r) s.disk t (dataOf s₀ r s (n % 2)))
    (hctl : 1 < n → ok = true → s₁.ctl = some (.rw .write (s₀.request r).hd (n - 1) (t + 1)
      (s₀.request r).head (s₀.request r).cyl) ∧ s₁.doHd = some .writeIntr) :
    Served s₀ r n t s s' (some ok) := by
  have hn : (s.request r).nsector = n := by rw [h.request]
  have hbh : (s.request r).bh = (s₀.request r).bh := by rw [h.request]
  have hnot : (s₀.request r).cmd ≠ .read := by simp [hcmd]
  cases ok with
  | false => exact badRwIntr_served h hh (hbad rfl) hs
  | true =>
    unfold State.writeIntr at hs
    simp only [hh.this, h.this, hh.request, hn] at hs
    split at hs
    · rename_i hne
      obtain rfl := Option.some.inj hs
      obtain ⟨hctl, hdo⟩ := hctl (by omega) rfl
      have hone : n - 1 = 1 := by omega
      refine .sector (by omega) ⟨hh.this.trans h.this, hh.sorting.trans h.sorting, ?_,
        .inr ⟨?_, ?_, fun _ => ?_⟩⟩ (fun hc => absurd hc hnot) fun _ => ⟨?_, ?_, hgood rfl⟩
      · simp only [State.setRequest, State.portWrite, Function.update_self, hh.request, hn]
        rw [h.request]
      · rw [hcmd]
        exact hctl
      · rw [hcmd]
        exact hdo
      · simp [State.setRequest, State.portWrite, hh.request, hbh, hone]
      · simp [dataOf, State.setRequest, State.portWrite, hh.buffer]
      · simp [State.setRequest, State.portWrite, hh.request]
    · refine complete_served hs (by omega) ?_ (fun hc => absurd hc hnot) fun _ => ⟨?_, hgood rfl⟩
      · simp [State.setRequest, hh.request, hbh]
      · simp [dataOf, State.setRequest, hh.buffer]

/-- What an interrupt does to the request that is being served. -/
theorem intr_served {n t : ℕ} (h : Live s₀ r n t s) (hn₂ : n ≤ 2)
    (hs : s.intr ok drq = some s') :
    Served s₀ r n t s s' (if s.ctl = some .specify then none else some ok) := by
  obtain ⟨⟨s₁, data⟩, htr, hs⟩ := Option.bind_eq_some_iff.mp hs
  rcases h.ctl with ⟨hctl, hdo, ht⟩ | ⟨hctl, hdo, hport⟩
  · rw [if_pos hctl]
    simp only [State.transfer, hctl, Option.some.injEq, Prod.mk.injEq] at htr
    obtain ⟨rfl, rfl⟩ := htr
    simp only [hdo] at hs
    obtain ⟨hlive, hbuf, hdisk, herr⟩ := doRequest_live (s := { s with ctl := none, doHd := _ })
      h.this h.sorting h.request hs
    exact .reset hlive (by simp only [dataOf, hbuf]) hdisk herr
  · rw [if_neg (by rw [hctl]; simp)]
    cases hcmd : (s₀.request r).cmd with
    | read =>
      rw [hcmd] at hctl hdo
      have hrest (hlt : 1 < n) : State.rest .read (s₀.request r).hd n t (s₀.request r).head
          (s₀.request r).cyl = some (.rw .read (s₀.request r).hd (n - 1) (t + 1)
            (s₀.request r).head (s₀.request r).cyl) := by
        rw [State.rest, if_neg (by omega)]
      cases ok with
      | false =>
        simp only [State.transfer, hctl, Bool.false_eq_true, if_false, Option.some.injEq,
          Prod.mk.injEq] at htr
        obtain ⟨rfl, rfl⟩ := htr
        simp only [hdo, Cmd.handler] at hs
        exact readIntr_served hs h hcmd ⟨rfl, rfl, rfl, rfl⟩ rfl (fun _ hne => absurd rfl hne)
          (by simp)
      | true =>
        simp only [State.transfer, hctl, if_true, Option.some.injEq, Prod.mk.injEq] at htr
        obtain ⟨rfl, rfl⟩ := htr
        simp only [hdo, Cmd.handler] at hs
        refine readIntr_served hs h hcmd ⟨rfl, rfl, rfl, rfl⟩ rfl
          (fun hlt _ => ⟨hrest hlt, rfl⟩) fun d hd => ?_
        exact (Option.some.inj hd).symm
    | write =>
      have hport := hport hcmd
      rw [hcmd] at hctl hdo
      have hrest (hlt : 1 < n) : State.rest .write (s₀.request r).hd n t (s₀.request r).head
          (s₀.request r).cyl = some (.rw .write (s₀.request r).hd (n - 1) (t + 1)
            (s₀.request r).head (s₀.request r).cyl) := by
        rw [State.rest, if_neg (by omega)]
      cases ok with
      | false =>
        simp only [State.transfer, hctl, Bool.false_eq_true, if_false, Option.some.injEq,
          Prod.mk.injEq] at htr
        obtain ⟨rfl, rfl⟩ := htr
        simp only [hdo, Cmd.handler] at hs
        exact writeIntr_served hs h hn₂ hcmd ⟨rfl, rfl, rfl, rfl⟩ (fun _ => rfl)
          (fun hc => by cases hc)
          fun _ hc => by cases hc
      | true =>
        simp only [State.transfer, hctl, if_true, hport, Option.map_some, Option.some.injEq,
          Prod.mk.injEq] at htr
        obtain ⟨rfl, rfl⟩ := htr
        simp only [hdo, Cmd.handler] at hs
        exact writeIntr_served hs h hn₂ hcmd ⟨rfl, rfl, rfl, rfl⟩ (fun hc => by cases hc)
          (fun _ => rfl)
          fun hlt _ => ⟨hrest hlt, rfl⟩

/-! ### The service of a request -/

/-- How far the request has been served: after `k` errors on the first sector, and `j + 1` errors on
the second one. -/
inductive Phase
  /-- No sector has been transferred. -/
  | first (k : ℕ)
  /-- The first sector has been transferred. -/
  | second (k : ℕ)
  /-- The command for the second sector has been repeated. -/
  | again (k j : ℕ)
  /-- Both sectors have been transferred by one command. -/
  | done (k : ℕ)
  /-- The request has been completed by a repeated command. -/
  | late (k j : ℕ)
  /-- The request has been given up. -/
  | givenUp (k j : ℕ)

/-- The outcomes that lead to a phase, most recent first. -/
def Phase.outcomes : Phase → List Bool
  | first k => List.replicate k false
  | second k => true :: List.replicate k false
  | again k j | givenUp k j => List.replicate (j + 1) false ++ true :: List.replicate k false
  | done k => true :: true :: List.replicate k false
  | late k j => true :: (List.replicate (j + 1) false ++ true :: List.replicate k false)

/-- The contents of the buffer and the disk while the request is served; `one` tells whether the
first sector has been transferred. -/
structure Contents (s₀ : State D) (r : Fin 32) (one : Bool) (s : State D) : Prop where
  read : (s₀.request r).cmd = .read → s.disk = s₀.disk ∧
    (one = true → dataOf s₀ r s 0 = track (s₀.request r) s₀.disk (s₀.request r).sector)
  write : (s₀.request r).cmd = .write → dataOf s₀ r s = dataOf s₀ r s₀ ∧
    s.disk = if one then
      putSector (s₀.request r) s₀.disk (s₀.request r).sector (dataOf s₀ r s₀ 0) else s₀.disk

/-- The request has been completed with the buffer or the disk given. -/
structure Completed (s₀ : State D) (r : Fin 32) (data : ℕ → D) (disk : ℤ → ℕ → ℕ → ℕ → D)
    (s : State D) : Prop where
  hd : (s.request r).hd < 0
  uptodate : (s.buffer (s₀.request r).bh).uptodate = true
  read : (s₀.request r).cmd = .read → ∀ i < 2, dataOf s₀ r s i = data i
  write : (s₀.request r).cmd = .write → s.disk = disk

/-- What is true in a phase. -/
def InPhase (s₀ : State D) (r : Fin 32) (s : State D) : Phase → Prop
  | .first k => Live s₀ r 2 (s₀.request r).sector s ∧ (s.request r).errors = k ∧
      Contents s₀ r false s
  | .second k => Live s₀ r 1 ((s₀.request r).sector + 1) s ∧
      (s.request r).errors = (if (s₀.request r).cmd = .read then 0 else k) ∧ Contents s₀ r true s
  | .again k j => Live s₀ r 1 (s₀.request r).sector s ∧
      (s.request r).errors = (if (s₀.request r).cmd = .read then j + 1 else k + j + 1) ∧
      (s.request r).errors ≤ 5 ∧ Contents s₀ r true s
  | .done _ => Completed s₀ r
      (fun i => track (s₀.request r) s₀.disk ((s₀.request r).sector + i))
      (putSector (s₀.request r)
        (putSector (s₀.request r) s₀.disk (s₀.request r).sector (dataOf s₀ r s₀ 0))
        ((s₀.request r).sector + 1) (dataOf s₀ r s₀ 1)) s
  | .late k j => ((s₀.request r).cmd = .write → k + j + 1 ≤ 5) ∧
      Completed s₀ r (fun _ => track (s₀.request r) s₀.disk (s₀.request r).sector)
        (putSector (s₀.request r)
          (putSector (s₀.request r) s₀.disk (s₀.request r).sector (dataOf s₀ r s₀ 0))
          (s₀.request r).sector (dataOf s₀ r s₀ 1)) s
  | .givenUp k j => (s.request r).hd < 0 ∧ (s₀.request r).cmd = .write ∧ 5 < k + j + 1 ∧
      s.disk = putSector (s₀.request r) s₀.disk (s₀.request r).sector (dataOf s₀ r s₀ 0)

/-- The outcomes hold more than five errors in a row. -/
def Limit (outcomes : List Bool) : Prop := List.replicate 6 false <:+: outcomes

theorem limit_of_le {j : ℕ} {l : List Bool} (hj : 5 ≤ j) :
    Limit (List.replicate (j + 1) false ++ l) := by
  obtain ⟨i, rfl⟩ := Nat.exists_eq_add_of_le hj
  refine ⟨[], List.replicate i false ++ l, ?_⟩
  rw [List.nil_append, ← List.append_assoc, List.replicate_append_replicate]
  congr 2
  omega

theorem Limit.cons {o : Bool} {l : List Bool} (h : Limit l) : Limit (o :: l) :=
  h.trans (List.suffix_cons o l).isInfix

theorem Contents.congr {one : Bool} (h : Contents s₀ r one s)
    (hbuf : dataOf s₀ r s' = dataOf s₀ r s) (hdisk : s'.disk = s.disk) :
    Contents s₀ r one s' :=
  ⟨fun hc => by rw [hdisk, hbuf]; exact h.read hc, fun hc => by rw [hdisk, hbuf]; exact h.write hc⟩

theorem Cmd.eq_write {c : Cmd} (h : c ≠ .read) : c = .write := by
  cases c with
  | read => exact absurd rfl h
  | write => rfl

section Steps

variable {o : Option Bool}

/-- Before the first sector an error repeats the whole command. -/
theorem step_first {k : ℕ} (h : InPhase s₀ r s (.first k))
    (hs : Served s₀ r 2 (s₀.request r).sector s s' o)
    (hlimit : ¬ Limit (o.toList ++ (Phase.first k).outcomes)) :
    ∃ ph, ph.outcomes = o.toList ++ (Phase.first k).outcomes ∧ InPhase s₀ r s' ph := by
  obtain ⟨-, herr, hcont⟩ := h
  cases hs with
  | reset hlive hbuf hdisk herr' =>
    exact ⟨.first k, rfl, hlive, herr'.trans herr, hcont.congr hbuf hdisk⟩
  | error hlive hbuf hdisk herr' _ =>
    exact ⟨.first (k + 1), rfl, hlive, by rw [herr', herr], hcont.congr hbuf hdisk⟩
  | giveUp _ hmany _ =>
    have hlim : Limit (List.replicate (k + 1) false ++ []) := limit_of_le (herr ▸ hmany)
    rw [List.append_nil] at hlim
    exact absurd hlim hlimit
  | sector _ hlive hread hwrite =>
    refine ⟨.second k, rfl, hlive, ?_, fun hc => ?_, fun hc => ?_⟩
    · by_cases hc : (s₀.request r).cmd = .read
      · rw [if_pos hc]
        exact (hread hc).2.1
      · rw [if_neg hc, (hwrite (Cmd.eq_write hc)).2.1, herr]
    · obtain ⟨hdisk, -, hdata⟩ := hread hc
      obtain ⟨hdisk₀, -⟩ := hcont.read hc
      refine ⟨hdisk.trans hdisk₀, fun _ => ?_⟩
      rw [hdata, hdisk₀]
      exact Function.update_self ..
    · obtain ⟨hbuf, -, hdisk⟩ := hwrite hc
      obtain ⟨hbuf₀, hdisk₀⟩ := hcont.write hc
      rw [if_neg (by simp)] at hdisk₀
      refine ⟨hbuf.trans hbuf₀, ?_⟩
      rw [if_pos rfl, hdisk, hdisk₀, hbuf₀]
  | last hone => omega

/-- The last sector of the request comes from, or goes to, the sector `t`. -/
theorem completed_last {t : ℕ} (hcont : Contents s₀ r true s)
    (hhd : (s'.request r).hd < 0) (hup : (s'.buffer (s₀.request r).bh).uptodate = true)
    (hread : (s₀.request r).cmd = .read → s'.disk = s.disk ∧
      dataOf s₀ r s' = Function.update (dataOf s₀ r s) 1 (track (s₀.request r) s.disk t))
    (hwrite : (s₀.request r).cmd = .write → dataOf s₀ r s' = dataOf s₀ r s ∧
      s'.disk = putSector (s₀.request r) s.disk t (dataOf s₀ r s 1)) :
    Completed s₀ r
      (fun i => track (s₀.request r) s₀.disk (if i = 0 then (s₀.request r).sector else t))
      (putSector (s₀.request r)
        (putSector (s₀.request r) s₀.disk (s₀.request r).sector (dataOf s₀ r s₀ 0))
        t (dataOf s₀ r s₀ 1)) s' := by
  refine ⟨hhd, hup, fun hc i hi => ?_, fun hc => ?_⟩
  · obtain ⟨-, hdata⟩ := hread hc
    obtain ⟨hdisk₀, hdata₀⟩ := hcont.read hc
    rw [hdata, hdisk₀]
    obtain rfl | rfl : i = 0 ∨ i = 1 := by omega
    · rw [Function.update_of_ne (by simp), if_pos rfl]
      exact hdata₀ rfl
    · rw [Function.update_self, if_neg (by simp)]
  · obtain ⟨-, hdisk⟩ := hwrite hc
    obtain ⟨hbuf₀, hdisk₀⟩ := hcont.write hc
    rw [hdisk, hdisk₀, hbuf₀, if_pos rfl]

/-- After the first sector an error leads to a command for one sector, again from the first on. -/
theorem step_second {k : ℕ} (h : InPhase s₀ r s (.second k))
    (ho : o = none → s.ctl = some .specify)
    (hs : Served s₀ r 1 ((s₀.request r).sector + 1) s s' o) :
    ∃ ph, ph.outcomes = o.toList ++ (Phase.second k).outcomes ∧ InPhase s₀ r s' ph := by
  obtain ⟨hlive₀, herr, hcont⟩ := h
  cases hs with
  | reset =>
    rcases hlive₀.ctl with ⟨-, -, ht⟩ | ⟨hctl, -⟩
    · omega
    · rw [ho rfl] at hctl
      cases hctl
  | error hlive hbuf hdisk herr' hfew =>
    refine ⟨.again k 0, rfl, hlive, ?_, by omega, hcont.congr hbuf hdisk⟩
    rw [herr', herr]
    split_ifs <;> rfl
  | giveUp hhd hmany hdisk =>
    have hc : (s₀.request r).cmd ≠ .read := fun hc => by
      rw [herr, if_pos hc] at hmany
      omega
    rw [herr, if_neg hc] at hmany
    refine ⟨.givenUp k 0, rfl, hhd, Cmd.eq_write hc, by omega, ?_⟩
    rw [hdisk, (hcont.write (Cmd.eq_write hc)).2, if_pos rfl]
  | sector hone => omega
  | last _ hhd hup hread hwrite =>
    have hdone := completed_last hcont hhd hup hread hwrite
    refine ⟨.done k, rfl, hdone.hd, hdone.uptodate, fun hc i hi => ?_, hdone.write⟩
    obtain rfl | rfl : i = 0 ∨ i = 1 := by omega
    · exact hdone.read hc 0 hi
    · exact hdone.read hc 1 hi

/-- The repeated command transfers the first sector. -/
theorem step_again {k j : ℕ} (h : InPhase s₀ r s (.again k j))
    (hs : Served s₀ r 1 (s₀.request r).sector s s' o)
    (hlimit : ¬ Limit (o.toList ++ (Phase.again k j).outcomes)) :
    ∃ ph, ph.outcomes = o.toList ++ (Phase.again k j).outcomes ∧ InPhase s₀ r s' ph := by
  obtain ⟨-, herr, hle, hcont⟩ := h
  cases hs with
  | reset hlive hbuf hdisk herr' =>
    exact ⟨.again k j, rfl, hlive, herr'.trans herr, by omega, hcont.congr hbuf hdisk⟩
  | error hlive hbuf hdisk herr' hfew =>
    refine ⟨.again k (j + 1), rfl, hlive, ?_, by omega, hcont.congr hbuf hdisk⟩
    rw [herr', herr]
    split_ifs <;> omega
  | giveUp hhd hmany hdisk =>
    have hc : (s₀.request r).cmd ≠ .read := fun hc => by
      rw [herr, if_pos hc] at hmany
      have hlim : Limit (List.replicate (j + 1 + 1) false ++ true :: List.replicate k false) :=
        limit_of_le (by omega)
      exact hlimit hlim
    rw [herr, if_neg hc] at hmany
    refine ⟨.givenUp k (j + 1), rfl, hhd, Cmd.eq_write hc, by omega, ?_⟩
    rw [hdisk, (hcont.write (Cmd.eq_write hc)).2, if_pos rfl]
  | sector hone => omega
  | last _ hhd hup hread hwrite =>
    have hdone := completed_last hcont hhd hup hread hwrite
    refine ⟨.late k j, rfl, fun hc => ?_, hdone.hd, hdone.uptodate, fun hc i hi => ?_, hdone.write⟩
    · rw [if_neg (by simp [hc])] at herr
      omega
    · rw [hdone.read hc i hi]
      split_ifs <;> rfl

end Steps

/-- A completed request is served no more. -/
theorem hd_of_inPhase {ph : Phase} (h : InPhase s₀ r s ph) (hhd₀ : 0 ≤ (s₀.request r).hd) :
    0 ≤ (s.request r).hd ↔ (∃ k, ph = .first k) ∨ (∃ k, ph = .second k) ∨ ∃ k j,
      ph = .again k j := by
  cases ph with
  | first k =>
    rw [h.1.request]
    exact ⟨fun _ => .inl ⟨k, rfl⟩, fun _ => hhd₀⟩
  | second k =>
    rw [h.1.request]
    exact ⟨fun _ => .inr (.inl ⟨k, rfl⟩), fun _ => hhd₀⟩
  | again k j =>
    rw [h.1.request]
    exact ⟨fun _ => .inr (.inr ⟨k, j, rfl⟩), fun _ => hhd₀⟩
  | done k =>
    have := h.hd
    exact ⟨fun _ => by omega, by simp⟩
  | late k j =>
    have := h.2.hd
    exact ⟨fun _ => by omega, by simp⟩
  | givenUp k j =>
    have := h.1
    exact ⟨fun _ => by omega, by simp⟩

theorem inPhase_step {o : Option Bool} {ph : Phase} (h : InPhase s₀ r s ph)
    (hhd₀ : 0 ≤ (s₀.request r).hd) (hs : Service r s o s')
    (hlimit : ¬ Limit (o.toList ++ ph.outcomes)) :
    ∃ ph', ph'.outcomes = o.toList ++ ph.outcomes ∧ InPhase s₀ r s' ph' := by
  obtain ⟨hhd, ok, drq, hintr, rfl⟩ := hs
  rcases (hd_of_inPhase h hhd₀).mp hhd with ⟨k, rfl⟩ | ⟨k, rfl⟩ | ⟨k, j, rfl⟩
  · exact step_first h (intr_served h.1 le_rfl hintr) hlimit
  · refine step_second h (fun ho => ?_) (intr_served h.1 (by omega) hintr)
    by_contra hne
    simp [hne] at ho
  · exact step_again h (intr_served h.1 (by omega) hintr) hlimit

/-- A request that has been issued for two sectors is in one of the phases. -/
theorem inPhase_of_runs {s₁ : State D} {es : List (Option Bool)} (hthis : s₀.thisRequest = some r)
    (hsort : s₀.sorting = false) (hn : (s₀.request r).nsector = 2)
    (herr : (s₀.request r).errors = 0) (hhd₀ : 0 ≤ (s₀.request r).hd)
    (hissue : s₀.doRequest drq = some s₁) (hrun : Runs (Service r) s₁ es s)
    (hlimit : ¬ Limit es.reduceOption) :
    ∃ ph : Phase, ph.outcomes = es.reduceOption ∧ InPhase s₀ r s ph := by
  refine hrun.simulation
    (R := fun es s => ¬ Limit es.reduceOption → ∃ ph : Phase, ph.outcomes = es.reduceOption ∧
      InPhase s₀ r s ph) (fun es s o s' ih hs hlim => ?_) (fun _ => ?_) hlimit
  · have hred : (o :: es).reduceOption = o.toList ++ es.reduceOption := by
      cases o <;> rfl
    rw [hred] at hlim ⊢
    obtain ⟨ph, hph, hin⟩ := ih fun h => hlim (by
      cases o with
      | none => exact h
      | some ok => exact h.cons)
    rw [← hph] at hlim ⊢
    exact inPhase_step hin hhd₀ hs hlim
  · have hreq : s₀.request r = { s₀.request r with
      nsector := 2, errors := (s₀.request r).errors } := by
      rw [← hn]
    obtain ⟨hlive, hbuf, hdisk, herr'⟩ := doRequest_live hthis hsort hreq hissue
    refine ⟨.first 0, rfl, hlive, herr'.trans herr, fun _ => ⟨hdisk, (nomatch ·)⟩, fun _ =>
      ⟨?_, hdisk⟩⟩
    simp only [dataOf, hbuf]

/-! ### Completion -/

theorem putSector_track {q : Request} {disk : ℤ → ℕ → ℕ → ℕ → D} {t k : ℕ} {d : D} :
    track q (putSector q disk t d) k = if k = t then d else track q disk k := by
  simp [track, putSector]

theorem putSector_of_ne {q : Request} {disk : ℤ → ℕ → ℕ → ℕ → D} {t k c h : ℕ} {d' : ℤ} {d : D}
    (hne : ¬ (d' = q.hd ∧ c = q.cyl ∧ h = q.head ∧ k = t)) :
    putSector q disk t d d' c h k = disk d' c h k := if_neg hne

/-- An error has come right after a sector that was transferred. -/
def Broken (es : List (Option Bool)) : Prop := [false, true] <:+: es.reduceOption

theorem not_broken_done {es : List (Option Bool)} {k : ℕ}
    (h : (Phase.done k).outcomes = es.reduceOption) : ¬ Broken es := by
  intro hb
  have hsorted : (Phase.done k).outcomes.Pairwise fun a b => b = true → a = true := by
    simp [Phase.outcomes, List.pairwise_replicate]
  rw [h] at hsorted
  have := hsorted.sublist hb.sublist
  simp at this

theorem broken_errors {j k : ℕ} :
    [false, true] <:+: List.replicate (j + 1) false ++ true :: List.replicate k false := by
  refine ⟨List.replicate j false, List.replicate k false, ?_⟩
  rw [List.replicate_succ']
  simp

theorem inPlace_read (hc : (s₀.request r).cmd = .read)
    (hup : (s.buffer (s₀.request r).bh).uptodate = true) :
    InPlace s₀ s r ↔ dataOf s₀ r s 0 = track (s₀.request r) s₀.disk (s₀.request r).sector ∧
      dataOf s₀ r s 1 = track (s₀.request r) s₀.disk ((s₀.request r).sector + 1) := by
  simp only [InPlace, hc, hup, true_imp_iff]
  exact Iff.rfl

/-- Only the two sectors of the request are ever written. -/
theorem inPlace_write (hc : (s₀.request r).cmd = .write)
    (hother : ∀ d c h k, ¬ (d = (s₀.request r).hd ∧ c = (s₀.request r).cyl ∧
      h = (s₀.request r).head ∧ (k = (s₀.request r).sector ∨ k = (s₀.request r).sector + 1)) →
        s.disk d c h k = s₀.disk d c h k) :
    InPlace s₀ s r ↔
      track (s₀.request r) s.disk (s₀.request r).sector = dataOf s₀ r s₀ 0 ∧
      track (s₀.request r) s.disk ((s₀.request r).sector + 1) = dataOf s₀ r s₀ 1 := by
  simp only [InPlace, hc]
  exact ⟨fun h => ⟨h.1, h.2.1⟩, fun h => ⟨h.1, h.2, hother⟩⟩

/-- Both sectors have been transferred by one command. -/
theorem inPlace_done {k : ℕ} (h : InPhase s₀ r s (.done k)) : InPlace s₀ s r := by
  by_cases hc : (s₀.request r).cmd = .read
  · rw [inPlace_read hc h.uptodate]
    exact ⟨h.read hc 0 (by omega), h.read hc 1 (by omega)⟩
  · have hc := Cmd.eq_write hc
    rw [inPlace_write hc, h.write hc]
    · rw [putSector_track, putSector_track, if_neg (by omega), if_pos rfl, putSector_track,
        if_pos rfl]
      exact ⟨rfl, rfl⟩
    · intro d c h' k hne
      rw [h.write hc, putSector_of_ne fun hk => hne ⟨hk.1, hk.2.1, hk.2.2.1, .inr hk.2.2.2⟩,
        putSector_of_ne fun hk => hne ⟨hk.1, hk.2.1, hk.2.2.1, .inl hk.2.2.2⟩]

/-- The last sector transferred was the first one of the request. -/
theorem inPlace_late {k j : ℕ} (h : InPhase s₀ r s (.late k j)) :
    InPlace s₀ s r ↔ Harmless s₀ r (Phase.late k j).outcomes := by
  obtain ⟨hfew, h⟩ := h
  by_cases hc : (s₀.request r).cmd = .read
  · rw [inPlace_read hc h.uptodate, h.read hc 0 (by omega), h.read hc 1 (by omega)]
    simp only [Harmless, hc, true_and]
    exact eq_comm
  · have hc := Cmd.eq_write hc
    have hcount : ¬ 5 < (Phase.late k j).outcomes.count false := by
      have := hfew hc
      simp [Phase.outcomes]
      omega
    rw [inPlace_write hc, h.write hc]
    · rw [putSector_track, if_pos rfl, putSector_track, if_neg (by omega), putSector_track,
        if_neg (by omega)]
      simp only [Harmless, hc, hcount, or_false]
      exact ⟨fun ⟨h₁, h₂⟩ => ⟨h₂, h₁.symm⟩, fun ⟨h₁, h₂⟩ => ⟨h₂.symm, h₁⟩⟩
    · intro d c h' k hne
      rw [h.write hc, putSector_of_ne fun hk => hne ⟨hk.1, hk.2.1, hk.2.2.1, .inl hk.2.2.2⟩,
        putSector_of_ne fun hk => hne ⟨hk.1, hk.2.1, hk.2.2.1, .inl hk.2.2.2⟩]

/-- The write was given up after its first sector. -/
theorem inPlace_givenUp {k j : ℕ} (h : InPhase s₀ r s (.givenUp k j)) :
    InPlace s₀ s r ↔ Harmless s₀ r (Phase.givenUp k j).outcomes := by
  obtain ⟨-, hc, hmany, hdisk⟩ := h
  have hcount : 5 < (Phase.givenUp k j).outcomes.count false := by
    simp [Phase.outcomes]
    omega
  rw [inPlace_write hc, hdisk]
  · rw [putSector_track, if_pos rfl, putSector_track, if_neg (by omega)]
    simp only [Harmless, hc, hcount, or_true, and_true, true_and]
    exact Iff.rfl
  · intro d c h' k hne
    rw [hdisk, putSector_of_ne fun hk => hne ⟨hk.1, hk.2.1, hk.2.2.1, .inl hk.2.2.2⟩]

/-- `do_request` issues a command for a valid drive only. -/
theorem hd_of_doRequest (hthis : s.thisRequest = some r) (hsort : s.sorting = false)
    (hs : s.doRequest drq = some s') : 0 ≤ (s.request r).hd := by
  by_contra hneg
  have hout (c : Command) (h : Handler) : s.hdOut (s.request r).hd (s.request r).head c h = none :=
    if_pos (.inl (by omega))
  unfold State.doRequest at hs
  simp only [hsort, Bool.false_eq_true, if_false, hthis, hout] at hs
  split at hs <;> cases hs

/-- When a request of two sectors, issued by `do_request` and retried after errors, has been
completed, its data is in place if and only if no error came between the two sectors, or the data
makes no difference. -/
theorem retries_inPlace {s₁ : State D} {es : List (Option Bool)} (hthis : s₀.thisRequest = some r)
    (hsort : s₀.sorting = false) (hn : (s₀.request r).nsector = 2)
    (herr : (s₀.request r).errors = 0) (hissue : s₀.doRequest drq = some s₁)
    (hrun : Runs (Service r) s₁ es s) (hlimit : ¬ Limit es.reduceOption)
    (hdone : (s.request r).hd < 0) :
    InPlace s₀ s r ↔ ¬ Broken es ∨ Harmless s₀ r es.reduceOption := by
  have hhd₀ := hd_of_doRequest hthis hsort hissue
  obtain ⟨ph, hph, hin⟩ := inPhase_of_runs hthis hsort hn herr hhd₀ hissue hrun hlimit
  have hlive := (hd_of_inPhase hin hhd₀).not.mp (by omega)
  cases ph with
  | first k => simp at hlive
  | second k => simp at hlive
  | again k j => simp at hlive
  | done k => exact iff_of_true (inPlace_done hin) (.inl (not_broken_done hph))
  | late k j =>
    have hbroken : Broken es := by
      rw [Broken, ← hph]
      exact broken_errors.trans (List.suffix_cons _ _).isInfix
    rw [inPlace_late hin, hph]
    exact ⟨.inr, fun h => h.resolve_left (not_not.mpr hbroken)⟩
  | givenUp k j =>
    have hbroken : Broken es := by
      rw [Broken, ← hph]
      exact broken_errors
    rw [inPlace_givenUp hin, hph]
    exact ⟨.inr, fun h => h.resolve_left (not_not.mpr hbroken)⟩

/-- The interrupt with a given label. -/
def serviceNext (r : Fin 32) (s : State D) (o : Option Bool) : Option (State D) :=
  if 0 ≤ (s.request r).hd ∧ (o = none ↔ s.ctl = some .specify) then s.intr (o.getD true) true
  else none

theorem service_of_next {o : Option Bool} (h : serviceNext r s o = some s') : Service r s o s' := by
  unfold serviceNext at h
  split at h
  · rename_i hcond
    refine ⟨hcond.1, _, _, h, ?_⟩
    cases o with
    | none => rw [if_pos (hcond.2.mp rfl)]
    | some ok =>
      have hne : s.ctl ≠ some .specify := fun hc => nomatch hcond.2.mpr hc
      rw [if_neg hne]
      rfl
  · cases h

/-- A disk whose sectors hold their own numbers, and a read of the sectors 0 and 1 at the point
where `add_request` calls `do_request`. -/
def State.numbered : Option (State ℕ) :=
  exec State.next (State.init (fun _ => ⟨fun _ => 7, false, false, false⟩) fun _ _ _ k => k)
    (.submit .read 0 0 0 0 0 :: List.replicate 5 (.add true))

/-- The read succeeds after an error on its first sector. -/
theorem retries_inPlace_first : ∃ s₀ s₁ s : State ℕ, State.numbered = some s₀ ∧
    s₀.doRequest true = some s₁ ∧
    exec (serviceNext 0) s₁ [some false, none, some true, some true] = some s ∧ InPlace s₀ s 0 := by
  have hexec : (State.numbered.bind fun s₀ => (s₀.doRequest true).bind fun s₁ =>
      (exec (serviceNext 0) s₁ [some false, none, some true, some true]).map fun s =>
        (s₀.thisRequest, s₀.sorting, (s₀.request 0).nsector, (s₀.request 0).errors,
          (s.request 0).hd)) = some (some 0, false, 2, 0, -1) := by decide
  obtain ⟨s₀, hs₀, h⟩ := Option.bind_eq_some_iff.mp hexec
  obtain ⟨s₁, hs₁, h⟩ := Option.bind_eq_some_iff.mp h
  obtain ⟨s, hs, h⟩ := Option.map_eq_some_iff.mp h
  simp only [Prod.mk.injEq] at h
  obtain ⟨hthis, hsort, hn, herr, hhd⟩ := h
  have hrun := (runs_of_exec hs).mono fun _ _ _ => service_of_next
  refine ⟨s₀, s₁, s, hs₀, hs₁, hs, ?_⟩
  refine (retries_inPlace hthis hsort hn herr hs₁ hrun ?_ (by omega)).mpr (.inl ?_)
  · exact fun h => absurd h.length_le (by decide)
  · exact fun h => absurd (h.sublist) (by decide)

/-- After an error on its second sector the read puts the first sector into both halves. -/
theorem retries_misplaced : ∃ s₀ s₁ s : State ℕ, State.numbered = some s₀ ∧
    s₀.doRequest true = some s₁ ∧
    Runs (Service 0) s₁ [some true, none, some false, some true] s ∧ (s.request 0).hd < 0 ∧
    ¬ InPlace s₀ s 0 := by
  have hexec : (State.numbered.bind fun s₀ => (s₀.doRequest true).bind fun s₁ =>
      (exec (serviceNext 0) s₁ [some true, some false, none, some true]).map fun s =>
        (((s₀.request 0).cmd, (s₀.request 0).bh, track (s₀.request 0) s₀.disk
          ((s₀.request 0).sector + 1)),
          ((s.buffer 0).uptodate, (s.buffer 0).data 1), (s.request 0).hd)) =
      some ((.read, 0, 1), (true, 0), -1) := by decide
  obtain ⟨s₀, hs₀, h⟩ := Option.bind_eq_some_iff.mp hexec
  obtain ⟨s₁, hs₁, h⟩ := Option.bind_eq_some_iff.mp h
  obtain ⟨s, hs, h⟩ := Option.map_eq_some_iff.mp h
  simp only [Prod.mk.injEq] at h
  obtain ⟨⟨hcmd, hbh, htrack⟩, ⟨hup, hdata⟩, hhd⟩ := h
  have hrun := (runs_of_exec hs).mono fun _ _ _ => service_of_next
  refine ⟨s₀, s₁, s, hs₀, hs₁, hrun, by omega, fun h => ?_⟩
  rw [inPlace_read hcmd (by rw [hbh]; exact hup), dataOf, hbh, htrack, hdata] at h
  exact absurd h.2 (by simp)

end Linux001.Hd
