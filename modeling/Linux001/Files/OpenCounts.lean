import Linux001.Files.Descriptors
import Linux001.Lib.Counting
import Linux001.Lib.Runs
import Mathlib.Algebra.Order.BigOperators.Group.Finset
import Mathlib.Data.Fintype.BigOperators

/-!
# The counts of the file table are exact

`f_count` of an entry is the number of descriptors that point to it. A step of a process changes
the counts and its own descriptors together, and only of entries that it refers to or that are free.
`sys_open` and `sys_pipe` store the counts 0 and 1 outright after they have slept; the entries that
they have reserved have the count 1 then, because nobody else can refer to them.

## Main definitions

* `refs`: the descriptors of a task that point to an entry.
* `Moved`: what a step of a process can do to the counts and its descriptors.
* `Pc.Good`: what a process that sleeps knows.
* `Inv`: the invariant.

## Main results

* `fcount_eq`: in every state that is reached the counts are exact, and `sys_close` has not
  panicked.
-/

namespace Linux001.Files.Descriptors

/-- The number of descriptors that point to an entry. -/
def refs (filp : Fd → Option File) (f : File) : ℕ :=
  (Finset.univ.filter fun fd => filp fd = some f).card

theorem refs_update (filp : Fd → Option File) (fd : Fd) (x : Option File) (f : File) :
    refs (Function.update filp fd x) f + (if filp fd = some f then 1 else 0) =
      refs filp f + (if x = some f then 1 else 0) := by
  have h := card_filter_change (Q := fun i => Function.update filp fd x i = some f)
    (P := fun i => filp i = some f) (Finset.mem_univ fd) fun y _ hy => by
      rw [Function.update_of_ne hy]
  rwa [Function.update_self] at h

theorem refs_pos {filp : Fd → Option File} {fd : Fd} {f : File} (h : filp fd = some f) :
    0 < refs filp f := Finset.card_pos.mpr ⟨fd, by simpa using h⟩

theorem refs_le (filp : Fd → Option File) (f : File) : refs filp f ≤ 20 :=
  (Finset.card_le_univ _).trans (by simp)

theorem ne_some_of_refs {filp : Fd → Option File} {f : File} (h : refs filp f = 0) (fd : Fd) :
    filp fd ≠ some f := fun hfd => (refs_pos hfd).ne' h

theorem refs_none (f : File) : refs (fun _ => none) f = 0 := by simp [refs]

/-- The counts are at least the references of the running process, and do not wrap around. -/
structure Cpu.Fits (s : Cpu) : Prop where
  covered : ∀ f, refs s.current.filp f ≤ s.fcount f
  bounded : ∀ f, s.fcount f < 65535

/-- A process changes the counts together with its descriptors, and not the count of an entry that
others refer to and it does not. -/
structure Moved (s s' : Cpu) : Prop where
  balance : ∀ f, s'.fcount f + refs s.current.filp f = s.fcount f + refs s'.current.filp f
  frame : ∀ f, s.fcount f ≠ 0 → refs s.current.filp f = 0 → s'.fcount f = s.fcount f
  running : s'.panicked = s.panicked

variable {s s' s'' : Cpu}

namespace Moved

theorem refl (s : Cpu) : Moved s s := ⟨fun _ => rfl, fun _ _ _ => rfl, rfl⟩

theorem trans (h : Moved s s') (h' : Moved s' s'') : Moved s s'' where
  balance f := by
    have h₁ := h.balance f
    have h₂ := h'.balance f
    omega
  frame f hf hr := by
    have hs := h.frame f hf hr
    have hb := h.balance f
    rw [h'.frame f (hs ▸ hf) (by omega), hs]
  running := h'.running.trans h.running

/-- Only the counts and the descriptors matter. -/
theorem of_eq (hc : s'.fcount = s.fcount) (hf : s'.current.filp = s.current.filp)
    (hp : s'.panicked = s.panicked) : Moved s s' :=
  ⟨fun f => by rw [hc, hf], fun f _ _ => by rw [hc], hp⟩

theorem covered (h : Moved s s') (hs : s.Fits) (f : File) :
    refs s'.current.filp f ≤ s'.fcount f := by
  have hb := h.balance f
  have hc := hs.covered f
  omega

end Moved

namespace Cpu

/-- `f_count++` does not wrap around. -/
theorem inc_eq {f : File} (h : s.fcount f < 65535) : s.inc f = s.setCount f (s.fcount f + 1) := by
  rw [inc, Nat.mod_eq_of_lt (Nat.succ_lt_succ h)]

/-- A free descriptor is made to point to an entry that the process refers to, or that is free. -/
theorem moved_take {fd : Fd} {f : File} (hfd : s.current.filp fd = none)
    (hf : s.fcount f = 0 ∨ 0 < refs s.current.filp f) (hb : s.fcount f < 65535) :
    Moved s ((s.setFilp fd (some f)).inc f) := by
  rw [inc_eq (show (s.setFilp fd (some f)).fcount f < 65535 from hb)]
  refine ⟨fun g => ?_, fun g hg hr => ?_, rfl⟩
  · have hrefs := refs_update s.current.filp fd (some f) g
    simp only [hfd, reduceCtorEq, if_false, Option.some_inj] at hrefs
    change Function.update s.fcount f (s.fcount f + 1) g + _ = _ +
      refs (Function.update s.current.filp fd (some f)) g
    rw [Function.update_apply]
    split_ifs at hrefs ⊢ <;> grind
  · refine Function.update_of_ne ?_ ..
    rintro rfl
    omega

/-- A descriptor ceases to point to its entry. -/
theorem moved_drop {fd : Fd} {f : File} (hfd : s.current.filp fd = some f) (hpos : s.fcount f ≠ 0) :
    Moved s ((s.setFilp fd none).setCount f (s.fcount f - 1)) := by
  refine ⟨fun g => ?_, fun g _ hr => ?_, rfl⟩
  · have hrefs := refs_update s.current.filp fd none g
    simp only [hfd, reduceCtorEq, if_false, Option.some_inj] at hrefs
    change Function.update s.fcount f (s.fcount f - 1) g + _ = _ +
      refs (Function.update s.current.filp fd none) g
    rw [Function.update_apply]
    split_ifs at hrefs ⊢ <;> grind
  · refine Function.update_of_ne ?_ ..
    rintro rfl
    exact ne_some_of_refs hr fd hfd

end Cpu

/-! ### One step of a process -/

/-- What a process that sleeps knows: the entries that it has reserved have the count 1, and the
descriptors that `do_exit` has passed are closed. -/
def Pc.Good (filp : Fd → Option File) (fcount : File → ℕ) : Pc → Prop
  | .openNamei fd f | .openIput fd f => filp fd = some f ∧ fcount f = 1
  | .pipeInode fd₀ fd₁ f₀ f₁ => fd₀ ≠ fd₁ ∧ f₀ ≠ f₁ ∧
      (filp fd₀ = some f₀ ∧ fcount f₀ = 1) ∧ filp fd₁ = some f₁ ∧ fcount f₁ = 1
  | .closeIput (.exit rest) => ∀ fd ∉ rest, filp fd = none
  | .exitIput | .zombie => ∀ fd, filp fd = none
  | _ => True

/-- A step of a process. -/
structure Goes (s s' : Cpu) : Prop where
  moved : Moved s s'
  good : s'.current.pc.Good s'.current.filp s'.fcount

theorem Moved.ret (h : Moved s s') (v : ℤ) : Goes s (s'.ret v) :=
  ⟨h.trans (.of_eq rfl rfl rfl), trivial⟩

theorem Moved.goes (h : Moved s s') (h' : Goes s' s'') : Goes s s'' := ⟨h.trans h'.moved, h'.good⟩

namespace Cpu

/-- `sys_close` up to `iput`. -/
theorem close_spec (hs : s.Fits) (fd : ℕ) : ∃ r s', s.close fd = (r, s') ∧ r ≠ .panic ∧
    Moved s s' ∧ s'.Fits ∧ ∀ i : Fd, i.val = fd ∨ s.current.filp i = none →
      s'.current.filp i = none := by
  have hfits {s' : Cpu} (hm : Moved s s') (hle : ∀ f, s'.fcount f ≤ s.fcount f) : s'.Fits :=
    ⟨hm.covered hs, fun f => (hle f).trans_lt (hs.bounded f)⟩
  unfold close
  split
  · rename_i hfd
    set s₁ := s.setCloseOnExec ⟨fd, hfd⟩ false with hs₁
    have hm₁ : Moved s s₁ := .of_eq rfl rfl rfl
    dsimp only
    split
    · rename_i hnone
      refine ⟨_, _, rfl, (nomatch ·), hm₁, hfits hm₁ fun _ => le_rfl, fun i hi => ?_⟩
      rcases hi with rfl | hi
      exacts [hnone, hi]
    · rename_i f hsome
      have hpos : s.fcount f ≠ 0 := ((refs_pos hsome).trans_le (hs.covered f)).ne'
      rw [if_neg (show (s₁.setFilp ⟨fd, hfd⟩ none).fcount f ≠ 0 from hpos)]
      have hm : Moved s ((s₁.setFilp ⟨fd, hfd⟩ none).setCount f (s.fcount f - 1)) :=
        hm₁.trans (moved_drop (s := s₁) hsome hpos)
      have hle (g : File) : Function.update s.fcount f (s.fcount f - 1) g ≤ s.fcount g := by
        rw [Function.update_apply]
        split_ifs with hg
        · exact hg ▸ Nat.sub_le ..
        · exact le_rfl
      have hclosed (i : Fd) (hi : i.val = fd ∨ s.current.filp i = none) :
          Function.update s.current.filp ⟨fd, hfd⟩ none i = none := by
        rw [Function.update_apply]
        split_ifs with hne
        · rfl
        · exact hi.resolve_left fun h => hne (Fin.ext h)
      split
      · exact ⟨_, _, rfl, (nomatch ·), hm, hfits hm hle, hclosed⟩
      · exact ⟨_, _, rfl, (nomatch ·), hm, hfits hm hle, hclosed⟩
  · rename_i hfd
    exact ⟨_, _, rfl, (nomatch ·), .refl s, hs, fun i hi =>
      hi.resolve_left fun h => hfd (h ▸ i.isLt)⟩

/-- A loop that closes descriptors, with an invariant `P`. -/
theorem closeEach_goes {test : Task → Fd → Bool} {caller : List Fd → Caller} {done : Cpu → Cpu}
    (P : List Fd → (Fd → Option File) → Prop)
    (hskip : ∀ fd rest c, test c fd = false → P (fd :: rest) c.filp → P rest c.filp)
    (hclose : ∀ fd rest filp filp', (∀ i, i = fd ∨ filp i = none → filp' i = none) →
      P (fd :: rest) filp → P rest filp')
    (hsleep : ∀ rest filp fcount, P rest filp → (Pc.closeIput (caller rest)).Good filp fcount)
    (hdone : ∀ s : Cpu, P [] s.current.filp → Goes s (done s)) :
    ∀ (fds : List Fd) (s : Cpu), s.Fits → P fds s.current.filp →
      Goes s (closeEach test caller done fds s)
  | [], s, _, hP => hdone s hP
  | fd :: rest, s, hs, hP => by
    rw [closeEach]
    split_ifs with ht
    · obtain ⟨r, s', hr, hpanic, hm, hs', hclosed⟩ := close_spec hs fd
      have hP' := hclose fd rest _ _ (fun i hi => hclosed i (hi.imp_left (congrArg _))) hP
      rw [hr]
      cases r with
      | panic => exact absurd rfl hpanic
      | iput => exact ⟨hm.trans (.of_eq rfl rfl rfl), hsleep rest _ _ hP'⟩
      | value v =>
        have hg := closeEach_goes P hskip hclose hsleep hdone rest s' hs' hP'
        exact ⟨hm.trans hg.moved, hg.good⟩
    · exact closeEach_goes P hskip hclose hsleep hdone rest s hs
        (hskip fd rest s.current (Bool.eq_false_iff.mpr ht) hP)

theorem execLoop_goes (hs : s.Fits) (fds : List Fd) : Goes s (s.execLoop fds) := by
  rw [execLoop]
  refine closeEach_goes (fun _ _ => True) (fun _ _ _ _ => id) (fun _ _ _ _ _ => id)
    (fun rest filp fcount _ => ?_) (fun s _ => ?_) fds s hs trivial
  · trivial
  · exact ⟨.of_eq rfl rfl rfl, trivial⟩

theorem exitLoop_goes (hs : s.Fits) {fds : List Fd} (h : ∀ fd ∉ fds, s.current.filp fd = none) :
    Goes s (s.exitLoop fds) := by
  rw [exitLoop]
  refine closeEach_goes (fun fds filp => ∀ fd ∉ fds, filp fd = none) (fun fd rest c ht h i hi => ?_)
    (fun fd rest filp filp' hclosed h i hi => hclosed i ?_) (fun rest filp fcount h => ?_)
    (fun s h => ?_) fds s hs h
  · by_cases hne : i = fd
    · exact hne ▸ Option.not_isSome_iff_eq_none.mp (ht ▸ Bool.false_ne_true)
    · exact h i fun hmem => (List.mem_cons.mp hmem).elim hne hi
  · by_cases hne : i = fd
    · exact .inl hne
    · exact .inr (h i fun hmem => (List.mem_cons.mp hmem).elim hne hi)
  · exact h
  · exact ⟨.of_eq rfl rfl rfl, fun fd => h fd List.not_mem_nil⟩

theorem doExit_goes (hs : s.Fits) : Goes s s.doExit :=
  exitLoop_goes hs fun fd h => absurd (List.mem_finRange fd) h

theorem sysClose_goes (hs : s.Fits) (fd : ℕ) : Goes s (s.sysClose fd) := by
  obtain ⟨r, s', hr, hpanic, hm, -, -⟩ := close_spec hs fd
  rw [sysClose, hr]
  cases r with
  | panic => exact absurd rfl hpanic
  | iput => exact ⟨hm.trans (.of_eq rfl rfl rfl), trivial⟩
  | value v => exact hm.ret v

theorem dupfd_goes (hs : s.Fits) (fd arg : ℕ) : Goes s (s.dupfd fd arg) := by
  unfold dupfd
  split
  · exact (Moved.refl s).ret _
  · rename_i f hf
    split_ifs
    · exact (Moved.refl s).ret _
    · split
      · exact (Moved.refl s).ret _
      · rename_i i hi
        have hnone : arg ≤ i.val ∧ s.current.filp i = none := by simpa using List.find?_some hi
        have hpos : 0 < refs s.current.filp f := by
          unfold filpAt at hf
          split_ifs at hf
          exact refs_pos hf
        have hm : Moved s (s.setCloseOnExec i false) := .of_eq rfl rfl rfl
        exact (hm.trans (moved_take (s := s.setCloseOnExec i false) hnone.2 (.inr hpos)
          (hs.bounded f))).ret _

theorem sysDup2_goes (hs : s.Fits) (oldfd newfd : ℕ) : Goes s (s.sysDup2 oldfd newfd) := by
  obtain ⟨r, s', hr, hpanic, hm, hs', -⟩ := close_spec hs newfd
  rw [sysDup2, hr]
  cases r with
  | panic => exact absurd rfl hpanic
  | iput => exact ⟨hm.trans (.of_eq rfl rfl rfl), trivial⟩
  | value v => exact hm.goes (dupfd_goes hs' oldfd newfd)

theorem sysFcntl_goes (hs : s.Fits) (fd : ℕ) (cmd : Cmd) (arg : ℕ) :
    Goes s (s.sysFcntl fd cmd arg) := by
  unfold sysFcntl
  split
  · exact (Moved.refl s).ret _
  · cases cmd with
    | dupfd => exact dupfd_goes hs fd arg
    | getfd => exact (Moved.refl s).ret _
    | setfd =>
      refine Moved.ret ?_ 0
      split_ifs
      · exact .of_eq rfl rfl rfl
      · exact .refl s
    | other v => exact (Moved.refl s).ret v

theorem sysOpen_goes (hs : s.Fits) : Goes s s.sysOpen := by
  unfold sysOpen
  split
  · exact (Moved.refl s).ret _
  · rename_i fd hfd
    have hnone : s.current.filp fd = none := by simpa using List.find?_some hfd
    have hm : Moved s (s.setCloseOnExec fd false) := .of_eq rfl rfl rfl
    dsimp only
    split
    · exact hm.ret _
    · rename_i f hf
      have hfind := List.find?_some hf
      have hzero : s.fcount f = 0 := of_decide_eq_true hfind
      refine ⟨hm.trans ((moved_take (s := s.setCloseOnExec fd false) hnone (.inl hzero)
        (hs.bounded f)).trans (.of_eq rfl rfl rfl)), Function.update_self .., ?_⟩
      refine (Function.update_self ..).trans ?_
      change (s.fcount f + 1) % 65536 = 1
      rw [hzero]

/-- A process gives back an entry that it has reserved. -/
theorem moved_openFail {fd : Fd} {f : File} (hfd : s.current.filp fd = some f)
    (hf : s.fcount f = 1) : Moved s ((s.setFilp fd none).setCount f 0) := by
  have hm := moved_drop hfd (hf ▸ one_ne_zero)
  rwa [hf] at hm

theorem sysPipe_goes (hs : s.Fits) : Goes s s.sysPipe := by
  unfold sysPipe
  split
  · rename_i f₀ f₁ rest hfiles
    have hzero (f : File) (hf : f ∈ f₀ :: f₁ :: rest) : s.fcount f = 0 := by
      rw [← hfiles] at hf
      simpa using List.of_mem_filter hf
    have hf₀ := hzero f₀ List.mem_cons_self
    have hf₁ := hzero f₁ (List.mem_cons_of_mem _ List.mem_cons_self)
    have hf : f₀ ≠ f₁ := by
      have hnodup := (List.nodup_finRange 64).filter fun f => decide (s.fcount f = 0)
      rw [hfiles] at hnodup
      exact fun h => (List.nodup_cons.mp hnodup).1 (h ▸ List.mem_cons_self)
    dsimp only
    split
    · rename_i fd₀ fd₁ rest' hfds
      have hfree (fd : Fd) (hfd : fd ∈ fd₀ :: fd₁ :: rest') : s.current.filp fd = none := by
        rw [← hfds] at hfd
        have hfilter := List.of_mem_filter hfd
        exact of_decide_eq_true hfilter
      have hfd₀ := hfree fd₀ List.mem_cons_self
      have hfd₁ := hfree fd₁ (List.mem_cons_of_mem _ List.mem_cons_self)
      have hfd : fd₀ ≠ fd₁ := by
        have hnodup : (fd₀ :: fd₁ :: rest').Nodup := hfds ▸ (List.nodup_finRange 20).filter _
        exact fun h => (List.nodup_cons.mp hnodup).1 (h ▸ List.mem_cons_self)
      have hm₀ := moved_take hfd₀ (.inl hf₀) (hs.bounded f₀)
      set s₁ := (s.setFilp fd₀ (some f₀)).inc f₀ with hs₁
      have hs₁f : s₁.fcount f₁ = 0 := (Function.update_of_ne hf.symm ..).trans hf₁
      have hm₁ := moved_take (s := s₁) ((Function.update_of_ne hfd.symm ..).trans hfd₁) (.inl hs₁f)
        (hs₁f ▸ by decide)
      refine ⟨(hm₀.trans hm₁).trans (.of_eq rfl rfl rfl), hfd, hf, ⟨?_, ?_⟩, ?_, ?_⟩
      · exact (Function.update_of_ne hfd ..).trans (Function.update_self ..)
      · refine (Function.update_of_ne hf ..).trans ((Function.update_self ..).trans ?_)
        rw [hf₀]
      · exact Function.update_self ..
      · refine (Function.update_self ..).trans ?_
        change (s₁.fcount f₁ + 1) % 65536 = 1
        rw [hs₁f]
    · have hcount : ((((s.inc f₀).inc f₁).setCount f₁ 0).setCount f₀ 0).fcount = s.fcount := by
        funext g
        simp only [inc, setCount, Function.update_apply]
        split_ifs with h₀ h₁
        · rw [h₀, hf₀]
        · rw [h₁, hf₁]
        · rfl
      have hm : Moved s ((((s.inc f₀).inc f₁).setCount f₁ 0).setCount f₀ 0) :=
        .of_eq hcount rfl rfl
      exact hm.ret _
  · exact (Moved.refl s).ret _

theorem pipeFail_goes {fd₀ fd₁ : Fd} {f₀ f₁ : File}
    (h : (Pc.pipeInode fd₀ fd₁ f₀ f₁).Good s.current.filp s.fcount) :
    Goes s (s.pipeFail fd₀ fd₁ f₀ f₁) := by
  obtain ⟨hfd, hf, ⟨hfd₀, hf₀⟩, hfd₁, hf₁⟩ := h
  have hm₁ := moved_openFail hfd₁ hf₁
  set s₁ := (s.setFilp fd₁ none).setCount f₁ 0 with hs₁
  have hm₀ : Moved s₁ ((s₁.setFilp fd₀ none).setCount f₀ 0) := moved_openFail
    ((Function.update_of_ne hfd ..).trans hfd₀) ((Function.update_of_ne hf ..).trans hf₀)
  exact (hm₁.trans hm₀).ret _

theorem call_goes (hs : s.Fits) (c : Call) : Goes s (s.call c) := by
  cases c with
  | «open» => exact sysOpen_goes hs
  | creat => exact sysOpen_goes hs
  | close fd => exact sysClose_goes hs fd
  | dup fildes => exact dupfd_goes hs fildes 0
  | dup2 oldfd newfd => exact sysDup2_goes hs oldfd newfd
  | fcntl fd cmd arg => exact sysFcntl_goes hs fd cmd arg
  | pipe => exact sysPipe_goes hs
  | execve => exact ⟨.of_eq rfl rfl rfl, trivial⟩
  | exit => exact doExit_goes hs

theorem afterClose_goes (hs : s.Fits) {c : Caller}
    (h : (Pc.closeIput c).Good s.current.filp s.fcount) : Goes s (s.afterClose c) := by
  cases c with
  | user => exact (Moved.refl s).ret 0
  | dup2 oldfd newfd => exact dupfd_goes hs oldfd newfd
  | execve rest => exact execLoop_goes hs rest
  | exit rest => exact exitLoop_goes hs h

/-- `sys_open` stores the count that it has set before. -/
theorem moved_setCount_self {f : File} {c : ℕ} (hf : s.fcount f = c) : Moved s (s.setCount f c) :=
  .of_eq (Function.update_eq_iff.mpr ⟨hf.symm, fun _ _ => rfl⟩) rfl rfl

theorem resume_goes (hs : s.Fits) (hgood : s.current.pc.Good s.current.filp s.fcount) {a : Answer}
    (h : s.resume a = some s') : Goes s s' := by
  unfold resume at h
  split at h
  all_goals
    rename_i hpc
    try rw [hpc] at hgood
    try obtain rfl := Option.some.inj h
  · exact (moved_setCount_self hgood.2).ret _
  · exact (moved_openFail hgood.1 hgood.2).ret _
  · exact ⟨.of_eq rfl rfl rfl, hgood⟩
  · exact (moved_openFail hgood.1 hgood.2).ret _
  · exact (Moved.refl s).ret 0
  · exact pipeFail_goes hgood
  · exact afterClose_goes hs hgood
  · exact execLoop_goes hs _
  · exact (Moved.refl s).ret _
  · exact (Moved.refl s).ret 0
  · exact doExit_goes hs
  · exact doExit_goes hs
  · exact doExit_goes hs
  · exact doExit_goes hs
  · cases h

/-- The loop of `copy_process` adds the references of the child. -/
theorem copyFilp_spec (filp : Fd → Option File) (fds : List Fd) (s : Cpu)
    (hs : ∀ f, s.fcount f + fds.length < 65536) :
    ∃ g, s.copyFilp filp fds = { s with fcount := g } ∧
      ∀ f, g f = s.fcount f + fds.countP fun fd => decide (filp fd = some f) := by
  induction fds generalizing s with
  | nil => exact ⟨s.fcount, rfl, fun _ => rfl⟩
  | cons fd fds ih =>
    have hlen : ∀ f, s.fcount f + fds.length + 1 < 65536 := hs
    rw [copyFilp, List.foldl_cons]
    cases hfd : filp fd with
    | none =>
      obtain ⟨g, hg, hcount⟩ := ih s fun f => Nat.lt_of_succ_lt (hlen f)
      refine ⟨g, hg, fun f => ?_⟩
      rw [hcount, List.countP_cons_of_neg (by simp [hfd])]
    | some f₀ =>
      have hinc : s.inc f₀ = s.setCount f₀ (s.fcount f₀ + 1) := inc_eq (by have := hlen f₀; omega)
      have hle (f : File) : (s.inc f₀).fcount f = s.fcount f + if f₀ = f then 1 else 0 := by
        rw [hinc]
        change Function.update s.fcount f₀ (s.fcount f₀ + 1) f = _
        rw [Function.update_apply]
        split_ifs <;> grind
      obtain ⟨g, hg, hcount⟩ := ih (s.inc f₀) fun f => by
        have := hlen f
        rw [hle]
        split_ifs <;> omega
      refine ⟨g, hg, fun f => ?_⟩
      rw [hcount, hle, List.countP_cons]
      simp only [hfd, Option.some_inj, decide_eq_true_eq]
      omega

end Cpu

theorem refs_eq_countP (filp : Fd → Option File) (f : File) :
    refs filp f = (List.finRange 20).countP fun fd => decide (filp fd = some f) := by
  rw [List.countP_eq_length_filter]
  rfl

/-! ### The invariant -/

namespace State

variable (s : State)

/-- The number of descriptors of the task in a slot that point to an entry. -/
def refsOf (t : Option Task) (f : File) : ℕ := (t.map fun c => refs c.filp f).getD 0

theorem refsOf_none (f : File) : refsOf none f = 0 := rfl

theorem refsOf_some (c : Task) (f : File) : refsOf (some c) f = refs c.filp f := rfl

/-- The number of pairs of a task and a descriptor that point to an entry. -/
def pairs (f : File) : ℕ :=
  (Finset.univ.filter fun p : TaskNr × Fd =>
    ∃ c, s.task p.1 = some c ∧ c.filp p.2 = some f).card

theorem pairs_eq (f : File) : s.pairs f = ∑ t, refsOf (s.task t) f := by
  rw [pairs, Finset.card_filter, Fintype.sum_prod_type]
  refine Finset.sum_congr rfl fun t _ => ?_
  rw [← Finset.card_filter]
  cases h : s.task t with
  | none => simp [h, refsOf]
  | some c => simp [h, refsOf, refs]

/-- The invariant. -/
structure Inv : Prop where
  exact : ∀ f, s.fcount f = ∑ t, refsOf (s.task t) f
  good : ∀ t c, s.task t = some c → c.pc.Good c.filp s.fcount
  running : s.panicked = false

variable {s}

namespace Inv

theorem boot : Inv boot where
  exact f := by
    refine (Finset.sum_eq_zero fun t _ => ?_).symm
    unfold State.boot
    dsimp only
    split_ifs
    · exact refs_none f
    · rfl
  good t c h := by
    unfold State.boot at h
    dsimp only at h
    split_ifs at h
    obtain rfl := Option.some.inj h
    trivial
  running := rfl

/-- A count is at most the number of all descriptors. -/
theorem fcount_le (h : Inv s) (f : File) : s.fcount f ≤ 1280 := by
  have hle (t : TaskNr) : refsOf (s.task t) f ≤ 20 := by
    cases s.task t with
    | none => exact Nat.zero_le _
    | some c => exact refs_le c.filp f
  rw [h.exact]
  exact (Finset.sum_le_card_nsmul _ _ 20 fun t _ => hle t).trans (by simp)

theorem fits (h : Inv s) {t : TaskNr} {c : Task} (hc : s.task t = some c) : (s.cpu c).Fits where
  covered f := by
    have hle := Finset.single_le_sum (f := fun t => refsOf (s.task t) f) (fun _ _ => Nat.zero_le _)
      (Finset.mem_univ t)
    simp only [hc, refsOf_some] at hle
    exact hle.trans (h.exact f).ge
  bounded f := (h.fcount_le f).trans_lt (by decide)

/-- An entry that a sleeping process has reserved has no other user. -/
theorem refs_eq_zero (h : Inv s) {t t' : TaskNr} {c c' : Task} (hc : s.task t = some c)
    (hc' : s.task t' = some c') (hne : t' ≠ t) {fd : Fd} {f : File} (hfd : c'.filp fd = some f)
    (hf : s.fcount f = 1) : refs c.filp f = 0 := by
  have hle := add_le_sum_of_ne (fun t => refsOf (s.task t) f) hne
  have hpos := refs_pos hfd
  simp only [hc, hc', refsOf_some] at hle
  rw [← h.exact, hf] at hle
  omega

/-- What a sleeping process knows stays true when another process changes the counts. -/
theorem good_of_frame (h : Inv s) {t t' : TaskNr} {c c' : Task} (hc : s.task t = some c)
    (hc' : s.task t' = some c') (hne : t' ≠ t) {fcount : File → ℕ}
    (hframe : ∀ f, s.fcount f ≠ 0 → refs c.filp f = 0 → fcount f = s.fcount f) :
    c'.pc.Good c'.filp fcount := by
  have hgood := h.good t' c' hc'
  have hkeep {fd : Fd} {f : File} (hr : c'.filp fd = some f ∧ s.fcount f = 1) :
      c'.filp fd = some f ∧ fcount f = 1 :=
    ⟨hr.1, (hframe f (hr.2 ▸ one_ne_zero) (h.refs_eq_zero hc hc' hne hr.1 hr.2)).trans hr.2⟩
  revert hgood
  cases c'.pc with
  | openNamei fd f => exact hkeep
  | openIput fd f => exact hkeep
  | pipeInode fd₀ fd₁ f₀ f₁ => exact fun ⟨hfd, hf, h₀, h₁⟩ => ⟨hfd, hf, hkeep h₀, hkeep h₁⟩
  | closeIput caller => cases caller <;> exact id
  | user | execNamei | execRead | exitIput | zombie => exact id

/-- A process has run. -/
theorem put (h : Inv s) {t : TaskNr} {c : Task} {s' : Cpu} (hc : s.task t = some c)
    (hg : Goes (s.cpu c) s') : Inv (s.put t s') where
  exact f := by
    have hsum := sum_update_add s.task (fun c => refsOf c f) t (some s'.current)
    have hbal := hg.moved.balance f
    have hold := h.exact f
    change s'.fcount f = ∑ t', refsOf (Function.update s.task t (some s'.current) t') f
    change s'.fcount f + refs c.filp f = s.fcount f + refs s'.current.filp f at hbal
    rw [hc, refsOf_some, refsOf_some] at hsum
    omega
  good t' c' hc' := by
    change Function.update s.task t (some s'.current) t' = some c' at hc'
    by_cases hne : t' = t
    · rw [hne, Function.update_self] at hc'
      obtain rfl := Option.some.inj hc'
      exact hg.good
    · rw [Function.update_of_ne hne] at hc'
      exact h.good_of_frame hc hc' hne hg.moved.frame
  running := hg.moved.running.trans h.running

/-- A task structure that points to no file is freed. -/
theorem free (h : Inv s) {t : TaskNr} {c : Task} (hc : s.task t = some c)
    (hclosed : ∀ fd, c.filp fd = none) :
    Inv { s with task := Function.update s.task t none } where
  exact f := by
    have hsum := sum_update_add s.task (fun c => refsOf c f) t none
    have hrefs : refs c.filp f = 0 := by rw [funext hclosed, refs_none]
    rw [hc, refsOf_some, hrefs, refsOf_none, add_zero, add_zero] at hsum
    exact (h.exact f).trans hsum.symm
  good t' c' hc' := by
    change Function.update s.task t none t' = some c' at hc'
    rw [Function.update_apply] at hc'
    split_ifs at hc'
    exact h.good t' c' hc'
  running := h.running

/-- `find_empty_process` finds a free slot. -/
theorem findEmptyProcess_free {nr : TaskNr} (h : s.findEmptyProcess = some nr) :
    s.task nr = none := by
  have hfind := List.find?_some h
  exact Option.isNone_iff_eq_none.mp (of_decide_eq_true hfind).2

theorem fork (h : Inv s) {t : TaskNr} {c : Task} (hc : s.task t = some c) (hpc : c.pc = .user)
    (page copied : Bool) : Inv (s.fork t c page copied) := by
  unfold State.fork
  split
  · exact h.put hc ((Moved.refl _).ret _)
  · rename_i nr hnr
    have hfree := findEmptyProcess_free hnr
    split_ifs
    · have hne : nr ≠ t := by
        rintro rfl
        rw [hfree] at hc
        cases hc
      obtain ⟨g, hg, hcount⟩ := Cpu.copyFilp_spec c.filp (List.finRange 20) (s.cpu c) fun f =>
        Nat.lt_of_le_of_lt (Nat.add_le_add_right (h.fcount_le f) _) (by simp)
      have hcount (f : File) : g f = s.fcount f + refs c.filp f := by
        rw [hcount f, refs_eq_countP]
        rfl
      rw [hg]
      -- The parent returns to the user, with the same descriptors.
      set c' : Task := { c with pc := .user, eax := nr } with hc'
      refine ⟨fun f => ?_, fun t₁ c₁ h₁ => ?_, h.running⟩
      · have hsum₁ := sum_update_add s.task (fun c => refsOf c f) t (some c')
        have hsum₂ := sum_update_add (Function.update s.task t (some c')) (fun c => refsOf c f) nr
          (some { c with eax := 0 })
        rw [hc, refsOf_some, refsOf_some] at hsum₁
        rw [Function.update_of_ne hne, hfree, refsOf_none, refsOf_some, add_zero] at hsum₂
        change g f = ∑ t', refsOf (Function.update (Function.update s.task t (some c')) nr
          (some { c with eax := 0 }) t') f
        rw [hsum₂, hcount f, h.exact f, ← Nat.add_right_cancel hsum₁]
      · change Function.update (Function.update s.task t (some c')) nr
          (some { c with eax := 0 }) t₁ =
          some c₁ at h₁
        rw [Function.update_apply, Function.update_apply] at h₁
        split_ifs at h₁ with hnr₁ ht₁
        · obtain rfl := Option.some.inj h₁
          rw [hpc]
          trivial
        · obtain rfl := Option.some.inj h₁
          trivial
        · refine h.good_of_frame hc h₁ ht₁ fun f _ hr => ?_
          change g f = s.fcount f
          rw [hcount f, hr, add_zero]
    · exact h.put hc ((Moved.refl _).ret _)

theorem step {e : Event} {s' : State} (h : Inv s) (hs : s.next e = some s') : Inv s' := by
  cases e with
  | call t call =>
    obtain ⟨c, hc, hs⟩ := Option.bind_eq_some_iff.mp hs
    obtain ⟨-, hs⟩ := Option.ite_none_right_eq_some.mp hs
    rw [← Option.some.inj hs]
    exact h.put hc (Cpu.call_goes (h.fits hc) call)
  | resume t a =>
    obtain ⟨c, hc, hs⟩ := Option.bind_eq_some_iff.mp hs
    obtain ⟨-, hs⟩ := Option.ite_none_right_eq_some.mp hs
    obtain ⟨c', hc', rfl⟩ := Option.map_eq_some_iff.mp hs
    exact h.put hc (Cpu.resume_goes (h.fits hc) (h.good t c hc) hc')
  | fork t page copied =>
    obtain ⟨c, hc, hs⟩ := Option.bind_eq_some_iff.mp hs
    obtain ⟨⟨-, hpc⟩, hs⟩ := Option.ite_none_right_eq_some.mp hs
    rw [← Option.some.inj hs]
    exact h.fork hc hpc page copied
  | exited t father =>
    obtain ⟨c, hc, hs⟩ := Option.bind_eq_some_iff.mp hs
    obtain ⟨⟨-, hpc⟩, hs⟩ := Option.ite_none_right_eq_some.mp hs
    have hclosed : ∀ fd, c.filp fd = none := by
      have hgood := h.good t c hc
      rwa [hpc] at hgood
    split_ifs at hs
    · rw [← Option.some.inj hs]
      exact h.put hc ⟨.of_eq rfl rfl rfl, hclosed⟩
    · rw [← Option.some.inj hs]
      exact h.free hc hclosed
  | release t =>
    obtain ⟨c, hc, hs⟩ := Option.bind_eq_some_iff.mp hs
    obtain ⟨⟨-, hpc⟩, hs⟩ := Option.ite_none_right_eq_some.mp hs
    rw [← Option.some.inj hs]
    refine h.free hc ?_
    have hgood := h.good t c hc
    rwa [hpc] at hgood

end Inv

/-- In every state that is reached, the count of an entry is the number of pairs of a task and a
descriptor that point to it, an entry with the count 0 has no descriptor, and `sys_close` has not
panicked. -/
theorem fcount_eq {es : List Event} (h : Runs (fun s e s' => s.next e = some s') boot es s) :
    (∀ f, s.fcount f = s.pairs f) ∧
      (∀ f, s.fcount f = 0 → ∀ t c fd, s.task t = some c → c.filp fd ≠ some f) ∧
      s.panicked = false := by
  have hI : Inv s := h.invariant (I := Inv) (fun _ _ _ hI hs => hI.step hs) .boot
  have hexact (f : File) : s.fcount f = s.pairs f := (hI.exact f).trans (s.pairs_eq f).symm
  refine ⟨hexact, fun f hf t c fd hc hfd => ?_, hI.running⟩
  have hle : refs c.filp f ≤ s.fcount f := (hI.fits hc).covered f
  exact ne_some_of_refs (Nat.le_zero.mp (hf ▸ hle)) fd hfd

/-- A task opens a file, forks and duplicates the descriptor; the child closes its own. -/
theorem fcount_eq_three : ∃ es s, Runs (fun s e s' => s.next e = some s') boot es s ∧
    s.fcount 0 = 2 ∧ s.pairs 0 = 2 := by
  have hexec : ∃ s, exec (fun s e => s.next e) boot
      [.call 0 .open, .resume 0 .ok, .fork 0 true true, .call 0 (.dup 0), .call 1 (.close 0)] =
        some s ∧ s.fcount 0 = 2 := ⟨_, rfl, rfl⟩
  obtain ⟨s, hs, hcount⟩ := hexec
  have hrun := runs_of_exec hs
  exact ⟨_, s, hrun, hcount, ((fcount_eq hrun).1 0).symm.trans hcount⟩

end State

end Linux001.Files.Descriptors
