import Linux001.Lib.Counting
import Linux001.Names.Steps

/-!
# References to inodes

The counter of an inode in core is the number of its references: those that a process holds by its
position, the inodes that its calls have returned, and references from outside.

## Main definitions

* `Pc.refs`, `Proc.refs`: the references of a process.
* `Counted`: the counters are exact.

## Main results

* `Trans.balance`: a step changes the counters and the references of its process together.
-/

namespace Linux001.Names

open Fs (Errno Result)

variable {n : ℕ} {s s' : State n} {p : Fin n}

/-! ### References -/

/-- The inodes that are still referred to after an `iput`. -/
def After.refs : After → List ℕ
  | .put m _ => [m]
  | _ => []

/-- The inodes that a process refers to by its position, with the directory `d`. -/
def Pc.refs (d : ℕ) : Pc → List ℕ
  | .idle | .iget _ none | .done _ => []
  | .enter | .find _ _ | .findRead _ _ _ | .copied _ | .iget _ (some _) | .newInode => [d]
  | .igetRead m none | .truncate m => [m]
  | .igetRead m (some _) | .cleared m | .add m _ | .addNew m _ _ | .addRead m _ _ | .stored m =>
    [d, m]
  | .put m a | .putWrite m a | .putWrote m a | .putTruncate m a => m :: a.refs

/-- The inodes that a process refers to. -/
def Proc.refs (q : Proc) : List ℕ := q.pc.refs q.dir ++ q.held

/-- `i_count` of an inode, 0 when it is not in core. -/
def State.count (s : State n) (m : ℕ) : ℕ := (s.core m).elim 0 Core.count

/-- The counters are exact; `base` counts the references from outside, such as those to the root
and the working directories. -/
def Counted (base : ℕ → ℕ) (s : State n) : Prop :=
  ∀ m, s.count m = base m + ∑ p, (s.proc p).refs.count m

namespace Counted

variable {base : ℕ → ℕ}

theorem one_le (h : Counted base s) {m : ℕ} (hm : m ∈ (s.proc p).refs) : 1 ≤ s.count m := by
  have hle := (List.count_pos_iff.mpr hm).trans_le (Finset.single_le_sum
    (f := fun p => (s.proc p).refs.count m) (fun _ _ => Nat.zero_le _) (Finset.mem_univ p))
  rw [h m]
  omega

/-- The counters stay exact when they follow the references of the process that takes the step. -/
theorem of_update (h : Counted base s) (hother : ∀ q ≠ p, s'.proc q = s.proc q)
    (hbal : ∀ m, s'.count m + (s.proc p).refs.count m = s.count m + (s'.proc p).refs.count m) :
    Counted base s' := by
  intro m
  have hproc : s'.proc = Function.update s.proc p (s'.proc p) := by
    funext q
    by_cases hq : q = p
    · subst hq
      rw [Function.update_self]
    · rw [Function.update_of_ne hq, hother q hq]
  have hsum := sum_update_add s.proc (fun q => q.refs.count m) p (s'.proc p)
  rw [← hproc] at hsum
  have hm := hbal m
  have hold := h m
  omega

end Counted

theorem Trans.other (h : Trans s p s') {q : Fin n} (hq : q ≠ p) : s'.proc q = s.proc q := by
  cases h with
  | calm h =>
    cases h with
    | drop => rw [State.drop, State.goto_eq]; exact Function.update_of_ne hq ..
    | _ => exact Function.update_of_ne hq ..
  | store hpc hscan => rw [(State.addRead_stored hscan).proc, Function.update_of_ne hq]
  | free => rw [State.goto_eq]; exact Function.update_of_ne hq ..
  | _ => exact Function.update_of_ne hq ..

theorem NotHere.refs (h : NotHere s p) : (s.proc p).pc.refs (s.proc p).dir = [(s.proc p).dir] := by
  rcases h with ⟨hpc, -⟩ | ⟨i, entries, hpc, -⟩ <;> rw [hpc] <;> rfl

theorem PutReady.refs {m : ℕ} {a : After} {c : Core} (h : PutReady s p m a c) :
    (s.proc p).pc.refs (s.proc p).dir = m :: a.refs ∧ ∃ c₀, s.core m = some c₀ ∧
      c₀.count = c.count ∧ c₀.nlinks = c.nlinks ∧ c₀.dirt = c.dirt := by
  rcases h with ⟨hpc, hc, -⟩ | ⟨hpc, c₀, hc, rfl⟩
  · rw [hpc]
    exact ⟨rfl, c, hc, rfl, rfl, rfl⟩
  · rw [hpc]
    exact ⟨rfl, c₀, hc, rfl, rfl, rfl⟩

theorem State.count_update {m x : ℕ} {o : Option Core} :
    (Function.update s.core m o x).elim 0 Core.count =
      if x = m then o.elim 0 Core.count else s.count x := by
  rw [Function.update_apply]
  split_ifs <;> rfl

theorem State.count_eq {m : ℕ} {c : Core} (h : s.core m = some c) : s.count m = c.count := by
  rw [State.count, h]
  rfl

theorem After.refs_pc (a : After) (d : ℕ) : a.pc.refs d = a.refs := by
  cases a <;> rfl

section Balance

variable {pc' : Pc}

/-- The counters and the references at a position `pc'` that follows, for the inode `x`. -/
def Balanced (s s' : State n) (p : Fin n) (l : List ℕ) (x : ℕ) : Prop :=
  s'.count x + ((s.proc p).pc.refs (s.proc p).dir).count x = s.count x + l.count x

theorem Balanced.same {l : List ℕ} (hcore : s'.core = s.core)
    (hl : (s.proc p).pc.refs (s.proc p).dir = l) (x : ℕ) : Balanced s s' p l x := by
  rw [Balanced, hl, State.count, hcore, State.count]

/-- The counter of one inode changes. -/
theorem Balanced.update {l : List ℕ} {m : ℕ} {o : Option Core}
    (hcore : s'.core = Function.update s.core m o)
    (hm : o.elim 0 Core.count + ((s.proc p).pc.refs (s.proc p).dir).count m =
      s.count m + l.count m)
    (hne : ∀ x ≠ m, ((s.proc p).pc.refs (s.proc p).dir).count x = l.count x) (x : ℕ) :
    Balanced s s' p l x := by
  rw [Balanced, State.count, hcore, State.count_update]
  split_ifs with hx
  · rw [hx]
    exact hm
  · rw [hne x hx]

/-- The counter of an inode does not change. -/
theorem Balanced.kept {m : ℕ} {c c' : Core} {l : List ℕ} (hc : s.core m = some c)
    (hcore : s'.core = Function.update s.core m (some c')) (hcount : c'.count = c.count)
    (hl : (s.proc p).pc.refs (s.proc p).dir = l) (x : ℕ) : Balanced s s' p l x := by
  refine .update hcore ?_ (fun _ _ => by rw [hl]) x
  rw [hl, Option.elim_some, hcount, State.count_eq hc]

/-- `iget` counts its reference. -/
theorem Gets.balanced {m : ℕ} {bh : Option (ℕ × ℕ)} {c c' c'' : Core} (hg : Gets s p m bh c c')
    (hcore : s'.core = Function.update s.core m (some c'')) (hcount : c''.count = c'.count)
    {l : List ℕ} (hl : l.Perm (if bh.isSome then [(s.proc p).dir, m] else [m])) (x : ℕ) :
    Balanced s s' p l x := by
  rw [Balanced, hl.count_eq]
  obtain ⟨hc, ⟨hpc, -, rfl⟩ | ⟨hpc, rfl⟩⟩ := hg
  · refine Balanced.update hcore ?_ (fun y hy => ?_) x
    · rw [State.count_eq hc, hpc, Option.elim_some, hcount]
      cases bh <;> simp [Pc.refs, List.count_cons]
      omega
    · rw [hpc]
      cases bh <;> simp [Pc.refs, List.count_cons, Ne.symm hy]
  · refine Balanced.kept hc hcore hcount ?_ x
    rw [hpc]
    cases bh <;> rfl

theorem setPc_refs (s : State n) (p : Fin n) (pc' : Pc) :
    ((s.setPc p pc').proc p).refs = pc'.refs (s.proc p).dir ++ (s.proc p).held := by
  rw [State.setPc_proc_self, Proc.refs]

theorem keep_refs (s : State n) (p : Fin n) (m : ℕ) (pc' : Pc) :
    ((s.keep p m pc').proc p).refs = pc'.refs (s.proc p).dir ++ m :: (s.proc p).held := by
  rw [State.keep_proc_self, Proc.refs]

/-- The references of the process that takes a step and the counters change together. -/
theorem Trans.balance {base : ℕ → ℕ} (h : Trans s p s') (hc : Counted base s)
    (hfresh : ∀ m, s.freshInode = some m → s.core m = none) (x : ℕ) :
    s'.count x + (s.proc p).refs.count x = s.count x + (s'.proc p).refs.count x := by
  have hone : ∀ m ∈ (s.proc p).pc.refs (s.proc p).dir, ∀ c, s.core m = some c → 1 ≤ c.count :=
    fun m hm c hcore => State.count_eq hcore ▸ hc.one_le (List.mem_append_left _ hm)
  -- A step that moves the process and leaves the inodes it keeps.
  have hmove {l : List ℕ} (hl : (s'.proc p).refs = l ++ (s.proc p).held)
      (hbal : Balanced s s' p l x) :
      s'.count x + (s.proc p).refs.count x = s.count x + (s'.proc p).refs.count x := by
    rw [Balanced] at hbal
    rw [hl, Proc.refs, List.count_append, List.count_append]
    omega
  -- A step that returns an inode, which the process keeps.
  have hkeep {m : ℕ} {l : List ℕ} (hl : (s'.proc p).refs = l ++ m :: (s.proc p).held)
      (hbal : Balanced s s' p (m :: l) x) :
      s'.count x + (s.proc p).refs.count x = s.count x + (s'.proc p).refs.count x := by
    rw [Balanced, List.count_cons] at hbal
    rw [hl, Proc.refs, List.count_append, List.count_append, List.count_cons]
    omega
  cases h with
  | calm h =>
    cases h with
    | denied h => exact hmove (setPc_refs ..) (.same (by rfl) (by rw [h.1, Pc.refs]; rfl) x)
    | absent h | create h => exact hmove (setPc_refs ..) (.same (by rfl) h.refs x)
    | itself hpc => exact hkeep (keep_refs ..) (.same (by rfl) (by rw [hpc]; rfl) x)
    | read hpc =>
      refine hmove (setPc_refs ..) (.same (by rfl) ?_ x)
      rcases hpc with ⟨hpc, -⟩ | ⟨hpc, -⟩ <;> rw [hpc, Pc.refs] <;> rfl
    | skip hpc | pass hpc | release hpc | eexist hpc | full hpc =>
      exact hmove (setPc_refs ..) (.same (by rfl) (by rw [hpc, Pc.refs]; rfl) x)
    | @stored m hpc =>
      refine hkeep (keep_refs ..) ?_
      rw [Balanced, hpc]
      simp only [Pc.refs, After.refs, List.count_cons, List.count_nil]
      exact congrArg (s.count x + ·) (by omega)
    | @load m bh hpc hcore =>
      refine hmove (setPc_refs ..) (.update (by rfl) ?_ (fun y hy => ?_) x)
      · rw [hpc, State.count, hcore]
        cases bh <;> simp [Pc.refs, List.count_cons]
      · rw [hpc]
        cases bh <;> simp [Pc.refs, List.count_cons, Ne.symm hy]
    | irregular hg =>
      exact hmove (setPc_refs ..) (hg.balanced (by rfl) rfl (List.Perm.swap ..) x)
    | @walk m c c' hg =>
      refine hmove (l := [m]) ?_ (hg.balanced (by rfl) rfl (List.Perm.refl _) x)
      simp [Proc.refs, Pc.refs]
    | refuse hg | cut hg =>
      exact hmove (setPc_refs ..) (hg.balanced (by rfl) rfl (List.Perm.refl _) x)
    | opened hg | looked hg =>
      exact hkeep (keep_refs ..) (hg.balanced (by rfl) (by rfl) (List.Perm.refl _) x)
    | truncated hpc hcore =>
      exact hkeep (keep_refs ..) (.kept hcore (by rfl) (by rfl) (by rw [hpc]; rfl) x)
    | @drop m a c h =>
      have hl : (s.proc p).pc.refs (s.proc p).dir = m :: a.refs ∧
          ∃ c₀, s.core m = some c₀ ∧ c₀.count = c.count := by
        rcases h with ⟨hpc, hcore, -⟩ | ⟨hready, -⟩
        · exact ⟨by rw [hpc, Pc.refs], c, hcore, rfl⟩
        · obtain ⟨hl, c₀, hc₀, hcount, -⟩ := hready.refs
          exact ⟨hl, c₀, hc₀, hcount⟩
      obtain ⟨hl, c₀, hc₀, hcount⟩ := hl
      have hge := hone m (by rw [hl]; exact List.mem_cons_self) c₀ hc₀
      refine hmove (l := a.refs) ?_ (.update (m := m)
        (o := some { c with count := c.count - 1 }) ?_ ?_ (fun y hy => ?_) x)
      · rw [State.drop, State.goto_eq, setPc_refs, After.refs_pc]
        rfl
      · rw [State.drop, State.goto_eq]
        rfl
      · rw [hl, State.count_eq hc₀]
        simp
        omega
      · rw [hl, List.count_cons, if_neg (by simpa using Ne.symm hy), Nat.add_zero]
    | putWrite h | destroy h =>
      obtain ⟨hl, c₀, hc₀, hcount, -⟩ := h.refs
      exact hmove (setPc_refs ..) (.kept hc₀ (by rfl) (by exact hcount.symm) hl x)
    | putStore hpc hcore =>
      exact hmove (setPc_refs ..) (.kept hcore (by rfl) (by rfl) (by rw [hpc, Pc.refs]; rfl) x)
  | copy hpc | hold hpc | addBlock hpc | alloc hpc | addNext hpc | addNew hpc =>
    exact hmove (setPc_refs ..) (.same (by rfl) (by rw [hpc, Pc.refs]; rfl) x)
  | clear hg => exact hmove (setPc_refs ..) (hg.balanced (by rfl) (by rfl) (List.Perm.refl _) x)
  | unlinked hpc hcore | addFailed hpc hcore =>
    refine hmove (setPc_refs ..) (.update (o := some _) (by rfl) ?_ (fun y _ => ?_) x)
    · rw [hpc, State.count_eq hcore]
      simp only [Option.elim_some, Pc.refs, After.refs, List.count_cons]
      omega
    · rw [hpc]
      simp only [Pc.refs, After.refs, List.count_cons]
      omega
  | @fresh m hpc hf =>
    refine hmove (setPc_refs ..) (.update (by rfl) ?_ (fun y hy => ?_) x)
    · rw [hpc, State.count, hfresh m hf]
      simp [Pc.refs, List.count_cons]
    · rw [hpc]
      simp [Pc.refs, List.count_cons, Ne.symm hy]
  | @store m i z k hpc hscan =>
    have hst := State.addRead_stored (m := m) hscan
    refine hmove (l := [(s.proc p).dir, m]) ?_ ?_
    · rw [hst.proc, Function.update_self]
      rfl
    · have hl : (s.proc p).pc.refs (s.proc p).dir = [(s.proc p).dir, m] := by rw [hpc, Pc.refs]
      by_cases hsize : s.size (s.proc p).dir ≤ i + k
      · refine .update (hst.core.trans (if_pos hsize)) ?_ (fun _ _ => by rw [hl]) x
        rw [hl, State.count]
        cases s.core (s.proc p).dir <;> rfl
      · exact .same (hst.core.trans (if_neg hsize)) hl x
  | @free m a c hpc hcore hcount =>
    have hl : (s.proc p).pc.refs (s.proc p).dir = m :: a.refs := by rw [hpc, Pc.refs]
    have hge := hone m (by rw [hl]; exact List.mem_cons_self) c hcore
    refine hmove (l := a.refs) ?_ (.update (m := m) (o := none) ?_ ?_ (fun y hy => ?_) x)
    · rw [State.goto_eq, setPc_refs, After.refs_pc]
      rfl
    · rw [State.goto_eq]
      rfl
    · rw [hl, State.count_eq hcore]
      simp
      omega
    · rw [hl, List.count_cons, if_neg (by simpa using Ne.symm hy), Nat.add_zero]

end Balance

theorem State.refs_of_outside (h : s.outside p = true) :
    (s.proc p).refs = (s.proc p).held := by
  rw [Proc.refs]
  rcases outside_pc h with hpc | ⟨r, hpc⟩ <;> rw [hpc] <;> rfl

/-- The counters stay exact. -/
theorem Counted.next {base : ℕ → ℕ} {e : Event n} (h : Counted base s)
    (hfresh : ∀ m, s.freshInode = some m → s.core m = none) (hnext : s.next e = some s') :
    Counted base s' := by
  cases e with
  | run p =>
    have ht := State.run_trans hnext
    exact h.of_update (fun q hq => ht.other hq) (ht.balance h hfresh)
  | call p goal m names =>
    obtain ⟨hout, -, c, hc, -, rfl⟩ := State.of_call hnext
    refine h.of_update (p := p) (fun q hq => Function.update_of_ne hq ..) fun x => ?_
    rw [State.refs_of_outside hout, State.count]
    simp only [Function.update_self, State.setCore_core, State.count_update, Proc.refs, Pc.refs,
      Option.elim_some, List.cons_append, List.nil_append, List.count_cons]
    split_ifs with hx hmx hmx
    · rw [hx, State.count_eq hc]
      omega
    · exact absurd (beq_iff_eq.mpr hx.symm) hmx
    · exact absurd (beq_iff_eq.mp hmx).symm hx
    · omega
  | close p m =>
    obtain ⟨hout, hm, rfl⟩ := State.of_close hnext
    refine h.of_update (p := p) (fun q hq => Function.update_of_ne hq ..) fun x => ?_
    rw [State.refs_of_outside hout]
    simp only [Function.update_self, Proc.refs, Pc.refs, After.refs, List.cons_append,
      List.nil_append]
    exact congrArg (s.count x + ·) ((List.perm_cons_erase hm).count_eq x)
  | flush m =>
    obtain ⟨c, hc, -, rfl⟩ := State.of_flush hnext
    intro x
    refine Eq.trans ?_ (h x)
    rw [State.count]
    simp only [State.setCore_core, State.count_update, Option.elim_some]
    split_ifs with hx
    · rw [hx, State.count_eq hc]
    · rfl
  | evict m =>
    obtain ⟨c, hc, -, hcount, rfl⟩ := State.of_evict hnext
    intro x
    rw [State.setCore_proc, ← h x, State.count, State.setCore_core, State.count_update]
    split_ifs with hx
    · rw [hx, State.count_eq hc, hcount]
      rfl
    · rfl

end Linux001.Names
