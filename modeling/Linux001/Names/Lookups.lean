import Linux001.Names.Quiet

/-!
# Lookups and deleted inodes

A lookup copies the number of an inode out of a directory entry, releases the block and the
directory, and gets the inode then. While it sleeps in between, the last link to the inode may be
removed, and its number is free and may be used again.

## Main definitions

* `Pc.wants`: the number that a lookup has copied.
* `Allocated`: the invariant. What an entry names, what a lookup wants and what is in core is
  allocated.
* `Careful`: no number is freed while an entry names it or a lookup wants it.

## Main results

* `lookup_allocated`: an inode that a lookup returns is allocated, and a number that `new_inode`
  hands out is not in core.
* `lookup_freed`: a lookup returns an inode that is not allocated.
-/

namespace Linux001.Names

open Fs (Errno Result)

variable {n : ℕ} {s s' : State n} {p : Fin n}

/-- The number that will be looked up after an `iput`. -/
def After.wants : After → Option ℕ
  | .iget m => some m
  | _ => none

/-- The number of an inode that has been read from an entry, before `iget` has found the inode. -/
def Pc.wants : Pc → Option ℕ
  | .copied m | .iget m _ => some m
  | .put _ a | .putWrite _ a | .putWrote _ a | .putTruncate _ a => a.wants
  | _ => none

/-- A block of a directory, or one that `find_entry` has found in a directory. -/
def State.DirBlock (s : State n) (z : ℕ) : Prop :=
  (∃ d j, s.isDir d = true ∧ s.zone d j = z ∧ z ≠ 0) ∨
    ∃ q i entries, (s.proc q).pc = .findRead i entries z

/-- What an entry names, what a lookup wants and what is in core is allocated. -/
structure Allocated (s : State n) : Prop where
  core : ∀ m, s.core m ≠ none → s.imap m = true
  de : ∀ z k, s.DirBlock z → (s.de z k).inode ≠ 0 → s.imap (s.de z k).inode = true
  wants : ∀ q m, (s.proc q).pc.wants = some m → s.imap m = true
  dir : ∀ q, (s.proc q).pc.inDir = true → s.isDir (s.proc q).dir = true

/-- The number that `iput` will free. -/
def Pc.frees : Pc → Option ℕ
  | .putTruncate m _ => some m
  | _ => none

/-- `free_inode` frees no number that an entry names or a lookup wants. -/
def Careful (s : State n) (e : Event n) : Prop :=
  ∀ p m, e = .run p → (s.proc p).pc.frees = some m →
    (∀ q, (s.proc q).pc.wants ≠ some m) ∧
      ∀ z k, s.DirBlock z → (s.de z k).inode ≠ 0 → (s.de z k).inode ≠ m

/-! ### Steps that change no directory -/

theorem NotHere.isDir (h : NotHere s p) (hs : Allocated s) : s.isDir (s.proc p).dir = true := by
  rcases h with ⟨-, hdir, -⟩ | ⟨i, entries, hpc, -⟩
  · exact hdir
  · exact hs.dir p (by rw [hpc]; rfl)

theorem PutReady.wants {m : ℕ} {a : After} {c : Core} (h : PutReady s p m a c) :
    (s.proc p).pc.wants = a.wants := by
  rcases h with ⟨hpc, -⟩ | ⟨hpc, -⟩ <;> rw [hpc] <;> rfl

theorem After.wants_pc (a : After) : a.pc.wants = a.wants := by
  cases a <;> rfl

theorem After.inDir_pc (a : After) : a.pc.inDir = false := by
  cases a <;> rfl

/-- No step of `Calm` copies a number. -/
theorem Calm.wants (h : Calm s p s') {m : ℕ} (hm : (s'.proc p).pc.wants = some m) :
    (s.proc p).pc.wants = some m := by
  cases h with
  | release hpc =>
    rw [hpc]
    simpa [Pc.wants, After.wants] using hm
  | @drop m' a c h =>
    rw [State.drop, State.goto_eq, State.setPc_proc_self, a.wants_pc] at hm
    rcases h with ⟨hpc, -⟩ | ⟨hready, -⟩
    · rw [hpc]
      exact hm
    · rw [hready.wants, hm]
  | putWrite h | destroy h =>
    rw [State.setPc_proc_self] at hm
    rw [h.wants, ← hm]
    rfl
  | putStore hpc =>
    rw [State.setPc_proc_self] at hm
    rw [hpc, ← hm]
    rfl
  | _ => simp [Pc.wants, After.wants, State.putDir] at hm

theorem ne_none_of_update {m x : ℕ} {c : Core} {o : Option Core} (hc : s.core m = some c)
    (h : Function.update s.core m o x ≠ none) : s.core x ≠ none := by
  rw [Function.update_apply] at h
  split_ifs at h with hx
  · rw [hx, hc]
    exact (nomatch ·)
  · exact h

/-- An inode comes into core because a lookup wants it, or because it is new. -/
theorem Trans.core_wants (h : Trans s p s') {m : ℕ} (hm : s'.core m ≠ none) :
    s.core m ≠ none ∨ (s.proc p).pc.wants = some m ∨ s'.imap m = true := by
  cases h with
  | calm h =>
    cases h with
    | @load m' bh hpc hnone =>
      by_cases hmm : m = m'
      · exact .inr (.inl (by rw [hpc, hmm]; rfl))
      · exact .inl (by rwa [State.setPc_core, State.setCore_core, Function.update_of_ne hmm] at hm)
    | irregular hg | walk hg | refuse hg | cut hg | opened hg | looked hg =>
      exact .inl (ne_none_of_update hg.kept.1 hm)
    | truncated hpc hcore | putStore hpc hcore => exact .inl (ne_none_of_update hcore hm)
    | drop h =>
      rw [State.drop, State.goto_eq] at hm
      rcases h with ⟨-, hcore, -⟩ | ⟨hready, -⟩
      · exact .inl (ne_none_of_update hcore hm)
      · obtain ⟨-, c₀, hc₀, -⟩ := hready.refs
        exact .inl (ne_none_of_update hc₀ hm)
    | putWrite h | destroy h =>
      obtain ⟨-, c₀, hc₀, -⟩ := h.refs
      exact .inl (ne_none_of_update hc₀ hm)
    | _ => exact .inl hm
  | clear hg => exact .inl (ne_none_of_update hg.kept.1 hm)
  | unlinked hpc hcore | addFailed hpc hcore => exact .inl (ne_none_of_update hcore hm)
  | @fresh m' hpc hfresh =>
    by_cases hmm : m = m'
    · exact .inr (.inr (by simp [hmm]))
    · exact .inl (by simpa [Function.update_of_ne hmm] using hm)
  | store hpc hscan =>
    rw [(State.addRead_stored hscan).core] at hm
    split_ifs at hm with hsize
    · rw [Function.update_apply] at hm
      split_ifs at hm with hx
      · exact .inl fun hnone => hm (by rw [← hx, hnone]; rfl)
      · exact .inl hm
    · exact .inl hm
  | free hpc hcore =>
    rw [State.goto_eq] at hm
    exact .inl (ne_none_of_update hcore hm)
  | _ => exact .inl hm

/-- A step of `Calm` stays in its directory. -/
theorem Calm.inDir (h : Calm s p s') (hs : Allocated s) (hdir : (s'.proc p).pc.inDir = true) :
    s.isDir (s'.proc p).dir = true ∧
      ∀ i entries z, (s'.proc p).pc = .findRead i entries z → s.DirBlock z := by
  cases h with
  | create h =>
    rw [State.setPc_proc_self]
    exact ⟨h.isDir hs, fun _ _ _ => (nomatch ·)⟩
  | @read i entries z hpc hz hne =>
    have hd : s.isDir (s.proc p).dir = true := by
      rcases hpc with ⟨-, hd, -⟩ | ⟨hpc, -⟩
      · exact hd
      · exact hs.dir p (by rw [hpc]; rfl)
    rw [State.setPc_proc_self]
    refine ⟨hd, fun _ _ _ h => ?_⟩
    obtain ⟨-, -, rfl⟩ := Pc.findRead.inj h
    exact .inl ⟨_, _, hd, hz, hne⟩
  | skip hpc | pass hpc =>
    rw [State.setPc_proc_self]
    exact ⟨hs.dir p (by rw [hpc]; rfl), fun _ _ _ => (nomatch ·)⟩
  | drop => simp [State.drop, State.goto_eq, After.inDir_pc] at hdir
  | _ => simp [Pc.inDir, State.putDir] at hdir

/-! ### The invariant -/

theorem State.DirBlock.of_step {z : ℕ} (h : s'.DirBlock z) (hother : ∀ q ≠ p, s'.proc q = s.proc q)
    (hzone : ∀ d j, s'.isDir d = true → s'.zone d j = z → z ≠ 0 → s.DirBlock z)
    (hpc : ∀ i entries, (s'.proc p).pc = .findRead i entries z → s.DirBlock z) : s.DirBlock z := by
  rcases h with ⟨d, j, hdir, hz, hne⟩ | ⟨q, i, entries, hq⟩
  · exact hzone d j hdir hz hne
  · by_cases hqp : q = p
    · exact hpc i entries (hqp ▸ hq)
    · exact .inr ⟨q, i, entries, by rw [← hother q hqp, hq]⟩

theorem State.imap_of_freshInode {m : ℕ} (h : s.freshInode = some m) : s.imap m = false := by
  simpa using List.find?_some h

theorem Pc.mem_refs_of_inDir {pc : Pc} {d : ℕ} (h : pc.inDir = true) : d ∈ pc.refs d := by
  cases pc <;> first | exact List.mem_cons_self | cases h

theorem State.inode_of_scan {i entries z k : ℕ} (h : s.scan p i entries z = some k) :
    (s.de z k).inode ≠ 0 := by
  have hk : Matches ((s.name p).take 14) (s.de z k) := by simpa using List.find?_some h
  exact hk.1

namespace Allocated

variable {base : ℕ → ℕ}

theorem core_of_fresh (h : Allocated s) {m : ℕ} (hm : s.freshInode = some m) : s.core m = none := by
  by_contra hcore
  have himap := h.core m hcore
  rw [State.imap_of_freshInode hm] at himap
  cases himap

/-- An inode that a process refers to is allocated. -/
theorem of_refs (h : Allocated s) (hc : Counted base s) {m : ℕ} (hm : m ∈ (s.proc p).refs) :
    s.imap m = true := by
  refine h.core m fun hnone => ?_
  have hone := hc.one_le hm
  rw [State.count, hnone, Option.elim_none] at hone
  omega

/-- A step that frees nothing. -/
theorem grow (h : Allocated s) (ht : Trans s p s')
    (himap : ∀ m, s.imap m = true → s'.imap m = true)
    (hde : ∀ z k, s'.DirBlock z → (s'.de z k).inode ≠ 0 → s'.imap (s'.de z k).inode = true)
    (hwants : ∀ m, (s'.proc p).pc.wants = some m → s'.imap m = true)
    (hisDir : ∀ q ≠ p, (s.proc q).pc.inDir = true → s'.isDir (s.proc q).dir = true)
    (hdir : (s'.proc p).pc.inDir = true → s'.isDir (s'.proc p).dir = true) : Allocated s' where
  core m hm := by
    rcases ht.core_wants hm with hm | hm | hm
    · exact himap m (h.core m hm)
    · exact himap m (h.wants p m hm)
    · exact hm
  de := hde
  wants q m hm := by
    by_cases hq : q = p
    · exact hwants m (hq ▸ hm)
    · exact himap m (h.wants q m (by rwa [ht.other hq] at hm))
  dir q hin := by
    by_cases hq : q = p
    · rw [hq] at hin ⊢
      exact hdir hin
    · rw [ht.other hq] at hin ⊢
      exact hisDir q hq hin

/-- A step that changes no bitmap, no type and no block. -/
theorem stay (h : Allocated s) (ht : Trans s p s') (himap : s'.imap = s.imap)
    (hisDir : s'.isDir = s.isDir) (hzone : s'.zone = s.zone)
    (hde : ∀ z k, s.DirBlock z → (s'.de z k).inode ≠ 0 → s.imap (s'.de z k).inode = true)
    (hwants : ∀ m, (s'.proc p).pc.wants = some m → s.imap m = true)
    (hdir : (s'.proc p).pc.inDir = true → s.isDir (s'.proc p).dir = true ∧
      ∀ i entries z, (s'.proc p).pc = .findRead i entries z → s.DirBlock z) : Allocated s' := by
  refine h.grow ht (fun m hm => himap ▸ hm) (fun z k hz hne => ?_) (fun m hm => ?_)
    (fun q _ hin => hisDir ▸ h.dir q hin) (fun hin => hisDir ▸ (hdir hin).1)
  · rw [himap]
    refine hde z k (hz.of_step (fun q hq => ht.other hq) (fun d j hd hdz hne => ?_) ?_) hne
    · rw [hisDir] at hd
      rw [hzone] at hdz
      exact .inl ⟨d, j, hd, hdz, hne⟩
    · intro i entries hpc
      exact (hdir (by rw [hpc]; rfl)).2 i entries z hpc
  · rw [himap]
    exact hwants m hm

/-- A step of a process keeps the invariant if it frees no number that is named or wanted. -/
theorem run (h : Allocated s) (hc : Counted base s) (ht : Trans s p s')
    (hcareful : Careful s (.run p)) : Allocated s' := by
  cases ht with
  | calm hcalm =>
    have hq := hcalm.quiet.dirs
    exact h.stay (.calm hcalm) hq.imap hq.isDir hq.zone
      (fun z k hz hne => by rw [hq.de] at hne ⊢; exact h.de z k hz hne)
      (fun m hm => h.wants p m (hcalm.wants hm)) (fun hin => hcalm.inDir h hin)
  | @copy i entries z k hpc hscan hgoal =>
    refine h.stay (.copy hpc hscan hgoal) rfl rfl rfl h.de (fun m hm => ?_) (by simp [Pc.inDir])
    rw [State.setPc_proc_self] at hm
    obtain rfl := Option.some.inj hm
    exact h.de z k (.inr ⟨p, i, entries, hpc⟩) (State.inode_of_scan hscan)
  | @hold i entries z k hpc hscan hlast hgoal =>
    refine h.stay (.hold hpc hscan hlast hgoal) rfl rfl rfl h.de (fun m hm => ?_)
      (by simp [Pc.inDir])
    rw [State.setPc_proc_self] at hm
    obtain rfl := Option.some.inj hm
    exact h.de z k (.inr ⟨p, i, entries, hpc⟩) (State.inode_of_scan hscan)
  | @clear m z k c c' hg hdir =>
    refine h.stay (.clear hg hdir) rfl rfl rfl (fun x y hx hne => ?_) (by simp [Pc.wants])
      (by simp [Pc.inDir])
    simp only [State.setPc_de, State.setDe_de, State.setCore_de, State.update_entry] at hne ⊢
    split_ifs at hne ⊢ with hslot
    · exact absurd rfl hne
    · exact h.de x y hx hne
  | unlinked hpc hcore =>
    exact h.stay (.unlinked hpc hcore) rfl rfl rfl h.de (by simp [Pc.wants, After.wants])
      (by simp [Pc.inDir])
  | @fresh m hpc hfresh =>
    have hmap : s.imap m = false := State.imap_of_freshInode hfresh
    have hgrow : ∀ x, s.imap x = true → Function.update s.imap m true x = true := by
      intro x hx
      rw [Function.update_apply, hx, ite_self]
    have hisDir : ∀ d, s.imap d = true → s.isDir d = true →
        Function.update s.isDir m false d = true := by
      intro d hd hdir
      rwa [Function.update_of_ne]
      rintro rfl
      rw [hmap] at hd
      cases hd
    have hdir : ∀ q, (s.proc q).pc.inDir = true → Function.update s.isDir m false
        (s.proc q).dir = true :=
      fun q hin => hisDir _ (h.of_refs hc (List.mem_append_left _ (Pc.mem_refs_of_inDir hin)))
        (h.dir q hin)
    refine h.grow (.fresh hpc hfresh) hgrow (fun z k hz hne => hgrow _ (h.de z k ?_ hne))
      (by simp [Pc.wants]) (fun q _ hin => hdir q hin) (fun _ => ?_)
    · refine hz.of_step (fun q hq => Function.update_of_ne hq ..) (fun d j hd hdz hne => ?_)
        (by simp)
      refine .inl ⟨d, j, ?_, hdz, hne⟩
      simp only [State.setPc_isDir, Function.update_apply] at hd
      split_ifs at hd
      exact hd
    · rw [State.setPc_proc_self]
      exact hdir p (by rw [hpc]; rfl)
  | addBlock hpc hz hne =>
    refine h.stay (.addBlock hpc hz hne) rfl rfl rfl h.de (by simp [Pc.wants]) fun _ => ?_
    rw [State.setPc_proc_self]
    exact ⟨h.dir p (by rw [hpc]; rfl), fun _ _ _ => (nomatch ·)⟩
  | addFailed hpc hcore =>
    exact h.stay (.addFailed hpc hcore) rfl rfl rfl h.de (by simp [Pc.wants, After.wants])
      (by simp [Pc.inDir])
  | alloc hpc hz hfresh =>
    refine h.stay (.alloc hpc hz hfresh) rfl rfl rfl h.de (by simp [Pc.wants]) fun _ => ?_
    rw [State.setPc_proc_self]
    exact ⟨h.dir p (by rw [hpc]; rfl), fun _ _ _ => (nomatch ·)⟩
  | @addNew m i z hpc =>
    refine h.grow (.addNew hpc) (fun _ hm => hm) (fun x k hx hne => ?_)
      (by simp [State.addNew, Pc.wants])
      (fun q _ hin => h.dir q hin) (fun _ => ?_)
    · have hxz : x ≠ z := by
        rintro rfl
        exact hne (by simp [State.addNew])
      have hde : (s.addNew p m i z).de x k = s.de x k :=
        congrFun (Function.update_of_ne hxz _ s.de) k
      rw [hde] at hne ⊢
      refine h.de x k (hx.of_step (fun q hq => Function.update_of_ne hq ..)
        (fun d j hd hdz hx0 => .inl ⟨d, j, hd, ?_, hx0⟩) (by simp [State.addNew])) hne
      simp only [State.addNew, State.setPc_zone, Function.update_apply] at hdz
      split_ifs at hdz with hd'
      · rw [Function.update_apply] at hdz
        split_ifs at hdz
        · exact absurd hdz.symm hxz
        · rw [hd', hdz]
      · exact hdz
    · simp only [State.addNew, State.setPc_proc_self, State.setPc_isDir]
      exact h.dir p (by rw [hpc]; rfl)
  | addNext hpc hscan =>
    refine h.stay (.addNext hpc hscan) rfl rfl rfl h.de (by simp [Pc.wants]) fun _ => ?_
    rw [State.setPc_proc_self]
    exact ⟨h.dir p (by rw [hpc]; rfl), fun _ _ _ => (nomatch ·)⟩
  | @store m i z k hpc hscan =>
    have hst := State.addRead_stored (m := m) hscan
    have hproc : (s.addRead p m i z).proc p = { s.proc p with pc := .stored m } := by
      rw [hst.proc, Function.update_self]
    refine h.stay (.store hpc hscan) hst.imap hst.isDir hst.zone (fun x y hx hne => ?_)
      (by simp [hproc, Pc.wants]) (by simp [hproc, Pc.inDir])
    rw [hst.de, State.update_entry] at hne ⊢
    split_ifs at hne ⊢ with hslot
    · exact h.of_refs hc (List.mem_append_left _ (by rw [hpc]; simp [Pc.refs]))
    · exact h.de x y hx hne
  | @free m a c hpc hcore hcount hlinks himap =>
    obtain ⟨hwants, hnamed⟩ := hcareful p m rfl (by rw [hpc]; rfl)
    have hother : ∀ q ≠ p, (State.goto { s.setCore m none with
        imap := Function.update s.imap m false } p a).proc q = s.proc q := fun q hq => by
      rw [State.goto_eq]
      exact Function.update_of_ne hq ..
    rw [State.goto_eq] at hother ⊢
    have hself : ∀ m', a.pc.wants = some m' → (s.proc p).pc.wants = some m' := fun m' hm' => by
      rw [hpc, ← hm', a.wants_pc]
      rfl
    have hkeep : ∀ x, x ≠ m → s.imap x = true → Function.update s.imap m false x = true :=
      fun x hx hm => by rwa [Function.update_of_ne hx]
    refine ⟨fun x hx => ?_, fun z k hz hne => ?_, fun q x hx => ?_, fun q hin => ?_⟩
    · have hxm : x ≠ m := by
        rintro rfl
        exact hx (Function.update_self ..)
      refine hkeep x hxm (h.core x ?_)
      rwa [State.setPc_core, State.setCore_core, Function.update_of_ne hxm] at hx
    · have hz' : s.DirBlock z := hz.of_step hother (fun d j hd hdz hne => .inl ⟨d, j, hd, hdz, hne⟩)
        fun i entries hpc' => by
          rw [State.setPc_proc_self] at hpc'
          cases a <;> cases hpc'
      exact hkeep _ (hnamed z k hz' hne) (h.de z k hz' hne)
    · have hx' : (s.proc q).pc.wants = some x := by
        by_cases hq : q = p
        · subst hq
          rw [State.setPc_proc_self] at hx
          exact hself x hx
        · rwa [hother q hq] at hx
      exact hkeep x (fun hxm => hwants q (hxm ▸ hx')) (h.wants q x hx')
    · by_cases hq : q = p
      · subst hq
        rw [State.setPc_proc_self] at hin
        exact absurd hin (by simp [a.inDir_pc])
      · rw [hother q hq] at hin ⊢
        exact h.dir q hin

/-- An event outside of the calls. -/
theorem of_outside (h : Allocated s) (himap : s'.imap = s.imap) (hisDir : s'.isDir = s.isDir)
    (hzone : s'.zone = s.zone) (hde : s'.de = s.de)
    (hcore : ∀ m, s'.core m ≠ none → s.core m ≠ none)
    (hproc : ∀ q, s'.proc q = s.proc q ∨
      (s'.proc q).pc.wants = none ∧ (s'.proc q).pc.inDir = false) : Allocated s' where
  core m hm := himap ▸ h.core m (hcore m hm)
  de z k hz hne := by
    rw [hde] at hne ⊢
    rw [himap]
    refine h.de z k ?_ hne
    rcases hz with ⟨d, j, hd, hdz, hz0⟩ | ⟨q, i, entries, hq⟩
    · rw [hisDir] at hd
      rw [hzone] at hdz
      exact .inl ⟨d, j, hd, hdz, hz0⟩
    · rcases hproc q with hsame | ⟨-, hin⟩
      · exact .inr ⟨q, i, entries, hsame ▸ hq⟩
      · rw [hq] at hin
        cases hin
  wants q m hm := by
    rcases hproc q with hsame | ⟨hnone, -⟩
    · rw [himap]
      exact h.wants q m (hsame ▸ hm)
    · rw [hnone] at hm
      cases hm
  dir q hin := by
    rcases hproc q with hsame | ⟨-, hfalse⟩
    · rw [hsame] at hin ⊢
      rw [hisDir]
      exact h.dir q hin
    · rw [hfalse] at hin
      cases hin

/-- Every event keeps the invariant if it frees no number that is named or wanted. -/
theorem next (h : Allocated s) (hc : Counted base s) {e : Event n} (hnext : s.next e = some s')
    (hcareful : Careful s e) : Allocated s' := by
  cases e with
  | run p => exact h.run hc (State.run_trans hnext) hcareful
  | call p goal m names =>
    obtain ⟨-, -, c, hcore, -, rfl⟩ := State.of_call hnext
    refine h.of_outside rfl rfl rfl rfl (fun x hx => ne_none_of_update hcore hx) fun q => ?_
    by_cases hq : q = p
    · subst hq
      simp only [Function.update_self]
      exact .inr ⟨rfl, rfl⟩
    · exact .inl (Function.update_of_ne hq ..)
  | close p m =>
    obtain ⟨-, -, rfl⟩ := State.of_close hnext
    refine h.of_outside rfl rfl rfl rfl (fun _ hx => hx) fun q => ?_
    by_cases hq : q = p
    · subst hq
      simp only [Function.update_self]
      exact .inr ⟨rfl, rfl⟩
    · exact .inl (Function.update_of_ne hq ..)
  | flush m =>
    obtain ⟨c, hcore, -, rfl⟩ := State.of_flush hnext
    exact h.of_outside rfl rfl rfl rfl (fun x hx => ne_none_of_update hcore hx) fun _ => .inl rfl
  | evict m =>
    obtain ⟨c, hcore, -, -, rfl⟩ := State.of_evict hnext
    exact h.of_outside rfl rfl rfl rfl (fun x hx => ne_none_of_update hcore hx) fun _ => .inl rfl

end Allocated

/-! ### Runs -/

variable {base : ℕ → ℕ} {s₀ : State n} {es : List (Event n)}

/-- In every run from a consistent state in which no number is freed while an entry names it or a
lookup wants it, the inodes that calls have returned are allocated, and `new_inode` hands out no
number of an inode in core. -/
theorem lookup_allocated (h₀ : Allocated s₀) (hcount : Counted base s₀)
    (hrun : Runs (fun s e s' => s.next e = some s' ∧ Careful s e) s₀ es s) :
    (∀ p, ∀ m ∈ (s.proc p).held, s.imap m = true) ∧
      ∀ p m, (s.proc p).pc = .newInode → s.freshInode = some m → s.core m = none := by
  obtain ⟨h, hc⟩ : Allocated s ∧ Counted base s :=
    hrun.invariant (I := fun s => Allocated s ∧ Counted base s)
      (fun s e s' ⟨h, hc⟩ ⟨hnext, hcareful⟩ =>
        ⟨h.next hc hnext hcareful, hc.next (fun m hm => h.core_of_fresh hm) hnext⟩) ⟨h₀, hcount⟩
  exact ⟨fun p m hm => h.of_refs hc (List.mem_append_right _ hm),
    fun p m _ hm => h.core_of_fresh hm⟩

theorem allocated_device (files : List (ℕ × Name)) : Allocated (State.device n files) where
  core m hm := by
    simp only [State.device, ne_eq, ite_eq_right_iff, reduceCtorEq, imp_false, not_not] at hm
    simp [State.device, hm]
  de z k _ hne := by
    simp only [State.device] at hne ⊢
    split_ifs at hne ⊢
    · cases hk : files[k]? with
      | none => simp [hk] at hne
      | some f =>
        have hmem : f.1 ∈ files.map Prod.fst := List.mem_map_of_mem (List.mem_of_getElem? hk)
        simp only [Option.elim_some, Bool.or_eq_true, List.contains_iff_mem]
        exact .inr hmem
    · exact absurd rfl hne
  wants q m hm := nomatch hm
  dir q hq := nomatch hq

theorem counted_device (files : List (ℕ × Name)) :
    Counted (fun m => if m = 1 then 1 else 0) (State.device n files) := by
  intro m
  simp only [State.count, State.device, Proc.refs, Pc.refs, List.append_nil, List.count_nil,
    Finset.sum_const_zero, Nat.add_zero]
  split_ifs <;> rfl

/-- The path name "a". -/
def pathA : List Name := [[97]]

/-- The first process looks up "a", and sleeps when it has found the entry and released the
directory; the second one removes the file. -/
def removedFile : List (Event 2) :=
  [.call 0 .namei 1 pathA, .run 0, .run 0, .run 0, .run 0,
    .call 1 .unlink 1 pathA, .run 1, .run 1, .run 1, .run 1, .run 1, .run 1, .run 1, .run 1]

/-- The second process goes on and creates "b". -/
def usedAgain : List (Event 2) :=
  [.run 0, .run 0, .call 1 (.openNamei true false false false) 1 [[98]], .run 1, .run 1, .run 1]

/-- The first process looks up "a". -/
def lookedUp : List (Event 2) :=
  [.call 0 .namei 1 pathA, .run 0, .run 0, .run 0, .run 0, .run 0, .run 0]

theorem lookup_allocated_namei : ∃ es s,
    Runs (fun s e s' => s.next e = some s' ∧ Careful s e) (State.device 2 [(2, [97])]) es s ∧
      (s.proc 0).held = [2] ∧ s.imap 2 = true := by
  have hexec : (exec (fun s e => (State.next s e).filter fun _ => ∀ p, (s.proc p).pc.frees = none)
      (State.device 2 [(2, [97])]) lookedUp).map (fun s => (s.proc 0).held) = some [2] := by
    decide
  obtain ⟨s, hs, hheld⟩ := Option.map_eq_some_iff.mp hexec
  have hrun : Runs (fun s e s' => State.next s e = some s' ∧ Careful s e) _ _ s :=
    (runs_of_exec_guarded hs).mono fun s e s' ⟨hnext, hfrees⟩ =>
      ⟨hnext, fun p m _ hm => nomatch (hfrees p).symm.trans hm⟩
  exact ⟨_, s, hrun, hheld, (lookup_allocated (allocated_device _) (counted_device _) hrun).1 0 2
    (by rw [hheld]; exact List.mem_singleton_self 2)⟩

/-- A lookup returns the inode of a file that has been removed since it read the entry. The number
is free, and `new_inode` hands it out. -/
theorem lookup_freed : ∃ es s,
    Runs (fun s e s' => State.next s e = some s') (State.device 2 [(2, [97])]) es s ∧
      (2 ∈ (s.proc 0).held ∧ s.imap 2 = false) ∧
        (s.proc 1).pc = .newInode ∧ s.freshInode = some 2 ∧ s.core 2 ≠ none := by
  have hexec : ∃ s, exec State.next (State.device 2 [(2, [97])])
      (removedFile ++ usedAgain) = some s ∧
      (2 ∈ (s.proc 0).held ∧ s.imap 2 = false) ∧ (s.proc 1).pc = .newInode ∧
        s.freshInode = some 2 ∧ s.core 2 ≠ none :=
    ⟨_, rfl, by decide, rfl, by decide, by decide⟩
  obtain ⟨s, hs, hbad⟩ := hexec
  exact ⟨_, s, runs_of_exec hs, hbad⟩

end Linux001.Names
