import Linux001.Names.Paths

/-!
# Concurrent unlinks of one entry

Several processes call `sys_unlink` for the same entry of a directory, which names a file with
further links. `sys_unlink` finds the entry, sleeps in `iget` with a pointer to it, and clears it
without looking at it again. As long as no `find_entry` finds the entry while another process stands
between its `find_entry` and the clearing, one call removes the entry and the link, and the others
fail.

## Main definitions

* `Leads`: the walk of a path.
* `SharedEntry`: the calls are for one entry, which names a file with further links.
* `Alone`: no two unlinks have found the same entry.

## Main results

* `unlinked_once`: exactly one call succeeds, and the link count drops by one.
* `unlinked_twice`: two calls succeed, and a file with a name is freed.
-/

namespace Linux001.Names

open Fs (Errno Result)

variable {n : ℕ} {s₀ s s' : State n} {p : Fin n} {D e : ℕ} {nm : Name}

/-- The first entry that a name matches. -/
def State.FirstAt (s : State n) (d : ℕ) (name : Name) (i : ℕ) : Prop :=
  s.MatchAt d name i ∧ ∀ j < i, ¬ s.MatchAt d name j

theorem State.FirstAt.unique {d i j : ℕ} {name : Name} (hi : s.FirstAt d name i)
    (hj : s.FirstAt d name j) : i = j := by
  rcases Nat.lt_trichotomy i j with h | h | h
  · exact absurd hi.1 (hj.2 i h)
  · exact h
  · exact absurd hj.1 (hi.2 j h)

/-- The walk of a path from a directory ends in the directory `D` with the last name `nm`, and all
processes may search the directories on the way. -/
inductive Leads (s : State n) (D : ℕ) (nm : Name) : ℕ → List Name → Prop
  | last (hdir : s.isDir D = true) (hmay : ∀ p, s.permission p D .exec = true)
      (hname : nm.take 14 ≠ []) (hzone : s.zone D 0 ≠ 0) : Leads s D nm D [nm]
  | walk {d i : ℕ} {a b : Name} {names : List Name} (hdir : s.isDir d = true)
      (hmay : ∀ p, s.permission p d .exec = true) (hname : a.take 14 ≠ []) (hzone : s.zone d 0 ≠ 0)
      (hfirst : s.FirstAt d a i) (h : Leads s D nm (s.entry d i).inode (b :: names)) :
      Leads s D nm d (a :: b :: names)

/-- All processes have called `sys_unlink` with paths to the entry `e` of the directory `D`. It is
the only one with its name, and it names a file that has other links. -/
structure SharedEntry (s : State n) (D e : ℕ) (nm : Name) : Prop where
  proc : ∀ p, (s.proc p).goal = .unlink ∧ (s.proc p).pc = .enter ∧
    Leads s D nm (s.proc p).dir (s.proc p).names
  write : ∀ p, s.permission p D .write = true
  first : s.MatchAt D nm e
  unique : ∀ i, s.MatchAt D nm i → i = e
  regular : s.isDir (s.entry D e).inode = false
  links : 2 ≤ s.nlinks (s.entry D e).inode ∧ s.nlinks (s.entry D e).inode < 256
  coherent : Coherent s

/-- `find_entry` of `sys_unlink` finds no entry that another unlink has found and not yet
cleared. -/
def Alone (s : State n) (ev : Event n) : Prop :=
  ∀ p i entries z k, ev = .run p → (s.proc p).pc = .findRead i entries z →
    s.scan p i entries z = some k → s.isLast p = true → (s.proc p).goal = .unlink →
      ∀ q m, (s.proc q).pc ≠ .iget m (some (z, k)) ∧ (s.proc q).pc ≠ .igetRead m (some (z, k))

/-! ### Where the processes are -/

/-- The lookup of the first of `names` in the directory `d` has its entry ahead of the position `i`.
When the shared entry is gone, this is not so for the last name. -/
def Ahead (s₀ : State n) (gone : Prop) (d : ℕ) (names : List Name) (i : ℕ) : Prop :=
  gone ∧ names.tail = [] ∨ ∃ j, i ≤ j ∧ s₀.FirstAt d (names.headD []) j

/-- A process has not found the shared entry, or holds it. -/
def Walking (s₀ : State n) (D e : ℕ) (nm : Name) (gone : Prop) (d : ℕ) (names : List Name) :
    Pc → Prop
  | .enter => Leads s₀ D nm d names
  | .find i entries => Leads s₀ D nm d names ∧ i % 64 = 0 ∧ entries = s₀.size d ∧
      Ahead s₀ gone d names i
  | .findRead i entries z => Leads s₀ D nm d names ∧ i % 64 = 0 ∧ entries = s₀.size d ∧
      Ahead s₀ gone d names i ∧ z = s₀.zone d (i / 64) ∧ z ≠ 0
  | .copied m => Leads s₀ D nm d names ∧ Leads s₀ D nm m names.tail
  | .put x (.iget m) | .putWrite x (.iget m) | .putWrote x (.iget m) =>
      (s₀.isDir x = true ∧ s₀.nlinks x ≠ 0) ∧ Leads s₀ D nm m names.tail
  | .iget m none | .igetRead m none => Leads s₀ D nm m names.tail
  | .iget m (some (z, k)) | .igetRead m (some (z, k)) => ¬ gone ∧ d = D ∧
      m = (s₀.entry D e).inode ∧ z = s₀.zone D (e / 64) ∧ k = e % 64
  | _ => False

/-- A process returns `r`. -/
def Ending (D f : ℕ) (r : Result) : Pc → Prop
  | .put m (.ret r') | .putWrite m (.ret r') | .putWrote m (.ret r') => m = D ∧ r' = r
  | .put m (.put d r') | .putWrite m (.put d r') | .putWrote m (.put d r') =>
      m = f ∧ d = D ∧ r' = r
  | .done r' => r' = r
  | _ => False

/-- What the unlinks leave alone; `gone` tells whether the entry has been cleared. -/
structure Frame (s₀ s : State n) (D e : ℕ) (gone : Prop) : Prop where
  zone : s.zone = s₀.zone
  size : s.size = s₀.size
  isDir : s.isDir = s₀.isDir
  imap : s.imap = s₀.imap
  may : s.may = s₀.may
  coherent : Coherent s
  nlinks : ∀ m ≠ (s₀.entry D e).inode, s.nlinks m = s₀.nlinks m
  kept : ∀ z k, ¬ (gone ∧ z = s₀.zone D (e / 64) ∧ k = e % 64) → s.de z k = s₀.de z k
  cleared : gone → (s.de (s₀.zone D (e / 64)) (e % 64)).inode = 0

/-! ### Lookups -/

theorem Leads.isDir {d : ℕ} {names : List Name} (h : Leads s D nm d names) :
    s.isDir d = true ∧ (∀ p, s.permission p d .exec = true) ∧ names ≠ [] ∧
      (names.headD []).take 14 ≠ [] ∧ s.zone d 0 ≠ 0 := by
  cases h with
  | last hdir hmay hname hzone | walk hdir hmay hname hzone =>
    exact ⟨hdir, hmay, List.cons_ne_nil _ _, hname, hzone⟩

theorem Leads.of_tail {d : ℕ} {names : List Name} (h : Leads s D nm d names)
    (htail : names.tail = []) : d = D ∧ names = [nm] := by
  cases h with
  | last => exact ⟨rfl, rfl⟩
  | walk => cases htail

theorem Leads.of_tail_ne {d : ℕ} {names : List Name} (h : Leads s D nm d names)
    (htail : names.tail ≠ []) : ∃ i, s.FirstAt d (names.headD []) i ∧
      Leads s D nm (s.entry d i).inode names.tail := by
  cases h with
  | last => exact absurd rfl htail
  | @walk d i a b names hdir hmay hname hzone hfirst h => exact ⟨i, hfirst, h⟩

/-- The directory at the end of a walk. -/
theorem Leads.target {d : ℕ} {names : List Name} (h : Leads s D nm d names) :
    s.isDir D = true ∧ ∀ p, s.permission p D .exec = true := by
  induction h with
  | last hdir hmay => exact ⟨hdir, hmay⟩
  | walk _ _ _ _ _ _ ih => exact ih

theorem permission_nlinks {m : ℕ} {mask : Mask} (h : s.permission p m mask = true) :
    s.nlinks m ≠ 0 := by
  rw [State.permission, Bool.and_eq_true] at h
  simpa using h.1

namespace SharedEntry

variable (h : SharedEntry s₀ D e nm)
include h

theorem firstAt : s₀.FirstAt D nm e :=
  ⟨h.first, fun j hj hm => hj.ne (h.unique j hm)⟩

theorem ne_file {m : ℕ} (hm : s₀.isDir m = true) : m ≠ (s₀.entry D e).inode := by
  rintro rfl
  rw [h.regular] at hm
  cases hm

theorem ahead {gone : Prop} {d : ℕ} {names : List Name} (hl : Leads s₀ D nm d names) :
    Ahead s₀ gone d names 0 := by
  cases hl with
  | last => exact .inr ⟨e, Nat.zero_le _, h.firstAt⟩
  | @walk d i a b names hdir hmay hname hzone hfirst => exact .inr ⟨i, Nat.zero_le _, hfirst⟩

end SharedEntry

namespace Frame

variable {gone : Prop}

/-- An entry that matches is one of the beginning. -/
theorem matchAt (hf : Frame s₀ s D e gone) {d i : ℕ} {name : Name} (hm : s.MatchAt d name i) :
    s₀.MatchAt d name i ∧ s.entry d i = s₀.entry d i := by
  obtain ⟨hi, hz, hm⟩ := hm
  rw [hf.size] at hi
  rw [hf.zone] at hz
  have hentry : s.entry d i = s₀.entry d i := by
    rw [State.entry, State.entry, hf.zone]
    refine hf.kept _ _ ?_
    rintro ⟨hgone, hze, hke⟩
    refine hm.1 ?_
    rw [State.entry, hf.zone, hze, hke]
    exact hf.cleared hgone
  exact ⟨⟨hi, hz, hentry ▸ hm⟩, hentry⟩

/-- An entry of another inode is still there. -/
theorem matches_of (hf : Frame s₀ s D e gone) {d i : ℕ} {name : Name} (hm : s₀.MatchAt d name i)
    (hother : gone → (s₀.entry d i).inode ≠ (s₀.entry D e).inode) :
    Matches (name.take 14) (s.de (s₀.zone d (i / 64)) (i % 64)) := by
  have hsame : s.de (s₀.zone d (i / 64)) (i % 64) = s₀.entry d i := by
    refine hf.kept _ _ ?_
    rintro ⟨hgone, hze, hke⟩
    refine hother hgone ?_
    rw [State.entry, State.entry, hze, hke]
  rw [hsame]
  exact hm.2.2

end Frame

section Scan

variable {gone : Prop} {i entries z k : ℕ}

/-- The entry that a lookup looks for is in core when its block is read. -/
theorem Frame.matches_ahead (hf : Frame s₀ s D e gone) (h : SharedEntry s₀ D e nm)
    (hl : Leads s₀ D nm (s.proc p).dir (s.proc p).names) {j : ℕ}
    (hfirst : s₀.FirstAt (s.proc p).dir (s.name p) j)
    (hgone : ¬ (gone ∧ (s.proc p).names.tail = [])) (hblock : j / 64 = i / 64) :
    Matches ((s.name p).take 14) (s.de (s₀.zone (s.proc p).dir (i / 64)) (j % 64)) := by
  rw [← hblock]
  refine hf.matches_of hfirst.1 fun hg => ?_
  obtain ⟨j', hfirst', hnext⟩ := hl.of_tail_ne fun htail => hgone ⟨hg, htail⟩
  rw [hfirst.unique hfirst']
  exact h.ne_file hnext.isDir.1

/-- `find_entry` finds the entry of the beginning. -/
theorem Frame.found (hf : Frame s₀ s D e gone) (h : SharedEntry s₀ D e nm)
    (hl : Leads s₀ D nm (s.proc p).dir (s.proc p).names) (hi : i % 64 = 0)
    (hahead : Ahead s₀ gone (s.proc p).dir (s.proc p).names i)
    (hz : s₀.zone (s.proc p).dir (i / 64) ≠ 0)
    (hscan : s.scan p i (s₀.size (s.proc p).dir) (s₀.zone (s.proc p).dir (i / 64)) = some k) :
    ¬ (gone ∧ (s.proc p).names.tail = []) ∧ k < 64 ∧
      s₀.FirstAt (s.proc p).dir (s.name p) (i + k) ∧
        s.de (s₀.zone (s.proc p).dir (i / 64)) k = s₀.entry (s.proc p).dir (i + k) := by
  obtain ⟨hk, hlt, hmatch, hbefore⟩ := State.scan_some hscan
  have hentry : s.entry (s.proc p).dir (i + k) = s.de (s₀.zone (s.proc p).dir (i / 64)) k := by
    rw [State.entry_add hi hk, hf.zone]
  have hat : s.MatchAt (s.proc p).dir (s.name p) (i + k) := by
    refine ⟨hf.size ▸ hlt, ?_, hentry ▸ hmatch⟩
    rw [hf.zone, show (i + k) / 64 = i / 64 by omega]
    exact hz
  obtain ⟨hat₀, hsame⟩ := hf.matchAt hat
  have hgone : ¬ (gone ∧ (s.proc p).names.tail = []) := by
    rintro ⟨hg, htail⟩
    obtain ⟨hd, hnames⟩ := hl.of_tail htail
    have hname : s.name p = nm := by rw [State.name, hnames]; rfl
    rw [hd, hname] at hat hat₀
    obtain he := h.unique _ hat₀
    refine hat.2.2.1 ?_
    rw [he, State.entry, hf.zone]
    exact hf.cleared hg
  refine ⟨hgone, hk, ?_, hentry ▸ hsame⟩
  rcases hahead with hc | ⟨j, hij, hfirst⟩
  · exact absurd hc hgone
  · have hle : j ≤ i + k := not_lt.mp fun hlt => hfirst.2 _ hlt hat₀
    rcases hle.lt_or_eq with hlt | rfl
    · refine absurd (hf.matches_ahead h hl hfirst hgone (i := i) (by omega)) (hbefore (j % 64) ?_)
      omega
    · exact hfirst

/-- A block without the entry is passed. -/
theorem Frame.passed_entry (hf : Frame s₀ s D e gone) (h : SharedEntry s₀ D e nm)
    (hl : Leads s₀ D nm (s.proc p).dir (s.proc p).names) (hi : i % 64 = 0)
    (hahead : Ahead s₀ gone (s.proc p).dir (s.proc p).names i)
    (hno : s₀.zone (s.proc p).dir (i / 64) = 0 ∨
      s.scan p i (s₀.size (s.proc p).dir) (s₀.zone (s.proc p).dir (i / 64)) = none) :
    Ahead s₀ gone (s.proc p).dir (s.proc p).names (i + 64) := by
  by_cases hgone : gone ∧ (s.proc p).names.tail = []
  · exact .inl hgone
  · rcases hahead with hc | ⟨j, hij, hfirst⟩
    · exact absurd hc hgone
    · refine .inr ⟨j, not_lt.mp fun hlt => ?_, hfirst⟩
      have hblock : j / 64 = i / 64 := by omega
      rcases hno with hz | hscan
      · exact hfirst.1.2.1 (hblock ▸ hz)
      · have hsize := hfirst.1.1
        exact State.scan_none hscan (k := j % 64) (by omega) (by omega)
          (hf.matches_ahead h hl hfirst hgone hblock)

end Scan

/-! ### The steps of a process that has not cleared the entry -/

section Walk

variable {gone : Prop} {d : ℕ} {names : List Name} {pc : Pc}

/-- The process is in `iput`, on its way to the next directory. -/
def OnWay (s₀ : State n) (D : ℕ) (nm : Name) (names : List Name) (m : ℕ) (a : After) : Prop :=
  (s₀.isDir m = true ∧ s₀.nlinks m ≠ 0) ∧ ∃ x, a = .iget x ∧ Leads s₀ D nm x names.tail

theorem Walking.put {m : ℕ} {a : After} (hw : Walking s₀ D e nm gone d names pc)
    (hpc : pc = .put m a ∨ pc = .putWrite m a ∨ pc = .putWrote m a) :
    OnWay s₀ D nm names m a := by
  rcases hpc with rfl | rfl | rfl <;>
  · cases a with
    | iget x => exact ⟨hw.1, x, rfl, hw.2⟩
    | ret r => exact hw.elim
    | put m' r => exact hw.elim

theorem OnWay.walking {m : ℕ} {a : After} (h : OnWay s₀ D nm names m a) :
    Walking s₀ D e nm gone d names (.putWrite m a) ∧ Walking s₀ D e nm gone d names
      (.putWrote m a) ∧
      Walking s₀ D e nm gone d names a.pc := by
  obtain ⟨hm, x, rfl, hx⟩ := h
  exact ⟨⟨hm, hx⟩, ⟨hm, hx⟩, hx⟩

theorem PutReady.walking {m : ℕ} {a : After} {c : Core} (h : PutReady s p m a c)
    (hw : Walking s₀ D e nm gone d names (s.proc p).pc) : OnWay s₀ D nm names m a := by
  rcases h with ⟨hpc, -⟩ | ⟨hpc, -⟩
  · exact hw.put (.inl hpc)
  · exact hw.put (.inr (.inr hpc))

theorem PutReady.nlinks_eq {m : ℕ} {a : After} {c : Core} (h : PutReady s p m a c) :
    s.nlinks m = c.nlinks := by
  obtain ⟨-, c₀, hc₀, -, hl₀, -⟩ := h.refs
  rw [State.nlinks_eq, hc₀, ← hl₀]
  rfl

theorem Gets.walking {m : ℕ} {bh : Option (ℕ × ℕ)} {c c' : Core} (hg : Gets s p m bh c c')
    (hw : Walking s₀ D e nm gone d names (s.proc p).pc) :
    Walking s₀ D e nm gone d names (.iget m bh) := by
  obtain ⟨-, ⟨hpc, -⟩ | ⟨hpc, -⟩⟩ := hg
  · exact hpc ▸ hw
  · rw [hpc] at hw
    cases bh <;> exact hw

theorem Leads.tail_ne {x : ℕ} (h : Leads s₀ D nm x names.tail) : names.tail ≠ [] := by
  intro htail
  rw [htail] at h
  cases h

/-- The process stays among those that have not found the entry, or, after the entry is gone,
returns an error. -/
def Stays (s₀ : State n) (D e : ℕ) (nm : Name) (gone : Prop) (q : Proc) : Prop :=
  q.goal = .unlink ∧ (Walking s₀ D e nm gone q.dir q.names q.pc ∨
    gone ∧ ∃ err, Ending D (s₀.entry D e).inode (.error err) q.pc)

theorem Stays.setPc {pc : Pc} (hgoal : (s.proc p).goal = .unlink)
    (hw : Walking s₀ D e nm gone (s.proc p).dir (s.proc p).names pc) :
    Stays s₀ D e nm gone ((s.setPc p pc).proc p) := by
  rw [State.setPc_proc_self]
  exact ⟨hgoal, .inl hw⟩

/-- `find_entry` ends without an entry only when the shared entry is gone. -/
theorem NotHere.entry_gone (hn : NotHere s p) (hf : Frame s₀ s D e gone)
    (hw : Walking s₀ D e nm gone (s.proc p).dir (s.proc p).names (s.proc p).pc) :
    gone ∧ (s.proc p).dir = D := by
  rcases hn with ⟨hpc, -, hno⟩ | ⟨i, entries, hpc, hle⟩
  · rw [hpc] at hw
    obtain ⟨-, -, -, hname, hzone⟩ := Leads.isDir hw
    rw [hf.zone] at hno
    rcases hno with ⟨hnil, -⟩ | hz
    · exact absurd (by rw [← State.name, hnil]; rfl) hname
    · exact absurd hz hzone
  · rw [hpc] at hw
    obtain ⟨hl, -, rfl, hgone | ⟨j, hij, hfirst⟩⟩ := hw
    · exact ⟨hgone.1, (hl.of_tail hgone.2).1⟩
    · exact absurd hfirst.1.1 (by omega)

theorem Denied.false (hd : Denied s p) (h : SharedEntry s₀ D e nm) (hf : Frame s₀ s D e gone)
    (hw : Walking s₀ D e nm gone (s.proc p).dir (s.proc p).names (s.proc p).pc) : False := by
  obtain ⟨hpc, hno⟩ := hd
  rw [hpc] at hw
  obtain ⟨hdir, hmay, hne, hname, -⟩ := Leads.isDir hw
  have hperm : ∀ mask, s.permission p (s.proc p).dir mask = s₀.permission p
      (s.proc p).dir mask := by
    intro mask
    rw [State.permission, State.permission, hf.nlinks _ (h.ne_file hdir), hf.may]
  rcases hno with hno | hno | ⟨hlast, hno | ⟨-, hno⟩⟩
  · rw [hf.isDir, hdir] at hno
    cases hno
  · rw [hperm, hmay p] at hno
    cases hno
  · refine hname ?_
    rw [← State.name, hno]
    rfl
  · obtain ⟨hd, -⟩ := Leads.of_tail hw (by simpa [State.isLast] using hlast)
    rw [hperm, hd, h.write p] at hno
    cases hno

/-- The process holds an entry that it will clear. -/
def Pc.holds : Pc → Bool
  | .iget _ (some _) | .igetRead _ (some _) => true
  | _ => false

/-- The step in which a process clears the entry. -/
def Clears (s₀ s : State n) (p : Fin n) (D e : ℕ) (s' : State n) : Prop :=
  (s.proc p).pc.holds = true ∧ (s.proc p).dir = D ∧ ∃ c c' : Core, s.core (s₀.entry D e).inode =
    some c ∧ c'.nlinks = c.nlinks ∧ c'.dirt = c.dirt ∧
    s' = ((s.setCore (s₀.entry D e).inode
      (some { c' with nlinks := if c.nlinks = 0 then 1 else c.nlinks })).setDe
        (s₀.zone D (e / 64)) (e % 64)
          { s.de (s₀.zone D (e / 64)) (e % 64) with inode := 0 }).setPc p
            (.cleared (s₀.entry D e).inode)

/-- What a process that has not cleared the entry can do. -/
theorem Trans.walking (ht : Trans s p s') (h : SharedEntry s₀ D e nm) (hf : Frame s₀ s D e gone)
    (hgoal : (s.proc p).goal = .unlink)
    (hw : Walking s₀ D e nm gone (s.proc p).dir (s.proc p).names (s.proc p).pc) :
    Quiet s s' ∧ Stays s₀ D e nm gone (s'.proc p) ∨ ¬ gone ∧ Clears s₀ s p D e s' := by
  cases ht with
  | calm hcalm =>
    refine .inl ⟨hcalm.quiet, ?_⟩
    cases hcalm with
    | denied hd => exact (hd.false h hf hw).elim
    | absent hn =>
      obtain ⟨hgone, hd⟩ := hn.entry_gone hf hw
      rw [State.putDir, State.setPc_proc_self]
      exact ⟨hgoal, .inr ⟨hgone, _, hd, rfl⟩⟩
    | create hn hc =>
      obtain ⟨-, _, _, _, hopen⟩ := hc
      rw [hgoal] at hopen
      cases hopen
    | itself hpc hlast hno =>
      rw [hgoal] at hno
      rcases hno with hno | ⟨_, hno⟩ <;> cases hno
    | @read i entries z hpc hz hne =>
      refine .setPc hgoal ?_
      rcases hpc with ⟨hpc, -, rfl, rfl, -⟩ | ⟨hpc, -⟩
      · rw [hpc] at hw
        exact ⟨hw, rfl, congrFun hf.size _, h.ahead hw, by rw [← hz, hf.zone], hne⟩
      · rw [hpc] at hw
        exact ⟨hw.1, hw.2.1, hw.2.2.1, hw.2.2.2, by rw [← hz, hf.zone], hne⟩
    | @skip i entries hpc hi hz =>
      rw [hpc] at hw
      obtain ⟨hl, hmod, rfl, hahead⟩ := hw
      exact .setPc hgoal ⟨hl, by omega, rfl, hf.passed_entry h hl hmod hahead (.inl (hf.zone ▸ hz))⟩
    | @pass i entries z hpc hscan =>
      rw [hpc] at hw
      obtain ⟨hl, hmod, rfl, hahead, rfl, -⟩ := hw
      exact .setPc hgoal ⟨hl, by omega, rfl, hf.passed_entry h hl hmod hahead (.inr hscan)⟩
    | eexist hpc hlast hopen =>
      obtain ⟨_, _, _, hopen⟩ := hopen
      rw [hgoal] at hopen
      cases hopen
    | release hpc =>
      rw [hpc] at hw
      have hdir := hw.1.isDir
      exact .setPc hgoal ⟨⟨hdir.1, permission_nlinks (hdir.2.1 p)⟩, hw.2⟩
    | load hpc hcore =>
      rename_i m bh
      rw [hpc] at hw
      refine .setPc hgoal ?_
      cases bh <;> exact hw
    | irregular hg hdir =>
      obtain ⟨-, -, rfl, -⟩ := hg.walking hw
      rw [hf.isDir, h.regular] at hdir
      cases hdir
    | walk hg hlast =>
      have hnext := hg.walking hw
      refine ⟨?_, .inl ?_⟩ <;> simp only [Function.update_self]
      · exact hgoal
      · exact hnext
    | refuse hg hlast | cut hg hlast | opened hg hlast | looked hg hlast =>
      exact absurd (by simpa [State.isLast] using hlast) (Leads.tail_ne (hg.walking hw))
    | truncated hpc | full hpc | stored hpc =>
      rw [hpc] at hw
      exact hw.elim
    | @drop m a c hd =>
      have hway : OnWay s₀ D nm (s.proc p).names m a := by
        rcases hd with ⟨hpc, -⟩ | ⟨hready, -⟩
        · exact hw.put (.inl hpc)
        · exact hready.walking hw
      rw [State.drop, State.goto_eq]
      exact .setPc hgoal hway.walking.2.2
    | putWrite hready => exact .setPc hgoal (hready.walking hw).walking.1
    | putStore hpc hcore => exact .setPc hgoal (hw.put (.inr (.inl hpc))).walking.2.1
    | destroy hready hlinks =>
      have hway := hready.walking hw
      rw [← hready.nlinks_eq, hf.nlinks _ (h.ne_file hway.1.1)] at hlinks
      exact absurd hlinks hway.1.2
  | copy hpc hscan hno =>
    rw [hpc] at hw
    obtain ⟨hl, hmod, rfl, hahead, rfl, hz⟩ := hw
    obtain ⟨-, hk, hfirst, hde⟩ := hf.found h hl hmod hahead hz hscan
    obtain ⟨j, hfirst', hnext⟩ := hl.of_tail_ne fun htail =>
      hno ⟨by simpa [State.isLast] using htail, hgoal⟩
    refine .inl ⟨.setPc, .setPc hgoal ⟨hl, ?_⟩⟩
    rw [hde, hfirst.unique hfirst']
    exact hnext
  | @hold i entries z k hpc hscan hlast =>
    rw [hpc] at hw
    obtain ⟨hl, hmod, rfl, hahead, rfl, hz⟩ := hw
    obtain ⟨hgone, hk, hfirst, hde⟩ := hf.found h hl hmod hahead hz hscan
    have htail : (s.proc p).names.tail = [] := by simpa [State.isLast] using hlast
    obtain ⟨hd, hnames⟩ := hl.of_tail htail
    have hname : s.name p = nm := by rw [State.name, hnames]; rfl
    rw [hd] at hde ⊢
    rw [hd, hname] at hfirst
    obtain rfl := hfirst.unique h.firstAt
    refine .inl ⟨.setPc, .setPc hgoal ?_⟩
    rw [hde]
    exact ⟨fun hg => hgone ⟨hg, htail⟩, hd, rfl, by rw [show (i + k) / 64 = i / 64 by omega],
      by omega⟩
  | clear hg hdir =>
    obtain ⟨hgone, hd, rfl, rfl, rfl⟩ := hg.walking hw
    obtain ⟨hc, hlinks, hdirt⟩ := hg.kept
    have hholds : (s.proc p).pc.holds = true := by
      obtain ⟨-, ⟨hpc, -⟩ | ⟨hpc, -⟩⟩ := hg <;> rw [hpc] <;> rfl
    exact .inr ⟨hgone, hholds, hd, _, _, hc, hlinks, hdirt, rfl⟩
  | free hpc =>
    rw [hpc] at hw
    exact hw.elim
  | unlinked hpc | fresh hpc | addBlock hpc | addFailed hpc | alloc hpc | addNew hpc | addNext hpc
  | store hpc =>
    rw [hpc] at hw
    exact hw.elim

end Walk

/-! ### The steps of a process that returns -/

theorem Ending.put {f m : ℕ} {a : After} {r : Result} {pc : Pc} (he : Ending D f r pc)
    (hpc : pc = .put m a ∨ pc = .putWrite m a ∨ pc = .putWrote m a) :
    (m = D ∨ m = f) ∧ Ending D f r (.putWrite m a) ∧ Ending D f r (.putWrote m a) ∧
      Ending D f r a.pc := by
  rcases hpc with rfl | rfl | rfl <;>
  · cases a with
    | iget x => exact he.elim
    | ret r' => exact ⟨.inl he.1, he, he, he.2⟩
    | put d r' => exact ⟨.inr he.1, he, he, he.2⟩

theorem PutReady.ending {f m : ℕ} {a : After} {c : Core} {r : Result} (h : PutReady s p m a c)
    (he : Ending D f r (s.proc p).pc) : (m = D ∨ m = f) ∧ Ending D f r (.putWrite m a) ∧
      Ending D f r (.putWrote m a) ∧ Ending D f r a.pc := by
  rcases h with ⟨hpc, -⟩ | ⟨hpc, -⟩
  · exact he.put (.inl hpc)
  · exact he.put (.inr (.inr hpc))

/-- A process that returns drops its references to inodes that have links. -/
theorem Trans.ending (ht : Trans s p s') {f : ℕ} {r : Result} (hD : s.nlinks D ≠ 0)
    (hf : s.nlinks f ≠ 0) (he : Ending D f r (s.proc p).pc) :
    Quiet s s' ∧ (s'.proc p).goal = (s.proc p).goal ∧ Ending D f r (s'.proc p).pc := by
  cases ht with
  | calm hcalm =>
    refine ⟨hcalm.quiet, ?_⟩
    cases hcalm with
    | @drop m a c hd =>
      have hnext : Ending D f r a.pc := by
        rcases hd with ⟨hpc, -⟩ | ⟨hready, -⟩
        · exact (he.put (.inl hpc)).2.2.2
        · exact (hready.ending he).2.2.2
      rw [State.drop, State.goto_eq, State.setPc_proc_self]
      exact ⟨rfl, hnext⟩
    | putWrite hready =>
      rw [State.setPc_proc_self]
      exact ⟨rfl, (hready.ending he).2.1⟩
    | putStore hpc hcore =>
      rw [State.setPc_proc_self]
      exact ⟨rfl, (he.put (.inr (.inl hpc))).2.2.1⟩
    | destroy hready hlinks =>
      rw [← hready.nlinks_eq] at hlinks
      rcases (hready.ending he).1 with rfl | rfl
      · exact absurd hlinks hD
      · exact absurd hlinks hf
    | denied hd =>
      rw [hd.1] at he
      exact he.elim
    | absent hn | create hn =>
      rcases hn with ⟨hpc, -⟩ | ⟨i, entries, hpc, -⟩ <;> rw [hpc] at he <;> exact he.elim
    | read hpc =>
      rcases hpc with ⟨hpc, -⟩ | ⟨hpc, -⟩ <;> rw [hpc] at he <;> exact he.elim
    | irregular hg | walk hg | refuse hg | cut hg | opened hg | looked hg =>
      obtain ⟨-, ⟨hpc, -⟩ | ⟨hpc, -⟩⟩ := hg <;> rw [hpc] at he <;> exact he.elim
    | itself hpc | skip hpc | pass hpc | eexist hpc | release hpc | load hpc | truncated hpc
    | full hpc | stored hpc =>
      rw [hpc] at he
      exact he.elim
  | clear hg =>
    obtain ⟨-, ⟨hpc, -⟩ | ⟨hpc, -⟩⟩ := hg <;> rw [hpc] at he <;> exact he.elim
  | copy hpc | hold hpc | unlinked hpc | fresh hpc | addBlock hpc | addFailed hpc | alloc hpc
  | addNew hpc | addNext hpc | store hpc | free hpc =>
    rw [hpc] at he
    exact he.elim

/-! ### The two phases -/

/-- A process comes to hold an entry when its `find_entry` finds one. -/
theorem Trans.holds (ht : Trans s p s') (hh : (s'.proc p).pc.holds = true) :
    (s.proc p).pc.holds = true ∨ ∃ i entries z k m, (s.proc p).pc = .findRead i entries z ∧
      s.scan p i entries z = some k ∧ s.isLast p = true ∧ (s.proc p).goal = .unlink ∧
        (s'.proc p).pc = .iget m (some (z, k)) := by
  cases ht with
  | @hold i entries z k hpc hscan hlast hgoal =>
    exact .inr ⟨i, entries, z, k, _, hpc, hscan, hlast, hgoal, by rw [State.setPc_proc_self]⟩
  | calm hcalm =>
    cases hcalm with
    | @load m bh hpc =>
      rw [State.setPc_proc_self] at hh
      rw [hpc]
      cases bh with
      | none => cases hh
      | some x => exact .inl rfl
    | @drop m a c =>
      rw [State.drop, State.goto_eq, State.setPc_proc_self] at hh
      cases a <;> cases hh
    | _ => simp [Pc.holds, State.putDir] at hh
  | @free m a c =>
    rw [State.goto_eq, State.setPc_proc_self] at hh
    cases a <;> cases hh
  | store hpc hscan =>
    rw [(State.addRead_stored hscan).proc, Function.update_self] at hh
    cases hh
  | _ => simp [Pc.holds, State.addNew] at hh

/-- No process has cleared the entry, and at most one holds it. -/
structure Before (s₀ s : State n) (D e : ℕ) (nm : Name) : Prop where
  frame : Frame s₀ s D e False
  links : s.nlinks (s₀.entry D e).inode = s₀.nlinks (s₀.entry D e).inode
  proc : ∀ q, Stays s₀ D e nm False (s.proc q)
  single : ∀ q q', (s.proc q).pc.holds = true → (s.proc q').pc.holds = true → q = q'

/-- The process `w` has cleared the entry. -/
structure Cleared (s₀ s : State n) (D e : ℕ) (nm : Name) (w : Fin n) : Prop where
  frame : Frame s₀ s D e True
  proc : ∀ q ≠ w, Stays s₀ D e nm True (s.proc q)
  winner : (s.proc w).pc = .cleared (s₀.entry D e).inode ∧ (s.proc w).dir = D ∧
      s.nlinks (s₀.entry D e).inode = s₀.nlinks (s₀.entry D e).inode ∨
    Ending D (s₀.entry D e).inode (.ok 0) (s.proc w).pc ∧
      s.nlinks (s₀.entry D e).inode + 1 = s₀.nlinks (s₀.entry D e).inode

theorem Frame.quiet {gone : Prop} (hf : Frame s₀ s D e gone) (hq : Quiet s s') :
    Frame s₀ s' D e gone where
  zone := hq.dirs.zone.trans hf.zone
  size := hq.dirs.size.trans hf.size
  isDir := hq.dirs.isDir.trans hf.isDir
  imap := hq.dirs.imap.trans hf.imap
  may := hq.dirs.may.trans hf.may
  coherent := (hq.nlinks hf.coherent).1
  nlinks m hm := ((hq.nlinks hf.coherent).2 m).trans (hf.nlinks m hm)
  kept z k h := by rw [hq.dirs.de, hf.kept z k h]
  cleared h := by rw [hq.dirs.de, hf.cleared h]

/-- A process that does not hold the entry goes on when it is gone. -/
theorem Stays.mono {q : Proc} (h : Stays s₀ D e nm False q) (hno : q.pc.holds = false)
    (gone : Prop) : Stays s₀ D e nm gone q := by
  obtain ⟨hgoal, hw | ⟨hfalse, -⟩⟩ := h
  · refine ⟨hgoal, .inl ?_⟩
    have hahead : ∀ {i}, Ahead s₀ False q.dir q.names i → Ahead s₀ gone q.dir q.names i :=
      fun ha => ha.elim (fun hc => hc.1.elim) .inr
    generalize q.pc = pc at hw hno
    cases pc with
    | find => exact ⟨hw.1, hw.2.1, hw.2.2.1, hahead hw.2.2.2⟩
    | findRead => exact ⟨hw.1, hw.2.1, hw.2.2.1, hahead hw.2.2.2.1, hw.2.2.2.2⟩
    | iget m bh | igetRead m bh =>
      cases bh with
      | none => exact hw
      | some x => cases hno
    | put m a | putWrite m a | putWrote m a =>
      cases a with
      | iget x => exact hw
      | ret r => exact hw.elim
      | put d r => exact hw.elim
    | enter | copied => exact hw
    | _ => exact hw.elim
  · exact hfalse.elim

/-- An entry that is held is the shared one. -/
theorem Stays.holds {gone : Prop} {q : Proc} (h : Stays s₀ D e nm gone q)
    (hh : q.pc.holds = true) : ∃ m, q.pc = .iget m (some (s₀.zone D (e / 64), e % 64)) ∨
      q.pc = .igetRead m (some (s₀.zone D (e / 64), e % 64)) := by
  obtain ⟨-, hw | ⟨-, err, he⟩⟩ := h
  · generalize q.pc = pc at hw hh
    cases pc with
    | iget m bh | igetRead m bh =>
      cases bh with
      | none => cases hh
      | some x =>
        obtain ⟨-, -, -, hz, hk⟩ := hw
        refine ⟨m, ?_⟩
        rw [← hz, ← hk]
        simp
    | _ => cases hh
  · generalize q.pc = pc at he hh
    cases pc <;> first | cases hh | exact he.elim

namespace Before

variable {ev : Event n}

theorem quiet (hb : Before s₀ s D e nm) (hq : Quiet s s') (hproc : s'.proc = s.proc) :
    Before s₀ s' D e nm where
  frame := hb.frame.quiet hq
  links := ((hq.nlinks hb.frame.coherent).2 _).trans hb.links
  proc q := hproc ▸ hb.proc q
  single q q' := hproc ▸ hb.single q q'

/-- The step that clears the entry. -/
theorem clear (hb : Before s₀ s D e nm) (h : SharedEntry s₀ D e nm) (ht : Trans s p s')
    (hclears : Clears s₀ s p D e s') : Cleared s₀ s' D e nm p := by
  obtain ⟨hh, hdir, c, c', hc, hl, hd, hs'⟩ := hclears
  have hnlinks : c.nlinks = s₀.nlinks (s₀.entry D e).inode := by
    rw [← hb.links, State.nlinks_eq, hc]
    rfl
  have hkeep : (if c.nlinks = 0 then 1 else c.nlinks) = c.nlinks :=
    if_neg (by have := h.links; omega)
  rw [hkeep] at hs'
  have hcore : s'.core = Function.update s.core (s₀.entry D e).inode
      (some { c' with nlinks := c.nlinks }) := by rw [hs']; rfl
  have hdisk : s'.disk = s.disk := by rw [hs']; rfl
  have hde : ∀ z k, s'.de z k = if z = s₀.zone D (e / 64) ∧ k = e % 64 then
      { s.de (s₀.zone D (e / 64)) (e % 64) with inode := 0 } else s.de z k := by
    intro z k
    rw [hs', State.setPc_de, State.setDe_de, State.setCore_de, State.update_entry]
  refine ⟨⟨by rw [hs']; exact hb.frame.zone, by rw [hs']; exact hb.frame.size,
    by rw [hs']; exact hb.frame.isDir, by rw [hs']; exact hb.frame.imap,
    by rw [hs']; exact hb.frame.may, fun m x hx hdirt => ?_, fun m hm => ?_, fun z k hz => ?_,
    fun _ => ?_⟩, fun q hq => ?_, .inl ⟨?_, ?_, ?_⟩⟩
  · rw [hcore, Function.update_apply] at hx
    rw [hdisk]
    split_ifs at hx with hm
    · obtain rfl := Option.some.inj hx
      rw [hm]
      exact hb.frame.coherent _ c hc (hd ▸ hdirt)
    · exact hb.frame.coherent m x hx hdirt
  · rw [← hb.frame.nlinks m hm, State.nlinks_eq, State.nlinks_eq, hcore, hdisk,
      Function.update_of_ne hm]
  · rw [hde, if_neg fun hslot => hz ⟨trivial, hslot⟩]
    exact hb.frame.kept z k fun hfalse => hfalse.1
  · rw [hde, if_pos ⟨rfl, rfl⟩]
  · rw [ht.other hq]
    refine (hb.proc q).mono (Bool.eq_false_iff.mpr fun hqh => hq (hb.single q p hqh hh)) True
  · rw [hs', State.setPc_proc_self]
  · rw [hs', State.setPc_proc_self]
    exact hdir
  · rw [State.nlinks_eq, hcore, Function.update_self, ← hnlinks]
    rfl

/-- A step before the entry is cleared. -/
theorem run (hb : Before s₀ s D e nm) (h : SharedEntry s₀ D e nm) (hnext : s.run p = some s')
    (halone : Alone s (.run p)) : Before s₀ s' D e nm ∨ Cleared s₀ s' D e nm p := by
  have ht := State.run_trans hnext
  obtain ⟨hgoal, hw | ⟨hfalse, -⟩⟩ := hb.proc p
  swap
  · exact hfalse.elim
  rcases ht.walking h hb.frame hgoal hw with ⟨hq, hstays⟩ | ⟨-, hclears⟩
  · refine .inl ⟨hb.frame.quiet hq, ((hq.nlinks hb.frame.coherent).2 _).trans hb.links,
      fun q => ?_, fun q q' hh hh' => ?_⟩
    · by_cases hqp : q = p
      · exact hqp ▸ hstays
      · exact (ht.other hqp) ▸ hb.proc q
    · -- The entry that `p` has just found is held by no other process.
      have hnew : ∀ x ≠ p, (s'.proc p).pc.holds = true → (s'.proc x).pc.holds = true → False := by
        intro x hx hp hxh
        rw [ht.other hx] at hxh
        rcases ht.holds hp with hold | ⟨i, entries, z, k, m, hpc, hscan, hlast, hg, hpc'⟩
        · exact hx (hb.single x p hxh hold)
        · obtain ⟨m₁, hm₁⟩ := hstays.holds hp
          obtain ⟨m₂, hm₂⟩ := (hb.proc x).holds hxh
          have hslot : (z, k) = (s₀.zone D (e / 64), e % 64) := by
            rw [hpc'] at hm₁
            rcases hm₁ with hm₁ | hm₁
            · exact Option.some.inj (Pc.iget.inj hm₁).2
            · cases hm₁
          obtain ⟨hno₁, hno₂⟩ := halone p i entries z k rfl hpc hscan hlast hg x m₂
          rw [hslot] at hno₁ hno₂
          exact hm₂.elim hno₁ hno₂
      by_cases hqp : q = p
      · by_contra hne
        exact hnew q' (fun h => hne (hqp.trans h.symm)) (hqp ▸ hh) hh'
      · by_cases hqp' : q' = p
        · exact (hnew q hqp (hqp' ▸ hh') hh).elim
        · exact hb.single q q' (ht.other hqp ▸ hh) (ht.other hqp' ▸ hh')
  · exact .inr (hb.clear h ht hclears)

end Before

namespace Cleared

variable {w : Fin n}

theorem nlinks_ne (hc : Cleared s₀ s D e nm w) (h : SharedEntry s₀ D e nm)
    (hD : s₀.isDir D = true ∧ s₀.nlinks D ≠ 0) :
    s.nlinks D ≠ 0 ∧ s.nlinks (s₀.entry D e).inode ≠ 0 := by
  have hlinks := h.links
  refine ⟨by rw [hc.frame.nlinks D (h.ne_file hD.1)]; exact hD.2, ?_⟩
  rcases hc.winner with ⟨-, -, hw⟩ | ⟨-, hw⟩ <;> omega

theorem quiet (hc : Cleared s₀ s D e nm w) (hq : Quiet s s')
    (hother : ∀ q ≠ w, Stays s₀ D e nm True (s'.proc q)) (hw : s'.proc w = s.proc w) :
    Cleared s₀ s' D e nm w where
  frame := hc.frame.quiet hq
  proc := hother
  winner := by
    rw [hw, (hq.nlinks hc.frame.coherent).2]
    exact hc.winner

/-- The winner drops the link. -/
theorem unlinked (hc : Cleared s₀ s D e nm w) (h : SharedEntry s₀ D e nm)
    (hpc : (s.proc w).pc = .cleared (s₀.entry D e).inode)
    (hlinks : s.nlinks (s₀.entry D e).inode = s₀.nlinks (s₀.entry D e).inode)
    (hD : (s.proc w).dir = D) (hnext : s.run w = some s') : Cleared s₀ s' D e nm w := by
  have ht := State.run_trans hnext
  rw [State.run, hpc] at hnext
  obtain ⟨c, hcore, hs'⟩ := Option.map_eq_some_iff.mp hnext
  have hcore' : s'.core = Function.update s.core (s₀.entry D e).inode
      (some { c with nlinks := (c.nlinks + 255) % 256, dirt := true }) := by rw [← hs']; rfl
  have hdisk : s'.disk = s.disk := by rw [← hs']; rfl
  have hnlinks : c.nlinks = s₀.nlinks (s₀.entry D e).inode := by
    rw [← hlinks, State.nlinks_eq, hcore]
    rfl
  have hbound := h.links
  refine ⟨⟨by rw [← hs']; exact hc.frame.zone, by rw [← hs']; exact hc.frame.size,
    by rw [← hs']; exact hc.frame.isDir, by rw [← hs']; exact hc.frame.imap,
    by rw [← hs']; exact hc.frame.may, fun m x hx hdirt => ?_, fun m hm => ?_,
    by rw [← hs']; exact hc.frame.kept, by rw [← hs']; exact hc.frame.cleared⟩, fun q hq => ?_,
    .inr ⟨?_, ?_⟩⟩
  · rw [hcore', Function.update_apply] at hx
    rw [hdisk]
    split_ifs at hx with hm
    · obtain rfl := Option.some.inj hx
      cases hdirt
    · exact hc.frame.coherent m x hx hdirt
  · rw [← hc.frame.nlinks m hm, State.nlinks_eq, State.nlinks_eq, hcore', hdisk,
      Function.update_of_ne hm]
  · rw [ht.other hq]
    exact hc.proc q hq
  · rw [← hs', State.setPc_proc_self]
    exact ⟨rfl, hD, rfl⟩
  · rw [State.nlinks_eq, hcore', Function.update_self, ← hnlinks, Option.elim_some]
    rw [← hnlinks] at hbound
    change (c.nlinks + 255) % 256 + 1 = c.nlinks
    omega

/-- A step after the entry has been cleared. -/
theorem run (hc : Cleared s₀ s D e nm w) (h : SharedEntry s₀ D e nm) (hnext : s.run p = some s') :
    Cleared s₀ s' D e nm w := by
  have ht := State.run_trans hnext
  obtain ⟨hdir, hmay⟩ := (h.proc p).2.2.target
  obtain ⟨hD, hf⟩ := hc.nlinks_ne h ⟨hdir, permission_nlinks (hmay p)⟩
  by_cases hp : p = w
  · subst hp
    rcases hc.winner with ⟨hpc, hd, hlinks⟩ | ⟨hend, hlinks⟩
    · exact hc.unlinked h hpc hlinks hd hnext
    · obtain ⟨hq, -, hend'⟩ := ht.ending hD hf hend
      refine ⟨hc.frame.quiet hq, fun q hqp => ht.other hqp ▸ hc.proc q hqp, .inr ⟨hend', ?_⟩⟩
      rw [(hq.nlinks hc.frame.coherent).2, hlinks]
  · obtain ⟨hq, hstays⟩ : Quiet s s' ∧ Stays s₀ D e nm True (s'.proc p) := by
      obtain ⟨hgoal, hw | ⟨-, err, hend⟩⟩ := hc.proc p hp
      · rcases ht.walking h hc.frame hgoal hw with hstays | ⟨hno, -⟩
        · exact hstays
        · exact absurd trivial hno
      · obtain ⟨hq, hgoal', hend'⟩ := ht.ending hD hf hend
        exact ⟨hq, hgoal'.trans hgoal, .inr ⟨trivial, err, hend'⟩⟩
    refine hc.quiet hq (fun q hqw => ?_) (ht.other (Ne.symm hp))
    by_cases hqp : q = p
    · exact hqp ▸ hstays
    · exact ht.other hqp ▸ hc.proc q hqw

end Cleared

/-! ### Runs -/

/-- Every process returns at most once, and a process that has returned has an error or the
entry. -/
theorem Stays.done {gone : Prop} {q : Proc} {r : Result} (h : Stays s₀ D e nm gone q)
    (hpc : q.pc = .done r) : gone ∧ ∃ err, r = .error err := by
  obtain ⟨-, hw | ⟨hgone, err, he⟩⟩ := h
  · rw [hpc] at hw
    exact hw.elim
  · rw [hpc] at he
    exact ⟨hgone, err, he⟩

/-- In every run of unlinks of one entry in which no `find_entry` finds the entry while another
process is about to clear it: when all calls have returned, one has succeeded and all others have
failed, the entry is cleared and the others are as before, and the file has lost one link and is
still allocated. -/
theorem unlinked_once {es : List (Event n)} (h : SharedEntry s₀ D e nm)
    (hrun : Runs (fun s ev s' => s.next ev = some s' ∧ ev.isInside = true ∧ Alone s ev) s₀ es s)
    (p : Fin n) (hdone : ∀ q, ∃ r, (s.proc q).pc = .done r) :
    (∃ w, (s.proc w).pc = .done (.ok 0) ∧ ∀ q ≠ w, ∃ err, (s.proc q).pc = .done (.error err)) ∧
      ((s.entry D e).inode = 0 ∧ ∀ d i,
        ¬ (s₀.zone d (i / 64) = s₀.zone D (e / 64) ∧ i % 64 = e % 64) →
          s.entry d i = s₀.entry d i) ∧
      s.nlinks (s₀.entry D e).inode + 1 = s₀.nlinks (s₀.entry D e).inode ∧ s.imap = s₀.imap := by
  have hphase : Before s₀ s D e nm ∨ ∃ w, Cleared s₀ s D e nm w := by
    refine hrun.invariant (I := fun s => Before s₀ s D e nm ∨ ∃ w, Cleared s₀ s D e nm w) ?_ ?_
    · rintro s ev s' hI ⟨hnext, hin, halone⟩
      cases ev with
      | run q =>
        rcases hI with hb | ⟨w, hc⟩
        · exact (hb.run h hnext halone).imp_right fun hc => ⟨q, hc⟩
        · exact .inr ⟨w, hc.run h hnext⟩
      | flush m =>
        obtain ⟨hq, hproc⟩ := quiet_flush hnext
        exact hI.imp (fun hb => hb.quiet hq hproc) fun ⟨w, hc⟩ =>
          ⟨w, hc.quiet hq (fun q hqw => hproc ▸ hc.proc q hqw) (by rw [hproc])⟩
      | evict m =>
        obtain ⟨hq, hproc⟩ := quiet_evict hnext
        exact hI.imp (fun hb => hb.quiet hq hproc) fun ⟨w, hc⟩ =>
          ⟨w, hc.quiet hq (fun q hqw => hproc ▸ hc.proc q hqw) (by rw [hproc])⟩
      | call | close => cases hin
    · refine .inl ⟨⟨rfl, rfl, rfl, rfl, rfl, h.coherent, fun _ _ => rfl, fun _ _ _ => rfl,
        fun hfalse => hfalse.elim⟩, rfl, fun q => ?_, fun q q' hh => ?_⟩
      · obtain ⟨hgoal, hpc, hl⟩ := h.proc q
        refine ⟨hgoal, .inl ?_⟩
        rw [hpc]
        exact hl
      · rw [(h.proc q).2.1] at hh
        cases hh
  rcases hphase with hb | ⟨w, hc⟩
  · obtain ⟨r, hr⟩ := hdone p
    exact ((hb.proc p).done hr).1.elim
  · obtain ⟨hend, hlinks⟩ : Ending D (s₀.entry D e).inode (.ok 0) (s.proc w).pc ∧
        s.nlinks (s₀.entry D e).inode + 1 = s₀.nlinks (s₀.entry D e).inode := by
      rcases hc.winner with ⟨hpc, -⟩ | hwin
      · obtain ⟨r, hr⟩ := hdone w
        rw [hpc] at hr
        cases hr
      · exact hwin
    refine ⟨⟨w, ?_, fun q hq => ?_⟩, ⟨?_, fun d i hslot => ?_⟩, hlinks, hc.frame.imap⟩
    · obtain ⟨r, hr⟩ := hdone w
      rw [hr] at hend ⊢
      rw [show r = .ok 0 from hend]
    · obtain ⟨r, hr⟩ := hdone q
      obtain ⟨-, err, rfl⟩ := (hc.proc q hq).done hr
      exact ⟨err, hr⟩
    · rw [State.entry, hc.frame.zone]
      exact hc.frame.cleared trivial
    · rw [State.entry, hc.frame.zone]
      exact hc.frame.kept _ _ fun hs => hslot hs.2

/-- Two processes have called `sys_unlink` for "a", whose file is also called "b". -/
def State.unlinking : State 2 :=
  { State.device 2 [(2, [97]), (2, [98])] with
    core := fun m => if m = 1 then some ⟨3, 2, false, false⟩ else none
    proc := fun _ => ⟨.unlink, 1, [[97]], .enter, []⟩ }

theorem sharedEntry_unlinking : SharedEntry State.unlinking 1 0 [97] where
  proc _ := ⟨rfl, rfl, .last rfl (fun _ => rfl) (by decide) (by decide)⟩
  write _ := rfl
  first := ⟨by decide, by decide, by decide⟩
  unique i hi := by
    obtain ⟨hlt, -, hm⟩ := hi
    have hi : i = 0 ∨ i = 1 := by
      have hsize : i < 2 := hlt
      omega
    rcases hi with rfl | rfl
    · rfl
    · exact absurd hm (by decide)
  regular := rfl
  links := by decide
  coherent m c hc _ := by
    simp only [State.unlinking] at hc
    split_ifs at hc with hm
    obtain rfl := Option.some.inj hc
    rw [hm]
    rfl

/-- The process is in `find_entry`, reading a block. -/
def Pc.reading : Pc → Bool
  | .findRead _ _ _ => true
  | _ => false

/-- The two calls run one after the other. -/
theorem unlinked_once_inTurn : ∃ es s,
    Runs (fun s ev s' => s.next ev = some s' ∧ ev.isInside = true ∧ Alone s ev)
      State.unlinking es s ∧
      (∀ q, ∃ r, (s.proc q).pc = .done r) ∧
        s.nlinks (State.unlinking.entry 1 0).inode + 1 =
          State.unlinking.nlinks (State.unlinking.entry 1 0).inode := by
  have hexec : ∃ s, exec (fun s ev => (State.next s ev).filter fun _ => ev.isInside = true ∧
      ((∀ q, (s.proc q).pc.reading = false) ∨ ∀ q, (s.proc q).pc.holds = false)) State.unlinking
        (List.replicate 9 (.run 0) ++ List.replicate 4 (.run 1)) = some s ∧
      ∀ q, ∃ r, (s.proc q).pc = .done r := by
    refine ⟨_, rfl, fun q => ?_⟩
    match q with
    | 0 => exact ⟨_, rfl⟩
    | 1 => exact ⟨_, rfl⟩
  obtain ⟨s, hs, hdone⟩ := hexec
  have hrun : Runs (fun s ev s' => State.next s ev = some s' ∧ ev.isInside = true ∧ Alone s ev)
      State.unlinking
      (List.replicate 9 (Event.run 0) ++ List.replicate 4 (Event.run 1)).reverse s := by
    refine (runs_of_exec_guarded hs).mono fun s ev s' ⟨hnext, hin, hguard⟩ => ⟨hnext, hin, ?_⟩
    intro p i entries z k _ hpc _ _ _ q m
    rcases hguard with hread | hholds
    · exact nomatch (congrArg Pc.reading hpc).symm.trans (hread p)
    · exact ⟨fun hq => (nomatch (congrArg Pc.holds hq).symm.trans (hholds q)),
        fun hq => (nomatch (congrArg Pc.holds hq).symm.trans (hholds q))⟩
  exact ⟨_, s, hrun, hdone, (unlinked_once sharedEntry_unlinking hrun 0 hdone).2.2.1⟩

/-- Both calls find the entry before one of them clears it. Both succeed, the link count drops to
zero, and the inode is freed, although the entry "b" names it. -/
theorem unlinked_twice : ∃ es s,
    Runs (fun s ev s' => s.next ev = some s' ∧ ev.isInside = true) State.unlinking es s ∧
      (∀ q, (s.proc q).pc = .done (.ok 0)) ∧ (s.entry 1 1).inode = 2 ∧ s.imap 2 = false := by
  have hexec : ∃ s, exec (fun s ev => (State.next s ev).filter fun _ => ev.isInside = true)
      State.unlinking [.run 0, .run 1, .run 0, .run 1, .run 0, .run 0, .run 1, .run 0, .run 0,
        .run 0, .run 1, .run 1, .run 1, .run 1] = some s ∧
      (∀ q, (s.proc q).pc = .done (.ok 0)) ∧ (s.entry 1 1).inode = 2 ∧ s.imap 2 = false := by
    refine ⟨_, rfl, fun q => ?_, by decide, by decide⟩
    match q with
    | 0 => rfl
    | 1 => rfl
  obtain ⟨s, hs, hbad⟩ := hexec
  exact ⟨_, s, runs_of_exec_guarded hs, hbad⟩

end Linux001.Names
