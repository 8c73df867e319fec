import Linux001.Names.Processes

/-!
# What a process can do

The steps of a process, one constructor for each kind, with the position it starts from, what it
has found, and the state it leaves. The invariants of the model are derived from this list.

## Main definitions

* `NotHere`, `Denied`, `Gets`, `PutReady`: when some of the steps are taken.
* `Trans`: the steps of a process.

## Main results

* `State.run_trans`: every step of a process is in the list.
-/

namespace Linux001.Names

open Fs (Errno Result)

variable {n : ℕ} {s s' : State n} {p : Fin n}

/-- `find_entry` ends without an entry. -/
def NotHere (s : State n) (p : Fin n) : Prop :=
  (s.proc p).pc = .enter ∧ s.isDir (s.proc p).dir = true ∧
      (s.name p = [] ∧ s.isLast p = false ∨ s.zone (s.proc p).dir 0 = 0) ∨
    ∃ i entries, (s.proc p).pc = .find i entries ∧ entries ≤ i

/-- A check before `find_entry` fails. -/
def Denied (s : State n) (p : Fin n) : Prop :=
  (s.proc p).pc = .enter ∧
    (s.isDir (s.proc p).dir = false ∨ s.permission p (s.proc p).dir .exec = false ∨
      s.isLast p = true ∧ (s.name p = [] ∨
        (s.proc p).goal = .unlink ∧ s.permission p (s.proc p).dir .write = false))

/-- The call creates the file if `find_entry` finds no entry. -/
def Creates (s : State n) (p : Fin n) : Prop :=
  s.isLast p = true ∧ ∃ excl acc trunc, (s.proc p).goal = .openNamei true excl acc trunc

/-- `iget` gets a reference to the inode `m`, which changes it from `c` to `c'`. -/
def Gets (s : State n) (p : Fin n) (m : ℕ) (bh : Option (ℕ × ℕ)) (c c' : Core) : Prop :=
  s.core m = some c ∧
    ((s.proc p).pc = .iget m bh ∧ c.lock = false ∧ c' = { c with count := c.count + 1 } ∨
      (s.proc p).pc = .igetRead m bh ∧ c' = { c with lock := false })

/-- `iput` is about to test `i_nlinks` of the inode `m`, which is `c`. -/
def PutReady (s : State n) (p : Fin n) (m : ℕ) (a : After) (c : Core) : Prop :=
  (s.proc p).pc = .put m a ∧ s.core m = some c ∧ c.lock = false ∧ c.count = 1 ∨
    (s.proc p).pc = .putWrote m a ∧ ∃ c₀, s.core m = some c₀ ∧ c = { c₀ with lock := false }

/-- The steps of the process `p` that change no directory and no link. -/
inductive Calm (s : State n) (p : Fin n) : State n → Prop
  | denied {e : Errno} (h : Denied s p) : Calm s p (s.putDir p (.error e))
  | absent {e : Errno} (h : NotHere s p)
      (hgoal : Creates s p → s.permission p (s.proc p).dir .write = false) :
      Calm s p (s.putDir p (.error e))
  | create (h : NotHere s p) (hgoal : Creates s p) : Calm s p (s.setPc p .newInode)
  | itself (hpc : (s.proc p).pc = .enter) (hlast : s.isLast p = true)
      (hgoal : (s.proc p).goal = .namei ∨ ∃ excl, (s.proc p).goal = .openNamei false excl
        false false)
      (hname : s.name p = []) :
      Calm s p (s.keep p (s.proc p).dir (.done (.ok (s.proc p).dir)))
  | read {i entries z : ℕ} (hpc : (s.proc p).pc = .enter ∧ s.isDir (s.proc p).dir = true ∧ i = 0 ∧
        entries = s.size (s.proc p).dir ∧ (s.name p).take 14 ≠ [] ∨
        (s.proc p).pc = .find i entries ∧ i < entries)
      (hz : s.zone (s.proc p).dir (i / 64) = z) (hne : z ≠ 0) :
      Calm s p (s.setPc p (.findRead i entries z))
  | skip {i entries : ℕ} (hpc : (s.proc p).pc = .find i entries) (hi : i < entries)
      (hz : s.zone (s.proc p).dir (i / 64) = 0) : Calm s p (s.setPc p (.find (i + 64) entries))
  | pass {i entries z : ℕ} (hpc : (s.proc p).pc = .findRead i entries z)
      (hscan : s.scan p i entries z = none) : Calm s p (s.setPc p (.find (i + 64) entries))
  | eexist {m : ℕ} (hpc : (s.proc p).pc = .copied m) (hlast : s.isLast p = true)
      (hgoal : ∃ creat acc trunc, (s.proc p).goal = .openNamei creat true acc trunc) :
      Calm s p (s.putDir p (.error .EEXIST))
  | release {m : ℕ} (hpc : (s.proc p).pc = .copied m)
      (hgoal : ¬ (s.isLast p = true ∧
        ∃ creat acc trunc, (s.proc p).goal = .openNamei creat true acc trunc)) :
      Calm s p (s.setPc p (.put (s.proc p).dir (.iget m)))
  | load {m : ℕ} {bh : Option (ℕ × ℕ)} (hpc : (s.proc p).pc = .iget m bh)
      (hcore : s.core m = none) :
      Calm s p ((s.setCore m (some ⟨1, s.disk m, false, true⟩)).setPc p (.igetRead m bh))
  | irregular {m z k : ℕ} {c c' : Core} (hg : Gets s p m (some (z, k)) c c')
      (hdir : s.isDir m = true) :
      Calm s p ((s.setCore m (some c')).setPc p (.put m (.put (s.proc p).dir (.error .EPERM))))
  | walk {m : ℕ} {c c' : Core} (hg : Gets s p m none c c') (hlast : s.isLast p = false) :
      Calm s p { s.setCore m (some c') with
        proc := Function.update s.proc p
          { s.proc p with dir := m, names := (s.proc p).names.tail, pc := .enter } }
  | refuse {m : ℕ} {c c' : Core} (hg : Gets s p m none c c') (hlast : s.isLast p = true)
      (hgoal : ∃ creat excl acc trunc, (s.proc p).goal = .openNamei creat excl acc trunc) :
      Calm s p ((s.setCore m (some c')).setPc p (.put m (.ret (.error .EPERM))))
  | cut {m : ℕ} {c c' : Core} (hg : Gets s p m none c c') (hlast : s.isLast p = true)
      (hgoal : ∃ creat excl acc trunc, (s.proc p).goal = .openNamei creat excl acc trunc) :
      Calm s p ((s.setCore m (some c')).setPc p (.truncate m))
  | opened {m : ℕ} {c c' : Core} (hg : Gets s p m none c c') (hlast : s.isLast p = true)
      (hgoal : ∃ creat excl acc trunc, (s.proc p).goal = .openNamei creat excl acc trunc) :
      Calm s p ((s.setCore m (some c')).keep p m (.done (.ok m)))
  | looked {m : ℕ} {c c' : Core} (hg : Gets s p m none c c') (hlast : s.isLast p = true)
      (hgoal : ∀ creat excl acc trunc, (s.proc p).goal ≠ .openNamei creat excl acc trunc) :
      Calm s p ((s.setCore m (some { c' with dirt := true })).keep p m (.done (.ok m)))
  | truncated {m : ℕ} {c : Core} (hpc : (s.proc p).pc = .truncate m) (hcore : s.core m = some c) :
      Calm s p ((s.setCore m (some { c with dirt := true })).keep p m (.done (.ok m)))
  | full (hpc : (s.proc p).pc = .newInode) (hfresh : s.freshInode = none) :
      Calm s p (s.putDir p (.error .ENOSPC))
  | stored {m : ℕ} (hpc : (s.proc p).pc = .stored m) :
      Calm s p (s.keep p m (.put (s.proc p).dir (.ret (.ok m))))
  | drop {m : ℕ} {a : After} {c : Core}
      (h : (s.proc p).pc = .put m a ∧ s.core m = some c ∧ 1 < c.count ∨
        PutReady s p m a c ∧ c.nlinks ≠ 0 ∧ c.dirt = false) : Calm s p (s.drop p m c a)
  | putWrite {m : ℕ} {a : After} {c : Core} (h : PutReady s p m a c) (hlinks : c.nlinks ≠ 0) :
      Calm s p ((s.setCore m (some { c with lock := true })).setPc p (.putWrite m a))
  | putStore {m : ℕ} {a : After} {c : Core} (hpc : (s.proc p).pc = .putWrite m a)
      (hcore : s.core m = some c) :
      Calm s p ({ s.setCore m (some { c with dirt := false }) with
        disk := Function.update s.disk m c.nlinks }.setPc p (.putWrote m a))
  | destroy {m : ℕ} {a : After} {c : Core} (h : PutReady s p m a c) (hlinks : c.nlinks = 0) :
      Calm s p ((s.setCore m (some c)).setPc p (.putTruncate m a))

/-- The steps of the process `p`. -/
inductive Trans (s : State n) (p : Fin n) : State n → Prop
  | calm {t : State n} (h : Calm s p t) : Trans s p t
  | copy {i entries z k : ℕ} (hpc : (s.proc p).pc = .findRead i entries z)
      (hscan : s.scan p i entries z = some k)
      (hgoal : ¬ (s.isLast p = true ∧ (s.proc p).goal = .unlink)) :
      Trans s p (s.setPc p (.copied (s.de z k).inode))
  | hold {i entries z k : ℕ} (hpc : (s.proc p).pc = .findRead i entries z)
      (hscan : s.scan p i entries z = some k) (hlast : s.isLast p = true)
      (hgoal : (s.proc p).goal = .unlink) :
      Trans s p (s.setPc p (.iget (s.de z k).inode (some (z, k))))
  | clear {m z k : ℕ} {c c' : Core} (hg : Gets s p m (some (z, k)) c c')
      (hdir : s.isDir m = false) :
      Trans s p (((s.setCore m
        (some { c' with nlinks := if c.nlinks = 0 then 1 else c.nlinks })).setDe z k
          { s.de z k with inode := 0 }).setPc p (.cleared m))
  | unlinked {m : ℕ} {c : Core} (hpc : (s.proc p).pc = .cleared m) (hcore : s.core m = some c) :
      Trans s p ((s.setCore m
        (some { c with nlinks := (c.nlinks + 255) % 256, dirt := true })).setPc p
          (.put m (.put (s.proc p).dir (.ok 0))))
  | fresh {m : ℕ} (hpc : (s.proc p).pc = .newInode) (hfresh : s.freshInode = some m) :
      Trans s p ({ s.setCore m (some ⟨1, 1, true, false⟩) with
        imap := Function.update s.imap m true
        isDir := Function.update s.isDir m false }.setPc p (.add m 0))
  | addBlock {m i z : ℕ} (hpc : (s.proc p).pc = .add m i)
      (hz : s.zone (s.proc p).dir (i / 64) = z) (hne : z ≠ 0) :
      Trans s p (s.setPc p (.addRead m i z))
  | addFailed {m i : ℕ} {c : Core} (hpc : (s.proc p).pc = .add m i) (hcore : s.core m = some c) :
      Trans s p ((s.setCore m (some { c with nlinks := (c.nlinks + 255) % 256 })).setPc p
        (.put m (.put (s.proc p).dir (.error .ENOSPC))))
  | alloc {m i z : ℕ} (hpc : (s.proc p).pc = .add m i)
      (hz : s.zone (s.proc p).dir (i / 64) = 0) (hfresh : s.freshZone = some z) :
      Trans s p ({ s with zmap := Function.update s.zmap z true }.setPc p (.addNew m i z))
  | addNew {m i z : ℕ} (hpc : (s.proc p).pc = .addNew m i z) : Trans s p (s.addNew p m i z)
  | addNext {m i z : ℕ} (hpc : (s.proc p).pc = .addRead m i z)
      (hscan : s.scanFree p i z = none) : Trans s p (s.setPc p (.add m (i + 64)))
  | store {m i z k : ℕ} (hpc : (s.proc p).pc = .addRead m i z)
      (hscan : s.scanFree p i z = some k) : Trans s p (s.addRead p m i z)
  | free {m : ℕ} {a : After} {c : Core} (hpc : (s.proc p).pc = .putTruncate m a)
      (hcore : s.core m = some c) (hcount : c.count ≤ 1) (hlinks : c.nlinks = 0)
      (himap : s.imap m = true) :
      Trans s p ({ s.setCore m none with imap := Function.update s.imap m false }.goto p a)

/-! ### Every step is in the list -/

namespace State

theorem notFound_trans (h : NotHere s p) : Trans s p (s.notFound p) := by
  unfold notFound
  split
  · rename_i hlast
    split
    · rename_i creat excl acc trunc hgoal
      cases creat with
      | false =>
        simp only [Bool.not_false, if_true]
        exact .calm (.absent h fun ⟨_, _, _, _, hc⟩ => nomatch hgoal.symm.trans hc)
      | true =>
        simp only [Bool.not_true, Bool.false_eq_true, if_false]
        split
        · exact .calm (.absent h fun _ => by simpa using ‹(!_) = true›)
        · exact .calm (.create h ⟨hlast, excl, acc, trunc, hgoal⟩)
    · rename_i hgoal
      exact .calm (.absent h fun ⟨_, excl, acc, trunc, hc⟩ => absurd hc (hgoal true excl acc trunc))
  · rename_i hlast
    exact .calm (.absent h fun ⟨hc, _⟩ => absurd hc hlast)

theorem findEntry_trans (hpc : (s.proc p).pc = .enter) (hdir : s.isDir (s.proc p).dir = true)
    (hname : s.name p = [] → s.isLast p = false) : Trans s p (s.findEntry p) := by
  unfold findEntry
  simp only
  split
  · rename_i hno
    refine notFound_trans (.inl ⟨hpc, hdir, hno.imp_left fun h => ?_⟩)
    have hnil : s.name p = [] := by simpa using h
    exact ⟨hnil, hname hnil⟩
  · rename_i hne
    obtain ⟨hname, hz⟩ := not_or.mp hne
    exact .calm (.read (.inl ⟨hpc, hdir, rfl, rfl, hname⟩) rfl hz)

theorem enter_trans (hpc : (s.proc p).pc = .enter) : Trans s p (s.enter p) := by
  unfold enter
  simp only
  split
  · rename_i h
    refine .calm (.denied ⟨hpc, ?_⟩)
    rcases Bool.or_eq_true_iff.mp h with h | h
    · exact .inl (by simpa using h)
    · exact .inr (.inl (by simpa using h))
  · rename_i hno
    have hdir : s.isDir (s.proc p).dir = true := by
      simp only [Bool.or_eq_true, not_or, Bool.not_eq_true'] at hno
      simpa using hno.1
    split
    · rename_i hlast
      exact findEntry_trans hpc hdir fun _ => by simpa using hlast
    · rename_i hlast
      have hlast : s.isLast p = true := by simpa using hlast
      split
      · rename_i hgoal
        split
        · exact .calm (.itself hpc hlast (.inl hgoal) ‹_›)
        · exact findEntry_trans hpc hdir fun h => absurd h ‹_›
      · rename_i hgoal
        split
        · exact .calm (.denied ⟨hpc, .inr (.inr ⟨hlast, .inl ‹_›⟩)⟩)
        · split
          · rename_i h
            exact .calm (.denied ⟨hpc, .inr (.inr ⟨hlast, .inr ⟨hgoal, by simpa using h⟩⟩)⟩)
          · exact findEntry_trans hpc hdir fun h => absurd h ‹_›
      · rename_i hgoal
        split
        · rename_i hname
          split
          · rename_i excl _ _ hflags
            simp only [Bool.and_eq_true, Bool.not_eq_true'] at hflags
            obtain ⟨⟨rfl, rfl⟩, rfl⟩ := hflags
            exact .calm (.itself hpc hlast (.inr ⟨excl, hgoal⟩) hname)
          · exact .calm (.denied ⟨hpc, .inr (.inr ⟨hlast, .inl hname⟩)⟩)
        · exact findEntry_trans hpc hdir fun h => absurd h ‹_›

theorem unlink_trans {m z k : ℕ} {c c' : Core} (hg : Gets s p m (some (z, k)) c c')
    (h : (s.setCore m (some c')).unlink p m z k = some s') : Trans s p s' := by
  have hlinks : c'.nlinks = c.nlinks := by
    obtain ⟨-, ⟨-, -, rfl⟩ | ⟨-, rfl⟩⟩ := hg <;> rfl
  unfold unlink at h
  split at h
  · cases h
    exact .calm (.irregular hg ‹_›)
  · rename_i hdir
    simp only [setCore, Function.update_self, Option.map_some, Option.some.injEq, hlinks,
      Function.update_idem] at h
    subst h
    exact .clear hg (eq_false_of_ne_true hdir)

theorem got_trans {m : ℕ} {bh : Option (ℕ × ℕ)} {c c' : Core} (hg : Gets s p m bh c c')
    (h : (s.setCore m (some c')).got p m bh = some s') : Trans s p s' := by
  cases bh with
  | some e => exact unlink_trans hg h
  | none =>
    simp only [got] at h
    split at h
    · rename_i hlast
      have hlast : s.isLast p = false := Bool.not_eq_true' _ ▸ hlast
      cases h
      exact .calm (.walk hg hlast)
    · rename_i hlast
      have hlast : s.isLast p = true := by
        have hnot : ¬ (!s.isLast p) = true := hlast
        simpa using hnot
      split at h
      · rename_i creat excl acc trunc hgoal
        split at h
        · cases h
          exact .calm (.refuse hg hlast ⟨creat, excl, acc, trunc, hgoal⟩)
        · split at h
          · cases h
            exact .calm (.cut hg hlast ⟨creat, excl, acc, trunc, hgoal⟩)
          · cases h
            exact .calm (.opened hg hlast ⟨creat, excl, acc, trunc, hgoal⟩)
      · rename_i hgoal
        simp only [setCore, Function.update_self, Option.map_some, Option.some.injEq,
          Function.update_idem] at h
        subst h
        exact .calm (.looked hg hlast hgoal)

theorem iget_trans {m : ℕ} {bh : Option (ℕ × ℕ)} (hpc : (s.proc p).pc = .iget m bh)
    (h : s.iget p m bh = some s') : Trans s p s' := by
  unfold iget at h
  split at h
  · rename_i c hc
    split at h
    · cases h
    · rename_i hlock
      exact got_trans ⟨hc, .inl ⟨hpc, by simpa using hlock, rfl⟩⟩ h
  · rename_i hc
    cases h
    exact .calm (.load hpc hc)

theorem addFailed_trans {m i : ℕ} (hpc : (s.proc p).pc = .add m i)
    (h : s.addFailed p m = some s') : Trans s p s' := by
  obtain ⟨c, hc, rfl⟩ := Option.map_eq_some_iff.mp h
  exact .addFailed hpc hc

theorem add_trans {m i : ℕ} (hpc : (s.proc p).pc = .add m i) (h : s.add p m i = some s') :
    Trans s p s' := by
  unfold add at h
  simp only at h
  split at h
  · cases h
    exact .addBlock hpc rfl ‹_›
  · rename_i hz
    split at h
    · exact addFailed_trans hpc h
    · split at h
      · exact addFailed_trans hpc h
      · cases h
        exact .alloc hpc (not_not.mp hz) ‹_›

theorem putRepeat_trans {m : ℕ} {a : After} {c : Core} (h : PutReady s p m a c) :
    Trans s p (s.putRepeat p m c a) := by
  unfold putRepeat
  split
  · exact .calm (.destroy h ‹_›)
  · rename_i hlinks
    split
    · exact .calm (.putWrite h hlinks)
    · rename_i hdirt
      exact .calm (.drop (.inr ⟨h, hlinks, eq_false_of_ne_true hdirt⟩))

theorem put_trans {m : ℕ} {a : After} (hpc : (s.proc p).pc = .put m a)
    (h : s.put p m a = some s') : Trans s p s' := by
  obtain ⟨c, hc, h⟩ := Option.bind_eq_some_iff.mp h
  split at h
  · cases h
  · rename_i hno
    obtain ⟨hlock, hcount⟩ := not_or.mp hno
    split at h
    · cases h
      exact .calm (.drop (.inl ⟨hpc, hc, ‹_›⟩))
    · cases h
      exact putRepeat_trans (.inl ⟨hpc, hc, by simpa using hlock, by omega⟩)

/-- Every step of a process is in the list. -/
theorem run_trans (h : s.run p = some s') : Trans s p s' := by
  unfold run at h
  cases hpc : (s.proc p).pc with
  | idle | done r =>
    rw [hpc] at h
    cases h
  | enter =>
    rw [hpc] at h
    cases h
    exact enter_trans hpc
  | find i entries =>
    rw [hpc] at h
    simp only at h
    split at h
    · cases h
      exact notFound_trans (.inr ⟨i, entries, hpc, ‹_›⟩)
    · rename_i hi
      split at h
      · cases h
        exact .calm (.skip hpc (by omega) ‹_›)
      · cases h
        exact .calm (.read (.inr ⟨hpc, by omega⟩) rfl ‹_›)
  | findRead i entries z =>
    rw [hpc] at h
    simp only at h
    split at h
    · cases h
      exact .calm (.pass hpc ‹_›)
    · rename_i k hk
      cases h
      unfold found
      split
      · rename_i hcond
        simp only [Bool.and_eq_true, decide_eq_true_eq] at hcond
        exact .hold hpc hk hcond.1 hcond.2
      · rename_i hcond
        exact .copy hpc hk (by simpa using hcond)
  | copied m =>
    rw [hpc] at h
    simp only at h
    split at h
    · rename_i creat acc trunc hgoal hlast
      cases h
      exact .calm (.eexist hpc hlast ⟨creat, acc, trunc, hgoal⟩)
    · rename_i hno
      cases h
      refine .calm (.release hpc ?_)
      rintro ⟨hlast, creat, acc, trunc, hgoal⟩
      exact hno creat acc trunc hgoal hlast
  | iget m bh =>
    rw [hpc] at h
    exact iget_trans hpc h
  | igetRead m bh =>
    rw [hpc] at h
    obtain ⟨c, hc, h⟩ := Option.bind_eq_some_iff.mp h
    exact got_trans ⟨hc, .inr ⟨hpc, rfl⟩⟩ h
  | cleared m =>
    rw [hpc] at h
    obtain ⟨c, hc, rfl⟩ := Option.map_eq_some_iff.mp h
    exact .unlinked hpc hc
  | truncate m =>
    rw [hpc] at h
    obtain ⟨c, hc, rfl⟩ := Option.map_eq_some_iff.mp h
    exact .calm (.truncated hpc hc)
  | newInode =>
    rw [hpc] at h
    cases h
    unfold newInode
    split
    · exact .calm (.full hpc ‹_›)
    · exact .fresh hpc ‹_›
  | add m i =>
    rw [hpc] at h
    exact add_trans hpc h
  | addNew m i z =>
    rw [hpc] at h
    cases h
    exact .addNew hpc
  | addRead m i z =>
    rw [hpc] at h
    cases h
    cases hscan : s.scanFree p i z with
    | none =>
      have heq : s.addRead p m i z = s.setPc p (.add m (i + 64)) := by
        unfold addRead
        rw [hscan]
      rw [heq]
      exact .addNext hpc hscan
    | some k => exact .store hpc hscan
  | stored m =>
    rw [hpc] at h
    cases h
    exact .calm (.stored hpc)
  | put m a =>
    rw [hpc] at h
    exact put_trans hpc h
  | putWrite m a =>
    rw [hpc] at h
    obtain ⟨c, hc, rfl⟩ := Option.map_eq_some_iff.mp h
    exact .calm (.putStore hpc hc)
  | putWrote m a =>
    rw [hpc] at h
    obtain ⟨c, hc, rfl⟩ := Option.map_eq_some_iff.mp h
    exact putRepeat_trans (.inr ⟨hpc, c, hc, rfl⟩)
  | putTruncate m a =>
    rw [hpc] at h
    obtain ⟨c, hc, h⟩ := Option.bind_eq_some_iff.mp h
    split at h
    · cases h
    · rename_i hno
      simp only [not_or, not_not, Bool.not_eq_false] at hno
      cases h
      exact .free hpc hc (by omega) hno.2.1 hno.2.2

end State

/-! ### The other events -/

namespace State

theorem of_call {goal : Goal} {m : ℕ} {names : List Name} (h : s.call p goal m names = some s') :
    s.outside p = true ∧ names ≠ [] ∧ ∃ c, s.core m = some c ∧ c.count ≠ 0 ∧
      s' = { s.setCore m (some { c with count := c.count + 1 }) with
        proc := Function.update s.proc p ⟨goal, m, names, .enter, (s.proc p).held⟩ } := by
  unfold call at h
  split at h
  · cases h
  · rename_i hno
    obtain ⟨hout, hnames⟩ := not_or.mp hno
    obtain ⟨c, hc, h⟩ := Option.bind_eq_some_iff.mp h
    split at h
    · cases h
    · cases h
      exact ⟨by simpa using hout, hnames, c, hc, ‹_›, rfl⟩

theorem of_close {m : ℕ} (h : s.close p m = some s') :
    s.outside p = true ∧ m ∈ (s.proc p).held ∧
      s' = { s with proc := Function.update s.proc p { s.proc p with
        pc := .put m (.ret (.ok 0)), held := (s.proc p).held.erase m } } := by
  unfold close at h
  split at h
  · rename_i hcond
    cases h
    exact ⟨hcond.1, hcond.2, rfl⟩
  · cases h

theorem of_flush {m : ℕ} (h : s.flush m = some s') :
    ∃ c, s.core m = some c ∧ c.lock = false ∧
      s' = { s.setCore m (some { c with dirt := false }) with
        disk := Function.update s.disk m c.nlinks } := by
  obtain ⟨c, hc, h⟩ := Option.bind_eq_some_iff.mp h
  split at h
  · cases h
  · cases h
    exact ⟨c, hc, by simpa using ‹¬ c.lock = true›, rfl⟩

theorem of_evict {m : ℕ} (h : s.evict m = some s') :
    ∃ c, s.core m = some c ∧ c.dirt = false ∧ c.count = 0 ∧ s' = s.setCore m none := by
  obtain ⟨c, hc, h⟩ := Option.bind_eq_some_iff.mp h
  split at h
  · cases h
  · rename_i hno
    simp only [not_or, Bool.not_eq_true, not_not] at hno
    cases h
    exact ⟨c, hc, hno.2.1, hno.2.2, rfl⟩

/-- The process is outside of the calls of the model at two positions only. -/
theorem outside_pc (h : s.outside p = true) :
    (s.proc p).pc = .idle ∨ ∃ r, (s.proc p).pc = .done r := by
  unfold outside at h
  cases hpc : (s.proc p).pc with
  | idle => exact .inl rfl
  | done r => exact .inr ⟨r, rfl⟩
  | _ =>
    rw [hpc] at h
    cases h

end State

/-! ### The state after a step -/

/-- Where a process is after an `iput`. -/
def After.pc : After → Pc
  | .ret r => .done r
  | .iget m => .iget m none
  | .put m r => .put m (.ret r)

namespace State

variable (s p)

theorem goto_eq (a : After) : s.goto p a = s.setPc p a.pc := by
  cases a <;> rfl

@[simp] theorem setPc_proc_self (pc : Pc) :
    (s.setPc p pc).proc p = { s.proc p with pc := pc } := Function.update_self ..

@[simp] theorem setPc_zone (pc : Pc) : (s.setPc p pc).zone = s.zone := rfl
@[simp] theorem setPc_size (pc : Pc) : (s.setPc p pc).size = s.size := rfl
@[simp] theorem setPc_de (pc : Pc) : (s.setPc p pc).de = s.de := rfl
@[simp] theorem setPc_zmap (pc : Pc) : (s.setPc p pc).zmap = s.zmap := rfl
@[simp] theorem setPc_isDir (pc : Pc) : (s.setPc p pc).isDir = s.isDir := rfl
@[simp] theorem setPc_core (pc : Pc) : (s.setPc p pc).core = s.core := rfl
@[simp] theorem setPc_disk (pc : Pc) : (s.setPc p pc).disk = s.disk := rfl
@[simp] theorem setPc_imap (pc : Pc) : (s.setPc p pc).imap = s.imap := rfl

@[simp] theorem keep_proc_self (m : ℕ) (pc : Pc) :
    (s.keep p m pc).proc p = { s.proc p with pc := pc, held := m :: (s.proc p).held } :=
  Function.update_self ..

@[simp] theorem keep_zone (m : ℕ) (pc : Pc) : (s.keep p m pc).zone = s.zone := rfl
@[simp] theorem keep_size (m : ℕ) (pc : Pc) : (s.keep p m pc).size = s.size := rfl
@[simp] theorem keep_de (m : ℕ) (pc : Pc) : (s.keep p m pc).de = s.de := rfl
@[simp] theorem keep_zmap (m : ℕ) (pc : Pc) : (s.keep p m pc).zmap = s.zmap := rfl
@[simp] theorem keep_isDir (m : ℕ) (pc : Pc) : (s.keep p m pc).isDir = s.isDir := rfl
@[simp] theorem keep_core (m : ℕ) (pc : Pc) : (s.keep p m pc).core = s.core := rfl
@[simp] theorem keep_disk (m : ℕ) (pc : Pc) : (s.keep p m pc).disk = s.disk := rfl
@[simp] theorem keep_imap (m : ℕ) (pc : Pc) : (s.keep p m pc).imap = s.imap := rfl

@[simp] theorem setCore_core (m : ℕ) (c : Option Core) :
    (s.setCore m c).core = Function.update s.core m c := rfl

@[simp] theorem setCore_proc (m : ℕ) (c : Option Core) : (s.setCore m c).proc = s.proc := rfl
@[simp] theorem setCore_zone (m : ℕ) (c : Option Core) : (s.setCore m c).zone = s.zone := rfl
@[simp] theorem setCore_size (m : ℕ) (c : Option Core) : (s.setCore m c).size = s.size := rfl
@[simp] theorem setCore_de (m : ℕ) (c : Option Core) : (s.setCore m c).de = s.de := rfl
@[simp] theorem setCore_zmap (m : ℕ) (c : Option Core) : (s.setCore m c).zmap = s.zmap := rfl
@[simp] theorem setCore_isDir (m : ℕ) (c : Option Core) : (s.setCore m c).isDir = s.isDir := rfl
@[simp] theorem setCore_disk (m : ℕ) (c : Option Core) : (s.setCore m c).disk = s.disk := rfl
@[simp] theorem setCore_imap (m : ℕ) (c : Option Core) : (s.setCore m c).imap = s.imap := rfl

@[simp] theorem setDe_de (z k : ℕ) (e : Entry) :
    (s.setDe z k e).de = Function.update s.de z (Function.update (s.de z) k e) := rfl

theorem update_entry {β : Type*} (f : ℕ → ℕ → β) (z k : ℕ) (e : β) (x y : ℕ) :
    Function.update f z (Function.update (f z) k e) x y = if x = z ∧ y = k then e else f x y := by
  by_cases hx : x = z
  · subst hx
    rw [Function.update_self, Function.update_apply]
    exact if_congr (by simp) rfl rfl
  · rw [Function.update_of_ne hx, if_neg fun h => hx h.1]

@[simp] theorem setDe_proc (z k : ℕ) (e : Entry) : (s.setDe z k e).proc = s.proc := rfl
@[simp] theorem setDe_zone (z k : ℕ) (e : Entry) : (s.setDe z k e).zone = s.zone := rfl
@[simp] theorem setDe_size (z k : ℕ) (e : Entry) : (s.setDe z k e).size = s.size := rfl
@[simp] theorem setDe_zmap (z k : ℕ) (e : Entry) : (s.setDe z k e).zmap = s.zmap := rfl
@[simp] theorem setDe_isDir (z k : ℕ) (e : Entry) : (s.setDe z k e).isDir = s.isDir := rfl
@[simp] theorem setDe_core (z k : ℕ) (e : Entry) : (s.setDe z k e).core = s.core := rfl
@[simp] theorem setDe_disk (z k : ℕ) (e : Entry) : (s.setDe z k e).disk = s.disk := rfl
@[simp] theorem setDe_imap (z k : ℕ) (e : Entry) : (s.setDe z k e).imap = s.imap := rfl

variable {s p}

/-- The state after an entry has been stored. -/
structure Stored (s : State n) (p : Fin n) (m i z k : ℕ) (s' : State n) : Prop where
  de : s'.de = Function.update s.de z
    (Function.update (s.de z) k ⟨m, pad ((s.name p).take 14)⟩)
  size : s'.size = if s.size (s.proc p).dir ≤ i + k then
    Function.update s.size (s.proc p).dir (i + k + 1) else s.size
  core : s'.core = if s.size (s.proc p).dir ≤ i + k then
    Function.update s.core (s.proc p).dir
      ((s.core (s.proc p).dir).map fun c => { c with dirt := true }) else s.core
  proc : s'.proc = Function.update s.proc p { s.proc p with pc := .stored m }
  zone : s'.zone = s.zone
  zmap : s'.zmap = s.zmap
  isDir : s'.isDir = s.isDir
  disk : s'.disk = s.disk
  imap : s'.imap = s.imap
  nzones : s'.nzones = s.nzones
  ninodes : s'.ninodes = s.ninodes
  may : s'.may = s.may

theorem addRead_stored {m i z k : ℕ} (hscan : s.scanFree p i z = some k) :
    Stored s p m i z k (s.addRead p m i z) := by
  unfold addRead
  rw [hscan]
  by_cases hsize : s.size (s.proc p).dir ≤ i + k
  · simp only [hsize, if_true]
    exact ⟨rfl, (if_pos hsize).symm, (if_pos hsize).symm, rfl, rfl, rfl, rfl, rfl, rfl,
      rfl, rfl, rfl⟩
  · simp only [hsize, if_false]
    exact ⟨rfl, (if_neg hsize).symm, (if_neg hsize).symm, rfl, rfl, rfl, rfl, rfl, rfl,
      rfl, rfl, rfl⟩

end State

end Linux001.Names
