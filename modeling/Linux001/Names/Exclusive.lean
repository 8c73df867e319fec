import Linux001.Names.Paths

/-!
# Exclusive creation

Several processes open the same path with `O_CREAT | O_EXCL`. `open_namei` looks for the name,
sleeps in `new_inode` and in `add_entry`, and stores its entry without looking for the name again.
When an entry is stored while no other process has missed it, one call succeeds and the names of
every directory stay distinct.

## Main definitions

* `Exclusive`: the calls, and the directories in the beginning.
* `Pc.misses`: a process will not see an entry that is stored now.
* `Seen`: no entry is stored while another process misses it.
* `Looking`: a process that has not created the file.
* `NotStored`, `StoredAt`: the invariants before and after the entry has been stored.

## Main results

* `created_once`: at most one call succeeds, and the names of a directory are distinct.
* `created_twice`: two calls succeed, and a directory has two entries with the same name.
-/

namespace Linux001.Names

open Fs (Errno Result)

variable {n : ℕ} {s₀ s s' : State n} {p : Fin n} {root : ℕ} {path : List Name}

/-- The directories, and the names left to look up in them, on the walk of a path. -/
inductive Walked (s : State n) (root : ℕ) (path : List Name) : List Name → ℕ → Prop
  | start : Walked s root path path root
  | step {a b : Name} {names : List Name} {d i : ℕ} (h : Walked s root path (a :: b :: names) d)
      (hdir : s.isDir d = true) (hmatch : s.MatchAt d a i) :
      Walked s root path (b :: names) (s.entry d i).inode

/-- All processes have called `open` with `O_CREAT | O_EXCL` and the same path. Every directory has
a first block, no block is in two places, and no name matches two entries of a directory. -/
structure Exclusive (s : State n) (root : ℕ) (path : List Name) : Prop where
  goal : ∀ p, ∃ acc trunc, (s.proc p).goal = .openNamei true true acc trunc
  proc : ∀ p, (s.proc p).dir = root ∧ (s.proc p).names = path ∧ (s.proc p).pc = .enter
  root_ne : root ≠ 0
  path_ne : path ≠ []
  imap_zero : s.imap 0 = true
  zmap_zero : s.zmap 0 = true
  first : ∀ d, s.isDir d = true → s.zone d 0 ≠ 0
  zmap : ∀ d j, s.isDir d = true → s.zone d j ≠ 0 → s.zmap (s.zone d j) = true
  inj : ∀ d j d' j', s.isDir d = true → s.isDir d' = true → s.zone d j ≠ 0 →
    s.zone d j = s.zone d' j' → d = d' ∧ j = j'
  distinct : ∀ d name i j, s.isDir d = true → s.MatchAt d name i → s.MatchAt d name j → i = j

/-- A process at this position does not see an entry that is now stored as the entry `i` of its
directory, in the zone `z`. -/
def Pc.misses (i z : ℕ) : Pc → Prop
  | .newInode | .add _ _ | .addNew _ _ _ | .addRead _ _ _ => True
  | .find j entries => i < j ∨ entries ≤ i
  | .findRead j entries z' => i < j ∨ entries ≤ i ∨ j / 64 = i / 64 ∧ z' ≠ z
  | _ => False

/-- No entry is stored while another process that looks for the same name misses it. -/
def Seen (s : State n) (ev : Event n) : Prop :=
  ∀ p m i z k, ev = .run p → (s.proc p).pc = .addRead m i z → s.scanFree p i z = some k →
    ∀ q ≠ p, (s.proc q).dir = (s.proc p).dir → (s.proc q).names = (s.proc p).names →
      ¬ (s.proc q).pc.misses (i + k) z

/-- The names of the entries of a directory are distinct. -/
def NamesDistinct (s : State n) : Prop :=
  ∀ d i j, s.isDir d = true → i < s.size d → j < s.size d → s.zone d (i / 64) ≠ 0 →
    s.zone d (j / 64) ≠ 0 → (s.entry d i).inode ≠ 0 → (s.entry d j).inode ≠ 0 →
      (s.entry d i).name = (s.entry d j).name → i = j

/-! ### The walk -/

namespace Walked

theorem length_le {names : List Name} {d : ℕ} (h : Walked s root path names d) :
    names.length ≤ path.length := by
  induction h with
  | start => exact le_rfl
  | step _ _ _ ih => exact (Nat.le_succ _).trans ih

theorem ne_nil (hpath : path ≠ []) {names : List Name} {d : ℕ} (h : Walked s root path names d) :
    names ≠ [] := by
  cases h with
  | start => exact hpath
  | step => exact List.cons_ne_nil _ _

theorem dir_ne (hroot : root ≠ 0) {names : List Name} {d : ℕ} (h : Walked s root path names d) :
    d ≠ 0 := by
  cases h with
  | start => exact hroot
  | step _ _ hmatch => exact hmatch.2.2.1

/-- The walk is determined by the number of the names left. -/
theorem unique (hs : Exclusive s root path) {names names' : List Name} {d d' : ℕ}
    (h : Walked s root path names d) (h' : Walked s root path names' d')
    (hlen : names.length = names'.length) : names = names' ∧ d = d' := by
  induction h generalizing names' d' with
  | start =>
    cases h' with
    | start => exact ⟨rfl, rfl⟩
    | step h' => exact absurd (h'.length_le) (by simp only [List.length_cons] at hlen ⊢; omega)
  | @step a b names d i h hdir hmatch ih =>
    cases h' with
    | start => exact absurd (h.length_le) (by simp only [List.length_cons] at hlen ⊢; omega)
    | @step a' b' names' d' i' h' hdir' hmatch' =>
      obtain ⟨hnames, rfl⟩ := ih h' (by simp only [List.length_cons] at hlen ⊢; omega)
      obtain ⟨rfl, hrest⟩ := List.cons.inj hnames
      rw [hs.distinct d a i i' hdir hmatch hmatch']
      exact ⟨hrest, rfl⟩

end Walked

/-! ### Where the processes are -/

/-- A directory that is on the walk, or an inode that is not a directory. -/
def Good (s₀ s : State n) (root : ℕ) (path names : List Name) (m : ℕ) : Prop :=
  names ≠ [] ∧ m ≠ 0 ∧ (Walked s₀ root path names m ∨ s.isDir m = false)

/-- What is known about the last name after the entries below `i` have been looked at; `st` is the
index of the entry that has been stored, if any. -/
def Looked (s₀ : State n) (d : ℕ) (name : Name) (i entries : ℕ) : Option ℕ → Prop
  | none => entries = s₀.size d ∧ ∀ j < i, ¬ s₀.MatchAt d name j
  | some idx => i ≤ idx ∧ idx < entries

/-- The process is in `find_entry` before the entry `i`. -/
structure Looks (s₀ s : State n) (root : ℕ) (path : List Name) (st : Option ℕ) (d : ℕ)
    (names : List Name) (i entries : ℕ) : Prop where
  walked : Walked s₀ root path names d
  isDir : s₀.isDir d = true
  mod : i % 64 = 0
  le : entries ≤ s.size d
  last : names.tail = [] → Looked s₀ d (names.headD []) i entries st

/-- The process reads the zone `z` as the block of entry `i`. -/
structure Reads (s₀ s : State n) (root : ℕ) (path : List Name) (st : Option ℕ) (d : ℕ)
    (names : List Name) (i entries z : ℕ) : Prop extends
    Looks s₀ s root path st d names i entries where
  good : ∀ k < 64, i + k < entries → Matches ((names.headD []).take 14) (s.de z k) →
    names.tail ≠ [] → Good s₀ s root path names.tail (s.de z k).inode
  block : names.tail = [] → match st with
    | none => z = s₀.zone d (i / 64) ∨ s₀.zone d (i / 64) = 0
    | some idx => i / 64 = idx / 64 → z = s.zone d (idx / 64)

/-- The process has not found the name, and will create the file. -/
structure Window (s₀ : State n) (root : ℕ) (path : List Name) (st : Option ℕ) (d : ℕ)
    (names : List Name) : Prop where
  unstored : st = none
  walked : Walked s₀ root path names d
  isDir : s₀.isDir d = true
  last : names.tail = []
  absent : ∀ j, ¬ s₀.MatchAt d (names.headD []) j

/-- The process looks for a place for the entry of the inode `m`. -/
structure Adds (s₀ s : State n) (root : ℕ) (path : List Name) (st : Option ℕ) (d : ℕ)
    (names : List Name) (m i : ℕ) : Prop extends Window s₀ root path st d names where
  ne : m ≠ 0
  regular : s.isDir m = false
  mod : i % 64 = 0
  le : i ≤ s.size d

/-- What follows an `iput` in a call that has not created the file. -/
def Onward (s₀ s : State n) (root : ℕ) (path names : List Name) : After → Prop
  | .iget m => Good s₀ s root path names.tail m
  | .ret r => ∃ e, r = .error e
  | .put m r => m ≠ 0 ∧ ∃ e, r = .error e

/-- The process has not created the file. -/
def Looking (s₀ s : State n) (root : ℕ) (path : List Name) (st : Option ℕ) (d : ℕ)
    (names : List Name) : Pc → Prop
  | .enter => Good s₀ s root path names d
  | .find i entries => Looks s₀ s root path st d names i entries
  | .findRead i entries z => Reads s₀ s root path st d names i entries z
  | .copied m => d ≠ 0 ∧ (names.tail ≠ [] → Good s₀ s root path names.tail m)
  | .iget m none | .igetRead m none => Good s₀ s root path names.tail m
  | .newInode => Window s₀ root path st d names
  | .add m i => Adds s₀ s root path st d names m i
  | .addNew m i _ => Adds s₀ s root path st d names m i ∧ s₀.zone d (i / 64) = 0
  | .addRead m i z => Adds s₀ s root path st d names m i ∧ z ≠ 0 ∧
      (z = s₀.zone d (i / 64) ∨ s₀.zone d (i / 64) = 0 ∧ ∀ k, (s.de z k).inode = 0)
  | .put m a | .putWrite m a | .putWrote m a | .putTruncate m a =>
      m ≠ 0 ∧ Onward s₀ s root path names a
  | .done r => ∃ e, r = .error e
  | _ => False

/-- The call of the process has not created the file. -/
def Opens (s₀ s : State n) (root : ℕ) (path : List Name) (st : Option ℕ) (q : Proc) : Prop :=
  (∃ acc trunc, q.goal = .openNamei true true acc trunc) ∧
    Looking s₀ s root path st q.dir q.names q.pc

/-! ### Changes by other processes -/

section Mono

variable {st : Option ℕ} {d : ℕ} {names : List Name} {pc : Pc}
  (hisDir : ∀ d, s'.isDir d = true → s.isDir d = true)

include hisDir

theorem Good.mono {m : ℕ} (h : Good s₀ s root path names m) : Good s₀ s' root path names m := by
  refine ⟨h.1, h.2.1, h.2.2.imp_right fun hfalse => ?_⟩
  by_contra hne
  rw [hisDir m (by simpa using hne)] at hfalse
  cases hfalse

theorem Onward.mono {a : After} (h : Onward s₀ s root path names a) :
    Onward s₀ s' root path names a := by
  cases a with
  | iget m => exact Good.mono hisDir h
  | ret r => exact h
  | put m r => exact h

variable (hsize : ∀ d, s.size d ≤ s'.size d)

include hsize

theorem Adds.mono {m i : ℕ} (h : Adds s₀ s root path st d names m i) :
    Adds s₀ s' root path st d names m i := by
  refine { h with regular := ?_, le := h.le.trans (hsize d) }
  by_contra hne
  have hdir := hisDir m (by simpa using hne)
  rw [h.regular] at hdir
  cases hdir

variable (hzone : st ≠ none → s'.zone = s.zone)
  (hde : ∀ z k, s'.de z k = s.de z k ∨ (s'.de z k).inode = 0)

include hzone hde

/-- A process is where it was after a step of another one that stores no entry. -/
theorem Looking.mono (h : Looking s₀ s root path st d names pc) :
    Looking s₀ s' root path st d names pc := by
  cases pc with
  | enter => exact Good.mono hisDir h
  | find i entries => exact { h with le := h.le.trans (hsize d) }
  | findRead i entries z =>
    refine { h with le := h.le.trans (hsize d), good := fun k hk hi hm htail => ?_, block := ?_ }
    · rcases hde z k with hsame | hzero
      · rw [hsame] at hm ⊢
        exact (h.good k hk hi hm htail).mono hisDir
      · exact absurd hzero hm.1
    · intro htail
      have hblock := h.block htail
      cases st with
      | none => exact hblock
      | some idx => rwa [hzone (Option.some_ne_none idx)]
  | copied m => exact ⟨h.1, fun htail => (h.2 htail).mono hisDir⟩
  | iget m bh | igetRead m bh =>
    cases bh with
    | none => exact Good.mono hisDir h
    | some x => exact h.elim
  | newInode => exact h
  | add m i => exact Adds.mono hisDir hsize h
  | addNew m i z => exact ⟨h.1.mono hisDir hsize, h.2⟩
  | addRead m i z =>
    refine ⟨h.1.mono hisDir hsize, h.2.1, h.2.2.imp_right fun ⟨hz, hzero⟩ => ⟨hz, fun k => ?_⟩⟩
    rcases hde z k with hsame | hzero'
    · rw [hsame, hzero k]
    · exact hzero'
  | put m a | putWrite m a | putWrote m a | putTruncate m a => exact ⟨h.1, h.2.mono hisDir⟩
  | done r => exact h
  | idle | cleared | truncate | stored => exact h.elim

theorem Opens.mono {q : Proc} (h : Opens s₀ s root path st q) : Opens s₀ s' root path st q :=
  ⟨h.1, h.2.mono hisDir hsize hzone hde⟩

end Mono

/-! ### Steps that change no directory -/

/-- What the lookups know of the directories; `st` is the index of the entry that has been stored,
if any. -/
structure Geometry (s₀ s : State n) (root : ℕ) (path : List Name) (st : Option ℕ) : Prop where
  isDir : ∀ d, s.isDir d = true → s₀.isDir d = true
  zone : ∀ d j, s₀.isDir d = true → s₀.zone d j ≠ 0 → s.zone d j = s₀.zone d j
  good : ∀ d names i, Walked s₀ root path names d → s₀.isDir d = true → names.tail ≠ [] →
    s.MatchAt d (names.headD []) i → Good s₀ s root path names.tail (s.entry d i).inode
  unstored : st = none →
    s.size = s₀.size ∧ ∀ z k, s₀.zmap z = true → s.de z k = s₀.de z k
  stored : ∀ idx, st = some idx → ∀ d names, Walked s₀ root path names d → names.tail = [] →
    idx < s.size d ∧ s.zone d (idx / 64) ≠ 0 ∧
      Matches ((names.headD []).take 14) (s.entry d idx)

section Calm

variable {st : Option ℕ} {d i entries z : ℕ} {names : List Name}

/-- `find_entry` reads the block of a directory. -/
theorem Looks.reads (h : Looks s₀ s root path st d names i entries)
    (hg : Geometry s₀ s root path st) (hz : s.zone d (i / 64) = z) (hne : z ≠ 0) :
    Reads s₀ s root path st d names i entries z where
  toLooks := h
  good k hk hi hm htail := by
    have hmod := h.mod
    have hentry := State.entry_add (s := s) (d := d) h.mod hk
    rw [hz] at hentry
    rw [← hentry]
    refine hg.good d names (i + k) h.walked h.isDir htail ⟨hi.trans_le h.le, ?_, hentry ▸ hm⟩
    rwa [show (i + k) / 64 = i / 64 by omega, hz]
  block _ := by
    cases st with
    | none =>
      by_cases h₀ : s₀.zone d (i / 64) = 0
      · exact .inr h₀
      · exact .inl (hz ▸ hg.zone d _ h.isDir h₀)
    | some idx => exact fun hblock => by rw [← hblock, hz]

/-- The search goes on with the next block when the block has no entry with the last name. -/
theorem Looks.next (h : Looks s₀ s root path st d names i entries)
    (hg : Geometry s₀ s root path st)
    (hno : names.tail = [] → st = none → ∀ j, j / 64 = i / 64 → ¬ s₀.MatchAt d (names.headD []) j)
    (hno' : names.tail = [] → ∀ idx, st = some idx → idx < entries → idx / 64 ≠ i / 64) :
    Looks s₀ s root path st d names (i + 64) entries := by
  have hmod := h.mod
  refine { h with mod := by omega, last := fun htail => ?_ }
  have hlast := h.last htail
  cases st with
  | none =>
    refine ⟨hlast.1, fun j hj => ?_⟩
    by_cases hji : j < i
    · exact hlast.2 j hji
    · exact hno htail rfl j (by omega)
  | some idx =>
    have hblock := hno' htail idx rfl hlast.2
    have hle : i ≤ idx := hlast.1
    exact ⟨by omega, hlast.2⟩

theorem Looks.skip (h : Looks s₀ s root path st d names i entries)
    (hg : Geometry s₀ s root path st) (hz : s.zone d (i / 64) = 0) :
    Looks s₀ s root path st d names (i + 64) entries := by
  refine h.next hg (fun _ _ j hj hm => ?_) (fun htail idx hst _ hblock => ?_)
  · have hzone := hg.zone d (j / 64) h.isDir hm.2.1
    rw [hj, hz] at hzone
    exact hm.2.1 (hj ▸ hzone.symm)
  · refine (hg.stored idx hst d names h.walked htail).2.1 ?_
    rw [hblock, hz]

theorem Reads.pass (h : Reads s₀ s root path st (s.proc p).dir (s.proc p).names i entries z)
    (hs : Exclusive s₀ root path) (hg : Geometry s₀ s root path st)
    (hscan : s.scan p i entries z = none) :
    Looks s₀ s root path st (s.proc p).dir (s.proc p).names (i + 64) entries := by
  have hmod := h.mod
  refine h.toLooks.next hg (fun htail hst j hj hm => ?_) (fun htail idx hst hlt hblock => ?_)
  · subst hst
    have hz : z = s₀.zone (s.proc p).dir (i / 64) :=
      (h.block htail).resolve_right fun h0 => hm.2.1 (hj ▸ h0)
    have hsize := (h.last htail).1
    have hlt := hm.1
    refine State.scan_none hscan (k := j % 64) (by omega) (by omega) ?_
    have hde := (hg.unstored rfl).2 z (j % 64) ?_
    · rw [hde, hz, ← hj]
      exact hm.2.2
    · rw [hz]
      exact hs.zmap _ _ h.isDir (hj ▸ hm.2.1)
  · subst hst
    have hz := h.block htail hblock.symm
    have hle : i ≤ idx := (h.last htail).1
    refine State.scan_none hscan (k := idx % 64) (by omega) (by omega) ?_
    rw [hz]
    exact (hg.stored idx rfl _ _ h.walked htail).2.2

/-- The process creates the file after it has looked at all entries. -/
theorem NotHere.window (hn : NotHere s p) (hs : Exclusive s₀ root path)
    (hg : Geometry s₀ s root path st)
    (hl : Looking s₀ s root path st (s.proc p).dir (s.proc p).names (s.proc p).pc)
    (hlast : s.isLast p = true) : Window s₀ root path st (s.proc p).dir (s.proc p).names := by
  have htail : (s.proc p).names.tail = [] := by simpa [State.isLast] using hlast
  rcases hn with ⟨hpc, hdir, ⟨-, hno⟩ | hz⟩ | ⟨i, entries, hpc, hle⟩
  · rw [hlast] at hno
    cases hno
  · have hd := hg.isDir _ hdir
    rw [hg.zone _ _ hd (hs.first _ hd)] at hz
    exact absurd hz (hs.first _ hd)
  · rw [hpc] at hl
    have hlooked := hl.last htail
    cases st with
    | none =>
      exact ⟨rfl, hl.walked, hl.isDir, htail, fun j hm =>
        hlooked.2 j ((hlooked.1 ▸ hm.1).trans_le hle) hm⟩
    | some idx => exact absurd (hlooked.1.trans_lt hlooked.2) (by omega)

theorem NotHere.dir_ne (hn : NotHere s p) (hs : Exclusive s₀ root path)
    (hl : Looking s₀ s root path st (s.proc p).dir (s.proc p).names (s.proc p).pc) :
    (s.proc p).dir ≠ 0 := by
  rcases hn with ⟨hpc, -⟩ | ⟨i, entries, hpc, -⟩
  · rw [hpc] at hl
    exact hl.2.1
  · rw [hpc] at hl
    exact hl.walked.dir_ne hs.root_ne

theorem PutReady.looking {m : ℕ} {a : After} {c : Core} (h : PutReady s p m a c)
    (hl : Looking s₀ s root path st d names (s.proc p).pc) :
    m ≠ 0 ∧ Onward s₀ s root path names a := by
  rcases h with ⟨hpc, -⟩ | ⟨hpc, -⟩ <;>
  · rw [hpc] at hl
    exact hl

theorem Gets.looking {m : ℕ} {bh : Option (ℕ × ℕ)} {c c' : Core} (hg : Gets s p m bh c c')
    (hl : Looking s₀ s root path st d names (s.proc p).pc) :
    bh = none ∧ Good s₀ s root path names.tail m := by
  obtain ⟨-, ⟨hpc, -⟩ | ⟨hpc, -⟩⟩ := hg <;>
  · rw [hpc] at hl
    cases bh with
    | none => exact ⟨rfl, hl⟩
    | some x => exact hl.elim

theorem Onward.pc {a : After} (h : Onward s₀ s root path names a) :
    Looking s₀ s root path st d names a.pc := by
  cases a with
  | iget m => exact h
  | ret r => exact h
  | put m r => exact h

theorem Opens.setPc {pc : Pc} (ho : Opens s₀ s root path st (s.proc p))
    (hl : Looking s₀ s root path st (s.proc p).dir (s.proc p).names pc) :
    Opens s₀ s root path st ((s.setPc p pc).proc p) := by
  rw [State.setPc_proc_self]
  exact ⟨ho.1, hl⟩

/-- A step that changes no directory. -/
theorem Calm.opens (hc : Calm s p s') (hs : Exclusive s₀ root path)
    (hg : Geometry s₀ s root path st)
    (ho : Opens s₀ s root path st (s.proc p)) : Opens s₀ s root path st (s'.proc p) := by
  have hl := ho.2
  have hexcl := ho.1
  cases hc with
  | denied hd =>
    rw [hd.1] at hl
    exact ho.setPc ⟨hl.2.1, _, rfl⟩
  | absent hn => exact ho.setPc ⟨hn.dir_ne hs hl, _, rfl⟩
  | create hn hgoal => exact ho.setPc (hn.window hs hg hl hgoal.1)
  | itself hpc hlast hgoal =>
    obtain ⟨acc, trunc, hopen⟩ := hexcl
    rcases hgoal with hgoal | ⟨excl, hgoal⟩ <;> cases hopen.symm.trans hgoal
  | @read i entries z hpc hz hne =>
    refine ho.setPc (Looks.reads ?_ hg hz hne)
    rcases hpc with ⟨hpc, hdir, rfl, rfl, -⟩ | ⟨hpc, -⟩
    · rw [hpc] at hl
      have hw : Walked s₀ root path (s.proc p).names (s.proc p).dir :=
        hl.2.2.resolve_right fun hfalse => (nomatch hdir.symm.trans hfalse)
      refine ⟨hw, hg.isDir _ hdir, rfl, le_rfl, fun htail => ?_⟩
      cases st with
      | none => exact ⟨congrFun (hg.unstored rfl).1 _, fun j hj => (Nat.not_lt_zero j hj).elim⟩
      | some idx => exact ⟨Nat.zero_le _, (hg.stored idx rfl _ _ hw htail).1⟩
    · rw [hpc] at hl
      exact hl
  | skip hpc hi hz =>
    rw [hpc] at hl
    exact ho.setPc (Looks.skip hl hg hz)
  | pass hpc hscan =>
    rw [hpc] at hl
    exact ho.setPc (Reads.pass hl hs hg hscan)
  | eexist hpc =>
    rw [hpc] at hl
    exact ho.setPc ⟨hl.1, _, rfl⟩
  | release hpc hgoal =>
    rw [hpc] at hl
    obtain ⟨acc, trunc, hopen⟩ := hexcl
    refine ho.setPc ⟨hl.1, hl.2 fun htail => hgoal ⟨?_, true, acc, trunc, hopen⟩⟩
    simpa [State.isLast] using htail
  | @load m bh hpc =>
    rw [hpc] at hl
    refine ho.setPc ?_
    cases bh with
    | none => exact hl
    | some x => exact hl.elim
  | irregular hget => cases (hget.looking hl).1
  | walk hget =>
    refine ⟨?_, ?_⟩ <;> simp only [Function.update_self]
    · exact hexcl
    · exact (hget.looking hl).2
  | refuse hget hlast | cut hget hlast | opened hget hlast | looked hget hlast =>
    exact absurd (by simpa [State.isLast] using hlast) (hget.looking hl).2.1
  | truncated hpc | stored hpc =>
    rw [hpc] at hl
    exact hl.elim
  | full hpc =>
    rw [hpc] at hl
    exact ho.setPc ⟨hl.walked.dir_ne hs.root_ne, _, rfl⟩
  | @drop m a c hd =>
    have hnext : Onward s₀ s root path (s.proc p).names a := by
      rcases hd with ⟨hpc, -⟩ | ⟨hready, -⟩
      · rw [hpc] at hl
        exact hl.2
      · exact (hready.looking hl).2
    rw [State.drop, State.goto_eq]
    exact ho.setPc hnext.pc
  | putWrite hready | destroy hready => exact ho.setPc (hready.looking hl)
  | putStore hpc =>
    rw [hpc] at hl
    exact ho.setPc hl

/-- A directory entry other than the last name is found. -/
theorem Reads.copied {k : ℕ}
    (h : Reads s₀ s root path st (s.proc p).dir (s.proc p).names i entries z)
    (hs : Exclusive s₀ root path) (hscan : s.scan p i entries z = some k) :
    Looking s₀ s root path st (s.proc p).dir (s.proc p).names (.copied (s.de z k).inode) := by
  obtain ⟨hk, hlt, hm, -⟩ := State.scan_some hscan
  exact ⟨h.walked.dir_ne hs.root_ne, h.good k hk hlt hm⟩

end Calm

/-! ### Before an entry is stored -/

/-- The process is in `add_entry`. -/
def Pc.inAdd : Pc → Bool
  | .add _ _ | .addNew _ _ _ | .addRead _ _ _ => true
  | _ => false

theorem Calm.inAdd (hc : Calm s p s') :
    (s.proc p).pc.inAdd = false ∧ (s'.proc p).pc.inAdd = false := by
  cases hc with
  | denied hd =>
    rw [hd.1, State.putDir, State.setPc_proc_self]
    exact ⟨rfl, rfl⟩
  | absent hn | create hn =>
    simp only [State.putDir, State.setPc_proc_self]
    rcases hn with ⟨hpc, -⟩ | ⟨i, entries, hpc, -⟩ <;> rw [hpc] <;> exact ⟨rfl, rfl⟩
  | read hpc =>
    simp only [State.setPc_proc_self]
    rcases hpc with ⟨hpc, -⟩ | ⟨hpc, -⟩ <;> rw [hpc] <;> exact ⟨rfl, rfl⟩
  | irregular hg | refuse hg | cut hg | opened hg | looked hg | walk hg =>
    simp only [State.setPc_proc_self, State.keep_proc_self, Function.update_self]
    obtain ⟨-, ⟨hpc, -⟩ | ⟨hpc, -⟩⟩ := hg <;> rw [hpc] <;> exact ⟨rfl, rfl⟩
  | @drop m a c hd =>
    rw [State.drop, State.goto_eq, State.setPc_proc_self]
    refine ⟨?_, by cases a <;> rfl⟩
    rcases hd with ⟨hpc, -⟩ | ⟨⟨hpc, -⟩ | ⟨hpc, -⟩, -⟩ <;> rw [hpc] <;> rfl
  | putWrite hready | destroy hready =>
    rw [State.setPc_proc_self]
    rcases hready with ⟨hpc, -⟩ | ⟨hpc, -⟩ <;> rw [hpc] <;> exact ⟨rfl, rfl⟩
  | itself hpc | skip hpc | pass hpc | eexist hpc | release hpc | load hpc | truncated hpc
  | full hpc | stored hpc | putStore hpc =>
    simp only [State.putDir, State.setPc_proc_self, State.keep_proc_self]
    rw [hpc]
    exact ⟨rfl, rfl⟩

theorem State.scanFree_none {i z : ℕ} (h : s.scanFree p i z = none) {k : ℕ} (hk : k < 64) :
    i + k < s.size (s.proc p).dir ∧ (s.de z k).inode ≠ 0 := by
  simpa using List.find?_range_eq_none.mp h k hk

/-- `add_entry` has found the first entry that is free or beyond the end. -/
theorem State.scanFree_some {i z k : ℕ} (h : s.scanFree p i z = some k) :
    k < 64 ∧ (s.size (s.proc p).dir ≤ i + k ∨ (s.de z k).inode = 0) ∧
      ∀ j < k, i + j < s.size (s.proc p).dir ∧ (s.de z j).inode ≠ 0 := by
  obtain ⟨hk, hmem, hfirst⟩ := List.find?_range_eq_some.mp h
  refine ⟨List.mem_range.mp hmem, of_decide_eq_true hk, fun j hj => ?_⟩
  simpa using hfirst j hj

/-- A zone that was free in the beginning and has been cleared. -/
structure Blank (s₀ s : State n) (z : ℕ) : Prop where
  old : s₀.zmap z = false
  new : s.zmap z = true
  clear : ∀ k, (s.de z k).inode = 0

/-- `new_block` has taken the zone `z` for the process `q` alone. -/
structure Owned (s₀ s : State n) (q : Fin n) (z : ℕ) : Prop where
  old : s₀.zmap z = false
  new : s.zmap z = true
  zone : ∀ d j, s₀.isDir d = true → s.zone d j ≠ z
  other : ∀ q' ≠ q, ∀ m i, (s.proc q').pc ≠ .addNew m i z

/-- The block of `add_entry` is in the directory, or another process has put its own there. -/
def Visible (s₀ s : State n) (q : Fin n) (i z : ℕ) : Prop :=
  s.zone (s.proc q).dir (i / 64) = z ∨ s₀.zone (s.proc q).dir (i / 64) = 0 ∧
    ∃ q' ≠ q, (s.proc q').dir = (s.proc q).dir ∧
      ∃ m, (s.proc q').pc = .addRead m i (s.zone (s.proc q).dir (i / 64))

/-- No process has stored an entry. -/
structure NotStored (s₀ s : State n) (root : ℕ) (path : List Name) : Prop where
  geometry : Geometry s₀ s root path none
  imap : s.imap 0 = true
  zmap : ∀ z, s₀.zmap z = true → s.zmap z = true
  block : ∀ d j, s.zone d j = s₀.zone d j ∨ s₀.zone d j = 0 ∧ Blank s₀ s (s.zone d j)
  inj : ∀ d j d' j', s₀.isDir d = true → s₀.isDir d' = true → s.zone d j ≠ 0 →
    s.zone d j = s.zone d' j' → d = d' ∧ j = j'
  taken : ∀ q m i z, (s.proc q).pc = .addNew m i z → Owned s₀ s q z
  proc : ∀ q, Opens s₀ s root path none (s.proc q)
  visible : ∀ q m i z, (s.proc q).pc = .addRead m i z → Visible s₀ s q i z

theorem State.MatchAt.congr {d i : ℕ} {name : Name} (h : s'.MatchAt d name i)
    (hzone : s'.zone = s.zone) (hsize : s'.size = s.size) (hde : s'.de = s.de) :
    s.MatchAt d name i ∧ s'.entry d i = s.entry d i := by
  have hentry : s'.entry d i = s.entry d i := by rw [State.entry, State.entry, hzone, hde]
  exact ⟨⟨hsize ▸ h.1, hzone ▸ h.2.1, hentry ▸ h.2.2⟩, hentry⟩

theorem Geometry.congr {st : Option ℕ} (hg : Geometry s₀ s root path st)
    (hisDir : ∀ d, s'.isDir d = true → s.isDir d = true) (hzone : s'.zone = s.zone)
    (hsize : s'.size = s.size) (hde : s'.de = s.de) : Geometry s₀ s' root path st where
  isDir d hd := hg.isDir d (hisDir d hd)
  zone d j hd hne := by rw [hzone, hg.zone d j hd hne]
  good d names i hw hd htail hm := by
    obtain ⟨hm, hentry⟩ := hm.congr hzone hsize hde
    rw [hentry]
    exact (hg.good d names i hw hd htail hm).mono hisDir
  unstored hst := by
    rw [hsize, hde]
    exact hg.unstored hst
  stored idx hst d names hw htail := by
    rw [hsize, State.entry, hzone, hde]
    exact hg.stored idx hst d names hw htail

namespace NotStored

/-- A step of `p` that changes no directory. -/
theorem step (h : NotStored s₀ s root path) (ht : Trans s p s') (hzone : s'.zone = s.zone)
    (hsize : s'.size = s.size) (hde : s'.de = s.de)
    (hisDir : ∀ d, s'.isDir d = true → s.isDir d = true)
    (hzmap : ∀ z, s.zmap z = true → s'.zmap z = true) (himap : s'.imap 0 = true)
    (hp : Opens s₀ s' root path none (s'.proc p))
    (hnew : ∀ m i z, (s'.proc p).pc = .addNew m i z → Owned s₀ s' p z)
    (hleave : ∀ m i z, (s.proc p).pc = .addRead m i z → s₀.zone (s.proc p).dir (i / 64) ≠ 0)
    (henter : ∀ m i z, (s'.proc p).pc = .addRead m i z → s.zone (s'.proc p).dir (i / 64) = z) :
    NotStored s₀ s' root path where
  geometry := h.geometry.congr hisDir hzone hsize hde
  imap := himap
  zmap z hz := hzmap z (h.zmap z hz)
  block d j := by
    rw [hzone]
    exact (h.block d j).imp_right fun ⟨h0, hb⟩ => ⟨h0, hb.old, hzmap _ hb.new, hde ▸ hb.clear⟩
  inj := by
    rw [hzone]
    exact h.inj
  taken q m i z hq := by
    by_cases hqp : q = p
    · subst hqp
      exact hnew m i z hq
    · rw [ht.other hqp] at hq
      have ho := h.taken q m i z hq
      refine ⟨ho.old, hzmap z ho.new, hzone ▸ ho.zone, fun q' hq' m' i' hpc => ?_⟩
      by_cases hqp' : q' = p
      · subst hqp'
        exact (hnew m' i' z hpc).other q hqp m i (by rw [ht.other hqp, hq])
      · rw [ht.other hqp'] at hpc
        exact ho.other q' hq' m' i' hpc
  proc q := by
    by_cases hqp : q = p
    · exact hqp ▸ hp
    · rw [ht.other hqp]
      exact (h.proc q).mono hisDir (fun d => (congrFun hsize d).ge) (fun hst => absurd rfl hst)
        fun z k => .inl (by rw [hde])
  visible q m i z hq := by
    by_cases hqp : q = p
    · subst hqp
      left
      rw [hzone]
      exact henter m i z hq
    · rw [ht.other hqp] at hq
      rw [Visible, hzone, ht.other hqp]
      refine (h.visible q m i z hq).imp_right fun ⟨h0, q', hq', hd, m', hpc⟩ =>
        ⟨h0, q', hq', ?_⟩
      have hqp' : q' ≠ p := by
        rintro rfl
        exact hleave m' i _ hpc (hd ▸ h0)
      rw [ht.other hqp']
      exact ⟨hd, m', hpc⟩

/-- A step of `p` that changes no directory and makes no file. -/
theorem stay (h : NotStored s₀ s root path) (ht : Trans s p s') (hzone : s'.zone = s.zone)
    (hsize : s'.size = s.size) (hde : s'.de = s.de) (hisDir : s'.isDir = s.isDir)
    (hzmap : s'.zmap = s.zmap) (himap : s'.imap 0 = true)
    (hp : Opens s₀ s root path none (s'.proc p))
    (hnew : ∀ m i z, (s'.proc p).pc ≠ .addNew m i z)
    (hleave : ∀ m i z, (s.proc p).pc = .addRead m i z → s₀.zone (s.proc p).dir (i / 64) ≠ 0)
    (henter : ∀ m i z, (s'.proc p).pc = .addRead m i z → s.zone (s'.proc p).dir (i / 64) = z) :
    NotStored s₀ s' root path :=
  h.step ht hzone hsize hde (fun d hd => hisDir ▸ hd) (fun z hz => hzmap ▸ hz) himap
    (hp.mono (fun d hd => hisDir ▸ hd) (fun d => (congrFun hsize d).ge) (fun hst => absurd rfl hst)
      fun z k => .inl (by rw [hde])) (fun m i z hpc => absurd hpc (hnew m i z)) hleave henter

/-- An event that is not a step of a process. -/
theorem quiet (h : NotStored s₀ s root path) (hq : SameDirs s s') (hproc : s'.proc = s.proc) :
    NotStored s₀ s' root path where
  geometry := h.geometry.congr (fun d hd => hq.isDir ▸ hd) hq.zone hq.size hq.de
  imap := hq.imap ▸ h.imap
  zmap z hz := hq.zmap ▸ h.zmap z hz
  block d j := by
    rw [hq.zone]
    exact (h.block d j).imp_right fun ⟨h0, hb⟩ => ⟨h0, hb.old, hq.zmap ▸ hb.new, hq.de ▸ hb.clear⟩
  inj := by
    rw [hq.zone]
    exact h.inj
  taken q m i z hpc := by
    rw [hproc] at hpc
    have ho := h.taken q m i z hpc
    exact ⟨ho.old, hq.zmap ▸ ho.new, hq.zone ▸ ho.zone, hproc ▸ ho.other⟩
  proc q := by
    rw [hproc]
    exact (h.proc q).mono (fun d hd => hq.isDir ▸ hd) (fun d => (congrFun hq.size d).ge)
      (fun _ => hq.zone) fun z k => .inl (by rw [hq.de])
  visible q m i z hpc := by
    rw [hproc] at hpc
    rw [Visible, hq.zone, hproc]
    exact h.visible q m i z hpc

/-- `create_block` puts a new block into the directory. -/
theorem addNew (h : NotStored s₀ s root path) (hs : Exclusive s₀ root path) {m i z : ℕ}
    (hpc : (s.proc p).pc = .addNew m i z) (ht : Trans s p (s.addNew p m i z)) :
    NotStored s₀ (s.addNew p m i z) root path := by
  have ho := h.taken p m i z hpc
  have hl := (h.proc p).2
  rw [hpc] at hl
  obtain ⟨hadds, h0⟩ := hl
  have hz0 : z ≠ 0 := by
    rintro rfl
    exact absurd (hs.zmap_zero.symm.trans ho.old) (by decide)
  have hzone : ∀ d j, (s.addNew p m i z).zone d j =
      if d = (s.proc p).dir ∧ j = i / 64 then z else s.zone d j :=
    fun d j => State.update_entry s.zone _ _ z d j
  have hde : ∀ x k, (s.addNew p m i z).de x k = if x = z then ⟨0, fun _ => 0⟩ else s.de x k := by
    intro x k
    simp only [State.addNew, State.setPc_de, Function.update_apply]
    split_ifs <;> rfl
  have hself : (s.addNew p m i z).proc p = { s.proc p with pc := .addRead m i z } := by
    rw [State.addNew, State.setPc_proc_self]
  have hold : ∀ x, s₀.zmap x = true → x ≠ z := by
    rintro x hx rfl
    exact absurd (hx.symm.trans ho.old) (by decide)
  -- A block that is in a directory already is not the new one.
  have hother : ∀ d j, s₀.isDir d = true → ¬ (d = (s.proc p).dir ∧ j = i / 64) → ∀ k,
      (s.addNew p m i z).de ((s.addNew p m i z).zone d j) k = s.de (s.zone d j) k := by
    intro d j hd hne k
    rw [hzone, if_neg hne, hde, if_neg (ho.zone d j hd)]
  refine ⟨⟨h.geometry.isDir, fun d j hd hne => ?_, fun d names i' hw hd htail hm => ?_, fun _ =>
    ⟨?_, ?_⟩,
    fun idx hc => by cases hc⟩, h.imap, h.zmap, fun d j => ?_, fun d j d' j' hd hd' hne heq => ?_,
    fun q m' i' z' hq => ?_, fun q => ?_, fun q m' i' z' hq => ?_⟩
  · rw [hzone, if_neg, h.geometry.zone d j hd hne]
    rintro ⟨rfl, rfl⟩
    exact hne h0
  · by_cases hat : d = (s.proc p).dir ∧ i' / 64 = i / 64
    · refine absurd ?_ hm.2.2.1
      rw [State.entry, hzone, if_pos hat, hde, if_pos rfl]
    · have hentry : (s.addNew p m i z).entry d i' = s.entry d i' := hother d _ hd hat _
      rw [hentry]
      refine Good.mono (fun _ hd => hd)
        (h.geometry.good d names i' hw hd htail ⟨hm.1, ?_, hentry ▸ hm.2.2⟩)
      have hne := hm.2.1
      rwa [hzone, if_neg hat] at hne
  · exact (h.geometry.unstored rfl).1
  · intro x k hx
    rw [hde, if_neg (hold x hx)]
    exact (h.geometry.unstored rfl).2 x k hx
  · rw [hzone]
    split_ifs with hat
    · rw [hat.1, hat.2]
      exact .inr ⟨h0, ho.old, ho.new, fun k => by rw [hde, if_pos rfl]⟩
    · refine (h.block d j).imp_right ?_
      rintro ⟨hz, hb⟩
      refine ⟨hz, hb.old, hb.new, fun k => ?_⟩
      rw [hde]
      split_ifs
      · rfl
      · exact hb.clear k
  · rw [hzone] at hne heq
    rw [hzone] at heq
    split_ifs at hne heq with hat hat' hat'
    · exact ⟨hat.1.trans hat'.1.symm, hat.2.trans hat'.2.symm⟩
    · exact absurd heq.symm (ho.zone d' j' hd')
    · exact absurd heq (ho.zone d j hd)
    · exact h.inj d j d' j' hd hd' hne heq
  · have hqp : q ≠ p := by
      rintro rfl
      rw [hself] at hq
      cases hq
    rw [ht.other hqp] at hq
    have hoq := h.taken q m' i' z' hq
    refine ⟨hoq.old, hoq.new, fun d j hd => ?_, fun q' hq' m'' i'' hpc' => ?_⟩
    · rw [hzone]
      split_ifs
      · rintro rfl
        exact ho.other q hqp m' i' hq
      · exact hoq.zone d j hd
    · by_cases hqp' : q' = p
      · rw [hqp', hself] at hpc'
        cases hpc'
      · rw [ht.other hqp'] at hpc'
        exact hoq.other q' hq' m'' i'' hpc'
  · by_cases hqp : q = p
    · rw [hqp, hself]
      refine ⟨(h.proc p).1, { hadds with }, hz0, .inr ⟨h0, fun k => ?_⟩⟩
      rw [hde, if_pos rfl]
    · rw [ht.other hqp]
      have hisDir : ∀ d, (s.addNew p m i z).isDir d = true → s.isDir d = true := fun _ hd => hd
      refine (h.proc q).mono hisDir (fun _ => le_rfl) (fun hst => absurd rfl hst) fun x k => ?_
      rw [hde]
      split_ifs
      · exact .inr rfl
      · exact .inl rfl
  · by_cases hqp : q = p
    · subst hqp
      rw [hself] at hq
      obtain ⟨-, rfl, rfl⟩ := Pc.addRead.inj hq
      left
      rw [hself, hzone, if_pos ⟨rfl, rfl⟩]
    · rw [ht.other hqp] at hq
      have hlq := (h.proc q).2
      rw [hq] at hlq
      rw [Visible, ht.other hqp, hzone]
      split_ifs with hat
      · have hi : i = i' := by
          have hmod := hadds.mod
          have hmod' := hlq.1.mod
          omega
        refine .inr ⟨hat.1 ▸ hi ▸ h0, p, Ne.symm hqp, ?_, m, ?_⟩
        · rw [hself, hat.1]
        · rw [hself, hi]
      · refine (h.visible q m' i' z' hq).imp_right ?_
        rintro ⟨h0', q', hq', hd, m'', hpc'⟩
        refine ⟨h0', q', hq', ?_⟩
        have hqp' : q' ≠ p := by
          rintro rfl
          rw [hpc] at hpc'
          cases hpc'
        rw [ht.other hqp']
        exact ⟨hd, m'', hpc'⟩

/-- A step of a process as long as no entry is stored. -/
theorem run (h : NotStored s₀ s root path) (hs : Exclusive s₀ root path) (ht : Trans s p s') :
    NotStored s₀ s' root path ∨ ∃ m i z k, (s.proc p).pc = .addRead m i z ∧
      s.scanFree p i z = some k ∧ s' = s.addRead p m i z := by
  have ho := h.proc p
  have hl := ho.2
  cases ht with
  | calm hcalm =>
    have hq := hcalm.quiet.dirs
    obtain ⟨hno, hno'⟩ := hcalm.inAdd
    refine .inl (h.stay (.calm hcalm) hq.zone hq.size hq.de hq.isDir hq.zmap (hq.imap ▸ h.imap)
      (hcalm.opens hs h.geometry ho) (fun m i z hpc => ?_) (fun m i z hpc => ?_)
        fun m i z hpc => ?_)
    · rw [hpc] at hno'
      cases hno'
    · rw [hpc] at hno
      cases hno
    · rw [hpc] at hno'
      cases hno'
  | copy hpc hscan hgoal =>
    rw [hpc] at hl
    exact .inl (h.stay (.copy hpc hscan hgoal) rfl rfl rfl rfl rfl h.imap
      (ho.setPc (Reads.copied hl hs hscan)) (by simp) (by simp [hpc]) (by simp))
  | hold hpc hscan hlast hgoal =>
    obtain ⟨acc, trunc, hopen⟩ := ho.1
    cases hopen.symm.trans hgoal
  | clear hg => cases (hg.looking hl).1
  | unlinked hpc =>
    rw [hpc] at hl
    exact hl.elim
  | @fresh m hpc hfresh =>
    rw [hpc] at hl
    have hm : s.imap m = false := by simpa using List.find?_some hfresh
    have hne : m ≠ 0 := by
      rintro rfl
      exact nomatch h.imap.symm.trans hm
    refine .inl (h.step (.fresh hpc hfresh) rfl rfl rfl (fun d hd => ?_) (fun _ hz => hz) ?_ ?_
      (by simp) (by simp [hpc]) (by simp))
    · simp only [State.setPc_isDir, Function.update_apply] at hd
      split_ifs at hd
      exact hd
    · simp only [State.setPc_imap]
      rw [Function.update_of_ne hne.symm]
      exact h.imap
    · rw [State.setPc_proc_self]
      exact ⟨ho.1, hl, hne, Function.update_self .., rfl, Nat.zero_le _⟩
  | @addBlock m i z hpc hz hne =>
    rw [hpc] at hl
    have hblock : z = s₀.zone (s.proc p).dir (i / 64) ∨
        s₀.zone (s.proc p).dir (i / 64) = 0 ∧ ∀ k, (s.de z k).inode = 0 := by
      rcases h.block (s.proc p).dir (i / 64) with hsame | ⟨h0, hb⟩
      · exact .inl (hz ▸ hsame)
      · exact .inr ⟨h0, hz ▸ hb.clear⟩
    have hopens : Opens s₀ s root path none ((s.setPc p (.addRead m i z)).proc p) :=
      ho.setPc ⟨hl, hne, hblock⟩
    refine .inl (h.stay (.addBlock hpc hz hne) rfl rfl rfl rfl rfl h.imap hopens (by simp)
      (by simp [hpc]) fun m' i' z' hpc' => ?_)
    rw [State.setPc_proc_self] at hpc' ⊢
    obtain ⟨-, rfl, rfl⟩ := Pc.addRead.inj hpc'
    exact hz
  | @addFailed m i c hpc hcore =>
    rw [hpc] at hl
    refine .inl (h.stay (.addFailed hpc hcore) rfl rfl rfl rfl rfl h.imap ?_ (by simp)
      (by simp [hpc]) (by simp))
    rw [State.setPc_proc_self]
    exact ⟨ho.1, hl.ne, hl.walked.dir_ne hs.root_ne, _, rfl⟩
  | @alloc m i z hpc hz hfresh =>
    rw [hpc] at hl
    have hfree : s.zmap z = false := by simpa using List.find?_some hfresh
    have hold : s₀.zmap z = false := by
      by_contra hne
      exact nomatch (h.zmap z (by simpa using hne)).symm.trans hfree
    have hgrow : ∀ x, s.zmap x = true → Function.update s.zmap z true x = true := by
      intro x hx
      rw [Function.update_apply, hx, ite_self]
    have h0 : s₀.zone (s.proc p).dir (i / 64) = 0 := by
      rcases h.block (s.proc p).dir (i / 64) with hsame | ⟨h0, -⟩
      · rw [← hsame, hz]
      · exact h0
    refine .inl (h.step (.alloc hpc hz hfresh) rfl rfl rfl (fun _ hd => hd) hgrow h.imap ?_ ?_
      (by simp [hpc]) (by simp))
    · rw [State.setPc_proc_self]
      exact ⟨ho.1, { hl with }, h0⟩
    · intro m' i' z' hpc'
      rw [State.setPc_proc_self] at hpc'
      obtain ⟨-, -, rfl⟩ := Pc.addNew.inj hpc'
      refine ⟨hold, Function.update_self .., fun d j hd hdz => ?_, fun q' hq' m' i' hpc' => ?_⟩
      · have hdz : s.zone d j = z := hdz
        rcases h.block d j with hsame | ⟨-, hb⟩
        · have hne : s₀.zone d j ≠ 0 := by
            intro hzero
            rw [← hdz, hsame, hzero] at hfree
            exact nomatch (h.zmap 0 hs.zmap_zero).symm.trans hfree
          have hused := hs.zmap d j hd hne
          rw [← hsame, hdz] at hused
          exact nomatch hused.symm.trans hold
        · exact nomatch (hdz ▸ hb.new).symm.trans hfree
      · rw [(Trans.alloc hpc hz hfresh).other hq'] at hpc'
        exact nomatch (h.taken q' m' i' z hpc').new.symm.trans hfree
  | addNew hpc => exact .inl (h.addNew hs hpc (.addNew hpc))
  | @addNext m i z hpc hscan =>
    rw [hpc] at hl
    have hold : s₀.zone (s.proc p).dir (i / 64) ≠ 0 := by
      obtain ⟨-, hz, hsame | ⟨-, hclear⟩⟩ := hl
      · exact hsame ▸ hz
      · exact absurd (hclear 0) (State.scanFree_none hscan (by omega)).2
    have hle := (State.scanFree_none hscan (k := 63) (by omega)).1
    have hmod := hl.1.mod
    have hopens : Opens s₀ s root path none ((s.setPc p (.add m (i + 64))).proc p) :=
      ho.setPc (show Adds s₀ s root path none _ _ m (i + 64) from
        { hl.1 with mod := by omega, le := by omega })
    refine .inl (h.stay (.addNext hpc hscan) rfl rfl rfl rfl rfl h.imap hopens (by simp)
      ?_ (by simp))
    intro m' i' z' hpc'
    rw [hpc] at hpc'
    obtain ⟨-, rfl, -⟩ := Pc.addRead.inj hpc'
    exact hold
  | @store m i z k hpc hscan => exact .inr ⟨m, i, z, k, hpc, hscan, rfl⟩
  | @free m a c hpc hcore hcount hlinks himap =>
    have ht := Trans.free hpc hcore hcount hlinks himap
    rw [hpc] at hl
    rw [State.goto_eq] at ht ⊢
    refine .inl (h.stay ht rfl rfl rfl rfl rfl ?_ ?_ ?_ (by simp [hpc]) ?_)
    · simp only [State.setPc_imap]
      rw [Function.update_of_ne hl.1.symm]
      exact h.imap
    · rw [State.setPc_proc_self]
      exact ⟨ho.1, hl.2.pc⟩
    · intro m' i' z' hpc'
      rw [State.setPc_proc_self] at hpc'
      cases a <;> cases hpc'
    · intro m' i' z' hpc'
      rw [State.setPc_proc_self] at hpc'
      cases a <;> cases hpc'

end NotStored

/-! ### The entry is stored -/

/-- The process has created the file. -/
def Created : Pc → Prop
  | .stored _ | .done (.ok _) => True
  | .put _ (.ret (.ok _)) | .putWrite _ (.ret (.ok _)) | .putWrote _ (.ret (.ok _))
  | .putTruncate _ (.ret (.ok _)) => True
  | _ => False

/-- The process `w` has stored the entry `idx` of the directory `d`, for the last one of `names`. -/
structure StoredAt (s₀ s : State n) (root : ℕ) (path : List Name) (w : Fin n) (d idx : ℕ)
    (names : List Name) : Prop where
  geometry : Geometry s₀ s root path (some idx)
  absent : ∀ j, ¬ s₀.MatchAt d (names.headD []) j
  name : (s.entry d idx).name = pad ((names.headD []).take 14)
  view : ∀ d' j, s₀.isDir d' = true → j < s.size d' → s.zone d' (j / 64) ≠ 0 →
    (s.entry d' j).inode ≠ 0 → d' = d ∧ j = idx ∨
      j < s₀.size d' ∧ s₀.zone d' (j / 64) ≠ 0 ∧ s.entry d' j = s₀.entry d' j
  winner : Created (s.proc w).pc
  proc : ∀ q ≠ w, Opens s₀ s root path (some idx) (s.proc q)

theorem Walked.length_of_tail (hpath : path ≠ []) {names : List Name} {d : ℕ}
    (h : Walked s₀ root path names d) (htail : names.tail = []) : names.length = 1 := by
  have hne := h.ne_nil hpath
  cases names with
  | nil => exact absurd rfl hne
  | cons a names =>
    rw [List.tail_cons] at htail
    rw [htail]
    rfl

/-- All processes that have come to the last name are in one directory. -/
theorem Walked.last_unique (hs : Exclusive s₀ root path) {names names' : List Name} {d d' : ℕ}
    (h : Walked s₀ root path names d) (h' : Walked s₀ root path names' d')
    (htail : names.tail = []) (htail' : names'.tail = []) : names = names' ∧ d = d' :=
  h.unique hs h' ((h.length_of_tail hs.path_ne htail).trans
    (h'.length_of_tail hs.path_ne htail').symm)

/-- A process that does not miss the entry goes on. -/
theorem Looking.store {d i k z m : ℕ} {names : List Name} {pc : Pc}
    (hl : Looking s₀ s root path none d names pc)
    (hmiss : Walked s₀ root path names d → names.tail = [] →
      ¬ pc.misses (i + k) z ∧ s'.zone d ((i + k) / 64) = z)
    (hisDir : s'.isDir = s.isDir) (hsize : ∀ d, s.size d ≤ s'.size d)
    (hde : ∀ x y, s'.de x y = s.de x y ∨ (s'.de x y).inode = m) (hm : m ≠ 0)
    (hregular : s.isDir m = false) :
    Looking s₀ s' root path (some (i + k)) d names pc := by
  have hmono : ∀ d, s'.isDir d = true → s.isDir d = true := fun d hd => hisDir ▸ hd
  cases pc with
  | enter => exact Good.mono hmono hl
  | find j entries =>
    refine { hl with le := hl.le.trans (hsize d), last := fun htail => ?_ }
    obtain ⟨hno, -⟩ := hmiss hl.walked htail
    simp only [Pc.misses, not_or, not_lt, not_le] at hno
    exact hno
  | findRead j entries x =>
    refine { hl with
      le := hl.le.trans (hsize d), last := fun htail => ?_, good := fun y hy hlt hmatch htail => ?_,
      block := fun htail hblock => ?_ }
    · obtain ⟨hno, -⟩ := hmiss hl.walked htail
      simp only [Pc.misses, not_or, not_lt, not_le] at hno
      exact ⟨hno.1, hno.2.1⟩
    · rcases hde x y with hsame | hnew
      · rw [hsame] at hmatch ⊢
        exact (hl.good y hy hlt hmatch htail).mono hmono
      · rw [hnew]
        exact ⟨htail, hm, .inr (hisDir ▸ hregular)⟩
    · obtain ⟨hno, hz⟩ := hmiss hl.walked htail
      simp only [Pc.misses, not_or, not_and, not_not] at hno
      exact (hno.2.2 hblock).trans hz.symm
  | copied y => exact ⟨hl.1, fun htail => (hl.2 htail).mono hmono⟩
  | iget y bh | igetRead y bh =>
    cases bh with
    | none => exact Good.mono hmono hl
    | some e => exact hl.elim
  | newInode | add y j => exact ((hmiss hl.walked hl.last).1 trivial).elim
  | addNew y j x | addRead y j x => exact ((hmiss hl.1.walked hl.1.last).1 trivial).elim
  | put y a | putWrite y a | putWrote y a | putTruncate y a => exact ⟨hl.1, hl.2.mono hmono⟩
  | done r => exact hl
  | idle | cleared | truncate | stored => exact hl.elim

/-- The step in which an entry is stored. -/
theorem NotStored.store (h : NotStored s₀ s root path) (hs : Exclusive s₀ root path) {m i z k : ℕ}
    (hpc : (s.proc p).pc = .addRead m i z) (hscan : s.scanFree p i z = some k)
    (hseen : Seen s (.run p)) :
    StoredAt s₀ (s.addRead p m i z) root path p (s.proc p).dir (i + k) (s.proc p).names := by
  have hst := State.addRead_stored (m := m) hscan
  have ht := Trans.store hpc hscan
  generalize s.addRead p m i z = t at hst ht ⊢
  obtain ⟨hk, -, hbefore⟩ := State.scanFree_some hscan
  have hl := (h.proc p).2
  rw [hpc] at hl
  obtain ⟨hadds, hz0, -⟩ := hl
  have hmod := hadds.mod
  -- The processes that have come to the last name do not miss the entry.
  have hmiss : ∀ q ≠ p, ∀ {names d}, Walked s₀ root path names d → names.tail = [] →
      (s.proc q).names = names → (s.proc q).dir = d → ¬ (s.proc q).pc.misses (i + k) z := by
    rintro q hq names d hw htail rfl rfl
    obtain ⟨hnames, hd⟩ := hw.last_unique hs hadds.walked htail hadds.last
    exact hseen p m i z k rfl hpc hscan q hq hd hnames
  have hz : s.zone (s.proc p).dir (i / 64) = z := by
    rcases h.visible p m i z hpc with hz | ⟨-, q, hq, hd, m', hpc'⟩
    · exact hz
    · have hlq := (h.proc q).2
      rw [hpc'] at hlq
      refine absurd ?_ (hmiss q hq hlq.1.walked hlq.1.last rfl rfl)
      rw [hpc']
      trivial
  have hsize : ∀ d, s.size d ≤ t.size d := by
    intro d
    rw [hst.size]
    split_ifs with hgrow
    · rw [Function.update_apply]
      split_ifs with hd
      · rw [hd]
        omega
      · exact le_rfl
    · exact le_rfl
  have hlt : i + k < t.size (s.proc p).dir := by
    rw [hst.size]
    split_ifs with hgrow
    · rw [Function.update_self]
      omega
    · omega
  -- The directory grows by the new entry only.
  have hgrow : ∀ d j, j < t.size d → j < s.size d ∨ d = (s.proc p).dir ∧ j = i + k := by
    intro d j hj
    rw [hst.size] at hj
    split_ifs at hj with hgrow
    · rw [Function.update_apply] at hj
      split_ifs at hj with hd
      · by_cases hji : j < s.size d
        · exact .inl hji
        · refine .inr ⟨hd, ?_⟩
          have hle := hadds.le
          rw [hd] at hji
          by_contra hne
          have hb := (hbefore (j - i) (by omega)).1
          omega
      · exact .inl hj
    · exact .inl hj
  have hentry : ∀ d j, s₀.isDir d = true → s.zone d (j / 64) ≠ 0 →
      ¬ (d = (s.proc p).dir ∧ j = i + k) → t.entry d j = s.entry d j := by
    intro d j hd hne hno
    rw [State.entry, hst.zone, hst.de, State.update_entry, if_neg, State.entry]
    rintro ⟨hzz, hjk⟩
    obtain ⟨hdd, hjj⟩ := h.inj d _ _ _ hd hadds.isDir hne (hzz.trans hz.symm)
    exact hno ⟨hdd, by omega⟩
  have hnew : t.entry (s.proc p).dir (i + k) = ⟨m, pad ((s.name p).take 14)⟩ := by
    rw [State.entry_add hmod hk, hst.zone, hz, hst.de, State.update_entry, if_pos ⟨rfl, rfl⟩]
  have hview : ∀ d j, s₀.isDir d = true → j < t.size d → t.zone d (j / 64) ≠ 0 →
      (t.entry d j).inode ≠ 0 → d = (s.proc p).dir ∧ j = i + k ∨
        j < s₀.size d ∧ s₀.zone d (j / 64) ≠ 0 ∧ t.entry d j = s₀.entry d j := by
    intro d j hd hj hzone hne
    by_cases hat : d = (s.proc p).dir ∧ j = i + k
    · exact .inl hat
    · rw [hst.zone] at hzone
      have hsame := hentry d j hd hzone hat
      rw [hsame] at hne ⊢
      have hj' := (hgrow d j hj).resolve_right hat
      rw [(h.geometry.unstored rfl).1] at hj'
      refine .inr ⟨hj', ?_⟩
      rcases h.block d (j / 64) with hold | ⟨-, hb⟩
      · refine ⟨hold ▸ hzone, ?_⟩
        rw [State.entry, hold, (h.geometry.unstored rfl).2 _ _
          (hs.zmap d _ hd (hold ▸ hzone)), State.entry]
      · exact absurd (hb.clear _) hne
  refine ⟨⟨fun d hd => h.geometry.isDir d (hst.isDir ▸ hd), fun d j hd hne => ?_,
    fun d names j hw hd htail hm => ?_, (fun hc => by cases hc),
      fun idx hidx d names hw htail => ?_⟩,
    hadds.absent, by rw [hnew]; rfl, hview, ?_, fun q hq => ?_⟩
  · rw [hst.zone, h.geometry.zone d j hd hne]
  · rcases hview d j hd hm.1 hm.2.1 hm.2.2.1 with ⟨rfl, rfl⟩ | ⟨hj, hzone, hsame⟩
    · rw [hnew]
      exact ⟨htail, hadds.ne, .inr (hst.isDir ▸ hadds.regular)⟩
    · rw [hsame]
      have hm₀ : s₀.MatchAt d (names.headD []) j := ⟨hj, hzone, hsame ▸ hm.2.2⟩
      refine ⟨htail, hm₀.2.2.1, .inl ?_⟩
      obtain _ | ⟨a, _ | ⟨b, names⟩⟩ := names
      · exact absurd rfl htail
      · exact absurd rfl htail
      · exact .step hw hd hm₀
  · obtain rfl := Option.some.inj hidx
    obtain ⟨rfl, rfl⟩ := hw.last_unique hs hadds.walked htail hadds.last
    refine ⟨hlt, ?_, ?_⟩
    · rw [hst.zone, show (i + k) / 64 = i / 64 by omega, hz]
      exact hz0
    · rw [hnew]
      exact matches_pad hadds.ne (List.length_take_le _ _)
  · rw [hst.proc, Function.update_self]
    trivial
  · rw [ht.other hq]
    refine ⟨(h.proc q).1, (h.proc q).2.store (z := z) (m := m) (fun hw htail => ?_) hst.isDir hsize
      (fun x y => ?_) hadds.ne hadds.regular⟩
    · refine ⟨hmiss q hq hw htail rfl rfl, ?_⟩
      rw [hst.zone, (hw.last_unique hs hadds.walked htail hadds.last).2,
        show (i + k) / 64 = i / 64 by omega, hz]
    · rw [hst.de, State.update_entry]
      split_ifs
      · exact .inr rfl
      · exact .inl rfl

/-! ### After the entry has been stored -/

theorem Created.put {m : ℕ} {a : After} {pc : Pc} (h : Created pc)
    (hpc : pc = .put m a ∨ pc = .putWrite m a ∨ pc = .putWrote m a ∨ pc = .putTruncate m a) :
    Created (.putWrite m a) ∧ Created (.putWrote m a) ∧ Created (.putTruncate m a) ∧
      Created a.pc := by
  rcases hpc with rfl | rfl | rfl | rfl <;>
  · cases a with
    | iget x => exact h.elim
    | put d r => exact h.elim
    | ret r =>
      cases r with
      | error e => exact h.elim
      | ok x => exact ⟨h, h, h, h⟩

theorem PutReady.created {m : ℕ} {a : After} {c : Core} (h : PutReady s p m a c)
    (hc : Created (s.proc p).pc) : Created (.putWrite m a) ∧ Created (.putWrote m a) ∧
      Created (.putTruncate m a) ∧ Created a.pc := by
  rcases h with ⟨hpc, -⟩ | ⟨hpc, -⟩
  · exact hc.put (.inl hpc)
  · exact hc.put (.inr (.inr (.inl hpc)))

/-- A process that has created the file changes no directory. -/
theorem Trans.created (ht : Trans s p s') (hc : Created (s.proc p).pc) :
    SameDirs { s with imap := s'.imap } s' ∧ Created (s'.proc p).pc := by
  cases ht with
  | calm hcalm =>
    have hq := hcalm.quiet.dirs
    refine ⟨⟨hq.zone, hq.size, hq.de, hq.zmap, hq.nzones, hq.isDir, rfl, hq.ninodes, hq.may⟩, ?_⟩
    cases hcalm with
    | stored =>
      rw [State.keep_proc_self]
      trivial
    | @drop m a c hd =>
      rw [State.drop, State.goto_eq, State.setPc_proc_self]
      rcases hd with ⟨hpc, -⟩ | ⟨hready, -⟩
      · exact (hc.put (.inl hpc)).2.2.2
      · exact (hready.created hc).2.2.2
    | putWrite hready =>
      rw [State.setPc_proc_self]
      exact (hready.created hc).1
    | putStore hpc =>
      rw [State.setPc_proc_self]
      exact (hc.put (.inr (.inl hpc))).2.1
    | destroy hready =>
      rw [State.setPc_proc_self]
      exact (hready.created hc).2.2.1
    | denied hd =>
      rw [hd.1] at hc
      exact hc.elim
    | absent hn | create hn =>
      rcases hn with ⟨hpc, -⟩ | ⟨i, entries, hpc, -⟩ <;> rw [hpc] at hc <;> exact hc.elim
    | read hpc =>
      rcases hpc with ⟨hpc, -⟩ | ⟨hpc, -⟩ <;> rw [hpc] at hc <;> exact hc.elim
    | irregular hg | walk hg | refuse hg | cut hg | opened hg | looked hg =>
      obtain ⟨-, ⟨hpc, -⟩ | ⟨hpc, -⟩⟩ := hg <;> rw [hpc] at hc <;> exact hc.elim
    | itself hpc | skip hpc | pass hpc | eexist hpc | release hpc | load hpc | truncated hpc
    | full hpc =>
      rw [hpc] at hc
      exact hc.elim
  | @free m a c hpc =>
    rw [State.goto_eq, State.setPc_proc_self]
    exact ⟨⟨rfl, rfl, rfl, rfl, rfl, rfl, rfl, rfl, rfl⟩, (hc.put (.inr (.inr (.inr hpc)))).2.2.2⟩
  | clear hg =>
    obtain ⟨-, ⟨hpc, -⟩ | ⟨hpc, -⟩⟩ := hg <;> rw [hpc] at hc <;> exact hc.elim
  | copy hpc | hold hpc | unlinked hpc | fresh hpc | addBlock hpc | addFailed hpc | alloc hpc
  | addNew hpc | addNext hpc | store hpc =>
    rw [hpc] at hc
    exact hc.elim

namespace StoredAt

variable {w : Fin n} {d idx : ℕ} {names : List Name}

/-- A step that changes no directory. -/
theorem congr (h : StoredAt s₀ s root path w d idx names) (hzone : s'.zone = s.zone)
    (hsize : s'.size = s.size) (hde : s'.de = s.de) (hisDir : s'.isDir = s.isDir)
    (hw : Created (s'.proc w).pc)
    (hproc : ∀ q ≠ w, Opens s₀ s root path (some idx) (s'.proc q)) :
    StoredAt s₀ s' root path w d idx names where
  geometry := h.geometry.congr (fun d hd => hisDir ▸ hd) hzone hsize hde
  absent := h.absent
  name := by
    rw [State.entry, hzone, hde]
    exact h.name
  view d' j hd' hj hz hne := by
    have hentry : s'.entry d' j = s.entry d' j := by rw [State.entry, State.entry, hzone, hde]
    rw [hentry] at hne ⊢
    exact h.view d' j hd' (hsize ▸ hj) (hzone ▸ hz) hne
  winner := hw
  proc q hq := (hproc q hq).mono (fun d hd => hisDir ▸ hd) (fun d => (congrFun hsize d).ge)
    (fun _ => hzone) fun z k => .inl (by rw [hde])

theorem run (h : StoredAt s₀ s root path w d idx names) (hs : Exclusive s₀ root path)
    (ht : Trans s p s') : StoredAt s₀ s' root path w d idx names := by
  by_cases hp : p = w
  · subst hp
    obtain ⟨hq, hc⟩ := ht.created h.winner
    exact h.congr hq.zone hq.size hq.de hq.isDir hc fun q hqp => ht.other hqp ▸ h.proc q hqp
  · have ho := h.proc p hp
    have hl := ho.2
    -- The step changes no directory, and the process goes on.
    have hstep (hzone : s'.zone = s.zone) (hsize : s'.size = s.size) (hde : s'.de = s.de)
        (hisDir : s'.isDir = s.isDir) (hopens : Opens s₀ s root path (some idx) (s'.proc p)) :
        StoredAt s₀ s' root path w d idx names := by
      refine h.congr hzone hsize hde hisDir (ht.other (Ne.symm hp) ▸ h.winner) fun q hq => ?_
      by_cases hqp : q = p
      · exact hqp ▸ hopens
      · exact ht.other hqp ▸ h.proc q hq
    cases ht with
    | calm hcalm =>
      have hq := hcalm.quiet.dirs
      exact hstep hq.zone hq.size hq.de hq.isDir (hcalm.opens hs h.geometry ho)
    | copy hpc hscan hgoal =>
      rw [hpc] at hl
      exact hstep rfl rfl rfl rfl (ho.setPc (Reads.copied hl hs hscan))
    | hold hpc hscan hlast hgoal =>
      obtain ⟨acc, trunc, hopen⟩ := ho.1
      cases hopen.symm.trans hgoal
    | clear hg => cases (hg.looking hl).1
    | unlinked hpc =>
      rw [hpc] at hl
      exact hl.elim
    | fresh hpc | addBlock hpc | addFailed hpc | alloc hpc =>
      rw [hpc] at hl
      cases hl.unstored
    | addNew hpc | addNext hpc | store hpc =>
      rw [hpc] at hl
      cases hl.1.unstored
    | @free m a c hpc =>
      rw [hpc] at hl
      rw [State.goto_eq] at hstep ⊢
      refine hstep rfl rfl rfl rfl ?_
      rw [State.setPc_proc_self]
      exact ⟨ho.1, hl.2.pc⟩

end StoredAt

/-! ### Runs -/

/-- Two entries of the beginning with one name are the same. -/
theorem Exclusive.index_eq (hs : Exclusive s₀ root path) {d i j : ℕ} (hd : s₀.isDir d = true)
    (hi : i < s₀.size d ∧ s₀.zone d (i / 64) ≠ 0) (hj : j < s₀.size d ∧ s₀.zone d (j / 64) ≠ 0)
    (hne : (s₀.entry d i).inode ≠ 0) (hne' : (s₀.entry d j).inode ≠ 0)
    (hname : (s₀.entry d i).name = (s₀.entry d j).name) : i = j := by
  obtain ⟨name, hlen, hm⟩ := exists_matches hne
  have hm' := hm.congr hname.symm hne'
  rw [← List.take_of_length_le hlen] at hm hm'
  exact hs.distinct d name i j hd ⟨hi.1, hi.2, hm⟩ ⟨hj.1, hj.2, hm'⟩

theorem NotStored.namesDistinct (h : NotStored s₀ s root path) (hs : Exclusive s₀ root path) :
    NamesDistinct s := by
  intro d i j hd hi hj hzi hzj hni hnj hname
  have hd₀ := h.geometry.isDir d hd
  have hold : ∀ j, j < s.size d → s.zone d (j / 64) ≠ 0 → (s.entry d j).inode ≠ 0 →
      (j < s₀.size d ∧ s₀.zone d (j / 64) ≠ 0) ∧ s.entry d j = s₀.entry d j := by
    intro j hj hz hne
    rw [(h.geometry.unstored rfl).1] at hj
    rcases h.block d (j / 64) with hsame | ⟨-, hb⟩
    · rw [hsame] at hz
      refine ⟨⟨hj, hz⟩, ?_⟩
      rw [State.entry, hsame, (h.geometry.unstored rfl).2 _ _ (hs.zmap d _ hd₀ hz), State.entry]
    · exact absurd (hb.clear _) hne
  obtain ⟨hi', hei⟩ := hold i hi hzi hni
  obtain ⟨hj', hej⟩ := hold j hj hzj hnj
  rw [hei] at hni hname
  rw [hej] at hnj hname
  exact hs.index_eq hd₀ hi' hj' hni hnj hname

theorem StoredAt.namesDistinct {w : Fin n} {D idx : ℕ} {names : List Name}
    (h : StoredAt s₀ s root path w D idx names) (hs : Exclusive s₀ root path) :
    NamesDistinct s := by
  intro d i j hd hi hj hzi hzj hni hnj hname
  have hd₀ := h.geometry.isDir d hd
  -- No entry of the beginning has the name of the new one.
  have hnew : ∀ j, d = D → (j < s₀.size d ∧ s₀.zone d (j / 64) ≠ 0) → (s₀.entry d j).inode ≠ 0 →
      (s₀.entry d j).name ≠ (s.entry D idx).name := by
    rintro j rfl ⟨hj, hz⟩ hne heq
    refine h.absent j ⟨hj, hz, ?_⟩
    exact (matches_pad hne (List.length_take_le _ _)).congr (heq.trans h.name) hne
  rcases h.view d i hd₀ hi hzi hni with ⟨rfl, rfl⟩ | ⟨hi', hzi', hei⟩
  · rcases h.view d j hd₀ hj hzj hnj with ⟨-, rfl⟩ | ⟨hj', hzj', hej⟩
    · rfl
    · rw [hej] at hnj hname
      exact absurd hname.symm (hnew j rfl ⟨hj', hzj'⟩ hnj)
  · rw [hei] at hni hname
    rcases h.view d j hd₀ hj hzj hnj with ⟨rfl, rfl⟩ | ⟨hj', hzj', hej⟩
    · exact absurd hname (hnew i rfl ⟨hi', hzi'⟩ hni)
    · rw [hej] at hnj hname
      exact hs.index_eq hd₀ ⟨hi', hzi'⟩ ⟨hj', hzj'⟩ hni hnj hname

theorem Exclusive.notStored (hs : Exclusive s₀ root path) : NotStored s₀ s₀ root path where
  geometry :=
    { isDir := fun _ hd => hd
      zone := fun _ _ _ _ => rfl
      good := fun d names i hw hd htail hm => by
        refine ⟨htail, hm.2.2.1, .inl ?_⟩
        obtain _ | ⟨a, _ | ⟨b, names⟩⟩ := names
        · exact absurd rfl htail
        · exact absurd rfl htail
        · exact .step hw hd hm
      unstored := fun _ => ⟨rfl, fun _ _ _ => rfl⟩
      stored := fun _ => (nomatch ·) }
  imap := hs.imap_zero
  zmap _ hz := hz
  block _ _ := .inl rfl
  inj := hs.inj
  taken q m i z hpc := by
    rw [(hs.proc q).2.2] at hpc
    cases hpc
  proc q := by
    obtain ⟨hd, hnames, hpc⟩ := hs.proc q
    refine ⟨hs.goal q, ?_⟩
    rw [hd, hnames, hpc]
    exact ⟨hs.path_ne, hs.root_ne, .inl .start⟩
  visible q m i z hpc := by
    rw [(hs.proc q).2.2] at hpc
    cases hpc

/-- In every run of opens of one path with `O_CREAT | O_EXCL` in which no entry is stored while
another process that looks for the name misses it, at most one call succeeds, and the names of
every directory stay distinct. -/
theorem created_once {es : List (Event n)} (hs : Exclusive s₀ root path)
    (hrun : Runs (fun s ev s' => s.next ev = some s' ∧ ev.isInside = true ∧ Seen s ev) s₀ es s) :
    (∀ p q r r', (s.proc p).pc = .done (.ok r) → (s.proc q).pc = .done (.ok r') → p = q) ∧
      NamesDistinct s := by
  have hphase : NotStored s₀ s root path ∨
      ∃ w d idx names, StoredAt s₀ s root path w d idx names := by
    refine hrun.invariant (I := fun s => NotStored s₀ s root path ∨
      ∃ w d idx names, StoredAt s₀ s root path w d idx names) ?_ (.inl hs.notStored)
    rintro s ev s' hI ⟨hnext, hin, hseen⟩
    -- An event that is not a step of a process changes no directory.
    have hquiet (hq : Quiet s s') (hproc : s'.proc = s.proc) : NotStored s₀ s' root path ∨
        ∃ w d idx names, StoredAt s₀ s' root path w d idx names := by
      have hd := hq.dirs
      refine hI.imp (fun h => ?_) fun ⟨w, d, idx, names, h⟩ => ⟨w, d, idx, names, ?_⟩
      · exact h.quiet hd hproc
      · exact h.congr hd.zone hd.size hd.de hd.isDir (hproc ▸ h.winner) fun q hq =>
          hproc ▸ h.proc q hq
    cases ev with
    | run p =>
      have ht := State.run_trans hnext
      rcases hI with h | ⟨w, d, idx, names, h⟩
      · rcases h.run hs ht with h' | ⟨m, i, z, k, hpc, hscan, rfl⟩
        · exact .inl h'
        · exact .inr ⟨p, _, _, _, h.store hs hpc hscan hseen⟩
      · exact .inr ⟨w, d, idx, names, h.run hs ht⟩
    | flush m =>
      obtain ⟨hq, hproc⟩ := quiet_flush hnext
      exact hquiet hq hproc
    | evict m =>
      obtain ⟨hq, hproc⟩ := quiet_evict hnext
      exact hquiet hq hproc
    | call | close => cases hin
  have hfail {st : Option ℕ} {q : Proc} {r : ℕ} (ho : Opens s₀ s root path st q)
      (hpc : q.pc = .done (.ok r)) : False := by
    have hl := ho.2
    rw [hpc] at hl
    obtain ⟨e, he⟩ := hl
    cases he
  rcases hphase with h | ⟨w, d, idx, names, h⟩
  · exact ⟨fun p q r r' hp => (hfail (h.proc p) hp).elim, h.namesDistinct hs⟩
  · refine ⟨fun p q r r' hp hq => ?_, h.namesDistinct hs⟩
    have hwin : ∀ x r, (s.proc x).pc = .done (.ok r) → x = w := fun x r hx => by
      by_contra hxw
      exact hfail (h.proc x hxw) hx
    rw [hwin p r hp, hwin q r' hq]

/-- Two processes have opened "a" with `O_CREAT | O_EXCL`. -/
def State.creating : State 2 :=
  { State.device 2 [(1, [46])] with
    core := fun m => if m = 1 then some ⟨3, 2, false, false⟩ else none
    proc := fun _ => ⟨.openNamei true true true false, 1, [[97]], .enter, []⟩ }

theorem exclusive_creating : Exclusive State.creating 1 [[97]] := by
  have hdir : ∀ d, State.creating.isDir d = true → d = 1 := fun d hd => of_decide_eq_true hd
  have hzone : ∀ d j, State.creating.zone d j ≠ 0 → j = 0 := by
    intro d j hne
    by_contra hj
    exact hne (if_neg fun h => hj h.2)
  refine ⟨fun _ => ⟨true, false, rfl⟩, fun _ => ⟨rfl, rfl, rfl⟩, by decide, by decide, rfl, rfl,
    fun d hd => ?_, fun d j hd hne => ?_, fun d j d' j' hd hd' hne heq => ?_,
    fun d name i j hd hi hj => ?_⟩
  · rw [hdir d hd]
    decide
  · rw [hdir d hd] at hne ⊢
    rw [hzone 1 j hne]
    decide
  · rw [hzone d j hne, hzone d' j' (heq ▸ hne)]
    exact ⟨(hdir d hd).trans (hdir d' hd').symm, rfl⟩
  · rw [hdir d hd] at hi hj
    have hi : i < 1 := hi.1
    have hj : j < 1 := hj.1
    omega

/-- One process creates the file, and the other one finds it. -/
theorem created_once_inTurn : ∃ es s,
    Runs (fun s ev s' => s.next ev = some s' ∧ ev.isInside = true ∧ Seen s ev) State.creating es s ∧
      (s.proc 0).pc = .done (.ok 2) ∧ (s.proc 1).pc = .done (.error .EEXIST) ∧ NamesDistinct s := by
  have hexec : ∃ s, exec (fun s ev => (State.next s ev).filter fun _ => ev.isInside = true ∧
      ∀ q q', q ≠ q' → (s.proc q).pc.inDir = true → (s.proc q').pc.inDir = false) State.creating
        (List.replicate 8 (.run 0) ++ List.replicate 4 (.run 1)) = some s ∧
      (s.proc 0).pc = .done (.ok 2) ∧ (s.proc 1).pc = .done (.error .EEXIST) := ⟨_, rfl, rfl, rfl⟩
  obtain ⟨s, hs, hfirst, hsecond⟩ := hexec
  have hrun : Runs (fun s ev s' => State.next s ev = some s' ∧ ev.isInside = true ∧ Seen s ev)
      State.creating
      (List.replicate 8 (Event.run 0) ++ List.replicate 4 (Event.run 1)).reverse s := by
    refine (runs_of_exec_guarded hs).mono fun s ev s' ⟨hnext, hin, hguard⟩ => ⟨hnext, hin, ?_⟩
    intro p m i z k _ hpc _ q hq _ _ hmiss
    have hno := hguard p q (Ne.symm hq) (by rw [hpc]; rfl)
    generalize (s.proc q).pc = pc at hmiss hno
    cases pc <;> first | exact (hmiss : False) | cases hno
  exact ⟨_, s, hrun, hfirst, hsecond, (created_once exclusive_creating hrun).2⟩

/-- Both processes find that the name is absent before one of them stores its entry. Both succeed,
and the directory has two entries with the name. -/
theorem created_twice : ∃ es s,
    Runs (fun s ev s' => s.next ev = some s' ∧ ev.isInside = true) State.creating es s ∧
      (s.proc 0).pc = .done (.ok 2) ∧ (s.proc 1).pc = .done (.ok 3) ∧ ¬ NamesDistinct s := by
  have hexec : ∃ s, exec (fun s ev => (State.next s ev).filter fun _ => ev.isInside = true)
      State.creating (List.replicate 3 (.run 0) ++ List.replicate 3 (.run 1) ++
        List.replicate 5 (.run 0) ++ List.replicate 5 (.run 1)) = some s ∧
      (s.proc 0).pc = .done (.ok 2) ∧ (s.proc 1).pc = .done (.ok 3) ∧
        (s.isDir 1 = true ∧ 1 < s.size 1 ∧ 2 < s.size 1 ∧ s.zone 1 0 ≠ 0 ∧
          (s.entry 1 1).inode ≠ 0 ∧ (s.entry 1 2).inode ≠ 0 ∧
            (s.entry 1 1).name = (s.entry 1 2).name) :=
    ⟨_, rfl, rfl, rfl, by decide⟩
  obtain ⟨s, hs, hfirst, hsecond, hdir, h1, h2, hz, hne, hne', hname⟩ := hexec
  exact ⟨_, s, runs_of_exec_guarded hs, hfirst, hsecond, fun hdist =>
    absurd (hdist 1 1 2 hdir h1 h2 hz hz hne hne' hname) (by decide)⟩

end Linux001.Names
