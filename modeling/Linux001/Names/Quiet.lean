import Linux001.Names.References

/-!
# Steps that change no directory and no link

Most steps of a process leave every directory, both bitmaps and every link count as they are.

## Main definitions

* `Pc.inDir`: the positions at which a process works on a directory.
* `CoreKept`: an inode in core keeps its link count.
* `Quiet`: a step keeps the directories and the link counts.

## Main results

* `Calm.quiet`: the steps of `Calm` do so.
-/

namespace Linux001.Names

open Fs (Errno Result)

variable {n : ℕ} {s s' : State n} {p : Fin n}

/-- The positions in `find_entry`, `new_inode` and `add_entry`. -/
def Pc.inDir : Pc → Bool
  | .find _ _ | .findRead _ _ _ | .newInode | .add _ _ | .addNew _ _ _ | .addRead _ _ _ => true
  | _ => false

/-- An inode in core, and its link count on the device, before and after a step that keeps its
links. -/
inductive CoreKept : Option Core → ℕ → Option Core → ℕ → Prop
  | absent (d : ℕ) : CoreKept none d none d
  | load {d : ℕ} {c : Core} (h : c.nlinks = d) : CoreKept none d (some c) d
  | touch {d : ℕ} {c c' : Core} (h : c'.nlinks = c.nlinks) (hd : c.dirt = true → c'.dirt = true) :
      CoreKept (some c) d (some c') d
  | write {d : ℕ} {c c' : Core} (h : c'.nlinks = c.nlinks) : CoreKept (some c) d (some c') c.nlinks
  | evict {d : ℕ} {c : Core} (h : c.dirt = false) : CoreKept (some c) d none d

theorem CoreKept.refl (o : Option Core) (d : ℕ) : CoreKept o d o d := by
  cases o with
  | none => exact .absent d
  | some c => exact .touch rfl id

theorem CoreKept.setCore {m x : ℕ} {c c' : Core} (hc : s.core m = some c)
    (h : c'.nlinks = c.nlinks) (hd : c.dirt = true → c'.dirt = true) :
    CoreKept (s.core x) (s.disk x) ((s.setCore m (some c')).core x) (s.disk x) := by
  rw [State.setCore_core, Function.update_apply]
  split_ifs with hx
  · rw [hx, hc]
    exact .touch h hd
  · exact .refl ..

/-- The directories, the bitmaps and the permissions are those of `s`. -/
structure SameDirs (s s' : State n) : Prop where
  zone : s'.zone = s.zone
  size : s'.size = s.size
  de : s'.de = s.de
  zmap : s'.zmap = s.zmap
  nzones : s'.nzones = s.nzones
  isDir : s'.isDir = s.isDir
  imap : s'.imap = s.imap
  ninodes : s'.ninodes = s.ninodes
  may : s'.may = s.may

/-- The step keeps the directories and the link counts. -/
structure Quiet (s s' : State n) : Prop where
  dirs : SameDirs s s'
  core : ∀ m, CoreKept (s.core m) (s.disk m) (s'.core m) (s'.disk m)

/-- A step that moves the process only is quiet. -/
theorem Quiet.move (hs' : SameDirs s s') (hcore : s'.core = s.core) (hdisk : s'.disk = s.disk) :
    Quiet s s' where
  dirs := hs'
  core m := by
    rw [hcore, hdisk]
    exact .refl ..

/-- A step that stores one inode and moves the process is quiet. -/
theorem Quiet.store {m : ℕ} {c c' : Core} (hs' : SameDirs s s')
    (hcore : s'.core = Function.update s.core m (some c')) (hdisk : s'.disk = s.disk)
    (hc : s.core m = some c) (hlinks : c'.nlinks = c.nlinks)
    (hdirt : c.dirt = true → c'.dirt = true) : Quiet s s' where
  dirs := hs'
  core x := by
    rw [hcore, hdisk]
    exact CoreKept.setCore hc hlinks hdirt

theorem Gets.kept {m : ℕ} {bh : Option (ℕ × ℕ)} {c c' : Core} (hg : Gets s p m bh c c') :
    s.core m = some c ∧ c'.nlinks = c.nlinks ∧ c'.dirt = c.dirt := by
  obtain ⟨hc, ⟨hpc, -, rfl⟩ | ⟨hpc, rfl⟩⟩ := hg <;> exact ⟨hc, rfl, rfl⟩

theorem Quiet.setPc {pc : Pc} : Quiet s (s.setPc p pc) :=
  .move ⟨rfl, rfl, rfl, rfl, rfl, rfl, rfl, rfl, rfl⟩ rfl rfl

theorem Quiet.keep {m : ℕ} {pc : Pc} : Quiet s (s.keep p m pc) :=
  .move ⟨rfl, rfl, rfl, rfl, rfl, rfl, rfl, rfl, rfl⟩ rfl rfl

/-- `iput` goes on with the inode `m`, of which it has changed the counter or the lock. -/
theorem PutReady.quiet {m : ℕ} {a : After} {c c' : Core} {pc : Pc} (h : PutReady s p m a c)
    (hlinks : c'.nlinks = c.nlinks) (hdirt : c'.dirt = c.dirt) :
    Quiet s ((s.setCore m (some c')).setPc p pc) := by
  obtain ⟨-, c₀, hc₀, -, hl₀, hd₀⟩ := h.refs
  exact .store ⟨rfl, rfl, rfl, rfl, rfl, rfl, rfl, rfl, rfl⟩ rfl rfl hc₀ (hlinks.trans hl₀.symm)
    (fun hd => by rw [hdirt, ← hd₀, hd])

theorem Calm.quiet (h : Calm s p s') : Quiet s s' := by
  cases h with
  | denied | absent | create | read | skip | pass | eexist | full | release => exact .setPc
  | itself | stored => exact .keep
  | @load m bh hpc hcore =>
    refine ⟨⟨rfl, rfl, rfl, rfl, rfl, rfl, rfl, rfl, rfl⟩, fun x => ?_⟩
    rw [State.setPc_core, State.setCore_core, Function.update_apply]
    split_ifs with hx
    · rw [hx, hcore]
      exact .load rfl
    · exact .refl ..
  | irregular hg | refuse hg | cut hg | walk hg | opened hg =>
    obtain ⟨hc, hlinks, hdirt⟩ := hg.kept
    exact .store ⟨rfl, rfl, rfl, rfl, rfl, rfl, rfl, rfl, rfl⟩ rfl rfl hc hlinks hdirt.trans
  | looked hg =>
    obtain ⟨hc, hlinks, -⟩ := hg.kept
    exact .store ⟨rfl, rfl, rfl, rfl, rfl, rfl, rfl, rfl, rfl⟩ rfl rfl hc hlinks fun _ => rfl
  | truncated hpc hcore =>
    exact .store ⟨rfl, rfl, rfl, rfl, rfl, rfl, rfl, rfl, rfl⟩ rfl rfl hcore rfl fun _ => rfl
  | @drop m a c h =>
    obtain ⟨c₀, hc₀, hl₀, hd₀⟩ :
        ∃ c₀, s.core m = some c₀ ∧ c₀.nlinks = c.nlinks ∧ c₀.dirt = c.dirt := by
      rcases h with ⟨-, hcore, -⟩ | ⟨hready, -⟩
      · exact ⟨c, hcore, rfl, rfl⟩
      · obtain ⟨-, c₀, hc₀, -, hl₀, hd₀⟩ := hready.refs
        exact ⟨c₀, hc₀, hl₀, hd₀⟩
    rw [State.drop, State.goto_eq]
    exact @Quiet.store _ _ _ m c₀ { c with count := c.count - 1 }
      ⟨rfl, rfl, rfl, rfl, rfl, rfl, rfl, rfl, rfl⟩ rfl rfl hc₀ hl₀.symm fun hd => by rw [← hd₀, hd]
  | putWrite h => exact h.quiet rfl rfl
  | destroy h => exact h.quiet rfl rfl
  | @putStore m a c hpc hcore =>
    refine ⟨⟨rfl, rfl, rfl, rfl, rfl, rfl, rfl, rfl, rfl⟩, fun x => ?_⟩
    simp only [State.setPc_core, State.setPc_disk, State.setCore_core, Function.update_apply]
    split_ifs with hx
    · rw [hx, hcore]
      exact .write rfl
    · exact .refl ..

end Linux001.Names
