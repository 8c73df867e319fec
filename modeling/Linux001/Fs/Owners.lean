import Linux001.Fs.Permissions
import Linux001.Fs.Truncation
import Linux001.Lib.Invariants

/-!
# The owner of a new file

`new_inode` clears the inode and does not store the identities of the process in it, and neither
does `open_namei`. A new file belongs to the user 0 and the group 0, and the process that has
created it is in another class.

## Main definitions

* `Attributes`: what the permissions of an inode depend on.
* `Holds`: the attributes of an inode, in core or on the device.
* `MayReopen`: a process may open the file that it has created.

## Main results

* `maintains_dirNamei`, `maintains_iput`, …: the attributes of an inode with links are kept.
* `reopen_iff`: when a process may open the file that it has created.
* `not_reopen_user`: an ordinary process may not write to its own file.
-/

namespace Linux001.Fs

variable (sb : Super)

/-! ### Attributes -/

/-- The fields of an inode that `permission` looks at. -/
structure Attributes where
  mode : UInt16
  uid : ℕ
  gid : ℕ
  nlinks : ℕ
  deriving DecidableEq

def Inode.attributes (i : Inode) : Attributes := ⟨i.mode, i.uid, i.gid, i.nlinks⟩

/-- The inode `n` has the attributes: they are in core if the inode is, and on the device unless the
inode in core is marked as changed. -/
structure Holds (n : ℕ) (a : Attributes) (s : State) : Prop where
  core : s.count n ≠ 0 → (s.ino n).attributes = a
  disk : s.count n = 0 ∨ s.dirt n = false → (s.diskIno n).attributes = a

variable {sb} {n : ℕ} {a : Attributes}

/-- The buffers and the bitmaps do not matter. -/
theorem Holds.congr {s s' : State} (h : Holds n a s) (hino : s'.ino = s.ino)
    (hcount : s'.count = s.count) (hdirt : s'.dirt = s.dirt) (hdisk : s'.diskIno = s.diskIno) :
    Holds n a s' := by
  refine ⟨fun hc => ?_, fun hc => ?_⟩
  · rw [hino]
    exact h.core (hcount ▸ hc)
  · rw [hcount, hdirt] at hc
    rw [hdisk]
    exact h.disk hc

theorem maintains_onCache (f : Cache → Option Cache) (e : Fault) :
    Maintains (Holds n a) (onCache f e) := by
  refine fun s h => ensures_onCache.mono fun _ s' ⟨c, _, hs'⟩ => ?_
  rw [hs']
  exact h.congr rfl rfl rfl rfl

theorem maintains_bread (z : ℕ) : Maintains (Holds n a) (bread z) := maintains_onCache _ _

theorem maintains_brelse (z : ℕ) : Maintains (Holds n a) (brelse z) := maintains_onCache _ _

theorem maintains_store (z : ℕ) (f : Block → Block) : Maintains (Holds n a) (store z f) :=
  .update fun _ h => h.congr rfl rfl rfl rfl

/-- Changes of an inode that keep the attributes. -/
theorem maintains_edit (k : ℕ) {f : Inode → Inode} (hf : ∀ i, (f i).attributes = i.attributes) :
    Maintains (Holds n a) (edit k f) := by
  refine .update fun s h => ⟨fun hc => ?_, h.disk⟩
  dsimp only
  by_cases hk : n = k
  · subst hk
    rw [Function.update_self, hf]
    exact h.core hc
  · rw [Function.update_of_ne hk]
    exact h.core hc

theorem maintains_markDirty (k : ℕ) : Maintains (Holds n a) (markDirty k) := by
  refine .update fun s h => ⟨h.core, fun hc => h.disk (hc.imp_right fun hd => ?_)⟩
  dsimp only at hd
  rw [Function.update_apply] at hd
  split_ifs at hd
  exact hd

theorem maintains_newBlock : Maintains (Holds n a) (newBlock sb) := by
  refine .read_bind fun s => ?_
  split
  · exact .pure _
  · refine Maintains.bind (.update fun _ h => h.congr rfl rfl rfl rfl) fun _ => ?_
    refine .ite (.pure _) (Maintains.bind (maintains_onCache _ _) fun _ => .read_bind fun _ => ?_)
    refine .ite (.throw _) (Maintains.bind (maintains_store _ _) fun _ => ?_)
    exact (maintains_brelse _).bind fun _ => .pure _

theorem maintains_bmapZone (k j : ℕ) (create : Bool) :
    Maintains (Holds n a) (bmapZone sb k j create) := by
  refine .read_bind fun s => .ite (Maintains.bind maintains_newBlock fun z => ?_) (.pure _)
  refine Maintains.bind (maintains_edit k fun _ => rfl) fun _ => ?_
  exact .ite (maintains_markDirty k) (.pure _)

theorem maintains_bmapTable (t j : ℕ) (create : Bool) :
    Maintains (Holds n a) (bmapTable sb t j create) := by
  refine Maintains.bind (maintains_bread t) fun _ => .read_bind fun s => .ite ?_ ?_
  · refine Maintains.bind maintains_newBlock fun z => ?_
    refine .ite (Maintains.bind (maintains_store t _) fun _ => ?_) ?_
    · exact (maintains_brelse t).bind fun _ => .pure _
    · exact (maintains_brelse t).bind fun _ => .pure _
  · exact (maintains_brelse t).bind fun _ => .pure _

theorem maintains_bmapAux (k block : ℕ) (create : Bool) :
    Maintains (Holds n a) (bmapAux sb k block create) := by
  have hzone (j : ℕ) : Maintains (Holds n a) (bmapZone sb k j create) :=
      maintains_bmapZone k j create
  have htable (t j : ℕ) : Maintains (Holds n a) (bmapTable sb t j create) :=
    maintains_bmapTable t j create
  refine .ite (.throw _) (.ite ?_ (.ite ?_ ?_))
  · exact (hzone block).bind fun _ => .read_bind fun _ => .pure _
  · exact (hzone 7).bind fun _ => .read_bind fun _ => .ite (.pure _) (htable _ _)
  · refine (hzone 8).bind fun _ => .read_bind fun _ => .ite (.pure _) ?_
    exact (htable _ _).bind fun _ => .ite (.pure _) (htable _ _)

/-! ### Directory entries -/

/-- The buffer that a search has held is released at its end. -/
theorem maintains_release {α : Type} (bh : Option ℕ) (r : α) : Maintains (Holds n a) (match bh with
    | none => pure r
    | some z => do
      brelse z
      pure r) := by
  cases bh with
  | none => exact .pure _
  | some z => exact (maintains_brelse z).bind fun _ => .pure _

/-- The next block of a directory. -/
theorem maintains_nextBlock (m : M ℕ) (hm : Maintains (Holds n a) m) :
    Maintains (Holds n a) (do
      let block ← m
      if block = 0 then pure none
      else do
        bread block
        pure (some block)) :=
  hm.bind fun _ => .ite (.pure _) ((maintains_bread _).bind fun _ => .pure _)

theorem maintains_findBlock (dir i : ℕ) (bh : Option ℕ) :
    Maintains (Holds n a) (findBlock sb dir i bh) := by
  refine .ite ?_ (.pure _)
  have hbmap : Maintains (Holds n a) (bmapAux sb dir (i / 64) false) :=
    maintains_bmapAux _ _ _
  have hnext := maintains_nextBlock _ hbmap
  cases bh with
  | none => exact hnext
  | some z => exact (maintains_brelse z).bind fun _ => hnext

theorem maintains_findFrom (dir : ℕ) (name : List UInt8) (entries fuel i : ℕ) (bh : Option ℕ) :
    Maintains (Holds n a) (findFrom sb dir name entries fuel i bh) := by
  induction fuel generalizing i bh with
  | zero =>
    unfold findFrom
    exact maintains_release bh none
  | succ fuel ih =>
    unfold findFrom
    cases decide (i < entries) with
    | false => exact maintains_release bh none
    | true =>
      refine (maintains_findBlock dir i bh).bind fun r => ?_
      rcases r with - | z
      · exact ih (i + 64) none
      · exact .read_bind fun s => .ite (.pure _) (ih (i + 1) (some z))

theorem maintains_findEntry (dir : ℕ) (name : List UInt8) :
    Maintains (Holds n a) (findEntry sb dir name) := by
  refine .read_bind fun s => .ite (.pure _) (.ite (.pure _) ?_)
  exact (maintains_bread _).bind fun _ => maintains_findFrom _ _ _ _ _ _

theorem maintains_addBlock (dir i bh : ℕ) : Maintains (Holds n a) (addBlock sb dir i bh) := by
  refine .ite ((maintains_brelse bh).bind fun _ => ?_) (.pure _)
  exact maintains_nextBlock _ (maintains_bmapAux dir (i / 64) true)

/-- An entry of a directory is taken, or the search goes on. -/
theorem maintains_takeEntry (dir i z : ℕ) (name : List UInt8) {rest : M (Option (ℕ × ℕ))}
    (hrest : Maintains (Holds n a) rest) : Maintains (Holds n a) (do
      let s ← get
      if (s.ino dir).size ≤ i * 16 then do
        store z fun b => setEntryInode b (i % 64) 0
        edit dir fun v => { v with size := (i + 1) * 16 }
        markDirty dir
      else pure ()
      let s ← get
      if entryInode (s.data z) (i % 64) = 0 then do
        store z fun b => setEntryName b (i % 64) ((List.range 14).map fun i => name.getD i 0)
        pure (some (z, i % 64))
      else rest) := by
  have htake : Maintains (Holds n a) (do
      let s ← get
      if entryInode (s.data z) (i % 64) = 0 then do
        store z fun b => setEntryName b (i % 64) ((List.range 14).map fun i => name.getD i 0)
        pure (some (z, i % 64))
      else rest) :=
    .read_bind fun s => .ite ((maintains_store z _).bind fun _ => .pure _) hrest
  refine .read_bind fun s => .ite ?_ htake
  refine (maintains_store z _).bind fun _ => ?_
  refine Maintains.bind ?_ fun _ => (maintains_markDirty dir).bind fun _ => htake
  exact maintains_edit dir fun _ => rfl

theorem maintains_addFrom (dir : ℕ) (name : List UInt8) (fuel i bh : ℕ) :
    Maintains (Holds n a) (addFrom sb dir name fuel i bh) := by
  induction fuel generalizing i bh with
  | zero =>
    rw [addFrom]
    refine (maintains_addBlock dir i bh).bind fun r => ?_
    rcases r with - | z
    · exact .pure _
    · exact maintains_takeEntry dir i z name (.throw _)
  | succ fuel ih =>
    rw [addFrom]
    refine (maintains_addBlock dir i bh).bind fun r => ?_
    rcases r with - | z
    · exact .pure _
    · exact maintains_takeEntry dir i z name (ih (i + 1) z)

theorem maintains_addEntry (dir : ℕ) (name : List UInt8) :
    Maintains (Holds n a) (addEntry sb dir name) := by
  refine .read_bind fun s => .ite (.pure _) (.ite (.pure _) ?_)
  exact (maintains_bread _).bind fun _ => maintains_addFrom _ _ _ _ _

/-! ### Giving back and getting inodes -/

/-- Writing back an inode in core. -/
theorem ensures_writeInode {k : ℕ} {s : State} (h : Holds n a s) (hk : s.count k ≠ 0) :
    Ensures (writeInode sb k) s fun _ s' =>
      Holds n a s' ∧ s'.count = s.count ∧ s'.dirt k = false := by
  refine ensures_onCache.bind fun _ s₁ ⟨c, _, hs₁⟩ => ensures_modify_bind.mpr ?_
  refine ensures_modify_bind.mpr (ensures_onCache.mono fun _ s₂ ⟨c', _, hs₂⟩ => ?_)
  subst hs₁ hs₂
  refine ⟨⟨h.core, fun hc => ?_⟩, rfl, Function.update_self ..⟩
  dsimp only at hc ⊢
  by_cases hn : n = k
  · subst hn
    rw [Function.update_self]
    exact h.core hk
  · rw [Function.update_of_ne hn] at hc ⊢
    exact h.disk hc

/-- The counter of an inode is changed, without reaching 0 for a changed one. -/
theorem Holds.setCount {s : State} (h : Holds n a s) {k c : ℕ} (hk : s.count k ≠ 0)
    (hc : c = 0 → s.dirt k = false) :
    Holds n a { s with count := Function.update s.count k c } := by
  by_cases hn : n = k
  · subst hn
    refine ⟨fun _ => h.core hk, fun hdisk => h.disk (Or.inr ?_)⟩
    dsimp only at hdisk
    rw [Function.update_self] at hdisk
    exact hdisk.elim hc id
  · refine ⟨fun hcount => h.core ?_, fun hdisk => h.disk ?_⟩
    · dsimp only at hcount
      rwa [Function.update_of_ne hn] at hcount
    · dsimp only at hdisk
      rwa [Function.update_of_ne hn] at hdisk

theorem maintains_freeBlock (z : ℕ) : Maintains (Holds n a) (freeBlock sb z) := by
  refine .read_bind fun s => .ite (.throw _) (.ite ?_ (.ite (.throw _) ?_))
  · exact .update fun _ h => h.congr rfl rfl rfl rfl
  · exact .update fun _ h => h.congr rfl rfl rfl rfl

theorem maintains_freeTable {body : ℕ → M Unit} (hbody : ∀ z, Maintains (Holds n a) (body z))
    (t : ℕ) :
    Maintains (Holds n a) (freeTable sb body t) := by
  refine (maintains_bread t).bind fun _ => Maintains.bind (.forM fun i => ?_) fun _ => ?_
  · exact .read_bind fun s => .ite (hbody _) (.pure _)
  · exact (maintains_brelse t).bind fun _ => maintains_freeBlock t

theorem maintains_truncate (k : ℕ) : Maintains (Holds n a) (truncate sb k) := by
  have hind (t : ℕ) : Maintains (Holds n a) (freeInd sb t) :=
    .ite (.pure _) (maintains_freeTable maintains_freeBlock t)
  have hdind (t : ℕ) : Maintains (Holds n a) (freeDind sb t) :=
    .ite (.pure _) (maintains_freeTable hind t)
  refine .read_bind fun s => .ite (Maintains.bind (.forM fun i => ?_) fun _ => ?_) (.pure _)
  · refine .read_bind fun s => .ite ((maintains_freeBlock _).bind fun _ => ?_) (.pure _)
    exact maintains_edit k fun _ => rfl
  · refine .read_bind fun s => (hind _).bind fun _ => (hdind _).bind fun _ => ?_
    exact Maintains.bind (maintains_edit k fun _ => rfl) fun _ => maintains_markDirty k

/-- Freeing another inode. -/
theorem maintains_freeInode {k : ℕ} (hk : n ≠ k) : Maintains (Holds n a) (freeInode sb k) := by
  refine .read_bind fun s => .ite (.throw _)
    (.ite (.throw _) (.ite (.throw _) (.ite (.throw _) ?_)))
  refine .update fun s h => ⟨fun hc => ?_, fun hc => ?_⟩
  · dsimp only at hc ⊢
    rw [Function.update_of_ne hk] at hc ⊢
    exact h.core hc
  · dsimp only at hc
    rw [Function.update_of_ne hk, Function.update_of_ne hk] at hc
    exact h.disk hc

/-- `iput` keeps the attributes of an inode with links, which it neither frees nor forgets to write
back. -/
theorem maintains_iput (ha : a.nlinks ≠ 0) (k : ℕ) : Maintains (Holds n a) (iput sb k) := by
  refine .get_bind fun s h => ensures_ite (fun _ => ensures_throw) fun hk => ?_
  refine ensures_ite (fun hc => ensures_modify.mpr ?_) fun hc => ?_
  · exact h.setCount hk fun h0 => absurd h0 (by omega)
  refine ensures_ite (fun hlinks => ?_) fun _ => ?_
  · have hn : n ≠ k := by
      rintro rfl
      have hcore := h.core hk
      rw [← hcore] at ha
      exact ha hlinks
    refine ensures_modify_bind.mpr (Ensures.bind ?_ fun _ s' h' => maintains_freeInode hn s' h')
    exact maintains_truncate k _ (h.congr rfl rfl rfl rfl)
  · refine ensures_ite (fun _ => ?_) fun hdirt => ensures_modify.mpr ?_
    · refine (ensures_writeInode h hk).bind fun _ s' ⟨h', hcount, hdirt⟩ => ensures_modify.mpr ?_
      exact h'.setCount (hcount ▸ hk) fun _ => hdirt
    · exact h.setCount hk fun _ => Bool.eq_false_iff.mpr hdirt

theorem ensures_getEmptyInode {s : State} : Ensures (getEmptyInode sb) s fun _ s' => s' = s :=
  ensures_get_bind.mpr (ensures_ite (fun _ => ensures_throw) fun _ => ensures_pure.mpr rfl)

/-- `iget` reads the attributes from the device if the inode is not in core, and the inode is in
core after it. -/
theorem ensures_iget (k : ℕ) {s : State} (h : Holds n a s) :
    Ensures (iget sb k) s fun _ s' => Holds n a s' ∧ s'.count k ≠ 0 := by
  refine ensures_getEmptyInode.bind fun _ s₀ hs₀ => ensures_get_bind.mpr ?_
  subst hs₀
  refine ensures_ite (fun hk => ?_) fun hk => ensures_modify.mpr ?_
  · refine ensures_modify_bind.mpr (ensures_onCache.bind fun _ s₁ ⟨c, _, hs₁⟩ => ?_)
    refine ensures_modify_bind.mpr (ensures_onCache.mono fun _ s₂ ⟨c', _, hs₂⟩ => ?_)
    subst hs₁ hs₂
    dsimp only
    refine ⟨⟨fun hc => ?_, fun hc => ?_⟩, ?_⟩
    · dsimp only at hc ⊢
      by_cases hn : n = k
      · subst hn
        rw [Function.update_self]
        exact h.disk (Or.inl hk)
      · rw [Function.update_of_ne hn] at hc ⊢
        exact h.core hc
    · dsimp only at hc ⊢
      by_cases hn : n = k
      · subst hn
        exact h.disk (Or.inl hk)
      · rw [Function.update_of_ne hn, Function.update_of_ne hn] at hc
        exact h.disk hc
    · rw [Function.update_self]
      exact one_ne_zero
  · refine ⟨h.setCount hk fun h0 => absurd h0 (Nat.succ_ne_zero _), ?_⟩
    dsimp only
    rw [Function.update_self]
    exact Nat.succ_ne_zero _

theorem maintains_iget (k : ℕ) : Maintains (Holds n a) (iget sb k) :=
  fun _ h => (ensures_iget k h).mono fun _ _ h' => h'.1

/-! ### Walking a path -/

theorem maintains_getDirFrom (ha : a.nlinks ≠ 0) (current : Task) (k : ℕ)
    (names : List (List UInt8)) :
    Maintains (Holds n a) (getDirFrom sb current k names) := by
  have hput (k : ℕ) : Maintains (Holds n a) (do
      iput sb k
      pure (none : Option ℕ)) := (maintains_iput ha k).bind fun _ => .pure _
  induction names generalizing k with
  | nil =>
    rw [getDirFrom]
    exact .read_bind fun s => .ite (hput k) (.pure _)
  | cons name rest ih =>
    rw [getDirFrom]
    refine .read_bind fun s => .ite (hput k) ((maintains_findEntry k name).bind fun r => ?_)
    rcases r with - | de
    · exact hput k
    · refine .read_bind fun s => (maintains_brelse _).bind fun _ => ?_
      exact (maintains_iput ha k).bind fun _ => (maintains_iget _).bind fun _ => ih _

theorem maintains_getDir (ha : a.nlinks ≠ 0) (current : Task) (pathname : List UInt8) :
    Maintains (Holds n a) (getDir sb current pathname) := by
  refine .get_bind fun s h => ensures_ite (fun _ => ensures_throw) fun hroot => ?_
  refine ensures_ite (fun _ => ensures_throw) fun hpwd => ?_
  cases pathname with
  | nil => exact ensures_pure.mpr h
  | cons c rest =>
    refine ensures_modify_bind.mpr (maintains_getDirFrom ha current _ _ _ ?_)
    refine h.setCount ?_ fun h0 => absurd h0 (Nat.succ_ne_zero _)
    split_ifs
    · exact hroot
    · exact hpwd

theorem maintains_dirNamei (ha : a.nlinks ≠ 0) (current : Task) (pathname : List UInt8) :
    Maintains (Holds n a) (dirNamei sb current pathname) := by
  refine (maintains_getDir ha current pathname).bind fun r => ?_
  rcases r with - | dir
  · exact .pure _
  · exact .pure _

/-! ### Creating a file -/

/-- `new_inode` leaves an inode without an owner, with one link, and marked as changed. -/
theorem ensures_newInode {s : State} : Ensures (newInode sb) s fun r s' => ∀ n, r = some n →
    s'.ino n = { Inode.zero with nlinks := 1 } ∧ s'.count n = 1 ∧ s'.dirt n = true := by
  refine ensures_getEmptyInode.bind fun _ s₀ hs₀ => ensures_get_bind.mpr ?_
  split
  · exact ensures_pure.mpr fun _ h => by cases h
  · rename_i k _
    refine ensures_ite (fun _ => ensures_pure.mpr fun _ h => by cases h) fun _ => ?_
    refine ensures_modify_bind.mpr (ensures_pure.mpr fun n hn => ?_)
    obtain rfl := Option.some.inj hn
    exact ⟨Function.update_self .., Function.update_self .., Function.update_self ..⟩

/-- A file that is created belongs to the user 0 and the group 0. -/
theorem ensures_openCreate (current : Task) (dir : ℕ) (basename : List UInt8) (flag mode : UInt16)
    {s : State} : Ensures (openCreate sb current dir basename flag mode) s fun r s' =>
      ∀ n, r = .ok n → Holds n ⟨mode, 0, 0, 1⟩ s' := by
  have herror (e : Errno) (m : M PUnit) {s : State} : Ensures (do
      m
      pure (.error e : Result)) s fun r s' => ∀ n, r = .ok n → Holds n ⟨mode, 0, 0, 1⟩ s' :=
    Ensures.self.bind fun _ _ _ => ensures_pure.mpr fun _ h => nomatch h
  refine ensures_get_bind.mpr (ensures_ite (fun _ => herror _ _) fun _ => ?_)
  refine ensures_ite (fun _ => herror _ _) fun _ => ensures_newInode.bind fun r s₁ hnew => ?_
  rcases r with - | n
  · exact herror _ _
  obtain ⟨hino, hcount, hdirt⟩ := hnew n rfl
  refine ensures_modify_bind.mpr (ensures_modify_bind.mpr ?_)
  -- The inode is in core, and marked as changed.
  have hholds : Holds n ⟨mode, 0, 0, 1⟩ { s₁ with
      ino := Function.update s₁.ino n { s₁.ino n with mode := mode }
      dirt := Function.update s₁.dirt n true } := by
    refine ⟨fun _ => ?_, fun hc => ?_⟩
    · dsimp only
      rw [Function.update_self, hino]
      rfl
    · dsimp only at hc
      rw [Function.update_self, hcount] at hc
      simp at hc
  refine (maintains_addEntry dir basename _ hholds).bind fun r s₂ hs₂ => ?_
  rcases r with - | de
  · refine Ensures.self.bind fun _ _ _ => Ensures.self.bind fun _ _ _ => herror _ _
  · refine (maintains_store _ _ s₂ hs₂).bind fun _ s₃ hs₃ => ?_
    refine (maintains_brelse _ s₃ hs₃).bind fun _ s₄ hs₄ => ?_
    refine (maintains_iput one_ne_zero dir s₄ hs₄).bind fun _ s₅ hs₅ => ensures_pure.mpr ?_
    intro n' hn'
    obtain rfl := Except.ok.inj hn'
    exact hs₅

/-- The mode of a file that the process creates. -/
def newMode (c : Task) (mode : UInt16) : UInt16 := mode &&& 0o777 &&& ~~~c.umask ||| 0o100000

theorem ensures_created (current : Task) (pathname : List UInt8) (flag mode : UInt16) {s : State} :
    Ensures (openNameiGrant sb current pathname flag mode) s fun r s' =>
      ∀ n, r = .ok (n, .created) → Holds n ⟨newMode current mode, 0, 0, 1⟩ s' := by
  unfold openNameiGrant
  extract_lets flag' mode'
  refine Ensures.self.bind fun r s₁ _ => ?_
  rcases r with - | ⟨dir, basename⟩
  · exact ensures_pure.mpr fun _ h => nomatch h
  refine ensures_ite (fun _ => ?_) fun _ => Ensures.self.bind fun r s₂ _ => ?_
  · refine ensures_ite (fun _ => ensures_pure.mpr fun _ h => nomatch h) fun _ => ?_
    exact Ensures.self.bind fun _ _ _ => ensures_pure.mpr fun _ h => nomatch h
  rcases r with - | de
  · refine (ensures_openCreate current dir basename flag' mode').bind fun r s₃ hr => ?_
    refine ensures_pure.mpr fun n hn => ?_
    rcases r with e | k
    · cases hn
    · obtain ⟨rfl, -⟩ := Prod.mk.inj (Except.ok.inj hn)
      exact hr k rfl
  · refine ensures_get_bind.mpr (Ensures.self.bind fun _ s₃ _ => Ensures.self.bind fun _ s₄ _ => ?_)
    refine ensures_ite (fun _ => ensures_pure.mpr fun _ h => nomatch h) fun _ => ?_
    refine Ensures.self.bind fun _ s₅ _ =>
      ensures_get_bind.mpr (ensures_ite (fun _ => ?_) fun _ => ?_)
    · exact Ensures.self.bind fun _ _ _ => ensures_pure.mpr fun _ h => nomatch h
    · have hend {i : Inode} {k : ℕ} {s : State} : Ensures (pure (.ok (k, .checked current i)) :
          M (Except Errno (ℕ × Grant))) s fun r s' =>
            ∀ n, r = .ok (n, .created) → Holds n ⟨newMode current mode, 0, 0, 1⟩ s' :=
        ensures_pure.mpr fun _ h => nomatch h
      exact ensures_ite (fun _ => Ensures.self.bind fun _ _ _ => hend) fun _ => hend

/-! ### Opening it again -/

def O_RDWR : UInt16 := 2

/-- A process may open for reading and writing what it has created with the mode: it is privileged,
or the class in which it is for a file of the user 0 and the group 0 has both bits. -/
def MayReopen (c : Task) (mode : UInt16) : Prop :=
  c.uid = 0 ∨ c.euid = 0 ∨
    (if c.gid = 0 ∨ c.egid = 0 then Class.group.bits mode else Class.other.bits mode) &&& 6 = 6

/-- The path leads to the inode `n`. -/
def Leads (sb : Super) (current : Task) (pathname : List UInt8) (s : State) (n : ℕ) : Prop :=
  ∃ dir basename s₁ de s₂, dirNamei sb current pathname s = .ok (some (dir, basename), s₁) ∧
    basename ≠ [] ∧ findEntry sb dir basename s₁ = .ok (some de, s₂) ∧
    entryInode (s₂.data de.1) de.2 = n

theorem permission_attributes {c : Task} {i : Inode} {mode : UInt16}
    (hi : i.attributes = ⟨mode, 0, 0, 1⟩) : permission c i 6 = 6 ↔ MayReopen c mode := by
  obtain ⟨hmode, huid, hgid, hlinks⟩ := Attributes.mk.inj hi
  have hand (x : UInt16) : x &&& 6 &&& 7 = x &&& 7 &&& 6 := by
    rw [UInt16.and_assoc, UInt16.and_assoc]
    rfl
  unfold permission MayReopen
  rw [if_neg (hlinks ▸ one_ne_zero), huid, hgid, hmode]
  dsimp only
  by_cases huser : c.uid ≠ 0 ∧ c.euid ≠ 0
  · obtain ⟨h₁, h₂⟩ := huser
    rw [if_neg (not_not.mpr ⟨h₁, h₂⟩), if_neg (not_or.mpr ⟨h₁, h₂⟩)]
    simp only [h₁, h₂, false_or]
    split_ifs <;> rw [hand] <;> rfl
  · rw [if_pos huser]
    refine iff_of_true (by decide) ?_
    rcases not_and_or.mp huser with huid | heuid
    · exact Or.inl (not_not.mp huid)
    · exact Or.inr (Or.inl (not_not.mp heuid))

/-- The new file is a regular file. -/
theorem newMode_type (c : Task) (mode : UInt16) : newMode c mode &&& 0o170000 = 0o100000 := by
  have hbits : mode &&& (0o777 : UInt16) &&& ~~~c.umask &&& 0o170000 = 0 := by
    have hmask : (0o777 : UInt16) &&& 0o170000 = 0 := by decide
    rw [UInt16.and_assoc, UInt16.and_comm (~~~c.umask), ← UInt16.and_assoc, UInt16.and_assoc mode,
      hmask, UInt16.and_zero, UInt16.zero_and]
  have hdistrib (x y z : UInt16) : (x ||| y) &&& z = x &&& z ||| y &&& z :=
    UInt16.toBitVec_inj.1 BitVec.and_or_distrib_right
  rw [newMode, hdistrib, hbits]
  rfl

/-- `open_namei` of the file, for reading and writing. -/
theorem ensures_reopen {c c' : Task} {pathname : List UInt8} {bits mode : UInt16} {s : State}
    (h : Holds n ⟨newMode c' mode, 0, 0, 1⟩ s) (hleads : Leads sb c pathname s n) :
    Ensures (openNamei sb c pathname O_RDWR bits) s fun r s' =>
      (r = .ok n ∧ sIschr (s'.ino n).mode = false ∧ MayReopen c (newMode c' mode)) ∨
      (r = .error .EPERM ∧ ¬ MayReopen c (newMode c' mode)) := by
  obtain ⟨dir, basename, s₁, de, s₂, hdir, hbase, hentry, hinode⟩ := hleads
  have hflag : (if O_RDWR &&& O_TRUNC ≠ 0 ∧ O_RDWR &&& O_ACCMODE = 0 then O_RDWR ||| O_WRONLY
      else O_RDWR) = O_RDWR := if_neg (by decide)
  have h₁ := maintains_dirNamei one_ne_zero c pathname s h _ s₁ hdir
  have h₂ := maintains_findEntry dir basename s₁ h₁ _ s₂ hentry
  unfold openNamei
  dsimp only
  rw [hflag]
  refine ensures_of_ok hdir ?_
  dsimp only
  rw [if_neg hbase]
  refine ensures_of_ok hentry ?_
  subst hinode
  refine ensures_get_bind.mpr ((maintains_brelse _ s₂ h₂).bind fun _ s₃ h₃ => ?_)
  refine (maintains_iput one_ne_zero dir s₃ h₃).bind fun _ s₄ h₄ => ?_
  refine ensures_ite (fun hexcl => absurd (show O_RDWR &&& O_EXCL = 0 by decide) hexcl) fun _ => ?_
  refine (ensures_iget _ h₄).bind fun _ s₅ ⟨h₅, hcount⟩ => ensures_get_bind.mpr ?_
  have hattributes := h₅.core hcount
  have hmode := (Attributes.mk.inj hattributes).1
  have hpermission := permission_attributes (c := c) hattributes
  refine ensures_ite (fun hdenied => ?_) fun hgranted => ?_
  · refine Ensures.self.bind fun _ s₆ _ => ensures_pure.mpr (Or.inr ⟨rfl, fun hmay => ?_⟩)
    rcases hdenied with ⟨hisdir, -⟩ | hdenied
    · rw [hmode, sIsdir, newMode_type] at hisdir
      exact absurd hisdir (by decide)
    · exact hdenied (hpermission.mpr hmay)
  · have hmay := hpermission.mp (not_not.mp (not_or.mp hgranted).2)
    refine ensures_ite (fun htrunc => absurd (show O_RDWR &&& O_TRUNC = 0 by decide) htrunc)
      fun _ => ensures_pure.mpr (Or.inl ⟨rfl, ?_, hmay⟩)
    rw [hmode, sIschr, newMode_type]
    decide

theorem ensures_openTty (t : Fin 64) (n : ℕ) (S : System) : Ensures (openTty t n) S fun go S' =>
    S'.fs = S.fs ∧ (sIschr (S.fs.ino n).mode = false → go = true) := by
  refine ensures_get_bind.mpr (ensures_ite (fun _ => ensures_pure.mpr ⟨rfl, fun _ => rfl⟩)
    fun hchr => ?_)
  have hend (b : Bool) {S' : System} (hfs : S'.fs = S.fs) :
      Ensures (pure b : K Bool) S' fun go S'' =>
      S''.fs = S.fs ∧ (sIschr (S.fs.ino n).mode = false → go = true) :=
    ensures_pure.mpr ⟨hfs, fun hc => absurd hc hchr⟩
  refine ensures_ite (fun _ => ensures_ite (fun _ => ?_) fun _ => hend true rfl) fun _ => ?_
  · exact ensures_modify_bind.mpr (ensures_modify_bind.mpr (hend true rfl))
  · exact ensures_ite (fun _ => hend _ rfl) fun _ => hend true rfl

/-- What `sys_open` returns, when there are a free descriptor and a free entry of the file table: it
fails with `open_namei`, and it succeeds for a file that is not a character device. -/
theorem ensures_sysOpen_namei (t : Fin 64) (filename : List UInt8) (flag mode : UInt16)
    (S : System) :
    Ensures (sysOpen sb t filename flag mode) S fun r S' => r = .error .EINVAL ∨
      ∃ x s, openNamei sb (S.tasks t) filename flag (mode &&& 0o777 &&& ~~~(S.tasks t).umask) S.fs =
          .ok (x, s) ∧ (∀ e, x = .error e → r = .error e) ∧
        ∀ n, x = .ok n → (sIschr (s.ino n).mode = false → ∃ fd, r = .ok fd) ∧
          ∀ fd, r = .ok fd → S'.fs = s := by
  refine ensures_get_bind.mpr ?_
  dsimp only
  cases (List.finRange 20).find? fun fd => (S.tasks t).filp fd = none with
  | none => exact ensures_pure.mpr (Or.inl rfl)
  | some i =>
    dsimp only
    refine ensures_modify_bind.mpr ?_
    cases (List.finRange 64).find? fun f => (S.files f).count = 0 with
    | none => exact ensures_pure.mpr (Or.inl rfl)
    | some f =>
      refine ensures_modify_bind.mpr (ensures_modify_bind.mpr ?_)
      refine ensures_onFs_eq.bind fun x S₁ ⟨s, hx, hS₁⟩ => ?_
      have hfail (e : Errno) {S : System} : Ensures (openFail t i f e) S fun r _ => r = .error e :=
        Ensures.self.bind fun _ _ _ => Ensures.self.bind fun _ _ _ => ensures_pure.mpr rfl
      rcases x with e | n
      · refine (hfail e).mono fun r S' hr =>
          Or.inr ⟨.error e, s, hx, fun e' he => ?_, fun _ hn => nomatch hn⟩
        rw [hr, Except.error.inj he]
      · have hfs : S₁.fs = s := by rw [hS₁]
        refine Ensures.mono (Q := fun r S' => (sIschr (s.ino n).mode = false → ∃ fd, r = .ok fd) ∧
          ∀ fd, r = .ok fd → S'.fs = s) ?_ fun r S' hr => Or.inr ?_
        · refine (ensures_openTty t n S₁).bind fun go S₂ ⟨hS₂, hgo⟩ => ?_
          rw [hfs] at hS₂ hgo
          refine ensures_ite (fun hstop => ?_) fun _ => ensures_get_bind.mpr ?_
          · refine Ensures.self.bind fun _ _ _ => (hfail .EPERM).mono fun r _ hr => ?_
            subst hr
            exact ⟨fun hchr => absurd ((hgo hchr).symm.trans hstop) Bool.noConfusion,
              fun _ h => nomatch h⟩
          · exact ensures_modify_bind.mpr (ensures_pure.mpr ⟨fun _ => ⟨_, rfl⟩, fun _ _ => hS₂⟩)
        · refine ⟨.ok n, s, hx, (fun _ he => nomatch he), fun k hk => ?_⟩
          rw [← Except.ok.inj hk]
          exact hr

/-- What `permission` looks at in a process. -/
def Task.ids (c : Task) : ℕ × ℕ × ℕ × ℕ := (c.uid, c.euid, c.gid, c.egid)

theorem mayReopen_congr {c c' : Task} (h : c'.ids = c.ids) (mode : UInt16) :
    MayReopen c' mode ↔ MayReopen c mode := by
  simp only [Task.ids, Prod.mk.injEq] at h
  obtain ⟨huid, heuid, hgid, hegid⟩ := h
  rw [MayReopen, MayReopen, huid, heuid, hgid, hegid]

/-- The umask is applied in `sys_open` and again in `open_namei`. -/
theorem newMode_masked (c : Task) (mode : UInt16) :
    newMode c (mode &&& 0o777 &&& ~~~c.umask) = newMode c mode := by
  have htwice (x m : UInt16) : x &&& m &&& m = x &&& m := by
    rw [UInt16.and_assoc, UInt16.and_self]
  rw [newMode, UInt16.and_assoc _ _ (~~~c.umask), UInt16.and_assoc mode, htwice, newMode,
    UInt16.and_assoc mode]

/-- A process creates a file with `sys_open`, which then has the user 0, the group 0 and the mode
that the umask leaves; and if nothing changes that, the process may open the file for reading and
writing if and only if it is privileged or its class for such a file has both bits. -/
theorem reopen_iff {sb : Super} {S₁ S₂ S₃ S₄ : System} {t : Fin 64} {pathname : List UInt8}
    {flag mode bits : UInt16} {n fd : ℕ} {s : State} {r : Result}
    (hnew : openNameiGrant sb (S₁.tasks t) pathname flag
      (mode &&& 0o777 &&& ~~~(S₁.tasks t).umask) S₁.fs = .ok (.ok (n, .created), s))
    (hcreate : sysOpen sb t pathname flag mode S₁ = .ok (.ok fd, S₂))
    (hsame : ∀ a, Holds n a S₂.fs → Holds n a S₃.fs)
    (hids : (S₃.tasks t).ids = (S₁.tasks t).ids) (hleads : Leads sb (S₃.tasks t) pathname S₃.fs n)
    (hopen : sysOpen sb t pathname O_RDWR bits S₃ = .ok (r, S₄)) (hroom : r ≠ .error .EINVAL) :
    Holds n ⟨newMode (S₁.tasks t) mode, 0, 0, 1⟩ S₂.fs ∧
      ((∃ fd', r = .ok fd') ↔ MayReopen (S₁.tasks t) (newMode (S₁.tasks t) mode)) := by
  have hcreated := ensures_created _ _ _ _ _ _ hnew n rfl
  rw [newMode_masked] at hcreated
  have hholds : Holds n ⟨newMode (S₁.tasks t) mode, 0, 0, 1⟩ S₂.fs := by
    obtain hroom | ⟨x, s', hx, -, hok⟩ := ensures_sysOpen_namei t pathname flag mode S₁ _ _ hcreate
    · cases hroom
    rw [openNamei_eq, bind_of_ok hnew] at hx
    obtain ⟨rfl, rfl⟩ := Prod.mk.inj (Except.ok.inj hx)
    rw [(hok n rfl).2 fd rfl]
    exact hcreated
  refine ⟨hholds, ?_⟩
  obtain hfull | ⟨x, s', hx, herror, hok⟩ :=
    ensures_sysOpen_namei t pathname O_RDWR bits S₃ _ _ hopen
  · exact absurd hfull hroom
  rw [← mayReopen_congr hids]
  rcases ensures_reopen (hsame _ hholds) hleads x s' hx with ⟨rfl, hchr, hmay⟩ | ⟨rfl, hmay⟩
  · exact iff_of_true ((hok n rfl).1 hchr) hmay
  · refine iff_of_false (fun ⟨fd', hr⟩ => ?_) hmay
    cases (herror _ rfl).symm.trans hr

/-! ### A file that its creator may not write -/

/-- The inode that a path leads to. -/
def findLeads (sb : Super) (current : Task) (pathname : List UInt8) (s : State) : Option ℕ :=
  match dirNamei sb current pathname s with
  | .ok (some (dir, basename), s₁) =>
    match findEntry sb dir basename s₁ with
    | .ok (some de, s₂) => if basename = [] then none else some (entryInode (s₂.data de.1) de.2)
    | _ => none
  | _ => none

theorem leads_of_findLeads {current : Task} {pathname : List UInt8} {s : State}
    (h : findLeads sb current pathname s = some n) : Leads sb current pathname s n := by
  unfold findLeads at h
  split at h
  · rename_i dir basename s₁ hdir
    split at h
    · rename_i de s₂ hentry
      split_ifs at h with hbase
      exact ⟨dir, basename, s₁, de, s₂, hdir, hbase, hentry, Option.some.inj h⟩
    · cases h
  · cases h

/-- An ordinary process with the usual umask. -/
def creator : Task := { Traced.userTask with umask := 0o022 }

/-- The process 1 has no file open, and its directory may be written by everybody. -/
def creatorSystem : System := { Traced.readOnlySystem.sys with tasks := fun _ => creator }

/-- The file `b` is created with the mode 0666 as the inode `n`, which the path then leads to, and
it cannot be opened again. -/
structure CreatedOnce (n fd : ℕ) (s : State) (S₂ S₄ : System) : Prop where
  new : openNameiGrant Traced.smallDevice (creatorSystem.tasks 1) [98] O_CREAT
    (0o666 &&& 0o777 &&& ~~~(creatorSystem.tasks 1).umask) creatorSystem.fs =
      .ok (.ok (n, .created), s)
  create : sysOpen Traced.smallDevice 1 [98] O_CREAT 0o666 creatorSystem = .ok (.ok fd, S₂)
  ids : (S₂.tasks 1).ids = (creatorSystem.tasks 1).ids
  leads : Leads Traced.smallDevice (S₂.tasks 1) [98] S₂.fs n
  denied : sysOpen Traced.smallDevice 1 [98] O_RDWR 0 S₂ = .ok (.error .EPERM, S₄)

/-- The two calls of `sys_open`. -/
def createTwice : Option (ℕ × ℕ × State × System × System) :=
  match openNameiGrant Traced.smallDevice (creatorSystem.tasks 1) [98] O_CREAT
      (0o666 &&& 0o777 &&& ~~~(creatorSystem.tasks 1).umask) creatorSystem.fs with
  | .ok (.ok (n, .created), s) =>
    match sysOpen Traced.smallDevice 1 [98] O_CREAT 0o666 creatorSystem with
    | .ok (.ok fd, S₂) =>
      match sysOpen Traced.smallDevice 1 [98] O_RDWR 0 S₂ with
      | .ok (.error .EPERM, S₄) => some (n, fd, s, S₂, S₄)
      | _ => none
    | _ => none
  | _ => none

theorem exists_createdOnce : ∃ n fd s S₂ S₄, CreatedOnce n fd s S₂ S₄ := by
  have hexec : (createTwice.any fun p => (p.2.2.2.1.tasks 1).ids = (creatorSystem.tasks 1).ids ∧
      findLeads Traced.smallDevice (p.2.2.2.1.tasks 1) [98] p.2.2.2.1.fs = some p.1) = true := by
    decide +kernel
  obtain ⟨⟨n, fd, s, S₂, S₄⟩, hrun, hend⟩ := (Option.any_eq_true _ _).mp hexec
  obtain ⟨hids, hleads⟩ := of_decide_eq_true hend
  refine ⟨n, fd, s, S₂, S₄, ?_⟩
  unfold createTwice at hrun
  split at hrun
  · rename_i hnew
    split at hrun
    · rename_i hcreate
      split at hrun
      · rename_i hdenied
        cases hrun
        exact ⟨hnew, hcreate, hids, leads_of_findLeads hleads, hdenied⟩
      · cases hrun
    · cases hrun
  · cases hrun

theorem reopen_iff_creator : ∃ n fd s S₂ S₄, CreatedOnce n fd s S₂ S₄ ∧
    Holds n ⟨newMode (creatorSystem.tasks 1) 0o666, 0, 0, 1⟩ S₂.fs ∧
    ((∃ fd', (.error .EPERM : Result) = .ok fd') ↔
      MayReopen (creatorSystem.tasks 1) (newMode (creatorSystem.tasks 1) 0o666)) := by
  obtain ⟨n, fd, s, S₂, S₄, h⟩ := exists_createdOnce
  exact ⟨n, fd, s, S₂, S₄, h, reopen_iff h.new h.create (fun _ ha => ha) h.ids h.leads h.denied
    (fun he => nomatch he)⟩

/-- **A user cannot open his own new file.** The mode 0644 gives reading and writing to the owner,
who is the user 0. -/
theorem not_reopen_user : ¬ ∀ (sb : Super) (S₁ S₂ S₃ S₄ : System) (t : Fin 64)
    (pathname : List UInt8) (flag mode bits : UInt16) (n fd : ℕ) (s : State) (r : Result),
    newMode (S₁.tasks t) mode &&& 0o600 = 0o600 →
    openNameiGrant sb (S₁.tasks t) pathname flag
      (mode &&& 0o777 &&& ~~~(S₁.tasks t).umask) S₁.fs = .ok (.ok (n, .created), s) →
    sysOpen sb t pathname flag mode S₁ = .ok (.ok fd, S₂) →
    (∀ a, Holds n a S₂.fs → Holds n a S₃.fs) → (S₃.tasks t).ids = (S₁.tasks t).ids →
    Leads sb (S₃.tasks t) pathname S₃.fs n →
    sysOpen sb t pathname O_RDWR bits S₃ = .ok (r, S₄) → r ≠ .error .EINVAL → ∃ fd',
      r = .ok fd' := by
  intro h
  obtain ⟨n, fd, s, S₂, S₄, hrun⟩ := exists_createdOnce
  obtain ⟨fd', hr⟩ := h _ _ _ _ _ _ _ _ _ _ _ _ _ _ (by decide) hrun.new hrun.create
      (fun _ ha => ha)
    hrun.ids hrun.leads hrun.denied (fun he => nomatch he)
  cases hr

end Linux001.Fs
