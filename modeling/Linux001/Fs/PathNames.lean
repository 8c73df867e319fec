import Linux001.Fs.Walks

/-!
# Path names, byte by byte

`get_dir`, `dir_namei` and `namei` of `fs/namei.c` as the source has them: two loops scan the same
string, one for the names of the directories, the other one for the last slash. A pointer into the
string is what is left of the string, or an offset. The functions are those of `Fs.Namei`, which
splits the string at its slashes.

## Main definitions

* `scanName`, `scanBase`: the loops over the bytes.
* `getDir`, `dirNamei`, `namei`: the functions.
* `View.resolve`: the inode that a path name denotes.

## Main results

* `getDir_eq`, `dirNamei_eq`: both loops split the string at the same place.
* `namei_resolves`: `namei` returns the inode that the path name denotes.
-/

namespace Linux001.Fs.PathName

/-- `for (namelen = 0; (c = get_fs_byte(pathname++)) && (c != '/'); namelen++)`: the values of `c`,
`namelen` and `pathname` afterwards. -/
def scanName : List UInt8 → ℕ → UInt8 × ℕ × List UInt8
  | [], namelen => (0, namelen, [])
  | c :: pathname, namelen =>
    if c ≠ 0 ∧ c ≠ 47 then scanName pathname (namelen + 1) else (c, namelen, pathname)

/-- `while (c = get_fs_byte(pathname++)) if (c == '/') basename = pathname`: the offsets `pathname`
and `basename` afterwards. -/
def scanBase : List UInt8 → ℕ → ℕ → ℕ × ℕ
  | [], pathname, basename => (pathname + 1, basename)
  | c :: rest, pathname, basename =>
    if c ≠ 0 then scanBase rest (pathname + 1) (if c = 47 then pathname + 1 else basename)
    else (pathname + 1, basename)

theorem length_scanName {path : List UInt8} {k : ℕ} (h : (scanName path k).1 ≠ 0) :
    (scanName path k).2.2.length < path.length := by
  induction path generalizing k with
  | nil => exact absurd rfl h
  | cons c path ih =>
    rw [scanName] at h ⊢
    split_ifs at h ⊢
    · exact (ih h).trans (Nat.lt_succ_self _)
    · exact Nat.lt_succ_self _

variable (sb : Super) (current : Task)

/-- The loop of `get_dir`, with the inode and `pathname`. It returns the inode and `thisname`. -/
def getDirLoop (n : ℕ) (pathname : List UInt8) : M (Option (ℕ × List UInt8)) := do
  let s ← get
  if sIsdir (s.ino n).mode = false ∨ permission current (s.ino n) MAY_EXEC = 0 then do
    iput sb n
    pure none
  else
    let scan := scanName pathname 0
    if scan.1 = 0 then pure (some (n, pathname))
    else do
      match ← findEntry sb n (pathname.take scan.2.1) with
      | none => do
        iput sb n
        pure none
      | some de => do
        let s ← get
        let inr := entryInode (s.data de.1) de.2
        brelse de.1
        iput sb n
        iget sb inr
        getDirLoop inr scan.2.2
  termination_by pathname.length
  decreasing_by exact length_scanName ‹_›

/-- `get_dir(pathname)`. -/
def getDir (pathname : List UInt8) : M (Option (ℕ × List UInt8)) := do
  let s ← get
  if s.count current.root = 0 then panic "No root inode"
  else if s.count current.pwd = 0 then panic "No cwd inode"
  else
    let c := pathname.headD 0
    if c = 47 then do
      modify fun s => { s with
        count := Function.update s.count current.root (s.count current.root + 1) }
      getDirLoop sb current current.root pathname.tail
    else if c ≠ 0 then do
      modify fun s => { s with
        count := Function.update s.count current.pwd (s.count current.pwd + 1) }
      getDirLoop sb current current.pwd pathname
    else pure none

/-- `dir_namei(pathname, namelen, name)`: the inode, `*namelen` and `*name`. -/
def dirNamei (pathname : List UInt8) : M (Option (ℕ × ℕ × List UInt8)) := do
  match ← getDir sb current pathname with
  | none => pure none
  | some (dir, _) =>
    let (p, basename) := scanBase pathname 0 0
    pure (some (dir, p - basename - 1, pathname.drop basename))

/-- `namei(pathname)`. -/
def namei (pathname : List UInt8) : M (Option ℕ) := do
  match ← dirNamei sb current pathname with
  | none => pure none
  | some (dir, namelen, basename) =>
    if namelen = 0 then pure (some dir)
    else do
      match ← findEntry sb dir (basename.take namelen) with
      | none => do
        iput sb dir
        pure none
      | some de => do
        let s ← get
        let inr := entryInode (s.data de.1) de.2
        brelse de.1
        iput sb dir
        iget sb inr
        markDirty inr
        pure (some inr)

variable {sb current} {path : List UInt8} {n : ℕ}

/-! ### The loops over the bytes -/

theorem scanName_of_notMem (h0 : 0 ∉ path) (h : 47 ∉ path) (k : ℕ) :
    scanName path k = (0, k + path.length, []) := by
  induction path generalizing k with
  | nil => rfl
  | cons c path ih =>
    rw [List.mem_cons, not_or] at h0 h
    rw [scanName, if_pos ⟨Ne.symm h0.1, Ne.symm h.1⟩, ih h0.2 h.2, List.length_cons]
    congr 2
    omega

theorem scanName_append {a : List UInt8} (h0 : 0 ∉ a) (h : 47 ∉ a) (rest : List UInt8) (k : ℕ) :
    scanName (a ++ 47 :: rest) k = (47, k + a.length, rest) := by
  induction a generalizing k with
  | nil => exact if_neg fun h => h.2 rfl
  | cons c a ih =>
    rw [List.mem_cons, not_or] at h0 h
    rw [List.cons_append, scanName, if_pos ⟨Ne.symm h0.1, Ne.symm h.1⟩, ih h0.2 h.2,
      List.length_cons]
    congr 2
    omega

theorem splitOn_of_notMem (h : 47 ∉ path) : path.splitOn 47 = [path] := List.splitOn_eq_singleton h

/-- The last name begins behind the last slash. -/
theorem scanBase_eq (h0 : 0 ∉ path) (p b : ℕ) : (scanBase path p b).1 = p + path.length + 1 ∧
    (47 ∉ path ∧ (scanBase path p b).2 = b ∨
      ∃ a rest, path = a ++ 47 :: rest ∧ 47 ∉ rest ∧ (scanBase path p b).2 = p + a.length + 1) := by
  induction path generalizing p b with
  | nil => exact ⟨rfl, .inl ⟨List.not_mem_nil, rfl⟩⟩
  | cons c path ih =>
    rw [List.mem_cons, not_or] at h0
    rw [scanBase, if_pos (Ne.symm h0.1)]
    obtain ⟨hfirst, hlast⟩ := ih h0.2 (p + 1) (if c = 47 then p + 1 else b)
    refine ⟨hfirst.trans ?_, ?_⟩
    · rw [List.length_cons]
      omega
    · rcases hlast with ⟨hnot, hb⟩ | ⟨a, rest, rfl, hrest, hb⟩
      · by_cases hc : c = 47
        · rw [if_pos hc] at hb
          exact .inr ⟨[], path, by rw [hc]; rfl, hnot, by rw [hc, if_pos rfl, hb]; rfl⟩
        · rw [if_neg hc] at hb
          refine .inl ⟨fun hmem => ?_, by rw [if_neg hc, hb]⟩
          rcases List.mem_cons.mp hmem with h | h
          · exact hc h.symm
          · exact hnot h
      · refine .inr ⟨c :: a, rest, rfl, hrest, hb.trans ?_⟩
        rw [List.length_cons]
        omega

/-- `dir_namei` returns the name behind the last slash. -/
theorem scanBase_last (h0 : 0 ∉ path) :
    path.drop (scanBase path 0 0).2 = (path.splitOn 47).getLastD [] ∧
    (scanBase path 0 0).1 - (scanBase path 0 0).2 - 1 = ((path.splitOn 47).getLastD []).length := by
  obtain ⟨hfirst, ⟨hnot, hb⟩ | ⟨a, rest, rfl, hrest, hb⟩⟩ := scanBase_eq h0 0 0
  · rw [hfirst, hb, splitOn_of_notMem hnot]
    exact ⟨rfl, by simp⟩
  · have hlength : (a ++ 47 :: rest).length = a.length + 1 + rest.length := by
      rw [List.length_append, List.length_cons]
      omega
    rw [hfirst, hb, List.splitOn_append_cons_self, splitOn_of_notMem hrest, List.getLastD_concat,
      Nat.zero_add, Nat.zero_add, hlength]
    refine ⟨?_, by omega⟩
    rw [← List.singleton_append, ← List.append_assoc]
    exact List.drop_left' (by rw [List.length_append, List.length_singleton])

theorem splitOn_append {a : List UInt8} (h : 47 ∉ a) (rest : List UInt8) :
    (a ++ 47 :: rest).splitOn 47 = a :: rest.splitOn 47 := by
  rw [List.splitOn_append_cons_self, splitOn_of_notMem h, List.singleton_append]

/-- The loop of `get_dir` looks up the names before the last slash, and returns with `thisname`
behind it. -/
theorem getDirLoop_eq (h0 : 0 ∉ path) (n : ℕ) : getDirLoop sb current n path =
    (getDirFrom sb current n (path.splitOn 47).dropLast >>= fun r =>
      pure (r.map fun d => (d, (path.splitOn 47).getLastD []))) := by
  induction hn : path.length using Nat.strong_induction_on generalizing path n with
  | h k ih =>
    by_cases hslash : 47 ∈ path
    · obtain ⟨a, rest, rfl, ha⟩ := List.eq_append_cons_of_mem hslash
      have h0a : 0 ∉ a := fun h => h0 (List.mem_append_left _ h)
      have h0rest : 0 ∉ rest := fun h => h0 (List.mem_append_right _ (List.mem_cons_of_mem _ h))
      have hne := List.splitOn_ne_nil 47 rest
      rw [splitOn_append ha, List.dropLast_cons_of_ne_nil hne, getDirLoop, getDirFrom,
        scanName_append h0a ha]
      simp only [bind_assoc]
      refine bind_congr fun s => ?_
      have hlast := getLastD_cons_of_ne_nil a hne
      have hlt : rest.length < k := by
        rw [← hn, List.length_append, List.length_cons]
        omega
      split_ifs with hdir hc
      · simp only [bind_assoc, pure_bind, Option.map_none]
      · exact absurd hc (by decide)
      · rw [Nat.zero_add, List.take_left, bind_assoc]
        refine bind_congr fun r => ?_
        cases r with
        | none => simp only [bind_assoc, pure_bind, Option.map_none]
        | some de =>
          simp only [bind_assoc]
          refine bind_congr fun s₁ => bind_congr fun _ => bind_congr fun _ => bind_congr fun _ => ?_
          rw [ih _ hlt h0rest _ rfl, hlast]
    · rw [splitOn_of_notMem hslash, List.dropLast_singleton, getDirLoop, getDirFrom,
        scanName_of_notMem h0 hslash]
      simp only [bind_assoc]
      refine bind_congr fun s => ?_
      split_ifs with hdir
      · simp only [bind_assoc, pure_bind, Option.map_none]
      · rw [pure_bind]
        rfl

/-! ### The functions -/

/-- `get_dir` is the function that splits the path at its slashes, and it returns with `thisname` at
the last name. -/
theorem getDir_eq (h0 : 0 ∉ path) : getDir sb current path =
    (Fs.getDir sb current path >>= fun r =>
      pure (r.map fun d => (d, (path.splitOn 47).getLastD []))) := by
  unfold getDir Fs.getDir
  rw [bind_assoc]
  refine bind_congr fun s => ?_
  cases path with
  | nil =>
    split_ifs
    · rfl
    · rfl
    · rfl
  | cons c rest =>
    rw [List.mem_cons, not_or] at h0
    split_ifs with hroot hpwd
    · rfl
    · rfl
    dsimp only [List.headD_cons, List.tail_cons]
    by_cases hc : c = 47
    · have hsplit : (c :: rest).splitOn 47 = [] :: rest.splitOn 47 := by
        rw [hc]
        exact splitOn_append (a := []) List.not_mem_nil rest
      rw [if_pos hc, if_pos hc, if_pos hc, bind_assoc, hsplit,
        getLastD_cons_of_ne_nil _ (List.splitOn_ne_nil _ _)]
      exact bind_congr fun _ => getDirLoop_eq h0.2 _
    · rw [if_neg hc, if_neg hc, if_neg hc, if_pos (Ne.symm h0.1), bind_assoc]
      exact bind_congr fun _ => getDirLoop_eq (List.mem_cons.not.mpr (not_or.mpr h0)) _

/-- Both loops split the string at the same place: `dir_namei` returns the name that `get_dir` has
left. -/
theorem dirNamei_eq (h0 : 0 ∉ path) : dirNamei sb current path =
    (Fs.dirNamei sb current path >>= fun r => pure (r.map fun d => (d.1, d.2.length, d.2))) := by
  obtain ⟨hdrop, hlength⟩ := scanBase_last h0
  unfold dirNamei Fs.dirNamei
  rw [getDir_eq h0]
  simp only [bind_assoc, pure_bind]
  refine bind_congr fun r => ?_
  cases r with
  | none => rfl
  | some d =>
    dsimp only [Option.map_some]
    rw [hdrop, hlength, pure_bind]
    rfl

theorem namei_eq (h0 : 0 ∉ path) : namei sb current path = Fs.namei sb current path := by
  unfold namei Fs.namei
  rw [dirNamei_eq h0]
  simp only [bind_assoc, pure_bind]
  refine bind_congr fun r => ?_
  cases r with
  | none => rfl
  | some d =>
    dsimp only [Option.map_some]
    rw [List.take_length]
    refine if_congr List.length_eq_zero_iff rfl rfl

/-- A path name is resolved along its components, and the two loops over its bytes agree. -/
theorem namei_resolves {s : State} (hw : Walkable sb current s) (h0 : 0 ∉ path) :
    (∃ s', namei sb current path s = .ok (s.view.resolve current path, s')) ∧
      ∀ s₁ d thisname s₂, getDir sb current path s₁ = .ok (some (d, thisname), s₂) →
        thisname = path.drop (scanBase path 0 0).2 ∧
          thisname.length = (scanBase path 0 0).1 - (scanBase path 0 0).2 - 1 := by
  obtain ⟨hdrop, hlength⟩ := scanBase_last h0
  refine ⟨?_, fun s₁ d thisname s₂ hrun => ?_⟩
  · obtain ⟨r, s', hrun, rfl⟩ := succeeds_namei hw path
    exact ⟨s', (congrFun (namei_eq h0) s).trans hrun⟩
  · rw [getDir_eq h0] at hrun
    obtain ⟨⟨r, s₃⟩, -, hr⟩ := bind_eq_ok.mp hrun
    cases r with
    | none => cases hr
    | some d' =>
      cases hr
      exact ⟨hdrop.symm, hlength.symm⟩

/-! ### A root directory with one entry -/

/-- The block of a directory that has the inode 2 under the name `a`. -/
def entryA : Block := setEntryName (setEntryInode zeroBlock 0 2) 0 [97]

/-- The inode 1 is a directory with block 5, the others are files without blocks. -/
def inodeA (n : ℕ) : Inode :=
  if n = 1 then ⟨0o040755, 0, 16, 0, 2, fun k => if k = 0 then 5 else 0⟩
  else ⟨0o100644, 0, 0, 0, 1, fun _ => 0⟩

/-- Only the root directory is in core. -/
def treeA : State where
  ino := inodeA
  count n := if n = 1 then 2 else 0
  dirt _ := false
  diskIno := inodeA
  imap _ := true
  zmap _ := true
  cache := ⟨fun _ => none, [none, none], fun _ => entryA, fun _ _ h => nomatch h⟩
  overflow := false
  destroyed := []

/-- A process with the root directory as its working directory. -/
def taskA : Task where
  uid := 0
  euid := 0
  gid := 0
  egid := 0
  umask := 0
  pwd := 1
  root := 1
  filp _ := none
  closeOnExec _ := false
  leader := false
  tty := 0
  pgrp := 0

theorem cur_treeA (n : ℕ) : treeA.cur n = inodeA n := ite_self _

theorem walkable_treeA : Walkable smallSuper taskA treeA where
  held := ⟨⟨fun _ h => absurd rfl h, fun _ => rfl⟩, fun _ => rfl, le_rfl⟩
  slot := by decide
  root := by decide
  pwd := by decide
  fits n _ := by
    rw [cur_treeA, inodeA, Inode.Fits]
    split_ifs
    · decide
    · exact Nat.zero_le _
  links n _ name m _ := by
    rw [cur_treeA, inodeA]
    split_ifs
    · decide
    · decide

theorem resolve_treeA : treeA.view.resolve taskA [47, 97] = some 2 := by
  rw [View.resolve, if_pos rfl, splitOn_of_notMem (by decide)]
  decide

theorem namei_resolves_treeA : ∃ s', namei smallSuper taskA [47, 97] treeA = .ok (some 2, s') := by
  have hbytes : (0 : UInt8) ∉ [47, 97] := by decide
  obtain ⟨s', hrun⟩ := (namei_resolves walkable_treeA hbytes).1
  rw [resolve_treeA] at hrun
  exact ⟨s', hrun⟩

end Linux001.Fs.PathName
