import Linux001.Fs.Searches

/-!
# Walking path names

What `get_dir` and `namei` do with a path name that has been split at its slashes, when nobody else
holds buffers and a slot of the inode table is free. The walk holds one inode at a time.

## Main definitions

* `View.lookup`, `View.follow`: the number of an inode that a directory has for a name, and the
  inode at the end of a list of names.
* `View.resolve`: the inode that a path name denotes.
* `Walkable`: what the walk needs.
* `Holding`, `Resting`: the states of the walk, with an inode and between two.

## Main results

* `succeeds_getDirFrom`: the loop of `get_dir` follows the names.
* `succeeds_namei`: `namei` returns the inode that the path name denotes.
-/

namespace Linux001.Fs

namespace View

/-- The number of the inode that the directory `n` has for a name. -/
def lookup (V : View) (n : ℕ) (name : List UInt8) : Option ℕ :=
  ((V.ino n).find V.data name).map fun de => entryInode (V.data de.1) de.2

/-- The inode is a directory with search permission. -/
def Searchable (V : View) (current : Task) (n : ℕ) : Prop :=
  sIsdir (V.ino n).mode = true ∧ permission current (V.ino n) MAY_EXEC ≠ 0

instance (V : View) (current : Task) (n : ℕ) : Decidable (V.Searchable current n) :=
  inferInstanceAs (Decidable (_ ∧ _))

/-- The inode at the end of a list of names that begins at `n`. A last name that is empty stands for
the directory that has been reached; no other name may be empty. -/
def follow (V : View) (current : Task) : ℕ → List (List UInt8) → Option ℕ
  | n, [] => some n
  | n, name :: rest =>
    if V.Searchable current n then
      if name = [] then if rest = [] then some n else none
      else (V.lookup n name).bind fun m => V.follow current m rest
    else none

/-- The inode that a path name denotes: the names between its slashes are followed from the root
directory if the path begins with a slash, which is dropped, and else from the working directory.
The empty path denotes no inode. -/
def resolve (V : View) (current : Task) : List UInt8 → Option ℕ
  | [] => none
  | c :: rest =>
    if c = 47 then V.follow current current.root (rest.splitOn 47)
    else V.follow current current.pwd ((c :: rest).splitOn 47)

end View

/-- The buffers are not in use, a slot of the inode table is free, and the two directories of the
process are in core. No directory is bigger than `_bmap` allows, and every inode that has a name has
links. -/
structure Walkable (sb : Super) (current : Task) (s : State) : Prop where
  held : s.cache.Held []
  slot : (List.range (sb.ninodes + 1)).countP (fun n => s.count n ≠ 0) < 32
  root : s.count current.root ≠ 0
  pwd : s.count current.pwd ≠ 0
  fits : ∀ n, sIsdir (s.cur n).mode = true → (s.cur n).Fits
  links : ∀ n, sIsdir (s.cur n).mode = true →
    ∀ name m, s.view.lookup n name = some m → (s.cur m).nlinks ≠ 0

/-- Since `s₀` the files have not changed, and no reference is held. -/
structure Resting (s₀ s : State) : Prop where
  held : s.cache.Held []
  data : s.data = s₀.data
  cur : s.cur = s₀.cur
  count : s.count = s₀.count

/-- Since `s₀` the files have not changed, and a reference to the inode `n` has been taken. If it is
the only one, the inode has been read since. -/
structure Holding (s₀ s : State) (n : ℕ) : Prop where
  held : s.cache.Held []
  data : s.data = s₀.data
  cur : s.cur = s₀.cur
  count : s.count = Function.update s₀.count n (s₀.count n + 1)
  alone : s₀.count n = 0 → s.dirt n = false ∧ s.ino n = s.diskIno n ∧ (s.ino n).nlinks ≠ 0

variable {sb : Super} {current : Task} {s₀ s s' : State} {n m : ℕ} {names : List (List UInt8)}

theorem State.cur_of_count (h : s.count n ≠ 0) : s.cur n = s.ino n := if_neg h

theorem State.cur_of_count_eq_zero (h : s.count n = 0) : s.cur n = s.diskIno n := if_pos h

theorem State.cur_congr {x : ℕ} (hcount : s'.count x = s.count x) (hino : s'.ino x = s.ino x)
    (hdisk : s'.diskIno x = s.diskIno x) : s'.cur x = s.cur x := by
  rw [State.cur, State.cur, hcount, hino, hdisk]

namespace Holding

theorem count_self (h : Holding s₀ s n) : s.count n = s₀.count n + 1 := by
  rw [h.count, Function.update_self]

theorem ino_self (h : Holding s₀ s n) : s.ino n = s₀.cur n := by
  have hne : s.count n ≠ 0 := by
    rw [h.count_self]
    omega
  rw [← h.cur, State.cur_of_count hne]

/-- Searching keeps the walk where it is. -/
theorem cached (h : Holding s₀ s n) (hc : Cached s s' []) : Holding s₀ s' n := by
  have hheld := hc.held
  have hdata := hc.data
  obtain ⟨c, rfl, -, -⟩ := hc
  exact ⟨hheld, hdata.trans h.data, h.cur, h.count, h.alone⟩

end Holding

/-! ### `iput` and `iget` -/

/-- `iput` gives the reference back. -/
theorem succeeds_iput (h : Holding s₀ s n) :
    Succeeds (iput sb n) s fun _ s' => Resting s₀ s' := by
  have hself := h.count_self
  have hback : Function.update s.count n (s.count n - 1) = s₀.count := by
    rw [hself, Nat.add_sub_cancel, h.count, Function.update_idem, Function.update_eq_self]
  -- Other inodes are where they were.
  have hresting : ∀ s', s' = { s with count := Function.update s.count n (s.count n - 1) } →
      (s₀.count n = 0 → s.ino n = s.diskIno n) → Resting s₀ s' := fun s' hs' hclean => by
    have hino : s'.ino = s.ino := by rw [hs']
    have hdisk : s'.diskIno = s.diskIno := by rw [hs']
    have hcount : s'.count = s₀.count := by rw [hs', ← hback]
    refine ⟨by rw [hs']; exact h.held, by rw [hs']; exact h.data, funext fun x => ?_, hcount⟩
    rw [← h.cur]
    by_cases hx : x = n
    · subst hx
      have hcur : s.cur x = s.ino x := State.cur_of_count (by omega)
      rw [hcur, State.cur, hcount, hino, hdisk]
      split_ifs with h0
      · exact (hclean h0).symm
      · rfl
    · refine State.cur_congr ?_ (congrFun hino x) (congrFun hdisk x)
      rw [hcount, h.count, Function.update_of_ne hx]
  change Succeeds (ite (s.count n = 0) (_ : M Unit) (ite (1 < s.count n) (modify _ : M Unit)
    (ite ((s.ino n).nlinks = 0) (_ : M Unit) (ite (s.dirt n = true) (writeInode sb n >>= fun _ =>
      modify fun s => { s with count := Function.update s.count n (s.count n - 1) })
      (modify fun s => { s with count := Function.update s.count n (s.count n - 1) }))))) s _
  rw [if_neg (by omega)]
  by_cases hmore : 1 < s.count n
  · rw [if_pos hmore]
    exact succeeds_modify (hresting _ rfl fun h0 => by omega)
  · obtain ⟨hdirt, hclean, hlinks⟩ := h.alone (by omega)
    rw [if_neg hmore, if_neg hlinks, hdirt, if_neg Bool.false_ne_true]
    exact succeeds_modify (hresting _ rfl fun _ => hclean)

/-- `iget` takes a reference to an inode that has links. -/
theorem succeeds_iget (h : Resting s₀ s)
    (hslot : (List.range (sb.ninodes + 1)).countP (fun n => s₀.count n ≠ 0) < 32)
    (hlinks : (s₀.cur n).nlinks ≠ 0) : Succeeds (iget sb n) s fun _ s' => Holding s₀ s' n := by
  have hempty : Succeeds (getEmptyInode sb) s fun _ s' => s' = s := by
    change Succeeds (ite (32 ≤ (List.range (sb.ninodes + 1)).countP fun n => s.count n ≠ 0)
      (_ : M Unit) (pure ())) s _
    rw [h.count, if_neg (by omega)]
    exact succeeds_pure rfl
  refine hempty.bind fun _ s₁ hs₁ => ?_
  subst hs₁
  have hcount := congrFun h.count n
  have hcur := congrFun h.cur n
  -- Other inodes are where they were.
  have hother : ∀ s' : State, ∀ k, s'.count = Function.update s₁.count n k →
      (∀ x, x ≠ n → s'.ino x = s₁.ino x) → s'.diskIno = s₁.diskIno → s'.cur n = s₁.cur n →
        s'.cur = s₀.cur := fun s' k hk hino hdisk hself => by
    rw [← h.cur]
    funext x
    by_cases hx : x = n
    · rw [hx, hself]
    · refine State.cur_congr ?_ (hino x hx) (congrFun hdisk x)
      rw [hk, Function.update_of_ne hx]
  change Succeeds (ite (s₁.count n = 0) (modify _ >>= fun _ => readInode sb n : M Unit)
    (modify _ : M Unit)) s₁ _
  split_ifs with h0
  · -- The inode is read.
    refine Succeeds.bind (Q := fun _ s' => s' = _) (succeeds_modify rfl) fun _ s₂ hs₂ => ?_
    have hheld₂ : s₂.cache.Held [] := by
      rw [hs₂]
      exact h.held
    refine (succeeds_bread hheld₂ (Nat.zero_le 1) _).bind fun _ s₃ hs₃ => ?_
    refine Succeeds.bind (Q := fun _ s' => s' = _) (succeeds_modify rfl) fun _ s₄ hs₄ => ?_
    have hheld₄ : s₄.cache.Held [sb.inodeBlock n] := by
      rw [hs₄]
      exact hs₃.held
    refine (succeeds_brelse hheld₄ List.mem_cons_self).mono fun _ s₅ hs₅ => ?_
    rw [List.erase_cons_head] at hs₅
    have hheld := hs₅.held
    have hdata : s₅.data = s₀.data := by
      rw [hs₅.data, hs₄]
      change s₃.data = _
      rw [hs₃.data, hs₂]
      exact h.data
    obtain ⟨c₃, rfl, -, -⟩ := hs₃
    obtain ⟨c₅, hs₅, -, -⟩ := hs₅
    have hino₅ : s₅.ino = Function.update s₁.ino n (s₁.diskIno n) := by rw [hs₅, hs₄, hs₂]
    have hcount₅ : s₅.count = Function.update s₁.count n 1 := by rw [hs₅, hs₄, hs₂]
    have hdisk₅ : s₅.diskIno = s₁.diskIno := by rw [hs₅, hs₄, hs₂]
    have hdirt₅ : s₅.dirt = Function.update s₁.dirt n false := by rw [hs₅, hs₄, hs₂]
    have hread : s₅.ino n = s₁.cur n := by
      rw [hino₅, Function.update_self, State.cur_of_count_eq_zero h0]
    have hself : s₅.cur n = s₁.cur n := by
      rw [← hread, State.cur_of_count]
      rw [hcount₅, Function.update_self]
      exact Nat.one_ne_zero
    refine ⟨hheld, hdata, hother s₅ 1 hcount₅ (fun x hx => ?_) hdisk₅ hself, ?_, fun _ =>
      ⟨?_, ?_, ?_⟩⟩
    · rw [hino₅, Function.update_of_ne hx]
    · rw [hcount₅, h.count, ← hcount, h0]
    · rw [hdirt₅, Function.update_self]
    · rw [hdisk₅, hread, State.cur_of_count_eq_zero h0]
    · rw [hread, hcur]
      exact hlinks
  · have hne : s₀.count n ≠ 0 := fun h' => h0 (hcount.trans h')
    have htaken : ∀ s', s' = { s₁ with count := Function.update s₁.count n (s₁.count n + 1) } →
        Holding s₀ s' n := fun s' hs' => by
      have hcount' : s'.count = Function.update s₁.count n (s₁.count n + 1) := by rw [hs']
      have hself : s'.cur n = s₁.cur n := by
        rw [State.cur_of_count h0, State.cur_of_count]
        · rw [hs']
        · rw [hcount', Function.update_self]
          exact Nat.succ_ne_zero _
      refine ⟨?_, ?_, hother s' _ hcount' (fun x _ => ?_) ?_ hself, ?_, fun h' => absurd h' hne⟩
      · rw [hs']
        exact h.held
      · rw [hs']
        exact h.data
      · rw [hs']
      · rw [hs']
      · rw [hcount', h.count]
    exact succeeds_modify (htaken _ rfl)

/-! ### One name -/

/-- The walk goes on in a directory with search permission. -/
theorem Holding.searchable_iff (h : Holding s₀ s n) : s₀.view.Searchable current n ↔
    ¬(sIsdir (s.ino n).mode = false ∨ permission current (s.ino n) MAY_EXEC = 0) := by
  rw [h.ino_self, not_or, Bool.not_eq_false]
  rfl

/-- `find_entry` finds what the directory has for the name. -/
theorem Holding.find (h : Holding s₀ s n) (hw : Walkable sb current s₀)
    (hdir : s₀.view.Searchable current n) (name : List UInt8) :
    Succeeds (findEntry sb n name) s fun r s' => Cached s s' (entryBuffer r) ∧
      r = (s₀.cur n).find s₀.data name := by
  have hfits : (s.ino n).Fits := by
    rw [h.ino_self]
    exact hw.fits n hdir.1
  refine (succeeds_findEntry h.held hfits name).mono fun r s' ⟨hr, hs'⟩ => ⟨hs', ?_⟩
  rw [hr, h.ino_self, h.data]

/-- The entry that has been found has the number of the inode. -/
theorem Holding.lookup {de : ℕ × ℕ} {name : List UInt8} (h : Holding s₀ s n)
    (hc : Cached s s' [de.1]) (hde : (s₀.cur n).find s₀.data name = some de) :
    s₀.view.lookup n name = some (entryInode (s'.data de.1) de.2) := by
  rw [hc.data, h.data]
  exact congrArg (Option.map fun de => entryInode (s₀.data de.1) de.2) hde

/-- The part of `get_dir` and `namei` that comes after an entry has been found. -/
theorem Holding.next {β : Type} {k : M β} {R : β → State → Prop} {z : ℕ} (h : Holding s₀ s n)
    (hslot : (List.range (sb.ninodes + 1)).countP (fun n => s₀.count n ≠ 0) < 32)
    (hlinks : (s₀.cur m).nlinks ≠ 0) (hc : Cached s s' [z])
    (hk : ∀ s'', Holding s₀ s'' m → Succeeds k s'' R) :
    Succeeds (do
      brelse z
      iput sb n
      iget sb m
      k) s' R := by
  refine (succeeds_brelse hc.held List.mem_cons_self).bind fun _ s₁ h₁ => ?_
  rw [List.erase_cons_head] at h₁
  exact (succeeds_iput (h.cached (hc.trans h₁))).bind fun _ s₂ h₂ =>
    (succeeds_iget h₂ hslot hlinks).bind fun _ s₃ h₃ => hk s₃ h₃

theorem View.follow_cons {V : View} {name : List UInt8} (h : V.Searchable current n)
    (hname : name ≠ []) :
    V.follow current n (name :: names) = (V.lookup n name).bind fun m =>
      V.follow current m names := by
  rw [View.follow, if_pos h, if_neg hname]

theorem View.follow_of_not {V : View} (h : ¬V.Searchable current n) (hnames : names ≠ []) :
    V.follow current n names = none := by
  cases names with
  | nil => exact absurd rfl hnames
  | cons name rest => rw [View.follow, if_neg h]

/-! ### `get_dir` -/

/-- What `get_dir` returns for some names: the directory in which the last name is to be looked
up. -/
def Reaches (current : Task) (s₀ : State) (n : ℕ) (names : List (List UInt8)) (r : Option ℕ)
    (s : State) : Prop :=
  (r = none ∧ ∀ last, s₀.view.follow current n (names ++ [last]) = none) ∨
    ∃ d, r = some d ∧ Holding s₀ s d ∧ s₀.view.Searchable current d ∧
      ∀ last, s₀.view.follow current n (names ++ [last]) = s₀.view.follow current d [last]

/-- The loop of `get_dir` follows the names. -/
theorem succeeds_getDirFrom (hw : Walkable sb current s₀) (h : Holding s₀ s n) :
    Succeeds (getDirFrom sb current n names) s fun r s' => Reaches current s₀ n names r s' := by
  induction names generalizing s n with
  | nil =>
    rw [getDirFrom]
    change Succeeds (ite (sIsdir (s.ino n).mode = false ∨ permission current (s.ino n) MAY_EXEC = 0)
      (iput sb n >>= fun _ => pure none) (pure (some n))) s _
    by_cases hdir : s₀.view.Searchable current n
    · rw [if_neg (h.searchable_iff.mp hdir)]
      exact succeeds_pure (.inr ⟨n, rfl, h, hdir, fun _ => rfl⟩)
    · rw [if_pos (not_not.mp (h.searchable_iff.not.mp hdir))]
      exact (succeeds_iput h).bind fun _ s₁ _ =>
        succeeds_pure (.inl ⟨rfl, fun last => View.follow_of_not hdir (List.cons_ne_nil _ _)⟩)
  | cons name rest ih =>
    rw [getDirFrom]
    change Succeeds (ite (sIsdir (s.ino n).mode = false ∨ permission current (s.ino n) MAY_EXEC = 0)
      (iput sb n >>= fun _ => pure none) (_ : M (Option ℕ))) s _
    by_cases hdir : s₀.view.Searchable current n
    · rw [if_neg (h.searchable_iff.mp hdir)]
      refine (h.find hw hdir name).bind fun r s₁ ⟨h₁, hr⟩ => ?_
      cases r with
      | none =>
        refine (succeeds_iput (h.cached h₁)).bind fun _ s₂ _ =>
          succeeds_pure (.inl ⟨rfl, fun last => ?_⟩)
        by_cases hname : name = []
        · rw [List.cons_append, View.follow, if_pos hdir, if_pos hname,
            if_neg (List.append_ne_nil_of_right_ne_nil _ (List.cons_ne_nil _ _))]
        · have hlookup : s₀.view.lookup n name = none := congrArg (Option.map _) hr.symm
          rw [List.cons_append, View.follow_cons hdir hname, hlookup, Option.bind_none]
      | some de =>
        have hlookup := h.lookup h₁ hr.symm
        have hname : name ≠ [] := fun hname => by
          rw [Inode.find, if_pos (.inl hname)] at hr
          cases hr
        have hlinks := hw.links n hdir.1 name _ hlookup
        dsimp only
        rw [succeeds_get_bind]
        refine h.next hw.slot hlinks h₁ fun s₂ h₂ => (ih h₂).mono fun r s' hr => ?_
        have hfollow : ∀ last, s₀.view.follow current n (name :: rest ++ [last]) =
            s₀.view.follow current (entryInode (s₁.data de.1) de.2) (rest ++ [last]) :=
              fun last => by
          rw [List.cons_append, View.follow_cons hdir hname, hlookup, Option.bind_some]
        rcases hr with ⟨rfl, hnone⟩ | ⟨d, rfl, hd, hsearch, hlast⟩
        · exact .inl ⟨rfl, fun last => (hfollow last).trans (hnone last)⟩
        · exact .inr ⟨d, rfl, hd, hsearch, fun last => (hfollow last).trans (hlast last)⟩
    · rw [if_pos (not_not.mp (h.searchable_iff.not.mp hdir))]
      exact (succeeds_iput h).bind fun _ s₁ _ =>
        succeeds_pure (.inl ⟨rfl, fun last => View.follow_of_not hdir (List.cons_ne_nil _ _)⟩)

/-! ### `namei` -/

theorem getLastD_cons_of_ne_nil (a : List UInt8) (h : names ≠ []) :
    (a :: names).getLastD [] = names.getLastD [] := by
  obtain ⟨b, rest, rfl⟩ := List.exists_cons_of_ne_nil h
  rw [List.getLastD_cons, List.getLastD_cons, List.getLastD_cons]

/-- The names of a path, and where they are looked up. -/
theorem resolve_cons (V : View) (current : Task) (c : UInt8) (rest : List UInt8) :
    ∃ init last, V.resolve current (c :: rest) =
        V.follow current (if c = 47 then current.root else current.pwd) (init ++ [last]) ∧
      (if c = 47 then rest.splitOn 47 else (c :: rest).splitOn 47).dropLast = init ∧
      ((c :: rest).splitOn 47).getLastD [] = last := by
  have hconcat : ∀ names : List (List UInt8), names ≠ [] →
      names = names.dropLast ++ [names.getLastD []] := fun names h => by
    rcases List.eq_nil_or_concat names with rfl | ⟨l, a, rfl⟩
    · exact absurd rfl h
    · rw [List.concat_eq_append, List.dropLast_concat, List.getLastD_concat]
  refine ⟨_, _, ?_, rfl, rfl⟩
  rw [View.resolve]
  split_ifs with hc
  · have hsplit : (c :: rest).splitOn 47 = [] :: rest.splitOn 47 := by
      rw [hc]
      exact List.splitOn_append_cons_self [] rest
    rw [hsplit, getLastD_cons_of_ne_nil _ (List.splitOn_ne_nil _ _), ← hconcat _
      (List.splitOn_ne_nil _ _)]
  · rw [← hconcat _ (List.splitOn_ne_nil _ _)]

/-- `get_dir` begins in the root directory or the working directory. -/
theorem succeeds_getDir (hw : Walkable sb current s) (c : UInt8) (rest : List UInt8) :
    Succeeds (getDir sb current (c :: rest)) s fun r s' =>
      Reaches current s (if c = 47 then current.root else current.pwd)
        (if c = 47 then rest.splitOn 47 else (c :: rest).splitOn 47).dropLast r s' := by
  change Succeeds (ite (s.count current.root = 0) (_ : M (Option ℕ)) (ite (s.count current.pwd = 0)
    (_ : M (Option ℕ)) (modify _ >>= fun _ => getDirFrom sb current _ _))) s _
  rw [if_neg hw.root, if_neg hw.pwd]
  set n := if c = 47 then current.root else current.pwd with hn
  have hne : s.count n ≠ 0 := by
    rw [hn]
    split_ifs
    · exact hw.root
    · exact hw.pwd
  have htaken : ∀ s', s' = { s with count := Function.update s.count n (s.count n + 1) } →
      Holding s s' n := fun s' hs' => by
    have hcount : s'.count = Function.update s.count n (s.count n + 1) := by rw [hs']
    refine ⟨by rw [hs']; exact hw.held, by rw [hs']; rfl, funext fun x => ?_, hcount,
      fun h => absurd h hne⟩
    by_cases hx : x = n
    · rw [hx, State.cur_of_count hne, State.cur_of_count]
      · rw [hs']
      · rw [hcount, Function.update_self]
        exact Nat.succ_ne_zero _
    · refine State.cur_congr ?_ (by rw [hs']) (by rw [hs'])
      rw [hcount, Function.update_of_ne hx]
  exact Succeeds.bind (succeeds_modify (htaken _ rfl)) fun _ s₁ h₁ => succeeds_getDirFrom hw h₁

/-- `namei` returns the inode that the path name denotes. -/
theorem succeeds_namei (hw : Walkable sb current s) (path : List UInt8) :
    Succeeds (namei sb current path) s fun r _ => r = s.view.resolve current path := by
  cases path with
  | nil =>
    have hdir : Succeeds (getDir sb current []) s fun r _ => r = none := by
      change Succeeds (ite (s.count current.root = 0) (_ : M (Option ℕ))
        (ite (s.count current.pwd = 0) (_ : M (Option ℕ)) (pure none))) s _
      rw [if_neg hw.root, if_neg hw.pwd]
      exact succeeds_pure rfl
    refine Succeeds.bind (Q := fun r _ => r = none) (hdir.bind fun r s₁ hr => ?_) fun r s₁ hr => ?_
    · rw [hr]
      exact succeeds_pure rfl
    · rw [hr]
      exact succeeds_pure rfl
  | cons c rest =>
    obtain ⟨init, last, hresolve, hinit, hlast⟩ := resolve_cons s.view current c rest
    have hreach := succeeds_getDir hw c rest
    rw [hinit] at hreach
    have hdir : Succeeds (dirNamei sb current (c :: rest)) s fun r s' =>
        r = none ∧ s.view.resolve current (c :: rest) = none ∨
          ∃ d, r = some (d, last) ∧ Holding s s' d ∧ s.view.Searchable current d ∧
            s.view.resolve current (c :: rest) = s.view.follow current d [last] := by
      refine hreach.bind fun r s₁ hr => ?_
      rcases hr with ⟨rfl, hnone⟩ | ⟨d, rfl, hd, hsearch, hfollow⟩
      · exact succeeds_pure (.inl ⟨rfl, hresolve.trans (hnone last)⟩)
      · refine succeeds_pure (.inr ⟨d, ?_, hd, hsearch, hresolve.trans (hfollow last)⟩)
        rw [hlast]
    refine hdir.bind fun r s₁ hr => ?_
    rcases hr with ⟨rfl, hnone⟩ | ⟨d, rfl, hd, hsearch, hfollow⟩
    · exact succeeds_pure hnone.symm
    · change Succeeds (ite (last = []) (pure (some d)) (_ : M (Option ℕ))) s₁ _
      rw [hfollow]
      split_ifs with hname
      · rw [hname, View.follow, if_pos hsearch, if_pos rfl, if_pos rfl]
        exact succeeds_pure rfl
      · rw [View.follow_cons hsearch hname]
        refine (hd.find hw hsearch last).bind fun r s₂ ⟨h₂, hr⟩ => ?_
        cases r with
        | none =>
          have hlookup : s.view.lookup d last = none := congrArg (Option.map _) hr.symm
          rw [hlookup]
          exact (succeeds_iput (hd.cached h₂)).bind fun _ s₃ _ => succeeds_pure rfl
        | some de =>
          have hlookup := hd.lookup h₂ hr.symm
          rw [hlookup]
          dsimp only
          rw [succeeds_get_bind]
          refine hd.next hw.slot (hw.links d hsearch.1 last _ hlookup) h₂ fun s₃ _ => ?_
          exact Succeeds.bind (Q := fun _ _ => True) (succeeds_modify trivial) fun _ s₄ _ =>
            succeeds_pure rfl

end Linux001.Fs
