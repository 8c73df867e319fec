import Linux001.Fs.Namei
import Linux001.Fs.Truncation
import Linux001.Lib.Effects
import Mathlib.Data.List.Perm.Subperm

/-!
# Reading directories

What `bmap` and `find_entry` do on a device whose buffers are held by the running code only. They
return, and change nothing but the cache.

## Main definitions

* `Cache.Held`: the references to the buffers.
* `Cached`: only the cache has changed.
* `Inode.block`, `Inode.find`: a block of a file or directory, and the first entry that matches.

## Main results

* `succeeds_bmap`: `bmap` returns the number of a block.
* `succeeds_findEntry`: `find_entry` returns the first entry that matches.
-/

namespace Linux001.Fs

/-- The references to the buffers are those of a list, and there are at least two buffers. -/
structure Cache.Held (c : Cache) (l : List ℕ) : Prop where
  sound : c.Sound
  count : ∀ z, c.count z = l.count z
  two_le : 2 ≤ c.free.length

/-- Only the cache has changed. The blocks have the contents that they had, and the buffers of the
list are held. -/
def Cached (s s' : State) (l : List ℕ) : Prop :=
  ∃ c, s' = { s with cache := c } ∧ c.data = s.data ∧ c.Held l

/-- The zone of a block of an inode, or 0. -/
def Inode.block (i : Inode) (data : ℕ → Block) (k : ℕ) : ℕ := zoneAt data i.zone (leafPath k)

/-- The `j`-th entry of a directory matches a name. -/
def Inode.matchesAt (i : Inode) (data : ℕ → Block) (name : List UInt8) (j : ℕ) : Bool :=
  i.block data (j / 64) ≠ 0 && matchEntry name (data (i.block data (j / 64))) (j % 64)

/-- The first entry of a directory that matches a name, of which 14 bytes count. -/
def Inode.find (i : Inode) (data : ℕ → Block) (name : List UInt8) : Option (ℕ × ℕ) :=
  if name = [] ∨ i.zone 0 = 0 then none
  else ((List.range (i.size / 16)).find? (i.matchesAt data (name.take 14))).map fun j =>
    (i.block data (j / 64), j % 64)

variable {sb : Super} {s s' s'' : State} {c : Cache} {l l' : List ℕ} {n z k i : ℕ}

/-! ### Buffers -/

/-- A buffer is free as long as only one is held. -/
theorem Cache.Held.roomy (h : c.Held l) (hl : l.length ≤ 1) : c.Roomy := by
  by_contra hfull
  have hmem : ∀ w ∈ c.free, ∃ z ∈ l, w = some z := fun w hw => by
    have hheld : c.isFree w ≠ true := fun hfree => hfull ⟨w, hw, hfree⟩
    cases w with
    | none => exact absurd rfl hheld
    | some z =>
      have hcount : c.count z ≠ 0 := fun h0 => hheld (decide_eq_true h0)
      rw [h.count] at hcount
      exact ⟨z, List.count_pos_iff.mp (Nat.pos_of_ne_zero hcount), rfl⟩
  have hnodup : c.free.Nodup := List.nodup_iff_count.mpr fun w => by
    by_cases hw : w ∈ c.free
    · obtain ⟨z, -, rfl⟩ := hmem w hw
      rw [h.sound.listed]
      split_ifs <;> omega
    · rw [List.count_eq_zero.mpr hw]
      omega
  have hsub : c.free ⊆ l.map some := fun w hw => by
    obtain ⟨z, hz, rfl⟩ := hmem w hw
    exact List.mem_map_of_mem hz
  have hle := (hnodup.subperm hsub).length_le
  have := h.two_le
  rw [List.length_map] at hle
  omega

namespace Cached

theorem refl (h : s.cache.Held l) : Cached s s l := ⟨s.cache, rfl, rfl, h⟩

theorem data (h : Cached s s' l) : s'.data = s.data := by
  obtain ⟨c, rfl, hdata, -⟩ := h
  exact hdata

theorem held (h : Cached s s' l) : s'.cache.Held l := by
  obtain ⟨c, rfl, -, hheld⟩ := h
  exact hheld

theorem ino (h : Cached s s' l) : s'.ino = s.ino := by
  obtain ⟨c, rfl, -, -⟩ := h
  rfl

theorem trans (h : Cached s s' l) (h' : Cached s' s'' l') : Cached s s'' l' := by
  obtain ⟨c, rfl, hdata, -⟩ := h
  obtain ⟨c', rfl, hdata', hheld⟩ := h'
  exact ⟨c', rfl, hdata'.trans hdata, hheld⟩

end Cached

theorem succeeds_onCache {f : Cache → Option Cache} {e : Fault} (h : f s.cache = some c) :
    Succeeds (onCache f e) s fun _ s' => s' = { s with cache := c } :=
  ⟨(), _, by rw [onCache, h], rfl⟩

theorem succeeds_bread (h : s.cache.Held l) (hl : l.length ≤ 1) (z : ℕ) :
    Succeeds (bread z) s fun _ s' => Cached s s' (z :: l) := by
  obtain ⟨c, hc⟩ := Cache.exists_bread (z := z) (h.roomy hl)
  have hread := Cache.read_bread hc
  refine (succeeds_onCache hc).mono fun _ s' hs' => ⟨c, hs', hread.data, hread.sound h.sound,
    fun x => ?_, hread.length ▸ h.two_le⟩
  have hle := List.count_le_length (a := z) (l := l)
  rw [hread.count, Function.update_apply, List.count_cons]
  split_ifs with hx hzx hzx
  · rw [hx, h.count]
    omega
  · exact absurd (beq_iff_eq.mpr hx.symm) hzx
  · exact absurd (beq_iff_eq.mp hzx).symm hx
  · exact h.count x

theorem succeeds_brelse (h : s.cache.Held l) (hz : z ∈ l) :
    Succeeds (brelse z) s fun _ s' => Cached s s' (l.erase z) := by
  have hne : s.cache.count z ≠ 0 := by
    rw [h.count]
    exact (List.count_pos_iff.mpr hz).ne'
  have hc : s.cache.brelse z = some (s.cache.setCount z (s.cache.count z - 1)) := if_neg hne
  have hrel := Cache.released_brelse hc
  refine (succeeds_onCache hc).mono fun _ s' hs' => ⟨_, hs', hrel.data, hrel.sound h.sound,
    fun x => ?_, hrel.length ▸ h.two_le⟩
  rw [hrel.count, Function.update_apply, List.count_erase]
  split_ifs with hx hzx hzx
  · rw [hx, h.count]
  · exact absurd (beq_iff_eq.mpr hx.symm) hzx
  · exact absurd (beq_iff_eq.mp hzx).symm hx
  · exact h.count x

/-! ### `bmap` -/

theorem bmapZone_of_not {create : Bool} (h : ¬(create = true ∧ (s.ino n).zone k = 0)) :
    bmapZone sb n k create s = .ok ((), s) := by
  change (ite (create = true ∧ (s.ino n).zone k = 0) (_ : M Unit) (pure ()) : M Unit) s = _
  rw [if_neg h]
  rfl

/-- `bmapTable` from the point where the table has been read. -/
theorem bmapTable_of_not {create : Bool} {t : ℕ} (h : ¬(create = true ∧ word (s.data t) k = 0))
    (hread : bread t s' = .ok ((), s)) :
    bmapTable sb t k create s' = (brelse t >>= fun _ => pure (word (s.data t) k)) s := by
  change (bread t s' >>= _) = _
  rw [hread]
  change (ite (create = true ∧ word (s.data t) k = 0) (_ : M ℕ) (_ : M ℕ) : M ℕ) s = _
  rw [if_neg h]

/-- An entry of a table. -/
theorem succeeds_bmapTable (h : s.cache.Held l) (hl : l.length ≤ 1) (t k : ℕ) :
    Succeeds (bmapTable sb t k false) s fun z s' => z = word (s.data t) k ∧ Cached s s' l := by
  obtain ⟨_, s₁, hread, h₁⟩ := succeeds_bread h hl t
  rw [Succeeds, bmapTable_of_not (by simp) hread]
  refine (succeeds_brelse h₁.held List.mem_cons_self).bind fun _ s₂ h₂ => succeeds_pure ⟨?_, ?_⟩
  · rw [h₁.data]
  · rw [List.erase_cons_head] at h₂
    exact h₁.trans h₂

/-- `bmap` returns the number of a block, or 0. -/
theorem succeeds_bmap (h : s.cache.Held l) (hl : l.length ≤ 1) (hk : k < maxBlocks) :
    Succeeds (bmap sb n k) s fun z s' => z = (s.ino n).block s.data k ∧ Cached s s' l := by
  have hbig : ¬7 + 512 + 512 * 512 ≤ k := Nat.not_le.mpr hk
  have hzone (j : ℕ) : Succeeds (bmapZone sb n j false) s fun _ s' => s' = s :=
    ⟨(), s, bmapZone_of_not (by simp), rfl⟩
  rw [bmap, bmapAux, if_neg hbig, Inode.block]
  split_ifs with h7 h512
  · refine (hzone k).bind fun _ s₁ hs₁ => ?_
    subst hs₁
    rw [leafPath_direct h7]
    exact succeeds_pure ⟨rfl, .refl h⟩
  · refine (hzone 7).bind fun _ s₁ hs₁ => ?_
    subst hs₁
    rw [leafPath_ind h7 h512]
    change Succeeds (ite ((s₁.ino n).zone 7 = 0) (_ : M ℕ) (_ : M ℕ)) s₁ _
    split_ifs with h0
    · exact succeeds_pure ⟨(zoneAt_entry_of_zero (T := .ind) h0 _).symm, .refl h⟩
    · refine (succeeds_bmapTable h hl _ _).mono fun z s' ⟨hz, hs'⟩ => ⟨hz.trans ?_, hs'⟩
      exact word_table (T := .ind) h0 h512
  · have hlt : (k - 7 - 512) / 512 < 512 := row_lt hk
    have hmod : (k - 7 - 512) % 512 < 512 := Nat.mod_lt _ (by omega)
    refine (hzone 8).bind fun _ s₁ hs₁ => ?_
    subst hs₁
    rw [leafPath_dind h7 h512 hlt]
    change Succeeds (ite ((s₁.ino n).zone 8 = 0) (_ : M ℕ) (_ : M ℕ)) s₁ _
    split_ifs with h0
    · have hentry : zoneAt s₁.data (s₁.ino n).zone (.dind ⟨_, hlt⟩) = 0 :=
        zoneAt_entry_of_zero (T := .dind) h0 ⟨_, hlt⟩
      exact succeeds_pure ⟨(zoneAt_entry_of_zero (T := .two _) hentry _).symm, .refl h⟩
    · refine (succeeds_bmapTable h hl _ _).bind fun z s₂ ⟨hz, hs₂⟩ => ?_
      have hword : z = zoneAt s₁.data (s₁.ino n).zone (.dind ⟨_, hlt⟩) :=
        hz.trans (word_table (T := .dind) h0 hlt)
      split_ifs with hentry
      · rw [hword] at hentry
        exact succeeds_pure ⟨(zoneAt_entry_of_zero (T := .two _) hentry _).symm, hs₂⟩
      · refine (succeeds_bmapTable hs₂.held hl _ _).mono fun w s' ⟨hw, hs'⟩ =>
          ⟨hw.trans ?_, hs₂.trans hs'⟩
        rw [hword] at hentry ⊢
        rw [hs₂.data]
        exact word_table (T := .two ⟨_, hlt⟩) hentry hmod

/-! ### `find_entry` -/

/-- The entries of the directory are not too many for `_bmap`. -/
def Inode.Fits (i : Inode) : Prop := i.size ≤ maxBlocks * 1024

theorem Inode.Fits.lt_maxBlocks {v : Inode} (h : v.Fits) (hi : i < v.size / 16) :
    i / 64 < maxBlocks := by
  unfold Inode.Fits at h
  omega

/-- What `find_entry` knows of its buffer before it looks at the entry `i`. -/
def Inode.At (v : Inode) (data : ℕ → Block) (i : ℕ) (bh : Option ℕ) : Prop :=
  i % 64 ≠ 0 ∨ i = 0 → bh = some (v.block data (i / 64)) ∧ v.block data (i / 64) ≠ 0

theorem Inode.At.next {v : Inode} {data : ℕ → Block} (h : v.block data (i / 64) ≠ 0) :
    v.At data (i + 1) (some (v.block data (i / 64))) := fun hnot => by
  have hdiv : (i + 1) / 64 = i / 64 := by omega
  rw [hdiv]
  exact ⟨rfl, h⟩

theorem Inode.matchesAt_of_ne {v : Inode} {data : ℕ → Block} (h : v.block data (i / 64) ≠ 0)
    (name : List UInt8) : v.matchesAt data name i =
      matchEntry name (data (v.block data (i / 64))) (i % 64) := by
  rw [matchesAt, decide_eq_true h]
  rfl

theorem succeeds_findBlock {bh : Option ℕ} (h : s.cache.Held bh.toList) (hfits : (s.ino n).Fits)
    (hi : i < (s.ino n).size / 16) (hbh : (s.ino n).At s.data i bh) :
    Succeeds (findBlock sb n i bh) s fun r s' => Cached s s' r.toList ∧
      r = if (s.ino n).block s.data (i / 64) = 0 then none
        else some ((s.ino n).block s.data (i / 64)) := by
  have hload : ∀ s₁, Cached s s₁ [] → Succeeds (do
      let block ← bmap sb n (i / 64)
      if block = 0 then pure none
      else do
        bread block
        pure (some block)) s₁ fun r s' => Cached s s' r.toList ∧
      r = if (s.ino n).block s.data (i / 64) = 0 then none
        else some ((s.ino n).block s.data (i / 64)) := fun s₁ h₁ => by
    refine (succeeds_bmap h₁.held (Nat.zero_le 1) (hfits.lt_maxBlocks hi)).bind
      fun block s₂ ⟨hblock, h₂⟩ => ?_
    rw [h₁.ino, h₁.data] at hblock
    rw [← hblock]
    split_ifs with h0
    · exact succeeds_pure ⟨h₁.trans h₂, rfl⟩
    · exact (succeeds_bread h₂.held (Nat.zero_le 1) block).bind fun _ s₃ h₃ =>
        succeeds_pure ⟨(h₁.trans h₂).trans h₃, rfl⟩
  rw [findBlock]
  by_cases hnext : i % 64 = 0 ∧ i ≠ 0
  · rw [if_pos hnext]
    cases bh with
    | none => exact hload s (.refl h)
    | some z =>
      refine (succeeds_brelse (z := z) h List.mem_cons_self).bind fun _ s₁ h₁ => hload s₁ ?_
      rwa [Option.toList_some, List.erase_cons_head] at h₁
  · obtain ⟨hbh, hne⟩ := hbh (by omega)
    rw [if_neg hnext, if_neg hne, ← hbh]
    exact succeeds_pure ⟨.refl h, rfl⟩

/-- The result of the loop of `find_entry` from entry `i` on. -/
def Inode.Found (v : Inode) (data : ℕ → Block) (name : List UInt8) (i : ℕ) (r : Option (ℕ × ℕ)) :
    Prop :=
  r = none ∧ (∀ j, i ≤ j → j < v.size / 16 → v.matchesAt data name j = false) ∨
    ∃ j, i ≤ j ∧ j < v.size / 16 ∧ v.matchesAt data name j = true ∧
      (∀ j', i ≤ j' → j' < j → v.matchesAt data name j' = false) ∧
      r = some (v.block data (j / 64), j % 64)

/-- Entries that do not match are passed over. -/
theorem Inode.Found.skip {v : Inode} {data : ℕ → Block} {name : List UInt8} {i' : ℕ}
    {r : Option (ℕ × ℕ)} (h : v.Found data name i' r) (hle : i ≤ i')
    (hnot : ∀ j, i ≤ j → j < i' → v.matchesAt data name j = false) : v.Found data name i r := by
  rcases h with ⟨hr, hrest⟩ | ⟨j, hj, hlt, hmatch, hfirst, hr⟩
  · refine .inl ⟨hr, fun j hj hlt => ?_⟩
    rcases Nat.lt_or_ge j i' with h | h
    · exact hnot j hj h
    · exact hrest j h hlt
  · refine .inr ⟨j, hle.trans hj, hlt, hmatch, fun j' hj' hlt' => ?_, hr⟩
    rcases Nat.lt_or_ge j' i' with h | h
    · exact hnot j' hj' h
    · exact hfirst j' h hlt'

/-- The buffers that `find_entry` holds when it returns. -/
def entryBuffer (r : Option (ℕ × ℕ)) : List ℕ := r.toList.map Prod.fst

/-- The end of the loop of `find_entry`. -/
theorem succeeds_findFrom_end {v : Inode} {data : ℕ → Block} {name : List UInt8} {fuel : ℕ}
    {bh : Option ℕ} (h : s.cache.Held bh.toList) (hi : v.size / 16 ≤ i) :
    Succeeds (findFrom sb n name (v.size / 16) fuel i bh) s fun r s' =>
      v.Found data name i r ∧ Cached s s' (entryBuffer r) := by
  have hfound : v.Found data name i none := .inl ⟨rfl, fun j hj hlt => by omega⟩
  have hfrom : findFrom sb n name (v.size / 16) fuel i bh = bh.elim (pure none) fun z =>
      brelse z >>= fun _ => pure none := by
    rw [findFrom.eq_def]
    dsimp only
    rw [decide_eq_false (Nat.not_lt.mpr hi)]
    cases fuel <;> cases bh <;> rfl
  rw [hfrom]
  cases bh with
  | none => exact succeeds_pure ⟨hfound, .refl h⟩
  | some z =>
    refine (succeeds_brelse (z := z) h List.mem_cons_self).bind fun _ s₁ h₁ =>
      succeeds_pure ⟨hfound, ?_⟩
    rwa [Option.toList_some, List.erase_cons_head] at h₁

/-- The loop of `find_entry`. -/
theorem succeeds_findFrom {v : Inode} {data : ℕ → Block} {name : List UInt8} {fuel : ℕ}
    {bh : Option ℕ} (h : s.cache.Held bh.toList) (hv : s.ino n = v) (hdata : s.data = data)
    (hfits : v.Fits) (hfuel : v.size / 16 ≤ i + fuel) (hbh : v.At data i bh) :
    Succeeds (findFrom sb n name (v.size / 16) fuel i bh) s fun r s' =>
      v.Found data name i r ∧ Cached s s' (entryBuffer r) := by
  induction fuel generalizing i bh s with
  | zero => exact succeeds_findFrom_end h (by omega)
  | succ fuel ih =>
    by_cases hi : i < v.size / 16
    · rw [findFrom]
      swap
      · exact decide_eq_true hi
      subst hv
      subst hdata
      refine (succeeds_findBlock h hfits hi hbh).bind fun r s₁ ⟨h₁, hr⟩ => ?_
      have hino : s₁.ino n = s.ino n := congrFun h₁.ino n
      split_ifs at hr with h0
      · -- The block is missing.
        subst hr
        have hnext : i % 64 = 0 := by
          by_contra hne
          exact (hbh (.inl hne)).2 h0
        refine (ih h₁.held hino h₁.data (by omega) fun hnot => by omega).mono fun r s' ⟨hr, h'⟩ =>
          ⟨hr.skip (by omega) fun j hj hlt => ?_, h₁.trans h'⟩
        have hdiv : j / 64 = i / 64 := by omega
        rw [Inode.matchesAt, hdiv, h0]
        rfl
      · subst hr
        have hmatches : (s.ino n).matchesAt s.data name i =
            matchEntry name (s₁.data ((s.ino n).block s.data (i / 64))) (i % 64) := by
          rw [Inode.matchesAt_of_ne h0, h₁.data]
        change Succeeds (ite (matchEntry name (s₁.data ((s.ino n).block s.data (i / 64))) (i % 64) =
          true) (pure _ : M (Option (ℕ × ℕ))) (findFrom sb n name _ fuel (i + 1) (some _))) s₁ _
        split_ifs with hmatch
        · refine succeeds_pure ⟨.inr ⟨i, le_rfl, hi, hmatches.trans hmatch,
            fun j hj hlt => ?_, rfl⟩,
            h₁⟩
          omega
        · refine (ih h₁.held hino h₁.data (by omega) (.next h0)).mono fun r s' ⟨hr, h'⟩ =>
            ⟨hr.skip (Nat.le_succ i) fun j hj hlt => ?_, h₁.trans h'⟩
          obtain rfl : j = i := by omega
          rw [hmatches]
          exact Bool.eq_false_iff.mpr hmatch
    · exact succeeds_findFrom_end h (by omega)

/-- The first entry that matches is the only result of the loop. -/
theorem Inode.Found.eq {v : Inode} {data : ℕ → Block} {name : List UInt8} {r : Option (ℕ × ℕ)}
    (h : v.Found data name 0 r) : r = ((List.range (v.size / 16)).find?
      (v.matchesAt data name)).map fun j => (v.block data (j / 64), j % 64) := by
  rcases h with ⟨rfl, hnot⟩ | ⟨j, -, hlt, hmatch, hfirst, rfl⟩
  · rw [List.find?_range_eq_none.mpr fun j hj => ?_]
    · rfl
    · rw [hnot j (Nat.zero_le j) hj]
      rfl
  · rw [List.find?_range_eq_some.mpr ⟨hmatch, List.mem_range.mpr hlt, fun j' hj' => ?_⟩]
    · rfl
    · rw [hfirst j' (Nat.zero_le j') hj']
      rfl

/-- `find_entry` returns the first entry that matches, with its buffer. -/
theorem succeeds_findEntry (h : s.cache.Held []) (hfits : (s.ino n).Fits) (name : List UInt8) :
    Succeeds (findEntry sb n name) s fun r s' =>
      r = (s.ino n).find s.data name ∧ Cached s s' (entryBuffer r) := by
  have hnil : name.take 14 = [] ↔ name = [] := by
    rw [List.take_eq_nil_iff, or_iff_right (by omega)]
  change Succeeds (ite (name.take 14 = []) (pure none : M _) (ite ((s.ino n).zone 0 = 0)
    (pure none : M _) (bread ((s.ino n).zone 0) >>= fun _ =>
      findFrom sb n (name.take 14) ((s.ino n).size / 16) ((s.ino n).size / 16) 0
        (some ((s.ino n).zone 0))))) s _
  rw [Inode.find]
  by_cases hname : name = []
  · rw [if_pos (hnil.mpr hname), if_pos (.inl hname)]
    exact succeeds_pure ⟨rfl, .refl h⟩
  rw [if_neg (hnil.not.mpr hname)]
  by_cases h0 : (s.ino n).zone 0 = 0
  · rw [if_pos h0, if_pos (.inr h0)]
    exact succeeds_pure ⟨rfl, .refl h⟩
  rw [if_neg h0, if_neg (not_or.mpr ⟨hname, h0⟩)]
  refine (succeeds_bread h (Nat.zero_le 1) _).bind fun _ s₁ h₁ => ?_
  refine (succeeds_findFrom (i := 0) h₁.held (congrFun h₁.ino n) h₁.data hfits (by omega)
    fun _ => ⟨rfl, h0⟩).mono fun r s' ⟨hr, h'⟩ => ⟨hr.eq, h₁.trans h'⟩

end Linux001.Fs
