import Linux001.Mm.Mmu

/-!
# Copies of page tables

`copy_page_tables` gives a child the pages of its parent. The copies are read-only, and so are
afterwards the originals of the frames that `mem_map` counts; the entries of frames below `LOW_MEM`,
which belong to task 0, keep their flags in the kernel's own table. Whatever a page of the parent
shows, the page of the child shows too.

## Main definitions

* `Copied`: the contents of pages before and after a copy.
* `Copied.Turn`: the copy of one table.

## Main results

* `Copied.turn`, `Copied.of_copyDirs`: the turns of `copy_page_tables` copy pages and keep the flags
  in order.
-/

namespace Linux001.Mm

variable {s s' : Memory} {held : Finset ℕ}

/-! ### Copying page tables -/

/-- The pages of `size` directory entries from `fromDir` on, `nr` of each table, have been copied to
those from `toDir` on, and no other page shows anything else. -/
structure Copied (nr size fromDir toDir : ℕ) (s s' : Memory) : Prop where
  low : ∀ a, 1024 ≤ a → a < 512 * 1024 → s'.word a = s.word a
  dir : ∀ d < 1024, (∀ j < size, d ≠ toDir + j) → s'.word d = s.word d
  absent : ∀ j < size, present (s'.word (toDir + j)) = true → present (s.word (fromDir + j)) = true
  other : ∀ y ∈ userEntries, (∀ j < size, y.1 ≠ toDir + j ∧ y.1 ≠ fromDir + j) → s.EntryKept s' y
  kept : ∀ y ∈ userEntries, (∀ j < size, y.1 ≠ toDir + j) → ∀ k < 1024, ∀ w,
    s.Shows y k w → s'.Shows y k w
  copy : ∀ j < size, ∀ i < nr, ∀ k < 1024, ∀ w,
    s.Shows (fromDir + j, i) k w → s'.Shows (toDir + j, i) k w

namespace Copied

/-- The entries of the kernel's own table have the user bit, so that the copies can be used. -/
def KernelUser (s : Memory) : Prop := ∀ i < 160, userBit (s.word (1024 + i)) = true

section Turn

variable {nr fromDir toDir t : ℕ}

/-- The facts about one turn of `copy_page_tables` that its consequences are drawn from. -/
structure Turn (s s' : Memory) (nr fromDir toDir t : ℕ) : Prop where
  exact : Exact s ∅
  to_mem : toDir ∈ userDirs
  to_absent : present (s.word toDir) = false
  range : Exact.CopyRange nr fromDir
  from_present : present (s.word fromDir) = true
  low : 512 ≤ t
  high : t < 2048
  fresh : s.refs ∅ t = 0
  word : ∀ a, s'.word a = Exact.copiedWord s (frameOf (s.word fromDir)) t toDir nr a

namespace Turn

theorem from_frame (h : Turn s s' nr fromDir toDir t) :
    fromDir ∈ userDirs ∧ 512 ≤ frameOf (s.word fromDir) ∨
      fromDir = 0 ∧ nr = 160 ∧ frameOf (s.word fromDir) = 1 := by
  rcases h.range with ⟨hd, -⟩ | ⟨rfl, rfl⟩
  · exact .inl ⟨hd, (h.exact.table_mem _ hd h.from_present).1⟩
  · exact .inr ⟨rfl, rfl, h.exact.kernel_dir⟩

theorem nr_le (h : Turn s s' nr fromDir toDir t) : nr ≤ 1024 := by
  rcases h.range with ⟨-, rfl⟩ | ⟨-, rfl⟩ <;> norm_num

/-- Words outside the two tables are kept, and so are those of the kernel's own table. -/
theorem word_of_ne (h : Turn s s' nr fromDir toDir t) {a : ℕ} (ha : a ≠ toDir)
    (ht : a / 1024 ≠ t) (hf : 512 ≤ a / 1024 → a / 1024 ≠ frameOf (s.word fromDir)) :
    s'.word a = s.word a := by
  rw [h.word, Exact.copiedWord, if_neg ha, if_neg ht, if_neg]
  rintro ⟨hfa, hlt, -, hframe⟩
  rcases h.from_frame with ⟨-, hlo⟩ | ⟨-, rfl, hone⟩
  · exact hf (by omega) hfa
  · have hk := h.exact.kernel_table _ hlt
    have ha' : 1024 + a % 1024 = a := by omega
    rw [ha'] at hk
    omega

theorem dir_of_ne (h : Turn s s' nr fromDir toDir t) {d : ℕ} (hd : d < 1024) (hne : d ≠ toDir) :
    s'.word d = s.word d := by
  have hlo := h.low
  exact h.word_of_ne hne (by omega) (by omega)

theorem to_word (h : Turn s s' nr fromDir toDir t) : s'.word toDir = entryFor t := by
  rw [h.word, Exact.copiedWord, if_pos rfl]

theorem to_frame (h : Turn s s' nr fromDir toDir t) : frameOf (s'.word toDir) = t := by
  have hhi := h.high
  rw [h.to_word, frameOf_entryFor (by omega)]

/-- The entries of the other tables are kept, except that the originals of counted frames become
read-only. -/
theorem pte_of_ne (h : Turn s s' nr fromDir toDir t) {y : ℕ × ℕ} (hy : y ∈ userEntries)
    (hne : y.1 ≠ toDir) (hp : present (s.word y.1) = true) :
    s'.pte y.1 y.2 = s.pte y.1 y.2 ∧ (y.1 = fromDir → present (s.pte y.1 y.2) = true →
        writable (s.pte y.1 y.2) = true → frameOf (s.pte y.1 y.2) < 512) ∨
      s'.pte y.1 y.2 = s.pte y.1 y.2 &&& ~~~2 := by
  obtain ⟨hyd, hyi⟩ := mem_userEntries.mp hy
  have hylt := mem_userDirs.mp hyd
  have htab := h.exact.table_mem y.1 hyd hp
  have hto := mem_userDirs.mp h.to_mem
  have hnt : frameOf (s.word y.1) ≠ t := fun hc =>
    Exact.not_usesTable_of_refs h.fresh hyd ⟨hp, hc⟩
  rw [Memory.pte, Memory.pte, h.dir_of_ne hylt.2 hne, h.word, Exact.copiedWord,
    if_neg (by omega), entry_div hyi, if_neg hnt, entry_mod hyi]
  split_ifs with hc
  · exact .inr rfl
  · refine .inl ⟨rfl, fun hfrom hpres hw => ?_⟩
    subst hfrom
    by_contra hlo
    refine hc ⟨rfl, ?_, hpres, by omega⟩
    rcases h.range with ⟨-, rfl⟩ | ⟨h0, -⟩
    · exact hyi
    · omega

/-- The tables of other slots are kept. -/
theorem entryKept (h : Turn s s' nr fromDir toDir t) {y : ℕ × ℕ} (hy : y ∈ userEntries)
    (hto : y.1 ≠ toDir) (hfrom : y.1 ≠ fromDir) : s.EntryKept s' y := by
  obtain ⟨hyd, hyi⟩ := mem_userEntries.mp hy
  have hylt := mem_userDirs.mp hyd
  have hdir := h.dir_of_ne hylt.2 hto
  refine Memory.entryKept_of_word hdir fun hp => ?_
  have htab := h.exact.table_mem y.1 hyd hp
  have hto' := mem_userDirs.mp h.to_mem
  have hnt : frameOf (s.word y.1) ≠ t := fun hc =>
    Exact.not_usesTable_of_refs h.fresh hyd ⟨hp, hc⟩
  have hnf : frameOf (s.word y.1) ≠ frameOf (s.word fromDir) := fun hc => by
    rcases h.from_frame with ⟨hd, -⟩ | ⟨-, -, hone⟩
    · exact hfrom (h.exact.table_inj hyd hp hd h.from_present hc)
    · omega
  rw [Memory.pte, Memory.pte, hdir, h.word, Exact.copiedWord, if_neg (by omega), entry_div hyi,
    if_neg hnt, if_neg fun hc => hnf hc.1]

theorem mapped_of_ne (h : Turn s s' nr fromDir toDir t) {y : ℕ × ℕ} (hy : y ∈ userEntries)
    (hne : y.1 ≠ toDir) : s'.mapped y.1 y.2 = s.mapped y.1 y.2 ∧
      (s.mapped y.1 y.2 = true → frameOf (s'.pte y.1 y.2) = frameOf (s.pte y.1 y.2) ∧
        userBit (s'.pte y.1 y.2) = userBit (s.pte y.1 y.2)) := by
  have hdir := h.dir_of_ne (mem_userDirs.mp (mem_userEntries.mp hy).1).2 hne
  rw [Memory.mapped, Memory.mapped, hdir]
  by_cases hp : present (s.word y.1) = true
  · rcases h.pte_of_ne hy hne hp with ⟨hpte, -⟩ | hpte
    · rw [hpte]
      exact ⟨rfl, fun _ => ⟨rfl, rfl⟩⟩
    · rw [hpte, present_clear, frameOf_clear, userBit_clear]
      exact ⟨rfl, fun _ => ⟨rfl, rfl⟩⟩
  · rw [Bool.not_eq_true] at hp
    rw [hp]
    exact ⟨rfl, fun hc => absurd hc Bool.false_ne_true⟩

/-- The pages of user slots and of the kernel keep their contents. -/
theorem page_word (h : Turn s s' nr fromDir toDir t) {F k : ℕ} (hk : k < 1024) (hF : F ≠ 0)
    (hpage : F < 512 ∨ ∃ y ∈ userEntries, s.MapsPage F y) :
    s'.word (F * 1024 + k) = s.word (F * 1024 + k) := by
  have hto := mem_userDirs.mp h.to_mem
  have hlo := h.low
  refine h.word_of_ne (by omega) ?_ fun h512 => ?_
  · rw [entry_div hk]
    rintro rfl
    rcases hpage with hlt | ⟨y, hy, hm⟩
    · omega
    · exact Exact.not_mapsPage_of_refs h.fresh hy hm
  · rw [entry_div hk] at h512 ⊢
    rintro rfl
    rcases hpage with hlt | ⟨y, hy, hm⟩
    · omega
    · rcases h.from_frame with ⟨hd, -⟩ | ⟨-, -, hone⟩
      · exact h.exact.table_not_mapped hd h.from_present hy hm
      · omega

/-- An entry of the new table is a read-only copy, or absent like the original. -/
theorem pte_to (h : Turn s s' nr fromDir toDir t) {i : ℕ} (hi : i < 1024) :
    (i < nr ∧ s.mapped fromDir i = true ∧ s'.pte toDir i = s.pte fromDir i &&& ~~~2) ∨
      (i < nr → s.mapped fromDir i = false) ∧ s'.pte toDir i = 0 := by
  have hto := mem_userDirs.mp h.to_mem
  have hlo := h.low
  have hne : t * 1024 + i ≠ toDir := by omega
  have hpte : s'.pte toDir i = Exact.copiedWord s (frameOf (s.word fromDir)) t toDir nr
      (t * 1024 + i) := by
    rw [Memory.pte, h.to_frame, h.word]
  rw [Memory.mapped, h.from_present, Bool.true_and, hpte, Exact.copiedWord, if_neg hne,
    if_pos (entry_div hi t), entry_mod hi]
  by_cases hc : i < nr ∧ present (s.word (frameOf (s.word fromDir) * 1024 + i)) = true
  · rw [if_pos hc]
    exact .inl ⟨hc.1, hc.2, rfl⟩
  · rw [if_neg hc]
    refine .inr ⟨fun hlt => ?_, rfl⟩
    rw [not_and, Bool.not_eq_true] at hc
    exact hc hlt

/-- The frame of an original entry is a page of a user slot, or one of the kernel. -/
theorem from_page (h : Turn s s' nr fromDir toDir t) {i : ℕ} (hi : i < nr)
    (hm : s.mapped fromDir i = true) : frameOf (s.pte fromDir i) < 512 ∨
      ∃ y ∈ userEntries, s.MapsPage (frameOf (s.pte fromDir i)) y := by
  have hnr := h.nr_le
  rcases h.from_frame with ⟨hd, -⟩ | ⟨rfl, rfl, hone⟩
  · exact .inr ⟨(fromDir, i), mem_userEntries.mpr ⟨hd, by omega⟩,
      (Memory.mapsPage_iff_mapped s).mpr ⟨hm, rfl⟩⟩
  · refine .inl ?_
    rw [Memory.pte, hone, one_mul]
    exact h.exact.kernel_table i hi

theorem shows_kept (h : Turn s s' nr fromDir toDir t) {y : ℕ × ℕ} (hy : y ∈ userEntries)
    (hne : y.1 ≠ toDir) {k : ℕ} (hk : k < 1024) {w : Word} (hs : s.Shows y k w) :
    s'.Shows y k w := by
  obtain ⟨hm, hpte⟩ := h.mapped_of_ne hy hne
  rcases hs with ⟨hmap, hzero, hw⟩ | ⟨hmap, hw⟩
  · obtain ⟨hframe, -⟩ := hpte hmap
    refine .inl ⟨hm.trans hmap, by rw [hframe]; exact hzero, ?_⟩
    rw [hframe, h.page_word hk hzero
      (.inr ⟨y, hy, (Memory.mapsPage_iff_mapped s).mpr ⟨hmap, rfl⟩⟩)]
    exact hw
  · exact .inr ⟨hm.trans hmap, hw⟩

theorem shows_copy (h : Turn s s' nr fromDir toDir t) {i k : ℕ} (hi : i < nr) (hk : k < 1024)
    {w : Word} (hs : s.Shows (fromDir, i) k w) : s'.Shows (toDir, i) k w := by
  have hnr := h.nr_le
  have hpres : present (s'.word toDir) = true := by rw [h.to_word, present_entryFor]
  rcases h.pte_to (i := i) (by omega) with ⟨-, hm, hpte⟩ | ⟨hm, hpte⟩
  · rcases hs with ⟨-, hzero, hw⟩ | ⟨hno, -⟩
    · dsimp only at hzero hw
      have hframe : frameOf (s'.pte toDir i) = frameOf (s.pte fromDir i) := by
        rw [hpte, frameOf_clear]
      refine .inl ⟨(Memory.mapped_iff s').mpr ⟨hpres, ?_⟩, ?_, ?_⟩
      · dsimp only
        rw [hpte, present_clear]
        exact ((Memory.mapped_iff s).mp hm).2
      · dsimp only
        rw [hframe]
        exact hzero
      · dsimp only
        rw [hframe, h.page_word hk hzero (h.from_page hi hm)]
        exact hw
    · exact absurd (hno.symm.trans hm) Bool.false_ne_true
  · rcases hs with ⟨hc, -⟩ | ⟨-, hw⟩
    · exact absurd ((hm hi).symm.trans hc) Bool.false_ne_true
    · refine .inr ⟨?_, hw⟩
      dsimp only
      rw [Memory.mapped, hpte]
      exact Bool.and_false _

/-- The flags stay in order: copies are read-only, and so are the originals of counted frames. -/
theorem flagged (h : Turn s s' nr fromDir toDir t) (hf : Flagged s) (hk : KernelUser s) :
    Flagged s' := by
  have hto : ∀ i < 1024, s'.mapped toDir i = true → i < nr ∧ s.mapped fromDir i = true ∧
      s'.pte toDir i = s.pte fromDir i &&& ~~~2 := fun i hi hm => by
    rcases h.pte_to hi with hcopy | ⟨-, hpte⟩
    · exact hcopy
    · rw [Memory.mapped, hpte] at hm
      exact absurd ((Bool.and_false _).symm.trans hm) Bool.false_ne_true
  have hwritable : ∀ y ∈ userEntries, s'.mapped y.1 y.2 = true →
      writable (s'.pte y.1 y.2) = true → y.1 ≠ toDir := fun y hy hm hw hc => by
    obtain ⟨-, hyi⟩ := mem_userEntries.mp hy
    rw [hc] at hm hw
    obtain ⟨-, -, hpte⟩ := hto y.2 hyi hm
    rw [hpte, not_writable_clear] at hw
    exact absurd hw Bool.false_ne_true
  -- A writable entry was there before, and is not the original of a copy.
  have hold : ∀ y ∈ userEntries, s'.mapped y.1 y.2 = true → writable (s'.pte y.1 y.2) = true →
      s.mapped y.1 y.2 = true ∧ s'.pte y.1 y.2 = s.pte y.1 y.2 ∧
        512 ≤ frameOf (s.pte y.1 y.2) ∧ y.1 ≠ fromDir := fun y hy hm hw => by
    have hne := hwritable y hy hm hw
    rw [(h.mapped_of_ne hy hne).1] at hm
    obtain ⟨hp, hpres⟩ := (Memory.mapped_iff s).mp hm
    rcases h.pte_of_ne hy hne hp with ⟨hpte, hfrom⟩ | hpte
    · rw [hpte] at hw
      have hlo := hf.counted y hy hm hw
      exact ⟨hm, hpte, hlo, fun hc => absurd (hfrom hc hpres hw) (by omega)⟩
    · rw [hpte, not_writable_clear] at hw
      exact absurd hw Bool.false_ne_true
  refine ⟨fun d hd hp => ?_, fun y hy hm => ?_, fun y hy hm hw => ?_, fun y hy hm hw z hz hmz => ?_⟩
  · by_cases hne : d = toDir
    · rw [hne, h.to_frame]
      exact h.to_word
    · rw [h.dir_of_ne (mem_userDirs.mp hd).2 hne] at hp ⊢
      exact hf.dir d hd hp
  · obtain ⟨-, hyi⟩ := mem_userEntries.mp hy
    by_cases hne : y.1 = toDir
    · rw [hne] at hm ⊢
      obtain ⟨hlt, hmap, hpte⟩ := hto y.2 hyi hm
      rw [hpte, userBit_clear]
      rcases h.from_frame with ⟨hd, -⟩ | ⟨rfl, rfl, hone⟩
      · exact hf.user (fromDir, y.2) (mem_userEntries.mpr ⟨hd, hyi⟩) hmap
      · rw [Memory.pte, hone, one_mul]
        exact hk y.2 hlt
    · obtain ⟨hmap, hpte⟩ := h.mapped_of_ne hy hne
      rw [hmap] at hm
      rw [(hpte hm).2]
      exact hf.user y hy hm
  · obtain ⟨-, hpte, hlo, -⟩ := hold y hy hm hw
    rw [hpte]
    exact hlo
  · obtain ⟨hmap, hpte, hlo, hnefrom⟩ := hold y hy hm hw
    rw [hpte] at hw hmz
    by_cases hne : z.1 = toDir
    · -- The copy of an entry maps the frame of the original, which is not writable.
      obtain ⟨hzm, hzf⟩ := (Memory.mapsPage_iff_mapped s').mp hmz
      obtain ⟨-, hzi⟩ := mem_userEntries.mp hz
      rw [hne] at hzm hzf
      obtain ⟨hlt, hmap', hpte'⟩ := hto z.2 hzi hzm
      rw [hpte', frameOf_clear] at hzf
      rcases h.from_frame with ⟨hd, -⟩ | ⟨rfl, rfl, hone⟩
      · have hsame := hf.own y hy hmap hw (fromDir, z.2) (mem_userEntries.mpr ⟨hd, hzi⟩)
          ((Memory.mapsPage_iff_mapped s).mpr ⟨hmap', hzf⟩)
        exact absurd (congrArg Prod.fst hsame).symm hnefrom
      · have hkernel := h.exact.kernel_table z.2 hlt
        rw [Memory.pte, hone, one_mul] at hzf
        omega
    · obtain ⟨hzm, hzf⟩ := (Memory.mapsPage_iff_mapped s').mp hmz
      obtain ⟨hmz', hpz⟩ := h.mapped_of_ne hz hne
      rw [hmz'] at hzm
      rw [(hpz hzm).1] at hzf
      exact hf.own y hy hmap hw z hz ((Memory.mapsPage_iff_mapped s).mpr ⟨hzm, hzf⟩)

end Turn

/-- One turn of `copy_page_tables` copies the pages of one table. -/
theorem turn (h : Exact s ∅) (hf : Flagged s) (hk : KernelUser s) (hto : toDir ∈ userDirs)
    (hrange : Exact.CopyRange nr fromDir) (hc : s.copyDir nr fromDir toDir = .ok (some s')) :
    Exact s' ∅ ∧ Flagged s' ∧ Copied nr 1 fromDir toDir s s' := by
  obtain ⟨hex, habs, hnone, hsome⟩ := h.copyDir hto hrange hc
  refine ⟨hex, ?_⟩
  by_cases hp : present (s.word fromDir) = true
  · obtain ⟨t, hlo, hhi, hrefs, hw⟩ := hsome hp
    have hturn : Turn s s' nr fromDir toDir t := ⟨h, hto, habs, hrange, hp, hlo, hhi, hrefs, hw⟩
    have hzero : ∀ {j : ℕ}, j < 1 → j = 0 := fun hj => by omega
    refine ⟨hturn.flagged hf hk, fun a ha ha' => ?_, fun d hd hne => ?_, fun j hj _ => ?_,
      fun y hy hne => ?_, fun y hy hne k hk w hs => ?_, fun j hj i hi k hk w hs => ?_⟩
    · have hto' := mem_userDirs.mp hto
      exact hturn.word_of_ne (by omega) (by omega) (by omega)
    · exact hturn.dir_of_ne hd (hne 0 (by omega))
    · rw [hzero hj]
      exact hp
    · exact hturn.entryKept hy (hne 0 (by omega)).1 (hne 0 (by omega)).2
    · exact hturn.shows_kept hy (hne 0 (by omega)) hk hs
    · rw [hzero hj] at hs ⊢
      exact hturn.shows_copy hi hk hs
  · rw [Bool.not_eq_true] at hp
    obtain rfl := hnone hp
    have hzero : ∀ {j : ℕ}, j < 1 → j = 0 := fun hj => by omega
    refine ⟨hf, fun a _ _ => rfl, fun d _ _ => rfl, fun j hj hc => ?_,
      fun _ _ _ => ⟨rfl, fun _ => rfl⟩, fun y _ _ k _ w hs => hs, fun j hj i hi k hk w hs => ?_⟩
    · rw [hzero hj, Nat.add_zero, habs] at hc
      exact absurd hc Bool.false_ne_true
    · rw [hzero hj] at hs ⊢
      have hno : ∀ d, present (s'.word d) = false → s'.mapped d i = false := fun d hd => by
        rw [Memory.mapped, hd, Bool.false_and]
      rcases hs with ⟨hm, -⟩ | ⟨-, hw⟩
      · exact absurd ((hno fromDir hp).symm.trans hm) Bool.false_ne_true
      · exact .inr ⟨hno toDir habs, hw⟩

end Turn

/-- The first turn and the others. -/
theorem cons {s₁ : Memory} {nr size fromDir toDir : ℕ} (h₁ : Copied nr 1 fromDir toDir s s₁)
    (h₂ : Copied nr size (fromDir + 1) (toDir + 1) s₁ s') (hnr : nr ≤ 1024)
    (hto : ∀ j < size + 1, toDir + j ∈ userDirs)
    (hfrom : ∀ j < size, fromDir + 1 + j ∈ userDirs)
    (hdisj : ∀ i < size + 1, ∀ j < size + 1, fromDir + i ≠ toDir + j) :
    Copied nr (size + 1) fromDir toDir s s' where
  low a ha ha' := (h₂.low a ha ha').trans (h₁.low a ha ha')
  dir d hd hne := by
    rw [h₂.dir d hd fun j hj => by have := hne (j + 1) (by omega); omega]
    exact h₁.dir d hd fun j hj => hne j (by omega)
  absent j hj hp := by
    rcases j with - | j
    · have hlt := mem_userDirs.mp (hto 0 (by omega))
      rw [h₂.dir _ (by omega) fun i hi => by omega] at hp
      exact h₁.absent 0 (by omega) hp
    · have hd := mem_userDirs.mp (hfrom j (by omega))
      have hp' := h₂.absent j (by omega) (by rw [add_right_comm]; exact hp)
      rw [h₁.dir _ (by omega) fun i hi => ?_] at hp'
      · rw [← add_assoc, add_right_comm]
        exact hp'
      · have := hdisj (j + 1) (by omega) i (by omega)
        omega
  other y hy hne := by
    refine (h₁.other y hy fun j hj => hne j (by omega)).trans (h₂.other y hy fun j hj => ?_)
    have := hne (j + 1) (by omega)
    omega
  kept y hy hne k hk w hs :=
    h₂.kept y hy (fun j hj => by have := hne (j + 1) (by omega); omega) k hk w
      (h₁.kept y hy (fun j hj => hne j (by omega)) k hk w hs)
  copy j hj i hi k hk w hs := by
    rcases j with - | j
    · refine h₂.kept (toDir, i) (mem_userEntries.mpr ⟨hto 0 (by omega), by omega⟩)
        (fun i hi => by dsimp only; omega) k hk w ?_
      exact h₁.copy 0 (by omega) i hi k hk w hs
    · have hs₁ := h₁.kept (fromDir + 1 + j, i)
        (mem_userEntries.mpr ⟨hfrom j (by omega), by omega⟩)
        (fun i hi => by have := hdisj (j + 1) (by omega) i (by omega); dsimp only; omega) k hk w
        (by rw [add_right_comm]; exact hs)
      have hs₂ := h₂.copy j (by omega) i hi k hk w hs₁
      rw [add_right_comm] at hs₂
      exact hs₂

theorem kernelUser {nr size fromDir toDir : ℕ} (h : Copied nr size fromDir toDir s s')
    (hk : KernelUser s) : KernelUser s' := fun i hi => by
  rw [h.low _ (by omega) (by omega)]
  exact hk i hi

/-- `copy_page_tables` copies the pages of a range of tables. -/
theorem of_copyDirs {nr : ℕ} : ∀ {size fromDir toDir : ℕ} {s : Memory}, Exact s ∅ → Flagged s →
    KernelUser s → (∀ j < size, toDir + j ∈ userDirs) →
      (∀ j < size, Exact.CopyRange nr (fromDir + j)) →
      (∀ i < size, ∀ j < size, fromDir + i ≠ toDir + j) →
      Memory.copyDirs nr size fromDir toDir s = .ok (0, s') →
        Exact s' ∅ ∧ Flagged s' ∧ Copied nr size fromDir toDir s s'
  | 0, _, _, s, h, hf, _, _, _, _, hc => by
    obtain ⟨-, rfl⟩ := Prod.mk.inj (Except.ok.inj hc)
    exact ⟨h, hf, fun _ _ _ => rfl, fun _ _ _ => rfl, fun j hj => by omega,
      fun _ _ _ => ⟨rfl, fun _ => rfl⟩, fun _ _ _ _ _ _ hs => hs, fun j hj => by omega⟩
  | size + 1, fromDir, toDir, s, h, hf, hk, hto, hfrom, hdisj, hc => by
    rw [Memory.copyDirs] at hc
    cases hd : s.copyDir nr fromDir toDir with
    | error e => simp [hd] at hc
    | ok o =>
      cases o with
      | none => simp [hd] at hc
      | some s₁ =>
        simp only [hd] at hc
        obtain ⟨h₁, hf₁, hc₁⟩ := turn h hf hk (hto 0 (by omega)) (hfrom 0 (by omega)) hd
        have hto' : ∀ j < size, toDir + 1 + j ∈ userDirs := fun j hj => by
          rw [add_right_comm]
          exact hto (j + 1) (by omega)
        have hfrom' : ∀ j < size, Exact.CopyRange nr (fromDir + 1 + j) := fun j hj => by
          rw [add_right_comm]
          exact hfrom (j + 1) (by omega)
        obtain ⟨h₂, hf₂, hc₂⟩ := of_copyDirs h₁ hf₁ (hc₁.kernelUser hk) hto' hfrom'
          (fun i hi j hj => by have := hdisj (i + 1) (by omega) (j + 1) (by omega); omega) hc
        refine ⟨h₂, hf₂, hc₁.cons hc₂ ?_ hto (fun j hj => ?_) hdisj⟩
        · rcases hfrom 0 (by omega) with ⟨-, rfl⟩ | ⟨-, rfl⟩ <;> norm_num
        · rcases hfrom' j hj with ⟨hd, -⟩ | ⟨hc, -⟩
          · exact hd
          · omega

end Copied

end Linux001.Mm
