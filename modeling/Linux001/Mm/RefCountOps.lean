import Linux001.Mm.RefCount

/-!
# The functions of `mm/memory.c` keep the counts exact

Every store that the functions of `mm/memory.c` make to a directory or a table goes together with a
change of `mem_map`; the lemmas of this file follow these pairs through the loops. They state, next
to the invariant, which words of memory may have changed, for the use of
`Linux001.Mm.CopyOnWrite`.

## Main results

* `Exact.mapTable`, `Exact.unmapTable`, `Exact.mapPage`, `Exact.sharePage`, `Exact.unmapPage`,
  `Exact.movePage`: the elementary changes.
* `Exact.getFreePage`: an allocated frame had no users.
* `Exact.freeDir`, `Exact.freePageTables_ok`: releasing tables cannot panic over a free page.
* `Exact.copyDir`, `Exact.copyPageTables_ok`, `Exact.putPage_ok`, `Exact.unWpPage_ok`.
-/

namespace Linux001.Mm

variable {s s' : Memory} {held held' : Finset ℕ} {x : ℕ × ℕ} {d i p : ℕ}

namespace Exact

/-! ### The directory and the tables that are present stay as they are -/

section Agree

variable (hlow : ∀ k < 2048, s'.word k = s.word k)
  (hpte : ∀ x ∈ userEntries, present (s.word x.1) = true → s'.pte x.1 x.2 = s.pte x.1 x.2)

include hlow

theorem word_of_agree (hd : d ∈ userDirs) : s'.word d = s.word d :=
  hlow d (by have := (mem_userDirs.mp hd).2; omega)

include hpte

theorem mapsPage_of_agree (hx : x ∈ userEntries) (p : ℕ) :
    s'.MapsPage p x ↔ s.MapsPage p x := by
  rw [Memory.MapsPage, Memory.MapsPage, word_of_agree hlow (mem_userEntries.mp hx).1]
  refine and_congr_right fun hp => ?_
  rw [hpte x hx hp]

/-- The frames have the users that they had. -/
theorem refs_of_agree (held : Finset ℕ) (p : ℕ) : s'.refs held p = s.refs held p := by
  have hpages : (userEntries.filter (s'.MapsPage p)).card =
      (userEntries.filter (s.MapsPage p)).card :=
    card_filter_agree fun x hx => mapsPage_of_agree hlow hpte hx p
  have htables : (userDirs.filter (s'.UsesTable p)).card = (userDirs.filter (s.UsesTable p)).card :=
    card_filter_agree fun d hd => by
      rw [Memory.UsesTable, Memory.UsesTable, word_of_agree hlow hd]
  rw [Memory.refs, Memory.refs, hpages, htables]

/-- The counts decide whether the invariant is kept. -/
theorem of_agree_count (h : Exact s held)
    (hheld : ∀ p ∈ held', 512 ≤ p ∧ p < 2048 ∧ s.refs held' p = 1)
    (hcount : ∀ p, 512 ≤ p → p < 2048 → s'.memMap (p - 512) = s.refs held' p)
    (htable : ∀ d ∈ userDirs, present (s.word d) = true →
      s.refs held' (frameOf (s.word d)) = 1) : Exact s' held' := by
  have hrefs := refs_of_agree hlow hpte held'
  refine ⟨fun d hd hp => ?_, fun x hx hp hpp => ?_, fun p hp => ⟨(hheld p hp).1, (hheld p hp).2.1⟩,
    fun p hlo hhi => (hcount p hlo hhi).trans (hrefs p).symm, fun d hd hp => ?_,
    fun p hp => (hrefs p).trans (hheld p hp).2.2, fun x hx y hy p hp hmx hmy => ?_, ?_,
    fun i hi => ?_⟩
  · rw [word_of_agree hlow hd] at hp ⊢
    exact h.table_mem d hd hp
  · rw [word_of_agree hlow (mem_userEntries.mp hx).1] at hp
    rw [hpte x hx hp] at hpp ⊢
    exact h.page_lt x hx hp hpp
  · rw [word_of_agree hlow hd] at hp ⊢
    exact (hrefs _).trans (htable d hd hp)
  · exact h.index x hx y hy p hp ((mapsPage_of_agree hlow hpte hx p).mp hmx)
      ((mapsPage_of_agree hlow hpte hy p).mp hmy)
  · rw [hlow 0 (by norm_num)]
    exact h.kernel_dir
  · rw [hlow _ (by omega)]
    exact h.kernel_table i hi

end Agree

/-! ### One directory entry replaced -/

private theorem refs_add_dir (hd : d ∈ userDirs) (hword : ∀ a ≠ d, s'.word a = s.word a)
    (hmaps : ∀ y ∈ userEntries, ∀ p, s'.MapsPage p y ↔ s.MapsPage p y) (held held' : Finset ℕ)
    (p : ℕ) :
    s'.refs held' p + (if s.UsesTable p d then 1 else 0) + (if p ∈ held then 1 else 0) =
      s.refs held p + (if s'.UsesTable p d then 1 else 0) + (if p ∈ held' then 1 else 0) := by
  have htables : (userDirs.filter (s'.UsesTable p)).card + (if s.UsesTable p d then 1 else 0) =
      (userDirs.filter (s.UsesTable p)).card + (if s'.UsesTable p d then 1 else 0) := by
    refine card_filter_change hd fun d' _ hne => ?_
    rw [Memory.UsesTable, Memory.UsesTable, hword d' hne]
  have hpages : (userEntries.filter (s'.MapsPage p)).card =
      (userEntries.filter (s.MapsPage p)).card :=
    card_filter_agree fun y hy => hmaps y hy p
  rw [Memory.refs, Memory.refs, hpages]
  omega

/-- The entries of the other tables stay as they are when one directory entry is replaced. -/
private theorem pte_of_dir (h : Exact s held) (hd : d ∈ userDirs)
    (hword : ∀ a ≠ d, s'.word a = s.word a) {d' : ℕ} (hd' : d' ∈ userDirs) (hne : d' ≠ d)
    (hp : present (s.word d') = true) (i : ℕ) : s'.pte d' i = s.pte d' i := by
  have hframe := h.table_mem d' hd' hp
  have hdir := mem_userDirs.mp hd
  rw [Memory.pte, Memory.pte, hword d' hne, hword _ (by omega)]

private theorem of_dirReplaced (h : Exact s held) (hd : d ∈ userDirs)
    (hword : ∀ a ≠ d, s'.word a = s.word a)
    (hmaps : ∀ y ∈ userEntries, ∀ p, s'.MapsPage p y ↔ s.MapsPage p y) (hsub : held' ⊆ held)
    (hcount : ∀ p, 512 ≤ p → p < 2048 →
      s'.memMap (p - 512) + (if s.UsesTable p d then 1 else 0) + (if p ∈ held then 1 else 0) =
        s.memMap (p - 512) + (if s'.UsesTable p d then 1 else 0) + (if p ∈ held' then 1 else 0))
    (htable : present (s'.word d) = true → 512 ≤ frameOf (s'.word d) ∧
      frameOf (s'.word d) < 2048 ∧ s'.refs held' (frameOf (s'.word d)) = 1)
    (hother : ∀ d' ∈ userDirs, d' ≠ d → present (s.word d') = true →
      ¬ s'.UsesTable (frameOf (s.word d')) d)
    (hheld : ∀ p ∈ held', ¬ s'.UsesTable p d) : Exact s' held' where
  table_mem d' hd' hp := by
    by_cases hne : d' = d
    · subst hne
      exact ⟨(htable hp).1, (htable hp).2.1⟩
    · rw [hword d' hne] at hp ⊢
      exact h.table_mem d' hd' hp
  page_lt y hy hp hpte := by
    obtain ⟨hp', hpte', heq⟩ := (hmaps y hy _).mp ⟨hp, hpte, rfl⟩
    rw [← heq]
    exact h.page_lt y hy hp' hpte'
  held_mem p hp := h.held_mem p (hsub hp)
  count p hlo hhi := by
    have hrefs := refs_add_dir hd hword hmaps held held' p
    have hc := hcount p hlo hhi
    have hold := h.count p hlo hhi
    omega
  sole d' hd' hp := by
    by_cases hne : d' = d
    · subst hne
      exact (htable hp).2.2
    · rw [hword d' hne] at hp ⊢
      have hrefs := refs_add_dir hd hword hmaps held held' (frameOf (s.word d'))
      have hold : ¬ s.UsesTable (frameOf (s.word d')) d := fun hu =>
        hne (h.table_inj hd hu.1 hd' hp hu.2).symm
      rw [if_neg hold, if_neg (hother d' hd' hne hp), if_neg (h.table_not_held hd' hp),
        if_neg fun hmem => h.table_not_held hd' hp (hsub hmem), h.sole d' hd' hp] at hrefs
      omega
  held_sole p hp := by
    have hrefs := refs_add_dir hd hword hmaps held held' p
    rw [if_neg (h.held_not_table (hsub hp) hd), if_neg (hheld p hp), if_pos hp,
      if_pos (hsub hp), h.held_sole p (hsub hp)] at hrefs
    omega
  index y hy z hz p hp hmy hmz :=
    h.index y hy z hz p hp ((hmaps y hy p).mp hmy) ((hmaps z hz p).mp hmz)
  kernel_dir := by
    rw [hword 0 (by have := (mem_userDirs.mp hd).1; omega)]
    exact h.kernel_dir
  kernel_table i hi := by
    rw [hword _ (by have := (mem_userDirs.mp hd).2; omega)]
    exact h.kernel_table i hi

/-- A cleared page that the kernel holds becomes a page table. -/
theorem mapTable (h : Exact s held) (hd : d ∈ userDirs) (habs : present (s.word d) = false)
    (hp : p ∈ held) (hzero : ∀ i < 1024, s.word (p * 1024 + i) = 0) :
    Exact (s.store d (entryFor p)) (held.erase p) := by
  obtain ⟨hlo, hhi⟩ := h.held_mem p hp
  have hdir := mem_userDirs.mp hd
  have hword : ∀ a ≠ d, (s.store d (entryFor p)).word a = s.word a := fun a ha =>
    s.store_word_of_ne ha _
  have hnew : (s.store d (entryFor p)).word d = entryFor p := s.store_word_self d _
  have hframe : frameOf (entryFor p) = p := frameOf_entryFor (by omega)
  have huses (q : ℕ) : (s.store d (entryFor p)).UsesTable q d ↔ p = q := by
    rw [Memory.UsesTable, hnew, present_entryFor, hframe]
    simp
  have hnot (q : ℕ) : ¬ s.UsesTable q d := fun hu => by simpa [habs] using hu.1
  have hmaps : ∀ y ∈ userEntries, ∀ q,
      (s.store d (entryFor p)).MapsPage q y ↔ s.MapsPage q y := by
    intro y hy q
    obtain ⟨hyd, hyi⟩ := mem_userEntries.mp hy
    by_cases hne : y.1 = d
    · have hpte : (s.store d (entryFor p)).pte y.1 y.2 = 0 := by
        rw [Memory.pte, hne, hnew, hframe, hword _ (by omega), hzero y.2 hyi]
      refine iff_of_false (fun hm => ?_) fun hm => ?_
      · simpa [hpte] using hm.2.1
      · simpa [hne, habs] using hm.1
    · rw [Memory.MapsPage, Memory.MapsPage, hword _ hne]
      refine and_congr_right fun hpres => ?_
      rw [h.pte_of_dir hd hword hyd hne hpres]
  have hrefs (q : ℕ) := refs_add_dir hd hword hmaps held (held.erase p) q
  refine h.of_dirReplaced hd hword hmaps (Finset.erase_subset p held) (fun q _ _ => ?_)
    (fun _ => ?_) (fun d' hd' hne hpres => ?_) fun q hq => ?_
  · rw [if_neg (hnot q), Memory.store_memMap]
    by_cases hq : p = q
    · subst hq
      simp [huses, hp]
    · simp [huses, hq, Ne.symm hq, Finset.mem_erase]
  · rw [hnew, hframe]
    have hp' := hrefs p
    rw [if_neg (hnot p), if_pos hp, if_pos ((huses p).mpr rfl),
      if_neg (Finset.notMem_erase p held), h.held_sole p hp] at hp'
    exact ⟨hlo, hhi, by omega⟩
  · rw [huses]
    exact fun heq => h.table_not_held hd' hpres (heq ▸ hp)
  · rw [huses]
    exact (Finset.ne_of_mem_erase hq).symm

/-- A page table without present entries is given back. -/
theorem unmapTable (h : Exact s held) (hd : d ∈ userDirs) (hpres : present (s.word d) = true)
    (hempty : ∀ i < 1024, present (s.pte d i) = false) :
    Exact ((s.setMap (frameOf (s.word d) - 512)
      (s.memMap (frameOf (s.word d) - 512) - 1)).store d 0) held := by
  obtain ⟨hlo, hhi⟩ := h.table_mem d hd hpres
  set t := frameOf (s.word d) with ht
  set s' := (s.setMap (t - 512) (s.memMap (t - 512) - 1)).store d 0 with hs'
  have hword : ∀ a ≠ d, s'.word a = s.word a := fun a ha => by
    rw [hs', Memory.store_word_of_ne _ ha, Memory.setMap_word]
  have hnew : s'.word d = 0 := Memory.store_word_self _ d 0
  have hnot (q : ℕ) : ¬ s'.UsesTable q d := fun hu => by simpa [hnew] using hu.1
  have huses (q : ℕ) : s.UsesTable q d ↔ t = q := by
    rw [Memory.UsesTable, hpres, ← ht]
    simp
  have hmaps : ∀ y ∈ userEntries, ∀ q, s'.MapsPage q y ↔ s.MapsPage q y := by
    intro y hy q
    obtain ⟨hyd, hyi⟩ := mem_userEntries.mp hy
    by_cases hne : y.1 = d
    · refine iff_of_false (fun hm => ?_) fun hm => ?_
      · simpa [hne, hnew] using hm.1
      · simpa [hne, hempty y.2 hyi] using hm.2.1
    · rw [Memory.MapsPage, Memory.MapsPage, hword _ hne]
      refine and_congr_right fun hpres' => ?_
      rw [h.pte_of_dir hd hword hyd hne hpres']
  have hone : s.memMap (t - 512) = 1 := by rw [h.count t hlo hhi, h.sole d hd hpres]
  refine h.of_dirReplaced hd hword hmaps subset_rfl (fun q hqlo hqhi => ?_)
    (fun hp => by simp [hnew] at hp) (fun d' _ _ _ => hnot _) fun q _ => hnot q
  rw [if_neg (hnot q), hs', Memory.store_memMap, Memory.setMap_memMap]
  by_cases hq : t = q
  · subst hq
    simp [huses, hone]
  · rw [if_neg (by omega), if_neg fun hu => hq ((huses q).mp hu)]

/-! ### One table entry replaced by a store -/

section Entry

variable {v : Word} (h : Exact s held) (hx : x ∈ userEntries)
  (hdir : present (s.word x.1) = true)

include h hx hdir

private theorem mapsPage_store (hw : s'.word = (s.store (frameOf (s.word x.1) * 1024 + x.2) v).word)
    (q : ℕ) : s'.MapsPage q x ↔ present v = true ∧ frameOf v = q := by
  have hword : s'.word x.1 = s.word x.1 := by
    rw [hw]
    exact (h.replaced_store hx hdir v).word_dir (mem_userEntries.mp hx).1
  have hpte : s'.pte x.1 x.2 = v := by
    rw [Memory.pte, hword, hw, Memory.store_word_self]
  rw [Memory.MapsPage, hword, hpte, hdir]
  simp

/-- What the store of `v` to a table entry needs to keep the counts exact. -/
private theorem storeEntry
    (hw : s'.word = (s.store (frameOf (s.word x.1) * 1024 + x.2) v).word) (hsub : held' ⊆ held)
    (hcount : ∀ q, 512 ≤ q → q < 2048 →
      s'.memMap (q - 512) + (if s.MapsPage q x then 1 else 0) + (if q ∈ held then 1 else 0) =
        s.memMap (q - 512) + (if present v = true ∧ frameOf v = q then 1 else 0) +
          (if q ∈ held' then 1 else 0))
    (hpage : present v = true → frameOf v < 2048)
    (htable : present v = true → ∀ d ∈ userDirs, present (s.word d) = true →
      frameOf v ≠ frameOf (s.word d))
    (hheld : present v = true → frameOf v ∉ held')
    (hindex : present v = true → 512 ≤ frameOf v → ∀ y ∈ userEntries, y ≠ x →
      s.MapsPage (frameOf v) y → y.2 = x.2) : Exact s' held' := by
  have hmaps := h.mapsPage_store hx hdir hw
  have hst := h.replaced_store hx hdir v
  have hr : Replaced s s' x := by
    refine ⟨hst.mem, hst.dir, fun k hk => ?_, fun y hy hne hp => ?_⟩
    · rw [hw]
      exact hst.low k hk
    · rw [Memory.pte, hw]
      exact hst.other y hy hne hp
  have hpte : s'.pte x.1 x.2 = v := by
    rw [Memory.pte, hw]
    exact h.pte_store hx hdir v
  refine h.of_replaced hr hsub (fun q hlo hhi => ?_) (fun hp => ?_) (fun d hd hp hm => ?_)
    (fun q hq hm => ?_) fun q hlo hm y hy hne hmy => ?_
  · have hc := hcount q hlo hhi
    simp only [hmaps] at hc ⊢
    exact hc
  · rw [hpte] at hp ⊢
    exact hpage hp
  · obtain ⟨hv, heq⟩ := (hmaps _).mp hm
    exact htable hv d hd hp heq
  · obtain ⟨hv, rfl⟩ := (hmaps q).mp hm
    exact hheld hv hq
  · obtain ⟨hv, rfl⟩ := (hmaps q).mp hm
    exact hindex hv hlo y hy hne hmy

/-- A page that the kernel holds is mapped by an absent entry. -/
theorem mapPage (habs : present (s.pte x.1 x.2) = false) (hp : p ∈ held) :
    Exact (s.store (frameOf (s.word x.1) * 1024 + x.2) (entryFor p)) (held.erase p) := by
  obtain ⟨hlo, hhi⟩ := h.held_mem p hp
  have hframe : frameOf (entryFor p) = p := frameOf_entryFor (by omega)
  refine h.storeEntry hx hdir rfl (Finset.erase_subset p held) (fun q _ _ => ?_) (fun _ => ?_)
    (fun _ d hd hpres heq => ?_) (fun _ => ?_) fun _ _ y hy _ hmy => ?_
  · have hnot : ¬ s.MapsPage q x := fun hm => by simpa [habs] using hm.2.1
    rw [if_neg hnot, Memory.store_memMap, hframe]
    by_cases hq : p = q
    · subst hq
      simp [hp]
    · simp [hq, Ne.symm hq, Finset.mem_erase]
  · rw [hframe]
    exact hhi
  · rw [hframe] at heq
    exact h.table_not_held hd hpres (heq ▸ hp)
  · rw [hframe]
    exact Finset.notMem_erase p held
  · rw [hframe] at hmy
    exact absurd hmy (h.held_not_mapped hp hy)

/-- An absent entry becomes a second user of a page that an entry with the same index maps. -/
theorem sharePage (habs : present (s.pte x.1 x.2) = false) (hv : present v = true)
    (hlt : frameOf v < 2048)
    (hsrc : 512 ≤ frameOf v → ∃ y ∈ userEntries, s.MapsPage (frameOf v) y ∧ y.2 = x.2) :
    Exact (if 512 ≤ frameOf v then
        (s.store (frameOf (s.word x.1) * 1024 + x.2) v).setMap (frameOf v - 512)
          ((s.memMap (frameOf v - 512) + 1) % 65536)
      else s.store (frameOf (s.word x.1) * 1024 + x.2) v) held := by
  have hnot (q : ℕ) : ¬ s.MapsPage q x := fun hm => by simpa [habs] using hm.2.1
  refine h.storeEntry (v := v) hx hdir (by split_ifs <;> rfl) subset_rfl (fun q hlo hhi => ?_)
    (fun _ => hlt) (fun _ d hd hpres heq => ?_) (fun _ hmem => ?_) fun _ hlo y hy _ hmy => ?_
  · rw [if_neg (hnot q)]
    by_cases hq : frameOf v = q
    · have hbound := h.refs_lt hlo
      have hc := h.count q hlo hhi
      subst hq
      have hnew : present v = true ∧ frameOf v = frameOf v := ⟨hv, rfl⟩
      rw [if_pos hlo, if_pos hnew, Memory.setMap_memMap, if_pos rfl, Nat.mod_eq_of_lt (by omega)]
    · have hnew : ¬ (present v = true ∧ frameOf v = q) := fun hc => hq hc.2
      rw [if_neg hnew]
      by_cases hcounted : 512 ≤ frameOf v
      · rw [if_pos hcounted, Memory.setMap_memMap, if_neg (by omega), Memory.store_memMap]
      · rw [if_neg hcounted, Memory.store_memMap]
  · obtain ⟨hlo, -⟩ := h.table_mem d hd hpres
    obtain ⟨y, hy, hmy, -⟩ := hsrc (heq ▸ hlo)
    exact h.table_not_mapped hd hpres hy (heq ▸ hmy)
  · obtain ⟨hlo, -⟩ := h.held_mem _ hmem
    obtain ⟨y, hy, hmy, -⟩ := hsrc hlo
    exact h.held_not_mapped hmem hy hmy
  · obtain ⟨z, hz, hmz, hzx⟩ := hsrc hlo
    rw [← hzx]
    exact h.index y hy z hz _ hlo hmy hmz

/-- A present entry changes its flags and goes on to map the same frame. -/
theorem reflagPage (hpres : present (s.pte x.1 x.2) = true) (hv : present v = true)
    (hframe : frameOf v = frameOf (s.pte x.1 x.2)) :
    Exact (s.store (frameOf (s.word x.1) * 1024 + x.2) v) held := by
  have hold (q : ℕ) : s.MapsPage q x ↔ frameOf v = q := by
    rw [Memory.MapsPage, hdir, hpres, hframe]
    simp
  have hmaps : s.MapsPage (frameOf v) x := (hold _).mpr rfl
  refine h.storeEntry hx hdir rfl subset_rfl (fun q _ _ => ?_) (fun _ => ?_)
    (fun _ d hd hp heq => ?_) (fun _ hmem => ?_) fun _ hlo y hy _ hmy => ?_
  · simp only [hold, hv, true_and, Memory.store_memMap]
  · rw [hframe]
    exact h.page_lt x hx hdir hpres
  · exact h.table_not_mapped hd hp hx (heq ▸ hmaps)
  · exact h.held_not_mapped hmem hx hmaps
  · exact h.index y hy x hx _ hlo hmy hmaps

/-- The count of the frame a present entry maps. -/
theorem one_le_memMap (hpres : present (s.pte x.1 x.2) = true)
    (hlo : 512 ≤ frameOf (s.pte x.1 x.2)) : 1 ≤ s.memMap (frameOf (s.pte x.1 x.2) - 512) := by
  have hpos : 0 < (userEntries.filter (s.MapsPage (frameOf (s.pte x.1 x.2)))).card :=
    Finset.card_pos.mpr ⟨x, Finset.mem_filter.mpr ⟨hx, hdir, hpres, rfl⟩⟩
  rw [h.count _ hlo (h.page_lt x hx hdir hpres), Memory.refs]
  omega

/-- A present entry gives up its frame, if that is counted, and is cleared or made to map a page
that the kernel holds. -/
theorem movePage (hpres : present (s.pte x.1 x.2) = true) (hsub : held' ⊆ held)
    (hv : present v = true → 512 ≤ frameOf v ∧ frameOf v ∈ held)
    (hheld : ∀ q, q ∈ held' ↔ q ∈ held ∧ ¬ (present v = true ∧ frameOf v = q)) :
    Exact ((if 512 ≤ frameOf (s.pte x.1 x.2) then
        s.setMap (frameOf (s.pte x.1 x.2) - 512) (s.memMap (frameOf (s.pte x.1 x.2) - 512) - 1)
      else s).store (frameOf (s.word x.1) * 1024 + x.2) v) held' := by
  have hold (q : ℕ) : s.MapsPage q x ↔ frameOf (s.pte x.1 x.2) = q := by
    rw [Memory.MapsPage, hdir, hpres]
    simp
  refine h.storeEntry (v := v) hx hdir (by split_ifs <;> rfl) hsub (fun q hlo hhi => ?_)
    (fun hp => (h.held_mem _ (hv hp).2).2) (fun hp d hd hpd heq => ?_) (fun hp hmem => ?_)
    fun hp hlo y hy hne hmy => ?_
  · have hmap : (if 512 ≤ frameOf (s.pte x.1 x.2) then
          s.setMap (frameOf (s.pte x.1 x.2) - 512) (s.memMap (frameOf (s.pte x.1 x.2) - 512) - 1)
        else s).memMap (q - 512) + (if s.MapsPage q x then 1 else 0) = s.memMap (q - 512) := by
      by_cases hq : frameOf (s.pte x.1 x.2) = q
      · have hone := h.one_le_memMap hx hdir hpres (hq ▸ hlo)
        subst hq
        rw [if_pos hlo, if_pos ((hold _).mpr rfl), Memory.setMap_memMap, if_pos rfl]
        omega
      · have hnot : ¬ s.MapsPage q x := fun hm => hq ((hold q).mp hm)
        rw [if_neg hnot]
        split_ifs
        · rw [Memory.setMap_memMap, if_neg (by omega), add_zero]
        · rfl
    have hmove : (if q ∈ held then 1 else 0) =
        (if present v = true ∧ frameOf v = q then 1 else 0) + if q ∈ held' then 1 else 0 := by
      by_cases hvq : present v = true ∧ frameOf v = q
      · have hmem : q ∈ held := hvq.2 ▸ (hv hvq.1).2
        simp [hheld, hvq, hmem]
      · simp [hheld, hvq]
    rw [Memory.store_memMap]
    omega
  · exact h.table_not_held hd hpd (heq ▸ (hv hp).2)
  · exact ((hheld _).mp hmem).2 ⟨hp, rfl⟩
  · exact absurd hmy (h.held_not_mapped (hv hp).2 hy)

/-- A present entry is cleared and gives up its frame. -/
theorem unmapPage (hpres : present (s.pte x.1 x.2) = true) :
    Exact ((if 512 ≤ frameOf (s.pte x.1 x.2) then
        s.setMap (frameOf (s.pte x.1 x.2) - 512) (s.memMap (frameOf (s.pte x.1 x.2) - 512) - 1)
      else s).store (frameOf (s.word x.1) * 1024 + x.2) 0) held :=
  h.movePage hx hdir hpres subset_rfl (fun hp => by simp at hp) fun q => by simp

/-- An absent entry is cleared. -/
theorem clearEntry (habs : present (s.pte x.1 x.2) = false) :
    Exact (s.store (frameOf (s.word x.1) * 1024 + x.2) 0) held := by
  have hnot (q : ℕ) : ¬ s.MapsPage q x := fun hm => by simpa [habs] using hm.2.1
  refine h.storeEntry (v := 0) hx hdir rfl subset_rfl (fun q _ _ => ?_) (fun hp => by simp at hp)
    (fun hp => by simp at hp) (fun hp => by simp at hp) fun hp => by simp at hp
  simp [hnot]

end Entry

/-! ### Allocation -/

/-- The scan of `get_free_page` finds a zero counter below its bound. -/
theorem scanFree_eq_some {map : ℕ → ℕ} : ∀ {n nr : ℕ}, Memory.scanFree map n = some nr →
    nr < n ∧ map nr = 0
  | 0, _, hs => by simp [Memory.scanFree] at hs
  | n + 1, nr, hs => by
    rw [Memory.scanFree] at hs
    split_ifs at hs with hz
    · obtain rfl := Option.some.inj hs
      exact ⟨Nat.lt_succ_self n, hz⟩
    · obtain ⟨hlt, hmap⟩ := scanFree_eq_some hs
      exact ⟨Nat.lt_succ_of_lt hlt, hmap⟩

/-- The scan of `get_free_page` fails only when no counter is zero. -/
theorem scanFree_eq_none {map : ℕ → ℕ} : ∀ {n nr : ℕ}, Memory.scanFree map n = none → nr < n →
    map nr ≠ 0
  | 0, _, _, hlt => by omega
  | n + 1, nr, hs, hlt => by
    rw [Memory.scanFree] at hs
    split_ifs at hs with hz
    by_cases heq : nr = n
    · rwa [heq]
    · exact scanFree_eq_none hs (by omega)

/-- The frame that `get_free_page` returns had no users; the kernel holds it afterwards, and its
words are cleared. -/
theorem getFreePage (h : Exact s held) {page : ℕ} (hg : s.getFreePage = some (page, s')) :
    ∃ p, page = p * 4096 ∧ 512 ≤ p ∧ p < 2048 ∧ s.refs held p = 0 ∧
      Exact s' (insert p held) ∧ s'.memMap = Function.update s.memMap (p - 512) 1 ∧
      ∀ a, s'.word a = if a / 1024 = p then 0 else s.word a := by
  obtain ⟨nr, hscan, heq⟩ := Option.map_eq_some_iff.mp hg
  obtain ⟨hlt, hfree⟩ := scanFree_eq_some hscan
  have hbound : pagingPages = 1536 := rfl
  obtain ⟨rfl, rfl⟩ := Prod.mk.inj heq
  have hframe : (nr * 4096 + lowMem) / 4096 = nr + 512 := by
    rw [lowMem]
    omega
  have hlo : 512 ≤ nr + 512 := by omega
  have hhi : nr + 512 < 2048 := by omega
  have hrefs : s.refs held (nr + 512) = 0 := by
    rw [← h.count _ hlo hhi, Nat.add_sub_cancel, hfree]
  refine ⟨nr + 512, by rw [lowMem]; omega, hlo, hhi, hrefs, ?_, by rw [Nat.add_sub_cancel],
    fun a => by rw [hframe]⟩
  simp only [hframe]
  set s' : Memory := ⟨Function.update s.memMap nr 1,
    fun a => if a / 1024 = nr + 512 then 0 else s.word a⟩ with hs'
  have hlow : ∀ k < 2048, s'.word k = s.word k := fun k hk => if_neg (by omega)
  have hpte : ∀ x ∈ userEntries, present (s.word x.1) = true → s'.pte x.1 x.2 = s.pte x.1 x.2 := by
    intro x hx hp
    obtain ⟨hd, hi⟩ := mem_userEntries.mp hx
    rw [Memory.pte, Memory.pte, word_of_agree hlow hd]
    exact if_neg fun hc => not_usesTable_of_refs hrefs hd ⟨hp, by omega⟩
  have hnew (q : ℕ) : s.refs (insert (nr + 512) held) q =
      if q = nr + 512 then 1 else s.refs held q := by
    rw [Memory.refs]
    split_ifs with hmem hq hq
    · subst hq
      have hheld := not_mem_of_refs hrefs
      rw [Memory.refs, if_neg hheld] at hrefs
      omega
    · have hmem' : q ∈ held := (Finset.mem_insert.mp hmem).resolve_left hq
      rw [Memory.refs, if_pos hmem']
    · exact absurd (Finset.mem_insert.mpr (.inl hq)) hmem
    · have hmem' : q ∉ held := fun hc => hmem (Finset.mem_insert_of_mem hc)
      rw [Memory.refs, if_neg hmem']
  refine of_agree_count hlow hpte h (fun p hp => ?_) (fun p hplo hphi => ?_) fun d hd hp => ?_
  · rw [hnew]
    rcases Finset.mem_insert.mp hp with rfl | hp
    · exact ⟨hlo, hhi, if_pos rfl⟩
    · refine ⟨(h.held_mem p hp).1, (h.held_mem p hp).2, ?_⟩
      split_ifs with hq
      · rfl
      · exact h.held_sole p hp
  · have hmap : s'.memMap = Function.update s.memMap nr 1 := rfl
    rw [hnew p, hmap, Function.update_apply]
    by_cases hq : p = nr + 512
    · rw [if_pos (by omega), if_pos hq]
    · rw [if_neg (by omega), if_neg hq, h.count p hplo hphi]
  · rw [hnew, if_neg fun hc => not_usesTable_of_refs hrefs hd ⟨hp, hc⟩, h.sole d hd hp]

/-! ### Release -/

/-- `free_page` on the frame of an entry. -/
theorem freePage_pageOf {e : Word} (hlt : frameOf e < 2048)
    (hpos : 512 ≤ frameOf e → 1 ≤ s.memMap (frameOf e - 512)) :
    Memory.freePage (pageOf e) s = .ok (if 512 ≤ frameOf e then
      s.setMap (frameOf e - 512) (s.memMap (frameOf e - 512) - 1) else s) := by
  have hle : ¬ highMemory < pageOf e := by
    rw [pageOf_eq, highMemory]
    omega
  rw [Memory.freePage, mapNr_pageOf, if_neg hle]
  by_cases hlo : 512 ≤ frameOf e
  · have hpage : ¬ pageOf e < lowMem := by
      rw [not_lt]
      exact (lowMem_le_pageOf_iff e).mpr hlo
    have hne : s.memMap (frameOf e - 512) ≠ 0 := by
      have := hpos hlo
      omega
    rw [if_neg hpage, if_pos hne, if_pos hlo]
  · have hpage : pageOf e < lowMem := by
      rw [← not_le]
      exact fun hc => hlo ((lowMem_le_pageOf_iff e).mp hc)
    rw [if_pos hpage, if_neg hlo]

/-- Releasing the page of an entry does not panic, and clears the entry. -/
theorem freeEntry (h : Exact s held) (hx : x ∈ userEntries) (hdir : present (s.word x.1) = true) :
    ∃ s', Memory.freeEntry (frameOf (s.word x.1) * 1024 + x.2) s = .ok s' ∧ Exact s' held ∧
      s'.word = (s.store (frameOf (s.word x.1) * 1024 + x.2) 0).word := by
  have hpte : s.word (frameOf (s.word x.1) * 1024 + x.2) = s.pte x.1 x.2 := rfl
  rw [Memory.freeEntry, hpte]
  by_cases hpres : present (s.pte x.1 x.2) = true
  · rw [if_pos hpres, freePage_pageOf (h.page_lt x hx hdir hpres)
      fun hlo => h.one_le_memMap hx hdir hpres hlo]
    refine ⟨_, rfl, h.unmapPage hx hdir hpres, ?_⟩
    split_ifs <;> rfl
  · rw [if_neg hpres]
    exact ⟨_, rfl, h.clearEntry hx hdir (by simpa using hpres), rfl⟩

/-- Releasing a directory entry does not panic. Its table is emptied and given back; no other word
changes. -/
theorem freeDir (h : Exact s held) (hd : d ∈ userDirs) :
    ∃ s', Memory.freeDir d s = .ok s' ∧ Exact s' held ∧ present (s'.word d) = false ∧
      ∀ a ≠ d, (present (s.word d) = true → a / 1024 ≠ frameOf (s.word d)) →
        s'.word a = s.word a := by
  have hdlt := (mem_userDirs.mp hd).2
  by_cases hpres : present (s.word d) = true
  swap
  · refine ⟨s, ?_, h, by simpa using hpres, fun _ _ _ => rfl⟩
    rw [Memory.freeDir, if_neg hpres]
  obtain ⟨hlo, hhi⟩ := h.table_mem d hd hpres
  rw [Memory.freeDir, if_pos hpres, Memory.pageTable_eq]
  -- After `k` turns the first `k` entries of the table are zero and nothing else has changed.
  obtain ⟨s₁, hs₁, hex, hzero, hother⟩ := foldlM_range_ok
    (f := fun s' nr => Memory.freeEntry (frameOf (s.word d) * 1024 + nr) s') (n := 1024)
    (fun k s₁ => Exact s₁ held ∧ (∀ j < k, s₁.word (frameOf (s.word d) * 1024 + j) = 0) ∧
      ∀ a, a / 1024 ≠ frameOf (s.word d) → s₁.word a = s.word a)
    ⟨h, fun j hj => by omega, fun _ _ => rfl⟩ <| by
      rintro k hk s₁ ⟨hex, hzero, hother⟩
      have hword : s₁.word d = s.word d := hother d (by omega)
      have hx : ((d, k) : ℕ × ℕ) ∈ userEntries := mem_userEntries.mpr ⟨hd, hk⟩
      obtain ⟨s₂, hs₂, hex₂, hw₂⟩ := hex.freeEntry hx (by rw [hword]; exact hpres)
      rw [hword] at hs₂ hw₂
      refine ⟨s₂, hs₂, hex₂, fun j hj => ?_, fun a ha => ?_⟩
      · rw [hw₂, Memory.store_word]
        split_ifs with hjk
        · rfl
        · exact hzero j (by omega)
      · rw [hw₂, Memory.store_word_of_ne _ (by omega)]
        exact hother a ha
  have hword : s₁.word d = s.word d := hother d (by omega)
  have hpres₁ : present (s₁.word d) = true := by rw [hword]; exact hpres
  have hempty : ∀ i < 1024, present (s₁.pte d i) = false := fun i hi => by
    rw [Memory.pte, hword, hzero i hi]
    rfl
  have hfree := hex.unmapTable hd hpres₁ hempty
  dsimp only
  rw [hs₁]
  change ∃ s', (do
    let s' ← Memory.freePage (pageOf (s₁.word d)) s₁
    return s'.store d 0) = Except.ok s' ∧ _
  rw [freePage_pageOf (by rw [hword]; exact hhi) fun _ => by
    rw [hex.count _ (by rw [hword]; exact hlo) (by rw [hword]; exact hhi), hex.sole d hd hpres₁],
    if_pos (by rw [hword]; exact hlo)]
  refine ⟨_, rfl, hfree, ?_, fun a ha hne => ?_⟩
  · rw [Memory.store_word_self]
    rfl
  · rw [Memory.store_word_of_ne _ ha, Memory.setMap_word]
    exact hother a (hne hpres)

/-- Releasing the tables of a range of directory entries of user slots does not panic. -/
theorem freePageTables_ok (h : Exact s held) {from' size : Word}
    (halign : from'.toNat % 2 ^ 22 = 0) (hlo : 16 ≤ dirOf from')
    (hhi : dirOf from' + Memory.dirCount size ≤ 1024) :
    ∃ s', Memory.freePageTables from' size s = .ok s' ∧ Exact s' held ∧
      (∀ j < Memory.dirCount size, present (s'.word (dirOf from' + j)) = false) ∧
      ∀ a, (∀ j < Memory.dirCount size, a ≠ dirOf from' + j ∧
        (present (s.word (dirOf from' + j)) = true →
          a / 1024 ≠ frameOf (s.word (dirOf from' + j)))) → s'.word a = s.word a := by
  have hne : from' ≠ 0 := fun hc => by simp [hc, dirOf] at hlo
  have hand : ¬ (from' &&& 0x3fffff ≠ 0) := not_not.mpr ((toNat_and_align from').mpr halign)
  rw [Memory.freePageTables, if_neg hand, if_neg hne]
  have hdirs : ∀ k < Memory.dirCount size, dirOf from' + k ∈ userDirs := fun k hk =>
    mem_userDirs.mpr ⟨by omega, by omega⟩
  refine foldlM_range_ok (fun k s' => Exact s' held ∧
      (∀ j < k, present (s'.word (dirOf from' + j)) = false) ∧
      ∀ a, (∀ j < k, a ≠ dirOf from' + j ∧ (present (s.word (dirOf from' + j)) = true →
        a / 1024 ≠ frameOf (s.word (dirOf from' + j)))) → s'.word a = s.word a)
    ⟨h, fun j hj => by omega, fun _ _ => rfl⟩ ?_
  rintro k hk s₁ ⟨hex, habs, hother⟩
  obtain ⟨s₂, hs₂, hex₂, habs₂, hother₂⟩ := hex.freeDir (hdirs k hk)
  have hword : s₁.word (dirOf from' + k) = s.word (dirOf from' + k) := by
    refine hother _ fun j hj => ⟨by omega, fun hp => ?_⟩
    have := (h.table_mem _ (hdirs j (by omega)) hp).1
    omega
  refine ⟨s₂, hs₂, hex₂, fun j hj => ?_, fun a ha => ?_⟩
  · by_cases hjk : j = k
    · rw [hjk]
      exact habs₂
    · rw [hother₂ _ (by omega) fun hp => ?_]
      · exact habs j (by omega)
      · have := (hex.table_mem _ (hdirs k hk) hp).1
        omega
  · rw [hother₂ a (ha k (by omega)).1 fun hp => ?_]
    · exact hother a fun j hj => ha j (by omega)
    · rw [hword] at hp ⊢
      exact (ha k (by omega)).2 hp

/-! ### Copying -/

/-- Where `copy_page_tables` reads the entry with index `i`: from a table of a user slot, or from
the first kilobytes of the kernel's own table. -/
def Source (s : Memory) (f i : ℕ) : Prop :=
  (∃ d ∈ userDirs, present (s.word d) = true ∧ frameOf (s.word d) = f) ∨ f = 1 ∧ i < 160

/-- Copying one entry: the counts stay exact, the copy is read-only, and so is the original if its
frame is counted. -/
theorem copyEntry (h : Exact s held) (hx : x ∈ userEntries) (hdir : present (s.word x.1) = true)
    (habs : present (s.pte x.1 x.2) = false) {f : ℕ} (hsrc : Source s f x.2) :
    Exact (Memory.copyEntry (f * 1024 + x.2) (frameOf (s.word x.1) * 1024 + x.2) s) held ∧
      ∀ a, (Memory.copyEntry (f * 1024 + x.2) (frameOf (s.word x.1) * 1024 + x.2) s).word a =
        if present (s.word (f * 1024 + x.2)) = true then
          if a = f * 1024 + x.2 ∧ 512 ≤ frameOf (s.word a) ∨
              a = frameOf (s.word x.1) * 1024 + x.2 then s.word (f * 1024 + x.2) &&& ~~~2
          else s.word a
        else s.word a := by
  set src := f * 1024 + x.2 with hsrcdef
  set dst := frameOf (s.word x.1) * 1024 + x.2 with hdstdef
  obtain ⟨hxd, hxi⟩ := mem_userEntries.mp hx
  by_cases hpres : present (s.word src) = true
  swap
  · simp only [Memory.copyEntry, if_neg hpres]
    exact ⟨h, fun _ => trivial⟩
  have hne : src ≠ dst := fun hc => by
    rw [hc, hdstdef] at hpres
    exact absurd (hpres.symm.trans habs) (by decide)
  set v := s.word src &&& ~~~2 with hv
  have hvpres : present v = true := by rw [hv, present_clear]; exact hpres
  have hvframe : frameOf v = frameOf (s.word src) := frameOf_clear _
  -- The source of a counted frame is an entry of a user table.
  have huser : 512 ≤ frameOf v → ∃ d ∈ userDirs, present (s.word d) = true ∧
      frameOf (s.word d) = f := fun hlo => by
    refine hsrc.resolve_right fun ⟨hf, hi⟩ => ?_
    have := h.kernel_table x.2 hi
    rw [hvframe, hsrcdef, hf, one_mul] at hlo
    omega
  have hlt : frameOf v < 2048 := by
    by_cases hlo : 512 ≤ frameOf v
    · obtain ⟨d, hd, hp, rfl⟩ := huser hlo
      rw [hvframe]
      exact h.page_lt (d, x.2) (mem_userEntries.mpr ⟨hd, hxi⟩) hp hpres
    · omega
  have hshare := h.sharePage hx hdir habs hvpres hlt fun hlo => by
    obtain ⟨d, hd, hp, rfl⟩ := huser hlo
    exact ⟨(d, x.2), mem_userEntries.mpr ⟨hd, hxi⟩, ⟨hp, hpres, hvframe.symm⟩, rfl⟩
  simp only [Memory.copyEntry, if_pos hpres, ← hv, lowMem_lt_iff hvpres, mapNr_toNat]
  by_cases hlo : 512 ≤ frameOf v
  · rw [if_pos hlo] at hshare ⊢
    obtain ⟨d, hd, hp, hf⟩ := huser hlo
    refine ⟨?_, fun a => ?_⟩
    · have hd' := mem_userDirs.mp hd
      have hdst := (h.table_mem x.1 hxd hdir).1
      have hword : ((s.store dst v).setMap (frameOf v - 512)
          ((s.memMap (frameOf v - 512) + 1) % 65536)).word d = s.word d := by
        rw [Memory.setMap_word, Memory.store_word_of_ne _ (by omega)]
      have hpte : ((s.store dst v).setMap (frameOf v - 512)
          ((s.memMap (frameOf v - 512) + 1) % 65536)).pte d x.2 = s.word src := by
        rw [Memory.pte, hword, hf, Memory.setMap_word, Memory.store_word_of_ne _ hne]
      have hre := hshare.reflagPage (x := (d, x.2)) (v := v) (mem_userEntries.mpr ⟨hd, hxi⟩)
        (by rw [hword]; exact hp) (by rw [hpte]; exact hpres) hvpres (by rw [hpte]; exact hvframe)
      rw [hword, hf, Memory.setMap_store] at hre
      simp only [Memory.store_memMap]
      exact hre
    · simp only [Memory.setMap_word, Memory.store_word]
      by_cases hs : a = src
      · subst hs
        simp [← hvframe, hlo]
      · simp [hs]
  · rw [if_neg hlo] at hshare ⊢
    refine ⟨hshare, fun a => ?_⟩
    rw [Memory.store_word]
    by_cases hd : a = dst
    · simp [hd]
    · have hcond : ¬ (a = src ∧ 512 ≤ frameOf (s.word a) ∨ a = dst) := by
        rintro (⟨rfl, hc⟩ | hc)
        · exact hlo (hvframe ▸ hc)
        · exact hd hc
      rw [if_neg hd, if_neg hcond]

end Exact

end Linux001.Mm
