import Linux001.Mm.Mmu

/-!
# Free page frames

`get_free_page` gives a frame as long as the counter of one is zero. The number of the free frames
tells for how many calls it goes on to do so.

## Main definitions

* `Memory.freeFrames`: the number of frames that `get_free_page` can still give.

## Main results

* `Memory.getFreePage_eq_none_iff`: there is a frame as long as one is free.
* `Memory.freeFrames_getFreePage`: every call takes one.
-/

namespace Linux001.Mm

/-- No frame is free when `get_free_page` has found none. -/
theorem Memory.memMap_ne_zero {s : Memory} (hg : s.getFreePage = none) :
    ∀ k < pagingPages, s.memMap k ≠ 0 := fun _ hk =>
  Exact.scanFree_eq_none (Option.map_eq_none_iff.mp hg) hk

/-- The number of frames that `get_free_page` can give. -/
def Memory.freeFrames (m : Memory) : ℕ :=
  ((Finset.range pagingPages).filter fun k => m.memMap k = 0).card

/-- `get_free_page` gives the lowest address of a free frame, which it clears and counts. -/
theorem Memory.getFreePage_eq_some {m m' : Memory} {page : ℕ}
    (hg : m.getFreePage = some (page, m')) : ∃ p, page = p * 4096 ∧ 512 ≤ p ∧ p < 2048 ∧
      m.memMap (p - 512) = 0 ∧ m'.memMap = Function.update m.memMap (p - 512) 1 ∧
      ∀ a, m'.word a = if a / 1024 = p then 0 else m.word a := by
  obtain ⟨nr, hscan, heq⟩ := Option.map_eq_some_iff.mp hg
  obtain ⟨hlt, hfree⟩ := Exact.scanFree_eq_some hscan
  have hbound : pagingPages = 1536 := rfl
  have hlow : lowMem = 512 * 4096 := rfl
  obtain ⟨rfl, rfl⟩ := Prod.mk.inj heq
  refine ⟨nr + 512, by omega, by omega, by omega, ?_, ?_, fun a => ?_⟩
  · rwa [Nat.add_sub_cancel]
  · rw [Nat.add_sub_cancel]
  · dsimp only
    rw [show (nr * 4096 + lowMem) / 4096 = nr + 512 by omega]

/-- There is a frame as long as one is free. -/
theorem Memory.getFreePage_eq_none_iff {m : Memory} :
    m.getFreePage = none ↔ m.freeFrames = 0 := by
  rw [freeFrames, Finset.card_eq_zero, Finset.filter_eq_empty_iff]
  refine ⟨fun hg k hk => memMap_ne_zero hg k (Finset.mem_range.mp hk), fun h => ?_⟩
  cases hg : m.getFreePage with
  | none => rfl
  | some r =>
    obtain ⟨p, -, hlo, hhi, hfree, -⟩ := getFreePage_eq_some hg
    have hbound : pagingPages = 1536 := rfl
    exact absurd hfree (h (Finset.mem_range.mpr (by omega)))

/-- A frame fewer is free after `get_free_page`. -/
theorem Memory.freeFrames_getFreePage {m m' : Memory} {page : ℕ}
    (hg : m.getFreePage = some (page, m')) : m'.freeFrames + 1 = m.freeFrames := by
  obtain ⟨p, -, hlo, hhi, hfree, hmap, -⟩ := getFreePage_eq_some hg
  have hbound : pagingPages = 1536 := rfl
  have hmem : p - 512 ∈ (Finset.range pagingPages).filter fun k => m.memMap k = 0 :=
    Finset.mem_filter.mpr ⟨Finset.mem_range.mpr (by omega), hfree⟩
  have herase : (Finset.range pagingPages).filter (fun k => m'.memMap k = 0) =
      ((Finset.range pagingPages).filter fun k => m.memMap k = 0).erase (p - 512) := by
    ext k
    rw [Finset.mem_erase, Finset.mem_filter, Finset.mem_filter, hmap, Function.update_apply]
    by_cases hk : k = p - 512
    · simp [hk]
    · simp [hk]
  rw [freeFrames, freeFrames, herase, Finset.card_erase_add_one hmem]

/-- The free frames depend on the counters only. -/
theorem Memory.freeFrames_congr {m m' : Memory} (h : m'.memMap = m.memMap) :
    m'.freeFrames = m.freeFrames := by
  rw [freeFrames, freeFrames, h]

theorem Memory.freeFrames_store (m : Memory) (a : ℕ) (v : Word) :
    (m.store a v).freeFrames = m.freeFrames :=
  freeFrames_congr (m.store_memMap a v)

/-- A counter that is in use may change. -/
theorem Memory.freeFrames_le_setMap {m : Memory} {nr : ℕ} (h : m.memMap nr ≠ 0) (c : ℕ) :
    m.freeFrames ≤ (m.setMap nr c).freeFrames := by
  refine Finset.card_le_card fun k hk => ?_
  obtain ⟨hlt, hfree⟩ := Finset.mem_filter.mp hk
  have hne : k ≠ nr := fun heq => h (heq ▸ hfree)
  refine Finset.mem_filter.mpr ⟨hlt, ?_⟩
  rw [setMap_memMap, if_neg hne, hfree]

/-- `un_wp_page` takes one frame at most. -/
theorem Memory.freeFrames_unWpPage {m m' : Memory} {entry : ℕ}
    (hcount : lowMem ≤ pageOf (m.word entry) → m.memMap (mapNr (pageOf (m.word entry))) ≠ 0)
    (hok : m.unWpPage entry = .ok m') : m.freeFrames ≤ m'.freeFrames + 1 := by
  rw [unWpPage] at hok
  by_cases hone : lowMem ≤ pageOf (m.word entry) ∧ m.memMap (mapNr (pageOf (m.word entry))) = 1
  · rw [if_pos hone] at hok
    obtain rfl := Except.ok.inj hok
    rw [freeFrames_store]
    omega
  · rw [if_neg hone] at hok
    cases hg : m.getFreePage with
    | none =>
      rw [hg] at hok
      cases hok
    | some r =>
      obtain ⟨page, m₁⟩ := r
      rw [hg] at hok
      have hless := freeFrames_getFreePage hg
      obtain ⟨p, -, -, -, hfree, hmap, -⟩ := getFreePage_eq_some hg
      by_cases hlow : lowMem ≤ pageOf (m.word entry)
      · -- The frame of the page is in use, so that it is not the one that has been free.
        have hne : mapNr (pageOf (m.word entry)) ≠ p - 512 := fun heq => hcount hlow (heq ▸ hfree)
        have hused : m₁.memMap (mapNr (pageOf (m.word entry))) ≠ 0 := by
          rw [hmap, Function.update_of_ne hne]
          exact hcount hlow
        have hle := freeFrames_le_setMap hused
          ((m₁.memMap (mapNr (pageOf (m.word entry))) + 65535) % 65536)
        simp only [if_pos hlow] at hok
        have hsame : m'.memMap = (m₁.setMap (mapNr (pageOf (m.word entry)))
            ((m₁.memMap (mapNr (pageOf (m.word entry))) + 65535) % 65536)).memMap :=
          (congrArg Memory.memMap (Except.ok.inj hok)).symm
        rw [freeFrames_congr hsame]
        omega
      · simp only [if_neg hlow] at hok
        have hsame : m'.memMap = m₁.memMap := (congrArg Memory.memMap (Except.ok.inj hok)).symm
        rw [freeFrames_congr hsame]
        omega

theorem Memory.freeFrames_boot (other : ℕ → Word) : (Memory.boot other).freeFrames = 1536 := by
  have hall : (Finset.range pagingPages).filter (fun k => (Memory.boot other).memMap k = 0) =
      Finset.range pagingPages := Finset.filter_true_of_mem fun _ _ => rfl
  rw [Memory.freeFrames, hall, Finset.card_range]
  rfl

end Linux001.Mm
