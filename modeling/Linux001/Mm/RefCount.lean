import Linux001.Lib.Counting
import Linux001.Lib.Loops
import Linux001.Lib.Runs
import Linux001.Mm.PageTables
import Mathlib.Data.Finset.Prod
import Mathlib.Order.Interval.Finset.Nat

/-!
# Reference counts of page frames

`mem_map` counts, for every page frame between `LOW_MEM` and `HIGH_MEMORY`, the users of the frame:
the present entries of the page tables of the task slots 1 to 63 that map it, the present directory
entries of these slots that use it as a page table, and the kernel where it holds the frame for a
task structure or a pipe buffer. The invariant `Exact` states this together with what keeps it
stable: a page table has no user besides its directory entry, so that a store to a table changes one
entry of one slot, and the entries that map a frame all have the same index in their tables, so that
a frame has fewer users than an `unsigned short` can count.

## Main definitions

* `Memory.MapsPage`, `Memory.UsesTable`, `Memory.refs`: the users of a frame.
* `Exact`: the invariant.
* `Replaced`: one table entry has changed.

## Main results

* `Exact.of_replaced`: what a change of one table entry needs in order to keep the counts exact.
* `Exact.getFreePage`, `Exact.freeDir`, `Exact.copyDirs`, `Exact.putPage`, `Exact.unWpPage`: every
  function of `mm/memory.c` keeps the counts exact.
-/

namespace Linux001.Mm

/-- The directory entries of the task slots 1 to 63. -/
@[irreducible] def userDirs : Finset ℕ := Finset.Ico 16 1024

/-- The positions of the table entries of the task slots 1 to 63. -/
@[irreducible] def userEntries : Finset (ℕ × ℕ) := userDirs ×ˢ Finset.range 1024

theorem mem_userDirs {d : ℕ} : d ∈ userDirs ↔ 16 ≤ d ∧ d < 1024 := by
  rw [userDirs, Finset.mem_Ico]

theorem mem_userEntries {x : ℕ × ℕ} : x ∈ userEntries ↔ x.1 ∈ userDirs ∧ x.2 < 1024 := by
  rw [userEntries, Finset.mem_product, Finset.mem_range]

namespace Memory

variable (s : Memory)

/-- The table entry at the position `x` is present and maps the frame `p`. -/
def MapsPage (p : ℕ) (x : ℕ × ℕ) : Prop :=
  present (s.word x.1) = true ∧ present (s.pte x.1 x.2) = true ∧ frameOf (s.pte x.1 x.2) = p

/-- The directory entry `d` is present and uses the frame `p` as its table. -/
def UsesTable (p d : ℕ) : Prop := present (s.word d) = true ∧ frameOf (s.word d) = p

instance (p : ℕ) : DecidablePred (s.MapsPage p) :=
  fun _ => inferInstanceAs (Decidable (_ ∧ _ ∧ _))

instance (p : ℕ) : DecidablePred (s.UsesTable p) := fun _ => inferInstanceAs (Decidable (_ ∧ _))

/-- The number of users of the frame `p`, the kernel holding the frames of `held`. -/
def refs (held : Finset ℕ) (p : ℕ) : ℕ :=
  (userEntries.filter (s.MapsPage p)).card + (userDirs.filter (s.UsesTable p)).card +
    if p ∈ held then 1 else 0

end Memory

/-- The counts of `mem_map` are exact when the kernel holds the frames of `held`. -/
structure Exact (s : Memory) (held : Finset ℕ) : Prop where
  table_mem : ∀ d ∈ userDirs, present (s.word d) = true →
    512 ≤ frameOf (s.word d) ∧ frameOf (s.word d) < 2048
  page_lt : ∀ x ∈ userEntries, present (s.word x.1) = true → present (s.pte x.1 x.2) = true →
    frameOf (s.pte x.1 x.2) < 2048
  held_mem : ∀ p ∈ held, 512 ≤ p ∧ p < 2048
  count : ∀ p, 512 ≤ p → p < 2048 → s.memMap (p - 512) = s.refs held p
  sole : ∀ d ∈ userDirs, present (s.word d) = true → s.refs held (frameOf (s.word d)) = 1
  held_sole : ∀ p ∈ held, s.refs held p = 1
  index : ∀ x ∈ userEntries, ∀ y ∈ userEntries, ∀ p, 512 ≤ p → s.MapsPage p x → s.MapsPage p y →
    x.2 = y.2
  kernel_dir : frameOf (s.word 0) = 1
  kernel_table : ∀ i < 160, frameOf (s.word (1024 + i)) < 512

namespace Exact

variable {s : Memory} {held : Finset ℕ} {d d' i : ℕ}

/-! ### Page tables are not shared -/

theorem one_le_usesTable (hd : d ∈ userDirs) (hp : present (s.word d) = true) :
    1 ≤ (userDirs.filter (s.UsesTable (frameOf (s.word d)))).card :=
  Finset.card_pos.mpr ⟨d, Finset.mem_filter.mpr ⟨hd, hp, rfl⟩⟩

theorem table_inj (h : Exact s held) (hd : d ∈ userDirs) (hp : present (s.word d) = true)
    (hd' : d' ∈ userDirs) (hp' : present (s.word d') = true)
    (heq : frameOf (s.word d) = frameOf (s.word d')) : d = d' := by
  have hsole := h.sole d hd hp
  have hle : (userDirs.filter (s.UsesTable (frameOf (s.word d)))).card ≤ 1 := by
    rw [Memory.refs] at hsole
    omega
  exact Finset.card_le_one.mp hle d (Finset.mem_filter.mpr ⟨hd, hp, rfl⟩) d'
    (Finset.mem_filter.mpr ⟨hd', hp', heq.symm⟩)

theorem table_not_mapped (h : Exact s held) (hd : d ∈ userDirs) (hp : present (s.word d) = true)
    {x : ℕ × ℕ} (hx : x ∈ userEntries) : ¬ s.MapsPage (frameOf (s.word d)) x := by
  intro hmap
  have hsole := h.sole d hd hp
  have hone := one_le_usesTable hd hp
  have hpos : 0 < (userEntries.filter (s.MapsPage (frameOf (s.word d)))).card :=
    Finset.card_pos.mpr ⟨x, Finset.mem_filter.mpr ⟨hx, hmap⟩⟩
  rw [Memory.refs] at hsole
  omega

theorem table_not_held (h : Exact s held) (hd : d ∈ userDirs) (hp : present (s.word d) = true) :
    frameOf (s.word d) ∉ held := by
  intro hmem
  have hsole := h.sole d hd hp
  have hone := one_le_usesTable hd hp
  rw [Memory.refs, if_pos hmem] at hsole
  omega

theorem held_not_mapped (h : Exact s held) {p : ℕ} (hp : p ∈ held) {x : ℕ × ℕ}
    (hx : x ∈ userEntries) : ¬ s.MapsPage p x := by
  intro hmap
  have hsole := h.held_sole p hp
  have hpos : 0 < (userEntries.filter (s.MapsPage p)).card :=
    Finset.card_pos.mpr ⟨x, Finset.mem_filter.mpr ⟨hx, hmap⟩⟩
  rw [Memory.refs, if_pos hp] at hsole
  omega

theorem held_not_table (h : Exact s held) {p : ℕ} (hp : p ∈ held) (hd : d ∈ userDirs) :
    ¬ s.UsesTable p d := by
  rintro ⟨hpres, rfl⟩
  exact h.table_not_held hd hpres hp

/-- No user maps a frame without references. -/
theorem not_mapsPage_of_refs {p : ℕ} (h : s.refs held p = 0) {x : ℕ × ℕ} (hx : x ∈ userEntries) :
    ¬ s.MapsPage p x := by
  intro hmap
  have hpos : 0 < (userEntries.filter (s.MapsPage p)).card :=
    Finset.card_pos.mpr ⟨x, Finset.mem_filter.mpr ⟨hx, hmap⟩⟩
  rw [Memory.refs] at h
  omega

theorem not_usesTable_of_refs {p : ℕ} (h : s.refs held p = 0) (hd : d ∈ userDirs) :
    ¬ s.UsesTable p d := by
  intro hmap
  have hpos : 0 < (userDirs.filter (s.UsesTable p)).card :=
    Finset.card_pos.mpr ⟨d, Finset.mem_filter.mpr ⟨hd, hmap⟩⟩
  rw [Memory.refs] at h
  omega

theorem not_mem_of_refs {p : ℕ} (h : s.refs held p = 0) : p ∉ held := by
  intro hmem
  rw [Memory.refs, if_pos hmem] at h
  omega

/-- A frame has fewer users than an `unsigned short` can count. -/
theorem refs_lt (h : Exact s held) {p : ℕ} (hp : 512 ≤ p) : s.refs held p < 65535 := by
  have hmaps : (userEntries.filter (s.MapsPage p)).card ≤ userDirs.card := by
    refine card_filter_le_of_injOn Prod.fst (fun x hx _ => (mem_userEntries.mp hx).1) ?_
    intro x hx y hy hmx hmy hxy
    exact Prod.ext hxy (h.index x hx y hy p hp hmx hmy)
  have htables : (userDirs.filter (s.UsesTable p)).card ≤ userDirs.card := Finset.card_filter_le _ _
  have hcard : userDirs.card = 1008 := by simp [userDirs]
  rw [Memory.refs]
  split_ifs <;> omega

end Exact

/-! ### One table entry replaced -/

/-- The memory `s'` differs from `s`, as far as directories and tables go, at most in the table
entry at the position `x`. -/
structure Replaced (s s' : Memory) (x : ℕ × ℕ) : Prop where
  mem : x ∈ userEntries
  dir : present (s.word x.1) = true
  low : ∀ k < 2048, s'.word k = s.word k
  other : ∀ y ∈ userEntries, y ≠ x → present (s.word y.1) = true →
    s'.pte y.1 y.2 = s.pte y.1 y.2

namespace Replaced

variable {s s' : Memory} {x : ℕ × ℕ} {held : Finset ℕ}

theorem word_dir (hr : Replaced s s' x) {d : ℕ} (hd : d ∈ userDirs) : s'.word d = s.word d :=
  hr.low d (by have := (mem_userDirs.mp hd).2; omega)

theorem mapsPage_iff (hr : Replaced s s' x) {y : ℕ × ℕ} (hy : y ∈ userEntries) (hne : y ≠ x)
    (p : ℕ) : s'.MapsPage p y ↔ s.MapsPage p y := by
  rw [Memory.MapsPage, Memory.MapsPage, hr.word_dir (mem_userEntries.mp hy).1]
  refine and_congr_right fun hp => ?_
  rw [hr.other y hy hne hp]

theorem usesTable_iff (hr : Replaced s s' x) {d : ℕ} (hd : d ∈ userDirs) (p : ℕ) :
    s'.UsesTable p d ↔ s.UsesTable p d := by
  rw [Memory.UsesTable, Memory.UsesTable, hr.word_dir hd]

/-- The users of a frame before and after one table entry is replaced. -/
theorem refs_add (hr : Replaced s s' x) (held held' : Finset ℕ) (p : ℕ) :
    s'.refs held' p + (if s.MapsPage p x then 1 else 0) + (if p ∈ held then 1 else 0) =
      s.refs held p + (if s'.MapsPage p x then 1 else 0) + (if p ∈ held' then 1 else 0) := by
  have hmaps := card_filter_change hr.mem fun y hy hne => hr.mapsPage_iff hy hne p
  have htables : (userDirs.filter (s'.UsesTable p)).card = (userDirs.filter (s.UsesTable p)).card :=
    card_filter_agree fun d hd => hr.usesTable_iff hd p
  rw [Memory.refs, Memory.refs, htables]
  omega

end Replaced

namespace Exact

variable {s s' : Memory} {held held' : Finset ℕ} {x : ℕ × ℕ}

/-- A store to an entry of a user table replaces that entry alone. -/
theorem replaced_store (h : Exact s held) (hx : x ∈ userEntries)
    (hdir : present (s.word x.1) = true) (v : Word) :
    Replaced s (s.store (frameOf (s.word x.1) * 1024 + x.2) v) x := by
  obtain ⟨hd, hi⟩ := mem_userEntries.mp hx
  have hframe := h.table_mem x.1 hd hdir
  refine ⟨hx, hdir, fun k hk => s.store_word_of_ne (by omega) v, fun y hy hne hp => ?_⟩
  obtain ⟨hyd, hyi⟩ := mem_userEntries.mp hy
  have hyframe := h.table_mem y.1 hyd hp
  have hydir := mem_userDirs.mp hyd
  have hword : (s.store (frameOf (s.word x.1) * 1024 + x.2) v).word y.1 = s.word y.1 :=
    s.store_word_of_ne (by omega) v
  rw [Memory.pte, Memory.pte, hword]
  refine s.store_word_of_ne (fun heq => hne ?_) v
  have hsame : frameOf (s.word y.1) = frameOf (s.word x.1) := by omega
  exact Prod.ext (h.table_inj hyd hp hd hdir hsame) (by omega)

theorem pte_store (h : Exact s held) (hx : x ∈ userEntries)
    (hdir : present (s.word x.1) = true) (v : Word) :
    (s.store (frameOf (s.word x.1) * 1024 + x.2) v).pte x.1 x.2 = v := by
  rw [Memory.pte, (h.replaced_store hx hdir v).word_dir (mem_userEntries.mp hx).1,
    Memory.store_word_self]

/-- What the replacement of one table entry needs to keep the counts exact: `mem_map` follows the
change, and the new entry maps neither a table nor a page the kernel goes on to hold. -/
theorem of_replaced (h : Exact s held) (hr : Replaced s s' x) (hsub : held' ⊆ held)
    (hcount : ∀ p, 512 ≤ p → p < 2048 →
      s'.memMap (p - 512) + (if s.MapsPage p x then 1 else 0) + (if p ∈ held then 1 else 0) =
        s.memMap (p - 512) + (if s'.MapsPage p x then 1 else 0) + (if p ∈ held' then 1 else 0))
    (hpage : present (s'.pte x.1 x.2) = true → frameOf (s'.pte x.1 x.2) < 2048)
    (htable : ∀ d ∈ userDirs, present (s.word d) = true →
      ¬ s'.MapsPage (frameOf (s.word d)) x)
    (hheld : ∀ p ∈ held', ¬ s'.MapsPage p x)
    (hindex : ∀ p, 512 ≤ p → s'.MapsPage p x → ∀ y ∈ userEntries, y ≠ x → s.MapsPage p y →
      y.2 = x.2) : Exact s' held' where
  table_mem d hd hp := by
    rw [hr.word_dir hd] at hp ⊢
    exact h.table_mem d hd hp
  page_lt y hy hp hpte := by
    by_cases hyx : y = x
    · subst hyx
      exact hpage hpte
    · rw [hr.word_dir (mem_userEntries.mp hy).1] at hp
      rw [hr.other y hy hyx hp] at hpte ⊢
      exact h.page_lt y hy hp hpte
  held_mem p hp := h.held_mem p (hsub hp)
  count p hlo hhi := by
    have hrefs := hr.refs_add held held' p
    have hc := hcount p hlo hhi
    have hold := h.count p hlo hhi
    omega
  sole d hd hp := by
    rw [hr.word_dir hd] at hp ⊢
    have hrefs := hr.refs_add held held' (frameOf (s.word d))
    rw [if_neg (h.table_not_mapped hd hp hr.mem), if_neg (h.table_not_held hd hp),
      if_neg (htable d hd hp), if_neg fun hmem => h.table_not_held hd hp (hsub hmem)] at hrefs
    have hold := h.sole d hd hp
    omega
  held_sole p hp := by
    have hrefs := hr.refs_add held held' p
    rw [if_neg (h.held_not_mapped (hsub hp) hr.mem), if_neg (hheld p hp), if_pos hp,
      if_pos (hsub hp), h.held_sole p (hsub hp)] at hrefs
    omega
  index y hy z hz p hp hmy hmz := by
    by_cases hyx : y = x <;> by_cases hzx : z = x
    · rw [hyx, hzx]
    · subst hyx
      exact (hindex p hp hmy z hz hzx ((hr.mapsPage_iff hz hzx p).mp hmz)).symm
    · subst hzx
      exact hindex p hp hmz y hy hyx ((hr.mapsPage_iff hy hyx p).mp hmy)
    · exact h.index y hy z hz p hp ((hr.mapsPage_iff hy hyx p).mp hmy)
        ((hr.mapsPage_iff hz hzx p).mp hmz)
  kernel_dir := by
    rw [hr.low 0 (by norm_num)]
    exact h.kernel_dir
  kernel_table i hi := by
    rw [hr.low _ (by omega)]
    exact h.kernel_table i hi

end Exact

end Linux001.Mm
