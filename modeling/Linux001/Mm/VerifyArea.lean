import Linux001.Mm.FreeFrames
import Linux001.Mm.Slots

/-!
# The pages that `verify_area` makes writable

Before the kernel stores to the memory of a process, `verify_area` gives the process copies of the
pages of the range that it shares with others. It goes from page to page while the size, to which it
has added the offset of the range in its first page, is positive; both are of type `int`.

## Main definitions

* `Memory.readOnly`: a page is present and write-protected.
* `Unshared s s' a`: the page of the address `a` is not write-protected any more.
* `Verified`: `verify_area` has made its range writable.

## Main results

* `Exact.writeVerify_unshared`, `Exact.verifyPages_unshared`: a turn of the loop, and the loop.
* `System.verified_iff`: `verify_area` covers its range if and only if the size does not overflow or
  nothing in the range is write-protected.
-/

namespace Linux001.Mm

/-! ### Write-protected pages -/

theorem three_and_eq_one (e : Word) : 3 &&& e = 1 ↔ present e = true ∧ writable e = false := by
  have hmod : (3 &&& e).toNat = e.toNat % 4 := by
    rw [BitVec.toNat_and, Nat.and_comm, show (3 : Word).toNat = 2 ^ 2 - 1 from rfl,
      Nat.and_two_pow_sub_one_eq_mod]
  have hbit : writable e = false ↔ e.toNat / 2 % 2 = 0 := by
    rw [writable, BitVec.getLsbD, Nat.testBit_eq_decide_div_mod_eq, decide_eq_false_iff_not]
    omega
  rw [← BitVec.toNat_inj, hmod, present_iff, hbit, show (1 : Word).toNat = 1 from rfl]
  omega

/-- The page of a linear address is present and write-protected. -/
def Memory.readOnly (m : Memory) (a : Word) : Bool :=
  m.mapped (dirOf a) (indexOf a) && !writable (m.pte (dirOf a) (indexOf a))

/-- The pages of the kernel are not write-protected. -/
theorem KernelMap.sixteen_le_of_readOnly {m : Memory} (h : KernelMap m) {a : Word}
    (ha : m.readOnly a = true) : 16 ≤ dirOf a := by
  rw [Memory.readOnly, Bool.and_eq_true, Memory.mapped_iff, Bool.not_eq_true'] at ha
  obtain ⟨⟨hdir, -⟩, hw⟩ := ha
  by_contra hlt
  have hframe : 1 ≤ frameOf (m.word (dirOf a)) ∧ frameOf (m.word (dirOf a)) ≤ 2 := by
    by_cases h₀ : dirOf a = 0
    · rw [h₀, h.dir_zero]
      decide
    by_cases h₁ : dirOf a = 1
    · rw [h₁, h.dir_one]
      decide
    · rw [h.dir_absent (by omega) (by omega)] at hdir
      exact absurd hdir Bool.false_ne_true
  have hidx := indexOf_lt a
  rw [writable, Memory.pte, BitVec.getLsbD, h.entry (by omega) (by omega),
    Nat.testBit_eq_decide_div_mod_eq, decide_eq_false_iff_not] at hw
  omega

/-- Nothing is write-protected that has not been, no page of a process and no word of the kernel has
changed, and at most `frames` frames have been taken. -/
structure Unshared (frames : ℕ) (s s' : Memory) : Prop where
  readOnly : ∀ a, s'.readOnly a = true → s.readOnly a = true
  shows : ∀ x ∈ userEntries, ∀ k < 1024, ∀ w, s.Shows x k w → s'.Shows x k w
  low : ∀ a < 512 * 1024, s'.word a = s.word a
  free : s.freeFrames ≤ s'.freeFrames + frames

section

variable {s s' s'' : Memory} {held : Finset ℕ} {x : ℕ × ℕ}

namespace Unshared

theorem refl (s : Memory) : Unshared 0 s s :=
  ⟨fun _ h => h, fun _ _ _ _ _ h => h, fun _ _ => rfl, (Nat.add_zero _).ge⟩

theorem trans {m n : ℕ} (h : Unshared m s s') (h' : Unshared n s' s'') :
    Unshared (m + n) s s'' := by
  refine ⟨fun a ha => h.readOnly a (h'.readOnly a ha),
    fun y hy k hk w hw => h'.shows y hy k hk w (h.shows y hy k hk w hw),
    fun a ha => (h'.low a ha).trans (h.low a ha), ?_⟩
  rw [Nat.add_comm m, ← Nat.add_assoc]
  exact h.free.trans (Nat.add_le_add_right h'.free m)

theorem kernelMap {m : ℕ} (h : Unshared m s s') (hk : KernelMap s) : KernelMap s' :=
  fun a ha hor => (h.low a (by omega)).trans (hk a ha hor)

end Unshared

/-- The entry `x` has changed, to a writable one that shows the same page, in the memory of tables
and pages and in frames without users. -/
private theorem unshared_of_word (h : Exact s held) (hk : KernelMap s) (hx : x ∈ userEntries)
    (hdir : present (s.word x.1) = true)
    (hword : ∀ a, a ≠ frameOf (s.word x.1) * 1024 + x.2 →
      (a / 1024 < 512 ∨ s.refs held (a / 1024) ≠ 0) → s'.word a = s.word a)
    (hwrite : writable (s'.pte x.1 x.2) = true)
    (hshows : ∀ k < 1024, ∀ w, s.Shows x k w → s'.Shows x k w)
    (hfree : s.freeFrames ≤ s'.freeFrames + 1) : Unshared 1 s s' := by
  obtain ⟨hxd, hxi⟩ := mem_userEntries.mp hx
  have htab := h.table_mem x.1 hxd hdir
  have hlow : ∀ a < 512 * 1024, s'.word a = s.word a := fun a ha =>
    hword a (by omega) (.inl (by omega))
  have hdirs : ∀ d < 1024, s'.word d = s.word d := fun d hd => hlow d (by omega)
  -- The other entries of present tables.
  have hpte : ∀ y ∈ userEntries, y ≠ x → present (s.word y.1) = true →
      s'.pte y.1 y.2 = s.pte y.1 y.2 := fun y hy hne hp => by
    obtain ⟨hyd, hyi⟩ := mem_userEntries.mp hy
    rw [Memory.pte, Memory.pte, hdirs _ (mem_userDirs.mp hyd).2]
    refine hword _ (fun hc => hne ?_) (.inr fun hc => ?_)
    · have hsame : frameOf (s.word y.1) = frameOf (s.word x.1) := by omega
      exact Prod.ext (h.table_inj hyd hp hxd hdir hsame) (by omega)
    · rw [entry_div hyi] at hc
      exact Exact.not_usesTable_of_refs hc hyd ⟨hp, rfl⟩
  have hmapped : ∀ y ∈ userEntries, y ≠ x → s'.mapped y.1 y.2 = s.mapped y.1 y.2 :=
    fun y hy hne => by
      rw [Memory.mapped, Memory.mapped, hdirs _ (mem_userDirs.mp (mem_userEntries.mp hy).1).2]
      cases hp : present (s.word y.1) with
      | false => rw [Bool.false_and, Bool.false_and]
      | true => rw [hpte y hy hne hp]
  refine ⟨fun a ha => ?_, fun y hy k hk w hs => ?_, hlow, hfree⟩
  · have halt : dirOf a < 1024 := by
      have := a.isLt
      rw [dirOf_eq]
      omega
    have hk' : KernelMap s' := fun b hb hor => (hlow b (by omega)).trans (hk b hb hor)
    have hmem : (dirOf a, indexOf a) ∈ userEntries := mem_userEntries.mpr
      ⟨mem_userDirs.mpr ⟨hk'.sixteen_le_of_readOnly ha, halt⟩, indexOf_lt a⟩
    rw [Memory.readOnly, Bool.and_eq_true] at ha ⊢
    have hne : (dirOf a, indexOf a) ≠ x := by
      rintro rfl
      exact absurd ha.2 (by rw [hwrite]; decide)
    have hm := ha.1
    rw [hmapped _ hmem hne] at hm
    rw [hpte _ hmem hne ((Memory.mapped_iff s).mp hm).1] at ha
    exact ⟨hm, ha.2⟩
  · by_cases hne : y = x
    · subst hne
      exact hshows k hk w hs
    · rcases hs with ⟨hm, hzero, hw⟩ | ⟨hm, hw⟩
      · have hp := ((Memory.mapped_iff s).mp hm).1
        have hmaps := (Memory.mapsPage_iff_mapped s).mpr ⟨hm, rfl⟩
        refine .inl ⟨(hmapped y hy hne).trans hm, ?_, ?_⟩
        · rwa [hpte y hy hne hp]
        · rw [hpte y hy hne hp]
          refine (hword _ (fun hc => ?_) ?_).trans hw
          · refine h.table_not_mapped hxd hdir hy ?_
            rwa [show frameOf (s.word x.1) = frameOf (s.pte y.1 y.2) by omega]
          · rw [entry_div hk]
            exact .inr fun hc => Exact.not_mapsPage_of_refs hc hy hmaps
      · exact .inr ⟨(hmapped y hy hne).trans hm, hw⟩

namespace Exact

/-- `un_wp_page` of a page of a user makes it writable. -/
theorem unWpPage_unshared (h : Exact s held) (hk : KernelMap s) (hx : x ∈ userEntries)
    (hdir : present (s.word x.1) = true) (hpres : present (s.pte x.1 x.2) = true)
    (hfree : 1 ≤ s.freeFrames) :
    ∃ s', Memory.unWpPage (frameOf (s.word x.1) * 1024 + x.2) s = .ok s' ∧ Exact s' held ∧
      Unshared 1 s s' ∧ writable (s'.pte x.1 x.2) = true := by
  obtain ⟨hxd, hxi⟩ := mem_userEntries.mp hx
  have hxlt := mem_userDirs.mp hxd
  have htab := h.table_mem x.1 hxd hdir
  have hmaps : s.MapsPage (frameOf (s.pte x.1 x.2)) x := ⟨hdir, hpres, rfl⟩
  have hm := (Memory.mapped_iff s).mpr ⟨hdir, hpres⟩
  rcases h.unWpPage hx hdir hpres with ⟨-, hnone⟩ | ⟨s', hok, hex, hcase⟩
  · have := Memory.getFreePage_eq_none_iff.mp hnone
    omega
  have htaken : s.freeFrames ≤ s'.freeFrames + 1 := by
    refine Memory.freeFrames_unWpPage (fun hlow => ?_) hok
    have hlo := (lowMem_le_pageOf_iff _).mp hlow
    rw [mapNr_pageOf]
    have hone := h.one_le_memMap hx hdir hpres hlo
    exact Nat.one_le_iff_ne_zero.mp hone
  refine ⟨s', hok, hex, ?_⟩
  rcases hcase with ⟨-, -, hw⟩ | ⟨q, hlo, hhi, hrefs, hw⟩
  · have hwx : s'.word x.1 = s.word x.1 := by
      rw [hw, Memory.store_word_of_ne _ (by omega)]
    have hpte : s'.pte x.1 x.2 = s.pte x.1 x.2 ||| 2 := by
      rw [Memory.pte, hwx, hw, Memory.store_word_self]
    have hwrite : writable (s'.pte x.1 x.2) = true := by rw [hpte, writable_set]
    refine ⟨unshared_of_word h hk hx hdir (fun a ha _ => ?_) hwrite (fun k hk w hs => ?_) htaken,
      hwrite⟩
    · rw [hw, Memory.store_word_of_ne _ ha]
    · rcases hs with ⟨-, hzero, hs⟩ | ⟨hno, -⟩
      · refine .inl ⟨(Memory.mapped_iff s').mpr
          ⟨hwx ▸ hdir, by rw [hpte, present_set]; exact hpres⟩,
          by rw [hpte, frameOf_set]; exact hzero, ?_⟩
        rw [hpte, frameOf_set, hw, Memory.store_word_of_ne _ fun hc => ?_]
        · exact hs
        · refine h.table_not_mapped hxd hdir hx ?_
          rwa [show frameOf (s.word x.1) = frameOf (s.pte x.1 x.2) by omega]
      · exact absurd (hm.symm.trans hno) (by decide)
  · have hwx : s'.word x.1 = s.word x.1 := by
      rw [hw, if_neg (by omega), if_neg (by omega)]
    have hpte : s'.pte x.1 x.2 = entryFor q := by
      rw [Memory.pte, hwx, hw, if_pos rfl]
    have hwrite : writable (s'.pte x.1 x.2) = true := by rw [hpte, writable_entryFor]
    refine ⟨unshared_of_word h hk hx hdir (fun a ha hused => ?_) hwrite
      (fun k hk w hs => ?_) htaken,
      hwrite⟩
    · rw [hw, if_neg ha, if_neg]
      rintro rfl
      omega
    · rcases hs with ⟨-, -, hs⟩ | ⟨hno, -⟩
      · refine .inl ⟨(Memory.mapped_iff s').mpr ⟨hwx ▸ hdir, by rw [hpte, present_entryFor]⟩,
          by rw [hpte, frameOf_entryFor (by omega)]; omega, ?_⟩
        rw [hpte, frameOf_entryFor (by omega), hw, if_neg fun hc => ?_, if_pos (entry_div hk q),
          entry_mod hk]
        · exact hs
        · exact not_usesTable_of_refs hrefs hxd ⟨hdir, by omega⟩
      · exact absurd (hm.symm.trans hno) (by decide)

/-- A turn of the loop of `verify_area`. -/
theorem writeVerify_unshared (h : Exact s held) (hk : KernelMap s) (a : Word)
    (hfree : (if s.readOnly a then 1 else 0) ≤ s.freeFrames) :
    ∃ s', s.writeVerify a = .ok s' ∧ Exact s' held ∧
      Unshared (if s.readOnly a then 1 else 0) s s' ∧ s'.readOnly a = false := by
  have hentry : s.word (s.entryOf a) = s.pte (dirOf a) (indexOf a) := by
    rw [Memory.entryOf_eq, Memory.pte]
  cases hro : s.readOnly a with
  | true =>
    rw [hro, if_pos rfl] at hfree
    have hd := hk.sixteen_le_of_readOnly hro
    have halt : dirOf a < 1024 := by
      have := a.isLt
      rw [dirOf_eq]
      omega
    rw [Memory.readOnly, Bool.and_eq_true, Memory.mapped_iff, Bool.not_eq_true'] at hro
    obtain ⟨⟨hdir, hpres⟩, hw⟩ := hro
    obtain ⟨s', hok, hex, hun, hwrite⟩ := h.unWpPage_unshared hk (x := (dirOf a, indexOf a))
      (mem_userEntries.mpr ⟨mem_userDirs.mpr ⟨hd, halt⟩, indexOf_lt a⟩) hdir hpres hfree
    refine ⟨s', ?_, hex, hun, ?_⟩
    · rw [Memory.writeVerify, if_pos hdir, hentry,
        if_pos ((three_and_eq_one _).mpr ⟨hpres, hw⟩), Memory.entryOf_eq]
      exact hok
    · rw [Memory.readOnly, hwrite, Bool.not_true, Bool.and_false]
  | false =>
    refine ⟨s, ?_, h, .refl s, hro⟩
    rw [Memory.writeVerify, hentry]
    split_ifs with hdir hprot
    · obtain ⟨hpres, hw⟩ := (three_and_eq_one _).mp hprot
      have hm := (Memory.mapped_iff s).mpr ⟨hdir, hpres⟩
      rw [Memory.readOnly, hm, hw] at hro
      exact absurd hro (by decide)
    · rfl
    · rfl

/-- The loop of `verify_area`, when there is a frame for each write-protected page. -/
theorem verifyPages_unshared : ∀ (count : ℕ) (start : Word) {s : Memory}, Exact s held →
    KernelMap s → ((List.range count).countP fun k =>
      s.readOnly (start + BitVec.ofNat 32 (4096 * k))) ≤ s.freeFrames →
    ∃ s' n, System.verifyPages count start s = .ok s' ∧ Exact s' held ∧ Unshared n s s' ∧
      ∀ k < count, s'.readOnly (start + BitVec.ofNat 32 (4096 * k)) = false
  | 0, _, s, h, _, _ => ⟨s, 0, rfl, h, .refl s, fun _ hk => absurd hk (Nat.not_lt_zero _)⟩
  | count + 1, start, s, h, hk, hfree => by
    have hnext (k : ℕ) : start + 4096 + BitVec.ofNat 32 (4096 * k) =
        start + BitVec.ofNat 32 (4096 * (k + 1)) := by
      rw [Nat.mul_succ, Nat.add_comm, BitVec.ofNat_add, BitVec.add_assoc]
      rfl
    have hzero : start + BitVec.ofNat 32 (4096 * 0) = start := BitVec.add_zero start
    rw [List.range_succ_eq_map, List.countP_cons, List.countP_map, hzero] at hfree
    obtain ⟨s₁, hok, hex, hun, hfalse⟩ := h.writeVerify_unshared hk start (by omega)
    have hle : ((List.range count).countP fun k =>
        s₁.readOnly (start + 4096 + BitVec.ofNat 32 (4096 * k))) ≤ (List.range count).countP
          ((fun k => s.readOnly (start + BitVec.ofNat 32 (4096 * k))) ∘ Nat.succ) :=
      List.countP_mono_left fun k _ hro => by
        rw [hnext] at hro
        exact hun.readOnly _ hro
    have hleft := hun.free
    obtain ⟨s', n, hok', hex', hun', hfalse'⟩ :=
      verifyPages_unshared count (start + 4096) hex (hun.kernelMap hk) (by omega)
    refine ⟨s', _, ?_, hex', hun.trans hun', fun k hlt => ?_⟩
    · rw [System.verifyPages, hok]
      exact hok'
    · cases k with
      | zero =>
        rw [hzero, ← Bool.not_eq_true]
        intro hro
        exact absurd ((hun'.readOnly _ hro).symm.trans hfalse) (by decide)
      | succ k =>
        rw [← hnext]
        exact hfalse' k (by omega)

end Exact

end

/-! ### The range -/

/-- The page of an address determines whether it is write-protected. -/
theorem Memory.readOnly_congr (m : Memory) {a b : Word} (h : a.toNat / 4096 = b.toNat / 4096) :
    m.readOnly a = m.readOnly b := by
  have hdir : dirOf a = dirOf b := by
    rw [dirOf_eq, dirOf_eq]
    omega
  have hidx : indexOf a = indexOf b := by
    rw [indexOf, indexOf, h]
  rw [Memory.readOnly, Memory.readOnly, hdir, hidx]

namespace System

/-- The number of pages of `size` bytes at `addr`, from the page of `addr` on. -/
def pageCount (addr : Word) (size : ℕ) : ℕ := (addr.toNat % 4096 + size + 4095) / 4096

/-- The first page that `verify_area` looks at. -/
def verifyStart (base addr : Word) : Word := (addr &&& 0xfffff000) + base

theorem toNat_offset (addr : Word) : (addr &&& 0xfff).toNat = addr.toNat % 4096 := by
  rw [BitVec.toNat_and, show (0xfff : Word).toNat = 2 ^ 12 - 1 from rfl,
    Nat.and_two_pow_sub_one_eq_mod]

/-- The loop of `verify_area` runs through the pages of the range, or not at all. -/
theorem verifyTurns_eq (addr : Word) {size : ℕ} (hsize : size < 2 ^ 31) :
    verifyTurns addr size =
      if addr.toNat % 4096 + size < 2 ^ 31 then pageCount addr size else 0 := by
  have hsum : (BitVec.ofNat 32 size + (addr &&& 0xfff)).toNat = size + addr.toNat % 4096 := by
    rw [BitVec.toNat_add, toNat_offset, BitVec.toNat_ofNat,
      Nat.mod_eq_of_lt (by omega : size < 2 ^ 32),
      Nat.mod_eq_of_lt (by omega)]
  rw [verifyTurns, BitVec.toInt_eq_toNat_cond, hsum, pageCount]
  split_ifs <;> omega

/-- The bytes of the range are in the pages from the first one on. -/
theorem page_of_range {base : Word} (hbase : base.toNat % 4096 = 0) (addr : Word) (k : ℕ) :
    (base + addr + BitVec.ofNat 32 k).toNat / 4096 =
      (verifyStart base addr + BitVec.ofNat 32 (4096 * ((addr.toNat % 4096 + k) / 4096))).toNat /
        4096 := by
  have hmask : (addr &&& 0xfffff000).toNat = addr.toNat / 4096 * 4096 := by
    rw [BitVec.and_comm]
    exact pageOf_eq addr
  rw [verifyStart, BitVec.toNat_add, BitVec.toNat_add, BitVec.toNat_add, BitVec.toNat_add, hmask,
    BitVec.toNat_ofNat, BitVec.toNat_ofNat]
  omega

/-- There is a frame for each write-protected page of the range. -/
def EnoughFrames (t : Task) (addr : Word) (size : ℕ) (s : System) : Prop :=
  ((List.range (pageCount addr size)).countP fun k =>
    s.mem.readOnly (verifyStart t.data.getBase addr + BitVec.ofNat 32 (4096 * k))) ≤
    s.mem.freeFrames

/-- `verify_area` has ended with nothing write-protected in its range, and no page of a process and
no word of the kernel has changed. -/
def Verified (n : ℕ) (t : Task) (addr : Word) (size : ℕ) (s : System) : Prop :=
  ∃ m, verify n t addr size s = .ok { s with mem := m } ∧
    (∀ k < size, m.readOnly (t.data.getBase + addr + BitVec.ofNat 32 k) = false) ∧
    (∀ x ∈ userEntries, ∀ k < 1024, ∀ w, s.mem.Shows x k w → m.Shows x k w) ∧
    ∀ a < 512 * 1024, m.word a = s.mem.word a

/-- The loop does not begin when `int` overflows. -/
theorem verify_eq_self {addr : Word} {size : ℕ} (hsize : size < 2 ^ 31)
    (h : ¬ addr.toNat % 4096 + size < 2 ^ 31) (n : ℕ) (t : Task) (s : System) :
    verify n t addr size s = .ok s := by
  rw [verify, verifyTurns_eq addr hsize, if_neg h]
  rfl

/-- When `int` does not overflow, `verify_area` covers its range; when it does, nothing is done. -/
theorem verified_iff {held : Finset ℕ} {s : System} (hex : Exact s.mem held) (hk : KernelMap s.mem)
    (n : ℕ) {t : Task} (hbase : t.data.getBase.toNat % 4096 = 0) (addr : Word) {size : ℕ}
    (hsize : size < 2 ^ 31) (hfree : EnoughFrames t addr size s) :
    Verified n t addr size s ↔ addr.toNat % 4096 + size < 2 ^ 31 ∨
      ∀ k < size, s.mem.readOnly (t.data.getBase + addr + BitVec.ofNat 32 k) = false := by
  by_cases hfit : addr.toNat % 4096 + size < 2 ^ 31
  · refine ⟨fun _ => .inl hfit, fun _ => ?_⟩
    obtain ⟨m, _, hok, -, hun, hfalse⟩ := Exact.verifyPages_unshared (pageCount addr size)
      (verifyStart t.data.getBase addr) hex hk hfree
    refine ⟨m, ?_, fun k hlt => ?_, hun.shows, hun.low⟩
    · rw [verifyStart] at hok
      rw [verify, verifyTurns_eq addr hsize, if_pos hfit, hok]
    · rw [m.readOnly_congr (page_of_range hbase addr k)]
      refine hfalse _ ?_
      rw [pageCount]
      omega
  · have hnothing := verify_eq_self hsize hfit n t s
    rw [or_iff_right hfit]
    constructor
    · rintro ⟨m, hok, hfalse, -⟩
      obtain rfl : s.mem = m := congrArg System.mem (Except.ok.inj (hnothing.symm.trans hok))
      exact hfalse
    · exact fun hfalse => ⟨s.mem, hnothing, hfalse, fun _ _ _ _ _ h => h, fun _ _ => rfl⟩

/-- A range of task 0 that goes from one page to the next. -/
theorem verified_iff_boot :
    Verified 0 initTask 0x1001 4096 (boot fun _ => 0) ↔
      (0x1001 : Word).toNat % 4096 + 4096 < 2 ^ 31 ∨ ∀ k < 4096, (boot fun _ => 0).mem.readOnly
        (initTask.data.getBase + 0x1001 + BitVec.ofNat 32 k) = false := by
  refine verified_iff (Exact.boot _) (KernelMap.boot _) 0 (by decide) 0x1001 (by norm_num) ?_
  refine List.countP_le_length.trans ?_
  rw [List.length_range, show (boot fun _ => 0).mem = Memory.boot fun _ => 0 from rfl,
    Memory.freeFrames_boot]
  decide

/-! ### A size that overflows -/

/-- There is a memory in which only the first page of the slot 1 is write-protected. -/
theorem exists_protected : ∃ m, Exact m ∅ ∧ KernelMap m ∧ 1 ≤ m.freeFrames ∧
    ∀ a, m.readOnly a = true ↔ a.toNat / 4096 = 16384 := by
  have hfree := Memory.freeFrames_boot fun _ => 0
  cases hg : (Memory.boot fun _ => 0).getFreePage with
  | none =>
    rw [Memory.getFreePage_eq_none_iff.mp hg] at hfree
    omega
  | some r =>
    obtain ⟨page, m₁⟩ := r
    obtain ⟨p, -, hlo, hhi, -, hex₁, -, hword⟩ := (Exact.boot _).getFreePage hg
    have hless := Memory.freeFrames_getFreePage hg
    have hboot : ∀ d, 16 ≤ d → d < 1024 → m₁.word d = 0 := fun d h₁ h₂ => by
      rw [hword, if_neg (by omega)]
      simp only [Memory.boot]
      rw [if_neg (by omega), if_neg (by omega), if_pos h₂]
    have hd : 16 ∈ userDirs := mem_userDirs.mpr (by norm_num)
    have hx : (16, 0) ∈ userEntries := mem_userEntries.mpr ⟨hd, by norm_num⟩
    -- The page table, and its only entry, of a frame below `LOW_MEM`.
    have hex₂ := hex₁.mapTable hd (by rw [hboot 16 le_rfl (by norm_num)]; decide)
      (Finset.mem_insert_self p ∅) fun i hi => by rw [hword, if_pos (entry_div hi p)]
    rw [Finset.erase_insert (Finset.notMem_empty p)] at hex₂
    have hdir : (m₁.store 16 (entryFor p)).word 16 = entryFor p := Memory.store_word_self _ _ _
    have hframe : frameOf ((m₁.store 16 (entryFor p)).word 16) = p := by
      rw [hdir, frameOf_entryFor (by omega)]
    have htable : ∀ i < 1024, (m₁.store 16 (entryFor p)).word (p * 1024 + i) = 0 := fun i hi => by
      rw [Memory.store_word_of_ne _ (by omega), hword, if_pos (entry_div hi p)]
    have hex₃ := hex₂.sharePage (x := (16, 0)) (v := 0x3005) hx (by rw [hdir, present_entryFor])
      (by rw [Memory.pte, hframe, htable 0 (by norm_num)]; decide) (by decide) (by decide)
      (fun h => absurd h (by decide))
    rw [if_neg (by decide)] at hex₃
    dsimp only at hex₃
    rw [hframe] at hex₃
    set m := (m₁.store 16 (entryFor p)).store (p * 1024 + 0) 0x3005 with hm
    have hmdir : ∀ d < 1024, m.word d = (m₁.store 16 (entryFor p)).word d := fun d hd => by
      rw [hm, Memory.store_word_of_ne _ (by omega)]
    have hk : KernelMap m := fun a ha hor => by
      rw [hm, Memory.store_word_of_ne _ (by omega), Memory.store_word_of_ne _ (by omega), hword,
        if_neg (by omega)]
    refine ⟨m, hex₃, hk, ?_, fun a => ⟨fun ha => ?_, fun ha => ?_⟩⟩
    · rw [hm, Memory.freeFrames_store, Memory.freeFrames_store]
      omega
    · have h16 := hk.sixteen_le_of_readOnly ha
      have halt := a.isLt
      rw [Memory.readOnly, Bool.and_eq_true, Memory.mapped_iff] at ha
      obtain ⟨⟨hpres, hpte⟩, -⟩ := ha
      have hdira : dirOf a = 16 := by
        by_contra hne
        rw [hmdir _ (by rw [dirOf_eq]; omega), Memory.store_word_of_ne _ hne,
          hboot _ h16 (by rw [dirOf_eq]; omega)] at hpres
        exact absurd hpres (by decide)
      have hidxa : indexOf a = 0 := by
        by_contra hne
        rw [hdira, Memory.pte, hmdir 16 (by norm_num), hframe, hm,
          Memory.store_word_of_ne _ (by omega), htable _ (indexOf_lt a)] at hpte
        exact absurd hpte (by decide)
      rw [dirOf_eq] at hdira
      rw [indexOf] at hidxa
      omega
    · have hdira : dirOf a = 16 := by
        rw [dirOf_eq]
        omega
      have hidxa : indexOf a = 0 := by
        rw [indexOf, ha]
      have hpte : m.pte 16 0 = 0x3005 := by
        rw [Memory.pte, hmdir 16 (by norm_num), hframe, hm, Memory.store_word_self]
      rw [Memory.readOnly, hdira, hidxa, Memory.mapped, hpte, hmdir 16 (by norm_num), hdir,
        present_entryFor]
      decide

/-- A task in the slot 1. -/
def slotTask : Task := { initTask with data := initTask.data.setBase (linear 1 0) }

theorem getBase_slotTask : slotTask.data.getBase = linear 1 0 := Desc.getBase_setBase _ _

/-- `verify_area(1, 0x7fffffff)` does nothing, and the first page stays write-protected. -/
theorem not_verified : ¬ ∀ (s : System) (held : Finset ℕ), Exact s.mem held → KernelMap s.mem →
    ∀ (n : ℕ) (t : Task), t.data.getBase.toNat % 4096 = 0 → ∀ (addr : Word) (size : ℕ),
      size < 2 ^ 31 → EnoughFrames t addr size s → Verified n t addr size s := by
  intro h
  obtain ⟨m, hex, hk, hfree, honly⟩ := exists_protected
  have hstart : verifyStart (linear 1 0) 1 = linear 1 0 := by decide
  have henough : EnoughFrames slotTask 1 0x7fffffff ⟨m, fun _ => none, 0⟩ := by
    refine le_trans ?_ hfree
    rw [getBase_slotTask, hstart, show pageCount 1 0x7fffffff = 524287 + 1 by decide,
      List.range_succ_eq_map, List.countP_cons, List.countP_map]
    have hrest : (List.range 524287).countP ((fun k =>
        m.readOnly (linear 1 0 + BitVec.ofNat 32 (4096 * k))) ∘ Nat.succ) = 0 := by
      refine List.countP_eq_zero.mpr fun k hmem hro => ?_
      have hlt := List.mem_range.mp hmem
      have hpage := (honly _).mp hro
      rw [BitVec.toNat_add, toNat_linear (by norm_num) (by norm_num), BitVec.toNat_ofNat] at hpage
      omega
    rw [hrest]
    split_ifs <;> omega
  obtain ⟨m', hok, hfalse, -⟩ := h ⟨m, fun _ => none, 0⟩ ∅ hex hk 1 slotTask
    (by rw [getBase_slotTask]; decide) 1 0x7fffffff (by norm_num) henough
  rw [verify_eq_self (by norm_num) (by decide)] at hok
  obtain rfl : m = m' := congrArg System.mem (Except.ok.inj hok)
  have hfirst := hfalse 0 (by norm_num)
  rw [getBase_slotTask, (honly _).mpr (by decide)] at hfirst
  exact absurd hfirst (by decide)

end System

end Linux001.Mm
