import Linux001.Exec.Model
import Linux001.Mm.FreeFrames

/-!
# The arguments of `execve` that do not fit

`copy_strings` copies the strings to the addresses below 128 kB, from the end of the environment to
the beginning of the arguments, and gets a page for each of the 32 pieces of this area when it comes
to it. Two tests are to stop it: `p-len < 0`, which is on an unsigned number and never true, and the
result 0 when there is no page. The first call passes this result on to the second as a position.

## Main definitions

* `Taken`: memory when some pages of the area have been got, and nothing else has changed.
* `Filled`: these are the pages of the last bytes of the area.
* `Fits`, `Contained`: the strings that fit, and what is expected of the copying phase.

## Main results

* `copyDown_spec`, `copyStrings_spec`: what `copy_strings` does.
* `contained_iff`: the copying phase ends well if and only if the strings fit.
-/

namespace Linux001.Exec

open Mm (Memory Word Pages maxArgPages pagingPages lowMem byteOf setByte byteOf_setByte)

/-! ### The pages of the area -/

/-- The byte at a physical address. -/
def peekByte (a : ℕ) (m : Memory) : Byte := byteOf (m.word (a / 4)) (a % 4)

theorem peekByte_pokeByte (a x : ℕ) (b : Byte) (m : Memory) :
    peekByte x (pokeByte a b m) = if x = a then b else peekByte x m := by
  rw [peekByte, pokeByte, peekByte]
  by_cases hw : x / 4 = a / 4
  · rw [hw, Memory.store_word_self, byteOf_setByte _ _ (Nat.mod_lt _ (by norm_num))]
    by_cases hx : x = a
    · rw [if_pos hx, if_pos (by rw [hx])]
    · rw [if_neg hx, if_neg (by omega)]
  · rw [Memory.store_word_of_ne _ hw, if_neg (by rintro rfl; exact hw rfl)]

theorem pokeByte_word_of_ne {a x : ℕ} (h : x / 1024 ≠ a / 4096) (b : Byte) (m : Memory) :
    (pokeByte a b m).word x = m.word x :=
  Memory.store_word_of_ne m (by omega) _

/-- The byte at the address `q` of the area. -/
def area (a : Pages) (q : ℕ) : Byte := peekByte (a.page (q / 4096) + q % 4096) a.mem

/-- The pages of the array `page` are frames that were free in `m₀`, no two of them the same. They
are counted, and nothing else has changed but the contents of free frames. -/
structure Taken (m₀ : Memory) (a : Pages) : Prop where
  bound : ∀ i, maxArgPages ≤ i → a.page i = 0
  frame : ∀ i, a.page i ≠ 0 →
    ∃ p, a.page i = p * 4096 ∧ 512 ≤ p ∧ p < 2048 ∧ m₀.memMap (p - 512) = 0
  inj : ∀ i j, a.page i ≠ 0 → a.page i = a.page j → i = j
  count : ∀ i p, a.page i = p * 4096 → p ≠ 0 → a.mem.memMap (p - 512) = 1
  other : ∀ k, (∀ i, a.page i ≠ (k + 512) * 4096) → a.mem.memMap k = m₀.memMap k
  word : ∀ x, ¬ (512 ≤ x / 1024 ∧ x / 1024 < 2048 ∧ m₀.memMap (x / 1024 - 512) = 0) →
    a.mem.word x = m₀.word x

/-- The indices of the pages that have been got. -/
def got (a : Pages) : Finset ℕ := (Finset.range maxArgPages).filter fun i => a.page i ≠ 0

namespace Taken

variable {m₀ : Memory} {a : Pages}

theorem start (m₀ : Memory) : Taken m₀ ⟨fun _ => 0, m₀⟩ where
  bound _ _ := rfl
  frame _ h := absurd rfl h
  inj _ _ h := absurd rfl h
  count i p hp hne := by
    dsimp only at hp
    omega
  other _ _ := rfl
  word _ _ := rfl

theorem lt_of_page (h : Taken m₀ a) {i : ℕ} (hi : a.page i ≠ 0) : i < maxArgPages := by
  by_contra hc
  exact hi (h.bound i (by omega))

/-- The frame of a page of the area is not free. -/
theorem ne_of_free (h : Taken m₀ a) {k : ℕ} (hfree : a.mem.memMap k = 0) (i : ℕ) :
    a.page i ≠ (k + 512) * 4096 := fun hi => by
  have hone := h.count i (k + 512) hi (by omega)
  rw [Nat.add_sub_cancel, hfree] at hone
  exact zero_ne_one hone

/-- The free frames are those of `m₀` that are not pages of the area. -/
theorem freeFrames (h : Taken m₀ a) : a.mem.freeFrames + (got a).card = m₀.freeFrames := by
  have hbound : pagingPages = 1536 := rfl
  have himage : (got a).card = ((got a).image fun i => a.page i / 4096 - 512).card := by
    refine (Finset.card_image_of_injOn fun i hi j hj hij => ?_).symm
    have hi := (Finset.mem_filter.mp (Finset.mem_coe.mp hi)).2
    have hj := (Finset.mem_filter.mp (Finset.mem_coe.mp hj)).2
    obtain ⟨p, hp, hlo, -⟩ := h.frame i hi
    obtain ⟨q, hq, hlo', -⟩ := h.frame j hj
    refine h.inj i j hi ?_
    rw [hp, hq, Nat.mul_div_cancel _ (by norm_num), Nat.mul_div_cancel _ (by norm_num)] at hij
    rw [hp, hq]
    omega
  rw [himage, Memory.freeFrames, Memory.freeFrames, ← Finset.card_union_of_disjoint]
  · refine congrArg Finset.card (Finset.ext fun k => ?_)
    simp only [Finset.mem_union, Finset.mem_filter, Finset.mem_range, Finset.mem_image, got]
    constructor
    · rintro (⟨hk, hfree⟩ | ⟨i, ⟨-, hi⟩, rfl⟩)
      · exact ⟨hk, (h.other k (h.ne_of_free hfree)).symm.trans hfree⟩
      · obtain ⟨p, hp, hlo, hhi, hfree⟩ := h.frame i hi
        rw [hp, Nat.mul_div_cancel _ (by norm_num)]
        exact ⟨by omega, hfree⟩
    · rintro ⟨hk, hfree⟩
      by_cases hex : ∃ i, a.page i = (k + 512) * 4096
      · obtain ⟨i, hi⟩ := hex
        have hne : a.page i ≠ 0 := by omega
        refine .inr ⟨i, ⟨h.lt_of_page hne, hne⟩, ?_⟩
        rw [hi, Nat.mul_div_cancel _ (by norm_num), Nat.add_sub_cancel]
      · exact .inl ⟨hk, (h.other k (not_exists.mp hex)).trans hfree⟩
  · rw [Finset.disjoint_left]
    intro k hk hk'
    obtain ⟨-, hfree⟩ := Finset.mem_filter.mp hk
    obtain ⟨i, hi, rfl⟩ := Finset.mem_image.mp hk'
    obtain ⟨p, hp, hlo, -⟩ := h.frame i (Finset.mem_filter.mp hi).2
    rw [hp, Nat.mul_div_cancel _ (by norm_num), h.count i p hp (by omega)] at hfree
    exact one_ne_zero hfree

/-- Another page is got. -/
theorem getFreePage (h : Taken m₀ a) {i page : ℕ} {m : Memory} (hi : i < maxArgPages)
    (hzero : a.page i = 0) (hg : a.mem.getFreePage = some (page, m)) :
    Taken m₀ ⟨Function.update a.page i page, m⟩ ∧ page ≠ 0 ∧
      ∀ q, a.page (q / 4096) ≠ 0 → area ⟨Function.update a.page i page, m⟩ q = area a q := by
  obtain ⟨p, rfl, hlo, hhi, hfree, hmap, hword⟩ := Memory.getFreePage_eq_some hg
  -- The frame is not a page of the area.
  have hnew : ∀ j, a.page j ≠ p * 4096 := fun j => by
    have := h.ne_of_free hfree j
    rwa [Nat.sub_add_cancel hlo] at this
  have hfree₀ : m₀.memMap (p - 512) = 0 := (h.other _ (h.ne_of_free hfree)).symm.trans hfree
  have hpage : ∀ j, j ≠ i → Function.update a.page i (p * 4096) j = a.page j := fun j hj =>
    Function.update_of_ne hj ..
  have hpage_self : Function.update a.page i (p * 4096) i = p * 4096 := Function.update_self ..
  refine ⟨⟨fun j hj => ?_, fun j hj => ?_, fun j k hj hjk => ?_, fun j r hj hr => ?_,
    fun k hk => ?_, fun x hx => ?_⟩, by omega, fun q hq => ?_⟩
  · dsimp only
    rw [hpage j (by omega)]
    exact h.bound j hj
  · dsimp only at hj ⊢
    by_cases hji : j = i
    · rw [hji, hpage_self]
      exact ⟨p, rfl, hlo, hhi, hfree₀⟩
    · rw [hpage j hji] at hj ⊢
      exact h.frame j hj
  · dsimp only at hj hjk
    by_cases hji : j = i <;> by_cases hki : k = i
    · rw [hji, hki]
    · rw [hji, hpage_self, hpage k hki] at hjk
      exact absurd hjk.symm (hnew k)
    · rw [hki, hpage_self, hpage j hji] at hjk
      exact absurd hjk (hnew j)
    · rw [hpage j hji] at hj hjk
      rw [hpage k hki] at hjk
      exact h.inj j k hj hjk
  · dsimp only at hj ⊢
    rw [hmap]
    by_cases hji : j = i
    · rw [hji, hpage_self] at hj
      rw [show r = p by omega, Function.update_self]
    · rw [hpage j hji] at hj
      have hne := hnew j
      obtain ⟨r', hr', hlo', -⟩ := h.frame j (by omega)
      rw [Function.update_of_ne (by omega)]
      exact h.count j r hj hr
  · dsimp only at hk ⊢
    have hne := hk i
    rw [hpage_self] at hne
    rw [hmap, Function.update_of_ne (by omega)]
    refine h.other k fun j hj => hk j ?_
    rwa [hpage j (by rintro rfl; omega)]
  · dsimp only
    rw [hword, if_neg (by rintro rfl; exact hx ⟨hlo, hhi, hfree₀⟩)]
    exact h.word x hx
  · obtain ⟨r, hr, hrlo, -⟩ := h.frame _ hq
    have hne := hnew (q / 4096)
    rw [area, area]
    dsimp only
    rw [hpage _ (by intro hc; rw [hc] at hq; exact hq hzero), peekByte, peekByte, hword, if_neg]
    omega

/-- A byte is stored in a page of the area. -/
theorem pokeByte (h : Taken m₀ a) {q : ℕ} (hq : a.page (q / 4096) ≠ 0) (b : Byte) :
    Taken m₀ { a with mem := Exec.pokeByte (a.page (q / 4096) + q % 4096) b a.mem } ∧
      ∀ x, a.page (x / 4096) ≠ 0 →
        area { a with mem := Exec.pokeByte (a.page (q / 4096) + q % 4096) b a.mem } x =
          if x = q then b else area a x := by
  obtain ⟨p, hp, hlo, hhi, hfree⟩ := h.frame _ hq
  refine ⟨⟨h.bound, h.frame, h.inj, h.count, h.other, fun x hx => ?_⟩, fun x hxp => ?_⟩
  · dsimp only
    rw [pokeByte_word_of_ne]
    · exact h.word x hx
    · intro hc
      refine hx ?_
      rw [show x / 1024 = p by omega]
      exact ⟨hlo, hhi, hfree⟩
  · rw [area, area]
    dsimp only
    rw [peekByte_pokeByte]
    obtain ⟨r, hr, -⟩ := h.frame _ hxp
    refine if_congr ⟨fun heq => ?_, fun heq => by rw [heq]⟩ rfl rfl
    have hpage := h.inj _ _ hxp (by omega : a.page (x / 4096) = a.page (q / 4096))
    omega

/-- The first loop of `copy_strings` for a string gets the pages from `i` up to the first one that
is there, `e`, as far as there are free frames. -/
theorem getPages {m₀ : Memory} {e : ℕ} (he : e ≤ maxArgPages) :
    ∀ (fuel i : ℕ) {a : Pages}, Taken m₀ a → i ≤ e → e ≤ i + fuel →
      (∀ j, i ≤ j → j < e → a.page j = 0) → (e = maxArgPages ∨ a.page e ≠ 0) →
      ∃ b a', Pages.getPages fuel i a = (b, a') ∧ Taken m₀ a' ∧
        (∀ q, a.page (q / 4096) ≠ 0 → a'.page (q / 4096) = a.page (q / 4096) ∧
          area a' q = area a q) ∧
        (e ≤ i + a.mem.freeFrames → b = true ∧
          ∀ j, a'.page j ≠ 0 ↔ a.page j ≠ 0 ∨ i ≤ j ∧ j < e) ∧
        (i + a.mem.freeFrames < e → b = false)
  | 0, i, a, h, hie, hfuel, _, _ => ⟨true, a, rfl, h, fun _ _ => ⟨rfl, rfl⟩,
      fun _ => ⟨rfl, fun j => ⟨.inl, fun hj => hj.elim id fun hj => absurd hj (by omega)⟩⟩,
      fun hc => absurd hc (by omega)⟩
  | fuel + 1, i, a, h, hie, hfuel, hgap, hend => by
    rw [Pages.getPages]
    by_cases hcond : i < maxArgPages ∧ a.page i = 0
    swap
    · -- The loop ends at the page `e`.
      obtain rfl : i = e := by
        by_contra hne
        exact hcond ⟨by omega, hgap i le_rfl (by omega)⟩
      rw [if_neg hcond]
      exact ⟨true, a, rfl, h, fun _ _ => ⟨rfl, rfl⟩,
        fun _ => ⟨rfl, fun j => ⟨.inl, fun hj => hj.elim id fun hj => absurd hj (by omega)⟩⟩,
        fun hc => absurd hc (by omega)⟩
    obtain ⟨hi, hzero⟩ := hcond
    have hlt : i < e := by
      refine lt_of_le_of_ne hie fun hc => ?_
      rcases hend with hend | hend
      · omega
      · exact hend (hc ▸ hzero)
    rw [if_pos ⟨hi, hzero⟩]
    cases hg : a.mem.getFreePage with
    | none =>
      have hnone := Memory.getFreePage_eq_none_iff.mp hg
      exact ⟨false, a, rfl, h, fun _ _ => ⟨rfl, rfl⟩, fun hc => absurd hc (by omega), fun _ => rfl⟩
    | some r =>
      obtain ⟨page, m⟩ := r
      obtain ⟨h', hne, harea⟩ := h.getFreePage hi hzero hg
      set a₁ : Pages := ⟨Function.update a.page i page, m⟩ with ha₁
      have hpage : ∀ j, j ≠ i → a₁.page j = a.page j := fun j hj => Function.update_of_ne hj ..
      have hpage_self : a₁.page i = page := Function.update_self ..
      -- One frame fewer is free.
      have hfree : a₁.mem.freeFrames + 1 = a.mem.freeFrames := by
        have h₁ := h.freeFrames
        have h₂ := h'.freeFrames
        have hgot : got a₁ = insert i (got a) := by
          ext j
          simp only [got, Finset.mem_filter, Finset.mem_range, Finset.mem_insert]
          by_cases hj : j = i
          · rw [hj, hpage_self]
            exact ⟨fun _ => .inl rfl, fun _ => ⟨hi, hne⟩⟩
          · rw [hpage j hj]
            exact ⟨.inr, fun hc => hc.resolve_left hj⟩
        have hmem : i ∉ got a := fun hc => (Finset.mem_filter.mp hc).2 hzero
        rw [hgot, Finset.card_insert_of_notMem hmem] at h₂
        omega
      obtain ⟨b, a', hok, htaken, hold, hyes, hno⟩ := getPages he fuel (i + 1) h' (by omega)
        (by omega) (fun j hj hje => (hpage j (by omega)).trans (hgap j (by omega) hje))
        (hend.imp id fun hc => by rwa [hpage e (by omega)])
      refine ⟨b, a', hok, htaken, fun q hq => ?_, fun hc => ?_, fun hc => hno (by omega)⟩
      · have hqi : q / 4096 ≠ i := fun hc => hq (hc ▸ hzero)
        obtain ⟨h₁, h₂⟩ := hold q (by rwa [hpage _ hqi])
        exact ⟨h₁.trans (hpage _ hqi), h₂.trans (harea q hq)⟩
      · obtain ⟨rfl, hiff⟩ := hyes (by omega)
        refine ⟨rfl, fun j => (hiff j).trans ?_⟩
        by_cases hj : j = i
        · rw [hj, hpage_self]
          exact ⟨fun _ => .inr ⟨le_rfl, hlt⟩, fun _ => .inl hne⟩
        · rw [hpage j hj]
          refine or_congr_right ?_
          omega

end Taken

/-! ### Strings -/

section Copying

variable {m₀ : Memory} {a : Pages}

/-- A string is copied to the bytes below `p`, its last byte first. -/
theorem copyDown_spec : ∀ (bs : List Byte) {p : ℕ} {a : Pages}, Taken m₀ a → p < 131072 →
    bs.length ≤ p → (∀ q, p - bs.length ≤ q → q < p → a.page (q / 4096) ≠ 0) →
    ∃ a', copyDown bs (BitVec.ofNat 32 p) a = .ok (BitVec.ofNat 32 (p - bs.length), a') ∧
      Taken m₀ a' ∧ a'.page = a.page ∧ ∀ q, a.page (q / 4096) ≠ 0 →
        area a' q = if p - bs.length ≤ q ∧ q < p then bs.getD (p - 1 - q) 0 else area a q
  | [], p, a, h, _, _, _ => ⟨a, rfl, h, rfl, fun q _ => by
      rw [List.length_nil, if_neg (by omega)]⟩
  | b :: bs, p, a, h, hp, hle, hpage => by
    rw [List.length_cons] at hle hpage
    have hp₁ : BitVec.ofNat 32 p - 1 = BitVec.ofNat 32 (p - 1) :=
      BitVec.ofNat_sub_ofNat_of_le p 1 (by norm_num) (by omega)
    have hnat : (BitVec.ofNat 32 (p - 1)).toNat = p - 1 := by
      rw [BitVec.toNat_ofNat, Nat.mod_eq_of_lt (by omega)]
    have hq := hpage (p - 1) (by omega) (by omega)
    have hbound : maxArgPages = 32 := rfl
    obtain ⟨h', harea'⟩ := h.pokeByte hq b
    obtain ⟨a', hok, htaken, hsame, harea⟩ := copyDown_spec bs (p := p - 1) h' (by omega) (by omega)
      fun q hq₁ hq₂ => hpage q (by omega) (by omega)
    refine ⟨a', ?_, htaken, hsame, fun q hqp => ?_⟩
    · rw [copyDown, hp₁, hnat, if_neg (by omega), if_neg hq, hok, List.length_cons, Nat.sub_sub,
        Nat.add_comm 1]
    · rw [harea q hqp, harea' q hqp, List.length_cons]
      by_cases hq₁ : q = p - 1
      · rw [if_neg (by omega), if_pos hq₁, if_pos (by omega), hq₁, Nat.sub_self,
          List.getD_cons_zero]
      · by_cases hq₂ : p - 1 - bs.length ≤ q ∧ q < p - 1
        · rw [if_pos hq₂, if_pos (by omega), show p - 1 - q = p - 1 - 1 - q + 1 by omega,
            List.getD_cons_succ]
        · rw [if_neg hq₂, if_neg hq₁, if_neg (by omega)]

/-- A string that is longer than what is left runs out of the area. -/
theorem copyDown_overrun : ∀ (bs : List Byte) {p : ℕ} (a : Pages), p < 131072 → p < bs.length →
    ∃ e, copyDown bs (BitVec.ofNat 32 p) a = .error e
  | b :: bs, 0, a, _, _ => ⟨.pageIndex, by rw [copyDown]; rfl⟩
  | b :: bs, p + 1, a, hp, hlen => by
    have hp₁ : BitVec.ofNat 32 (p + 1) - 1 = BitVec.ofNat 32 p := by
      rw [BitVec.ofNat_add]
      exact BitVec.add_sub_cancel _ _
    rw [copyDown, hp₁]
    split_ifs
    · exact ⟨_, rfl⟩
    · exact ⟨_, rfl⟩
    · exact copyDown_overrun bs _ (by omega) (Nat.lt_of_succ_lt_succ hlen)

/-- The pages of the area are those of its last `T` bytes, in which strings have been copied. -/
structure Filled (m₀ : Memory) (T : ℕ) (a : Pages) : Prop extends Taken m₀ a where
  le : T ≤ 131068
  page_iff : ∀ i < maxArgPages, a.page i ≠ 0 ↔ T ≠ 0 ∧ (131068 - T) / 4096 ≤ i

/-- The bytes of strings for which `F` frames are enough. -/
def room (F : ℕ) : ℕ := 4096 * min F maxArgPages - 4

theorem le_room_iff {F T : ℕ} (hT : T ≤ 131068) :
    T ≤ room F ↔ T = 0 ∨ 32 - (131068 - T) / 4096 ≤ F := by
  rw [room, maxArgPages]
  omega

/-- The frames that are left when the pages of the last `T` bytes have been got. -/
theorem Filled.freeFrames {T : ℕ} (h : Filled m₀ T a) :
    a.mem.freeFrames + (if T = 0 then 0 else 32 - (131068 - T) / 4096) = m₀.freeFrames := by
  have hbound : maxArgPages = 32 := rfl
  rw [← h.toTaken.freeFrames]
  congr 1
  split_ifs with hT
  · refine (Finset.card_eq_zero.mpr (Finset.filter_eq_empty_iff.mpr fun i hi hp => ?_)).symm
    exact ((h.page_iff i (Finset.mem_range.mp hi)).mp hp).1 hT
  · have hgot : got a = Finset.Ico ((131068 - T) / 4096) 32 := by
      ext i
      rw [got, Finset.mem_filter, Finset.mem_range, Finset.mem_Ico]
      refine ⟨fun ⟨hi, hp⟩ => ⟨((h.page_iff i hi).mp hp).2, hi⟩, fun ⟨hlo, hi⟩ => ?_⟩
      exact ⟨hi, (h.page_iff i hi).mpr ⟨hT, hlo⟩⟩
    rw [hgot, Nat.card_Ico]

theorem Filled.start (m₀ : Memory) : Filled m₀ 0 ⟨fun _ => 0, m₀⟩ where
  toTaken := Taken.start m₀
  le := Nat.zero_le _
  page_iff _ _ := ⟨fun h => absurd rfl h, fun h => absurd rfl h.1⟩

theorem copyStrings_cons {s : Str} {ss : List Str} {p : Word} {b : Bool} {a₁ : Pages}
    (hget : Pages.getPages maxArgPages ((p - BitVec.ofNat 32 s.len) >>> 12).toNat a = (b, a₁)) :
    copyStrings (s :: ss) p a =
      if b then copyDown s.full.reverse p a₁ >>= fun r => copyStrings ss r.1 r.2
      else .ok (0, a₁) := by
  rw [copyStrings, hget]
  cases b <;> rfl

/-- A string that fits is copied, as far as there are frames. -/
theorem Filled.copyString {T : ℕ} (h : Filled m₀ T a) (s : Str) (ss : List Str)
    (hfit : T + s.len ≤ 131068) :
    (T + s.len ≤ room m₀.freeFrames → ∃ a', copyStrings (s :: ss) (BitVec.ofNat 32 (131068 - T)) a =
        copyStrings ss (BitVec.ofNat 32 (131068 - (T + s.len))) a' ∧ Filled m₀ (T + s.len) a' ∧
        ∀ q, 131068 - (T + s.len) ≤ q → q < 131068 → area a' q =
          if q < 131068 - T then s.full.getD (q - (131068 - (T + s.len))) 0 else area a q) ∧
      (room m₀.freeFrames < T + s.len → ∃ a',
        copyStrings (s :: ss) (BitVec.ofNat 32 (131068 - T)) a = .ok (0, a') ∧ Taken m₀ a') := by
  have hbound : maxArgPages = 32 := rfl
  have hpos := s.len_pos
  have hle := h.le
  have hfree := h.freeFrames
  have hsub : BitVec.ofNat 32 (131068 - T) - BitVec.ofNat 32 s.len =
      BitVec.ofNat 32 (131068 - (T + s.len)) := by
    rw [BitVec.ofNat_sub_ofNat_of_le _ _ (by omega) (by omega), Nat.sub_sub]
  have hindex : (BitVec.ofNat 32 (131068 - (T + s.len)) >>> 12).toNat =
      (131068 - (T + s.len)) / 4096 := by
    rw [BitVec.toNat_ushiftRight, Nat.shiftRight_eq_div_pow, BitVec.toNat_ofNat,
      Nat.mod_eq_of_lt (by omega)]
  have hroom := le_room_iff (F := m₀.freeFrames) hfit
  -- The first page that is there.
  set e := if T = 0 then 32 else (131068 - T) / 4096 with he
  have hie : (131068 - (T + s.len)) / 4096 ≤ e := by
    rw [he]
    split_ifs <;> omega
  have he32 : e ≤ 32 := by
    rw [he]
    split_ifs <;> omega
  have hpage : ∀ j < 32, a.page j ≠ 0 ↔ e ≤ j := fun j hj => by
    rw [h.page_iff j hj, he]
    split_ifs <;> omega
  have hend : e = maxArgPages ∨ a.page e ≠ 0 := by
    by_cases hc : e < 32
    · exact .inr ((hpage e hc).mpr le_rfl)
    · exact .inl (by omega)
  have hneed : a.mem.freeFrames + (32 - e) = m₀.freeFrames := by
    rw [← hfree, he]
    split_ifs <;> omega
  obtain ⟨b, a₁, hget, htaken, hold, hyes, hno⟩ := h.toTaken.getPages (e := e)
    (by omega) maxArgPages ((131068 - (T + s.len)) / 4096) hie (by omega)
    (fun j _ hj => not_not.mp fun hc => absurd ((hpage j (by omega)).mp hc) (by omega)) hend
  rw [copyStrings_cons (by rw [hsub, hindex, hget])]
  refine ⟨fun hle' => ?_, fun hgt => ?_⟩
  · obtain ⟨rfl, hiff⟩ := hyes (by omega)
    have hlen : s.full.reverse.length = s.len := by rw [List.length_reverse, Str.length_full]
    have hpage₁ : ∀ j < 32, a₁.page j ≠ 0 ↔ (131068 - (T + s.len)) / 4096 ≤ j := fun j hj => by
      rw [hiff j, hpage j hj]
      omega
    obtain ⟨a', hok, htaken', hsame, harea⟩ := copyDown_spec s.full.reverse (p := 131068 - T)
      htaken (by omega) (by omega) fun q hq₁ hq₂ => (hpage₁ _ (by omega)).mpr (by omega)
    rw [hlen, Nat.sub_sub] at hok harea
    refine ⟨a', ?_, ⟨htaken', hfit, fun i hi => ?_⟩, fun q hq₁ hq₂ => ?_⟩
    · rw [if_pos rfl, hok]
      rfl
    · rw [hsame, hpage₁ i hi]
      exact ⟨fun hc => ⟨by omega, hc⟩, And.right⟩
    · rw [harea q ((hpage₁ _ (by omega)).mpr (by omega))]
      by_cases hq : q < 131068 - T
      · rw [if_pos ⟨hq₁, hq⟩, if_pos hq, List.getD_eq_getElem _ _ (by rw [hlen]; omega),
          List.getD_eq_getElem _ _ (by rw [Str.length_full]; omega), List.getElem_reverse]
        congr 1
        rw [Str.length_full]
        omega
      · rw [if_neg fun hc => hq hc.2, if_neg hq]
        refine (hold q ((hpage _ (by omega)).mpr ?_)).2
        rw [he]
        split_ifs <;> omega
  · rw [hno (by omega)]
    exact ⟨a₁, rfl, htaken⟩

/-- The strings, in the order in which they are copied, fit: with `F` free frames and `T` bytes in
the area, every string that is come to before the frames run out ends inside the area. -/
def Fits (F T : ℕ) (ss : List Str) : Prop :=
  ∀ l s r, ss = l ++ s :: r → T + total l ≤ room F → T + total l + s.len ≤ 131068

@[simp] theorem total_nil : total [] = 0 := rfl

@[simp] theorem total_cons (s : Str) (ss : List Str) : total (s :: ss) = s.len + total ss :=
  List.sum_cons

@[simp] theorem total_append (l r : List Str) : total (l ++ r) = total l + total r := by
  rw [total, total, total, List.map_append, List.sum_append]

@[simp] theorem total_reverse (ss : List Str) : total ss.reverse = total ss := by
  rw [total, total, List.map_reverse, List.sum_reverse]

theorem fits_nil (F T : ℕ) : Fits F T [] := fun l s r h => by
  cases l <;> cases h

theorem fits_cons {F T : ℕ} {s : Str} {ss : List Str} :
    Fits F T (s :: ss) ↔ (T ≤ room F → T + s.len ≤ 131068) ∧ Fits F (T + s.len) ss := by
  constructor
  · refine fun h => ⟨fun hT => ?_, fun l s' r heq hT => ?_⟩
    · exact h [] s ss rfl hT
    · have := h (s :: l) s' r (by rw [heq]; rfl) (by rw [total_cons]; omega)
      rw [total_cons] at this
      omega
  · rintro ⟨hs, hss⟩ l s' r heq hT
    cases l with
    | nil =>
      obtain ⟨rfl, -⟩ := List.cons.inj heq
      exact hs hT
    | cons s₀ l =>
      obtain ⟨rfl, heq'⟩ := List.cons.inj heq
      rw [total_cons] at hT ⊢
      have := hss l s' r heq' (by omega)
      omega

/-- After the frames have run out nothing is asked for. -/
theorem fits_of_room_lt {F T : ℕ} (h : room F < T) (ss : List Str) : Fits F T ss :=
  fun l s r _ hT => absurd hT (by omega)

theorem fits_append {F T : ℕ} {l r : List Str} :
    Fits F T (l ++ r) ↔ Fits F T l ∧ Fits F (T + total l) r := by
  induction l generalizing T with
  | nil => simp [fits_nil]
  | cons s l ih => rw [List.cons_append, fits_cons, fits_cons, ih, total_cons, and_assoc,
      Nat.add_assoc]

/-- A position that leaves less than a string ends in an access outside the area. -/
theorem copyStrings_overrun {p : ℕ} (hp : p < 131072) {s : Str} (hs : p < s.len) (ss : List Str)
    (a : Pages) : ∃ e, copyStrings (s :: ss) (BitVec.ofNat 32 p) a = .error e := by
  have hle := s.len_le
  have hindex : 32 ≤ ((BitVec.ofNat 32 p - BitVec.ofNat 32 s.len) >>> 12).toNat := by
    rw [BitVec.toNat_ushiftRight, Nat.shiftRight_eq_div_pow, BitVec.toNat_sub, BitVec.toNat_ofNat,
      BitVec.toNat_ofNat]
    omega
  have hget : Pages.getPages maxArgPages ((BitVec.ofNat 32 p - BitVec.ofNat 32 s.len) >>> 12).toNat
      a =
      (true, a) := by
    rw [maxArgPages, Pages.getPages, if_neg fun hc => by
      have := hc.1
      rw [maxArgPages] at this
      omega]
  obtain ⟨e, he⟩ := copyDown_overrun s.full.reverse a hp (by
    rwa [List.length_reverse, Str.length_full])
  refine ⟨e, ?_⟩
  rw [copyStrings_cons hget, if_pos rfl, he]
  rfl

/-- `copy_strings`: it returns if and only if the strings fit. They are in the area then, unless the
frames have run out. -/
theorem copyStrings_spec : ∀ (ss : List Str) {T : ℕ} {a : Pages}, Filled m₀ T a →
    T ≤ room m₀.freeFrames →
    (Fits m₀.freeFrames T ss → ∃ p a', copyStrings ss (BitVec.ofNat 32 (131068 - T)) a =
      .ok (p, a') ∧
      Taken m₀ a' ∧ (room m₀.freeFrames < T + total ss → p = 0) ∧
      (T + total ss ≤ room m₀.freeFrames → p = BitVec.ofNat 32 (131068 - (T + total ss)) ∧
        Filled m₀ (T + total ss) a' ∧ ∀ q, 131068 - (T + total ss) ≤ q → q < 131068 →
          area a' q = if q < 131068 - T then
            (ss.reverse.flatMap Str.full).getD (q - (131068 - (T + total ss))) 0 else area a q)) ∧
    (¬ Fits m₀.freeFrames T ss →
      ∃ e, copyStrings ss (BitVec.ofNat 32 (131068 - T)) a = .error e)
  | [], T, a, h, hT => by
    refine ⟨fun _ => ⟨_, a, rfl, h.toTaken, fun hc => ?_, fun _ => ⟨rfl, h, fun q hq₁ hq₂ => ?_⟩⟩,
      fun hc => absurd (fits_nil _ _) hc⟩
    · rw [total_nil] at hc
      omega
    · rw [total_nil] at hq₁
      rw [if_neg (by omega)]
  | s :: ss, T, a, h, hT => by
    have hle := h.le
    have hpos := s.len_pos
    by_cases hfit : T + s.len ≤ 131068
    swap
    · refine ⟨fun hc => absurd ((fits_cons.mp hc).1 hT) hfit, fun _ => ?_⟩
      exact copyStrings_overrun (by omega) (by omega) ss a
    obtain ⟨hyes, hno⟩ := h.copyString s ss hfit
    by_cases hroom : T + s.len ≤ room m₀.freeFrames
    · obtain ⟨a₁, hok, h₁, harea₁⟩ := hyes hroom
      obtain ⟨hgood, hbad⟩ := copyStrings_spec ss h₁ hroom
      rw [hok, fits_cons, total_cons, ← Nat.add_assoc]
      refine ⟨fun hc => ?_, fun hc => hbad fun hss => hc ⟨fun _ => hfit, hss⟩⟩
      obtain ⟨p, a', hok', htaken, hzero, hfull⟩ := hgood hc.2
      refine ⟨p, a', hok', htaken, hzero, fun hle' => ?_⟩
      obtain ⟨hp, hfilled, harea⟩ := hfull hle'
      refine ⟨hp, hfilled, fun q hq₁ hq₂ => ?_⟩
      have hfle := hfilled.le
      have hlen : (ss.reverse.flatMap Str.full).length = total ss := by
        rw [List.length_flatMap, List.map_congr_left fun s _ => s.length_full]
        exact total_reverse ss
      rw [harea q hq₁ hq₂, List.reverse_cons, List.flatMap_append, List.flatMap_singleton]
      -- The string is above those that are copied after it.
      by_cases hq : q < 131068 - (T + s.len)
      · rw [if_pos hq, if_pos (by omega), List.getD_append _ _ _ _ (by omega)]
      · rw [if_neg hq, harea₁ q (by omega) hq₂]
        refine if_congr Iff.rfl ?_ rfl
        rw [List.getD_append_right _ _ _ _ (by omega)]
        congr 1
        omega
    · obtain ⟨a', hok, htaken⟩ := hno (by omega)
      refine ⟨fun _ => ⟨0, a', hok, htaken, fun _ => rfl, fun hc => ?_⟩, fun hc => ?_⟩
      · rw [total_cons] at hc
        omega
      · exact absurd (fits_cons.mpr ⟨fun _ => hfit, fits_of_room_lt (by omega) ss⟩) hc

/-- The loop that frees the pages gives back what has been got. -/
theorem Taken.freePages (h : Taken m₀ a) :
    ∃ m, a.freePages = .ok m ∧ m.memMap = m₀.memMap ∧ m.word = a.mem.word := by
  have hlow : lowMem = 512 * 4096 := rfl
  have hhigh : Mm.highMemory = 2048 * 4096 := rfl
  obtain ⟨m, hok, hcount, hother, hword⟩ := foldlM_range_ok
    (f := fun m i => Memory.freePage (a.page i) m) (n := maxArgPages) (s := a.mem)
    (fun k m => (∀ i p, k ≤ i → a.page i = p * 4096 → p ≠ 0 → m.memMap (p - 512) = 1) ∧
      (∀ c, (∀ i, k ≤ i → a.page i ≠ (c + 512) * 4096) → m.memMap c = m₀.memMap c) ∧
      m.word = a.mem.word)
    ⟨fun i p _ => h.count i p, fun c hc => h.other c fun i => hc i (Nat.zero_le i), rfl⟩ <| by
      rintro k hk m ⟨hcount, hother, hword⟩
      by_cases hzero : a.page k = 0
      · refine ⟨m, ?_, fun i p hi => hcount i p (by omega), fun c hc =>
          hother c fun i hi => ?_, hword⟩
        · rw [hzero]
          rfl
        · by_cases hik : i = k
          · rw [hik, hzero]
            omega
          · exact hc i (by omega)
      obtain ⟨p, hp, hlo, hhi, hfree⟩ := h.frame k hzero
      have hone := hcount k p le_rfl hp (by omega)
      have hmap : Mm.mapNr (p * 4096) = p - 512 := by
        rw [Mm.mapNr, Nat.shiftRight_eq_div_pow]
        omega
      refine ⟨m.setMap (p - 512) 0, ?_, fun i q hi hq hne => ?_, fun c hc => ?_, hword⟩
      · rw [hp, Memory.freePage, hmap, if_neg (by omega), if_neg (by omega),
          if_pos (by omega), hone]
      · obtain ⟨r, hr, hrlo, -⟩ := h.frame i (by omega)
        have hqp : q ≠ p := fun hc => by
          have := h.inj i k (by omega) (by rw [hq, hp, hc])
          omega
        rw [Memory.setMap]
        dsimp only
        rw [Function.update_of_ne (by omega)]
        exact hcount i q (by omega) hq hne
      · rw [Memory.setMap]
        dsimp only
        by_cases hcp : c = p - 512
        · rw [hcp, Function.update_self, hfree]
        · rw [Function.update_of_ne hcp]
          refine hother c fun i hi => ?_
          by_cases hik : i = k
          · rw [hik, hp]
            omega
          · exact hc i (by omega)
  refine ⟨m, ?_, funext fun c => hother c fun i hi hc => ?_, hword⟩
  · rw [Pages.freePages, hok]
    rfl
  · rw [h.bound i hi] at hc
    omega

end Copying

/-! ### `do_execve` -/

/-- The arguments fit: `F` frames are enough for the environment, or there is no argument, and every
string that is come to before the frames run out ends inside the area. -/
structure ArgsFit (F : ℕ) (argv envp : List Str) : Prop where
  fits : Fits F 0 (envp.reverse ++ argv.reverse)
  envp : argv = [] ∨ total envp ≤ room F

section Phase

variable {m : Memory} {argv envp : List Str}

/-- The copying phase returns if the arguments fit. The area has the arguments and the environment
then, in this order, unless the frames have run out. -/
theorem copyArguments_ok (h : ArgsFit m.freeFrames argv envp) : ∃ p a,
    copyArguments argv envp m = .ok (p, a) ∧ Taken m a ∧
      (room m.freeFrames < total (argv ++ envp) → p = 0) ∧
      (total (argv ++ envp) ≤ room m.freeFrames →
        p = BitVec.ofNat 32 (131068 - total (argv ++ envp)) ∧ Filled m (total (argv ++ envp)) a ∧
        ∀ k < total (argv ++ envp), area a (131068 - total (argv ++ envp) + k) =
          ((argv ++ envp).flatMap Str.full).getD k 0) := by
  obtain ⟨hfe, hfa⟩ := fits_append.mp h.fits
  rw [Nat.zero_add] at hfa
  obtain ⟨pe, ae, hoke, htake, hzeroe, hfulle⟩ :=
    (copyStrings_spec envp.reverse (Filled.start m) (Nat.zero_le _)).1 hfe
  rw [Nat.zero_add, total_reverse] at hzeroe hfulle
  rw [total_reverse] at hfa
  rw [copyArguments, stackTop]
  change ∃ p a, (copyStrings envp.reverse (BitVec.ofNat 32 (131068 - 0)) _ >>= _) = _ ∧ _
  rw [hoke]
  change ∃ p a, copyStrings argv.reverse pe ae = _ ∧ _
  by_cases hroom : total envp ≤ room m.freeFrames
  · obtain ⟨rfl, hfilled, harea⟩ := hfulle hroom
    obtain ⟨p, a, hok, htaken, hzero, hfull⟩ := (copyStrings_spec argv.reverse hfilled hroom).1 hfa
    rw [total_reverse, Nat.add_comm, ← total_append] at hzero hfull
    refine ⟨p, a, hok, htaken, hzero, fun hle => ?_⟩
    obtain ⟨hp, hfill, hcopy⟩ := hfull hle
    refine ⟨hp, hfill, fun k hk => ?_⟩
    have hle' := hfill.le
    have hlen : (argv.flatMap Str.full).length = total argv := by
      rw [List.length_flatMap, List.map_congr_left fun s _ => s.length_full]
      rfl
    rw [hcopy _ (by omega) (by omega), List.reverse_reverse, List.flatMap_append,
      Nat.add_sub_cancel_left]
    rw [total_append] at hk hle' ⊢
    -- The environment is above the arguments.
    by_cases hka : k < total argv
    · rw [if_pos (by omega), List.getD_append _ _ _ _ (by omega)]
    · rw [if_neg (by omega), harea _ (by omega) (by omega), if_pos (by omega),
        List.getD_append_right _ _ _ _ (by omega), List.reverse_reverse]
      congr 1
      omega
  · obtain rfl := h.envp.resolve_right hroom
    refine ⟨pe, ae, rfl, htake, fun _ => hzeroe (by omega), fun hc => ?_⟩
    rw [List.nil_append] at hc
    exact absurd hc hroom

/-- The copying phase does not return if they do not fit. -/
theorem copyArguments_error (h : ¬ ArgsFit m.freeFrames argv envp) :
    ∃ e, copyArguments argv envp m = .error e := by
  have henv := copyStrings_spec envp.reverse (Filled.start m) (Nat.zero_le _)
  rw [copyArguments, stackTop]
  change ∃ e, (copyStrings envp.reverse (BitVec.ofNat 32 (131068 - 0)) _ >>= _) = .error e
  by_cases hfe : Fits m.freeFrames 0 envp.reverse
  swap
  · obtain ⟨e, he⟩ := henv.2 hfe
    rw [he]
    exact ⟨e, rfl⟩
  obtain ⟨pe, ae, hoke, -, hzeroe, hfulle⟩ := henv.1 hfe
  rw [Nat.zero_add, total_reverse] at hzeroe hfulle
  rw [hoke]
  change ∃ e, copyStrings argv.reverse pe ae = .error e
  by_cases hroom : total envp ≤ room m.freeFrames
  · obtain ⟨rfl, hfilled, -⟩ := hfulle hroom
    refine (copyStrings_spec argv.reverse hfilled hroom).2 fun hfa => h ⟨?_, .inr hroom⟩
    rw [fits_append, Nat.zero_add, total_reverse]
    exact ⟨hfe, hfa⟩
  · -- The result 0 is the position from which the arguments are copied.
    obtain rfl := hzeroe (by omega)
    cases hrev : argv.reverse with
    | nil =>
      rw [List.reverse_eq_nil_iff] at hrev
      refine absurd ⟨?_, .inl hrev⟩ h
      rw [hrev, List.reverse_nil, List.append_nil]
      exact hfe
    | cons s ss => exact copyStrings_overrun (p := 0) (by norm_num) s.len_pos ss ae

end Phase

/-- What a call that fails leaves: the pages are free again, nothing but free frames has changed,
and the file is released. -/
structure Restored (s s' : State) : Prop where
  memMap : s'.mem.memMap = s.mem.memMap
  word : ∀ x, ¬ (512 ≤ x / 1024 ∧ x / 1024 < 2048 ∧ s.mem.memMap (x / 1024 - 512) = 0) →
    s'.mem.word x = s.mem.word x
  proc : s'.proc = s.proc
  cache : s'.cache = s.cache
  iCount : s'.iCount = s.iCount - 1

/-- The copying phase completes, or `do_execve` returns -1 and leaves everything as it was. -/
def Contained (i : Inode) (ex : Header) (argv envp : List Str) (s : State) : Prop :=
  (∃ p a, copyArguments argv envp s.mem = .ok (p, a) ∧ p ≠ 0) ∨
    ∃ s', execAccepted i ex argv envp s = .ok (-1, s') ∧ Restored s s'

section Contained

variable {i : Inode} {ex : Header} {argv envp : List Str} {s : State}

/-- The copying phase of any arguments, before any way to go on. -/
private theorem phase_eq (load : Word → (ℕ → ℕ) → K ℤ)
    (copy : Memory → Except Stop (Word × Pages)) (s : State) :
    (do
      let s ← get
      let r ← copy s.mem
      if r.1 = 0 then abandon r.2
      else do
        modify fun s => { s with mem := r.2.mem }
        load r.1 r.2.page : K ℤ) s =
      (copy s.mem >>= fun r =>
        if r.1 = 0 then abandon r.2 s else load r.1 r.2.page { s with mem := r.2.mem }) := by
  change (copy s.mem >>= fun r => pure (r, s)) >>= _ = _
  cases copy s.mem with
  | error e => rfl
  | ok r =>
    change (if r.1 = 0 then abandon r.2 else _) s = if r.1 = 0 then abandon r.2 s else _
    split_ifs <;> rfl

theorem execAccepted_eq : execAccepted i ex argv envp s =
    (copyArguments argv envp s.mem >>= fun r =>
      if r.1 = 0 then abandon r.2 s
      else loadProgram i ex argv.length envp.length r.1 r.2.page { s with mem := r.2.mem }) := by
  rw [execAccepted]
  exact phase_eq (loadProgram i ex argv.length envp.length) (copyArguments argv envp) s

/-- `do_execve` gives up. -/
theorem abandon_ok {a : Pages} (h : Taken s.mem a) :
    ∃ s', abandon a s = .ok (-1, s') ∧ Restored s s' := by
  obtain ⟨m, hok, hmap, hword⟩ := h.freePages
  refine ⟨{ s with mem := m, iCount := s.iCount - 1 }, ?_, hmap, fun x hx => ?_, rfl, rfl, rfl⟩
  · have hmem : onMem (fun _ => a.freePages) s = .ok ((), { s with mem := m }) := by
      rw [onMem, hok]
      rfl
    change (onMem (fun _ => a.freePages) s >>= _) = _
    rw [hmem]
    rfl
  · rw [hword]
    exact h.word x hx

theorem contained_of_argsFit (h : ArgsFit s.mem.freeFrames argv envp) :
    Contained i ex argv envp s := by
  obtain ⟨p, a, hok, htaken, -⟩ := copyArguments_ok h
  by_cases hp : p = 0
  · obtain ⟨s', hs', hrestored⟩ := abandon_ok htaken
    refine .inr ⟨s', ?_, hrestored⟩
    rw [execAccepted_eq, hok]
    exact (if_pos hp).trans hs'
  · exact .inl ⟨p, a, hok, hp⟩

theorem not_contained_of_not_argsFit (h : ¬ ArgsFit s.mem.freeFrames argv envp) :
    ¬ Contained i ex argv envp s := by
  obtain ⟨e, he⟩ := copyArguments_error h
  rintro (⟨p, a, hok, -⟩ | ⟨s', hok, -⟩)
  · cases he.symm.trans hok
  · rw [execAccepted_eq, he] at hok
    cases hok

/-- **Arguments that do not fit.** The copying phase completes, or ends in a clean failure, if and
only if the arguments fit. -/
theorem contained_iff : Contained i ex argv envp s ↔ ArgsFit s.mem.freeFrames argv envp :=
  ⟨fun h => by_contra fun hfit => not_contained_of_not_argsFit hfit h, contained_of_argsFit⟩

end Contained

/-- A string of `n` equal bytes. -/
def Str.replicate (n : ℕ) (h : n < 0x4000000) : Str where
  bytes := List.replicate n 1
  nul_free h := absurd (List.eq_of_mem_replicate h) (by decide)
  length_lt := by rwa [List.length_replicate]

theorem Str.len_replicate (n : ℕ) (h : n < 0x4000000) : (Str.replicate n h).len = n + 1 := by
  rw [len, replicate, List.length_replicate]

/-- A process in a memory with free frames. -/
def bootState : State where
  mem := Memory.boot fun _ => 0
  cache := ⟨fun _ => none, [], fun _ => Fs.zeroBlock, Fs.Cache.clean_none⟩
  proc := ⟨⟨0, 0⟩, ⟨0, 0⟩, fun _ => 0, fun _ => none, fun _ => false, false, false, 0, 0, 0, 0⟩
  iCount := 1
  eip := 0
  esp := 0

/-- A program whose only argument has 131068 bytes is not started, and the call does not fail. -/
theorem not_contained : ¬ Contained ⟨0, fun _ => 0⟩ (header Fs.zeroBlock)
    [Str.replicate 131068 (by decide)] [] bootState := by
  refine not_contained_of_not_argsFit fun h => ?_
  have hfit := h.fits
  rw [List.reverse_nil, List.nil_append, List.reverse_singleton, fits_cons] at hfit
  have hle := hfit.1 (Nat.zero_le _)
  rw [Str.len_replicate] at hle
  omega

end Linux001.Exec
