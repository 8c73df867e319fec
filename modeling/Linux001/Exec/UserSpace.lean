import Linux001.Exec.Arguments
import Linux001.Lib.Effects
import Linux001.Lib.Overlay

/-!
# The memory of a program that is being loaded

A new program has an address space of its own: each of its pages is in a frame that no other page
table refers to. The bytes of its data segment are then a function of the offset, whose value is
zero where no page is mapped: a page fault changes nothing, a store changes one byte, and
`put_page` brings in the bytes of a page.

## Main definitions

* `frameAt`, `userByte`: the frame of a page of a slot, and the bytes of the slot.
* `Space`: no page of the slot is shared.
* `Segment`: the bytes of the data segment of the process.
* `Enough`, `Supplied`: the frames suffice for a set of pages.

## Main results

* `Space.putPage`, `Space.doNoPage`, `Space.storeByte`: what maps a page or stores a byte.
* `Segment.getFsByte`, `Segment.putBytes`: what accesses of the kernel do to the bytes.
* `Supplied.getFsByte`, `Supplied.putBytes`: they succeed when there are enough frames.
-/

namespace Linux001.Mm

@[simp] theorem byteOf_zero (j : ℕ) : byteOf 0 j = 0 := by
  simp [byteOf]

end Linux001.Mm

namespace Linux001.Exec

open Mm (Memory Word Exact byteOf dirOf indexOf frameOf present entryFor userDirs userEntries linear
  mem_userDirs mem_userEntries)

/-! ### The pages of a slot -/

/-- The position of the table entry of the page `j` of a slot. -/
def pageEntry (n j : ℕ) : ℕ × ℕ := (16 * n + j / 1024, j % 1024)

/-- The frame of the page `j` of a slot, if it is mapped. -/
def frameAt (n : ℕ) (m : Memory) (j : ℕ) : Option ℕ :=
  if m.mapped (pageEntry n j).1 (pageEntry n j).2 then
    some (frameOf (m.pte (pageEntry n j).1 (pageEntry n j).2))
  else none

/-- The byte at an offset in a slot; it is zero if its page is still to be got. -/
def userByte (n : ℕ) (m : Memory) (off : ℕ) : Byte :=
  match frameAt n m (off / 4096) with
  | none => 0
  | some F => peekByte (F * 4096 + off % 4096) m

/-- No page of the slot is shared, when the kernel holds the frames of `held`. -/
structure Space (n : ℕ) (held : Finset ℕ) (m : Memory) : Prop where
  exact : Exact m held
  own : ∀ j < 16384, ∀ F, frameAt n m j = some F →
    512 ≤ F ∧ ∀ y ∈ userEntries, m.MapsPage F y → y = pageEntry n j

section Entries

variable {n j : ℕ} {m : Memory}

theorem pageEntry_mem (hpos : 1 ≤ n) (hn : n < 64) (hj : j < 16384) :
    pageEntry n j ∈ userEntries := by
  rw [pageEntry, mem_userEntries, mem_userDirs]
  dsimp only
  omega

theorem pageEntry_inj {i : ℕ} (h : pageEntry n i = pageEntry n j) : i = j := by
  obtain ⟨h₁, h₂⟩ := Prod.mk.inj h
  omega

theorem frameAt_eq_some {F : ℕ} : frameAt n m j = some F ↔ m.MapsPage F (pageEntry n j) := by
  rw [frameAt, Memory.mapsPage_iff_mapped]
  split_ifs with h
  · rw [Option.some.injEq]
    exact ⟨fun hF => ⟨h, hF⟩, And.right⟩
  · exact ⟨nofun, fun hc => absurd hc.1 h⟩

theorem frameAt_eq_none : frameAt n m j = none ↔
    m.mapped (pageEntry n j).1 (pageEntry n j).2 = false := by
  rw [frameAt]
  split_ifs with h
  · exact ⟨nofun, fun hc => absurd (hc.symm.trans h) Bool.false_ne_true⟩
  · exact ⟨fun _ => Bool.eq_false_iff.mpr h, fun _ => rfl⟩

theorem pageEntry_linear (hn : n < 64) {off : ℕ} (hoff : off < 0x4000000) :
    (dirOf (linear n off), indexOf (linear n off)) = pageEntry n (off / 4096) := by
  rw [Mm.dirOf_linear hn hoff, Mm.indexOf_linear hn hoff, pageEntry]
  refine Prod.ext ?_ rfl
  dsimp only
  omega

/-- Where the byte at an offset of the slot is in physical memory. -/
theorem wordOf_linear (hn : n < 64) {off F : ℕ} (hoff : off < 0x4000000)
    (hF : frameAt n m (off / 4096) = some F) :
    m.wordOf (linear n off) = (F * 4096 + off % 4096) / 4 ∧
      (linear n off).toNat % 4 = (F * 4096 + off % 4096) % 4 := by
  have hmaps := frameAt_eq_some.mp hF
  rw [← pageEntry_linear hn hoff] at hmaps
  have hframe : frameOf (m.pte (dirOf (linear n off)) (indexOf (linear n off))) = F := hmaps.2.2
  rw [Memory.wordOf, hframe, Mm.mod_linear hn hoff, Mm.toNat_linear hn hoff]
  omega

end Entries

/-- The frame of the page `j` becomes `p`, and what is in other pages and in the frames of `held`
stays. -/
structure Mapped (n j p : ℕ) (held : Finset ℕ) (m m' : Memory) : Prop where
  frame : ∀ i < 16384, frameAt n m' i = if i = j then some p else frameAt n m i
  word : ∀ a, 512 ≤ a / 1024 → (a / 1024 ∈ held ∨ ∃ y ∈ userEntries, m.MapsPage (a / 1024) y) →
    m'.word a = m.word a
  dir : present (m'.word (pageEntry n j).1) = true
  maps : ∀ y ∈ userEntries, ∀ F, m'.MapsPage F y → m.MapsPage F y ∨ y = pageEntry n j ∧ F = p

namespace Space

variable {n j p : ℕ} {held : Finset ℕ} {m m' : Memory}

/-- An entry that was not mapped refers to a frame of `held` now. -/
theorem mapped_of_word (h : Space n held m) (hpos : 1 ≤ n) (hn : n < 64) (hj : j < 16384)
    (hp : p ∈ held)
    (hcase : (present (m.word (pageEntry n j).1) = true ∧ m'.word = (m.store
          (frameOf (m.word (pageEntry n j).1) * 1024 + (pageEntry n j).2) (entryFor p)).word) ∨
      present (m.word (pageEntry n j).1) = false ∧ ∃ t, 512 ≤ t ∧ t < 2048 ∧ m.refs held t = 0 ∧
        ∀ a, m'.word a = if a = t * 1024 + (pageEntry n j).2 then entryFor p
          else if a = (pageEntry n j).1 then entryFor t
          else if a / 1024 = t then 0 else m.word a) : Mapped n j p held m m' := by
  have hx := pageEntry_mem hpos hn hj
  set x := pageEntry n j with hxdef
  obtain ⟨hxd, hxi⟩ := mem_userEntries.mp hx
  have hxlt := mem_userDirs.mp hxd
  have hplt := h.exact.held_mem p hp
  have hframe : frameOf (entryFor p) = p := Mm.frameOf_entryFor (by omega)
  -- The entries of the new memory.
  have hentry : present (m'.word x.1) = true ∧ m'.pte x.1 x.2 = entryFor p ∧
      ∀ y ∈ userEntries, y ≠ x → m'.mapped y.1 y.2 = m.mapped y.1 y.2 ∧
        (m.mapped y.1 y.2 = true → m'.pte y.1 y.2 = m.pte y.1 y.2) := by
    rcases hcase with ⟨hpres, hword⟩ | ⟨hpres, t, htlo, hthi, hrefs, hword⟩
    · have htab := (h.exact.table_mem _ hxd hpres).1
      have hdir : ∀ d < 1024, m'.word d = m.word d := fun d hd => by
        rw [hword, Memory.store_word_of_ne _ (by omega)]
      refine ⟨by rw [hdir _ hxlt.2]; exact hpres, ?_, fun y hy hne => ?_⟩
      · rw [Memory.pte, hdir _ hxlt.2, hword, Memory.store_word_self]
      · obtain ⟨hyd, hyi⟩ := mem_userEntries.mp hy
        have hylt := mem_userDirs.mp hyd
        rw [Memory.mapped, Memory.mapped, hdir _ hylt.2]
        by_cases hpy : present (m.word y.1) = true
        · have hpte : m'.pte y.1 y.2 = m.pte y.1 y.2 := by
            rw [Memory.pte, Memory.pte, hdir _ hylt.2, hword, Memory.store_word_of_ne]
            intro hc
            have hdiv := congrArg (· / 1024) hc
            have hmod := congrArg (· % 1024) hc
            simp only [Mm.entry_div hyi, Mm.entry_div hxi, Mm.entry_mod hyi,
              Mm.entry_mod hxi] at hdiv hmod
            exact hne (Prod.ext (h.exact.table_inj hyd hpy hxd hpres hdiv) hmod)
          rw [hpte]
          exact ⟨rfl, fun _ => rfl⟩
        · rw [Bool.not_eq_true] at hpy
          rw [hpy, Bool.false_and, Bool.false_and]
          exact ⟨rfl, fun hc => absurd hc Bool.false_ne_true⟩
    · have hdirx : m'.word x.1 = entryFor t := by
        rw [hword, if_neg (by omega), if_pos rfl]
      have ht : frameOf (entryFor t) = t := Mm.frameOf_entryFor (by omega)
      refine ⟨by rw [hdirx, Mm.present_entryFor], ?_, fun y hy hne => ?_⟩
      · rw [Memory.pte, hdirx, ht, hword, if_pos rfl]
      · obtain ⟨hyd, hyi⟩ := mem_userEntries.mp hy
        have hylt := mem_userDirs.mp hyd
        by_cases hyx : y.1 = x.1
        · have hold : m.mapped y.1 y.2 = false := by rw [Memory.mapped, hyx, hpres, Bool.false_and]
          have hy2 : y.2 ≠ x.2 := fun hc => hne (Prod.ext hyx hc)
          have hnew : m'.pte y.1 y.2 = 0 := by
            rw [Memory.pte, hyx, hdirx, ht, hword, if_neg (by omega), if_neg (by omega),
              if_pos (Mm.entry_div hyi t)]
          rw [hold, Memory.mapped, hnew]
          exact ⟨Bool.and_false _, fun hc => absurd hc Bool.false_ne_true⟩
        · have hdiry : m'.word y.1 = m.word y.1 := by
            rw [hword, if_neg (by omega), if_neg hyx, if_neg (by omega)]
          rw [Memory.mapped, Memory.mapped, hdiry]
          by_cases hpy : present (m.word y.1) = true
          · have htab := (h.exact.table_mem _ hyd hpy).1
            have hne' : frameOf (m.word y.1) ≠ t := fun hc =>
              Exact.not_usesTable_of_refs hrefs hyd ⟨hpy, hc⟩
            have hpte : m'.pte y.1 y.2 = m.pte y.1 y.2 := by
              rw [Memory.pte, Memory.pte, hdiry, hword, if_neg (by omega), if_neg (by omega),
                if_neg (by rwa [Mm.entry_div hyi])]
            rw [hpte]
            exact ⟨rfl, fun _ => rfl⟩
          · rw [Bool.not_eq_true] at hpy
            rw [hpy, Bool.false_and, Bool.false_and]
            exact ⟨rfl, fun hc => absurd hc Bool.false_ne_true⟩
  obtain ⟨hdir, hpte, hother⟩ := hentry
  refine ⟨fun i hi => ?_, fun a hlo ha => ?_, hdir, fun y hy F hF => ?_⟩
  · by_cases hij : i = j
    · rw [if_pos hij, hij, frameAt_eq_some, ← hxdef]
      exact ⟨hdir, by rw [hpte, Mm.present_entryFor], by rw [hpte, hframe]⟩
    · obtain ⟨h₁, h₂⟩ := hother _ (pageEntry_mem hpos hn hi) fun hc => hij (pageEntry_inj hc)
      rw [if_neg hij, frameAt, frameAt, h₁]
      split_ifs with hm
      · rw [h₂ hm]
      · rfl
  · -- A frame of `held`, or of a page, is no table.
    have hnot : ∀ d ∈ userDirs, present (m.word d) = true → frameOf (m.word d) ≠ a / 1024 := by
      rintro d hd hpd hc
      rcases ha with ha | ⟨y, hy, hm⟩
      · exact h.exact.held_not_table ha hd ⟨hpd, hc⟩
      · exact h.exact.table_not_mapped hd hpd hy (hc ▸ hm)
    rcases hcase with ⟨hpres, hword⟩ | ⟨-, t, htlo, hthi, hrefs, hword⟩
    · have hne := hnot _ hxd hpres
      rw [hword, Memory.store_word_of_ne _ (by omega)]
    · have hne : a / 1024 ≠ t := by
        rintro rfl
        rcases ha with ha | ⟨y, hy, hm⟩
        · exact Exact.not_mem_of_refs hrefs ha
        · exact Exact.not_mapsPage_of_refs hrefs hy hm
      rw [hword, if_neg (by omega), if_neg (by omega), if_neg hne]
  · by_cases hyx : y = x
    · obtain ⟨-, -, hF⟩ := hF
      rw [hyx, hpte, hframe] at hF
      exact .inr ⟨hyx, hF.symm⟩
    · obtain ⟨h₁, h₂⟩ := hother y hy hyx
      obtain ⟨hm, hF⟩ := (Memory.mapsPage_iff_mapped m').mp hF
      rw [h₁] at hm
      rw [h₂ hm] at hF
      exact .inl ((Memory.mapsPage_iff_mapped m).mpr ⟨hm, hF⟩)

/-- The slot is still its own when a frame of `held` has been mapped. -/
theorem map (h : Space n held m) (hpos : 1 ≤ n) (hn : n < 64) (hp : p ∈ held)
    (hm : Mapped n j p held m m')
    (hex : Exact m' (held.erase p)) : Space n (held.erase p) m' where
  exact := hex
  own i hi F hF := by
    rw [hm.frame i hi] at hF
    split_ifs at hF with hij
    · obtain rfl := Option.some.inj hF
      refine ⟨(h.exact.held_mem p hp).1, fun y hy hy' => ?_⟩
      rcases hm.maps y hy p hy' with hold | ⟨rfl, -⟩
      · exact absurd hold (h.exact.held_not_mapped hp hy)
      · rw [hij]
    · obtain ⟨hlo, hown⟩ := h.own i hi F hF
      refine ⟨hlo, fun y hy hy' => ?_⟩
      rcases hm.maps y hy F hy' with hold | ⟨rfl, rfl⟩
      · exact hown y hy hold
      · -- The frame of another page is not one of `held`.
        exact absurd (frameAt_eq_some.mp hF) (h.exact.held_not_mapped hp (pageEntry_mem hpos hn hi))

/-- The bytes of the slot when a frame has been mapped. -/
theorem userByte_map (h : Space n held m) (hpos : 1 ≤ n) (hn : n < 64) (hp : p ∈ held)
    (hm : Mapped n j p held m m') {off : ℕ} (hoff : off < 0x4000000) : userByte n m' off =
      if off / 4096 = j then peekByte (p * 4096 + off % 4096) m else userByte n m off := by
  have hplt := h.exact.held_mem p hp
  rw [userByte, userByte, hm.frame _ (by omega)]
  by_cases hj : off / 4096 = j
  · rw [if_pos hj, if_pos hj]
    dsimp only
    rw [peekByte, peekByte, hm.word _ (by omega) (.inl ?_)]
    rwa [show (p * 4096 + off % 4096) / 4 / 1024 = p by omega]
  · rw [if_neg hj, if_neg hj]
    cases hF : frameAt n m (off / 4096) with
    | none => rfl
    | some F =>
      obtain ⟨hlo, -⟩ := h.own _ (by omega) F hF
      dsimp only
      rw [peekByte, peekByte, hm.word _ (by omega) (.inr ⟨_, pageEntry_mem hpos hn
        (by omega : off / 4096 < 16384), ?_⟩)]
      rw [show (F * 4096 + off % 4096) / 4 / 1024 = F by omega]
      exact frameAt_eq_some.mp hF

/-- `put_page`, when the table is there or a frame for it. -/
theorem putPage (h : Space n held m) (hpos : 1 ≤ n) (hn : n < 64) (hj : j < 16384) (hp : p ∈ held)
    (habs : frameAt n m j = none) {address : Word}
    (haddr : (dirOf address, indexOf address) = pageEntry n j)
    (hroom : (if present (m.word (pageEntry n j).1) then 0 else 1) ≤ m.freeFrames) :
    ∃ m', m.putPage (p * 4096) address = (true, m') ∧ Space n (held.erase p) m' ∧
      Mapped n j p held m m' ∧
      m'.freeFrames + (if present (m.word (pageEntry n j).1) then 0 else 1) = m.freeFrames := by
  have hx := pageEntry_mem hpos hn hj
  rw [frameAt_eq_none] at habs
  have hmapped := @mapped_of_word n j p held m (m.putPage (p * 4096) address).2 h hpos hn hj hp
  rw [← haddr] at hx habs hmapped hroom ⊢
  dsimp only at habs hmapped hroom ⊢
  obtain ⟨hd, -⟩ := mem_userEntries.mp hx
  rcases h.exact.putPage hp hd fun hpres => by
      rwa [Memory.mapped, hpres, Bool.true_and] at habs with ⟨hput, hg⟩ | ⟨m', hput, hex, hcase⟩
  · -- Without a table, and without a frame for it.
    rw [Memory.getFreePage_eq_none_iff] at hg
    have hpres : present (m.word (dirOf address)) = true := by
      by_contra hc
      rw [if_neg hc] at hroom
      omega
    rw [Memory.putPage, if_pos hpres] at hput
    cases hput
  · rw [hput] at hmapped
    have hm := hmapped hcase
    refine ⟨m', hput, h.map hpos hn hp hm hex, hm, ?_⟩
    rw [Memory.putPage] at hput
    split_ifs at hput with hpres
    · obtain rfl := (Prod.mk.inj hput).2
      rw [if_pos hpres, Memory.freeFrames_store, Nat.add_zero]
    · rw [if_neg hpres]
      cases hg : m.getFreePage with
      | none =>
        rw [hg] at hput
        cases hput
      | some r =>
        rw [hg] at hput
        have hless := Memory.freeFrames_getFreePage (hg : m.getFreePage = some (r.1, r.2))
        obtain rfl := (Prod.mk.inj hput).2
        exact hless

/-- The frames that a page takes, with a table if it is missing. -/
def cost (n : ℕ) (m : Memory) (j : ℕ) : ℕ := if present (m.word (pageEntry n j).1) then 1 else 2

/-- The entries that are mapped decide which frames a process has. -/
theorem congr (h : Space n held m) (hpos : 1 ≤ n) (hn : n < 64) {held' : Finset ℕ}
    (hex : Exact m' held') (hmaps : ∀ y ∈ userEntries, ∀ F, m'.MapsPage F y ↔ m.MapsPage F y) :
    Space n held' m' ∧ ∀ i < 16384, frameAt n m' i = frameAt n m i := by
  have hframe : ∀ i < 16384, frameAt n m' i = frameAt n m i := fun i hi => by
    refine Option.ext fun F => ?_
    rw [frameAt_eq_some, frameAt_eq_some]
    exact hmaps _ (pageEntry_mem hpos hn hi) F
  refine ⟨⟨hex, fun i hi F hF => ?_⟩, hframe⟩
  obtain ⟨hF', hown⟩ := h.own i hi F ((hframe i hi).symm.trans hF)
  exact ⟨hF', fun y hy hm => hown y hy ((hmaps y hy F).mp hm)⟩

/-- A frame that has been got shows nothing yet. -/
theorem getFreePage (h : Space n held m) (hpos : 1 ≤ n) (hn : n < 64) {page : ℕ}
    (hg : m.getFreePage = some (page, m')) : ∃ p, page = p * 4096 ∧ p ∉ held ∧
      Space n (insert p held) m' ∧ (∀ i < 16384, frameAt n m' i = frameAt n m i) ∧
      (∀ off < 0x4000000, userByte n m' off = userByte n m off) ∧
      (∀ d < 1024, m'.word d = m.word d) ∧ ∀ q < 4096, peekByte (p * 4096 + q) m' = 0 := by
  obtain ⟨p, rfl, hlo, hhi, hrefs, hex, -, hword⟩ := h.exact.getFreePage hg
  have hdir : ∀ d < 1024, m'.word d = m.word d := fun d hd => by rw [hword, if_neg (by omega)]
  have hmaps : ∀ y ∈ userEntries, ∀ F, m'.MapsPage F y ↔ m.MapsPage F y := fun y hy F => by
    obtain ⟨hyd, hyi⟩ := mem_userEntries.mp hy
    rw [Memory.MapsPage, Memory.MapsPage, hdir _ (mem_userDirs.mp hyd).2]
    refine and_congr_right fun hp => ?_
    have hne : frameOf (m.word y.1) ≠ p := fun hc => Exact.not_usesTable_of_refs hrefs hyd ⟨hp, hc⟩
    rw [Memory.pte, Memory.pte, hdir _ (mem_userDirs.mp hyd).2, hword,
      if_neg (by rwa [Mm.entry_div hyi])]
  obtain ⟨hspace, hframe⟩ := h.congr hpos hn hex hmaps
  refine ⟨p, rfl, Exact.not_mem_of_refs hrefs, hspace, hframe, fun off hoff => ?_, hdir,
    fun q hq => ?_⟩
  · rw [userByte, userByte, hframe _ (by omega)]
    cases hF : frameAt n m (off / 4096) with
    | none => rfl
    | some F =>
      have hm := frameAt_eq_some.mp hF
      have hne : F ≠ p := by
        rintro rfl
        exact Exact.not_mapsPage_of_refs hrefs (pageEntry_mem hpos hn (by omega)) hm
      dsimp only
      rw [peekByte, peekByte, hword, if_neg (by omega)]
  · rw [peekByte, hword, if_pos (by omega)]
    exact Mm.byteOf_zero _

/-- `put_page` maps nothing when it finds no frame for the table. -/
theorem putPage_of_full {d page : ℕ} {address : Word} (hd : dirOf address = d)
    (habs : present (m.word d) = false) (hfull : m.freeFrames = 0) :
    m.putPage page address = (false, m) := by
  rw [Memory.putPage, hd, habs, if_neg Bool.false_ne_true, Memory.getFreePage_eq_none_iff.mpr hfull]

/-- `do_no_page` brings in a page of zeros. -/
theorem doNoPage (h : Space n held m) (hpos : 1 ≤ n) (hn : n < 64) (hj : j < 16384)
    (habs : frameAt n m j = none) {address : Word}
    (haddr : (dirOf address, indexOf address) = pageEntry n j) :
    (cost n m j ≤ m.freeFrames → ∃ m', m.doNoPage address = .ok m') ∧
      ∀ m', m.doNoPage address = .ok m' → Space n held m' ∧
        (∀ i < 16384, (frameAt n m' i).isSome = (decide (i = j) || (frameAt n m i).isSome)) ∧
        (∀ off < 0x4000000, userByte n m' off = userByte n m off) ∧
        present (m'.word (pageEntry n j).1) = true ∧
        m'.freeFrames + cost n m j = m.freeFrames := by
  have hx := mem_userEntries.mp (pageEntry_mem hpos hn hj)
  rw [cost]
  cases hg : m.getFreePage with
  | none =>
    have hzero := Memory.getFreePage_eq_none_iff.mp hg
    rw [Memory.doNoPage, hg]
    refine ⟨fun hc => absurd hc ?_, fun m' hok => by cases hok⟩
    split_ifs <;> omega
  | some r =>
    obtain ⟨page, m₁⟩ := r
    have hfree := Memory.freeFrames_getFreePage hg
    obtain ⟨p, rfl, hp, h₁, hframe, hbyte, hdir, hzero⟩ := h.getFreePage hpos hn hg
    have hdirx := hdir (pageEntry n j).1 (mem_userDirs.mp hx.1).2
    rw [Memory.doNoPage, hg]
    dsimp only
    by_cases hroom : (if present (m₁.word (pageEntry n j).1) then 0 else 1) ≤ m₁.freeFrames
    · obtain ⟨m₂, hput, h₂, hm, hfree₂⟩ := h₁.putPage hpos hn hj (Finset.mem_insert_self p held)
        ((hframe j hj).trans habs) haddr hroom
      rw [hput]
      refine ⟨fun _ => ⟨m₂, rfl⟩, fun m' hok => ?_⟩
      obtain rfl := Except.ok.inj hok
      rw [Finset.erase_insert hp] at h₂
      refine ⟨h₂, fun i hi => ?_, fun off hoff => ?_, hm.dir, ?_⟩
      · rw [hm.frame i hi, hframe i hi]
        by_cases hij : i = j <;> simp [hij]
      · rw [h₁.userByte_map hpos hn (Finset.mem_insert_self p held) hm hoff, hbyte off hoff]
        split_ifs with hoj
        · rw [hzero _ (Nat.mod_lt _ (by norm_num)), userByte, hoj, habs]
        · rfl
      · rw [hdirx] at hfree₂
        split_ifs at hfree₂ ⊢ <;> omega
    · -- There is no frame for the table.
      rw [hdirx] at hroom
      have hpres : present (m.word (pageEntry n j).1) = false := by
        by_contra hc
        rw [Bool.not_eq_false] at hc
        rw [if_pos hc] at hroom
        omega
      rw [hpres, if_neg Bool.false_ne_true] at hroom
      rw [putPage_of_full (congrArg Prod.fst haddr) (hdirx ▸ hpres) (by omega), hpres,
        if_neg Bool.false_ne_true]
      exact ⟨fun hc => absurd hc (by omega), fun m' hok => by cases hok⟩

/-- A store to a page of the slot. -/
theorem storeByte (h : Space n held m) (hpos : 1 ≤ n) (hn : n < 64) {off F : ℕ}
    (hoff : off < 0x4000000) (hF : frameAt n m (off / 4096) = some F) (b : Byte) :
    Space n held (storeByte b (linear n off) m) ∧
      (∀ i < 16384, frameAt n (Exec.storeByte b (linear n off) m) i = frameAt n m i) ∧
      (∀ o < 0x4000000, userByte n (Exec.storeByte b (linear n off) m) o =
        if o = off then b else userByte n m o) ∧
      (∀ d < 1024, (Exec.storeByte b (linear n off) m).word d = m.word d) ∧
      (Exec.storeByte b (linear n off) m).freeFrames = m.freeFrames := by
  have hj : off / 4096 < 16384 := by omega
  have hx := pageEntry_mem hpos hn hj
  have hmaps := frameAt_eq_some.mp hF
  obtain ⟨hlo, hown⟩ := h.own _ hj F hF
  obtain ⟨hat, hmod⟩ := wordOf_linear hn hoff hF
  have hpoke : Exec.storeByte b (linear n off) m = Exec.pokeByte (F * 4096 + off % 4096) b m := by
    rw [Exec.storeByte, Exec.pokeByte, hat, hmod]
  rw [hpoke]
  have hword : ∀ a, a / 1024 ≠ F → (Exec.pokeByte (F * 4096 + off % 4096) b m).word a = m.word a :=
    fun a ha => pokeByte_word_of_ne (by omega) b m
  have hdir : ∀ d < 1024, (Exec.pokeByte (F * 4096 + off % 4096) b m).word d = m.word d :=
    fun d hd => hword d (by omega)
  have hsame : ∀ y ∈ userEntries, ∀ G,
      (Exec.pokeByte (F * 4096 + off % 4096) b m).MapsPage G y ↔ m.MapsPage G y := fun y hy G => by
    obtain ⟨hyd, hyi⟩ := mem_userEntries.mp hy
    rw [Memory.MapsPage, Memory.MapsPage, hdir _ (mem_userDirs.mp hyd).2]
    refine and_congr_right fun hp => ?_
    rw [Memory.pte, Memory.pte, hdir _ (mem_userDirs.mp hyd).2, hword]
    rw [Mm.entry_div hyi]
    exact fun hc => h.exact.table_not_mapped hyd hp hx (hc ▸ hmaps)
  have hex : Exact (Exec.pokeByte (F * 4096 + off % 4096) b m) held :=
    h.exact.of_page hx hmaps (by omega) rfl hword
  obtain ⟨hspace, hframe⟩ := h.congr hpos hn hex hsame
  refine ⟨hspace, hframe, fun o ho => ?_, hdir, Memory.freeFrames_store m _ _⟩
  · rw [userByte, userByte, hframe _ (by omega)]
    cases hG : frameAt n m (o / 4096) with
    | none =>
      rw [if_neg]
      rintro rfl
      cases hG.symm.trans hF
    | some G =>
      dsimp only
      rw [peekByte_pokeByte]
      refine if_congr ⟨fun heq => ?_, ?_⟩ rfl rfl
      · -- Two pages of the slot are in different frames.
        have hGF : G = F := by omega
        have hentry := hown _ (pageEntry_mem hpos hn (by omega : o / 4096 < 16384))
          (frameAt_eq_some.mp (hGF ▸ hG))
        have := pageEntry_inj hentry
        omega
      · rintro rfl
        rw [hF] at hG
        obtain rfl := Option.some.inj hG
        rfl

end Space

/-! ### The data segment -/

/-- The data segment of the process is the slot `n`, and has these bytes. -/
structure Segment (n : ℕ) (F : ℕ → Byte) (s : State) : Prop where
  pos : 1 ≤ n
  lt : n < 64
  base : s.proc.data.getBase = linear n 0
  size : s.proc.data.size = 0x4000000
  space : ∃ held, Space n held s.mem
  byte : ∀ off < 0x4000000, userByte n s.mem off = F off

/-- There are frames for the pages of `R`, which are among those of the last table of the slot, and
for this table. -/
structure Enough (n : ℕ) (R : Finset ℕ) (m : Memory) : Prop where
  last : ∀ j ∈ R, 15360 ≤ j ∧ j < 16384
  le : (R.filter fun j => frameAt n m j = none).card +
    (if present (m.word (16 * n + 15)) then 0 else 1) ≤ m.freeFrames

section Access

variable {n off : ℕ} {F : ℕ → Byte} {s : State}

private theorem enough_card {R : Finset ℕ} {m m' : Memory} {j : ℕ} (hR : Enough n R m)
    (hj : j < 16384) (habs : frameAt n m j = none)
    (hframe : ∀ i < 16384, (frameAt n m' i).isSome = (decide (i = j) || (frameAt n m i).isSome))
    (hdir : present (m'.word (pageEntry n j).1) = true)
    (hfree : m'.freeFrames + Space.cost n m j = m.freeFrames) (hmem : j ∈ R) : Enough n R m' := by
  refine ⟨hR.last, ?_⟩
  have hle := hR.le
  have hlast := hR.last j hmem
  have htop : (pageEntry n j).1 = 16 * n + 15 := by
    rw [pageEntry]
    dsimp only
    omega
  have herase : (R.filter fun i => frameAt n m' i = none) =
      (R.filter fun i => frameAt n m i = none).erase j := by
    ext i
    rw [Finset.mem_erase, Finset.mem_filter, Finset.mem_filter, ← Option.isNone_iff_eq_none,
      ← Option.isNone_iff_eq_none]
    refine ⟨fun ⟨hi, hno⟩ => ?_, fun ⟨hne, hi, hno⟩ => ⟨hi, ?_⟩⟩
    · have hiff := hframe i (hR.last i hi).2
      rw [← Option.not_isSome, hiff] at hno
      simp only [Bool.not_or, Bool.and_eq_true, Bool.not_eq_true', decide_eq_false_iff_not] at hno
      exact ⟨hno.1, hi, by rw [← Option.not_isSome, hno.2]; rfl⟩
    · have hiff := hframe i (hR.last i hi).2
      rw [← Option.not_isSome] at hno ⊢
      rw [hiff, decide_eq_false hne, Bool.false_or]
      exact hno
  have hin : j ∈ R.filter fun i => frameAt n m i = none := Finset.mem_filter.mpr ⟨hmem, habs⟩
  have hcard := Finset.card_erase_add_one hin
  rw [htop] at hdir
  rw [Space.cost, htop] at hfree
  rw [herase, if_pos hdir]
  split_ifs at hfree hle <;> omega

/-- An access of the kernel to the data segment: the page is there afterwards. It does not fail when
there are enough frames. -/
theorem Segment.access (h : Segment n F s) (hoff : off < 0x4000000) :
    Ensures (access (BitVec.ofNat 32 off)) s (fun a s' => a = linear n off ∧ Segment n F s' ∧
      (frameAt n s'.mem (off / 4096)).isSome = true ∧
      ∀ R, off / 4096 ∈ R → Enough n R s.mem → Enough n R s'.mem) ∧
    ∀ R, off / 4096 ∈ R → Enough n R s.mem →
      ∃ r, Exec.access (BitVec.ofNat 32 off) s = .ok r := by
  obtain ⟨held, hspace⟩ := h.space
  have hj : off / 4096 < 16384 := by omega
  have hnat : (BitVec.ofNat 32 off).toNat = off := by
    rw [BitVec.toNat_ofNat, Nat.mod_eq_of_lt (by omega)]
  have haddr : s.proc.data.getBase + BitVec.ofNat 32 off = linear n off := by
    rw [h.base, linear, linear, add_zero, ← BitVec.ofNat_add]
  have hentry := pageEntry_linear h.lt hoff
  have hstep : Exec.access (BitVec.ofNat 32 off) s =
      ((Mm.mm (fetch (linear n off) s.mem)).mapError Stop.mm).map fun m =>
        (linear n off, { s with mem := m }) := by
    rw [← haddr]
    change (if (BitVec.ofNat 32 off).toNat < s.proc.data.size then _ else _ : K Word) s = _
    rw [if_pos (by rw [hnat, h.size]; exact hoff)]
    change (onMem _ s >>= fun p => .ok (_, p.2)) = _
    rw [onMem]
    cases (Mm.mm (fetch (s.proc.data.getBase + BitVec.ofNat 32 off) s.mem)).mapError Stop.mm <;> rfl
  have hdir : dirOf (linear n off) = (pageEntry n (off / 4096)).1 := congrArg Prod.fst hentry
  have hindex : indexOf (linear n off) = (pageEntry n (off / 4096)).2 := congrArg Prod.snd hentry
  rw [fetch, hdir, hindex] at hstep
  by_cases hm : s.mem.mapped (pageEntry n (off / 4096)).1 (pageEntry n (off / 4096)).2 = true
  · rw [if_pos hm] at hstep
    refine ⟨fun a s' hs' => ?_, fun _ _ _ => ⟨_, hstep⟩⟩
    obtain ⟨rfl, rfl⟩ := Prod.mk.inj (Except.ok.inj (hstep.symm.trans hs'))
    refine ⟨rfl, h, ?_, fun _ _ => id⟩
    rw [frameAt, if_pos hm]
    rfl
  · rw [if_neg hm] at hstep
    have habs : frameAt n s.mem (off / 4096) = none := by rw [frameAt, if_neg hm]
    obtain ⟨hok, hspec⟩ := hspace.doNoPage h.pos h.lt hj habs hentry
    refine ⟨fun a s' hs' => ?_, fun R hR hE => ?_⟩
    · rw [hstep] at hs'
      obtain ⟨m, hm', heq⟩ := map_eq_ok.mp hs'
      obtain ⟨rfl, rfl⟩ := Prod.mk.inj heq
      cases hd : s.mem.doNoPage (linear n off) with
      | error e =>
        rw [hd] at hm'
        cases hm'
      | ok m₁ =>
        rw [hd] at hm'
        obtain rfl : m₁ = m := Except.ok.inj hm'
        obtain ⟨hspace', hframe, hbyte, hdir, hfree⟩ := hspec m₁ hd
        refine ⟨rfl, ⟨h.pos, h.lt, h.base, h.size, ⟨held, hspace'⟩, fun o ho => ?_⟩, ?_,
          fun R hR hE => ?_⟩
        · exact (hbyte o ho).trans (h.byte o ho)
        · rw [hframe _ hj, decide_eq_true rfl, Bool.true_or]
        · exact enough_card hE hj habs hframe hdir hfree hR
    · -- One page is missing, and perhaps the table.
      have hcost : Space.cost n s.mem (off / 4096) ≤ s.mem.freeFrames := by
        have hlast := hE.last _ hR
        have hle := hE.le
        have htop : (pageEntry n (off / 4096)).1 = 16 * n + 15 := by
          rw [pageEntry]
          dsimp only
          omega
        have hin : off / 4096 ∈ R.filter fun i => frameAt n s.mem i = none :=
          Finset.mem_filter.mpr ⟨hR, habs⟩
        have hpos := Finset.card_pos.mpr ⟨_, hin⟩
        rw [Space.cost, htop]
        split_ifs at hle ⊢ <;> omega
      obtain ⟨m, hm'⟩ := hok hcost
      rw [hm'] at hstep
      exact ⟨_, hstep⟩

/-- `get_fs_byte` returns a byte of the segment. -/
theorem Segment.getFsByte (h : Segment n F s) (hoff : off < 0x4000000) :
    Ensures (getFsByte (BitVec.ofNat 32 off)) s fun b s' => b = F off ∧ Segment n F s' ∧
      ∀ R, off / 4096 ∈ R → Enough n R s.mem → Enough n R s'.mem := by
  refine (h.access hoff).1.bind fun a s₁ ⟨ha, h₁, hframe, hE⟩ => ?_
  obtain ⟨G, hG⟩ := Option.isSome_iff_exists.mp hframe
  obtain ⟨hat, hmod⟩ := wordOf_linear h.lt hoff hG
  intro b s' hs'
  obtain ⟨rfl, rfl⟩ := Prod.mk.inj (Except.ok.inj hs')
  refine ⟨?_, h₁, hE⟩
  rw [ha, hat, hmod, ← h₁.byte off hoff, userByte, hG]
  rfl

/-- `put_fs_byte` changes a byte of the segment. -/
theorem Segment.putFsByte (h : Segment n F s) (hoff : off < 0x4000000) (b : Byte) :
    Ensures (putFsByte b (BitVec.ofNat 32 off)) s fun _ s' =>
      Segment n (Function.update F off b) s' ∧
        ∀ R, off / 4096 ∈ R → Enough n R s.mem → Enough n R s'.mem := by
  refine (h.access hoff).1.bind fun a s₁ ⟨ha, h₁, hframe, hE⟩ => ensures_modify.mpr ?_
  obtain ⟨G, hG⟩ := Option.isSome_iff_exists.mp hframe
  obtain ⟨held, hspace⟩ := h₁.space
  obtain ⟨hspace', hframe', hbyte, hdir, hfree⟩ := hspace.storeByte h.pos h.lt hoff hG b
  rw [ha]
  refine ⟨⟨h₁.pos, h₁.lt, h₁.base, h₁.size, ⟨held, hspace'⟩, fun o ho => ?_⟩, fun R hR hER => ?_⟩
  · dsimp only
    rw [hbyte o ho, Function.update_apply, h₁.byte o ho]
  · obtain ⟨hlast, hle⟩ := hE R hR hER
    refine ⟨hlast, ?_⟩
    dsimp only
    rw [hfree, hdir _ (by have := h.lt; omega),
      Finset.filter_congr fun i hi => by rw [hframe' i (hlast i hi).2]]
    exact hle

end Access

/-! ### Sequences of bytes -/

/-- The bytes of the segment, when there are frames for the pages of `R`. -/
structure Supplied (n : ℕ) (R : Finset ℕ) (F : ℕ → Byte) (s : State) : Prop extends
    Segment n F s where
  enough : Enough n R s.mem

section Bytes

variable {n off len : ℕ} {R : Finset ℕ} {F f : ℕ → Byte} {s : State}

theorem Supplied.getFsByte (h : Supplied n R F s) (hoff : off < 0x4000000) (hR : off / 4096 ∈ R) :
    Succeeds (getFsByte (BitVec.ofNat 32 off)) s fun b s' => b = F off ∧ Supplied n R F s' := by
  obtain ⟨⟨a, s₁⟩, hok⟩ := (h.toSegment.access hoff).2 R hR h.enough
  refine Ensures.succeeds ((h.toSegment.getFsByte hoff).mono fun b s' ⟨hb, hs', hE⟩ =>
    ⟨hb, hs', hE R hR h.enough⟩)
    ⟨(byteOf (s₁.mem.word (s₁.mem.wordOf a)) (a.toNat % 4), s₁), ?_⟩
  change (Exec.access _ s >>= _) = _
  rw [hok]
  rfl

theorem Supplied.putFsByte (h : Supplied n R F s) (hoff : off < 0x4000000) (hR : off / 4096 ∈ R)
    (b : Byte) : Succeeds (putFsByte b (BitVec.ofNat 32 off)) s fun _ s' =>
      Supplied n R (Function.update F off b) s' := by
  obtain ⟨⟨a, s₁⟩, hok⟩ := (h.toSegment.access hoff).2 R hR h.enough
  refine Ensures.succeeds ((h.toSegment.putFsByte hoff b).mono fun _ s' ⟨hs', hE⟩ =>
    ⟨hs', hE R hR h.enough⟩) ⟨(⟨⟩, { s₁ with mem := storeByte b a s₁.mem }), ?_⟩
  change (Exec.access _ s >>= _) = _
  rw [hok]
  rfl

/-- A loop that stores bytes one after the other. -/
theorem Segment.putBytes (h : Segment n F s) (hoff : off + len ≤ 0x4000000) :
    Ensures ((List.range len).forM fun i =>
      Exec.putFsByte (f i) (BitVec.ofNat 32 off + BitVec.ofNat 32 i)) s
      fun _ s' => Segment n (overlay F off len f) s' := by
  refine ensures_forM_range (fun k s' => Segment n (overlay F off k f) s')
    (by rwa [overlay_zero]) fun k hk s' hs' => ?_
  rw [← BitVec.ofNat_add, ← overlay_succ]
  exact (hs'.putFsByte (by omega) (f k)).mono fun _ _ => And.left

theorem Supplied.putBytes (h : Supplied n R F s) (hoff : off + len ≤ 0x4000000)
    (hR : ∀ o, off ≤ o → o < off + len → o / 4096 ∈ R) :
    Succeeds ((List.range len).forM fun i =>
      Exec.putFsByte (f i) (BitVec.ofNat 32 off + BitVec.ofNat 32 i)) s
      fun _ s' => Supplied n R (overlay F off len f) s' := by
  refine succeeds_forM_range (fun k s' => Supplied n R (overlay F off k f) s')
    (by rwa [overlay_zero]) fun k hk s' hs' => ?_
  rw [← BitVec.ofNat_add, ← overlay_succ]
  exact hs'.putFsByte (by omega) (hR _ (by omega) (by omega)) (f k)

end Bytes

end Linux001.Exec
