import Linux001.Exec.Header
import Linux001.Exec.UserSpace

/-!
# The address space of a new program

At the point of no return `do_execve` releases the pages and the tables of the old program. The
slot of the process is empty then, and `change_ldt` maps the pages with the argument strings at
its end. They are frames that nothing else refers to, so that the slot is not shared.

## Main definitions

* `frames`: the frames of the pages with the strings.
* `Ready`: a process that may call `do_execve`.
* `imageOf`, `Prepared`: the data segment when only the strings are there.

## Main results

* `Taken.exact`: the kernel holds the frames of the strings, and no other ones besides those before.
* `Ready.giveUp`, `Space.putPages`: the slot is emptied, and the pages of the strings are mapped.
* `Emptied.changeLdt`: the data segment of the new program.
-/

namespace Linux001.Mm

/-! ### Counters that do not grow -/

namespace Memory

variable {m m' : Memory}

theorem freePage_le {addr : ℕ} (h : m.freePage addr = .ok m') (k : ℕ) :
    m'.memMap k ≤ m.memMap k := by
  rw [freePage] at h
  split_ifs at h
  · obtain rfl := Except.ok.inj h
    exact le_rfl
  · obtain rfl := Except.ok.inj h
    rw [setMap]
    dsimp only
    rw [Function.update_apply]
    split_ifs with hk
    · rw [hk]
      exact Nat.sub_le _ _
    · exact le_rfl

theorem foldlM_le {f : Memory → ℕ → Except Halt Memory}
    (hf : ∀ m i m', f m i = .ok m' → ∀ k, m'.memMap k ≤ m.memMap k) :
    ∀ (l : List ℕ) {m m' : Memory}, l.foldlM f m = .ok m' → ∀ k, m'.memMap k ≤ m.memMap k
  | [], m, m', h, k => by
    obtain rfl := Except.ok.inj h
    exact le_rfl
  | i :: l, m, m', h, k => by
    rw [List.foldlM_cons] at h
    obtain ⟨m₁, h₁, h₂⟩ := bind_eq_ok.mp h
    exact (foldlM_le hf l h₂ k).trans (hf m i m₁ h₁ k)

theorem freeEntry_le {a : ℕ} (h : m.freeEntry a = .ok m') (k : ℕ) : m'.memMap k ≤ m.memMap k := by
  rw [freeEntry] at h
  split_ifs at h
  · obtain ⟨m₁, h₁, h⟩ := bind_eq_ok.mp h
    obtain rfl := Except.ok.inj h
    exact freePage_le h₁ k
  · obtain rfl := Except.ok.inj h
    exact le_rfl

theorem freeDir_le {d : ℕ} (h : m.freeDir d = .ok m') (k : ℕ) : m'.memMap k ≤ m.memMap k := by
  rw [freeDir] at h
  split_ifs at h
  · obtain ⟨m₁, h₁, h⟩ := bind_eq_ok.mp h
    obtain ⟨m₂, h₂, h⟩ := bind_eq_ok.mp h
    obtain rfl := Except.ok.inj h
    rw [store_memMap]
    exact (freePage_le h₂ k).trans (foldlM_le (fun _ _ _ hf => freeEntry_le hf) _ h₁ k)
  · obtain rfl := Except.ok.inj h
    exact le_rfl

/-- Releasing tables makes no frame less free. -/
theorem freeFrames_freePageTables {from' size : Word} (h : m.freePageTables from' size = .ok m') :
    m.freeFrames ≤ m'.freeFrames := by
  rw [freePageTables] at h
  split_ifs at h
  have hle := foldlM_le (fun _ _ _ hf => freeDir_le hf) _ h
  refine Finset.card_le_card fun k hk => ?_
  obtain ⟨hk, hzero⟩ := Finset.mem_filter.mp hk
  exact Finset.mem_filter.mpr ⟨hk, Nat.le_zero.mp (hzero ▸ hle k)⟩

end Memory

/-- Releasing tables leaves the frames of the kernel alone. -/
theorem Exact.freePageTables_held {m m' : Memory} {held : Finset ℕ} (h : Exact m held)
    {from' size : Word} (halign : from'.toNat % 2 ^ 22 = 0) (hlo : 16 ≤ dirOf from')
    (hhi : dirOf from' + Memory.dirCount size ≤ 1024) (hok : m.freePageTables from' size = .ok m')
    {a : ℕ} (ha : a / 1024 ∈ held) : m'.word a = m.word a := by
  obtain ⟨m₁, hok₁, -, -, hword⟩ := h.freePageTables_ok halign hlo hhi
  obtain rfl := Except.ok.inj (hok₁.symm.trans hok)
  have hlow := (h.held_mem _ ha).1
  refine hword a fun j hj => ⟨by omega, fun hp hc => ?_⟩
  exact h.held_not_table ha (mem_userDirs.mpr ⟨by omega, by omega⟩) ⟨hp, hc.symm⟩

end Linux001.Mm

namespace Linux001.Exec

open Mm (Memory Word Exact Pages maxArgPages pagingPages dirOf indexOf frameOf present userDirs
  userEntries linear mem_userDirs mem_userEntries)

/-! ### The pages of the strings -/

/-- The frames of the pages of the area. -/
def frames (a : Pages) : Finset ℕ := (got a).image fun i => a.page i / 4096

namespace Taken

variable {m₀ : Memory} {a : Pages} {held : Finset ℕ} {p : ℕ}

theorem mem_frames (h : Taken m₀ a) : p ∈ frames a ↔ ∃ i, a.page i ≠ 0 ∧ a.page i = p * 4096 := by
  rw [frames, Finset.mem_image]
  constructor
  · rintro ⟨i, hi, rfl⟩
    have hi := (Finset.mem_filter.mp hi).2
    obtain ⟨q, hq, -⟩ := h.frame i hi
    exact ⟨i, hi, by rw [hq, Nat.mul_div_cancel _ (by norm_num)]⟩
  · rintro ⟨i, hi, hp⟩
    refine ⟨i, Finset.mem_filter.mpr ⟨Finset.mem_range.mpr (h.lt_of_page hi), hi⟩, ?_⟩
    rw [hp, Nat.mul_div_cancel _ (by norm_num)]

/-- The frames of the area were free. -/
theorem frames_free (h : Taken m₀ a) (hp : p ∈ frames a) :
    512 ≤ p ∧ p < 2048 ∧ m₀.memMap (p - 512) = 0 ∧ a.mem.memMap (p - 512) = 1 := by
  obtain ⟨i, hi, hpage⟩ := h.mem_frames.mp hp
  obtain ⟨q, hq, hlo, hhi, hfree⟩ := h.frame i hi
  have hqp : q = p := by omega
  subst hqp
  exact ⟨hlo, hhi, hfree, h.count i q hpage (by omega)⟩

/-- The kernel holds the frames of the area. -/
theorem exact (h : Taken m₀ a) (hex : Exact m₀ held) : Exact a.mem (held ∪ frames a) := by
  have hdir : ∀ d < 1024 * 512, a.mem.word d = m₀.word d := fun d hd => h.word d (by omega)
  -- No table is in a frame that was free.
  have htable : ∀ d ∈ userDirs, present (m₀.word d) = true → ∀ i < 1024,
      a.mem.pte d i = m₀.pte d i := fun d hd hp i hi => by
    have hlt := mem_userDirs.mp hd
    rw [Memory.pte, Memory.pte, hdir d (by omega), h.word]
    rw [Mm.entry_div hi]
    rintro ⟨hlo, hhi, hfree⟩
    rw [hex.count _ hlo hhi, hex.sole d hd hp] at hfree
    exact one_ne_zero hfree
  have hmaps : ∀ y ∈ userEntries, ∀ F, a.mem.MapsPage F y ↔ m₀.MapsPage F y := fun y hy F => by
    obtain ⟨hyd, hyi⟩ := mem_userEntries.mp hy
    have hlt := mem_userDirs.mp hyd
    rw [Memory.MapsPage, Memory.MapsPage, hdir _ (by omega)]
    refine and_congr_right fun hp => ?_
    rw [htable _ hyd hp _ hyi]
  have huses : ∀ d ∈ userDirs, ∀ F, a.mem.UsesTable F d ↔ m₀.UsesTable F d := fun d hd F => by
    have hlt := mem_userDirs.mp hd
    rw [Memory.UsesTable, Memory.UsesTable, hdir _ (by omega)]
  have hfree : ∀ q ∈ frames a, m₀.refs held q = 0 := fun q hq => by
    obtain ⟨hlo, hhi, hzero, -⟩ := h.frames_free hq
    rw [← hex.count q hlo hhi, hzero]
  have hrefs : ∀ q, a.mem.refs (held ∪ frames a) q =
      m₀.refs held q + if q ∈ frames a then 1 else 0 := fun q => by
    rw [Memory.refs, Memory.refs, Finset.filter_congr fun y hy => hmaps y hy q,
      Finset.filter_congr fun d hd => huses d hd q]
    by_cases hq : q ∈ frames a
    · rw [if_pos (Finset.mem_union_right _ hq), if_pos hq,
        if_neg (Exact.not_mem_of_refs (hfree q hq))]
    · rw [if_neg hq, if_congr (Finset.mem_union.trans (or_iff_left hq)) rfl rfl]
      rfl
  refine ⟨fun d hd => ?_, fun y hy hp hp' => ?_, fun q hq => ?_, fun q hlo hhi => ?_,
    fun d hd hp => ?_,
    fun q hq => ?_, fun x hx y hy q hq hxq hyq => ?_, ?_, fun i hi => ?_⟩
  · rw [hdir d (by have := mem_userDirs.mp hd; omega)]
    exact hex.table_mem d hd
  · obtain ⟨hyd, hyi⟩ := mem_userEntries.mp hy
    have hlt := mem_userDirs.mp hyd
    rw [hdir _ (by omega)] at hp
    rw [htable _ hyd hp _ hyi] at hp' ⊢
    exact hex.page_lt y hy hp hp'
  · rcases Finset.mem_union.mp hq with hq | hq
    · exact hex.held_mem q hq
    · exact ⟨(h.frames_free hq).1, (h.frames_free hq).2.1⟩
  · rw [hrefs]
    by_cases hq : q ∈ frames a
    · rw [if_pos hq, hfree q hq, (h.frames_free hq).2.2.2]
    · rw [if_neg hq, add_zero, ← hex.count q hlo hhi]
      refine h.other _ fun i hi => hq (h.mem_frames.mpr ⟨i, ?_, ?_⟩)
      · omega
      · rw [hi, Nat.sub_add_cancel hlo]
  · rw [hdir d (by have := mem_userDirs.mp hd; omega)] at hp ⊢
    have hsole := hex.sole d hd hp
    rw [hrefs, hsole, if_neg]
    intro hq
    rw [hfree _ hq] at hsole
    exact zero_ne_one hsole
  · rw [hrefs]
    by_cases hq' : q ∈ frames a
    · rw [if_pos hq', hfree q hq']
    · rw [if_neg hq', hex.held_sole q ((Finset.mem_union.mp hq).resolve_right hq')]
  · exact hex.index x hx y hy q hq ((hmaps x hx q).mp hxq) ((hmaps y hy q).mp hyq)
  · rw [hdir 0 (by norm_num)]
    exact hex.kernel_dir
  · rw [hdir _ (by omega)]
    exact hex.kernel_table i hi

end Taken

/-! ### `change_ldt` -/

namespace Space

variable {n : ℕ} {held : Finset ℕ} {m : Memory}

/-- An empty slot shares nothing. -/
theorem of_absent (h : Exact m held) (habs : ∀ j < 16, present (m.word (16 * n + j)) = false) :
    Space n held m ∧ ∀ j < 16384, frameAt n m j = none := by
  have hnone : ∀ j < 16384, frameAt n m j = none := fun j hj => by
    rw [frameAt_eq_none, Memory.mapped, pageEntry]
    dsimp only
    rw [habs _ (by omega), Bool.false_and]
  refine ⟨⟨h, fun j hj F hF => ?_⟩, hnone⟩
  rw [hnone j hj] at hF
  cases hF

/-- The frames that the table of the last pages still takes. -/
def tableCost (n : ℕ) (m : Memory) : ℕ := if present (m.word (16 * n + 15)) then 0 else 1

theorem pageEntry_argAddress (hn : n < 64) {i : ℕ} (hi : i < maxArgPages) :
    (dirOf (Pages.argAddress n i), indexOf (Pages.argAddress n i)) = pageEntry n (16352 + i) := by
  have hi : i < 32 := hi
  rw [Pages.argAddress, pageEntry_linear hn (by omega)]
  congr 1
  omega

/-- The loop of `change_ldt`. The pages below the area stay as they are; the pages of the area come
in if there is a frame for the table. -/
theorem putPages {page : ℕ → ℕ} (hpos : 1 ≤ n) (hn : n < 64) {i : ℕ} (hi : i ≤ maxArgPages)
    (h : Space n held m) (hpage : ∀ k < i, page k ≠ 0 → ∃ p ∈ held, page k = p * 4096)
    (hinj : ∀ k < i, ∀ l < i, page k ≠ 0 → page k = page l → k = l)
    (habs : ∀ k < i, frameAt n m (16352 + k) = none) :
    ∃ held' m', Pages.putPages page i (Pages.argAddress n i) m = m' ∧ Space n held' m' ∧
      (∀ off < 0x3fe0000, userByte n m' off = userByte n m off) ∧
      (tableCost n m ≤ m.freeFrames →
        (∀ j < 16384, (frameAt n m' j).isSome = true ↔ (frameAt n m j).isSome = true ∨
          16352 ≤ j ∧ j < 16352 + i ∧ page (j - 16352) ≠ 0) ∧
        (∀ off < 0x4000000, userByte n m' off =
          if 16352 ≤ off / 4096 ∧ off / 4096 < 16352 + i ∧ page (off / 4096 - 16352) ≠ 0 then
            peekByte (page (off / 4096 - 16352) + off % 4096) m else userByte n m off) ∧
        m'.freeFrames + tableCost n m = m.freeFrames + tableCost n m') := by
  induction i generalizing m held with
  | zero =>
    refine ⟨held, m, rfl, h, fun _ _ => rfl, fun _ => ⟨fun j _ => ?_, fun off _ => ?_, rfl⟩⟩
    · exact ⟨.inl, fun hj => hj.resolve_right fun hc => by omega⟩
    · exact (if_neg fun hc => by omega).symm
  | succ i ih =>
    have hi' : i < 32 := hi
    have hlow : ∀ k < i, page k ≠ 0 → ∃ p ∈ held, page k = p * 4096 := fun k hk =>
      hpage k (by omega)
    have hinj' : ∀ k < i, ∀ l < i, page k ≠ 0 → page k = page l → k = l := fun k hk l hl =>
      hinj k (by omega) l (by omega)
    rw [Pages.putPages, Pages.argAddress_succ]
    by_cases hzero : page i = 0
    · rw [if_neg (not_not.mpr hzero)]
      obtain ⟨held', m', hput, h', hbelow, hroom⟩ := ih (by omega) h hlow hinj'
        fun k hk => habs k (by omega)
      refine ⟨held', m', hput, h', hbelow, fun hr => ?_⟩
      obtain ⟨hframe, hbyte, hfree⟩ := hroom hr
      have hne : ∀ j, 16352 ≤ j ∧ j < 16352 + (i + 1) ∧ page (j - 16352) ≠ 0 ↔
          16352 ≤ j ∧ j < 16352 + i ∧ page (j - 16352) ≠ 0 := fun j => by
        constructor
        · rintro ⟨h₁, h₂, h₃⟩
          refine ⟨h₁, ?_, h₃⟩
          by_contra hc
          rw [show j - 16352 = i by omega] at h₃
          exact h₃ hzero
        · rintro ⟨h₁, h₂, h₃⟩
          exact ⟨h₁, by omega, h₃⟩
      refine ⟨fun j hj => ?_, fun off hoff => ?_, hfree⟩
      · rw [hframe j hj, hne]
      · rw [hbyte off hoff]
        exact (if_congr (hne _) rfl rfl).symm
    rw [if_pos hzero]
    obtain ⟨p, hp, hpp⟩ := hpage i (Nat.lt_succ_self i) hzero
    have hentry := pageEntry_argAddress hn hi
    have htop : (pageEntry n (16352 + i)).1 = 16 * n + 15 := by
      rw [pageEntry]
      dsimp only
      omega
    rw [hpp]
    by_cases hr : tableCost n m ≤ m.freeFrames
    · obtain ⟨m₁, hput, h₁, hmap, hfree₁⟩ := h.putPage hpos hn (by omega) hp
        (habs i (Nat.lt_succ_self i)) hentry (by rw [htop]; exact hr)
      rw [hput]
      have hcost : tableCost n m₁ = 0 := by
        have hdir := hmap.dir
        rw [htop] at hdir
        exact if_pos hdir
      rw [htop] at hfree₁
      have hne : ∀ k < i, page k ≠ 0 → page k ≠ p * 4096 := fun k hk hk' hc => by
        have := hinj k (by omega) i (Nat.lt_succ_self i) hk' (hc.trans hpp.symm)
        omega
      obtain ⟨held', m', hput', h', hbelow, hroom⟩ := ih (m := m₁) (by omega) h₁
        (fun k hk hk' => by
          obtain ⟨q, hq, hqq⟩ := hlow k hk hk'
          refine ⟨q, Finset.mem_erase.mpr ⟨?_, hq⟩, hqq⟩
          rintro rfl
          exact hne k hk hk' hqq) hinj' fun k hk => by
        rw [hmap.frame _ (by omega), if_neg (by omega)]
        exact habs k (by omega)
      refine ⟨held', m', hput', h', fun off hoff => ?_, fun _ => ?_⟩
      · rw [hbelow off hoff, h.userByte_map hpos hn hp hmap (by omega), if_neg (by omega)]
      obtain ⟨hframe, hbyte, hfree⟩ := hroom (by rw [hcost]; exact Nat.zero_le _)
      refine ⟨fun j hj => ?_, fun off hoff => ?_, ?_⟩
      · rw [hframe j hj, hmap.frame j hj]
        by_cases hji : j = 16352 + i
        · rw [if_pos hji, hji, Nat.add_sub_cancel_left]
          exact ⟨fun _ => .inr ⟨by omega, by omega, hzero⟩, fun _ => .inl rfl⟩
        · rw [if_neg hji]
          refine or_congr_right ⟨fun hc => ⟨hc.1, by omega, hc.2.2⟩, fun hc => ⟨hc.1, ?_, hc.2.2⟩⟩
          omega
      · rw [hbyte off hoff, h.userByte_map hpos hn hp hmap hoff]
        by_cases hji : off / 4096 = 16352 + i
        · rw [if_neg (by omega), if_pos hji, hji, Nat.add_sub_cancel_left,
            if_pos ⟨by omega, by omega, hzero⟩, hpp]
        · rw [if_neg hji]
          by_cases hc : 16352 ≤ off / 4096 ∧ off / 4096 < 16352 + i ∧
              page (off / 4096 - 16352) ≠ 0
          · obtain ⟨q, hq, hqq⟩ := hlow _ (by omega) hc.2.2
            have hqlow := h.exact.held_mem q hq
            rw [if_pos hc, if_pos ⟨hc.1, by omega, hc.2.2⟩, hqq, peekByte, peekByte,
              hmap.word _ (by omega) (.inl ?_)]
            rwa [show (q * 4096 + off % 4096) / 4 / 1024 = q by omega]
          · rw [if_neg hc, if_neg fun hc' => hc ⟨hc'.1, by omega, hc'.2.2⟩]
      · rw [hcost, add_zero] at hfree
        rw [tableCost]
        omega
    · -- There is no frame for the table: the page is not mapped.
      have habs₁ : present (m.word (16 * n + 15)) = false := by
        rw [tableCost] at hr
        by_contra hc
        rw [Bool.not_eq_false] at hc
        rw [if_pos hc] at hr
        exact hr (Nat.zero_le _)
      have hnone : m.freeFrames = 0 := by
        rw [tableCost, habs₁, if_neg Bool.false_ne_true] at hr
        omega
      rw [putPage_of_full ((congrArg Prod.fst hentry).trans htop) habs₁ hnone]
      obtain ⟨held', m', hput', h', hbelow, -⟩ := ih (by omega) h hlow hinj'
        fun k hk => habs k (by omega)
      exact ⟨held', m', hput', h', hbelow, fun hc => absurd hc hr⟩

end Space

/-! ### The new segment -/

/-- A process that may call `do_execve`: its segments begin where the slot `n` does, and all tables
of the slot are those of its data segment. -/
structure Ready (n : ℕ) (held : Finset ℕ) (s : State) : Prop where
  pos : 1 ≤ n
  lt : n < 64
  exact : Exact s.mem held
  codeBase : s.proc.code.getBase = linear n 0
  dataBase : s.proc.data.getBase = linear n 0
  granular : s.proc.data.granular = true
  code_le : s.proc.code.getLimit.toNat ≤ s.proc.data.getLimit.toNat
  data_le : s.proc.data.getLimit.toNat ≤ 0x4000000
  owned : ∀ j < 16, present (s.mem.word (16 * n + j)) = true →
    j * 0x400000 < s.proc.data.getLimit.toNat

/-- The slot after the point of no return. -/
structure Emptied (n : ℕ) (held : Finset ℕ) (s s' : State) : Prop where
  exact : Exact s'.mem held
  absent : ∀ j < 16, present (s'.mem.word (16 * n + j)) = false
  word : ∀ a, a / 1024 ∈ held → s'.mem.word a = s.mem.word a
  freeFrames : s.mem.freeFrames ≤ s'.mem.freeFrames
  codeBase : s'.proc.code.getBase = linear n 0
  granular : s'.proc.data.granular = true

theorem succeeds_onMem {f : Memory → Except Mm.Stop Memory} {s : State} {m : Memory}
    {Q : Unit → State → Prop} (h : f s.mem = .ok m) (hQ : Q () { s with mem := m }) :
    Succeeds (onMem f) s Q :=
  ⟨(), _, by rw [onMem, h]; rfl, hQ⟩

section Ready

variable {n : ℕ} {held : Finset ℕ} {s : State}

/-- The strings have been copied. -/
theorem Ready.taken (h : Ready n held s) {a : Pages} (ha : Taken s.mem a) :
    Ready n (held ∪ frames a) { s with mem := a.mem } where
  pos := h.pos
  lt := h.lt
  exact := ha.exact h.exact
  codeBase := h.codeBase
  dataBase := h.dataBase
  granular := h.granular
  code_le := h.code_le
  data_le := h.data_le
  owned j hj hp := by
    dsimp only at hp
    rw [ha.word _ (by have := h.lt; omega)] at hp
    exact h.owned j hj hp

/-- Nothing of the old program is left. -/
theorem Ready.giveUp (h : Ready n held s) : Succeeds giveUp s fun _ s' => Emptied n held s s' := by
  have hn := h.lt
  have hpos := h.pos
  have hdata := h.data_le
  have hcode := h.code_le
  obtain ⟨m₁, m₂, hok₁, hok₂, hex, -, habs⟩ := h.exact.freeSlot hpos hn hcode hdata h.owned
  have hdir : dirOf (linear n 0) = 16 * n := by
    rw [Mm.dirOf_linear hn (by norm_num), Nat.zero_div, add_zero]
  have halign : (linear n 0).toNat % 2 ^ 22 = 0 := by
    rw [Mm.toNat_linear hn (by norm_num)]
    omega
  have hc₁ : Memory.dirCount s.proc.code.getLimit =
      (s.proc.code.getLimit.toNat + 0x3fffff) / 2 ^ 22 :=
    Memory.dirCount_eq (by omega)
  have hc₂ : Memory.dirCount s.proc.data.getLimit =
      (s.proc.data.getLimit.toNat + 0x3fffff) / 2 ^ 22 :=
    Memory.dirCount_eq (by omega)
  have hhi : dirOf (linear n 0) + Memory.dirCount s.proc.code.getLimit ≤ 1024 := by omega
  obtain ⟨m, hok, hex₁, -⟩ := h.exact.freePageTables_ok halign (by omega) hhi
  obtain rfl := Except.ok.inj (hok.symm.trans hok₁)
  rw [Exec.giveUp, setProc]
  refine Succeeds.bind (succeeds_modify rfl) fun _ s₁ (hs₁ : s₁ = _) => ?_
  refine Succeeds.bind (Q := fun s s' => s = s₁ ∧ s' = s₁) ⟨_, _, rfl, rfl, rfl⟩ ?_
  rintro _ _ ⟨hget, hs₂⟩
  rw [hget, hs₂, hs₁]
  dsimp only
  rw [h.codeBase, h.dataBase]
  refine Succeeds.bind (succeeds_onMem (m := m) (by dsimp only; rw [hok₁]; rfl) rfl)
    fun _ s₃ (hs₃ : s₃ = _) => ?_
  rw [hs₃]
  refine Succeeds.bind (succeeds_onMem (m := m₂) (by dsimp only; rw [hok₂]; rfl) rfl)
    fun _ s₄ (hs₄ : s₄ = _) => ?_
  rw [hs₄]
  refine succeeds_modify ⟨hex, habs, fun a ha => ?_, ?_, h.codeBase, h.granular⟩
  · exact (hex₁.freePageTables_held halign (by omega) (by omega) hok₂ ha).trans
      (h.exact.freePageTables_held halign (by omega) (by omega) hok₁ ha)
  · exact (Memory.freeFrames_freePageTables hok₁).trans (Memory.freeFrames_freePageTables hok₂)

end Ready

/-- The bytes of the data segment when the strings are the only thing in it. -/
def imageOf (a : Pages) (off : ℕ) : Byte :=
  if 16352 ≤ off / 4096 ∧ a.page (off / 4096 - 16352) ≠ 0 then area a (off - 0x3fe0000) else 0

/-- The state after `change_ldt`: below the area there is nothing, and the area is there if there
was a frame for its table. -/
structure Prepared (n : ℕ) (a : Pages) (free : ℕ) (s : State) : Prop where
  segment : ∃ F, Segment n F s ∧ ∀ off < 0x3fe0000, F off = 0
  image : 1 ≤ free → Segment n (imageOf a) s
  enough : ∀ R : Finset ℕ, (∀ j ∈ R, 15360 ≤ j ∧ j < 16384) →
    (R.filter fun j => ¬ (16352 ≤ j ∧ a.page (j - 16352) ≠ 0)).card + 1 ≤ free → Enough n R s.mem

section NewSegment

variable {n : ℕ} {held : Finset ℕ} {m₀ : Memory} {a : Pages} {s s' : State}

private theorem userByte_of_absent {m : Memory} (hnone : ∀ j < 16384, frameAt n m j = none)
    {off : ℕ}
    (hoff : off < 0x4000000) : userByte n m off = 0 := by
  rw [userByte, hnone _ (by omega)]

theorem Emptied.changeLdt (hpos : 1 ≤ n) (hn : n < 64) (ha : Taken m₀ a) (hmem : s.mem = a.mem)
    (h : Emptied n (held ∪ frames a) s s') (text : Word) :
    Succeeds (changeLdt text a.page) s' fun top s'' =>
      top = Mm.System.dataLimit ∧ Prepared n a s.mem.freeFrames s'' := by
  obtain ⟨hspace, hnone⟩ := Space.of_absent h.exact h.absent
  obtain ⟨held', m', hput, hspace', hbelow, hroom⟩ := hspace.putPages hpos hn (le_refl maxArgPages)
    (fun k _ (hk : a.page k ≠ 0) => by
      obtain ⟨p, hp, -⟩ := ha.frame k hk
      exact ⟨p, Finset.mem_union_right _ (ha.mem_frames.mpr ⟨k, hk, hp⟩), hp⟩)
    (fun k _ l _ hk => ha.inj k l hk) fun k hk => hnone _ (by have : k < 32 := hk; omega)
  have hbase : s'.proc.code.getBase + Mm.System.dataLimit = Pages.argAddress n maxArgPages := by
    rw [h.codeBase, Pages.argAddress, linear, linear, add_zero, BitVec.ofNat_add]
    rfl
  have hstep : Exec.changeLdt text a.page s' = .ok (Mm.System.dataLimit, { s' with
      mem := m'
      proc := { s'.proc with
        code := (s'.proc.code.setBase s'.proc.code.getBase).setLimit
          ((text + 4096 - 1) &&& 0xfffff000)
        data := (s'.proc.data.setBase s'.proc.code.getBase).setLimit Mm.System.dataLimit } }) := by
    rw [← hput, ← hbase]
    rfl
  refine ⟨_, _, hstep, rfl, ?_⟩
  have hsegment : ∀ F : ℕ → Byte, (∀ off < 0x4000000, userByte n m' off = F off) →
      Segment n F { s' with
        mem := m'
        proc := { s'.proc with
          code := (s'.proc.code.setBase s'.proc.code.getBase).setLimit
            ((text + 4096 - 1) &&& 0xfffff000)
          data := (s'.proc.data.setBase s'.proc.code.getBase).setLimit Mm.System.dataLimit } } :=
    fun F hF => by
      refine ⟨hpos, hn, ?_, ?_, ⟨held', hspace'⟩, hF⟩
      · dsimp only
        rw [Mm.Desc.getBase_setLimit, Mm.Desc.getBase_setBase, h.codeBase]
      · dsimp only
        rw [Mm.Desc.size_setLimit ((Mm.Desc.granular_setBase _ _).trans h.granular)]
        rfl
  refine ⟨⟨_, hsegment _ fun _ _ => rfl, fun off hoff => ?_⟩, fun hfree =>
    hsegment _ fun off hoff => ?_,
    fun R hR hle => ?_⟩
  · rw [hbelow off hoff, userByte_of_absent hnone (by omega)]
  all_goals
    have hcost : Space.tableCost n s'.mem = 1 := by
      rw [Space.tableCost, h.absent 15 (by norm_num), if_neg Bool.false_ne_true]
    have hle' := h.freeFrames
    obtain ⟨hframe, hbyte, hleft⟩ := hroom (by omega)
  · rw [hbyte off hoff, imageOf]
    by_cases hc : 16352 ≤ off / 4096 ∧ a.page (off / 4096 - 16352) ≠ 0
    · obtain ⟨p, hp, -⟩ := ha.frame _ hc.2
      have hword : ∀ x, x / 1024 = p → s'.mem.word x = a.mem.word x := fun x hx => by
        rw [← hmem]
        exact h.word x (Finset.mem_union_right _ (ha.mem_frames.mpr ⟨_, hc.2, hx ▸ hp⟩))
      have hpage : (off - 0x3fe0000) / 4096 = off / 4096 - 16352 := by omega
      have hmod : (off - 0x3fe0000) % 4096 = off % 4096 := by omega
      have hlt : off / 4096 - 16352 < 32 := ha.lt_of_page hc.2
      have hmax : maxArgPages = 32 := rfl
      rw [if_pos ⟨hc.1, by omega, hc.2⟩, if_pos hc, area, hpage, hmod, hp, peekByte, peekByte,
        hword _ (by omega)]
    · rw [if_neg fun hc' => hc ⟨hc'.1, hc'.2.2⟩, if_neg hc, userByte_of_absent hnone hoff]
  · refine ⟨hR, ?_⟩
    have hsub : (R.filter fun j => frameAt n m' j = none) ⊆
        R.filter fun j => ¬ (16352 ≤ j ∧ a.page (j - 16352) ≠ 0) := fun j hj => by
      obtain ⟨hjR, hj⟩ := Finset.mem_filter.mp hj
      refine Finset.mem_filter.mpr ⟨hjR, fun hc => ?_⟩
      have hlt := (hR j hjR).2
      have hmax : maxArgPages = 32 := rfl
      have hsome := (hframe j hlt).mpr (.inr ⟨hc.1, by omega, hc.2⟩)
      rw [hj] at hsome
      cases hsome
    have hcard := Finset.card_le_card hsub
    rw [hcost, Space.tableCost] at hleft
    dsimp only
    omega

end NewSegment

/-! ### A process with an empty slot -/

/-- A process in the slot 1, in which no page has been got. -/
def slotState : State :=
  { bootState with
    proc := { bootState.proc with
      code := Mm.System.initTask.code.setBase (linear 1 0)
      data := Mm.System.initTask.data.setBase (linear 1 0) } }

theorem ready_slotState : Ready 1 ∅ slotState where
  pos := le_rfl
  lt := by norm_num
  exact := Exact.boot _
  codeBase := Mm.Desc.getBase_setBase _ _
  dataBase := Mm.Desc.getBase_setBase _ _
  granular := Mm.Desc.granular_setBase _ _
  code_le := by decide
  data_le := by decide
  owned j hj hp := by
    have hword : slotState.mem.word (16 * 1 + j) = 0 := by
      simp only [slotState, bootState, Memory.boot]
      rw [if_neg (by omega), if_neg (by omega), if_pos (by omega)]
    rw [hword] at hp
    exact absurd hp (by decide)

end Linux001.Exec
