import Linux001.Mm.CopyOnWrite

/-!
# Copy-on-write isolation

Forks share the pages of a process with its child, read-only; a store unshares the page it hits.
What a process reads is determined by the history of the system alone: the byte it last stored
itself since it was forked, or else the byte its parent had at that moment, or else zero.

Task 0 runs in the first 640 kB of physical memory. Its first page is the page directory, which the
functions of `mm/memory.c` change all the time, so nothing is said about bytes that are inherited
from there.

## Main definitions

* `Tasks`, `Event`, `Tasks.Step`: forks, stores, accesses and releases of task slots.
* `lastByte`: what the history says a process reads.
* `Tasks.Inv`, `Tasks.Agrees`: the invariant, and the relation to the history.

## Main results

* `Tasks.agrees_step`: every event keeps the relation.
* `userRead_eq_lastByte`: every process reads what the history says.
-/

namespace Linux001.Mm

/-! ### Linear addresses of task slots -/

/-- The linear address of the offset `off` in the segment of the task slot `n`; the segments start
at multiples of 64 MB. -/
def linear (n off : ℕ) : Word := BitVec.ofNat 32 (n * 0x4000000 + off)

/-- The position of the table entry of an offset in the segment of a slot. -/
def slotEntry (n off : ℕ) : ℕ × ℕ := (16 * n + off / 0x400000, off / 4096 % 1024)

section Linear

variable {n off : ℕ} (hn : n < 64) (hoff : off < 0x4000000)

include hn hoff

theorem toNat_linear : (linear n off).toNat = n * 0x4000000 + off := by
  rw [linear, BitVec.toNat_ofNat, Nat.mod_eq_of_lt (by omega)]

theorem dirOf_linear : dirOf (linear n off) = 16 * n + off / 0x400000 := by
  rw [dirOf_eq, toNat_linear hn hoff]
  omega

theorem indexOf_linear : indexOf (linear n off) = off / 4096 % 1024 := by
  rw [indexOf, toNat_linear hn hoff]
  omega

theorem mod_linear : (linear n off).toNat % 4096 = off % 4096 := by
  rw [toNat_linear hn hoff]
  omega

theorem slotEntry_eq : (dirOf (linear n off), indexOf (linear n off)) = slotEntry n off := by
  rw [dirOf_linear hn hoff, indexOf_linear hn hoff, slotEntry]

theorem slotEntry_mem (hpos : 1 ≤ n) : slotEntry n off ∈ userEntries := by
  rw [slotEntry, mem_userEntries, mem_userDirs]
  dsimp only
  omega

theorem dirOf_linear_mem (hpos : 1 ≤ n) : dirOf (linear n off) ∈ userDirs := by
  rw [dirOf_linear hn hoff, mem_userDirs]
  omega

end Linear

theorem slotEntry_inj {m n o off : ℕ} (ho : o < 0x4000000) (hoff : off < 0x4000000)
    (h : slotEntry m o = slotEntry n off) : m = n ∧ o / 4096 = off / 4096 := by
  obtain ⟨h₁, h₂⟩ := Prod.mk.inj h
  omega

/-! ### Runs -/

/-- Physical memory and the limits of the segments of the task slots. -/
structure Tasks where
  mem : Memory
  limit : ℕ → ℕ

/-- What can happen: a process forks, stores a byte, accesses a byte, or gives up its address space,
to get a new limit as in `exec` or to be reused by a later fork. -/
inductive Event
  | fork (parent child : ℕ)
  | write (n off : ℕ) (b : BitVec 8)
  | access (n off : ℕ)
  | release (n limit : ℕ)

namespace Tasks

/-- The effect of an event. Forks go from any slot, task 0 included, to an empty one, with the limit
of the parent as `copy_mem` takes it, and find enough memory; accesses are within the limit of the
segment and do not run out of memory either. -/
def Step (s : Tasks) : Event → Tasks → Prop
  | .fork parent child, s' => parent < 64 ∧ 1 ≤ child ∧ child < 64 ∧ parent ≠ child ∧
      (∀ j < 16, present (s.mem.word (16 * child + j)) = false) ∧
      s.mem.copyPageTables (linear parent 0) (linear child 0)
        (BitVec.ofNat 32 (s.limit parent)) = .ok (0, s'.mem) ∧
      s'.limit = Function.update s.limit child (s.limit parent)
  | .write n off b, s' => 1 ≤ n ∧ n < 64 ∧ off < s.limit n ∧
      s.mem.userWrite (linear n off) b = .ok s'.mem ∧ s'.limit = s.limit
  | .access n off, s' => 1 ≤ n ∧ n < 64 ∧ off < s.limit n ∧
      s.mem.touch false (linear n off) = .ok s'.mem ∧ s'.limit = s.limit
  | .release n limit, s' => 1 ≤ n ∧ n < 64 ∧ limit ≤ 0x4000000 ∧
      s.mem.freePageTables (linear n 0) (BitVec.ofNat 32 (s.limit n)) = .ok s'.mem ∧
      s'.limit = Function.update s.limit n limit

/-- The system after `setup_paging`: only task 0 has a segment, of 640 kB. -/
def boot (other : ℕ → Word) : Tasks where
  mem := Memory.boot other
  limit n := if n = 0 then 0xA0000 else 0

end Tasks

/-- The byte that task 0 has at an offset; its first page is left out. -/
def bootByte (other : ℕ → Word) (off : ℕ) : Option (BitVec 8) :=
  if off < 4096 then none else some (byteOf ((Memory.boot other).word (off / 4)) (off % 4))

/-- The byte that the history, most recent event first, says a process reads: the one it last stored
since it was forked, or else the one its parent had then, or else zero. -/
def lastByte (other : ℕ → Word) : List Event → ℕ → ℕ → Option (BitVec 8)
  | [], n, off => if n = 0 then bootByte other off else some 0
  | .fork parent child :: es, n, off =>
    if n = child then lastByte other es parent off else lastByte other es n off
  | .write m o b :: es, n, off => if n = m ∧ off = o then some b else lastByte other es n off
  | .access _ _ :: es, n, off => lastByte other es n off
  | .release m _ :: es, n, off => if n = m then some 0 else lastByte other es n off

namespace Tasks

variable {other : ℕ → Word} {s s' : Tasks} {n off : ℕ}

/-- What holds of the memory in every state of a run. -/
structure Inv (other : ℕ → Word) (s : Tasks) : Prop where
  exact : Exact s.mem ∅
  flagged : Flagged s.mem
  limit_le : ∀ n, s.limit n ≤ 0x4000000
  limit_zero : s.limit 0 = 0xA0000
  within : ∀ n, 1 ≤ n → n < 64 → ∀ j < 16, present (s.mem.word (16 * n + j)) = true →
    j * 0x400000 < s.limit n
  low : ∀ a, 1024 ≤ a → a < 512 * 1024 → s.mem.word a = (Memory.boot other).word a
  kernel : ∀ d < 16, s.mem.word d = (Memory.boot other).word d

/-- The pages show the bytes that the history says. -/
def Agrees (other : ℕ → Word) (es : List Event) (s : Tasks) : Prop :=
  (∀ off, lastByte other es 0 off = bootByte other off) ∧
    ∀ n, 1 ≤ n → n < 64 → ∀ off < s.limit n, ∀ b, lastByte other es n off = some b →
      ∃ w, s.mem.Shows (slotEntry n off) (off % 4096 / 4) w ∧ byteOf w (off % 4) = b

theorem Inv.kernelUser (h : Inv other s) : Copied.KernelUser s.mem := fun i hi => by
  have hword : (Memory.boot other).word (1024 + i) = BitVec.ofNat 32 (i * 4096 + 7) := by
    simp only [Memory.boot]
    rw [if_neg (by omega), if_neg (by omega), if_neg (by omega), if_pos (by omega),
      Nat.add_sub_cancel_left]
  rw [h.low _ (by omega) (by omega), hword, userBit, BitVec.getLsbD_ofNat,
    Nat.testBit_eq_decide_div_mod_eq]
  simp only [Nat.reduceLT, decide_true, Bool.true_and, decide_eq_true_eq]
  omega

/-- The pages of task 0, except for the first one, show the memory of the start. -/
theorem Inv.shows_kernel (h : Inv other s) (hlo : 4096 ≤ off) (hhi : off < 0xA0000) :
    s.mem.Shows (0, off / 4096) (off % 4096 / 4) ((Memory.boot other).word (off / 4)) := by
  have hi : off / 4096 < 160 := by omega
  have hdir : frameOf (s.mem.word 0) = 1 := h.exact.kernel_dir
  have hword : s.mem.pte 0 (off / 4096) = BitVec.ofNat 32 (off / 4096 * 4096 + 7) := by
    rw [Memory.pte, hdir, h.low _ (by omega) (by omega)]
    simp only [Memory.boot]
    rw [if_neg (by omega), if_neg (by omega), if_neg (by omega), if_pos (by omega), one_mul,
      Nat.add_sub_cancel_left]
  have hnat : (s.mem.pte 0 (off / 4096)).toNat = off / 4096 * 4096 + 7 := by
    rw [hword, BitVec.toNat_ofNat, Nat.mod_eq_of_lt (by omega)]
  have hframe : frameOf (s.mem.pte 0 (off / 4096)) = off / 4096 := by
    rw [frameOf, hnat]
    omega
  refine .inl ⟨(Memory.mapped_iff s.mem).mpr ⟨?_, ?_⟩, ?_, ?_⟩
  · have hzero : (Memory.boot other).word 0 = 0x1007 := rfl
    rw [h.kernel 0 (by omega), hzero]
    rfl
  · rw [present_iff, hnat]
    omega
  · rw [hframe]
    omega
  · have haddr : off / 4096 * 1024 + off % 4096 / 4 = off / 4 := by omega
    rw [hframe, haddr, h.low _ (by omega) (by omega)]

/-! ### Accesses and stores -/

/-- A touched entry of a segment keeps the invariant. -/
theorem Inv.of_touched (h : Inv other s) {m : Memory} {x : ℕ × ℕ} (hex : Exact m ∅)
    (ht : Touched s.mem m x) (hx : x ∈ userEntries)
    (hlimit : ∀ k j, j < 16 → 16 * k + j = x.1 → j * 0x400000 < s.limit k) :
    Inv other ⟨m, s.limit⟩ := by
  have hxd := mem_userDirs.mp (mem_userEntries.mp hx).1
  refine ⟨hex, ht.flagged h.flagged, h.limit_le, h.limit_zero, fun k hk hk' j hj hp => ?_,
    fun a ha ha' => (ht.low a (by omega) (by omega)).trans (h.low a ha ha'),
    fun d hd => (ht.dir_other d (by omega) (by omega)).trans (h.kernel d hd)⟩
  by_cases hx : 16 * k + j = x.1
  · exact hlimit k j hj hx
  · dsimp only at hp
    rw [ht.dir_other _ (by omega) hx] at hp
    exact h.within k hk hk' j hj hp

/-- An access keeps the invariant and the contents of all pages, and is allowed at its end. -/
theorem Inv.touch (h : Inv other s) {m : Memory} {write : Bool} (hpos : 1 ≤ n) (hn : n < 64)
    (hoff : off < s.limit n) (hok : s.mem.touch write (linear n off) = .ok m) :
    Inv other ⟨m, s.limit⟩ ∧
      (∀ y ∈ userEntries, ∀ k < 1024, ∀ w, s.mem.Shows y k w → m.Shows y k w) ∧
      m.mapped (slotEntry n off).1 (slotEntry n off).2 = true ∧
      (write = true → writable (m.pte (slotEntry n off).1 (slotEntry n off).2) = true) ∧
      ∀ y ∈ userEntries, m.Protected y → s.mem.Protected y := by
  have hlim := h.limit_le n
  have hd := dirOf_linear_mem hn (by omega : off < 0x4000000) hpos
  obtain ⟨hex, hcase, hm, hw⟩ := h.exact.touch h.flagged hd hok
  rw [slotEntry_eq hn (by omega : off < 0x4000000)] at hcase
  rw [dirOf_linear hn (by omega : off < 0x4000000), indexOf_linear hn (by omega)] at hm hw
  have hx' := slotEntry_mem hn (by omega : off < 0x4000000) hpos
  rcases hcase with rfl | ⟨ht, hwx⟩
  · exact ⟨h, fun y _ k _ w hs => hs, hm, hw, fun _ _ hp => hp⟩
  · rw [dirOf_linear hn (by omega : off < 0x4000000), indexOf_linear hn (by omega)] at hwx
    refine ⟨h.of_touched hex ht hx' fun k j hj hx => ?_,
      fun y hy k hk w hs => ht.shows_of hy hk hs, hm, hw, ht.isProtected hwx⟩
    rw [slotEntry] at hx
    dsimp only at hx
    have hkn : k = n := by omega
    subst hkn
    omega

/-- A store into a page that is mapped writable keeps the invariant, and changes what this page
shows at one index. -/
theorem Inv.store (h : Inv other s) {x : ℕ × ℕ} (hx : x ∈ userEntries)
    (hm : s.mem.mapped x.1 x.2 = true) (hw : writable (s.mem.pte x.1 x.2) = true) {k : ℕ}
    (hk : k < 1024) (v : Word) :
    Inv other ⟨s.mem.store (frameOf (s.mem.pte x.1 x.2) * 1024 + k) v, s.limit⟩ ∧
      (s.mem.store (frameOf (s.mem.pte x.1 x.2) * 1024 + k) v).Shows x k v ∧
      (∀ y ∈ userEntries, ∀ j < 1024, (y, j) ≠ (x, k) → ∀ w, s.mem.Shows y j w →
        (s.mem.store (frameOf (s.mem.pte x.1 x.2) * 1024 + k) v).Shows y j w) ∧
      ∀ y ∈ userEntries,
        s.mem.EntryKept (s.mem.store (frameOf (s.mem.pte x.1 x.2) * 1024 + k) v) y := by
  set F := frameOf (s.mem.pte x.1 x.2) with hF
  have hlo : 512 ≤ F := h.flagged.counted x hx hm hw
  have hmaps : s.mem.MapsPage F x := (Memory.mapsPage_iff_mapped s.mem).mpr ⟨hm, rfl⟩
  have hword : ∀ a, a / 1024 ≠ F → (s.mem.store (F * 1024 + k) v).word a = s.mem.word a :=
    fun a ha => s.mem.store_word_of_ne (fun hc => ha (by rw [hc, entry_div hk])) v
  have hdir : ∀ d < 1024, (s.mem.store (F * 1024 + k) v).word d = s.mem.word d :=
    fun d hd => hword d (by omega)
  have hpte : ∀ y ∈ userEntries, present (s.mem.word y.1) = true →
      (s.mem.store (F * 1024 + k) v).pte y.1 y.2 = s.mem.pte y.1 y.2 := fun y hy hp => by
    obtain ⟨hyd, hyi⟩ := mem_userEntries.mp hy
    rw [Memory.pte, Memory.pte, hdir _ (mem_userDirs.mp hyd).2]
    refine hword _ fun hc => ?_
    rw [entry_div hyi] at hc
    exact h.exact.table_not_mapped hyd hp hx (hc ▸ hmaps)
  have hmapped : ∀ y ∈ userEntries, s.mem.EntryKept (s.mem.store (F * 1024 + k) v) y :=
    fun y hy => Memory.entryKept_of_word
      (hdir _ (mem_userDirs.mp (mem_userEntries.mp hy).1).2) (hpte y hy)
  have hflagged : Flagged (s.mem.store (F * 1024 + k) v) := by
    refine h.flagged.of_agree (fun d hd _ => hdir d (mem_userDirs.mp hd).2) fun y hy hy' => ?_
    obtain ⟨h₁, h₂⟩ := hmapped y hy
    rw [h₁] at hy'
    exact ⟨hy', h₂ hy'⟩
  refine ⟨⟨h.exact.of_page hx hmaps (by omega) rfl hword, hflagged, h.limit_le, h.limit_zero,
    fun m hm hm' j hj hp => ?_, fun a ha ha' => ?_, ?_⟩, ?_, fun y hy j hj hne w hs => ?_, hmapped⟩
  · dsimp only at hp
    rw [hdir _ (by omega)] at hp
    exact h.within m hm hm' j hj hp
  · dsimp only
    rw [hword a (by omega)]
    exact h.low a ha ha'
  · exact fun d hd => (hdir d (by omega)).trans (h.kernel d hd)
  · obtain ⟨h₁, h₂⟩ := hmapped x hx
    refine .inl ⟨h₁.trans hm, ?_, ?_⟩
    · rw [h₂ hm]
      omega
    · rw [h₂ hm, ← hF, Memory.store_word_self]
  · obtain ⟨h₁, h₂⟩ := hmapped y hy
    rcases hs with ⟨hym, hzero, hyw⟩ | ⟨hym, hyw⟩
    · refine .inl ⟨h₁.trans hym, by rw [h₂ hym]; exact hzero, ?_⟩
      rw [h₂ hym, Memory.store_word_of_ne]
      · exact hyw
      · intro hc
        have hdiv := congrArg (· / 1024) hc
        have hmod := congrArg (· % 1024) hc
        simp only [entry_div hj, entry_div hk, entry_mod hj, entry_mod hk] at hdiv hmod
        -- The page of another entry is another frame.
        have hyx := h.flagged.own x hx hm hw y hy
          ((Memory.mapsPage_iff_mapped s.mem).mpr ⟨hym, hdiv⟩)
        exact hne (by rw [hyx, hmod])
    · exact .inr ⟨h₁.trans hym, hyw⟩

/-- A store of a user program: the page is made writable, and the word is stored. -/
theorem Inv.write (h : Inv other s) {m : Memory} {b : BitVec 8} (hpos : 1 ≤ n) (hn : n < 64)
    (hoff : off < s.limit n) (hok : s.mem.userWrite (linear n off) b = .ok m) :
    ∃ m₁ : Memory, Inv other ⟨m₁, s.limit⟩ ∧
      (∀ y ∈ userEntries, ∀ k < 1024, ∀ w, s.mem.Shows y k w → m₁.Shows y k w) ∧
      m₁.mapped (slotEntry n off).1 (slotEntry n off).2 = true ∧
      writable (m₁.pte (slotEntry n off).1 (slotEntry n off).2) = true ∧
      (∀ y ∈ userEntries, m₁.Protected y → s.mem.Protected y) ∧
      m = m₁.store (frameOf (m₁.pte (slotEntry n off).1 (slotEntry n off).2) * 1024 +
        off % 4096 / 4) (setByte (m₁.word (frameOf (m₁.pte (slotEntry n off).1
          (slotEntry n off).2) * 1024 + off % 4096 / 4)) (off % 4) b) := by
  have hlim := h.limit_le n
  rw [Memory.userWrite] at hok
  cases ht : s.mem.touch true (linear n off) with
  | error e => simp [ht, bind, Except.bind] at hok
  | ok m₁ =>
    simp only [ht, bind, Except.bind, pure, Except.pure, Except.ok.injEq] at hok
    obtain ⟨hinv, hkept, hmap, hwr, hprotected⟩ := h.touch hpos hn hoff ht
    have hword : m₁.wordOf (linear n off) =
        frameOf (m₁.pte (slotEntry n off).1 (slotEntry n off).2) * 1024 + off % 4096 / 4 := by
      rw [Memory.wordOf, mod_linear hn (by omega), dirOf_linear hn (by omega),
        indexOf_linear hn (by omega)]
      rfl
    have hmod : (linear n off).toNat % 4 = off % 4 := by
      rw [toNat_linear hn (by omega)]
      omega
    rw [hword, hmod] at hok
    exact ⟨m₁, hinv, hkept, hmap, hwr rfl, hprotected, hok.symm⟩

/-! ### Release -/

/-- A release keeps the invariant; the pages of the slot are gone and the others are kept. -/
theorem Inv.release (h : Inv other s) {m : Memory} {limit : ℕ} (hpos : 1 ≤ n) (hn : n < 64)
    (hlimit : limit ≤ 0x4000000)
    (hok : s.mem.freePageTables (linear n 0) (BitVec.ofNat 32 (s.limit n)) = .ok m) :
    Inv other ⟨m, Function.update s.limit n limit⟩ ∧
      (∀ off < 0x4000000, m.mapped (slotEntry n off).1 (slotEntry n off).2 = false) ∧
      (∀ y ∈ userEntries, y.1 / 16 ≠ n → ∀ k < 1024, ∀ w, s.mem.Shows y k w → m.Shows y k w) ∧
      ∀ y ∈ userEntries, y.1 / 16 ≠ n → s.mem.EntryKept m y := by
  have hlim := h.limit_le n
  have hdir : dirOf (linear n 0) = 16 * n := by
    rw [dirOf_linear hn (by norm_num)]
    rfl
  have hnat : (BitVec.ofNat 32 (s.limit n)).toNat = s.limit n := by
    rw [BitVec.toNat_ofNat, Nat.mod_eq_of_lt (by omega)]
  have hcount : Memory.dirCount (BitVec.ofNat 32 (s.limit n)) =
      (s.limit n + 0x3fffff) / 2 ^ 22 := by
    rw [Memory.dirCount_eq (by rw [hnat]; omega), hnat]
  have halign : (linear n 0).toNat % 2 ^ 22 = 0 := by
    rw [toNat_linear hn (by norm_num)]
    omega
  have hrange : dirOf (linear n 0) + Memory.dirCount (BitVec.ofNat 32 (s.limit n)) ≤ 1024 := by
    rw [hdir, hcount]
    omega
  obtain ⟨m', hm', hex, habs, hword⟩ := h.exact.freePageTables_ok halign (by omega) hrange
  obtain rfl := Except.ok.inj (hm'.symm.trans hok)
  rw [hdir, hcount] at hword habs
  set count := (s.limit n + 0x3fffff) / 2 ^ 22 with hcountdef
  have hcount16 : count ≤ 16 := by omega
  have hslot : ∀ j < count, 16 * n + j ∈ userDirs := fun j hj =>
    mem_userDirs.mpr ⟨by omega, by omega⟩
  -- Directory entries of other slots are kept, those of the slot are absent.
  have hother : ∀ d < 1024, d / 16 ≠ n → m'.word d = s.mem.word d := fun d hd hne => by
    refine hword d fun j hj => ⟨by omega, fun hp => ?_⟩
    have := (h.exact.table_mem _ (hslot j hj) hp).1
    omega
  have hgone : ∀ j < 16, present (m'.word (16 * n + j)) = false := fun j hj => by
    by_cases hjc : j < count
    · exact habs j hjc
    · have hkeep : m'.word (16 * n + j) = s.mem.word (16 * n + j) := by
        refine hword _ fun i hi => ⟨by omega, fun hp => ?_⟩
        have := (h.exact.table_mem _ (hslot i hi) hp).1
        omega
      rw [hkeep, ← Bool.not_eq_true]
      intro hp
      have := h.within n hpos hn j hj hp
      omega
  have hpte : ∀ y ∈ userEntries, y.1 / 16 ≠ n → present (s.mem.word y.1) = true →
      m'.pte y.1 y.2 = s.mem.pte y.1 y.2 := fun y hy hne hp => by
    obtain ⟨hyd, hyi⟩ := mem_userEntries.mp hy
    have hyd' := mem_userDirs.mp hyd
    have htab := (h.exact.table_mem y.1 hyd hp).1
    rw [Memory.pte, Memory.pte, hother _ hyd'.2 hne]
    refine hword _ fun j hj => ⟨by omega, fun hpj hc => ?_⟩
    rw [entry_div hyi] at hc
    have hsame := h.exact.table_inj hyd hp (hslot j hj) hpj hc
    omega
  have hmapped : ∀ y ∈ userEntries, y.1 / 16 ≠ n → s.mem.EntryKept m' y := fun y hy hne =>
    Memory.entryKept_of_word (hother _ (mem_userDirs.mp (mem_userEntries.mp hy).1).2 hne)
      (hpte y hy hne)
  have hunmapped : ∀ d i, d / 16 = n → m'.mapped d i = false := fun d i hd => by
    have hj := hgone (d - 16 * n) (by omega)
    rw [show 16 * n + (d - 16 * n) = d by omega] at hj
    rw [Memory.mapped, hj, Bool.false_and]
  refine ⟨⟨hex, h.flagged.of_agree (fun d hd hp => ?_) (fun y hy hm => ?_), fun k => ?_, ?_,
    fun k hk hk' j hj hp => ?_, fun a ha ha' => ?_, ?_⟩, fun off hoff => ?_,
    fun y hy hne k hk w hs => ?_, hmapped⟩
  · refine hother d (mem_userDirs.mp hd).2 fun hc => ?_
    have hj := hgone (d - 16 * n) (by omega)
    rw [show 16 * n + (d - 16 * n) = d by omega, hp] at hj
    exact absurd hj.symm Bool.false_ne_true
  · have hne : y.1 / 16 ≠ n := fun hc =>
      absurd ((hunmapped y.1 y.2 hc).symm.trans hm) Bool.false_ne_true
    obtain ⟨h₁, h₂⟩ := hmapped y hy hne
    rw [h₁] at hm
    exact ⟨hm, h₂ hm⟩
  · dsimp only
    rw [Function.update_apply]
    split_ifs
    · exact hlimit
    · exact h.limit_le k
  · dsimp only
    rw [Function.update_of_ne (by omega)]
    exact h.limit_zero
  · dsimp only at hp ⊢
    by_cases hkn : k = n
    · subst hkn
      rw [hgone j hj] at hp
      exact absurd hp Bool.false_ne_true
    · rw [hother _ (by omega) (by omega)] at hp
      rw [Function.update_of_ne hkn]
      exact h.within k hk hk' j hj hp
  · dsimp only
    rw [hword a fun j hj => ⟨by omega, fun hp => ?_⟩]
    · exact h.low a ha ha'
    · have := (h.exact.table_mem _ (hslot j hj) hp).1
      omega
  · exact fun d hd => (hother d (by omega) (by omega)).trans (h.kernel d hd)
  · refine hunmapped _ _ ?_
    rw [slotEntry]
    dsimp only
    omega
  · obtain ⟨h₁, h₂⟩ := hmapped y hy hne
    rcases hs with ⟨hym, hzero, hyw⟩ | ⟨hym, hyw⟩
    · refine .inl ⟨h₁.trans hym, by rw [h₂ hym]; exact hzero, ?_⟩
      rw [h₂ hym, hword _ fun j hj => ⟨by omega, fun hp hc => ?_⟩]
      · exact hyw
      · rw [entry_div hk] at hc
        exact h.exact.table_not_mapped (hslot j hj) hp hy
          ((Memory.mapsPage_iff_mapped s.mem).mpr ⟨hym, hc⟩)
    · exact .inr ⟨h₁.trans hym, hyw⟩

/-! ### Forks -/

/-- What `copy_mem` asks of `copy_page_tables`, in terms of its loop. -/
theorem Inv.copyPageTables_eq (h : Inv other s) {parent child : ℕ} (hparent : parent < 64)
    (hchild : child < 64) :
    s.mem.copyPageTables (linear parent 0) (linear child 0) (BitVec.ofNat 32 (s.limit parent)) =
      Memory.copyDirs (if parent = 0 then 160 else 1024) ((s.limit parent + 0x3fffff) / 2 ^ 22)
        (16 * parent) (16 * child) s.mem := by
  have hlim := h.limit_le parent
  have hdir : ∀ n < 64, dirOf (linear n 0) = 16 * n := fun n hn => by
    rw [dirOf_linear hn (by norm_num)]
    rfl
  have halign : ∀ n < 64, linear n 0 &&& 0x3fffff = 0 := fun n hn => by
    rw [toNat_and_align, toNat_linear hn (by norm_num)]
    omega
  have hnat : (BitVec.ofNat 32 (s.limit parent)).toNat = s.limit parent := by
    rw [BitVec.toNat_ofNat, Nat.mod_eq_of_lt (by omega)]
  have hzero : linear parent 0 = 0 ↔ parent = 0 := by
    rw [← BitVec.toNat_inj, toNat_linear hparent (by norm_num)]
    simp
  have hcond : ¬ (linear parent 0 &&& 0x3fffff ≠ 0 ∨ linear child 0 &&& 0x3fffff ≠ 0) := by
    rw [halign parent hparent, halign child hchild]
    simp
  rw [Memory.copyPageTables, if_neg hcond, hdir parent hparent, hdir child hchild,
    Memory.dirCount_eq (by rw [hnat]; omega), hnat]
  by_cases hp : parent = 0
  · rw [if_pos (hzero.mpr hp), if_pos hp]
  · rw [if_neg fun hc => hp (hzero.mp hc), if_neg hp]

/-- A fork keeps the invariant; the pages of the child show what those of the parent do, and the
pages of other slots are kept. -/
theorem Inv.fork (h : Inv other s) {parent child : ℕ} {m : Memory} (hparent : parent < 64)
    (hpos : 1 ≤ child) (hchild : child < 64) (hne : parent ≠ child)
    (hempty : ∀ j < 16, present (s.mem.word (16 * child + j)) = false)
    (hok : s.mem.copyPageTables (linear parent 0) (linear child 0)
      (BitVec.ofNat 32 (s.limit parent)) = .ok (0, m)) :
    Inv other ⟨m, Function.update s.limit child (s.limit parent)⟩ ∧
      (∀ off < s.limit parent, ∀ k < 1024, ∀ w, s.mem.Shows (slotEntry parent off) k w →
        m.Shows (slotEntry child off) k w) ∧
      (∀ y ∈ userEntries, y.1 / 16 ≠ child → ∀ k < 1024, ∀ w, s.mem.Shows y k w → m.Shows y k w) ∧
      ∀ y ∈ userEntries, y.1 / 16 ≠ child → y.1 / 16 ≠ parent → s.mem.EntryKept m y := by
  rw [h.copyPageTables_eq hparent hchild] at hok
  have hlim := h.limit_le parent
  set count := (s.limit parent + 0x3fffff) / 2 ^ 22 with hcount
  have hcount16 : count ≤ 16 := by omega
  have hrange : ∀ j < count, Exact.CopyRange (if parent = 0 then 160 else 1024)
      (16 * parent + j) := fun j hj => by
    by_cases hp : parent = 0
    · subst hp
      rw [h.limit_zero] at hcount
      rw [if_pos rfl]
      exact .inr ⟨by omega, rfl⟩
    · rw [if_neg hp]
      exact .inl ⟨mem_userDirs.mpr ⟨by omega, by omega⟩, rfl⟩
  obtain ⟨hex, hf, hc⟩ := Copied.of_copyDirs h.exact h.flagged h.kernelUser
    (fun j hj => mem_userDirs.mpr ⟨by omega, by omega⟩) hrange (fun i hi j hj => by omega) hok
  have hdir : ∀ d < 1024, d / 16 ≠ child → m.word d = s.mem.word d := fun d hd hd' =>
    hc.dir d hd fun j hj => by omega
  refine ⟨⟨hex, hf, fun n => ?_, ?_, fun n hn hn' j hj hp => ?_, fun a ha ha' => ?_, ?_⟩,
    fun off hoff k hk w hs => ?_, fun y hy hy' k hk w hs => ?_,
    fun y hy hy' hyp => hc.other y hy fun j hj => by omega⟩
  · dsimp only
    rw [Function.update_apply]
    split_ifs
    · exact hlim
    · exact h.limit_le n
  · dsimp only
    rw [Function.update_of_ne (by omega)]
    exact h.limit_zero
  · dsimp only at hp ⊢
    by_cases hnc : n = child
    · subst hnc
      rw [Function.update_self]
      by_cases hjc : j < count
      · omega
      · rw [hc.dir _ (by omega) fun i hi => by omega, hempty j hj] at hp
        exact absurd hp Bool.false_ne_true
    · rw [Function.update_of_ne hnc]
      rw [hdir _ (by omega) (by omega)] at hp
      exact h.within n hn hn' j hj hp
  · dsimp only
    rw [hc.low a ha ha']
    exact h.low a ha ha'
  · exact fun d hd => (hdir d (by omega) (by omega)).trans (h.kernel d hd)
  · refine hc.copy (off / 0x400000) (by omega) (off / 4096 % 1024) ?_ k hk w hs
    split_ifs with hp
    · subst hp
      rw [h.limit_zero] at hoff
      omega
    · omega
  · exact hc.kept y hy (fun j hj => by omega) k hk w hs

/-! ### The relation to the history -/

theorem Inv.boot (other : ℕ → Word) : Inv other (Tasks.boot other) := by
  have hdir : ∀ d, 16 ≤ d → d < 1024 → (Memory.boot other).word d = 0 := fun d hd hd' => by
    simp only [Memory.boot]
    rw [if_neg (by omega), if_neg (by omega), if_pos (by omega)]
  have habs : ∀ d, 16 ≤ d → d < 1024 → present ((Memory.boot other).word d) = false :=
    fun d hd hd' => by
      rw [hdir d hd hd']
      rfl
  have hunmapped : ∀ y ∈ userEntries, (Memory.boot other).mapped y.1 y.2 = false := fun y hy => by
    obtain ⟨h₁, h₂⟩ := mem_userDirs.mp (mem_userEntries.mp hy).1
    rw [Memory.mapped, habs _ h₁ h₂, Bool.false_and]
  have hnot : ∀ y ∈ userEntries, ¬ (Memory.boot other).mapped y.1 y.2 = true := fun y hy hc =>
    absurd ((hunmapped y hy).symm.trans hc) Bool.false_ne_true
  refine ⟨Exact.boot other, ⟨fun d hd hp => ?_, fun y hy hm => absurd hm (hnot y hy),
    fun y hy hm => absurd hm (hnot y hy), fun y hy hm => absurd hm (hnot y hy)⟩, fun n => ?_, rfl,
    fun n hn hn' j hj hp => ?_, fun a _ _ => rfl, fun _ _ => rfl⟩
  · obtain ⟨h₁, h₂⟩ := mem_userDirs.mp hd
    exact absurd ((habs d h₁ h₂).symm.trans hp) Bool.false_ne_true
  · simp only [Tasks.boot]
    split_ifs <;> norm_num
  · have hp' : present ((Memory.boot other).word (16 * n + j)) = true := hp
    rw [habs _ (by omega) (by omega)] at hp'
    exact absurd hp' Bool.false_ne_true

/-- The bytes of task 0 that are known are shown by its pages. -/
theorem Inv.agrees_zero (h : Inv other s) (hoff : off < s.limit 0) {b : BitVec 8}
    (hb : bootByte other off = some b) :
    ∃ w, s.mem.Shows (slotEntry 0 off) (off % 4096 / 4) w ∧ byteOf w (off % 4) = b := by
  rw [h.limit_zero] at hoff
  rw [bootByte] at hb
  split_ifs at hb with hlo
  refine ⟨_, ?_, Option.some.inj hb⟩
  have hpos : slotEntry 0 off = (0, off / 4096) := by
    rw [slotEntry]
    exact Prod.ext (by dsimp only; omega) (by dsimp only; omega)
  rw [hpos]
  exact h.shows_kernel (by omega) hoff

/-- Every event keeps the invariant and the relation to the history. -/
theorem agrees_step {es : List Event} {e : Event} (h : Inv other s ∧ Agrees other es s)
    (hstep : Step s e s') : Inv other s' ∧ Agrees other (e :: es) s' := by
  obtain ⟨hinv, hzero, hagree⟩ := h
  cases e with
  | fork parent child =>
    obtain ⟨hparent, hpos, hchild, hne, hempty, hok, hlimit⟩ := hstep
    obtain ⟨m, lim⟩ := s'
    dsimp only at hok hlimit
    subst hlimit
    obtain ⟨hinv', hcopy, hkept, -⟩ := hinv.fork hparent hpos hchild hne hempty hok
    refine ⟨hinv', fun off => ?_, fun n hn hn' off hoff b hb => ?_⟩
    · rw [lastByte, if_neg (by omega)]
      exact hzero off
    · dsimp only at hoff ⊢
      rw [lastByte] at hb
      by_cases hnc : n = child
      · subst hnc
        rw [if_pos rfl] at hb
        rw [Function.update_self] at hoff
        have hshows : ∃ w, s.mem.Shows (slotEntry parent off) (off % 4096 / 4) w ∧
            byteOf w (off % 4) = b := by
          rcases Nat.eq_zero_or_pos parent with rfl | hp
          · rw [hzero off] at hb
            exact hinv.agrees_zero hoff hb
          · exact hagree parent hp hparent off hoff b hb
        obtain ⟨w, hs, hw⟩ := hshows
        exact ⟨w, hcopy off hoff _ (by omega) w hs, hw⟩
      · rw [if_neg hnc] at hb
        rw [Function.update_of_ne hnc] at hoff
        have hlim := hinv.limit_le n
        obtain ⟨w, hs, hw⟩ := hagree n hn hn' off hoff b hb
        refine ⟨w, hkept _ (slotEntry_mem hn' (by omega) hn) ?_ _ (by omega) w hs, hw⟩
        rw [slotEntry]
        dsimp only
        omega
  | write m o v =>
    obtain ⟨hpos, hm, ho, hok, hlimit⟩ := hstep
    obtain ⟨mem', lim⟩ := s'
    dsimp only at hok hlimit
    subst hlimit
    have hlim := hinv.limit_le m
    have hx := slotEntry_mem hm (by omega : o < 0x4000000) hpos
    obtain ⟨m₁, hinv₁, hkept, hmap, hwr, -, rfl⟩ := hinv.write hpos hm ho hok
    obtain ⟨hinv₂, hself, hothers, -⟩ := hinv₁.store hx hmap hwr
      (k := o % 4096 / 4) (by omega) (setByte (m₁.word
        (frameOf (m₁.pte (slotEntry m o).1 (slotEntry m o).2) * 1024 + o % 4096 / 4)) (o % 4) v)
    refine ⟨hinv₂, fun off => ?_, fun n hn hn' off hoff b hb => ?_⟩
    · rw [lastByte, if_neg (by omega)]
      exact hzero off
    · dsimp only at hoff hself hothers ⊢
      have hlim' := hinv.limit_le n
      have hy := slotEntry_mem hn' (by omega : off < 0x4000000) hn
      rw [lastByte] at hb
      by_cases hsame : n = m ∧ off / 4 = o / 4
      · -- The word that has been stored to.
        obtain ⟨rfl, hword4⟩ := hsame
        have hentry : slotEntry n off = slotEntry n o := by
          rw [slotEntry, slotEntry]
          exact Prod.ext (by dsimp only; omega) (by dsimp only; omega)
        have hk : off % 4096 / 4 = o % 4096 / 4 := by omega
        rw [hentry, hk]
        refine ⟨_, hself, ?_⟩
        rw [byteOf_setByte _ _ (by omega)]
        by_cases hoo : off = o
        · rw [if_pos ⟨rfl, hoo⟩] at hb
          rw [if_pos (by rw [hoo])]
          exact Option.some.inj hb
        · rw [if_neg fun hc => hoo hc.2] at hb
          rw [if_neg (by omega)]
          obtain ⟨w, hs, hw⟩ := hagree n hn hn' off hoff b hb
          rw [hentry, hk] at hs
          rcases hkept _ hx _ (by omega) w hs with ⟨-, -, hw'⟩ | ⟨hno, -⟩
          · rw [hw']
            exact hw
          · exact absurd (hno.symm.trans hmap) Bool.false_ne_true
      · rw [if_neg fun hc => hsame ⟨hc.1, by rw [hc.2]⟩] at hb
        obtain ⟨w, hs, hw⟩ := hagree n hn hn' off hoff b hb
        refine ⟨w, hothers _ hy _ (by omega) (fun hc => hsame ?_) w
          (hkept _ hy _ (by omega) w hs), hw⟩
        obtain ⟨hc₁, hc₂⟩ := Prod.mk.inj hc
        obtain ⟨hc₃, hc₄⟩ := slotEntry_inj (by omega : off < 0x4000000)
          (by omega : o < 0x4000000) hc₁
        exact ⟨hc₃, by omega⟩
  | access m o =>
    obtain ⟨hpos, hm, ho, hok, hlimit⟩ := hstep
    obtain ⟨mem', lim⟩ := s'
    dsimp only at hok hlimit
    subst hlimit
    obtain ⟨hinv', hkept, -⟩ := hinv.touch hpos hm ho hok
    refine ⟨hinv', fun off => ?_, fun n hn hn' off hoff b hb => ?_⟩
    · rw [lastByte]
      exact hzero off
    · rw [lastByte] at hb
      have hlim := hinv.limit_le n
      dsimp only at hoff ⊢
      obtain ⟨w, hs, hw⟩ := hagree n hn hn' off hoff b hb
      exact ⟨w, hkept _ (slotEntry_mem hn' (by omega) hn) _ (by omega) w hs, hw⟩
  | release m limit =>
    obtain ⟨hpos, hm, hlimit, hok, hupd⟩ := hstep
    obtain ⟨mem', lim⟩ := s'
    dsimp only at hok hupd
    subst hupd
    obtain ⟨hinv', hgone, hkept, -⟩ := hinv.release hpos hm hlimit hok
    refine ⟨hinv', fun off => ?_, fun n hn hn' off hoff b hb => ?_⟩
    · rw [lastByte, if_neg (by omega)]
      exact hzero off
    · dsimp only at hoff ⊢
      rw [lastByte] at hb
      by_cases hnm : n = m
      · subst hnm
        rw [Function.update_self] at hoff
        rw [if_pos rfl] at hb
        refine ⟨0, .inr ⟨hgone off (by omega), rfl⟩, ?_⟩
        rw [← Option.some.inj hb, byteOf]
        simp
      · rw [if_neg hnm] at hb
        rw [Function.update_of_ne hnm] at hoff
        have hlim := hinv.limit_le n
        obtain ⟨w, hs, hw⟩ := hagree n hn hn' off hoff b hb
        refine ⟨w, hkept _ (slotEntry_mem hn' (by omega) hn) ?_ _ (by omega) w hs, hw⟩
        rw [slotEntry]
        dsimp only
        omega

/-- The invariant and the relation to the history hold in every state of every run. -/
theorem agrees_of_runs {es : List Event} (h : Runs Step (boot other) es s) :
    Inv other s ∧ Agrees other es s := by
  refine h.simulation (R := fun es s => Inv other s ∧ Agrees other es s)
    (fun es s e s' hR hs => agrees_step hR hs) ⟨Inv.boot other, fun off => ?_, ?_⟩
  · rw [lastByte, if_pos rfl]
  · intro n hn hn' off hoff
    simp only [boot] at hoff
    rw [if_neg (by omega)] at hoff
    omega

end Tasks

/-- **Copy-on-write isolation.** After every run of forks, stores, accesses and releases, a process
that reads a byte of its segment, two frames being free for the fault it may meet, gets the byte it
last stored there since it was forked, or else the one its parent had there at that moment, or else
zero; no event of another process appears in this. -/
theorem userRead_eq_lastByte {other : ℕ → Word} {es : List Event} {s : Tasks} {n off : ℕ}
    {b : BitVec 8} (h : Runs Tasks.Step (Tasks.boot other) es s) (hpos : 1 ≤ n) (hn : n < 64)
    (hoff : off < s.limit n) (hfree : s.mem.TwoFree) (hb : lastByte other es n off = some b) :
    ∃ m, s.mem.userRead (linear n off) = .ok (b, m) := by
  obtain ⟨hinv, -, hagree⟩ := Tasks.agrees_of_runs h
  have hlim := hinv.limit_le n
  have hd := dirOf_linear_mem hn (by omega : off < 0x4000000) hpos
  have hx := slotEntry_mem hn (by omega : off < 0x4000000) hpos
  obtain ⟨m, ht⟩ := hinv.exact.touch_ok hfree false hd
  obtain ⟨-, hkept, hmap, -⟩ := hinv.touch hpos hn hoff ht
  obtain ⟨w, hs, hw⟩ := hagree n hpos hn off hoff b hb
  have hmod : (linear n off).toNat % 4 = off % 4 := by
    rw [toNat_linear hn (by omega)]
    omega
  refine ⟨m, ?_⟩
  simp only [Memory.userRead, ht, bind, Except.bind, pure, Except.pure]
  rw [Memory.wordOf, mod_linear hn (by omega), dirOf_linear hn (by omega),
    indexOf_linear hn (by omega), hmod]
  rcases hkept _ hx _ (by omega) w hs with ⟨-, -, hw'⟩ | ⟨hno, -⟩
  · change m.word (frameOf (m.pte (slotEntry n off).1 (slotEntry n off).2) * 1024 +
      off % 4096 / 4) = w at hw'
    rw [slotEntry] at hw'
    rw [hw', hw]
  · exact absurd (hno.symm.trans hmap) Bool.false_ne_true

/-- Task 0 has forked twice, and the first child has stored a 9 at the offset 5000, to a page that
it shared with the others. -/
theorem exists_unshared : ∃ s, Runs Tasks.Step (Tasks.boot fun _ => 0)
    [.write 1 5000 9, .fork 0 2, .fork 0 1] s ∧ s.limit 1 = 0xA0000 ∧ s.limit 2 = 0xA0000 ∧
      s.mem.TwoFree := by
  -- The three steps are executed.
  have hrun : (match (Memory.boot fun _ => 0).copyPageTables (linear 0 0) (linear 1 0) 0xA0000 with
    | .error _ => false
    | .ok (r₁, m₁) => match m₁.copyPageTables (linear 0 0) (linear 2 0) 0xA0000 with
      | .error _ => false
      | .ok (r₂, m₂) => match m₂.userWrite (linear 1 5000) 9 with
        | .error _ => false
        | .ok m => decide (r₁ = 0 ∧ r₂ = 0 ∧ (∀ j : Fin 16, present (m₁.word (32 + j)) = false) ∧
            m.memMap 0 = 0 ∧ m.memMap 1 = 0)) = true := by
    decide +kernel
  split at hrun
  · cases hrun
  rename_i r₁ m₁ h₁
  split at hrun
  · cases hrun
  rename_i r₂ m₂ h₂
  split at hrun
  · cases hrun
  rename_i m h
  obtain ⟨rfl, rfl, hempty, h0, h1⟩ := of_decide_eq_true hrun
  have hboot : ∀ j < 16, present ((Memory.boot fun _ => 0).word (16 * 1 + j)) = false := by decide
  let lim₁ := Function.update (Tasks.boot fun _ => 0).limit 1 0xA0000
  let lim₂ := Function.update lim₁ 2 0xA0000
  have hfork₁ : Tasks.Step (Tasks.boot fun _ => 0) (.fork 0 1) ⟨m₁, lim₁⟩ :=
    ⟨by decide, by decide, by decide, by decide, hboot, h₁, rfl⟩
  have hfork₂ : Tasks.Step ⟨m₁, lim₁⟩ (.fork 0 2) ⟨m₂, lim₂⟩ :=
    ⟨by decide, by decide, by decide, by decide, fun j hj => hempty ⟨j, hj⟩, h₂, rfl⟩
  have hwrite : Tasks.Step ⟨m₂, lim₂⟩ (.write 1 5000 9) ⟨m, lim₂⟩ :=
    ⟨by decide, by decide, (by decide : 5000 < 0xA0000), h, rfl⟩
  exact ⟨_, .cons (.cons (.cons .nil hfork₁) hfork₂) hwrite, rfl, rfl, 0, 1, by decide, by decide,
    by decide, h0, h1⟩

/-- The child that has stored a 9 reads it, and its brother reads what task 0 had there. -/
theorem userRead_eq_nine : ∃ s, Runs Tasks.Step (Tasks.boot fun _ => 0)
    [.write 1 5000 9, .fork 0 2, .fork 0 1] s ∧
      (∃ m, s.mem.userRead (linear 1 5000) = .ok (9, m)) ∧
      ∃ m, s.mem.userRead (linear 2 5000) = .ok (7, m) := by
  obtain ⟨s, hs, h₁, h₂, hfree⟩ := exists_unshared
  exact ⟨s, hs, userRead_eq_lastByte hs (by decide) (by decide) (by rw [h₁]; decide) hfree rfl,
    userRead_eq_lastByte hs (by decide) (by decide) (by rw [h₂]; decide) hfree (by decide +kernel)⟩

end Linux001.Mm
