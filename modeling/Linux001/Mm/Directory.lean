import Linux001.Mm.Isolation
import Mathlib.Order.Interval.Set.Defs
import Mathlib.Data.Set.Insert

/-!
# The page directory under the functions of `mm/memory.c`

Besides keeping the counts exact, every function of `mm/memory.c` leaves the page directory and the
two tables of the kernel as they are, except for the directory entries it is called for. Functions
that are called for ranges of absent or of arbitrary entries of user slots do not panic.

## Main definitions

* `Kept D s s'`: in the first three frames of memory, words outside `D` are unchanged.
* `KernelMap`: the first 16 directory entries and the tables of the kernel are those of
  `setup_paging`.
* `Memory.exhausted`: the memory in which a fault handler that runs out of memory leaves.

## Main results

* `Exact.copyDirs_ok`: copying to absent directory entries never finds one that exists.
* `Exact.touch_kept`, `Exact.writeVerify_kept`: accesses, and `write_verify` of any address.
-/

namespace Linux001.Mm

/-- In the frames of the page directory and of the tables of the kernel, words outside `D` are
unchanged. -/
def Kept (D : Set ℕ) (s s' : Memory) : Prop := ∀ a < 3 * 1024, a ∉ D → s'.word a = s.word a

namespace Kept

variable {D D' : Set ℕ} {s s' s'' : Memory}

theorem refl (D : Set ℕ) (s : Memory) : Kept D s s := fun _ _ _ => rfl

theorem mono (h : Kept D s s') (hD : D ⊆ D') : Kept D' s s' :=
  fun a ha hna => h a ha fun hm => hna (hD hm)

theorem trans (h : Kept D s s') (h' : Kept D s' s'') : Kept D s s'' := fun a ha hna => by
  rw [h' a ha hna, h a ha hna]

end Kept

/-- The first 16 directory entries and the two tables of the kernel are those `setup_paging` has
made. -/
def KernelMap (s : Memory) : Prop :=
  ∀ a < 3 * 1024, (a < 16 ∨ 1024 ≤ a) → s.word a = (Memory.boot fun _ => 0).word a

namespace KernelMap

variable {D : Set ℕ} {s s' : Memory}

theorem boot (other : ℕ → Word) : KernelMap (Memory.boot other) := fun a ha _ => by
  simp only [Memory.boot]
  split_ifs <;> rfl

theorem of_kept (h : KernelMap s) (hk : Kept D s s') (hD : D ⊆ Set.Ico 16 1024) :
    KernelMap s' := fun a ha hor => by
  rw [hk a ha fun hm => ?_]
  · exact h a ha hor
  · obtain ⟨h₁, h₂⟩ := hD hm
    omega

theorem dir_zero (h : KernelMap s) : s.word 0 = 0x1007 := by
  rw [h 0 (by norm_num) (.inl (by norm_num))]
  rfl

theorem dir_one (h : KernelMap s) : s.word 1 = 0x2007 := by
  rw [h 1 (by norm_num) (.inl (by norm_num))]
  rfl

theorem dir_absent (h : KernelMap s) {d : ℕ} (hlo : 2 ≤ d) (hhi : d < 16) :
    present (s.word d) = false := by
  have hword : s.word d = 0 := by
    rw [h d (by omega) (.inl hhi)]
    simp only [Memory.boot]
    rw [if_neg (by omega), if_neg (by omega), if_pos (by omega)]
  rw [hword]
  rfl

/-- The entries of the tables of the kernel map the memory one to one, for all accesses. -/
theorem entry (h : KernelMap s) {a : ℕ} (hlo : 1024 ≤ a) (hhi : a < 3 * 1024) :
    (s.word a).toNat = (a - 1024) * 4096 + 7 := by
  rw [h a hhi (.inr hlo)]
  simp only [Memory.boot]
  rw [if_neg (by omega), if_neg (by omega), if_neg (by omega), if_pos hhi, BitVec.toNat_ofNat,
    Nat.mod_eq_of_lt (by omega)]

end KernelMap

/-- The memory in which a fault handler that runs out of memory calls `do_exit`: `do_no_page` may
have got its page by then, and does not give it back. -/
def Memory.exhausted (s : Memory) : Memory :=
  match s.getFreePage with
  | none => s
  | some (_, s') => s'

/-- In the table of the directory entry `d`, if it is present, the entries below `m` are absent. -/
def Memory.Clear (s : Memory) (d m : ℕ) : Prop :=
  present (s.word d) = true → ∀ i < m, present (s.pte d i) = false

variable {s s' : Memory} {held : Finset ℕ} {x : ℕ × ℕ} {p : ℕ}

namespace Exact

/-! ### Pages of the kernel -/

theorem getFreePage_kept (h : Exact s held) {page : ℕ} (hg : s.getFreePage = some (page, s')) :
    ∃ p, page = p * 4096 ∧ 512 ≤ p ∧ p ∉ held ∧ Exact s' (insert p held) ∧ Kept ∅ s s' := by
  obtain ⟨p, hpage, hlo, -, hrefs, hex, -, hword⟩ := h.getFreePage hg
  refine ⟨p, hpage, hlo, not_mem_of_refs hrefs, hex, fun a ha _ => ?_⟩
  rw [hword, if_neg (by omega)]

theorem exhausted (h : Exact s held) :
    ∃ held', held ⊆ held' ∧ Exact s.exhausted held' ∧ Kept ∅ s s.exhausted := by
  rw [Memory.exhausted]
  cases hg : s.getFreePage with
  | none => exact ⟨held, Finset.Subset.refl _, h, Kept.refl _ _⟩
  | some r =>
    obtain ⟨page, s'⟩ := r
    obtain ⟨p, -, -, -, hex, hk⟩ := h.getFreePage_kept hg
    exact ⟨insert p held, Finset.subset_insert p held, hex, hk⟩

theorem freePage_kept (h : Exact s held) (hp : p ∈ held) :
    ∃ s', Memory.freePage (p * 4096) s = .ok s' ∧ Exact s' (held.erase p) ∧ Kept ∅ s s' := by
  obtain ⟨hok, hex⟩ := h.unhold hp
  exact ⟨_, hok, hex, fun _ _ _ => rfl⟩

/-! ### Ranges of tables -/

/-- Releasing a range of directory entries of user slots leaves them absent. -/
theorem freePageTables_kept (h : Exact s held) {from' : Word} (size : Word)
    (halign : from'.toNat % 2 ^ 22 = 0) (hlo : 16 ≤ dirOf from')
    (hhi : dirOf from' + Memory.dirCount size ≤ 1024) :
    ∃ s', Memory.freePageTables from' size s = .ok s' ∧ Exact s' held ∧
      (∀ j < Memory.dirCount size, present (s'.word (dirOf from' + j)) = false) ∧
      Kept (Set.Ico (dirOf from') (dirOf from' + Memory.dirCount size)) s s' := by
  obtain ⟨s', hok, hex, habs, hword⟩ := h.freePageTables_ok halign hlo hhi
  refine ⟨s', hok, hex, habs, fun a ha hna => hword a fun j hj => ⟨fun hc => ?_, fun hp => ?_⟩⟩
  · exact hna (Set.mem_Ico.mpr ⟨by omega, by omega⟩)
  · have := (h.table_mem _ (mem_userDirs.mpr ⟨by omega, by omega⟩) hp).1
    omega

/-- One turn of `copy_page_tables` to an absent directory entry does not panic. -/
theorem copyDir_kept (h : Exact s held) {nr fromDir toDir : ℕ} (hto : toDir ∈ userDirs)
    (hrange : CopyRange nr fromDir) (habs : present (s.word toDir) = false) :
    s.copyDir nr fromDir toDir = .ok none ∨
    ∃ s', s.copyDir nr fromDir toDir = .ok (some s') ∧ Exact s' held ∧ Kept {toDir} s s' := by
  have hcases : s.copyDir nr fromDir toDir = .ok none ∨
      ∃ s', s.copyDir nr fromDir toDir = .ok (some s') := by
    rw [Memory.copyDir, habs, if_neg (by simp)]
    split_ifs
    · cases s.getFreePage with
      | none => exact .inl rfl
      | some r => exact .inr ⟨_, rfl⟩
    · exact .inr ⟨s, rfl⟩
  refine hcases.imp id ?_
  rintro ⟨s', hok⟩
  refine ⟨s', hok, ?_⟩
  obtain ⟨hex, -, hsame, hcopy⟩ := h.copyDir hto hrange hok
  refine ⟨hex, fun a ha hna => ?_⟩
  rw [Set.mem_singleton_iff] at hna
  by_cases hpres : present (s.word fromDir) = true
  · obtain ⟨t, hlo, -, -, hword⟩ := hcopy hpres
    rw [hword, copiedWord, if_neg hna, if_neg (by omega), if_neg]
    rintro ⟨hdiv, hmod, -, hframe⟩
    rcases hrange with ⟨hd, -⟩ | ⟨rfl, rfl⟩
    · have := (h.table_mem fromDir hd hpres).1
      omega
    · -- The entries copied from the table of the kernel map frames that are not counted.
      rw [h.kernel_dir] at hdiv
      have hlow := h.kernel_table (a % 1024) (by omega)
      rw [show 1024 + a % 1024 = a by omega] at hlow
      omega
  · rw [hsame (by simpa using hpres)]

/-- Copying to absent directory entries does not panic. -/
theorem copyDirs_ok {nr : ℕ} : ∀ (size fromDir toDir : ℕ) {s : Memory}, Exact s held →
    (∀ j < size, toDir + j ∈ userDirs) → (∀ j < size, CopyRange nr (fromDir + j)) →
    (∀ j < size, present (s.word (toDir + j)) = false) →
      ∃ r s', Memory.copyDirs nr size fromDir toDir s = .ok (r, s') ∧ Exact s' held ∧
        Kept (Set.Ico toDir (toDir + size)) s s'
  | 0, _, _, s, h, _, _, _ => ⟨0, s, rfl, h, Kept.refl _ _⟩
  | size + 1, fromDir, toDir, s, h, hto, hfrom, habs => by
    rw [Memory.copyDirs]
    rcases h.copyDir_kept (hto 0 (by omega)) (hfrom 0 (by omega)) (habs 0 (by omega)) with
      hd | ⟨s₁, hd, hex, hk⟩
    · rw [add_zero, add_zero] at hd
      rw [hd]
      exact ⟨-1, s, rfl, h, Kept.refl _ _⟩
    · rw [add_zero, add_zero] at hd
      rw [hd]
      obtain ⟨r, s', hok, hex', hk'⟩ := copyDirs_ok size (fromDir + 1) (toDir + 1) hex
        (fun j hj => by rw [add_right_comm]; exact hto (j + 1) (by omega))
        (fun j hj => by rw [add_right_comm]; exact hfrom (j + 1) (by omega))
        (fun j hj => by
          have hj' := mem_userDirs.mp (hto (j + 1) (by omega))
          rw [add_right_comm, add_assoc, hk _ (by omega) fun hc => ?_]
          · exact habs (j + 1) (by omega)
          · rw [Set.mem_singleton_iff] at hc
            omega)
      refine ⟨r, s', hok, hex', (hk.mono fun a ha => ?_).trans (hk'.mono fun a ha => ?_)⟩
      · rw [Set.mem_singleton_iff] at ha
        exact Set.mem_Ico.mpr ⟨by omega, by omega⟩
      · obtain ⟨h₁, h₂⟩ := Set.mem_Ico.mp ha
        exact Set.mem_Ico.mpr ⟨by omega, by omega⟩

/-! ### Mapping a page -/

/-- `put_page` at the entry `m` of a table whose entries up to `m` are absent: the entries below `m`
still are, and the page is held on if memory for the table runs out. -/
theorem putPage_kept (h : Exact s held) (hp : p ∈ held) (address : Word)
    (hd : dirOf address ∈ userDirs) (hclear : s.Clear (dirOf address) (indexOf address + 1)) :
    ∃ held', Exact (s.putPage (p * 4096) address).2 held' ∧ held.erase p ⊆ held' ∧
      (s.putPage (p * 4096) address).2.Clear (dirOf address) (indexOf address) ∧
      Kept {dirOf address} s (s.putPage (p * 4096) address).2 := by
  have hdlt := (mem_userDirs.mp hd).2
  rcases h.putPage hp hd fun hpres => hclear hpres _ (Nat.lt_succ_self _) with
    ⟨hput, -⟩ | ⟨s', hput, hex, hcase⟩
  · rw [hput]
    exact ⟨held, h, Finset.erase_subset p held, fun hpres i hi => hclear hpres i (by omega),
      Kept.refl _ _⟩
  · rw [hput]
    refine ⟨held.erase p, hex, Finset.Subset.refl _, ?_⟩
    rcases hcase with ⟨hpres, hword⟩ | ⟨-, t, hlo, hhi, -, hword⟩
    · have hframe := (h.table_mem _ hd hpres).1
      have hdir : s'.word (dirOf address) = s.word (dirOf address) := by
        rw [hword, Memory.store_word_of_ne _ (by omega)]
      refine ⟨fun _ i hi => ?_, fun a ha _ => ?_⟩
      · rw [Memory.pte, hdir, hword, Memory.store_word_of_ne _ (by omega)]
        exact hclear hpres i (by omega)
      · rw [hword, Memory.store_word_of_ne _ (by omega)]
    · have hdir : s'.word (dirOf address) = entryFor t := by
        rw [hword, if_neg (by omega), if_pos rfl]
      refine ⟨fun _ i hi => ?_, fun a ha hna => ?_⟩
      · have hidx := indexOf_lt address
        rw [Memory.pte, hdir, frameOf_entryFor (by omega), hword, if_neg (by omega),
          if_neg (by omega), if_pos (entry_div (by omega) t)]
        rfl
      · rw [Set.mem_singleton_iff] at hna
        rw [hword, if_neg (by omega), if_neg hna, if_neg (by omega)]

/-! ### Faults -/

/-- `un_wp_page` on a present entry leaves the directory alone. -/
theorem unWpPage_kept (h : Exact s held) (hx : x ∈ userEntries) (hdir : present (s.word x.1) = true)
    (hpres : present (s.pte x.1 x.2) = true) :
    Memory.unWpPage (frameOf (s.word x.1) * 1024 + x.2) s = .error .doExit ∨
    ∃ s', Memory.unWpPage (frameOf (s.word x.1) * 1024 + x.2) s = .ok s' ∧ Exact s' held ∧
      Kept ∅ s s' := by
  have hlo := (h.table_mem x.1 (mem_userEntries.mp hx).1 hdir).1
  rcases h.unWpPage hx hdir hpres with
    ⟨he, -⟩ | ⟨s', hok, hex, ⟨-, -, hword⟩ | ⟨q, hq, -, -, hword⟩⟩
  · exact .inl he
  · refine .inr ⟨s', hok, hex, fun a ha _ => ?_⟩
    rw [hword, Memory.store_word_of_ne _ (by omega)]
  · refine .inr ⟨s', hok, hex, fun a ha _ => ?_⟩
    rw [hword, if_neg (by omega), if_neg (by omega)]

/-- `do_no_page` at an address of a user slot that is not mapped. -/
theorem doNoPage_kept (h : Exact s held) {address : Word} (hd : dirOf address ∈ userDirs)
    (hm : s.mapped (dirOf address) (indexOf address) = false) :
    s.doNoPage address = .error .doExit ∨
    ∃ s', s.doNoPage address = .ok s' ∧ Exact s' held ∧ Kept {dirOf address} s s' := by
  have hdlt := (mem_userDirs.mp hd).2
  rw [Memory.doNoPage]
  cases hg : s.getFreePage with
  | none => exact .inl rfl
  | some r =>
    obtain ⟨page, s₁⟩ := r
    obtain ⟨p, rfl, hlo, -, hrefs, hex, -, hword⟩ := h.getFreePage hg
    have hdir : s₁.word (dirOf address) = s.word (dirOf address) := by
      rw [hword, if_neg (by omega)]
    have habs : present (s₁.word (dirOf address)) = true →
        present (s₁.pte (dirOf address) (indexOf address)) = false := fun hpres => by
      rw [hdir] at hpres
      have htab : frameOf (s.word (dirOf address)) ≠ p := fun hc =>
        not_usesTable_of_refs hrefs hd ⟨hpres, hc⟩
      rw [Memory.mapped, hpres, Bool.true_and] at hm
      rw [Memory.pte, hdir, hword, entry_div (indexOf_lt address), if_neg htab]
      exact hm
    dsimp only
    rcases hex.putPage (Finset.mem_insert_self p held) hd habs with
      ⟨hput, -⟩ | ⟨s', hput, hex', hcase⟩
    · rw [hput]
      exact .inl rfl
    · rw [hput]
      rw [Finset.erase_insert (not_mem_of_refs hrefs)] at hex'
      refine .inr ⟨s', rfl, hex', fun a ha hna => ?_⟩
      rw [Set.mem_singleton_iff] at hna
      have hold : s₁.word a = s.word a := by rw [hword, if_neg (by omega)]
      rcases hcase with ⟨hpres, hw⟩ | ⟨-, t, ht, -, -, hw⟩
      · have hframe := (hex.table_mem _ hd hpres).1
        rw [hw, Memory.store_word_of_ne _ (by omega), hold]
      · rw [hw, if_neg (by omega), if_neg hna, if_neg (by omega), hold]

/-- An access to an address of a user slot, with the fault it may meet. -/
theorem touch_kept (h : Exact s held) (write : Bool) {address : Word}
    (hd : dirOf address ∈ userDirs) :
    s.touch write address = .error .doExit ∨
    ∃ s', s.touch write address = .ok s' ∧ Exact s' held ∧ Kept {dirOf address} s s' := by
  rw [Memory.touch]
  split_ifs with hm hprot
  · obtain ⟨hdir, hpres⟩ := (Memory.mapped_iff s).mp hm
    rw [Memory.doWpPage, Memory.entryOf_eq]
    refine (h.unWpPage_kept (x := (dirOf address, indexOf address))
      (mem_userEntries.mpr ⟨hd, indexOf_lt address⟩) hdir hpres).imp id ?_
    rintro ⟨s', hok, hex, hk⟩
    exact ⟨s', hok, hex, hk.mono (Set.empty_subset _)⟩
  · exact .inr ⟨s, rfl, h, Kept.refl _ _⟩
  · exact h.doNoPage_kept hd (by simpa using hm)

/-- Task 0 never faults in its first 640 kB. -/
theorem touch_zero (hk : KernelMap s) (write : Bool) {off : ℕ} (hoff : off < 0xA0000) :
    s.touch write (linear 0 off) = .ok s := by
  have hdir : dirOf (linear 0 off) = 0 := by
    rw [dirOf_linear (by norm_num) (by omega)]
    omega
  have hidx := indexOf_linear (n := 0) (by norm_num) (by omega : off < 0x4000000)
  have hpte : s.pte 0 (indexOf (linear 0 off)) = s.word (1024 + off / 4096) := by
    rw [Memory.pte, hk.dir_zero, hidx, Nat.mod_eq_of_lt (by omega)]
    rfl
  have hnat := hk.entry (a := 1024 + off / 4096) (by omega) (by omega)
  have hbit (i : ℕ) : (s.word (1024 + off / 4096)).getLsbD i =
      ((1024 + off / 4096 - 1024) * 4096 + 7).testBit i := by
    rw [BitVec.getLsbD, hnat]
  have hm : s.mapped 0 (indexOf (linear 0 off)) = true := by
    rw [Memory.mapped, hpte, hk.dir_zero, Bool.and_eq_true, present_iff, present_iff, hnat]
    exact ⟨rfl, by omega⟩
  have huser : userBit (s.word (1024 + off / 4096)) = true := by
    rw [userBit, hbit, Nat.testBit_eq_decide_div_mod_eq]
    simp only [decide_eq_true_eq]
    omega
  have hwr : writable (s.word (1024 + off / 4096)) = true := by
    rw [writable, hbit, Nat.testBit_eq_decide_div_mod_eq]
    simp only [decide_eq_true_eq]
    omega
  have hprot : s.protection write 0 (indexOf (linear 0 off)) = false := by
    rw [Memory.protection, hpte, huser, hwr, hk.dir_zero]
    cases write <;> rfl
  rw [Memory.touch, hdir, if_pos hm, hprot, if_neg Bool.false_ne_true]

/-- `write_verify` of any linear address, in a user slot or not. -/
theorem writeVerify_kept (h : Exact s held) (hk : KernelMap s) (address : Word) :
    s.writeVerify address = .error .doExit ∨
    ∃ s', s.writeVerify address = .ok s' ∧ Exact s' held ∧ Kept ∅ s s' := by
  have hidx := indexOf_lt address
  have hdlt : dirOf address < 1024 := by
    have := address.isLt
    rw [dirOf_eq]
    omega
  rw [Memory.writeVerify, Memory.entryOf_eq]
  split_ifs with hdir hprot
  · by_cases hd : 16 ≤ dirOf address
    · have hpres : present (s.pte (dirOf address) (indexOf address)) = true := by
        have hmod := congrArg BitVec.toNat hprot
        rw [BitVec.toNat_and, Nat.and_comm, show (3 : Word).toNat = 2 ^ 2 - 1 from rfl,
          Nat.and_two_pow_sub_one_eq_mod] at hmod
        rw [present_iff, Memory.pte]
        have hone : (1 : Word).toNat = 1 := rfl
        omega
      exact h.unWpPage_kept (x := (dirOf address, indexOf address))
        (mem_userEntries.mpr ⟨mem_userDirs.mpr ⟨hd, hdlt⟩, hidx⟩) hdir hpres
    · -- The entries of the tables of the kernel are writable.
      exfalso
      have hframe : 1 ≤ frameOf (s.word (dirOf address)) ∧
          frameOf (s.word (dirOf address)) ≤ 2 := by
        by_cases h₀ : dirOf address = 0
        · rw [h₀, hk.dir_zero]
          decide
        by_cases h₁ : dirOf address = 1
        · rw [h₁, hk.dir_one]
          decide
        · rw [hk.dir_absent (by omega) (by omega)] at hdir
          exact absurd hdir Bool.false_ne_true
      have hmod := congrArg BitVec.toNat hprot
      rw [BitVec.toNat_and, Nat.and_comm, show (3 : Word).toNat = 2 ^ 2 - 1 from rfl,
        Nat.and_two_pow_sub_one_eq_mod, hk.entry (by omega) (by omega)] at hmod
      have hone : (1 : Word).toNat = 1 := rfl
      omega
  · exact .inr ⟨s, rfl, h, Kept.refl _ _⟩
  · exact .inr ⟨s, rfl, h, Kept.refl _ _⟩

end Exact

end Linux001.Mm
