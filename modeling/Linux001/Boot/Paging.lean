import Linux001.Mm.Slots

/-!
# The identity map

The model of `setup_paging` in `boot/head.s`. The directory and the tables that it builds map the
first 8 MB one to one. The functions of `mm/memory.c` do not touch them, so that the kernel finds
the physical memory at its own addresses for ever.

## Main definitions

* `setupPaging`: the two loops of `setup_paging`, on the words of the memory.

## Main results

* `setupPaging_eq`: `setup_paging` builds the memory that the runs of `Linux001.Mm` start from.
* `identity_mapped`: in every run, the first 8 MB are mapped one to one, and the next 56 MB are not
  mapped.
-/

namespace Linux001.Boot

open Mm

/-! ### `setup_paging` -/

/-- `rep stosl` with `n` words, upwards from the word `a`. -/
def stosl (eax : Word) (a : ℕ) (word : ℕ → Word) : ℕ → ℕ → Word
  | 0 => word
  | n + 1 => Function.update (stosl eax a word n) (a + n) eax

/-- The loop `1: stosl ; subl $0x1000,%eax ; jge 1b`, downwards from the word `edi / 4`. -/
def fillPages : ℕ → Word → ℕ → (ℕ → Word) → Option (ℕ → Word)
  | 0, _, _, _ => none
  | fuel + 1, eax, edi, word =>
    let word := Function.update word (edi / 4) eax
    if BitVec.sle 0x1000 eax then fillPages fuel (eax - 0x1000) (edi - 4) word else some word

/-- `setup_paging`, up to the load of `%cr3`. -/
def setupPaging (fuel : ℕ) (word : ℕ → Word) : Option (ℕ → Word) :=
  let word := stosl 0 0 word (1024 * 3)
  let word := Function.update word 0 (0x1000 + 7)
  let word := Function.update word 1 (0x2000 + 7)
  fillPages fuel 0x7ff007 (0x2000 + 4092) word

theorem stosl_eq (eax : Word) (a : ℕ) (word : ℕ → Word) (n : ℕ) :
    stosl eax a word n = fun b => if a ≤ b ∧ b < a + n then eax else word b := by
  induction n with
  | zero =>
    funext b
    rw [stosl, if_neg (by omega)]
  | succ n ih =>
    funext b
    rw [stosl, ih, Function.update_apply]
    split_ifs <;> first | rfl | omega

/-- The entry of a page. -/
def pageEntry (k : ℕ) : Word := BitVec.ofNat 32 (k * 4096 + 7)

theorem toNat_pageEntry {k : ℕ} (hk : k < 2048) : (pageEntry k).toNat = k * 4096 + 7 := by
  rw [pageEntry, BitVec.toNat_ofNat, Nat.mod_eq_of_lt (by omega)]

/-- `jge` is taken unless the last entry has been stored. -/
theorem sle_pageEntry {k : ℕ} (hk : k < 2048) :
    BitVec.sle 0x1000 (pageEntry k) = decide (k ≠ 0) := by
  have hentry : (pageEntry k).toInt = (k * 4096 + 7 : ℕ) := by
    rw [BitVec.toInt_eq_toNat_of_lt, toNat_pageEntry hk]
    rw [toNat_pageEntry hk]
    omega
  have hpage : (0x1000 : Word).toInt = 4096 := rfl
  rw [BitVec.sle, hentry, hpage, decide_eq_decide]
  omega

theorem pageEntry_sub (k : ℕ) (hk : k + 1 < 2048) : pageEntry (k + 1) - 0x1000 = pageEntry k := by
  have hpage : (0x1000 : Word).toNat = 4096 := rfl
  refine BitVec.eq_of_toNat_eq ?_
  rw [BitVec.toNat_sub, toNat_pageEntry hk, toNat_pageEntry (by omega), hpage]
  omega

/-- The loop stores the entries of the pages from `k` on downwards. -/
theorem fillPages_eq (k : ℕ) (hk : k < 2048) (word : ℕ → Word) :
    fillPages (k + 1) (pageEntry k) (0x1000 + k * 4) word = some fun a =>
      if 1024 ≤ a ∧ a ≤ 1024 + k then pageEntry (a - 1024) else word a := by
  have hword (k : ℕ) : (0x1000 + k * 4) / 4 = 1024 + k := by omega
  induction k generalizing word with
  | zero =>
    rw [fillPages, sle_pageEntry hk, hword, if_neg (by simp)]
    congr 1
    funext a
    rw [Function.update_apply]
    split_ifs with h₁ h₂ h₂
    · rw [h₁]
    · omega
    · omega
    · rfl
  | succ k ih =>
    have hedi : 0x1000 + (k + 1) * 4 - 4 = 0x1000 + k * 4 := by omega
    rw [fillPages, sle_pageEntry hk, hword, pageEntry_sub k hk, hedi, if_pos (by simp),
      ih (by omega)]
    congr 1
    funext a
    by_cases hlower : 1024 ≤ a ∧ a ≤ 1024 + k
    · rw [if_pos hlower, if_pos (by omega)]
    · rw [if_neg hlower, Function.update_apply]
      by_cases hlast : a = 1024 + (k + 1)
      · rw [if_pos hlast, if_pos (by omega), hlast, Nat.add_sub_cancel_left]
      · rw [if_neg hlast, if_neg (by omega)]

/-- **`setup_paging` builds the memory from which the kernel starts**, whatever the memory held. -/
theorem setupPaging_eq (word : ℕ → Word) :
    setupPaging 2048 word = some (Memory.boot word).word := by
  have hfill (w : ℕ → Word) : fillPages 2048 0x7ff007 (0x2000 + 4092) w = some fun a =>
      if 1024 ≤ a ∧ a ≤ 1024 + 2047 then pageEntry (a - 1024) else w a :=
    fillPages_eq 2047 (by omega) w
  rw [setupPaging, stosl_eq, hfill]
  congr 1
  funext a
  simp only [Memory.boot, Function.update_apply]
  by_cases hpages : 1024 ≤ a ∧ a ≤ 1024 + 2047
  · have h₀ : ¬a = 0 := by omega
    have h₁ : ¬a = 1 := by omega
    have hdir : ¬a < 1024 := by omega
    have htables : a < 3 * 1024 := by omega
    simp only [hpages, h₀, h₁, hdir, htables, and_self, if_true, if_false]
    rfl
  · simp only [hpages, if_false]
    by_cases h₀ : a = 0
    · simp only [h₀, if_true]
      rfl
    · by_cases h₁ : a = 1
      · simp only [h₁, if_true]
        rfl
      · simp only [h₀, h₁, if_false]
        by_cases hdir : a < 1024
        · have hzero : 0 ≤ a ∧ a < 0 + 1024 * 3 := by omega
          simp only [hdir, hzero, and_self, if_true]
        · have hout : ¬a < 3 * 1024 := by omega
          have hzero : ¬(0 ≤ a ∧ a < 0 + 1024 * 3) := by omega
          rw [if_neg hdir, if_neg hout, if_neg hzero]

/-! ### The map -/

/-- An address of the first 8 MB is mapped to itself, for all accesses. -/
structure Identity (s : Memory) (address : Word) : Prop where
  mapped : s.mapped (dirOf address) (indexOf address) = true
  allowed : ∀ write, s.protection write (dirOf address) (indexOf address) = false
  word : s.wordOf address = address.toNat / 4

theorem Identity.of_kernelMap {s : Memory} (h : KernelMap s) {address : Word}
    (ha : address.toNat < highMemory) : Identity s address := by
  rw [highMemory] at ha
  have hdir : dirOf address < 2 := by
    rw [dirOf_eq]
    omega
  -- The entry of the page.
  have hword : present (s.word (dirOf address)) = true ∧ userBit (s.word (dirOf address)) = true ∧
      writable (s.word (dirOf address)) = true ∧
        frameOf (s.word (dirOf address)) = 1 + dirOf address := by
    obtain h0 | h1 : dirOf address = 0 ∨ dirOf address = 1 := by omega
    · rw [h0, h.dir_zero]
      decide
    · rw [h1, h.dir_one]
      decide
  obtain ⟨hpresent, huser, hwritable, hframe⟩ := hword
  have hindex : indexOf address = address.toNat / 4096 % 1024 := rfl
  have hpte : s.pte (dirOf address) (indexOf address) = s.word (1024 + address.toNat / 4096) := by
    rw [Memory.pte, hframe, dirOf_eq, hindex]
    exact congrArg s.word (by omega)
  have hnat := h.entry (a := 1024 + address.toNat / 4096) (by omega) (by omega)
  have hbit (i : ℕ) (hi : i < 3) : (s.word (1024 + address.toNat / 4096)).getLsbD i = true := by
    rw [BitVec.getLsbD, hnat, Nat.testBit_eq_decide_div_mod_eq]
    simp only [decide_eq_true_eq]
    interval_cases i <;> omega
  refine ⟨?_, fun write => ?_, ?_⟩
  · rw [Memory.mapped_iff, hpte]
    refine ⟨hpresent, ?_⟩
    rw [present_iff, hnat]
    omega
  · rw [Memory.protection, hpte, huser, hwritable, userBit, writable, hbit 2 (by omega),
      hbit 1 (by omega)]
    cases write <;> rfl
  · rw [Memory.wordOf, hpte, frameOf, hnat]
    omega

/-- **The kernel's map stays what `setup_paging` has built.** In every state of every run, each
address of the first 8 MB is mapped to itself, and no other address of the kernel's 64 MB is
mapped. -/
theorem identity_mapped {other : ℕ → Word} {es : List System.Event} {s : System}
    (h : Runs System.Step (System.boot other) es s) :
    setupPaging 2048 other = some (System.boot other).mem.word ∧
      (∀ address : Word, address.toNat < highMemory → Identity s.mem address) ∧
        ∀ address : Word, highMemory ≤ address.toNat → address.toNat < 0x4000000 →
          s.mem.mapped (dirOf address) (indexOf address) = false := by
  obtain ⟨held, hinv⟩ := System.Inv.of_runs h
  refine ⟨setupPaging_eq other, fun _ => .of_kernelMap hinv.kernel, fun address hlo hhi => ?_⟩
  rw [highMemory] at hlo
  have habsent := hinv.kernel.dir_absent (d := dirOf address)
    (by rw [dirOf_eq]; omega) (by rw [dirOf_eq]; omega)
  rw [Memory.mapped, habsent]
  rfl

/-- Task 0 has forked. -/
theorem identity_mapped_fork : ∃ s,
    Runs System.Step (System.boot fun _ => 0) [⟨0, .fork⟩] s ∧
      setupPaging 2048 (fun _ => 0) = some (System.boot fun _ => 0).mem.word ∧
        (∀ address : Word, address.toNat < highMemory → Identity s.mem address) ∧
          ∀ address : Word, highMemory ≤ address.toNat → address.toNat < 0x4000000 →
            s.mem.mapped (dirOf address) (indexOf address) = false := by
  have hfork : ∃ s, Runs System.Step (System.boot fun _ => 0) [⟨0, .fork⟩] s :=
    ⟨_, .cons .nil ⟨⟨by decide, _, rfl, rfl, rfl⟩, rfl⟩⟩
  obtain ⟨s, hs⟩ := hfork
  exact ⟨s, hs, identity_mapped hs⟩

end Linux001.Boot
