import Linux001.Lib.Ownership
import Linux001.Mm.Transitions
import Mathlib.Data.Finset.Card
import Mathlib.Data.Finset.Image

/-!
# Address-space slots are owned

The 16 directory entries of a task slot are present only while the task of the slot is alive, and
only within the limit of its data segment: `do_exit` and `do_execve` compute the range to free from
that limit, and `fork` copies the range of its parent. The pages of the kernel, task structures and
arguments of `do_execve`, are held by one task each.

## Main definitions

* `System.addr`: the addresses of the pages that belong to the task of a slot.
* `Holds`: the pages are held by the kernel and belong to one place only.
* `Task.InSlot`, `System.Inv`: the invariant.

## Main results

* `System.Inv.perform`: no operation panics, except those of task 0 on its own address space and
  `execve` with arguments that do not fit.
* `System.slots_owned`: the directory entries of a slot are owned by its task, tables are not
  shared, and no fork finds a directory entry that already exists.
-/

namespace Linux001.Mm

/-! ### Pages of tasks -/

/-- The addresses of the pages of a task: its structure, and the arguments copied for `execve`. -/
def Task.addr (t : Task) : ℕ → ℕ
  | 0 => t.page
  | i + 1 => t.args.elim 0 fun a => a.page i

/-- The addresses of the pages of the task in a slot. -/
def System.addr (s : System) (x : ℕ × ℕ) : ℕ := (s.task x.1).elim 0 fun t => t.addr x.2

/-- The frame `p` is the page at the place `x`. -/
def Own (A : ℕ × ℕ → ℕ) (x : ℕ × ℕ) (p : ℕ) : Prop := p ≠ 0 ∧ A x = p * 4096

/-- The addresses at all places are those of pages that the kernel holds, or zero, and no page has
two places. -/
structure Holds (held : Finset ℕ) (A : ℕ × ℕ → ℕ) : Prop where
  paged : ∀ x, A x % 4096 = 0
  excl : Exclusive (Own A) (· ∈ held) none

namespace Holds

variable {held held' : Finset ℕ} {A A' : ℕ × ℕ → ℕ} {x : ℕ × ℕ} {p : ℕ}

/-- Places may be cleared, and more pages be held. -/
theorem mono (h : Holds held A) (hsub : held ⊆ held') (hA : ∀ y, A' y = 0 ∨ A' y = A y) :
    Holds held' A' where
  paged y := by
    rcases hA y with hy | hy
    · rw [hy]
    · rw [hy, h.paged y]
  excl := by
    refine h.excl.mono (fun y q ⟨hq, hy⟩ => ⟨hq, ?_⟩) fun q hq => hsub hq
    rcases hA y with h₀ | h₀
    · omega
    · rw [← h₀, hy]

/-- The page at a place is one that the kernel holds. -/
theorem frame (h : Holds held A) (hx : A x ≠ 0) : ∃ p ∈ held, A x = p * 4096 := by
  have hmod := h.paged x
  have hown : Own A x (A x / 4096) := ⟨by omega, by omega⟩
  exact ⟨_, h.excl.used_of_own hown, hown.2⟩

theorem inj (h : Holds held A) {y : ℕ × ℕ} (hx : A x ≠ 0) (hxy : A x = A y) : x = y := by
  have hmod := h.paged x
  have hown : Own A x (A x / 4096) := ⟨by omega, by omega⟩
  exact h.excl.unique hown ⟨hown.1, by rw [← hxy, ← hown.2]⟩

/-- A page that was not held is put at a place. -/
theorem store (h : Holds held A) (hp : p ∉ held) (hx : A' x = p * 4096)
    (hA : ∀ y, y ≠ x → A' y = 0 ∨ A' y = A y) : Holds (insert p held) A' where
  paged y := by
    by_cases hyx : y = x
    · rw [hyx, hx]
      omega
    · rcases hA y hyx with hy | hy
      · rw [hy]
      · rw [hy, h.paged y]
  excl := by
    have htake : Exclusive (Own A) (· ∈ insert p held) (some p) := h.excl.take hp fun q hq =>
      Finset.mem_insert.mpr hq.symm
    refine htake.give (c := x) fun y q ⟨hq, hy⟩ => ?_
    by_cases hyx : y = x
    · refine .inr ⟨hyx, ?_⟩
      rw [hyx, hx] at hy
      omega
    · rcases hA y hyx with h₀ | h₀
      · omega
      · exact .inl ⟨hq, by rw [← h₀, hy]⟩

/-- The page at a place is given up. -/
theorem erase (h : Holds held A) (hp : p ≠ 0) (hx : A x = p * 4096)
    (hA : ∀ y, A' y = 0 ∨ A' y = A y ∧ y ≠ x) : Holds (held.erase p) A' where
  paged y := by
    rcases hA y with hy | ⟨hy, -⟩
    · rw [hy]
    · rw [hy, h.paged y]
  excl := by
    have hkeep : ∀ y q, Own A' y q → Own A y q ∧ y ≠ x := fun y q ⟨hq, hy⟩ => by
      rcases hA y with h₀ | ⟨h₀, hne⟩
      · omega
      · exact ⟨⟨hq, by rw [← h₀, hy]⟩, hne⟩
    exact h.excl.drop hkeep fun q hq hown =>
      Finset.mem_erase.mpr ⟨fun hqp => hown x ⟨hqp ▸ hp, by rw [hx, hqp]⟩ rfl, hq⟩

end Holds

/-! ### The pages of `do_execve` -/

/-- The addresses `A`, with the arguments of the task in the slot `n` in the pages of `page`. -/
def withPages (A : ℕ × ℕ → ℕ) (n : ℕ) (page : ℕ → ℕ) (x : ℕ × ℕ) : ℕ :=
  if x.1 = n ∧ x.2 ≠ 0 then page (x.2 - 1) else A x

theorem withPages_succ (A : ℕ × ℕ → ℕ) (n : ℕ) (page : ℕ → ℕ) (i : ℕ) :
    withPages A n page (n, i + 1) = page i := if_pos ⟨rfl, i.succ_ne_zero⟩

/-- Places of arguments may be cleared. -/
theorem withPages_clear {A : ℕ × ℕ → ℕ} {n : ℕ} {page page' : ℕ → ℕ}
    (hpage : ∀ i, page' i = 0 ∨ page' i = page i) (x : ℕ × ℕ) :
    withPages A n page' x = 0 ∨ withPages A n page' x = withPages A n page x := by
  rw [withPages, withPages]
  split_ifs
  · exact hpage _
  · exact .inr rfl

/-- Places of arguments other than `i` may be cleared, and `i` changed. -/
theorem withPages_other {A : ℕ × ℕ → ℕ} {n i : ℕ} {page page' : ℕ → ℕ}
    (hpage : ∀ j, j ≠ i → page' j = 0 ∨ page' j = page j) (x : ℕ × ℕ) (hx : x ≠ (n, i + 1)) :
    withPages A n page' x = 0 ∨ withPages A n page' x = withPages A n page x := by
  rw [withPages, withPages]
  split_ifs with hc
  · refine hpage _ fun hi => hx (Prod.ext hc.1 ?_)
    dsimp only
    omega
  · exact .inr rfl

/-- The place `i` is cleared, and others may be. -/
theorem withPages_drop {A : ℕ × ℕ → ℕ} {n i : ℕ} {page page' : ℕ → ℕ}
    (hpage : ∀ j, page' j = 0 ∨ page' j = page j ∧ j ≠ i) (x : ℕ × ℕ) :
    withPages A n page' x = 0 ∨
      withPages A n page' x = withPages A n page x ∧ x ≠ (n, i + 1) := by
  rw [withPages, withPages]
  split_ifs with hc
  · refine (hpage _).imp id fun ⟨heq, hne⟩ => ⟨heq, fun hx => hne ?_⟩
    rw [hx]
    rfl
  · exact .inr ⟨rfl, fun hx => hc ⟨by rw [hx], by rw [hx]; exact i.succ_ne_zero⟩⟩

namespace Pages

variable {A : ℕ × ℕ → ℕ} {n : ℕ} {m₀ : Memory} {held : Finset ℕ} {a : Pages}

/-- The state of the loops of `copy_strings`: the pages of the array are held, for the process in
the slot `n`. -/
structure Copying (A : ℕ × ℕ → ℕ) (n : ℕ) (m₀ : Memory) (held : Finset ℕ) (a : Pages) : Prop where
  exact : Exact a.mem held
  kept : Kept ∅ m₀ a.mem
  holds : Holds held (withPages A n a.page)
  bound : ∀ i, maxArgPages ≤ i → a.page i = 0

theorem Copying.getPages : ∀ (fuel i : ℕ) {held : Finset ℕ} {a : Pages}, Copying A n m₀ held a →
    ∃ held', Copying A n m₀ held' (getPages fuel i a).2
  | 0, _, held, _, h => ⟨held, h⟩
  | fuel + 1, i, held, a, h => by
    rw [Pages.getPages]
    split_ifs with hc
    swap
    · exact ⟨held, h⟩
    cases hg : a.mem.getFreePage with
    | none => exact ⟨held, h⟩
    | some r =>
      obtain ⟨page, m⟩ := r
      obtain ⟨p, rfl, -, hp, hex, hk⟩ := h.exact.getFreePage_kept hg
      refine getPages fuel (i + 1) (a := ⟨Function.update a.page i (p * 4096), m⟩)
        ⟨hex, h.kept.trans hk, ?_, fun j hj => ?_⟩
      · refine h.holds.store (x := (n, i + 1)) hp ?_ (withPages_other fun j hj => .inr ?_)
        · exact (withPages_succ A n _ i).trans (Function.update_self i (p * 4096) a.page)
        · exact Function.update_of_ne hj (p * 4096) a.page
      · have hne : j ≠ i := by omega
        exact (Function.update_of_ne hne (p * 4096) a.page).trans (h.bound j hj)

theorem Copying.copyStrings : ∀ (lens : List ℕ) (p : Word) {held : Finset ℕ} {a : Pages},
    Copying A n m₀ held a → copyStrings lens p a = .error .nonexistentPage ∨
      ∃ r held', copyStrings lens p a = .ok r ∧ Copying A n m₀ held' r.2
  | [], p, held, a, h => .inr ⟨(p, a), held, rfl, h⟩
  | len :: lens, p, held, a, h => by
    obtain ⟨held₁, h₁⟩ := h.getPages maxArgPages ((p - BitVec.ofNat 32 (len + 1)) >>> 12).toNat
    rw [Pages.copyStrings]
    rcases hg : Pages.getPages maxArgPages ((p - BitVec.ofNat 32 (len + 1)) >>> 12).toNat a with
      ⟨b, a₁⟩
    rw [hg] at h₁
    cases b with
    | false => exact .inr ⟨(0, a₁), held₁, rfl, h₁⟩
    | true =>
      dsimp only
      split_ifs
      · exact h₁.copyStrings lens _
      · exact .inl rfl

/-- All pages are given back when `copy_strings` fails. -/
theorem Copying.freePages (h : Copying A n m₀ held a) :
    ∃ m held', a.freePages = .ok m ∧ Exact m held' ∧ Kept ∅ m₀ m ∧
      Holds held' (withPages A n fun _ => 0) := by
  obtain ⟨m, hok, held', hex, hk, hh⟩ := foldlM_range_ok
    (f := fun m i => Memory.freePage (a.page i) m) (n := maxArgPages)
    (fun k m => ∃ held', Exact m held' ∧ Kept ∅ m₀ m ∧
      Holds held' (withPages A n fun i => if i < k then 0 else a.page i))
    ⟨held, h.exact, h.kept, by simpa using h.holds⟩ <| by
      rintro k hk m ⟨held', hex, hkept, hh⟩
      have hstep (i : ℕ) : (if i < k + 1 then 0 else a.page i) = 0 ∨
          (if i < k + 1 then 0 else a.page i) = (if i < k then 0 else a.page i) ∧ i ≠ k := by
        by_cases hi : i < k + 1
        · exact .inl (if_pos hi)
        · exact .inr ⟨by rw [if_neg hi, if_neg (by omega)], by omega⟩
      by_cases hzero : a.page k = 0
      · refine ⟨m, ?_, held', hex, hkept, hh.mono (Finset.Subset.refl _)
          (withPages_clear fun i => (hstep i).imp id And.left)⟩
        rw [hzero]
        rfl
      · have hat : withPages A n (fun i => if i < k then 0 else a.page i) (n, k + 1) =
          a.page k := by
          rw [withPages_succ, if_neg (lt_irrefl k)]
        obtain ⟨p, hp, hpage⟩ := hh.frame (hat ▸ hzero)
        obtain ⟨m', hok, hex', hk'⟩ := hex.freePage_kept hp
        rw [hat] at hpage
        exact ⟨m', hpage ▸ hok, held'.erase p, hex', hkept.trans hk',
          hh.erase (by omega) (hat.trans hpage) (withPages_drop hstep)⟩
  refine ⟨m, held', ?_, hex, hk, hh.mono (Finset.Subset.refl _) (withPages_clear fun _ => .inl rfl)⟩
  rw [Pages.freePages, hok]
  rfl

/-- The address of the argument page `i` of a program in the slot `n`. -/
def argAddress (n i : ℕ) : Word := linear n (0x3fe0000 + 4096 * i)

theorem argAddress_succ (n i : ℕ) : argAddress n (i + 1) - 4096 = argAddress n i := by
  rw [argAddress, argAddress, linear, linear,
    show n * 0x4000000 + (0x3fe0000 + 4096 * (i + 1)) =
        n * 0x4000000 + (0x3fe0000 + 4096 * i) + 4096
      by ring, BitVec.ofNat_add]
  exact BitVec.add_sub_cancel _ _

/-- `change_ldt` maps the argument pages, or leaves them held when memory for the table runs out. -/
theorem putPages_spec {page : ℕ → ℕ} (hpos : 1 ≤ n) (hn : n < 64) : ∀ {i : ℕ} {m : Memory}
    {held : Finset ℕ}, i ≤ maxArgPages → Exact m held →
    Holds held (withPages A n fun j => if j < i then page j else 0) →
    m.Clear (16 * n + 15) (992 + i) →
      ∃ held', Exact (putPages page i (argAddress n i) m) held' ∧
        Holds held' (withPages A n fun _ => 0) ∧
        Kept {16 * n + 15} m (putPages page i (argAddress n i) m)
  | 0, m, held, _, hex, hh, _ =>
    ⟨held, hex, hh.mono (Finset.Subset.refl _) (withPages_clear fun _ => .inl rfl), Kept.refl _ _⟩
  | i + 1, m, held, hi, hex, hh, hclear => by
    have hi' : i < 32 := hi
    have hdir : dirOf (argAddress n i) = 16 * n + 15 := by
      rw [argAddress, dirOf_linear hn (by omega)]
      omega
    have hidx : indexOf (argAddress n i) = 992 + i := by
      rw [argAddress, indexOf_linear hn (by omega)]
      omega
    have hstep (j : ℕ) : (if j < i then page j else 0) = 0 ∨
        (if j < i then page j else 0) = (if j < i + 1 then page j else 0) ∧ j ≠ i := by
      by_cases hj : j < i
      · exact .inr ⟨by rw [if_pos hj, if_pos (by omega)], by omega⟩
      · exact .inl (if_neg hj)
    rw [putPages, argAddress_succ]
    by_cases hzero : page i = 0
    · rw [if_neg (not_not.mpr hzero)]
      exact putPages_spec hpos hn (by omega) hex
        (hh.mono (Finset.Subset.refl _) (withPages_clear fun j => (hstep j).imp id And.left))
        fun hp j hj => hclear hp j (by omega)
    · rw [if_pos hzero]
      have hat : withPages A n (fun j => if j < i + 1 then page j else 0) (n, i + 1) = page i := by
        rw [withPages_succ, if_pos (Nat.lt_succ_self i)]
      obtain ⟨p, hp, hpage⟩ := hh.frame (hat ▸ hzero)
      rw [hat] at hpage
      obtain ⟨held₁, hex₁, hsub, hclear₁, hk₁⟩ := hex.putPage_kept hp (argAddress n i)
        (by rw [hdir, mem_userDirs]; omega) (by rw [hdir, hidx]; exact hclear)
      rw [← hpage] at hex₁ hclear₁ hk₁
      rw [hdir] at hclear₁ hk₁
      rw [hidx] at hclear₁
      obtain ⟨held', hex', hh', hk'⟩ := putPages_spec (i := i) hpos hn (by omega)
        hex₁ ((hh.erase (by omega) (hat.trans hpage) (withPages_drop hstep)).mono hsub
          fun _ => .inr rfl) hclear₁
      exact ⟨held', hex', hh', hk₁.trans hk'⟩

end Pages

/-! ### The tables of a slot -/

/-- Releasing the code and the data segment of a process leaves nothing of its slot. -/
theorem Exact.freeSlot {m : Memory} {held : Finset ℕ} {n : ℕ} {code data : Word} (h : Exact m held)
    (hpos : 1 ≤ n) (hn : n < 64) (hcode : code.toNat ≤ data.toNat) (hdata : data.toNat ≤ 0x4000000)
    (hown : ∀ j < 16, present (m.word (16 * n + j)) = true → j * 0x400000 < data.toNat) :
    ∃ m₁ m₂, m.freePageTables (linear n 0) code = .ok m₁ ∧
      m₁.freePageTables (linear n 0) data = .ok m₂ ∧ Exact m₂ held ∧
      Kept (Set.Ico (16 * n) (16 * n + 16)) m m₂ ∧
      ∀ j < 16, present (m₂.word (16 * n + j)) = false := by
  have hdir : dirOf (linear n 0) = 16 * n := by
    rw [dirOf_linear hn (by norm_num), Nat.zero_div, add_zero]
  have halign : (linear n 0).toNat % 2 ^ 22 = 0 := by
    rw [toNat_linear hn (by norm_num)]
    omega
  have hcount (limit : Word) (h : limit.toNat ≤ 0x4000000) :
      Memory.dirCount limit = (limit.toNat + 0x3fffff) / 2 ^ 22 := Memory.dirCount_eq (by omega)
  have hc₁ := hcount code (by omega)
  have hc₂ := hcount data hdata
  obtain ⟨m₁, hok₁, hex₁, -, hk₁⟩ := h.freePageTables_kept code halign (by omega) (by omega)
  obtain ⟨m₂, hok, hex, habs, hk⟩ := hex₁.freePageTables_kept data halign (by omega) (by omega)
  rw [hdir] at hk₁ hk habs
  refine ⟨m₁, m₂, hok₁, hok, hex, (hk₁.mono fun a ha => ?_).trans (hk.mono fun a ha => ?_),
    fun j hj => ?_⟩
  · obtain ⟨h₁, h₂⟩ := Set.mem_Ico.mp ha
    exact Set.mem_Ico.mpr ⟨h₁, by omega⟩
  · obtain ⟨h₁, h₂⟩ := Set.mem_Ico.mp ha
    exact Set.mem_Ico.mpr ⟨h₁, by omega⟩
  · by_cases hjc : j < Memory.dirCount data
    · exact habs j hjc
    · have hout : ∀ c, c ≤ Memory.dirCount data →
          16 * n + j ∉ Set.Ico (16 * n) (16 * n + c) := fun c hc hm => by
        have := (Set.mem_Ico.mp hm).2
        omega
      rw [hk _ (by omega) (hout _ le_rfl), hk₁ _ (by omega) (hout _ (by omega)),
        ← Bool.not_eq_true]
      intro hp
      have := hown j hj hp
      omega

/-! ### The invariant -/

/-- The segments of a task in the slot `n`. -/
structure Task.InSlot (t : Task) (n : ℕ) : Prop where
  lt : n < nrTasks
  codeBase : t.code.getBase = linear n 0
  dataBase : t.data.getBase = linear n 0
  codeGranular : t.code.granular = true
  dataGranular : t.data.granular = true
  code_le : t.code.getLimit.toNat ≤ t.data.getLimit.toNat
  data_le : t.data.getLimit.toNat ≤ 0x4000000
  zero : n = 0 → t.data.getLimit = 0xA0000
  page : 1 ≤ n → t.page ≠ 0
  text : ∀ a, t.args = some a → 0 < a.text.toNat ∧ a.text.toNat ≤ 0x3000000

/-- The process numbers and the state of a task do not matter. -/
theorem Task.InSlot.of_eq {t u : Task} {n : ℕ} (h : t.InSlot n) (hcode : u.code = t.code)
    (hdata : u.data = t.data) (hpage : u.page = t.page) (hargs : u.args = t.args ∨ u.args = none) :
    u.InSlot n where
  lt := h.lt
  codeBase := hcode ▸ h.codeBase
  dataBase := hdata ▸ h.dataBase
  codeGranular := hcode ▸ h.codeGranular
  dataGranular := hdata ▸ h.dataGranular
  code_le := hcode ▸ hdata ▸ h.code_le
  data_le := hdata ▸ h.data_le
  zero := hdata ▸ h.zero
  page := hpage ▸ h.page
  text a ha := by
    rcases hargs with hargs | hargs
    · exact h.text a (hargs ▸ ha)
    · rw [hargs] at ha
      cases ha

namespace Task.InSlot

variable {t : Task} {n : ℕ}

/-- The number of directory entries of a data segment. -/
theorem dirCount_limit (h : t.InSlot n) :
    Memory.dirCount t.data.getLimit = (t.data.getLimit.toNat + 0x3fffff) / 2 ^ 22 :=
  Memory.dirCount_eq (by have := h.data_le; omega)

/-- What `copy_mem` copies: tables of a user slot, or the first entries of a table of the kernel. -/
theorem copyRange (h : t.InSlot n) : ∀ j < Memory.dirCount t.data.getLimit,
    Exact.CopyRange (if linear n 0 = 0 then 0xA0 else 1024) (16 * n + j) := fun j hj => by
  have hn : n < 64 := h.lt
  have hdata := h.data_le
  have hcount := h.dirCount_limit
  have hzero : linear n 0 = 0 ↔ n = 0 := by
    rw [← BitVec.toNat_inj, toNat_linear hn (by norm_num)]
    simp
  by_cases hn0 : n = 0
  · have hlim := congrArg BitVec.toNat (h.zero hn0)
    have hlim' : (0xA0000 : Word).toNat = 0xA0000 := rfl
    rw [if_pos (hzero.mpr hn0)]
    exact .inr ⟨by omega, rfl⟩
  · rw [if_neg fun hc => hn0 (hzero.mp hc)]
    exact .inl ⟨mem_userDirs.mpr ⟨by omega, by omega⟩, rfl⟩

end Task.InSlot

/-- A directory entry of a slot is within the data segment of its task, which is alive. -/
def Task.Covers (t : Task) (j : ℕ) : Prop :=
  t.zombie = false ∧ j * 0x400000 < t.data.getLimit.toNat

namespace System

/-- What holds in every state of a run, the kernel holding the frames of `held`. -/
structure Inv (held : Finset ℕ) (s : System) : Prop where
  exact : Exact s.mem held
  kernel : KernelMap s.mem
  slot : ∀ n t, s.task n = some t → t.InSlot n
  owned : ∀ n, 1 ≤ n → n < 64 → ∀ j < 16, present (s.mem.word (16 * n + j)) = true →
    ∃ t, s.task n = some t ∧ t.Covers j
  holds : Holds held s.addr
  lastPid : 0 ≤ s.lastPid ∧ s.lastPid < 2 ^ 31

/-! ### Process numbers -/

/-- Successive process numbers. -/
theorem nextPid_iterate {p : ℤ} (hlo : 0 ≤ p) (hhi : p < 2 ^ 31) : ∀ {k : ℕ}, k < 2 ^ 30 →
    nextPid^[k + 1] p = if p + k + 1 < 2 ^ 31 then p + k + 1 else p + k + 2 - 2 ^ 31
  | 0, _ => by
    rw [Function.iterate_one, nextPid]
    split_ifs <;> omega
  | k + 1, hk => by
    rw [Function.iterate_succ_apply', nextPid_iterate hlo hhi (by omega), nextPid]
    push_cast
    split_ifs <;> omega

theorem freshPid_eq_none {s : System} : ∀ {fuel : ℕ} {p : ℤ}, s.freshPid fuel p = none →
    ∀ k < fuel, s.pidUsed (nextPid^[k + 1] p) = true
  | 0, _, _, _, hk => absurd hk (Nat.not_lt_zero _)
  | fuel + 1, p, h, k, hk => by
    rw [freshPid] at h
    split_ifs at h with hused
    cases k with
    | zero => exact hused
    | succ k => exact freshPid_eq_none h k (by omega)

theorem freshPid_eq_some {s : System} : ∀ {fuel : ℕ} {p q : ℤ}, 0 ≤ p → p < 2 ^ 31 →
    s.freshPid fuel p = some q → 0 ≤ q ∧ q < 2 ^ 31
  | 0, _, _, _, _, h => nomatch h
  | fuel + 1, p, q, hlo, hhi, h => by
    have hnext : 0 ≤ nextPid p ∧ nextPid p < 2 ^ 31 := by
      rw [nextPid]
      split_ifs <;> omega
    rw [freshPid] at h
    split_ifs at h
    · exact freshPid_eq_some hnext.1 hnext.2 h
    · rw [← Option.some.inj h]
      exact hnext

/-- Among one process number more than there are slots, one is free. -/
theorem freshPid_spec (s : System) (hlo : 0 ≤ s.lastPid) (hhi : s.lastPid < 2 ^ 31) :
    ∃ pid, s.freshPid (nrTasks + 1) s.lastPid = some pid ∧ 0 ≤ pid ∧ pid < 2 ^ 31 := by
  cases hf : s.freshPid (nrTasks + 1) s.lastPid with
  | some pid => exact ⟨pid, rfl, freshPid_eq_some hlo hhi hf⟩
  | none =>
    exfalso
    have hused := freshPid_eq_none hf
    set pids := (Finset.range nrTasks).image fun i => (s.task i).elim 0 Task.pid with hpids
    have hmaps : ∀ k ∈ Finset.range (nrTasks + 1), nextPid^[k + 1] s.lastPid ∈ pids :=
        fun k hk => by
      obtain ⟨i, hi, hany⟩ := List.any_eq_true.mp (hused k (Finset.mem_range.mp hk))
      cases ht : s.task i with
      | none => simp [ht] at hany
      | some t =>
        refine Finset.mem_image.mpr ⟨i, Finset.mem_range.mpr (List.mem_range.mp hi), ?_⟩
        rw [ht]
        simpa [ht] using hany
    have hcard : pids.card < (Finset.range (nrTasks + 1)).card := by
      have hle : pids.card ≤ (Finset.range nrTasks).card := Finset.card_image_le
      rw [Finset.card_range] at hle ⊢
      omega
    obtain ⟨j, hj, k, hk, hne, heq⟩ := Finset.exists_ne_map_eq_of_card_lt_of_maps_to hcard hmaps
    have hj' : j < 65 := Finset.mem_range.mp hj
    have hk' : k < 65 := Finset.mem_range.mp hk
    rw [nextPid_iterate hlo hhi (by omega), nextPid_iterate hlo hhi (by omega)] at heq
    split_ifs at heq <;> omega

variable {s : System} {held held' : Finset ℕ} {n : ℕ} {t : Task} {m : Memory} {D : Set ℕ}

/-! ### Steps keep the invariant -/

theorem addr_setTask (o : Option Task) (x : ℕ × ℕ) :
    (s.setTask n o).addr x = if x.1 = n then o.elim 0 (fun t => t.addr x.2) else s.addr x := by
  rw [addr, setTask]
  dsimp only
  rw [Function.update_apply]
  split_ifs <;> rfl

theorem addr_of_task (ht : s.task n = some t) (i : ℕ) : s.addr (n, i) = t.addr i := by
  rw [addr, ht]
  rfl

namespace Inv

/-- A change of the memory and of the task of one slot. -/
theorem change (h : Inv held s) (hex : Exact m held') (hk : Kept D s.mem m)
    (hD : ∀ a ∈ D, 16 ≤ a ∧ 16 * n ≤ a ∧ a < 16 * n + 16) (hn : n < 64) {o : Option Task}
    (hslot : ∀ t, o = some t → t.InSlot n)
    (hholds : Holds held' (setTask { s with mem := m } n o).addr)
    (hown : 1 ≤ n → ∀ j < 16, present (m.word (16 * n + j)) = true → ∃ t, o = some t ∧ t.Covers j) :
    Inv held' (setTask { s with mem := m } n o) where
  exact := hex
  kernel := h.kernel.of_kept hk fun a ha => by
    have := hD a ha
    exact Set.mem_Ico.mpr ⟨by omega, by omega⟩
  slot k t ht := by
    change Function.update s.task n o k = some t at ht
    rw [Function.update_apply] at ht
    split_ifs at ht with hkn
    · rw [hkn]
      exact hslot t ht
    · exact h.slot k t ht
  owned k hk₁ hk₂ j hj hp := by
    change present (m.word (16 * k + j)) = true at hp
    change ∃ t, Function.update s.task n o k = some t ∧ _
    rw [Function.update_apply]
    split_ifs with hkn
    · subst hkn
      exact hown hk₁ j hj hp
    · rw [hk _ (by omega) fun hm => by have := hD _ hm; omega] at hp
      exact h.owned k hk₁ hk₂ j hj hp
  holds := hholds
  lastPid := h.lastPid

/-- A change of the memory alone. -/
theorem memory (h : Inv held s) (hex : Exact m held') (hk : Kept D s.mem m)
    (hD : ∀ a ∈ D, 16 ≤ a ∧ 16 * n ≤ a ∧ a < 16 * n + 16) (hn : n < 64)
    (hholds : Holds held' s.addr)
    (hown : 1 ≤ n → ∀ j < 16, 16 * n + j ∈ D → present (m.word (16 * n + j)) = true →
      ∃ t, s.task n = some t ∧ t.Covers j) : Inv held' { s with mem := m } := by
  have hset : setTask { s with mem := m } n (s.task n) = { s with mem := m } := by
    rw [setTask, Function.update_eq_self]
  rw [← hset]
  refine h.change hex hk hD hn (fun t ht => h.slot n t ht) (by rw [hset]; exact hholds)
    fun hpos j hj hp => ?_
  by_cases hm : 16 * n + j ∈ D
  · exact hown hpos j hj hm hp
  · rw [hk _ (by omega) hm] at hp
    exact h.owned n hpos hn j hj hp

/-- A change of the memory that leaves the directory alone. -/
theorem quiet (h : Inv held s) (hex : Exact m held') (hk : Kept ∅ s.mem m)
    (hholds : Holds held' s.addr) : Inv held' { s with mem := m } :=
  h.memory (n := 0) hex hk (fun _ ha => ha.elim) (by norm_num) hholds fun h =>
    absurd h (by norm_num)

/-! ### Releasing an address space -/

/-- The ranges that `do_exit` and `do_execve` free are all there is of the address space. -/
theorem freeTables (h : Inv held s) (ht : s.task n = some t) (hpos : 1 ≤ n) :
    ∃ m, System.freeTables t s.mem = .ok m ∧ Exact m held ∧
      Kept (Set.Ico (16 * n) (16 * n + 16)) s.mem m ∧
      ∀ j < 16, present (m.word (16 * n + j)) = false := by
  have hslot := h.slot n t ht
  obtain ⟨m₁, m, hok₁, hok, hex, hk, habs⟩ := h.exact.freeSlot hpos hslot.lt hslot.code_le
    hslot.data_le fun j hj hp => by
      obtain ⟨u, hu, -, hlt⟩ := h.owned n hpos hslot.lt j hj hp
      obtain rfl := Option.some.inj (hu.symm.trans ht)
      exact hlt
  refine ⟨m, ?_, hex, hk, habs⟩
  rw [System.freeTables, hslot.codeBase, hslot.dataBase, hok₁, mm_ok_bind, hok, mm_ok]

/-- Task 0 does not give up its address space. -/
theorem freeTables_zero (h : Inv held s) (ht : s.task 0 = some t) :
    System.freeTables t s.mem = .error (.mm .freeSwapper) := by
  have hbase : t.code.getBase = 0 := (h.slot 0 t ht).codeBase
  rw [System.freeTables, hbase]
  rfl

/-! ### `exit` and `waitpid` -/

/-- The structure of a task is found in its slot, as no other task has its own in the same page. -/
theorem slotOf (h : Inv held s) (ht : s.task n = some t) (hpos : 1 ≤ n) :
    s.slotOf t.page = some n := by
  have hslot := h.slot n t ht
  rw [System.slotOf]
  cases hf : taskSlots.find? fun i => (s.task i).any fun u => u.page == t.page with
  | none =>
    rw [List.find?_eq_none] at hf
    have hmem : n ∈ taskSlots := List.mem_range'_1.mpr ⟨hpos, hslot.lt⟩
    exact absurd (by rw [ht]; simp) (hf n hmem)
  | some i =>
    obtain ⟨u, hu, heq⟩ : ∃ u, s.task i = some u ∧ u.page = t.page := by
      have hany := List.find?_some hf
      cases hs : s.task i with
      | none => simp [hs] at hany
      | some u => exact ⟨u, rfl, by simpa [hs] using hany⟩
    have hi : s.addr (i, 0) = t.page := (addr_of_task hu 0).trans heq
    have hin := h.holds.inj (x := (i, 0)) (y := (n, 0)) (by rw [hi]; exact hslot.page hpos)
      (by rw [hi, addr_of_task ht]; rfl)
    rw [(Prod.mk.inj hin).1]

/-- `release` of the structure of the task in a slot whose directory entries are absent. -/
theorem release (h : Inv held s) (ht : s.task n = some t) (hpos : 1 ≤ n)
    (habs : ∀ j < 16, present (s.mem.word (16 * n + j)) = false) :
    ∃ s' p, System.release t.page s = .ok s' ∧ t.page = p * 4096 ∧ p ∈ held ∧
      Inv (held.erase p) s' ∧ s'.task n = none := by
  have hslot := h.slot n t ht
  have hn : n < 64 := hslot.lt
  have haddr : s.addr (n, 0) = t.page := addr_of_task ht 0
  have hpage := hslot.page hpos
  obtain ⟨p, hp, hpp⟩ := h.holds.frame (x := (n, 0)) (by rw [haddr]; exact hpage)
  obtain ⟨m, hok, hex, hk⟩ := h.exact.freePage_kept hp
  rw [haddr] at hpp
  rw [← hpp] at hok
  refine ⟨setTask { s with mem := m } n none, p, ?_, hpp, hp, ?_,
    (Function.update_self n none s.task : Function.update s.task n none n = none)⟩
  · rw [System.release, ← System.slotOf, h.slotOf ht hpos]
    dsimp only
    rw [hok, mm_ok_bind]
  · refine h.change hex hk (fun _ ha => ha.elim) hn (fun _ hc => by cases hc) ?_
      fun _ j hj hp' => ?_
    · refine h.holds.erase (x := (n, 0)) (by omega) (haddr.trans hpp) fun x => ?_
      rw [addr_setTask]
      split_ifs with hx
      · exact .inl rfl
      · exact .inr ⟨rfl, fun hc => hx (by rw [hc])⟩
    · rw [hk _ (by omega) (Set.notMem_empty _), habs j hj] at hp'
      exact absurd hp' Bool.false_ne_true

theorem orphan (h : Inv held s) (pid : ℤ) : Inv held (System.orphan pid s) := by
  have htask : ∀ k u, (System.orphan pid s).task k = some u →
      ∃ v f, s.task k = some v ∧ u = { v with father := f } := fun k u hu => by
    obtain ⟨v, hv, rfl⟩ := Option.map_eq_some_iff.mp hu
    split_ifs
    · exact ⟨v, 0, hv, rfl⟩
    · exact ⟨v, v.father, hv, rfl⟩
  have haddr : (System.orphan pid s).addr = s.addr := funext fun x => by
    rw [addr, addr, System.orphan]
    dsimp only
    cases s.task x.1 with
    | none => rfl
    | some v =>
      rw [Option.map_some]
      split_ifs <;> rfl
  refine ⟨h.exact, h.kernel, fun k u hu => ?_, fun k hk hk' j hj hp => ?_, ?_, h.lastPid⟩
  · obtain ⟨v, f, hv, rfl⟩ := htask k u hu
    exact (h.slot k v hv).of_eq rfl rfl rfl (.inl rfl)
  · obtain ⟨v, hv, hc⟩ := h.owned k hk hk' j hj hp
    refine ⟨_, congrArg (Option.map _) hv, ?_⟩
    dsimp only
    split_ifs <;> exact hc
  · rw [haddr]
    exact h.holds

/-- Pages held by the task of a slot may become nobody's. -/
theorem holds_clear (h : Inv held s) {o : Option Task} (hpage : ∀ u, o = some u → ∀ i,
    u.addr i = 0 ∨ u.addr i = s.addr (n, i)) : Holds held (s.setTask n o).addr := by
  refine h.holds.mono (Finset.Subset.refl _) fun x => ?_
  rw [addr_setTask]
  split_ifs with hx
  · cases o with
    | none => exact .inl rfl
    | some u =>
      obtain ⟨k, i⟩ := x
      obtain rfl : k = n := hx
      exact hpage u rfl i
  · exact .inr rfl

/-- An operation by the task in the slot `n` ends in a state with the invariant, or task 0 has tried
to give up its address space. -/
def Settles (n : ℕ) (r : Except Stop System) : Prop :=
  (∃ s' held', r = .ok s' ∧ Inv held' s') ∨ n = 0 ∧ r = .error (.mm .freeSwapper)

/-- The first part of `do_exit`, up to the children of the task. -/
theorem exitTables (h : Inv held s) (ht : s.task n = some t) (hpos : 1 ≤ n) :
    ∃ m f, System.freeTables t s.mem = .ok m ∧
      Inv held (System.orphan t.pid { s with mem := m }) ∧
      (System.orphan t.pid { s with mem := m }).task n = some { t with father := f } ∧
      ∀ j < 16, present (m.word (16 * n + j)) = false := by
  have hn : n < 64 := (h.slot n t ht).lt
  obtain ⟨m, hok, hex, hk, habs⟩ := h.freeTables ht hpos
  have h₁ : Inv held { s with mem := m } :=
    h.memory hex hk (fun a ha => by have := Set.mem_Ico.mp ha; omega) hn h.holds
      fun _ j hj _ hp => absurd (hp.symm.trans (habs j hj)) (by decide)
  obtain ⟨f, hf⟩ : ∃ f, (System.orphan t.pid { s with mem := m }).task n =
      some { t with father := f } := by
    rw [System.orphan]
    dsimp only
    rw [ht, Option.map_some]
    split_ifs
    · exact ⟨0, rfl⟩
    · exact ⟨t.father, rfl⟩
  exact ⟨m, f, hok, h₁.orphan t.pid, hf, habs⟩

/-- A task whose directory entries are absent becomes a zombie. -/
theorem becomeZombie (h : Inv held s) (ht : s.task n = some t)
    (habs : ∀ j < 16, present (s.mem.word (16 * n + j)) = false) (father : ℤ) :
    Inv held (s.setTask n (some { t with zombie := true, father := father, args := none })) := by
  have hslot := h.slot n t ht
  refine h.change h.exact (Kept.refl ∅ _) (fun _ ha => ha.elim) hslot.lt
    (fun u hu => ?_) (h.holds_clear fun u hu i => ?_)
    fun _ j hj hp => absurd (hp.symm.trans (habs j hj)) (by decide)
  · obtain rfl := Option.some.inj hu
    exact hslot.of_eq rfl rfl rfl (.inr rfl)
  · obtain rfl := Option.some.inj hu
    cases i with
    | zero => exact .inr (addr_of_task ht 0).symm
    | succ i => exact .inl rfl

theorem doExit (h : Inv held s) (ht : s.task n = some t) : Settles n (System.doExit n t s) := by
  rcases Nat.eq_zero_or_pos n with rfl | hpos
  · refine .inr ⟨rfl, ?_⟩
    rw [System.doExit, h.freeTables_zero ht]
    rfl
  refine .inl ?_
  obtain ⟨m, f, hok, h₂, hf, habs⟩ := h.exitTables ht hpos
  rw [System.doExit, hok, ok_bind]
  dsimp only
  by_cases hfather : (if t.father = t.pid then 0 else t.father) ≠ 0
  · rw [if_pos hfather]
    exact ⟨_, held, rfl, h₂.becomeZombie hf habs _⟩
  · rw [if_neg hfather]
    obtain ⟨s', p, hrelease, -, -, hinv, -⟩ := h₂.release hf hpos habs
    exact ⟨s', held.erase p, hrelease, hinv⟩

theorem waitpid (h : Inv held s) (pid : ℤ) :
    ∃ s' held', System.waitpid n t pid s = .ok s' ∧ Inv held' s' := by
  rw [System.waitpid]
  cases hf : taskSlots.reverse.find? fun i =>
      i ≠ n && (s.task i).any fun p => awaited t pid p && p.zombie with
  | none => exact ⟨s, held, rfl, h⟩
  | some i =>
    have hmem := List.mem_range'_1.mp (List.mem_reverse.mp (List.mem_of_find?_eq_some hf))
    have hany := List.find?_some hf
    cases hi : s.task i with
    | none => simp [hi] at hany
    | some u =>
      simp only [hi, Option.any_some, Bool.and_eq_true] at hany
      dsimp only
      rw [hi]
      -- A zombie has no directory entries any more.
      have habs : ∀ j < 16, present (s.mem.word (16 * i + j)) = false := fun j hj => by
        rw [← Bool.not_eq_true]
        intro hp
        obtain ⟨v, hv, hz, -⟩ := h.owned i hmem.1 hmem.2 j hj hp
        obtain rfl := Option.some.inj (hv.symm.trans hi)
        exact absurd (hz.symm.trans hany.2.2) (by decide)
      obtain ⟨s', p, hrelease, -, -, hinv, -⟩ := h.release hi hmem.1 habs
      exact ⟨s', held.erase p, hrelease, hinv⟩

/-! ### Accesses -/

/-- The loop of `verify_area` leaves the directory alone, also when it runs out of memory. -/
theorem verifyPages : ∀ (count : ℕ) (start : Word) {m : Memory} {held : Finset ℕ}, Exact m held →
    KernelMap m → ∃ m' held', (System.verifyPages count start m = .ok m' ∨
      System.verifyPages count start m = .error m') ∧ held ⊆ held' ∧ Exact m' held' ∧ Kept ∅ m m'
  | 0, _, m, held, hex, _ => ⟨m, held, .inl rfl, Finset.Subset.refl _, hex, Kept.refl _ _⟩
  | count + 1, start, m, held, hex, hker => by
    rw [System.verifyPages]
    rcases hex.writeVerify_kept hker start with he | ⟨m₁, hok, hex₁, hk₁⟩
    · rw [he]
      obtain ⟨held', hsub, hex', hk'⟩ := hex.exhausted
      exact ⟨m.exhausted, held', .inr rfl, hsub, hex', hk'⟩
    · rw [hok]
      obtain ⟨m', held', hor, hsub, hex', hk'⟩ := verifyPages count (start + 4096) hex₁
        (hker.of_kept hk₁ (Set.empty_subset _))
      exact ⟨m', held', hor, hsub, hex', hk₁.trans hk'⟩

theorem verify (h : Inv held s) (ht : s.task n = some t) (addr : Word) (size : ℕ) :
    Settles n (System.verify n t addr size s) := by
  obtain ⟨m, held', hor, hsub, hex, hk⟩ := verifyPages (verifyTurns addr size)
    ((addr &&& 0xfffff000) + t.data.getBase) h.exact h.kernel
  have h' : Inv held' { s with mem := m } := h.quiet hex hk (h.holds.mono hsub fun _ => .inr rfl)
  rw [System.verify]
  rcases hor with hok | he
  · rw [hok]
    exact .inl ⟨_, held', rfl, h'⟩
  · rw [he]
    exact h'.doExit ht

/-- The process is torn down when a fault of its runs out of memory. -/
theorem fault (h : Inv held s) (ht : s.task n = some t) (hz : t.zombie = false) {off : Word}
    (hoff : off.toNat < t.data.getLimit.toNat) (write : Bool) :
    Settles n (System.fault n t off write s) := by
  have hslot := h.slot n t ht
  have hn : n < 64 := hslot.lt
  have hlim := hslot.data_le
  have haddr : t.data.getBase + off = linear n off.toNat := by
    refine BitVec.eq_of_toNat_eq ?_
    rw [hslot.dataBase, BitVec.toNat_add, toNat_linear hn (by norm_num),
      toNat_linear hn (by omega), add_zero]
    exact Nat.mod_eq_of_lt (by omega)
  have hexit : Settles n (System.doExit n t { s with mem := s.mem.exhausted }) := by
    obtain ⟨held', hsub, hex, hk⟩ := h.exact.exhausted
    exact (h.quiet hex hk (h.holds.mono hsub fun _ => .inr rfl)).doExit ht
  rw [System.fault, haddr]
  rcases Nat.eq_zero_or_pos n with rfl | hpos
  · rw [hslot.zero rfl] at hoff
    rw [Exact.touch_zero h.kernel write hoff]
    exact .inl ⟨_, held, rfl, h⟩
  · have hdir := dirOf_linear hn (by omega : off.toNat < 0x4000000)
    rcases h.exact.touch_kept write (dirOf_linear_mem hn
        (by omega : off.toNat < 0x4000000) hpos) with
      he | ⟨m, hok, hex, hk⟩
    · rw [he]
      exact hexit
    · rw [hok]
      rw [hdir] at hk
      refine .inl ⟨_, held, rfl, h.memory (n := n) hex hk (fun a ha => ?_) hn h.holds
        fun _ j hj hm _ => ⟨t, ht, hz, ?_⟩⟩
      · rw [Set.mem_singleton_iff] at ha
        omega
      · rw [Set.mem_singleton_iff] at hm
        omega

/-! ### `execve` -/

/-- The pages of a slot whose task has its arguments in the pages of `page`. -/
theorem addr_setArgs (ht : s.task n = some t) {u : Task} (hu : u.page = t.page) {page : ℕ → ℕ}
    (hargs : ∀ i, u.addr (i + 1) = page i) (x : ℕ × ℕ) :
    (s.setTask n (some u)).addr x = withPages s.addr n page x := by
  obtain ⟨k, i⟩ := x
  rw [addr_setTask, withPages]
  dsimp only
  by_cases hk : k = n
  · subst hk
    rw [if_pos rfl, Option.elim_some]
    cases i with
    | zero =>
      rw [if_neg fun hc => hc.2 rfl, addr_of_task ht]
      exact hu
    | succ i => rw [if_pos ⟨rfl, i.succ_ne_zero⟩, hargs, Nat.add_sub_cancel]
  · rw [if_neg hk, if_neg fun hc => hk hc.1]

/-- The first part of `do_execve`; arguments that do not fit end in a panic. -/
theorem execve (h : Inv held s) (ht : s.task n = some t) (hz : t.zombie = false)
    (hargs : t.args = none) {file : Option (Exec × Word)} (hfit : ∀ f ∈ file, Fits f.1)
    (envp argv : List ℕ) :
    (∃ s' held', System.execve n t file envp argv s = .ok s' ∧ Inv held' s') ∨
      System.execve n t file envp argv s = .error .nonexistentPage := by
  have hslot := h.slot n t ht
  have hnone (i : ℕ) : s.addr (n, i + 1) = 0 := by
    rw [addr_of_task ht, Task.addr, hargs]
    rfl
  rcases file with - | ⟨ex, size⟩
  · exact .inl ⟨s, held, rfl, h⟩
  rw [System.execve]
  split_ifs with hrefused
  · exact .inl ⟨s, held, rfl, h⟩
  have h₀ : Pages.Copying s.addr n s.mem held ⟨fun _ => 0, s.mem⟩ := by
    refine ⟨h.exact, Kept.refl _ _, h.holds.mono (Finset.Subset.refl _) fun x => ?_, fun _ _ => rfl⟩
    rw [withPages]
    split_ifs
    · exact .inl rfl
    · exact .inr rfl
  rcases h₀.copyStrings envp.reverse (BitVec.ofNat 32 (4096 * maxArgPages - 4)) with
    he | ⟨⟨p₁, a₁⟩, held₁, hok₁, h₁⟩
  · rw [he]
    exact .inr rfl
  rw [hok₁, ok_bind]
  dsimp only at h₁ ⊢
  rcases h₁.copyStrings argv.reverse p₁ with he | ⟨⟨p₂, a₂⟩, held₂, hok₂, h₂⟩
  · rw [he]
    exact .inr rfl
  rw [hok₂, ok_bind]
  dsimp only at h₂ ⊢
  refine .inl ?_
  by_cases hzero : p₂ = 0
  · rw [if_pos hzero]
    obtain ⟨m, held', hok, hex, hk, hh⟩ := h₂.freePages
    rw [hok, ok_bind]
    refine ⟨_, held', rfl, h.quiet hex hk (hh.mono (Finset.Subset.refl _) fun x => ?_)⟩
    rw [withPages]
    split_ifs with hx
    · refine .inl ?_
      have hsucc := hnone (x.2 - 1)
      rw [Nat.sub_add_cancel (Nat.one_le_iff_ne_zero.mpr hx.2), ← hx.1] at hsucc
      exact hsucc
    · exact .inr rfl
  · rw [if_neg hzero]
    refine ⟨_, held₂, rfl, h.change h₂.exact h₂.kept (fun _ ha => ha.elim) hslot.lt (fun u hu => ?_)
      (h₂.holds.mono (Finset.Subset.refl _) fun x => .inr ?_) fun hpos j hj hp => ?_⟩
    · obtain rfl := Option.some.inj hu
      refine { hslot with text := fun a ha => ?_ }
      obtain rfl := Option.some.inj ha
      have := hfit _ rfl
      exact ⟨this.1, by have := this.2; dsimp only at this ⊢; omega⟩
    · exact addr_setArgs (s := s) (u := { t with args := some ⟨a₂.page, ex.text⟩ }) ht rfl
        (fun _ => rfl) x
    · rw [h₂.kept _ (by have := hslot.lt; rw [nrTasks] at this; omega) (Set.notMem_empty _)] at hp
      obtain ⟨u, hu, hc⟩ := h.owned n hpos hslot.lt j hj hp
      obtain rfl := Option.some.inj (hu.symm.trans ht)
      exact ⟨_, rfl, hc⟩

theorem newSegments_limit (hslot : t.InSlot n) (text : Word) :
    (newSegments t text).data.getLimit = dataLimit :=
  Desc.getLimit_setLimit _ _ (by simpa using hslot.dataGranular) (by decide) (by decide)

/-- The segments `change_ldt` gives a program. -/
theorem newSegments_inSlot (hslot : t.InSlot n) (hpos : 1 ≤ n) {text : Word}
    (htext : 0 < text.toNat ∧ text.toNat ≤ 0x3000000) : (newSegments t text).InSlot n := by
  have hcode : ((text + 4096 - 1) &&& 0xfffff000).toNat = (text.toNat + 4095) / 4096 * 4096 := by
    have hsum : text + 4096 - 1 = text + 4095 := by bv_omega
    have hpage := pageOf_eq (text + 4095)
    rw [pageOf, BitVec.and_comm, frameOf, BitVec.toNat_add,
      show (4095 : Word).toNat = 4095 from rfl, Nat.mod_eq_of_lt (by omega)] at hpage
    rw [hsum, hpage]
  have hlimit : (newSegments t text).code.getLimit = (text + 4096 - 1) &&& 0xfffff000 :=
    Desc.getLimit_setLimit _ _ (by simpa using hslot.codeGranular) (by rw [hcode]; omega)
      (by rw [hcode]; omega)
  have hdata := newSegments_limit hslot text
  have hnat : dataLimit.toNat = 0x4000000 := rfl
  refine ⟨hslot.lt, ?_, ?_, ?_, ?_, ?_, ?_, fun h₀ => ?_, fun _ => hslot.page hpos,
    fun _ ha => ?_⟩
  · simp [newSegments, hslot.codeBase]
  · simp [newSegments, hslot.codeBase]
  · simp [newSegments, hslot.codeGranular]
  · simp [newSegments, hslot.dataGranular]
  · rw [hlimit, hdata, hcode, hnat]
    omega
  · rw [hdata, hnat]
  · omega
  · cases ha

/-- The second part of `do_execve`: the old address space is gone, and the last table of the new one
maps the arguments. -/
theorem load (h : Inv held s) (ht : s.task n = some t) (hz : t.zombie = false) {args : Args}
    (hargs : t.args = some args) : Settles n (System.load n t args s) := by
  have hslot := h.slot n t ht
  have hn : n < 64 := hslot.lt
  rw [System.load]
  rcases Nat.eq_zero_or_pos n with rfl | hpos
  · rw [h.freeTables_zero ht]
    exact .inr ⟨rfl, rfl⟩
  obtain ⟨m, hok, hex, hk, habs⟩ := h.freeTables ht hpos
  have hbase : t.code.getBase + dataLimit = Pages.argAddress n maxArgPages := by
    rw [hslot.codeBase, Pages.argAddress, linear, linear, add_zero, BitVec.ofNat_add]
    rfl
  have hsame (i : ℕ) : s.addr (n, i + 1) = args.page i := by
    rw [addr_of_task ht, Task.addr, hargs]
    rfl
  have hstart : Holds held (withPages s.addr n
      fun j => if j < maxArgPages then args.page j else 0) := by
    refine h.holds.mono (Finset.Subset.refl _) ?_
    rintro ⟨k, i⟩
    rw [withPages]
    by_cases hc : k = n ∧ i ≠ 0
    · rw [if_pos hc]
      dsimp only
      split_ifs
      · rw [← hsame, hc.1, Nat.sub_add_cancel (Nat.one_le_iff_ne_zero.mpr hc.2)]
        exact .inr rfl
      · exact .inl rfl
    · rw [if_neg hc]
      exact .inr rfl
  obtain ⟨held', hex', hh', hk'⟩ := Pages.putPages_spec hpos hn (le_refl maxArgPages) hex hstart
    fun hp => absurd (hp.symm.trans (habs 15 (by norm_num))) (by decide)
  rw [hok, ok_bind, hbase]
  refine .inl ⟨_, held', rfl, h.change hex' (hk.trans (hk'.mono fun a ha => ?_))
    (fun a ha => by have := Set.mem_Ico.mp ha; omega) hn (fun u hu => ?_)
    (hh'.mono (Finset.Subset.refl _) fun x => .inr ?_) fun _ j hj _ => ?_⟩
  · rw [Set.mem_singleton_iff] at ha
    exact Set.mem_Ico.mpr ⟨by omega, by omega⟩
  · obtain rfl := Option.some.inj hu
    exact newSegments_inSlot hslot hpos (hslot.text args hargs)
  · exact addr_setArgs (s := s) (u := newSegments t args.text) ht rfl (fun _ => rfl) x
  · refine ⟨_, rfl, hz, ?_⟩
    rw [newSegments_limit hslot]
    change j * 0x400000 < 0x4000000
    omega

/-! ### `fork` -/

/-- `copy_mem` finds the directory entries of an empty slot absent. When it fails, it leaves them so
again. -/
theorem copyMem (h : Inv held s) (ht : s.task n = some t) {nr : ℕ} (hpos : 1 ≤ nr) (hnr : nr < 64)
    (hempty : s.task nr = none) (hex : Exact m held') (hk : Kept ∅ s.mem m) (p : Task) :
    ∃ b m', System.copyMem nr t p m = .ok (b, { p with
        code := p.code.setBase (linear nr 0), data := p.data.setBase (linear nr 0) }, m') ∧
      Exact m' held' ∧ Kept (Set.Ico (16 * nr) (16 * nr + 16)) s.mem m' ∧
      ∀ j < 16, present (m'.word (16 * nr + j)) = true →
        b = true ∧ j * 0x400000 < t.data.getLimit.toNat := by
  have hslot := h.slot n t ht
  have hn : n < 64 := hslot.lt
  have hcode := hslot.code_le
  have hdata := hslot.data_le
  have hdir : ∀ k < 64, dirOf (linear k 0) = 16 * k := fun k hk => by
    rw [dirOf_linear hk (by norm_num), Nat.zero_div, add_zero]
  have halign : ∀ k < 64, (linear k 0).toNat % 2 ^ 22 = 0 := fun k hk => by
    rw [toNat_linear hk (by norm_num)]
    omega
  have hcond : ¬ (linear n 0 &&& 0x3fffff ≠ 0 ∨ linear nr 0 &&& 0x3fffff ≠ 0) := by
    rw [(toNat_and_align _).mpr (halign n hn), (toNat_and_align _).mpr (halign nr hnr)]
    simp
  have hcount := hslot.dirCount_limit
  have habs : ∀ j < 16, present (m.word (16 * nr + j)) = false := fun j hj => by
    rw [hk _ (by omega) (Set.notMem_empty _), ← Bool.not_eq_true]
    intro hp
    obtain ⟨u, hu, -⟩ := h.owned nr hpos hnr j hj hp
    rw [hempty] at hu
    cases hu
  obtain ⟨r, m₁, hok₁, hex₁, hk₁⟩ := hex.copyDirs_ok _ _ _
    (fun j hj => mem_userDirs.mpr ⟨by omega, by omega⟩) hslot.copyRange
    fun j hj => habs j (by omega)
  have hsub : ∀ {c}, c ≤ 16 → Set.Ico (16 * nr) (16 * nr + c) ⊆ Set.Ico (16 * nr) (16 * nr + 16) :=
    fun hc a ha => by
      obtain ⟨h₁, h₂⟩ := Set.mem_Ico.mp ha
      exact Set.mem_Ico.mpr ⟨h₁, by omega⟩
  -- Beyond the data segment of the parent nothing is copied.
  have hbeyond : ∀ j < 16, present (m₁.word (16 * nr + j)) = true →
      j < Memory.dirCount t.data.getLimit := fun j hj hp => by
    by_contra hc
    rw [hk₁ _ (by omega) fun hm => hc (by have := (Set.mem_Ico.mp hm).2; omega), habs j hj] at hp
    exact absurd hp Bool.false_ne_true
  have hk₀ : Kept (Set.Ico (16 * nr) (16 * nr + 16)) s.mem m₁ :=
    (hk.mono (Set.empty_subset _)).trans (hk₁.mono (hsub (by omega)))
  have hbase : ¬ t.data.getBase ≠ t.code.getBase := by
    rw [hslot.dataBase, hslot.codeBase]
    exact not_not.mpr rfl
  have hlimit : ¬ t.data.getLimit < t.code.getLimit := by
    rw [BitVec.lt_def]
    omega
  have hcopy : m.copyPageTables (linear n 0) (linear nr 0) t.data.getLimit = .ok (r, m₁) := by
    rw [Memory.copyPageTables, if_neg hcond, hdir n hn, hdir nr hnr, hok₁]
  rw [System.copyMem, if_neg hbase, if_neg hlimit, hslot.dataBase,
    show BitVec.ofNat 32 (nr * 0x4000000) = linear nr 0 by rw [linear, add_zero]]
  dsimp only
  rw [hcopy, mm_ok_bind]
  by_cases hr : r = 0
  · rw [if_neg (not_not.mpr hr)]
    exact ⟨true, m₁, rfl, hex₁, hk₀, fun j hj hp => ⟨rfl, by have := hbeyond j hj hp; omega⟩⟩
  · rw [if_pos hr]
    obtain ⟨m₂, hok₂, hex₂, habs₂, hk₂⟩ := hex₁.freePageTables_kept t.data.getLimit
      (halign nr hnr) (by rw [hdir nr hnr]; omega) (by rw [hdir nr hnr]; omega)
    rw [hdir nr hnr] at habs₂ hk₂
    dsimp only
    rw [hok₂, mm_ok_bind]
    refine ⟨false, m₂, rfl, hex₂, hk₀.trans (hk₂.mono (hsub (by omega))), fun j hj hp => ?_⟩
    by_cases hjc : j < Memory.dirCount t.data.getLimit
    · exact absurd (hp.symm.trans (habs₂ j hjc)) (by decide)
    · rw [hk₂ _ (by omega) fun hm => hjc (by have := (Set.mem_Ico.mp hm).2; omega)] at hp
      exact absurd (hbeyond j hj hp) hjc

/-- `copy_process` into an empty slot. -/
theorem copyProcess (h : Inv held s) (ht : s.task n = some t) {nr : ℕ} (hpos : 1 ≤ nr)
    (hnr : nr < 64) (hempty : s.task nr = none) :
    ∃ s' held', System.copyProcess nr t s = .ok s' ∧ Inv held' s' := by
  have hslot := h.slot n t ht
  rw [System.copyProcess]
  cases hg : s.mem.getFreePage with
  | none => exact ⟨s, held, rfl, h⟩
  | some r =>
    obtain ⟨page, m⟩ := r
    obtain ⟨q, rfl, hlo, hq, hex, hk⟩ := h.exact.getFreePage_kept hg
    obtain ⟨b, m', hok, hex', hk', hown⟩ := h.copyMem ht hpos hnr hempty hex hk
      { t with
        page := q * 4096, zombie := false, pid := s.lastPid, father := t.pid, args := none }
    dsimp only at hok ⊢
    rw [hok, ok_bind]
    cases b with
    | true =>
      refine ⟨_, insert q held, rfl, h.change hex' hk'
        (fun a ha => by have := Set.mem_Ico.mp ha; omega) hnr (fun u hu => ?_) ?_
        fun _ j hj hp => ⟨_, rfl, rfl, ?_⟩⟩
      · obtain rfl := Option.some.inj hu
        refine ⟨hnr, ?_, ?_, ?_, ?_, ?_, ?_, fun _ => ?_, fun _ => ?_, fun _ ha => nomatch ha⟩
        · exact Desc.getBase_setBase _ _
        · exact Desc.getBase_setBase _ _
        · simpa using hslot.codeGranular
        · simpa using hslot.dataGranular
        · simpa using hslot.code_le
        · simpa using hslot.data_le
        · omega
        · dsimp only
          omega
      · refine h.holds.store (x := (nr, 0)) hq ?_ fun ⟨k, i⟩ hx => ?_
        · rw [addr_setTask, if_pos rfl]
          rfl
        · rw [addr_setTask]
          by_cases hkn : k = nr
          · subst hkn
            rw [if_pos rfl]
            cases i with
            | zero => exact absurd rfl hx
            | succ i => exact .inl rfl
          · rw [if_neg hkn]
            exact .inr rfl
      · simpa using (hown j hj hp).2
    | false =>
      obtain ⟨m₂, hok₂, hex₂, hk₂⟩ := hex'.freePage_kept (Finset.mem_insert_self q held)
      rw [if_neg Bool.false_ne_true]
      dsimp only
      rw [hok₂, mm_ok_bind]
      rw [Finset.erase_insert hq] at hex₂
      refine ⟨_, held, rfl, h.memory (n := nr) hex₂ (hk'.trans (hk₂.mono (Set.empty_subset _)))
        (fun a ha => by have := Set.mem_Ico.mp ha; omega) hnr h.holds fun _ j hj _ hp => ?_⟩
      rw [hk₂ _ (by omega) (Set.notMem_empty _)] at hp
      exact absurd (hown j hj hp).1 Bool.false_ne_true

theorem fork (h : Inv held s) (ht : s.task n = some t) :
    ∃ s' held', System.fork t s = .ok s' ∧ Inv held' s' := by
  obtain ⟨pid, hpid, hlo, hhi⟩ := freshPid_spec s h.lastPid.1 h.lastPid.2
  have h' : Inv held { s with lastPid := pid } :=
    ⟨h.exact, h.kernel, h.slot, h.owned, h.holds, hlo, hhi⟩
  rw [System.fork, hpid]
  dsimp only
  cases hf : findEmpty { s with lastPid := pid } with
  | none => exact ⟨_, held, rfl, h'⟩
  | some nr =>
    have hmem := List.mem_range'_1.mp (List.mem_of_find?_eq_some hf)
    have hempty : s.task nr = none := by simpa using List.find?_some hf
    exact h'.copyProcess ht hmem.1 hmem.2 hempty

/-- **Step lemma.** A call that a task may make keeps the invariant. It does not return only when
task 0 gives up its address space, or when the arguments of `execve` do not fit. -/
theorem perform (h : Inv held s) {e : Event} (ha : s.Admissible e) :
    (∃ s' held', s.perform e = .ok s' ∧ Inv held' s') ∨
      e.slot = 0 ∧ s.perform e = .error (.mm .freeSwapper) ∨
      (∃ file envp argv, e.call = .execve file envp argv) ∧
        s.perform e = .error .nonexistentPage := by
  obtain ⟨n, c⟩ := e
  obtain ⟨-, t, ht, hz, hmay⟩ := ha
  dsimp only at ht hmay ⊢
  rw [System.perform_eq ht]
  cases c with
  | fork => exact .inl (h.fork ht)
  | execve file envp argv =>
    rcases h.execve ht hz hmay.1 hmay.2 envp argv with hok | he
    · exact .inl hok
    · exact .inr (.inr ⟨⟨file, envp, argv, rfl⟩, he⟩)
  | load =>
    rw [call]
    cases hargs : t.args with
    | none => exact absurd hargs hmay
    | some args => exact (h.load ht hz hargs).imp id .inl
  | exit => exact (h.doExit ht).imp id .inl
  | waitpid pid => exact .inl (h.waitpid pid)
  | verify addr size => exact (h.verify ht addr size).imp id .inl
  | fault off write => exact (h.fault ht hz hmay write).imp id .inl

theorem boot (other : ℕ → Word) : Inv ∅ (System.boot other) where
  exact := Exact.boot other
  kernel := KernelMap.boot other
  slot n t ht := by
    simp only [System.boot] at ht
    split_ifs at ht with hn
    obtain rfl := Option.some.inj ht
    subst hn
    exact ⟨by decide, by decide, by decide, by decide, by decide, by decide, by decide,
      fun _ => by decide, fun hc => absurd hc (by norm_num), fun _ ha => by cases ha⟩
  owned n hn hn' j hj hp := by
    have hword : (Memory.boot other).word (16 * n + j) = 0 := by
      simp only [Memory.boot]
      rw [if_neg (by omega), if_neg (by omega), if_pos (by omega)]
    change present ((Memory.boot other).word (16 * n + j)) = true at hp
    rw [hword] at hp
    exact absurd hp (by decide)
  holds := by
    have haddr (x : ℕ × ℕ) : (System.boot other).addr x = 0 := by
      rw [addr, System.boot]
      dsimp only
      split_ifs
      · cases x.2 <;> rfl
      · rfl
    refine ⟨fun x => by rw [haddr], ?_, ?_, fun hp => by simp at hp, fun hp => by simp at hp⟩
    · rintro x y z ⟨hp, hx⟩ -
      rw [haddr] at hx
      omega
    · rintro x z ⟨hp, hx⟩
      rw [haddr] at hx
      omega
  lastPid := ⟨le_rfl, by norm_num [System.boot]⟩

/-- The invariant holds in every state of every run. -/
theorem of_runs {other : ℕ → Word} {es : List Event} (h : Runs Step (System.boot other) es s) :
    ∃ held, Inv held s := by
  refine h.invariant (I := fun s => ∃ held, Inv held s) (fun s e s' ⟨held, hs⟩ hstep => ?_)
    ⟨∅, boot other⟩
  obtain ⟨ha, hok⟩ := hstep
  rcases hs.perform ha with ⟨s₁, held₁, h₁, hinv⟩ | ⟨-, he⟩ | ⟨-, he⟩
  · obtain rfl := Except.ok.inj (h₁.symm.trans hok)
    exact ⟨held₁, hinv⟩
  · cases he.symm.trans hok
  · cases he.symm.trans hok

/-- No two directory entries, the ones of the kernel included, use the same table. -/
theorem table_inj (h : Inv held s) {d d' : ℕ} (hd : d < 1024) (hd' : d' < 1024)
    (hp : present (s.mem.word d) = true) (hp' : present (s.mem.word d') = true)
    (heq : frameOf (s.mem.word d) = frameOf (s.mem.word d')) : d = d' := by
  have hlow : ∀ k < 16, present (s.mem.word k) = true → frameOf (s.mem.word k) = k + 1 ∧ k < 2 :=
    fun k hk hpk => by
      rcases Nat.lt_or_ge k 2 with hk2 | hk2
      · refine ⟨?_, hk2⟩
        interval_cases k
        · rw [h.kernel.dir_zero]
          rfl
        · rw [h.kernel.dir_one]
          rfl
      · rw [h.kernel.dir_absent hk2 hk] at hpk
        exact absurd hpk Bool.false_ne_true
  have hhigh : ∀ k < 1024, 16 ≤ k → present (s.mem.word k) = true →
      512 ≤ frameOf (s.mem.word k) := fun k hk hk' hpk =>
    (h.exact.table_mem k (mem_userDirs.mpr ⟨hk', hk⟩) hpk).1
  rcases Nat.lt_or_ge d 16 with hlt | hge <;> rcases Nat.lt_or_ge d' 16 with hlt' | hge'
  · have h₁ := (hlow d hlt hp).1
    have h₂ := (hlow d' hlt' hp').1
    omega
  · have h₁ := hlow d hlt hp
    have h₂ := hhigh d' hd' hge' hp'
    omega
  · have h₁ := hhigh d hd hge hp
    have h₂ := hlow d' hlt' hp'
    omega
  · exact h.exact.table_inj (mem_userDirs.mpr ⟨hge, hd⟩) hp (mem_userDirs.mpr ⟨hge', hd'⟩) hp' heq

end Inv

/-- **Address-space slots are owned.** In every state of every run, the directory entries of a slot
are present only while its task has not exited and has the segments of the slot; no two directory
entries use the same table; and no fork ends in the panic `copy_page_tables: already exist`. -/
theorem slots_owned {other : ℕ → Word} {es : List Event} {s : System}
    (h : Runs Step (boot other) es s) :
    (∀ n, 1 ≤ n → n < nrTasks → ∀ j < 16, present (s.mem.word (16 * n + j)) = true →
      ∃ t, s.task n = some t ∧ t.zombie = false ∧ t.code.getBase.toNat = n * 0x4000000 ∧
        t.data.getBase.toNat = n * 0x4000000) ∧
    (∀ d < 1024, ∀ d' < 1024, present (s.mem.word d) = true → present (s.mem.word d') = true →
      frameOf (s.mem.word d) = frameOf (s.mem.word d') → d = d') ∧
    ∀ n, s.Admissible ⟨n, .fork⟩ → s.perform ⟨n, .fork⟩ ≠ .error (.mm .alreadyExist) := by
  obtain ⟨held, hinv⟩ := Inv.of_runs h
  refine ⟨fun n hn hn' j hj hp => ?_, fun d hd d' hd' hp hp' heq =>
    hinv.table_inj hd hd' hp hp' heq,
    fun n ha hc => ?_⟩
  · obtain ⟨t, ht, hz, -⟩ := hinv.owned n hn hn' j hj hp
    have hslot := hinv.slot n t ht
    refine ⟨t, ht, hz, ?_, ?_⟩
    · rw [hslot.codeBase, toNat_linear hn' (by norm_num), add_zero]
    · rw [hslot.dataBase, toNat_linear hn' (by norm_num), add_zero]
  · rcases hinv.perform ha with ⟨s', -, hok, -⟩ | ⟨-, he⟩ | ⟨-, he⟩
    · cases hok.symm.trans hc
    · cases he.symm.trans hc
    · cases he.symm.trans hc

/-- Task 0 forks, and its child exits: the directory entries of slot 1 are owned, or absent. -/
theorem slots_owned_exit : ∃ s,
    Runs Step (boot fun _ => 0) [⟨1, .exit⟩, ⟨0, .fork⟩] s ∧
      (∀ j < 16, present (s.mem.word (16 * 1 + j)) = true →
        ∃ t, s.task 1 = some t ∧ t.zombie = false ∧ t.code.getBase.toNat = 1 * 0x4000000 ∧
          t.data.getBase.toNat = 1 * 0x4000000) ∧
      ∀ n, s.Admissible ⟨n, .fork⟩ → s.perform ⟨n, .fork⟩ ≠ .error (.mm .alreadyExist) := by
  have hfork : ∃ s t, Runs Step (boot fun _ => 0) [⟨0, .fork⟩] s ∧ s.task 1 = some t ∧
      t.zombie = false :=
    ⟨_, _, .cons .nil ⟨⟨by decide, _, rfl, rfl, rfl⟩, rfl⟩, rfl, rfl⟩
  obtain ⟨s, t, hs, ht, hz⟩ := hfork
  obtain ⟨held, hinv⟩ := Inv.of_runs hs
  have hmay : s.Admissible ⟨1, .exit⟩ := ⟨by decide, t, ht, hz, trivial⟩
  rcases hinv.perform hmay with ⟨s', -, hok, -⟩ | ⟨hc, -⟩ | ⟨⟨_, _, _, hc⟩, -⟩
  · have howned := slots_owned (hs.cons ⟨hmay, hok⟩)
    exact ⟨s', hs.cons ⟨hmay, hok⟩, howned.1 1 (by decide) (by decide), howned.2.2⟩
  · cases hc
  · cases hc

end System

end Linux001.Mm
