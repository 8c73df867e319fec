import Linux001.Exec.Arguments
import Linux001.Lib.Effects

/-!
# The checks of an executable header

`do_execve` compares two sums of fields of the header, which are 32-bit numbers. Text, data and bss
are to fit below the stack, and the header, text, data and symbols to be inside the file. The
sums wrap; the fields are what the file says.

## Main definitions

* `Bounded`: what the checks are for.
* `Proc.Ordered`: the addresses that the process is left with.
* `Validated`: every header that is accepted is bounded, and leaves these addresses in order.

## Main results

* `ensures_doExecve`: a successful call has copied all strings, and what it leaves in `current`.
* `validated_iff`: an accepted header is bounded, and leaves the addresses in order, if and only if
  the sums do not wrap.
-/

namespace Linux001.Exec

open Mm (Memory Word Pages maxArgPages Desc)
open Fs (Block)

/-! ### What stays as it is -/

section Leaves

variable {γ : Type} {f : State → γ}

theorem leaves_onMem {g : Memory → Except Mm.Stop Memory}
    (hmem : ∀ s m, f { s with mem := m } = f s) : Leaves f (onMem g) := fun s a s' h => by
  rw [onMem] at h
  obtain ⟨m, -, hm⟩ := map_eq_ok.mp h
  rw [← (Prod.mk.inj hm).2]
  exact hmem s m

theorem leaves_onCache {g : Fs.Cache → Option Fs.Cache} {e : Stop}
    (hcache : ∀ s c, f { s with cache := c } = f s) : Leaves f (onCache g e) := fun s a s' h => by
  rw [onCache] at h
  split at h
  · cases h
  · rw [← (Prod.mk.inj (Except.ok.inj h)).2]
    exact hcache s _

variable (hmem : ∀ s m, f { s with mem := m } = f s)

include hmem

theorem leaves_access (off : Word) : Leaves f (access off) :=
  (leaves_get f).bind fun _ => leaves_ite
    ((leaves_onMem hmem).bind fun _ => leaves_pure f _) (leaves_throw f _)

theorem leaves_getFsByte (off : Word) : Leaves f (getFsByte off) :=
  (leaves_access hmem off).bind fun _ => (leaves_get f).bind fun _ => leaves_pure f _

theorem leaves_putFsByte (b : Byte) (off : Word) : Leaves f (putFsByte b off) :=
  (leaves_access hmem off).bind fun _ => leaves_modify fun s => hmem s _

theorem leaves_putFsLong (w off : Word) : Leaves f (putFsLong w off) :=
  leaves_forM _ fun _ => leaves_putFsByte hmem _ _

theorem leaves_cpBlock (b : Block) (off : Word) : Leaves f (cpBlock b off) :=
  leaves_forM _ fun _ => leaves_putFsByte hmem _ _

theorem leaves_clearPage : ∀ (fuel : ℕ) (i : Word), Leaves f (clearPage fuel i)
  | 0, _ => leaves_pure f _
  | fuel + 1, i => leaves_ite
    ((leaves_putFsByte hmem 0 i).bind fun _ => leaves_clearPage fuel (i + 1)) (leaves_pure f _)

theorem leaves_skipString : ∀ (fuel : ℕ) (p : Word), Leaves f (skipString fuel p)
  | 0, _ => leaves_throw f _
  | fuel + 1, p => (leaves_getFsByte hmem p).bind fun _ =>
    leaves_ite (leaves_pure f _) (leaves_skipString fuel (p + 1))

theorem leaves_fillTable : ∀ (n : ℕ) (p table : Word), Leaves f (fillTable n p table)
  | 0, _, table => (leaves_putFsLong hmem 0 table).bind fun _ => leaves_pure f _
  | n + 1, p, table => (leaves_putFsLong hmem p table).bind fun _ =>
    (leaves_skipString hmem _ p).bind fun p => leaves_fillTable n p (table + 4)

theorem leaves_createTables (p : Word) (argc envc : ℕ) : Leaves f (createTables p argc envc) :=
  (leaves_putFsLong hmem _ _).bind fun _ => (leaves_putFsLong hmem _ _).bind fun _ =>
    (leaves_putFsLong hmem _ _).bind fun _ => (leaves_fillTable hmem _ _ _).bind fun _ =>
      (leaves_fillTable hmem _ _ _).bind fun _ => leaves_pure f _

variable (hcache : ∀ s c, f { s with cache := c } = f s)

omit hmem in
include hcache in
theorem leaves_bread (z : ℕ) : Leaves f (bread z) :=
  (leaves_onCache hcache).bind fun _ => (leaves_get f).bind fun _ => leaves_pure f _

omit hmem in
include hcache in
/-- A buffer that is released after its use. -/
theorem leaves_borrow {z : ℕ} {k : Block → K Unit} (hk : ∀ b, Leaves f (k b)) :
    Leaves f (do
      let b ← bread z
      k b
      brelse z) :=
  (leaves_bread hcache z).bind fun b => (hk b).bind fun _ => leaves_onCache hcache

section Loaders

variable (hborrow : ∀ {z : ℕ} {k : Block → K Unit}, (∀ b, Leaves f (k b)) → Leaves f (do
  let b ← bread z
  k b
  brelse z))

include hborrow

theorem leaves_readBlock (z : ℕ) (off : Word) : Leaves f (readBlock z off) :=
  leaves_ite (leaves_pure f _) (hborrow fun b => leaves_cpBlock hmem b off)

theorem leaves_readHead (i : Inode) (blocks : ℤ) : Leaves f (readHead i blocks) :=
  leaves_forM _ fun _ => leaves_readBlock hmem hborrow _ _

theorem leaves_readIndFrom (table : Block) : ∀ (turns k : ℕ) (offset : Word),
    Leaves f (readIndFrom table turns k offset)
  | 0, _, _ => leaves_pure f _
  | turns + 1, k, offset => (leaves_readBlock hmem hborrow _ _).bind fun _ =>
    leaves_readIndFrom table turns (k + 1) (offset + 1024)

theorem leaves_readInd (ind : ℕ) (size : ℤ) (offset : Word) : Leaves f (readInd ind size offset) :=
  leaves_ite (leaves_throw f _) <| leaves_ite (leaves_pure f _) <|
    hborrow fun b => leaves_readIndFrom hmem hborrow b _ _ _

theorem leaves_readDindFrom (dind : Block) : ∀ (turns count : ℕ) (size : ℤ),
    Leaves f (readDindFrom dind turns count size)
  | 0, _, _ => leaves_throw f _
  | turns + 1, count, _ => (leaves_readInd hmem hborrow _ _ _).bind fun _ =>
    leaves_ite (leaves_pure f _) (leaves_readDindFrom dind turns (count + 1) _)

end Loaders

include hcache in
theorem leaves_readArea (i : Inode) (size : ℤ) : Leaves f (readArea i size) :=
  (leaves_readHead hmem (leaves_borrow hcache) _ _).bind fun _ => leaves_ite (leaves_pure f _) <|
    (leaves_readInd hmem (leaves_borrow hcache) _ _ _).bind fun _ => leaves_ite (leaves_pure f _) <|
      leaves_ite (leaves_pure f _) <| (leaves_bread hcache _).bind fun _ =>
        leaves_readDindFrom hmem (leaves_borrow hcache) _ _ _ _

end Leaves

/-! ### The stack pointer -/

/-- A result that does not depend on the state. -/
def Gives {α : Type} (m : K α) (a : α) : Prop := ∀ s, Ensures m s fun b _ => b = a

theorem Gives.after {α β : Type} {m : K α} {k : α → K β} {b : β} (hk : ∀ a, Gives (k a) b) :
    Gives (m >>= k) b :=
  fun _ => Ensures.self.bind fun a s' _ => hk a s'

theorem gives_pure {α : Type} (a : α) : Gives (pure a) a := fun _ => ensures_pure.mpr rfl

/-- The stack pointer that `create_tables` returns for strings at `p`. -/
def tablesAt (p : Word) (argc envc : ℕ) : Word :=
  (0xfffffffc &&& p) - BitVec.ofNat 32 (4 * (envc + 1)) - BitVec.ofNat 32 (4 * (argc + 1)) - 12

theorem gives_createTables (p : Word) (argc envc : ℕ) :
    Gives (createTables p argc envc) (tablesAt p argc envc) :=
  .after fun _ => .after fun _ => .after fun _ => .after fun _ => .after fun _ => gives_pure _

private theorem align_eq {n : ℕ} (h : n < 2 ^ 32) : 0xfffffffc &&& n = n / 4 * 4 := by
  refine Nat.eq_of_testBit_eq fun i => ?_
  rw [Nat.testBit_and, show (0xfffffffc : ℕ) = (2 ^ 30 - 1) <<< 2 from rfl,
    show n / 4 * 4 = (n >>> 2) <<< 2 by rw [Nat.shiftRight_eq_div_pow, Nat.shiftLeft_eq]]
  simp only [Nat.testBit_shiftLeft, Nat.testBit_shiftRight, Nat.testBit_two_pow_sub_one]
  by_cases hi : 2 ≤ i
  · rw [show 2 + (i - 2) = i by omega]
    by_cases hi' : i - 2 < 30
    · simp [hi, hi']
    · have hbit : n.testBit i = false := Nat.testBit_lt_two_pow
        (lt_of_lt_of_le h (Nat.pow_le_pow_right (by norm_num) (by omega)))
      simp [hbit]
  · simp [hi]

theorem toNat_align (p : Word) : ((0xfffffffc : Word) &&& p).toNat = p.toNat / 4 * 4 := by
  rw [BitVec.toNat_and]
  exact align_eq p.isLt

/-- Tables that fit below the strings. -/
theorem toNat_tablesAt {p : Word} {argc envc : ℕ} (h : 4 * (argc + envc) + 23 ≤ p.toNat) :
    (tablesAt p argc envc).toNat = p.toNat / 4 * 4 - 4 * (argc + envc + 5) := by
  have halign := toNat_align p
  rw [tablesAt]
  generalize 0xfffffffc &&& p = q at halign ⊢
  bv_omega

/-! ### A successful call -/

/-- The end of the area of the strings is the end of the data segment. -/
theorem stackAt {T : ℕ} (hT : T ≤ 131068) : BitVec.ofNat 32 (131068 - T) +
    (Mm.System.dataLimit - BitVec.ofNat 32 (maxArgPages * 4096)) =
      BitVec.ofNat 32 (0x3fffffc - T) := by
  rw [Mm.System.dataLimit, maxArgPages]
  bv_omega

theorem gives_changeLdt (text : Word) (page : ℕ → ℕ) :
    Gives (changeLdt text page) Mm.System.dataLimit :=
  .after fun _ => .after fun _ => .after fun _ => gives_pure _

/-- The addresses that a program is left with, and the registers with which it begins. -/
structure Proc.Set (c : Proc) (ex : Mm.Exec) (sp : Word) : Prop where
  endCode : c.endCode = ex.text
  endData : c.endData = ex.data + ex.text
  brk : c.brk = ex.bss + (ex.data + ex.text)
  startStack : c.startStack = sp &&& 0xfffff000

section Ensures

variable {i : Inode} {ex : Header} {argv envp : List Str} {s : State}

theorem ensures_newStack (text : Word) (argc envc : ℕ) (p : Word) (page : ℕ → ℕ) (s : State) :
    Ensures (newStack text argc envc p page) s fun sp _ => sp =
      tablesAt (p + (Mm.System.dataLimit - BitVec.ofNat 32 (maxArgPages * 4096))) argc envc := by
  refine (gives_changeLdt _ _ s).bind fun top s₁ htop => ?_
  rw [htop]
  exact gives_createTables _ _ _ s₁

theorem ensures_loadProgram (i : Inode) (ex : Header) (argc envc : ℕ) (p : Word) (page : ℕ → ℕ)
    (s : State) : Ensures (loadProgram i ex argc envc p page) s fun _ s' =>
      s'.proc.Set ex.toExec s'.esp ∧ s'.esp =
        tablesAt (p + (Mm.System.dataLimit - BitVec.ofNat 32 (maxArgPages * 4096))) argc envc := by
  rw [loadProgram]
  refine Ensures.self.bind fun _ s₁ _ => (ensures_newStack _ _ _ _ _ s₁).bind fun q s₃ hq => ?_
  rw [setProc, ensures_modify_bind]
  refine (leaves_readArea (f := State.proc) (fun _ _ => rfl) (fun _ _ => rfl) _ _ _).bind
    fun _ s₅ h₅ => ?_
  rw [iput, ensures_modify_bind]
  refine (leaves_clearPage (f := State.proc) (fun _ _ => rfl) _ _ _).bind fun _ s₆ h₆ => ?_
  rw [ensures_modify_bind, ensures_pure]
  dsimp only at h₅ h₆ ⊢
  rw [h₆, h₅]
  exact ⟨⟨rfl, rfl, rfl, rfl⟩, hq⟩

/-- A call after the check of the header that succeeds has copied all strings, and loads the
program. -/
theorem load_of_execAccepted {s' : State} (h : execAccepted i ex argv envp s = .ok (0, s')) :
    ∃ a, Taken s.mem a ∧ total (argv ++ envp) < 131068 ∧
      loadProgram i ex argv.length envp.length (BitVec.ofNat 32 (131068 - total (argv ++ envp)))
        a.page
        { s with mem := a.mem } = .ok (0, s') := by
  rw [execAccepted_eq] at h
  obtain ⟨⟨p, a⟩, hcopy, h⟩ := bind_eq_ok.mp h
  have hfit : ArgsFit s.mem.freeFrames argv envp := by
    by_contra hfit
    obtain ⟨e, he⟩ := copyArguments_error hfit
    cases he.symm.trans hcopy
  obtain ⟨p', a', hcopy', htaken, hzero, hfull⟩ := copyArguments_ok hfit
  obtain ⟨rfl, rfl⟩ := Prod.mk.inj (Except.ok.inj (hcopy.symm.trans hcopy'))
  dsimp only at h
  split_ifs at h with hp
  · obtain ⟨s₁, hs₁, -⟩ := abandon_ok htaken
    obtain ⟨hneg, -⟩ := Prod.mk.inj (Except.ok.inj (hs₁.symm.trans h))
    omega
  · obtain ⟨rfl, hfilled, -⟩ := hfull (not_lt.mp fun hc => hp (hzero hc))
    refine ⟨a, htaken, lt_of_le_of_ne hfilled.le fun hc => hp ?_, h⟩
    rw [hc]
    rfl

theorem ensures_execAccepted : Ensures (execAccepted i ex argv envp) s fun r s' => r = 0 →
    total (argv ++ envp) < 131068 ∧ s'.proc.Set ex.toExec s'.esp ∧
      s'.esp = tablesAt (BitVec.ofNat 32 (0x3fffffc - total (argv ++ envp))) argv.length
        envp.length := fun r s' h hr => by
  rw [hr] at h
  obtain ⟨a, -, hlt, hload⟩ := load_of_execAccepted h
  obtain ⟨hset, hesp⟩ := ensures_loadProgram i ex _ _ _ _ _ _ _ hload
  refine ⟨hlt, hset, ?_⟩
  rw [hesp, stackAt hlt.le]

/-- A successful call. -/
theorem ensures_doExecve : Ensures (doExecve i argv envp) s fun r s' => r = 0 →
    total (argv ++ envp) < 131068 ∧
      s'.proc.Set (header (s.cache.data (i.zone 0))).toExec s'.esp ∧
      s'.esp = tablesAt (BitVec.ofNat 32 (0x3fffffc - total (argv ++ envp))) argv.length
        envp.length := by
  have hread : Ensures (bread (i.zone 0)) s fun b _ => b = s.cache.data (i.zone 0) := by
    refine Ensures.bind (Q := fun _ s' => s'.cache.data = s.cache.data) ?_ fun _ s' hs' => ?_
    · intro _ s' h
      rw [onCache] at h
      split at h
      · cases h
      · rename_i c hc
        rw [← (Prod.mk.inj (Except.ok.inj h)).2]
        exact (Fs.Cache.read_bread hc).data
    · rw [ensures_get_bind, ensures_pure, hs']
  rw [doExecve]
  refine hread.bind fun b s₁ hb => Ensures.self.bind fun _ s₂ _ => ensures_ite (fun _ => ?_)
    fun _ => ?_
  · rw [iput, ensures_modify_bind, ensures_pure, ENOEXEC]
    omega
  · rw [hb]
    exact ensures_execAccepted

end Ensures

theorem length_le_total (ss : List Str) : ss.length ≤ total ss := by
  induction ss with
  | nil => exact le_rfl
  | cons s ss ih =>
    have := s.len_pos
    rw [List.length_cons, total_cons]
    omega

/-! ### The checks -/

/-- What the checks of a header are for. -/
def Bounded (ex : Mm.Exec) (size : Word) : Prop :=
  ex.text.toNat + ex.data.toNat + ex.bss.toNat ≤ 0x3000000 ∧
    1024 + ex.text.toNat + ex.data.toNat + ex.syms.toNat ≤ size.toNat

/-- `end_code`, `end_data`, `brk` and `start_stack` are in order. -/
def Proc.Ordered (c : Proc) : Prop :=
  c.endCode ≤ c.endData ∧ c.endData ≤ c.brk ∧ c.brk < c.startStack

/-- A header that has been accepted is bounded, and all successful calls leave the addresses in
order. -/
def Validated (i : Inode) (ex : Mm.Exec) : Prop :=
  Bounded ex i.size ∧ ∀ argv envp s s', (header (s.cache.data (i.zone 0))).toExec = ex →
    doExecve i argv envp s = .ok (0, s') → s'.proc.Ordered

/-- The sums of the checks are less than `2 ^ 32`. -/
def NoWrap (ex : Mm.Exec) : Prop :=
  ex.text.toNat + ex.data.toNat + ex.bss.toNat < 2 ^ 32 ∧
    1024 + ex.text.toNat + ex.data.toNat + ex.syms.toNat < 2 ^ 32

section Validated

variable {i : Inode} {ex : Mm.Exec}

/-- What is known of a header that has been accepted. -/
theorem not_refused (h : ex.refused i.size = false) : ex.text + ex.data + ex.bss ≤ 0x3000000 ∧
    ex.text + ex.data + ex.syms + 1024 ≤ i.size := by
  rw [Mm.Exec.refused, Bool.or_eq_false_iff, Bool.or_eq_false_iff, Bool.or_eq_false_iff,
    Bool.or_eq_false_iff] at h
  obtain ⟨⟨⟨⟨hmagic, -⟩, -⟩, hbss⟩, hsize⟩ := h
  rw [decide_eq_false_iff_not, not_not] at hmagic
  rw [Mm.Exec.txtOff, if_pos hmagic] at hsize
  exact ⟨BitVec.not_lt.mp (of_decide_eq_false hbss), BitVec.not_lt.mp (of_decide_eq_false hsize)⟩

theorem bounded_of_noWrap (h : ex.refused i.size = false) (hw : NoWrap ex) : Bounded ex i.size := by
  obtain ⟨hbss, hsize⟩ := not_refused h
  obtain ⟨hw₁, hw₂⟩ := hw
  exact ⟨by bv_omega, by bv_omega⟩

/-- **The checks of a header.** A header that has been accepted is bounded, and leaves the addresses
of the process in order, if and only if the sums do not wrap. -/
theorem validated_iff (h : ex.refused i.size = false) : Validated i ex ↔ NoWrap ex := by
  refine ⟨fun hv => ?_, fun hw => ?_⟩
  · obtain ⟨⟨h₁, h₂⟩, -⟩ := hv
    have := i.size.isLt
    exact ⟨by omega, by omega⟩
  have hbounded := bounded_of_noWrap h hw
  refine ⟨hbounded, fun argv envp s s' hex hok => ?_⟩
  obtain ⟨hlt, hset, hesp⟩ := ensures_doExecve 0 s' hok rfl
  rw [hex] at hset
  -- The tables and the stack are above everything that the header asks for.
  have hargv := length_le_total argv
  have henvp := length_le_total envp
  rw [total_append] at hlt hesp
  have hnat : (BitVec.ofNat 32 (0x3fffffc - (total argv + total envp))).toNat =
      0x3fffffc - (total argv + total envp) := by
    rw [BitVec.toNat_ofNat, Nat.mod_eq_of_lt (by omega)]
  have hsp : (tablesAt (BitVec.ofNat 32 (0x3fffffc - (total argv + total envp))) argv.length
      envp.length).toNat = _ := toNat_tablesAt (by omega)
  rw [← hesp, hnat] at hsp
  have hpage := Mm.pageOf_eq s'.esp
  rw [Mm.pageOf, Mm.frameOf, BitVec.and_comm] at hpage
  obtain ⟨hbss, -⟩ := hbounded
  rw [Proc.Ordered, hset.endCode, hset.endData, hset.brk, hset.startStack]
  generalize s'.esp &&& 0xfffff000 = top at hpage ⊢
  refine ⟨by bv_omega, by bv_omega, ?_⟩
  rw [BitVec.lt_def, hpage]
  bv_omega

end Validated

/-- The first block of a program with 4096 bytes of text. -/
def textBlock : Block := fun j => ([(0, 0x0b), (1, 1), (5, 0x10)].lookup j).getD 0

theorem validated_iff_text : Validated ⟨5120, fun _ => 0⟩ (header textBlock).toExec ↔
    NoWrap (header textBlock).toExec :=
  validated_iff (by decide)

/-- The first block of a file that gives its text 4096 bytes less than 4 GB, and its data 4096. -/
def wrapBlock : Block := fun j =>
  ([(0, 0x0b), (1, 1), (5, 0xf0), (6, 0xff), (7, 0xff), (9, 0x10)].lookup j).getD 0

/-- A file of 1024 bytes is accepted with this header. -/
theorem not_validated : (header wrapBlock).refused 1024 = false ∧
    ¬ Validated ⟨1024, fun _ => 0⟩ (header wrapBlock).toExec :=
  ⟨by decide, fun h => absurd h.1.1 (by decide)⟩

end Linux001.Exec
