import Linux001.Lib.Sizes
import Mathlib.Logic.Function.Basic
import Mathlib.Order.Basic
import Mathlib.Tactic.Linarith

/-!
# Video memory and string instructions

The memory that the console driver stores to, byte by byte, with a record of all addresses that
have been stored to. The string instructions `stosw`, `stosl` and `movsl` with a repeat count are
loops over it, upwards or, after `std`, downwards.

## Main definitions

* `Video.stosw`, `Video.movsl`, `Video.stoswDown`, `Video.movslDown`: the string instructions.
* `Video.Wrote`: what a sequence of stores to an interval does.

## Main results

* `Video.wrote_stosw`, `Video.wrote_movsl`, …: what each of the instructions does.
-/

namespace Linux001.Tty

/-- A word of memory, low byte first. -/
abbrev Word := UInt8 × UInt8

/-- A blank with the attribute 7. -/
def erased : Word := (0x20, 0x07)

/-- The byte `k` of a sequence of blanks. -/
def blank (k : ℕ) : UInt8 := if k % 2 = 0 then erased.1 else erased.2

/-- Memory, and the addresses that have been stored to, most recent first. -/
structure Video where
  byte : ℕ → UInt8
  stores : List ℕ

namespace Video

def store (v : Video) (a : ℕ) (b : UInt8) : Video :=
  ⟨Function.update v.byte a b, a :: v.stores⟩

def word (v : Video) (a : ℕ) : Word := (v.byte a, v.byte (a + 1))

def store16 (v : Video) (a : ℕ) (w : Word) : Video := (v.store a w.1).store (a + 1) w.2

def store32 (v : Video) (a : ℕ) (w w' : Word) : Video := (v.store16 a w).store16 (a + 2) w'

/-- `rep stosw` of a blank. -/
def stosw : ℕ → ℕ → Video → Video
  | 0, _, v => v
  | n + 1, d, v => stosw n (d + 2) (v.store16 d erased)

/-- `rep stosl` of two blanks. -/
def stosl : ℕ → ℕ → Video → Video
  | 0, _, v => v
  | n + 1, d, v => stosl n (d + 4) (v.store32 d erased erased)

/-- `std; rep stosw` of a blank. -/
def stoswDown : ℕ → ℕ → Video → Video
  | 0, _, v => v
  | n + 1, d, v => stoswDown n (d - 2) (v.store16 d erased)

/-- `rep movsl`. -/
def movsl : ℕ → ℕ → ℕ → Video → Video
  | 0, _, _, v => v
  | n + 1, d, s, v => movsl n (d + 4) (s + 4) (v.store32 d (v.word s) (v.word (s + 2)))

/-- `std; rep movsl`. -/
def movslDown : ℕ → ℕ → ℕ → Video → Video
  | 0, _, _, v => v
  | n + 1, d, s, v => movslDown n (d - 4) (s - 4) (v.store32 d (v.word s) (v.word (s + 2)))

/-- The bytes from `lo` to `hi` have been replaced by those of `f`, and nothing else has been stored
to. -/
structure Wrote (v : Video) (lo hi : ℕ) (f : ℕ → UInt8) (v' : Video) : Prop where
  byte : ∀ a, v'.byte a = if lo ≤ a ∧ a < hi then f a else v.byte a
  stores : ∀ a ∈ v'.stores, a ∈ v.stores ∨ lo ≤ a ∧ a < hi

variable {v v' v'' : Video} {lo mid hi : ℕ} {f g : ℕ → UInt8}

namespace Wrote

theorem refl (v : Video) (lo : ℕ) (f : ℕ → UInt8) : v.Wrote lo lo f v where
  byte a := by rw [if_neg (by omega)]
  stores a ha := .inl ha

theorem congr (h : v.Wrote lo hi f v') (hfg : ∀ a, lo ≤ a → a < hi → f a = g a) :
    v.Wrote lo hi g v' where
  byte a := by
    rw [h.byte a]
    split_ifs with ha
    · exact hfg a ha.1 ha.2
    · rfl
  stores := h.stores

theorem cast {lo' hi' : ℕ} (h : v.Wrote lo hi f v') (hlo : lo = lo') (hhi : hi = hi') :
    v.Wrote lo' hi' f v' := by
  rwa [hlo, hhi] at h

/-- Two adjacent intervals are written to, the upper one first or last. -/
theorem append (hlo : lo ≤ mid) (hhi : mid ≤ hi) (h : v.Wrote lo mid f v')
    (h' : v'.Wrote mid hi f v'') : v.Wrote lo hi f v'' where
  byte a := by
    rw [h'.byte a, h.byte a]
    split_ifs <;> first | rfl | omega
  stores a ha := by
    rcases h'.stores a ha with ha | ha
    · exact (h.stores a ha).imp_right fun ha => ⟨ha.1, ha.2.trans_le hhi⟩
    · exact .inr ⟨hlo.trans ha.1, ha.2⟩

theorem append' (hlo : lo ≤ mid) (hhi : mid ≤ hi) (h : v.Wrote mid hi f v')
    (h' : v'.Wrote lo mid f v'') : v.Wrote lo hi f v'' where
  byte a := by
    rw [h'.byte a, h.byte a]
    split_ifs <;> first | rfl | omega
  stores a ha := by
    rcases h'.stores a ha with ha | ha
    · exact (h.stores a ha).imp_right fun ha => ⟨hlo.trans ha.1, ha.2⟩
    · exact .inr ⟨ha.1, ha.2.trans_le hhi⟩

end Wrote

theorem wrote_store (v : Video) (a : ℕ) (b : UInt8) :
    v.Wrote a (a + 1) (fun _ => b) (v.store a b) where
  byte a' := by
    simp only [store, Function.update_apply]
    split_ifs <;> first | rfl | omega
  stores a' ha := by
    rcases List.mem_cons.mp ha with rfl | ha
    · exact .inr ⟨le_rfl, Nat.lt_succ_self _⟩
    · exact .inl ha

theorem wrote_store16 (v : Video) (a : ℕ) (w : Word) :
    v.Wrote a (a + 2) (fun a' => if a' = a then w.1 else w.2) (v.store16 a w) := by
  refine Wrote.append (Nat.le_succ a) (Nat.le_succ _)
    ((wrote_store v a w.1).congr fun a' h h' => ?_)
    ((wrote_store _ (a + 1) w.2).congr fun a' h h' => ?_)
  · rw [if_pos (by omega)]
  · rw [if_neg (by omega)]

theorem wrote_erase (v : Video) (d : ℕ) :
    v.Wrote d (d + 2) (fun a => blank (a - d)) (v.store16 d erased) := by
  refine (wrote_store16 v d erased).congr fun a h h' => ?_
  unfold blank
  split_ifs <;> first | rfl | omega

theorem wrote_stosw (n d : ℕ) (v : Video) :
    v.Wrote d (d + 2 * n) (fun a => blank (a - d)) (stosw n d v) := by
  induction n generalizing d v with
  | zero => exact .refl v d _
  | succ n ih =>
    refine Wrote.append (Nat.le_add_right d 2) (by omega) (wrote_erase v d) ?_
    have h := (ih (d + 2) (v.store16 d erased)).congr (g := fun a => blank (a - d)) fun a h h' => by
      unfold blank
      rw [show (a - (d + 2)) % 2 = (a - d) % 2 by omega]
    rwa [show d + 2 + 2 * n = d + 2 * (n + 1) by omega] at h

theorem stosl_eq (n d : ℕ) (v : Video) : stosl n d v = stosw (2 * n) d v := by
  induction n generalizing d v with
  | zero => rfl
  | succ n ih =>
    rw [stosl, ih]
    rfl

theorem wrote_stoswDown (n d : ℕ) (v : Video) (hd : 2 * n ≤ d) :
    v.Wrote (d + 2 - 2 * n) (d + 2) (fun a => blank (a - (d + 2 - 2 * n))) (stoswDown n d v) := by
  induction n generalizing d v with
  | zero => exact .refl v _ _
  | succ n ih =>
    have h := ih (d - 2) (v.store16 d erased) (by omega)
    rw [show d - 2 + 2 - 2 * n = d + 2 - 2 * (n + 1) by omega,
      show d - 2 + 2 = d by omega] at h
    refine Wrote.append' (by omega) (Nat.le_add_right d 2)
      ((wrote_erase v d).congr fun a _ _ => ?_) h
    unfold blank
    rw [show (a - d) % 2 = (a - (d + 2 - 2 * (n + 1))) % 2 by omega]

/-- Four bytes are copied at once. -/
theorem wrote_copy32 (v : Video) (d s : ℕ) :
    v.Wrote d (d + 4) (fun a => v.byte (s + (a - d)))
      (v.store32 d (v.word s) (v.word (s + 2))) := by
  refine Wrote.append (Nat.le_add_right d 2) (Nat.le_add_right _ 2)
    ((wrote_store16 v d _).congr fun a h h' => ?_)
    ((wrote_store16 _ (d + 2) _).congr fun a h h' => ?_)
  · split_ifs with ha
    · rw [ha, Nat.sub_self]
      rfl
    · rw [show a - d = 1 by omega]
      rfl
  · split_ifs with ha
    · rw [ha, Nat.add_sub_cancel_left]
      rfl
    · rw [show a - d = 3 by omega]
      rfl

/-- Copying upwards to a lower address. -/
theorem wrote_movsl (n d s : ℕ) (v : Video) (hds : d ≤ s) :
    v.Wrote d (d + 4 * n) (fun a => v.byte (s + (a - d))) (movsl n d s v) := by
  induction n generalizing d s v with
  | zero => exact .refl v d _
  | succ n ih =>
    have hcopy := wrote_copy32 v d s
    refine Wrote.append (Nat.le_add_right d 4) (by omega) hcopy ?_
    have h := (ih (d + 4) (s + 4) (v.store32 d (v.word s) (v.word (s + 2))) (by omega)).congr
      (g := fun a => v.byte (s + (a - d))) fun a h _ => by
        rw [hcopy.byte, if_neg (by omega)]
        congr 1
        omega
    rwa [show d + 4 + 4 * n = d + 4 * (n + 1) by omega] at h

/-- Copying downwards to a higher address. -/
theorem wrote_movslDown (n d s : ℕ) (v : Video) (hsd : s ≤ d) (hs : 4 * n ≤ s) :
    v.Wrote (d + 4 - 4 * n) (d + 4) (fun a => v.byte (a - (d - s))) (movslDown n d s v) := by
  induction n generalizing d s v with
  | zero => exact .refl v _ _
  | succ n ih =>
    have hcopy := wrote_copy32 v d s
    refine Wrote.append' (by omega) (Nat.le_add_right d 4) (hcopy.congr fun a h h' => ?_) ?_
    · congr 1
      omega
    · have h := (ih (d - 4) (s - 4) (v.store32 d (v.word s) (v.word (s + 2))) (by omega)
        (by omega)).congr (g := fun a => v.byte (a - (d - s))) fun a h h' => by
          rw [hcopy.byte, if_neg (by omega)]
          congr 1
          omega
      rwa [show d - 4 + 4 - 4 * n = d + 4 - 4 * (n + 1) by omega,
        show d - 4 + 4 = d by omega] at h

end Video

end Linux001.Tty
