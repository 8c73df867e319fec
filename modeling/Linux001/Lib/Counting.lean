import Mathlib.Algebra.Order.BigOperators.Group.Finset
import Mathlib.Data.Finset.Card
import Mathlib.Tactic.Abel
import Mathlib.Tactic.Linarith

/-!
# Counting with one point changed

Reference counts are cardinalities of filtered finite sets, and a store to memory changes the
filtering predicate at one point. These lemmas compare the cardinalities before and after.

## Main results

* `card_filter_change`: the count before and after a change at one point.
* `sum_update_add`, `sum_update_sub`: a sum over processes before and after one of them has
  changed.
* `card_filter_le_of_injOn`: a count is bounded by the size of an image on which a key is injective.
-/

namespace Linux001

variable {α β : Type*} {S : Finset α} {P Q : α → Prop} [DecidablePred P] [DecidablePred Q]

/-- Two counts whose predicates agree on `S` are equal. -/
theorem card_filter_agree (h : ∀ y ∈ S, (Q y ↔ P y)) :
    (S.filter Q).card = (S.filter P).card := by
  rw [Finset.filter_congr h]

/-- Two counts whose predicates agree on `S` away from `x` differ by the values at `x`. -/
theorem card_filter_change [DecidableEq α] {x : α} (hx : x ∈ S)
    (h : ∀ y ∈ S, y ≠ x → (Q y ↔ P y)) :
    (S.filter Q).card + (if P x then 1 else 0) = (S.filter P).card + (if Q x then 1 else 0) := by
  have hsplit (R : α → Prop) [DecidablePred R] :
      (S.filter R).card = ((S.erase x).filter R).card + (if R x then 1 else 0) := by
    conv_lhs => rw [← Finset.insert_erase hx, Finset.filter_insert]
    split_ifs
    · rw [Finset.card_insert_of_notMem (by simp)]
    · simp
  have hrest : (S.erase x).filter Q = (S.erase x).filter P :=
    Finset.filter_congr fun y hy =>
      h y (Finset.mem_of_mem_erase hy) (Finset.ne_of_mem_erase hy)
  rw [hsplit P, hsplit Q, hrest]
  omega

/-- A count is at most the size of a set into which a key sends its points injectively. -/
theorem card_filter_le_of_injOn {T : Finset β} (f : α → β)
    (hf : ∀ x ∈ S, P x → f x ∈ T)
    (hinj : ∀ x ∈ S, ∀ y ∈ S, P x → P y → f x = f y → x = y) :
    (S.filter P).card ≤ T.card := by
  refine Finset.card_le_card_of_injOn f (fun x hx => ?_) fun x hx y hy hxy => ?_
  · obtain ⟨hxS, hxP⟩ := Finset.mem_filter.mp hx
    exact hf x hxS hxP
  · obtain ⟨hxS, hxP⟩ := Finset.mem_filter.mp (Finset.mem_coe.mp hx)
    obtain ⟨hyS, hyP⟩ := Finset.mem_filter.mp (Finset.mem_coe.mp hy)
    exact hinj x hxS y hyS hxP hyP hxy

/-- The sum of a quantity before and after the value at one point is replaced. -/
theorem sum_update_add {ι : Type*} [Fintype ι] [DecidableEq ι] (f : ι → α) (g : α → ℕ) (p : ι)
    (v : α) : ∑ q, g (Function.update f p v q) + g (f p) = ∑ q, g (f q) + g v := by
  have hsplit (h : ι → α) : ∑ q, g (h q) = g (h p) + ∑ q ∈ Finset.univ.erase p, g (h q) :=
    (Finset.add_sum_erase _ _ (Finset.mem_univ p)).symm
  have hrest : ∑ q ∈ Finset.univ.erase p, g (Function.update f p v q) =
      ∑ q ∈ Finset.univ.erase p, g (f q) :=
    Finset.sum_congr rfl fun q hq => by rw [Function.update_of_ne (Finset.ne_of_mem_erase hq)]
  rw [hsplit (Function.update f p v), hsplit f, hrest, Function.update_self]
  omega

/-- A term is at most the sum, and two terms together are when their points differ. -/
theorem add_le_sum_of_ne {ι : Type*} [Fintype ι] [DecidableEq ι] (g : ι → ℕ) {p q : ι}
    (h : p ≠ q) : g p + g q ≤ ∑ r, g r := by
  rw [← Finset.add_sum_erase _ _ (Finset.mem_univ p)]
  exact Nat.add_le_add_left
    (Finset.single_le_sum (f := g) (fun _ _ => Nat.zero_le _)
      (Finset.mem_erase.mpr ⟨h.symm, Finset.mem_univ q⟩)) _

/-- In a group, replacing the value at one point changes the sum by the difference there. -/
theorem sum_update_sub {ι G : Type*} [Fintype ι] [DecidableEq ι] [AddCommGroup G] (f : ι → α)
    (g : α → G) (p : ι) (v : α) :
    ∑ q, g (Function.update f p v q) = ∑ q, g (f q) + (g v - g (f p)) := by
  have hrest : ∑ q ∈ Finset.univ.erase p, g (Function.update f p v q) =
      ∑ q ∈ Finset.univ.erase p, g (f q) :=
    Finset.sum_congr rfl fun q hq => by rw [Function.update_of_ne (Finset.ne_of_mem_erase hq)]
  rw [← Finset.add_sum_erase _ _ (Finset.mem_univ p), hrest, Function.update_self,
    ← Finset.add_sum_erase _ (fun q => g (f q)) (Finset.mem_univ p)]
  abel

end Linux001
