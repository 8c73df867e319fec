import Mathlib.Data.List.Range
import Mathlib.Data.Nat.ModEq
import Mathlib.Logic.Function.Basic
import Mathlib.Tactic.Linarith

/-!
# Ring buffers

A ring buffer of capacity `N` stores a queue in an array, from the index `tail` on and around the
end of the array. One slot stays free, so that the indices `head` and `tail` are equal exactly when
the queue is empty.

## Main definitions

* `ringSize N head tail`: the number of elements.
* `ringList N page head tail`: the elements, oldest first.

## Main results

* `ringList_push`, `ringList_pop`: storing at `head` appends, advancing `tail` removes the first.
-/

namespace Linux001

variable {α : Type*} {N : ℕ} {page : ℕ → α} {head tail : ℕ}

/-- The number of elements between `tail` and `head`. -/
def ringSize (N head tail : ℕ) : ℕ := (head + N - tail) % N

/-- The elements of a ring buffer, oldest first. -/
def ringList (N : ℕ) (page : ℕ → α) (head tail : ℕ) : List α :=
  (List.range (ringSize N head tail)).map fun i => page ((tail + i) % N)

theorem ringSize_eq_zero (hhead : head < N) (htail : tail < N) :
    ringSize N head tail = 0 ↔ head = tail := by
  unfold ringSize
  rcases Nat.lt_trichotomy head tail with h | h | h
  · rw [Nat.mod_eq_of_lt (by omega)]
    omega
  · subst h
    simp
  · rw [show head + N - tail = (head - tail) + N by omega, Nat.add_mod_right,
      Nat.mod_eq_of_lt (by omega)]
    omega

/-- The head lies as many slots after the tail as there are elements. -/
theorem add_ringSize (hhead : head < N) (htail : tail < N) :
    (tail + ringSize N head tail) % N = head := by
  unfold ringSize
  rw [Nat.add_mod_mod, show tail + (head + N - tail) = head + N by omega, Nat.add_mod_right,
    Nat.mod_eq_of_lt hhead]

theorem ringSize_push (hhead : head < N) (htail : tail < N)
    (hfull : ringSize N head tail ≠ N - 1) :
    ringSize N ((head + 1) % N) tail = ringSize N head tail + 1 := by
  have hlt : ringSize N head tail < N := Nat.mod_lt _ (by omega)
  have hhead' := add_ringSize hhead htail
  set k := ringSize N head tail with hk
  have hnext : (head + 1) % N = (tail + (k + 1)) % N := by
    rw [← hhead', Nat.mod_add_mod, Nat.add_assoc]
  rw [hnext]
  unfold ringSize
  rcases Nat.lt_or_ge (tail + (k + 1)) N with h | h
  · rw [Nat.mod_eq_of_lt h, show tail + (k + 1) + N - tail = (k + 1) + N by omega,
      Nat.add_mod_right, Nat.mod_eq_of_lt (by omega)]
  · rw [show (tail + (k + 1)) % N = tail + (k + 1) - N from
        (Nat.mod_eq_sub_mod h).trans (Nat.mod_eq_of_lt (by omega)),
      show tail + (k + 1) - N + N - tail = k + 1 by omega, Nat.mod_eq_of_lt (by omega)]

theorem ringSize_pop (hhead : head < N) (htail : tail < N) (hne : head ≠ tail) :
    ringSize N head ((tail + 1) % N) + 1 = ringSize N head tail := by
  unfold ringSize
  rcases Nat.lt_or_ge (tail + 1) N with h | h
  · rw [Nat.mod_eq_of_lt h]
    rcases Nat.lt_or_gt_of_ne hne with hlt | hgt
    · rw [Nat.mod_eq_of_lt (by omega), Nat.mod_eq_of_lt (by omega)]
      omega
    · rw [show head + N - (tail + 1) = (head - (tail + 1)) + N by omega,
        show head + N - tail = (head - tail) + N by omega, Nat.add_mod_right, Nat.add_mod_right,
        Nat.mod_eq_of_lt (by omega), Nat.mod_eq_of_lt (by omega)]
      omega
  · obtain rfl : tail + 1 = N := by omega
    rw [Nat.mod_self, Nat.sub_zero, Nat.add_mod_right, Nat.mod_eq_of_lt hhead,
      Nat.mod_eq_of_lt (by omega)]
    omega

/-- The slot at the head of a ring is free. -/
theorem ringList_store (hhead : head < N) (htail : tail < N) (x : α) :
    ringList N (Function.update page head x) head tail = ringList N page head tail := by
  have hlt : ringSize N head tail < N := Nat.mod_lt _ (by omega)
  refine List.map_congr_left fun i hi => Function.update_of_ne ?_ ..
  have hi := List.mem_range.mp hi
  -- Two offsets below the capacity lead to different slots.
  rw [← add_ringSize hhead htail]
  intro heq
  have hmod : Nat.ModEq N i (ringSize N head tail) := Nat.ModEq.add_left_cancel' tail heq
  have := Nat.ModEq.eq_of_lt_of_lt hmod (by omega) hlt
  omega

/-- Storing at the head of a ring that is not full appends an element. -/
theorem ringList_push (hhead : head < N) (htail : tail < N)
    (hfull : ringSize N head tail ≠ N - 1) (x : α) :
    ringList N (Function.update page head x) ((head + 1) % N) tail =
      ringList N page head tail ++ [x] := by
  have hstore : ringList N (Function.update page head x) head tail = ringList N page head tail :=
    ringList_store hhead htail x
  unfold ringList at hstore ⊢
  rw [ringSize_push hhead htail hfull, List.range_succ, List.map_append, hstore]
  congr 1
  simp only [List.map_cons, List.map_nil, add_ringSize hhead htail, Function.update_self]

/-- Advancing the tail of a ring that is not empty removes the first element. -/
theorem ringList_pop (hhead : head < N) (htail : tail < N) (hne : head ≠ tail) :
    ringList N page head tail = page tail :: ringList N page head ((tail + 1) % N) := by
  unfold ringList
  rw [← ringSize_pop hhead htail hne, List.range_succ_eq_map, List.map_cons, List.map_map]
  congr 1
  · rw [Nat.add_zero, Nat.mod_eq_of_lt htail]
  · refine List.map_congr_left fun i _ => ?_
    simp only [Function.comp_apply, Nat.succ_eq_add_one, Nat.mod_add_mod]
    congr 2
    omega

end Linux001
