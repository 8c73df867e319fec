import Mathlib.Logic.Basic
import Mathlib.Tactic.TypeStar
import Mathlib.Tactic.Basic

/-!
# Exclusive ownership

A pool of cells is shared out among places: `own a z` says that the place `a` names the cell `z`,
and `used z` is the allocation map of the pool. The cells are *owned exclusively* when every cell
that a place names is used and no cell is named by two places. At most one cell is in hand: it has
been allocated and not yet been stored anywhere. Allocation, storing the new cell at a place, and
freeing all cells of some places keep ownership exclusive.

## Main definitions

* `Exclusive own used hand`: ownership is exclusive, with the cell `hand` not stored yet.

## Main results

* `Exclusive.take`, `Exclusive.give`, `Exclusive.drop`: allocating, storing and freeing.
-/

namespace Linux001

variable {α ζ : Type*}

/-- Only used cells are named by places or in hand, and no cell has two owners. -/
structure Exclusive (own : α → ζ → Prop) (used : ζ → Prop) (hand : Option ζ) : Prop where
  unique : ∀ {a b z}, own a z → own b z → a = b
  used_of_own : ∀ {a z}, own a z → used z
  used_of_hand : ∀ {z}, hand = some z → used z
  not_own_of_hand : ∀ {a z}, hand = some z → ¬ own a z

namespace Exclusive

variable {own own' : α → ζ → Prop} {used used' : ζ → Prop} {hand : Option ζ}

/-- More cells may be used than are owned. -/
theorem mono (h : Exclusive own used hand) (hown : ∀ a z, own' a z → own a z)
    (hused : ∀ z, used z → used' z) : Exclusive own' used' hand where
  unique ha hb := h.unique (hown _ _ ha) (hown _ _ hb)
  used_of_own ha := hused _ (h.used_of_own (hown _ _ ha))
  used_of_hand hz := hused _ (h.used_of_hand hz)
  not_own_of_hand hz ha := h.not_own_of_hand hz (hown _ _ ha)

/-- A cell that was not used is allocated. -/
theorem take (h : Exclusive own used none) {z : ζ} (hz : ¬ used z)
    (hused : ∀ w, used w ∨ w = z → used' w) : Exclusive own used' (some z) where
  unique := h.unique
  used_of_own ha := hused _ (.inl (h.used_of_own ha))
  used_of_hand hw := hused _ (.inr (Option.some.inj hw).symm)
  not_own_of_hand hw ha := by
    obtain rfl := Option.some.inj hw
    exact hz (h.used_of_own ha)

/-- The cell in hand is stored at the place `c`. -/
theorem give {z : ζ} (h : Exclusive own used (some z)) {c : α}
    (hown : ∀ a w, own' a w → own a w ∨ a = c ∧ w = z) : Exclusive own' used none where
  unique {a b w} ha hb := by
    rcases hown a w ha with ha | ⟨rfl, rfl⟩ <;> rcases hown b _ hb with hb | ⟨rfl, hw⟩
    · exact h.unique ha hb
    · exact absurd (hw ▸ ha) (h.not_own_of_hand rfl)
    · exact absurd hb (h.not_own_of_hand rfl)
    · rfl
  used_of_own {a w} ha := by
    rcases hown a w ha with ha | ⟨-, rfl⟩
    · exact h.used_of_own ha
    · exact h.used_of_hand rfl
  used_of_hand hw := nomatch hw
  not_own_of_hand hw := nomatch hw

/-- The cells of all places outside `keep` are freed, and these places cleared. -/
theorem drop (h : Exclusive own used none) {keep : α → Prop}
    (hown : ∀ a z, own' a z → own a z ∧ keep a)
    (hused : ∀ z, used z → (∀ a, own a z → keep a) → used' z) : Exclusive own' used' none where
  unique ha hb := h.unique (hown _ _ ha).1 (hown _ _ hb).1
  used_of_own {a z} ha := by
    obtain ⟨ha, hk⟩ := hown a z ha
    refine hused z (h.used_of_own ha) fun b hb => ?_
    rwa [h.unique hb ha]
  used_of_hand hz := nomatch hz
  not_own_of_hand hz := nomatch hz

end Exclusive

end Linux001
