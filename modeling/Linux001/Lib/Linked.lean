import Mathlib.Data.List.Nodup
import Mathlib.Logic.Function.Basic
import Mathlib.Tactic.Cases

/-!
# Linked lists

Two kinds of doubly linked lists whose links are stored in functions `next` and `prev` on the nodes,
circular lists and lists that end in a null pointer, and singly linked lists. A list of nodes says
which nodes are in them and in which order, and the operations that take a node out and put one in
are described by what they do to that list.

## Main definitions

* `Linked next prev a l b`: from the node `a` through the nodes `l` to the node `b`.
* `Ring next prev a l`: a circular list that starts at `a` and goes on with `l`.
* `Chained next prev p o l`: a list that starts at the pointer `o`, after the pointer `p`.
* `Listed next o l`: a singly linked list that starts at the pointer `o`.
* `Reach next o a`: the node `a` is found from the pointer `o` through `next` pointers.

## Main results

* `Ring.rotate`, `Ring.remove`, `Ring.insert`: circular lists.
* `Chained.remove`, `Chained.insert`: lists that end.
* `Listed.insert`, `Listed.reach_iff`: singly linked lists.
-/

namespace Linux001

variable {α : Type*}

/-! ### Circular lists -/

section Ring

variable {next prev next' prev' : α → α} {a b c x : α} {l r : List α}

/-- The nodes `l` are linked in both directions, between `a` and `b`. -/
def Linked (next prev : α → α) : α → List α → α → Prop
  | a, [], b => next a = b ∧ prev b = a
  | a, x :: l, b => (next a = x ∧ prev x = a) ∧ Linked next prev x l b

theorem linked_append : Linked next prev a (l ++ x :: r) b ↔
    Linked next prev a l x ∧ Linked next prev x r b := by
  induction l generalizing a with
  | nil => exact Iff.rfl
  | cons y l ih => simp only [List.cons_append, Linked, ih, and_assoc]

/-- The nodes of a row, each of which is linked to the one behind it. -/
theorem linked_range' {f : ℕ → α} {i k : ℕ}
    (h : ∀ j, i ≤ j → j < i + k → next (f j) = f (j + 1) ∧ prev (f (j + 1)) = f j)
    (hnext : next (f (i + k)) = b) (hprev : prev b = f (i + k)) :
    Linked next prev (f i) ((List.range' (i + 1) k).map f) b := by
  induction k generalizing i with
  | zero => exact ⟨hnext, hprev⟩
  | succ k ih =>
    rw [List.range'_succ, List.map_cons]
    refine ⟨h i (Nat.le_refl i) (by omega), ih (fun j hj hj' => h j (by omega) (by omega)) ?_ ?_⟩
    · rwa [Nat.add_right_comm, Nat.add_assoc]
    · rwa [Nat.add_right_comm, Nat.add_assoc]

/-- The node before the end is the last one. -/
theorem Linked.prev_mem (h : Linked next prev a l b) : prev b ∈ a :: l := by
  induction l generalizing a with
  | nil =>
    rw [h.2]
    exact List.mem_cons_self
  | cons y l ih => exact List.mem_cons_of_mem _ (ih h.2)

/-- The last link is turned to another node. -/
theorem Linked.relink (h : Linked next prev a l b) (hl : (a :: l).Nodup)
    (hnext : ∀ y ∈ a :: l, y ≠ prev b → next' y = next y) (hlast : next' (prev b) = c)
    (hprev : ∀ y ∈ l, prev' y = prev y) (hc : prev' c = prev b) : Linked next' prev' a l c := by
  induction l generalizing a with
  | nil =>
    rw [h.2] at hlast hc
    exact ⟨hlast, hc⟩
  | cons y l ih =>
    obtain ⟨⟨h₁, h₂⟩, h₃⟩ := h
    obtain ⟨hnot, hl⟩ := List.nodup_cons.mp hl
    have hne : a ≠ prev b := fun heq => hnot (heq ▸ h₃.prev_mem)
    refine ⟨⟨(hnext a (by simp) hne).trans h₁, (hprev y (by simp)).trans h₂⟩, ih h₃ hl ?_ ?_⟩
    · exact fun z hz => hnext z (List.mem_cons_of_mem _ hz)
    · exact fun z hz => hprev z (List.mem_cons_of_mem _ hz)

/-- The nodes `a :: l` are a circular list. -/
def Ring (next prev : α → α) (a : α) (l : List α) : Prop :=
  (a :: l).Nodup ∧ Linked next prev a l a

namespace Ring

/-- A circular list starts at each of its nodes. -/
theorem rotate (h : Ring next prev a l) (hb : b ∈ a :: l) :
    ∃ r, Ring next prev b r ∧ (b :: r).Perm (a :: l) := by
  rcases List.mem_cons.mp hb with rfl | hb
  · exact ⟨l, h, List.Perm.refl _⟩
  · obtain ⟨l₁, l₂, rfl⟩ := List.append_of_mem hb
    obtain ⟨hnodup, hlinked⟩ := h
    obtain ⟨h₁, h₂⟩ := linked_append.mp hlinked
    have hperm : (b :: (l₂ ++ a :: l₁)).Perm (a :: (l₁ ++ b :: l₂)) := by
      have hcomm : ((b :: l₂) ++ (a :: l₁)).Perm ((a :: l₁) ++ (b :: l₂)) := List.perm_append_comm
      simpa using hcomm
    exact ⟨l₂ ++ a :: l₁, ⟨hperm.nodup_iff.mpr hnodup, linked_append.mpr ⟨h₂, h₁⟩⟩, hperm⟩

/-- The first node is taken out of a circular list that has others. -/
theorem remove [DecidableEq α] (h : Ring next prev b (x :: r)) :
    Ring (Function.update next (prev b) (next b))
      (Function.update prev (next b) (prev b)) x r := by
  obtain ⟨hnodup, ⟨hnext, -⟩, hlinked⟩ := h
  obtain ⟨-, hr⟩ := List.nodup_cons.mp hnodup
  refine ⟨hr, hlinked.relink hr ?_ ?_ ?_ ?_⟩
  · exact fun y _ hy => Function.update_of_ne hy _ _
  · rw [Function.update_self, hnext]
  · intro y hy
    refine Function.update_of_ne (fun heq => ?_) _ _
    rw [hnext] at heq
    exact (List.nodup_cons.mp hr).1 (heq ▸ hy)
  · rw [hnext, Function.update_self]

/-- A new node is put in before the first one. -/
theorem insert (h : Ring next prev a l) (hb : b ∉ a :: l)
    (hnext : ∀ y ∈ a :: l, y ≠ prev a → next' y = next y) (hlast : next' (prev a) = b)
    (hb' : next' b = a) (hprev : ∀ y ∈ l, prev' y = prev y) (hpb : prev' b = prev a)
    (hpa : prev' a = b) : Ring next' prev' a (l ++ [b]) := by
  obtain ⟨hnodup, hlinked⟩ := h
  refine ⟨?_, linked_append.mpr ⟨hlinked.relink hnodup hnext hlast hprev hpb, hb', hpa⟩⟩
  have hperm : (b :: (a :: l)).Perm (a :: (l ++ [b])) := by
    have hcomm : ([b] ++ (a :: l)).Perm ((a :: l) ++ [b]) := List.perm_append_comm
    simpa using hcomm
  exact hperm.nodup_iff.mp (List.nodup_cons.mpr ⟨hb, hnodup⟩)

end Ring

end Ring

/-! ### Lists that end -/

section Chained

variable {next prev next' prev' : α → Option α} {p o : Option α} {b x : α} {l r : List α}

/-- The nodes `l` are linked in both directions from the pointer `o` on, after the pointer `p`, and
the last of them ends the list. -/
def Chained (next prev : α → Option α) : Option α → Option α → List α → Prop
  | _, o, [] => o = none
  | p, o, x :: l => (o = some x ∧ prev x = p) ∧ Chained next prev (some x) (next x) l

namespace Chained

/-- Links are kept by changes to other nodes. -/
theorem congr (h : Chained next prev p o l) (hnext : ∀ y ∈ l, next' y = next y)
    (hprev : ∀ y ∈ l, prev' y = prev y) : Chained next' prev' p o l := by
  induction l generalizing p o with
  | nil => exact h
  | cons y l ih =>
    obtain ⟨⟨h₁, h₂⟩, h₃⟩ := h
    refine ⟨⟨h₁, (hprev y (by simp)).trans h₂⟩, ?_⟩
    rw [hnext y (by simp)]
    exact ih h₃ (fun z hz => hnext z (List.mem_cons_of_mem _ hz))
      fun z hz => hprev z (List.mem_cons_of_mem _ hz)

/-- The next node of one in the list is in the list. -/
theorem next_mem (h : Chained next prev p o l) (hb : b ∈ l) (hx : next b = some x) : x ∈ l := by
  induction l generalizing p o with
  | nil => simp at hb
  | cons y l ih =>
    rcases List.mem_cons.mp hb with rfl | hb
    · cases l with
      | nil => exact absurd (h.2.symm.trans hx) (by simp)
      | cons z l =>
        obtain rfl := Option.some.inj (h.2.1.1.symm.trans hx)
        simp
    · exact List.mem_cons_of_mem _ (ih h.2 hb)

/-- The previous node of one in the list is in the list, unless it is the first one. -/
theorem prev_mem (h : Chained next prev p o l) (hb : b ∈ l) :
    o = some b ∧ prev b = p ∨ ∃ y ∈ l, prev b = some y := by
  induction l generalizing p o with
  | nil => simp at hb
  | cons y l ih =>
    rcases List.mem_cons.mp hb with rfl | hb
    · exact .inl h.1
    · rcases ih h.2 hb with ⟨-, hprev⟩ | ⟨z, hz, hprev⟩
      · exact .inr ⟨y, List.mem_cons_self, hprev⟩
      · exact .inr ⟨z, List.mem_cons_of_mem _ hz, hprev⟩

/-- A node is not its own neighbour. -/
theorem next_ne (h : Chained next prev p o l) (hl : l.Nodup) (hb : b ∈ l) : next b ≠ some b := by
  induction l generalizing p o with
  | nil => simp at hb
  | cons y l ih =>
    obtain ⟨hy, hl'⟩ := List.nodup_cons.mp hl
    rcases List.mem_cons.mp hb with rfl | hb
    · intro hc
      cases l with
      | nil => exact absurd (h.2.symm.trans hc) (by simp)
      | cons z l =>
        obtain rfl := Option.some.inj (h.2.1.1.symm.trans hc)
        simp at hy
    · exact ih h.2 hl' hb

theorem prev_ne (h : Chained next prev p o l) (hl : l.Nodup) (hb : b ∈ l) (hp : p ≠ some b) :
    prev b ≠ some b := by
  induction l generalizing p o with
  | nil => simp at hb
  | cons y l ih =>
    obtain ⟨hy, hl'⟩ := List.nodup_cons.mp hl
    rcases List.mem_cons.mp hb with rfl | hb
    · rw [h.1.2]
      exact hp
    · exact ih h.2 hl' hb fun hc => hy (Option.some.inj hc ▸ hb)

/-- The first node is in the list. -/
theorem head_mem (h : Chained next prev p o l) (ho : o = some b) : b ∈ l := by
  cases l with
  | nil => exact absurd (h.symm.trans ho) (by simp)
  | cons y l =>
    obtain rfl := Option.some.inj (h.1.1.symm.trans ho)
    simp

/-- A node is taken out: its neighbours are linked to each other. -/
theorem remove [DecidableEq α] (h : Chained next prev p o l) (hl : l.Nodup) (hb : b ∈ l)
    (hp : ∀ y ∈ l, p ≠ some y)
    (hnext : ∀ y ∈ l, prev b ≠ some y → next' y = next y)
    (hnb : ∀ y, prev b = some y → next' y = next b)
    (hprev : ∀ y ∈ l, next b ≠ some y → prev' y = prev y)
    (hpb : ∀ y, next b = some y → prev' y = prev b) :
    Chained next' prev' p (if o = some b then next b else o) (l.erase b) := by
  induction l generalizing p o with
  | nil => simp at hb
  | cons x l ih =>
    obtain ⟨⟨ho, hpx⟩, hrest⟩ := h
    obtain ⟨hx, hl'⟩ := List.nodup_cons.mp hl
    by_cases hxb : x = b
    · subst hxb
      rw [if_pos ho, List.erase_cons_head]
      cases l with
      | nil => exact hrest
      | cons y l =>
        obtain ⟨⟨hy, -⟩, hrest'⟩ := hrest
        have hyl := (List.nodup_cons.mp hl').1
        refine ⟨⟨hy, (hpb y hy).trans hpx⟩, ?_⟩
        rw [hnext y (by simp) (hpx ▸ hp y (by simp))]
        refine hrest'.congr (fun z hz => ?_) fun z hz => ?_
        · exact hnext z (by simp [hz]) (hpx ▸ hp z (by simp [hz]))
        · refine hprev z (by simp [hz]) fun hc => hyl ?_
          obtain rfl := Option.some.inj (hy.symm.trans hc)
          exact hz
    · have hbl : b ∈ l := (List.mem_cons.mp hb).resolve_left fun hc => hxb hc.symm
      have hob : o ≠ some b := fun hc => hxb (Option.some.inj (ho.symm.trans hc))
      rw [if_neg hob, List.erase_cons_tail (by simpa using hxb)]
      have hnx : next b ≠ some x := fun hc => hx (hrest.next_mem hbl hc)
      refine ⟨⟨ho, (hprev x (by simp) hnx).trans hpx⟩, ?_⟩
      have hrest' := ih hrest hl' hbl (fun y hy hc => hx (Option.some.inj hc ▸ hy))
        (fun y hy => hnext y (List.mem_cons_of_mem _ hy))
        (fun y hy => hprev y (List.mem_cons_of_mem _ hy))
      have hhead : next' x = if next x = some b then next b else next x := by
        rcases hrest.prev_mem hbl with ⟨hfirst, hprevb⟩ | ⟨y, hy, hprevb⟩
        · rw [if_pos hfirst]
          exact hnb x hprevb
        · have hne : prev b ≠ some x := fun hc => hx (Option.some.inj (hprevb.symm.trans hc) ▸ hy)
          have hnot : next x ≠ some b := fun hc => by
            cases l with
            | nil => simp at hbl
            | cons z l =>
              obtain ⟨⟨hz, hpz⟩, -⟩ := hrest
              obtain rfl := Option.some.inj (hz.symm.trans hc)
              exact hne hpz
          rw [if_neg hnot]
          exact hnext x (by simp) hne
      rw [hhead]
      exact hrest'

/-- A new node is put in front. -/
theorem insert (h : Chained next prev none o l) (hnb : next' b = o) (hpb : prev' b = none)
    (hnext : ∀ y ∈ l, next' y = next y) (hprev : ∀ y ∈ l, o ≠ some y → prev' y = prev y)
    (hpo : ∀ y, o = some y → prev' y = some b) (hl : l.Nodup) :
    Chained next' prev' none (some b) (b :: l) := by
  refine ⟨⟨rfl, hpb⟩, ?_⟩
  rw [hnb]
  cases l with
  | nil => exact h
  | cons y l =>
    obtain ⟨⟨ho, -⟩, hrest⟩ := h
    refine ⟨⟨ho, hpo y ho⟩, ?_⟩
    rw [hnext y (by simp)]
    refine hrest.congr (fun z hz => hnext z (by simp [hz])) fun z hz => hprev z (by simp [hz]) ?_
    intro hc
    obtain rfl := Option.some.inj (ho.symm.trans hc)
    exact (List.nodup_cons.mp hl).1 hz

end Chained

end Chained

/-! ### Singly linked lists -/

section Listed

variable {next next' : α → Option α} {o : Option α} {a x : α} {l r : List α}

/-- The nodes `l` are linked from the pointer `o` on, and the last one ends the list. -/
def Listed (next : α → Option α) : Option α → List α → Prop
  | o, [] => o = none
  | o, a :: l => o = some a ∧ Listed next (next a) l

/-- The node is found from the pointer through `next` pointers. -/
inductive Reach (next : α → Option α) : Option α → α → Prop
  | here (a : α) : Reach next (some a) a
  | next {b a : α} (h : Reach next (next b) a) : Reach next (some b) a

namespace Listed

theorem congr (h : Listed next o l) (hnext : ∀ y ∈ l, next' y = next y) : Listed next' o l := by
  induction l generalizing o with
  | nil => exact h
  | cons y l ih =>
    refine ⟨h.1, ?_⟩
    rw [hnext y List.mem_cons_self]
    exact ih h.2 fun z hz => hnext z (List.mem_cons_of_mem _ hz)

/-- The next node of one in the list is in the list, and not the first. -/
theorem next_mem (h : Listed next o l) (hl : l.Nodup) (ha : a ∈ l) (hx : next a = some x) :
    x ∈ l ∧ o ≠ some x := by
  induction l generalizing o with
  | nil => cases ha
  | cons y l ih =>
    obtain ⟨hy, hl'⟩ := List.nodup_cons.mp hl
    obtain ⟨rfl, h⟩ := h
    have hxl : x ∈ l := by
      rcases List.mem_cons.mp ha with rfl | ha
      · rw [hx] at h
        cases l with
        | nil => cases h
        | cons z l =>
          obtain rfl := Option.some.inj h.1
          exact List.mem_cons_self
      · exact (ih h hl' ha).1
    refine ⟨List.mem_cons_of_mem _ hxl, fun heq => hy ?_⟩
    obtain rfl := Option.some.inj heq
    exact hxl

/-- The nodes that a list reaches are its members. -/
theorem reach_iff (h : Listed next o l) : Reach next o a ↔ a ∈ l := by
  induction l generalizing o with
  | nil =>
    obtain rfl : o = none := h
    exact ⟨(nomatch ·), (nomatch ·)⟩
  | cons y l ih =>
    obtain ⟨rfl, h⟩ := h
    rw [List.mem_cons, ← ih h]
    constructor
    · intro hr
      cases hr with
      | here => exact .inl rfl
      | next hr => exact .inr hr
    · rintro (rfl | hr)
      · exact .here a
      · exact .next hr

/-- A pointer starts at most one list. -/
theorem unique (h : Listed next o l) (h' : Listed next o r) : l = r := by
  induction l generalizing o r with
  | nil =>
    cases r with
    | nil => rfl
    | cons y r =>
      obtain rfl : o = none := h
      cases h'.1
  | cons x l ih =>
    cases r with
    | nil =>
      obtain rfl : o = none := h'
      cases h.1
    | cons y r =>
      obtain rfl : x = y := Option.some.inj (h.1.symm.trans h'.1)
      rw [ih h.2 h'.2]

/-- A node is put in after the node `a`. -/
theorem insert [DecidableEq α] (h : Listed next o (l ++ a :: r)) (hnodup : (l ++ a :: r).Nodup)
    (hx : x ∉ l ++ a :: r) (hnext : next x = next a) :
    Listed (Function.update next a (some x)) o (l ++ a :: x :: r) := by
  induction l generalizing o with
  | nil =>
    obtain ⟨rfl, hr⟩ := h
    obtain ⟨hnot, -⟩ := List.nodup_cons.mp hnodup
    have hxa : x ≠ a := fun heq => hx (heq ▸ List.mem_cons_self)
    refine ⟨rfl, Function.update_self .., ?_⟩
    rw [Function.update_of_ne hxa, hnext]
    refine hr.congr fun y hy => Function.update_of_ne ?_ ..
    rintro rfl
    exact hnot hy
  | cons y l ih =>
    obtain ⟨rfl, hr⟩ := h
    obtain ⟨hnot, hnodup⟩ := List.nodup_cons.mp hnodup
    have hya : y ≠ a := by
      rintro rfl
      exact hnot (List.mem_append_right _ List.mem_cons_self)
    refine ⟨rfl, ?_⟩
    rw [Function.update_of_ne hya]
    exact ih hr hnodup fun hm => hx (List.mem_cons_of_mem _ hm)

end Listed

end Listed

end Linux001
