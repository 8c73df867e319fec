import Mathlib.Data.List.Chain
import Mathlib.Order.Lattice

/-!
# Insertion into sweeps

An elevator serves the elements of a list in order. The list consists of *sweeps*, in each of which
the keys rise. A new element is put into the first place that keeps the keys rising, or that follows
the end of a sweep and precedes a larger key; if there is no such place, at the end. The first
element of the list stays the first.

## Main definitions

* `TwoSweeps key l`: the list is one sweep followed by at most one more.
* `place key r l`: the list with `r` put in.

## Main results

* `TwoSweeps.place`: insertion of a new key keeps the list in two sweeps.
-/

namespace Linux001

variable {α κ : Type*} [LinearOrder κ] {key : α → κ} {a b r : α} {l : List α}

/-- The keys rise. -/
def Rising (key : α → κ) (l : List α) : Prop := l.IsChain fun a b => key a < key b

/-- The list is a sweep followed by at most one more. -/
def TwoSweeps (key : α → κ) (l : List α) : Prop :=
  ∃ u v, l = u ++ v ∧ Rising key u ∧ Rising key v

/-- The list with `r` put in, but not in front. -/
def place (key : α → κ) (r : α) : List α → List α
  | [] => [r]
  | [a] => [a, r]
  | a :: b :: l =>
    if (key a < key r ∨ ¬ key a < key b) ∧ key r < key b then a :: r :: b :: l
    else a :: place key r (b :: l)

theorem rising_cons_cons : Rising key (a :: b :: l) ↔ key a < key b ∧ Rising key (b :: l) :=
  List.isChain_cons_cons

theorem Rising.nil : Rising key [] := List.IsChain.nil

theorem Rising.singleton (a : α) : Rising key [a] := List.IsChain.singleton a

theorem Rising.twoSweeps (h : Rising key l) : TwoSweeps key l := ⟨l, [], by simp, h, .nil⟩

/-- Two sweeps that begin with a rise. -/
theorem twoSweeps_cons_of_lt (h : key a < key b) :
    TwoSweeps key (a :: b :: l) ↔ TwoSweeps key (b :: l) := by
  constructor
  · rintro ⟨u, v, heq, hu, hv⟩
    cases u with
    | nil =>
      obtain rfl : a :: b :: l = v := heq
      exact Rising.twoSweeps (rising_cons_cons.mp hv).2
    | cons c u => exact ⟨u, v, (List.cons.inj heq).2, hu.tail, hv⟩
  · rintro ⟨u, v, heq, hu, hv⟩
    cases u with
    | nil =>
      obtain rfl : b :: l = v := heq
      exact Rising.twoSweeps (rising_cons_cons.mpr ⟨h, hv⟩)
    | cons c u =>
      obtain ⟨rfl, rfl⟩ := List.cons.inj heq
      exact ⟨a :: b :: u, v, rfl, rising_cons_cons.mpr ⟨h, hu⟩, hv⟩

/-- Two sweeps whose first one is a single element. -/
theorem twoSweeps_cons_of_not_lt (h : ¬ key a < key b) :
    TwoSweeps key (a :: b :: l) ↔ Rising key (b :: l) := by
  constructor
  · rintro ⟨u, v, heq, hu, hv⟩
    match u, heq with
    | [], heq =>
      obtain rfl : a :: b :: l = v := heq
      exact absurd (rising_cons_cons.mp hv).1 h
    | [c], heq =>
      obtain ⟨rfl, rfl⟩ := List.cons.inj heq
      exact hv
    | c :: d :: u, heq =>
      obtain ⟨hac, hrest⟩ := List.cons.inj heq
      obtain ⟨hbd, -⟩ := List.cons.inj hrest
      rw [hac, hbd] at h
      exact absurd (rising_cons_cons.mp hu).1 h
  · exact fun hr => ⟨[a], b :: l, rfl, .singleton a, hr⟩

/-- The end of two sweeps. -/
theorem TwoSweeps.tail (h : TwoSweeps key l) : TwoSweeps key l.tail := by
  obtain ⟨u, v, rfl, hu, hv⟩ := h
  cases u with
  | nil => exact Rising.twoSweeps hv.tail
  | cons a u => exact ⟨u, v, rfl, hu.tail, hv⟩

theorem TwoSweeps.congr {key' : α → κ} (h : TwoSweeps key l) (hkey : ∀ a ∈ l, key' a = key a) :
    TwoSweeps key' l := by
  obtain ⟨u, v, rfl, hu, hv⟩ := h
  have hrising {w : List α} (hw : ∀ a ∈ w, key' a = key a) (h : Rising key w) : Rising key' w :=
    h.imp_of_mem_imp fun a b ha hb hlt => by rwa [hw a ha, hw b hb]
  exact ⟨u, v, rfl, hrising (fun a ha => hkey a (List.mem_append_left _ ha)) hu,
    hrising (fun a ha => hkey a (List.mem_append_right _ ha)) hv⟩

/-- Insertion keeps the first element. -/
theorem place_cons (key : α → κ) (r a : α) (l : List α) :
    ∃ l', place key r (a :: l) = a :: l' := by
  cases l with
  | nil => exact ⟨[r], rfl⟩
  | cons b l =>
    rw [place]
    split_ifs
    · exact ⟨_, rfl⟩
    · exact ⟨_, rfl⟩

/-- A key that is larger than the first one is put into the sweep. -/
theorem Rising.place (h : Rising key (a :: l)) (hlt : key a < key r)
    (hne : ∀ b ∈ l, key b ≠ key r) : Rising key (place key r (a :: l)) := by
  induction l generalizing a with
  | nil => exact rising_cons_cons.mpr ⟨hlt, .singleton r⟩
  | cons b l ih =>
    obtain ⟨hab, hrest⟩ := rising_cons_cons.mp h
    rw [Linux001.place]
    by_cases hrb : key r < key b
    · rw [if_pos ⟨.inl hlt, hrb⟩]
      exact rising_cons_cons.mpr ⟨hlt, rising_cons_cons.mpr ⟨hrb, hrest⟩⟩
    · rw [if_neg fun hc => hrb hc.2]
      have hbr : key b < key r := lt_of_le_of_ne (not_lt.mp hrb) (hne b List.mem_cons_self)
      have hplace := ih hrest hbr fun c hc => hne c (List.mem_cons_of_mem _ hc)
      obtain ⟨l', hl'⟩ := place_cons key r b l
      rw [hl'] at hplace ⊢
      exact rising_cons_cons.mpr ⟨hab, hplace⟩

/-- Insertion of a new key keeps two sweeps. -/
theorem TwoSweeps.place (h : TwoSweeps key l) (hne : ∀ b ∈ l, key b ≠ key r) :
    TwoSweeps key (place key r l) := by
  induction l with
  | nil => exact Rising.twoSweeps (.singleton r)
  | cons a l ih =>
    cases l with
    | nil => exact ⟨[a], [r], rfl, .singleton a, .singleton r⟩
    | cons b l =>
      have hne' : ∀ c ∈ b :: l, key c ≠ key r := fun c hc => hne c (List.mem_cons_of_mem _ hc)
      rw [Linux001.place]
      by_cases hab : key a < key b
      · have hrest := (twoSweeps_cons_of_lt hab).mp h
        split_ifs with hif
        · -- The key lies between two neighbours of a sweep.
          have har := hif.1.resolve_right (not_not.mpr hab)
          rw [twoSweeps_cons_of_lt har, twoSweeps_cons_of_lt hif.2]
          exact hrest
        · obtain ⟨l', hl'⟩ := place_cons key r b l
          have hplace := ih hrest hne'
          rw [hl'] at hplace ⊢
          exact (twoSweeps_cons_of_lt hab).mpr hplace
      · -- The first sweep ends with `a`.
        have hrest := (twoSweeps_cons_of_not_lt hab).mp h
        by_cases hrb : key r < key b
        · rw [if_pos ⟨.inr hab, hrb⟩]
          have har : ¬ key a < key r := fun hc => hab (hc.trans hrb)
          rw [twoSweeps_cons_of_not_lt har]
          exact rising_cons_cons.mpr ⟨hrb, hrest⟩
        · rw [if_neg fun hc => hrb hc.2]
          have hbr : key b < key r := lt_of_le_of_ne (not_lt.mp hrb) (hne' b List.mem_cons_self)
          have hplace := hrest.place hbr fun c hc => hne' c (List.mem_cons_of_mem _ hc)
          obtain ⟨l', hl'⟩ := place_cons key r b l
          rw [hl'] at hplace ⊢
          exact (twoSweeps_cons_of_not_lt hab).mpr hplace

end Linux001
