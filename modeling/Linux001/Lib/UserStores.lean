import Linux001.Lib.Panics
import Mathlib.Order.Interval.Set.Basic

/-!
# Stores to the memory of a process

Kernel code that works on a state and on the memory of the process that it runs for. Of the second
only the accesses are kept: which ranges the code has asked to be verified, and which ones it has
stored to. They are kept also when the code stops in a panic, so that nothing it has done before is
lost.

## Main definitions

* `Access`, `UserCode`: code with its accesses.
* `Checked`: every address that is stored to lies in a range that has been verified before.
* `StoresIn R m`: the code `m` stores to addresses of the set `R` only, and verifies nothing.
* `Returns P m`: the results of `m` have the property `P`.
* `Checks P m`: the code `m` verifies what it stores to, and ranges with the property `P` only.

## Main results

* `StoresIn.bind`, `StoresIn.ite`, `StoresIn.forM`: sequencing, branches and loops.
* `Checks.of_storesIn`: code that stores in a range and has verified it.
-/

namespace Linux001

/-- An access to the memory of the process: a range that is verified, or one that is stored to. -/
inductive Access
  | verify (addr size : ℕ)
  | put (addr size : ℕ)
  deriving DecidableEq, Repr

/-- The addresses in the ranges that have been verified. -/
def verified (t : List Access) : Set ℕ := {x | ∃ a n, Access.verify a n ∈ t ∧ a ≤ x ∧ x < a + n}

/-- Every address that is stored to lies in a range that has been verified before. The most recent
access comes first. -/
def Checked : List Access → Prop
  | [] => True
  | .verify _ _ :: t => Checked t
  | .put a n :: t => Set.Ico a (a + n) ⊆ verified t ∧ Checked t

/-- All ranges that have been verified have the property `P`. -/
def Ranges (P : ℕ → ℕ → Prop) (t : List Access) : Prop := ∀ a n, Access.verify a n ∈ t → P a n

/-- Code on a state that may stop, with its accesses, most recent first. -/
abbrev UserCode (ε σ : Type) := ExceptT ε (StateM (σ × List Access))

section Rules

variable {ε σ α β : Type}

/-- The accesses after the code has run. -/
def UserCode.trace (m : UserCode ε σ α) (s : σ) (t : List Access) : List Access := (m (s, t)).2.2

/-- Code without accesses. -/
def kernel (m : StateT σ (Except ε) α) : UserCode ε σ α := fun p =>
  match m p.1 with
  | .ok (a, s) => (.ok a, s, p.2)
  | .error e => (.error e, p)

/-- An access. -/
def access (x : Access) : UserCode ε σ Unit := fun p => (.ok (), p.1, x :: p.2)

/-- The code `m` stores to addresses of `R` only, and verifies nothing. -/
def StoresIn (R : Set ℕ) (m : UserCode ε σ α) : Prop :=
  ∀ s t, ∃ new, m.trace s t = new ++ t ∧
    ∀ x ∈ new, ∃ a n, x = Access.put a n ∧ Set.Ico a (a + n) ⊆ R

/-- The results of `m` have the property `P`. -/
def Returns (P : α → Prop) (m : UserCode ε σ α) : Prop :=
  ∀ s t a p, m (s, t) = (.ok a, p) → P a

/-- The code `m` stores to addresses that have been verified only, and verifies ranges with the
property `P` only. -/
def Checks (P : ℕ → ℕ → Prop) (m : UserCode ε σ α) : Prop :=
  ∀ s t, Checked t ∧ Ranges P t → Checked (m.trace s t) ∧ Ranges P (m.trace s t)

theorem verified_append (new t : List Access) : verified t ⊆ verified (new ++ t) :=
  fun _ ⟨a, n, h, hx⟩ => ⟨a, n, List.mem_append_right _ h, hx⟩

/-- Further stores to verified addresses. -/
theorem Checked.append {P : ℕ → ℕ → Prop} {new t : List Access} (ht : Checked t ∧ Ranges P t)
    (hnew : ∀ x ∈ new, ∃ a n, x = Access.put a n ∧ Set.Ico a (a + n) ⊆ verified t) :
    Checked (new ++ t) ∧ Ranges P (new ++ t) := by
  induction new with
  | nil => exact ht
  | cons x new ih =>
    obtain ⟨hrest, hranges⟩ := ih fun x h => hnew x (List.mem_cons_of_mem _ h)
    obtain ⟨a, n, rfl, hsub⟩ := hnew x List.mem_cons_self
    refine ⟨⟨hsub.trans (verified_append new t), hrest⟩, fun b k hb => hranges b k ?_⟩
    exact (List.mem_cons.mp hb).resolve_left fun h => nomatch h

/-- The code that follows runs from the state and with the accesses that the first part leaves. -/
theorem trace_bind (m : UserCode ε σ α) (f : α → UserCode ε σ β) (s : σ) (t : List Access) :
    (m >>= f).trace s t = match m (s, t) with
      | (.ok a, p) => (f a).trace p.1 p.2
      | (.error _, p) => p.2 := by
  change (ExceptT.bindCont f (m (s, t)).1 (m (s, t)).2).2.2 = _
  rcases m (s, t) with ⟨_ | _, _⟩ <;> rfl

theorem Checked.of_append {new t : List Access} (h : Checked (new ++ t)) : Checked t := by
  induction new with
  | nil => exact h
  | cons x new ih =>
    cases x with
    | verify a n => exact ih h
    | put a n => exact ih h.2

namespace Returns

variable {m m' : UserCode ε σ α} {f : α → UserCode ε σ β} {P : α → Prop} {Q : β → Prop}

theorem pure {a : α} (h : P a) : Returns P (Pure.pure a : UserCode ε σ α) := by
  intro s t b p hb
  cases hb
  exact h

theorem mono {P' : α → Prop} (h : Returns P m) (hP : ∀ a, P a → P' a) : Returns P' m :=
  fun s t a p hm => hP a (h s t a p hm)

/-- The result is that of the last part. -/
theorem bind (hf : ∀ a, Returns Q (f a)) : Returns Q (m >>= f) := by
  intro s t b p hb
  change ExceptT.bindCont f (m (s, t)).1 (m (s, t)).2 = (.ok b, p) at hb
  rcases hm : m (s, t) with ⟨_ | a, s', t'⟩
  · rw [hm] at hb
    cases hb
  · rw [hm] at hb
    exact hf a s' t' b p hb

theorem ite {c : Prop} [Decidable c] (ht : c → Returns P m) (hf : ¬ c → Returns P m') :
    Returns P (if c then m else m') := by
  split
  · exact ht ‹_›
  · exact hf ‹_›

end Returns

namespace StoresIn

variable {R R' : Set ℕ} {m m' : UserCode ε σ α} {f : α → UserCode ε σ β}

theorem pure (a : α) : StoresIn R (Pure.pure a : UserCode ε σ α) :=
  fun _ _ => ⟨[], rfl, fun _ h => by cases h⟩

theorem throw (e : ε) : StoresIn R (MonadExcept.throw e : UserCode ε σ α) :=
  fun _ _ => ⟨[], rfl, fun _ h => by cases h⟩

theorem kernel (c : StateT σ (Except ε) α) : StoresIn R (Linux001.kernel c) := fun s t => by
  refine ⟨[], ?_, fun _ h => by cases h⟩
  unfold UserCode.trace Linux001.kernel
  cases c s <;> rfl

theorem put {a n : ℕ} (h : Set.Ico a (a + n) ⊆ R) :
    StoresIn R (access (.put a n) : UserCode ε σ Unit) := fun _ _ => by
  exact ⟨[.put a n], rfl, fun x hx => ⟨a, n, List.mem_singleton.mp hx, h⟩⟩

/-- What the second part stores to may depend on the result of the first. -/
theorem bind_of {P : α → Prop} (h : StoresIn R m) (hret : Returns P m)
    (hf : ∀ a, P a → StoresIn R (f a)) : StoresIn R (m >>= f) := by
  intro s t
  obtain ⟨new, hnew, hput⟩ := h s t
  rw [trace_bind]
  have htrace : (m (s, t)).2.2 = new ++ t := hnew
  rcases hm : m (s, t) with ⟨_ | a, s', t'⟩
  · rw [hm] at htrace
    exact ⟨new, htrace, hput⟩
  · rw [hm] at htrace
    obtain ⟨new', hnew', hput'⟩ := hf a (hret s t a _ hm) s' t'
    refine ⟨new' ++ new, ?_, fun x h => ?_⟩
    · change (f a).trace s' t' = _
      rw [hnew', show t' = new ++ t from htrace, List.append_assoc]
    · exact (List.mem_append.mp h).elim (hput' x) (hput x)

theorem bind (h : StoresIn R m) (hf : ∀ a, StoresIn R (f a)) : StoresIn R (m >>= f) :=
  h.bind_of (P := fun _ => True) (fun _ _ _ _ _ => trivial) fun a _ => hf a

theorem ite {c : Prop} [Decidable c] (ht : c → StoresIn R m) (hf : ¬ c → StoresIn R m') :
    StoresIn R (if c then m else m') := by
  split
  · exact ht ‹_›
  · exact hf ‹_›

theorem forM {γ : Type} {l : List γ} {f : γ → UserCode ε σ PUnit}
    (h : ∀ c ∈ l, StoresIn R (f c)) : StoresIn R (l.forM f) := by
  induction l with
  | nil => exact pure _
  | cons c l ih =>
    exact (h c List.mem_cons_self).bind fun _ => ih fun c' hc' => h c' (List.mem_cons_of_mem _ hc')

end StoresIn

namespace Checks

variable {P : ℕ → ℕ → Prop} {m m' : UserCode ε σ α} {f : α → UserCode ε σ β}

/-- Code without stores. -/
theorem of_silent (h : StoresIn ∅ m) : Checks P m := fun s t ht => by
  obtain ⟨new, hnew, hput⟩ := h s t
  rw [hnew]
  refine Checked.append ht fun x hx => ?_
  obtain ⟨a, n, rfl, hsub⟩ := hput x hx
  exact ⟨a, n, rfl, hsub.trans (Set.empty_subset _)⟩

theorem bind (h : Checks P m) (hf : ∀ a, Checks P (f a)) : Checks P (m >>= f) := by
  intro s t ht
  have hm : Checked (m (s, t)).2.2 ∧ Ranges P (m (s, t)).2.2 := h s t ht
  rw [trace_bind]
  rcases hr : m (s, t) with ⟨_ | a, s', t'⟩
  · rw [hr] at hm
    exact hm
  · rw [hr] at hm
    exact hf a s' t' hm

theorem ite {c : Prop} [Decidable c] (ht : c → Checks P m) (hf : ¬ c → Checks P m') :
    Checks P (if c then m else m') := by
  split
  · exact ht ‹_›
  · exact hf ‹_›

/-- Code that stores in a range, after the range has been verified. -/
theorem of_storesIn {a n : ℕ} {m : UserCode ε σ β} (h : StoresIn (Set.Ico a (a + n)) m)
    (hP : P a n) : Checks P (access (.verify a n) >>= fun _ => m) := by
  intro s t ht
  rw [trace_bind]
  change Checked (m.trace s (.verify a n :: t)) ∧ Ranges P (m.trace s (.verify a n :: t))
  obtain ⟨new, hnew, hput⟩ := h s (.verify a n :: t)
  rw [hnew]
  refine Checked.append ⟨ht.1, fun b k hb => ?_⟩ fun x hx => ?_
  · rcases List.mem_cons.mp hb with heq | hb
    · obtain ⟨rfl, rfl⟩ := Access.verify.inj heq
      exact hP
    · exact ht.2 b k hb
  · obtain ⟨a', n', rfl, hsub⟩ := hput x hx
    exact ⟨a', n', rfl, fun y hy => ⟨a, n, List.mem_cons_self, (hsub hy).1, (hsub hy).2⟩⟩

end Checks

end Rules

end Linux001
