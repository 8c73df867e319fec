import Mathlib.Data.List.Range
import Mathlib.Tactic.Cases

/-!
# Sequential code that may panic

A kernel function that runs to its end without being interrupted is a computation with a state
that may stop in a panic: a term of `StateT σ (Except ε) α`. `Ensures m s Q` says that whenever `m`,
started in `s`, does not panic, its result and the state it leaves satisfy `Q`. A panic satisfies
every postcondition: nothing runs after it.

## Main definitions

* `Ensures m s Q`: partial correctness of `m` in the state `s`.

## Main results

* `Ensures.bind`, `Ensures.mono`: sequencing and consequence.
* `ensures_forM_range`: counted loops, from an invariant indexed by the counter.
-/

namespace Linux001

variable {σ ε α β : Type}

/-- If `m` does not panic in `s`, its result and the state it leaves satisfy `Q`. -/
def Ensures (m : StateT σ (Except ε) α) (s : σ) (Q : α → σ → Prop) : Prop :=
  ∀ a s', m s = .ok (a, s') → Q a s'

/-- A computation that ends well has parts that end well. -/
theorem bind_eq_ok {x : Except ε α} {f : α → Except ε β} {b : β} :
    (x >>= f) = .ok b ↔ ∃ a, x = .ok a ∧ f a = .ok b := by
  cases x with
  | error e => exact ⟨fun h => (nomatch h), fun ⟨_, h, _⟩ => (nomatch h)⟩
  | ok a => exact ⟨fun h => ⟨a, rfl, h⟩, fun ⟨_, h, hf⟩ => Except.ok.inj h ▸ hf⟩

theorem map_eq_ok {x : Except ε α} {f : α → β} {b : β} :
    x.map f = .ok b ↔ ∃ a, x = .ok a ∧ f a = b := by
  cases x with
  | error e => exact ⟨fun h => (nomatch h), fun ⟨_, h, _⟩ => (nomatch h)⟩
  | ok a => exact ⟨fun h => ⟨a, rfl, Except.ok.inj h⟩, fun ⟨_, h, hf⟩ => Except.ok.inj h ▸ hf ▸ rfl⟩

section Rules

variable {m : StateT σ (Except ε) α} {f : α → StateT σ (Except ε) β} {s : σ}
  {Q : α → σ → Prop} {R : β → σ → Prop}

/-- A computation ensures what is true of the result it has. -/
theorem Ensures.self : Ensures m s fun a s' => m s = .ok (a, s') :=
  fun _ _ h => h

theorem Ensures.mono {Q' : α → σ → Prop} (h : Ensures m s Q) (hQ : ∀ a s', Q a s' → Q' a s') :
    Ensures m s Q' :=
  fun a s' hm => hQ a s' (h a s' hm)

theorem Ensures.and {Q' : α → σ → Prop} (h : Ensures m s Q) (h' : Ensures m s Q') :
    Ensures m s fun a s' => Q a s' ∧ Q' a s' :=
  fun a s' hm => ⟨h a s' hm, h' a s' hm⟩

/-- The first part ensures what the second part needs. -/
theorem Ensures.bind (h : Ensures m s Q) (hf : ∀ a s', Q a s' → Ensures (f a) s' R) :
    Ensures (m >>= f) s R := by
  intro b s'' hb
  have hb' : (m s >>= fun p => f p.1 p.2) = .ok (b, s'') := hb
  cases hm : m s with
  | error e =>
    rw [hm] at hb'
    cases hb'
  | ok p =>
    rw [hm] at hb'
    exact hf p.1 p.2 (h p.1 p.2 hm) b s'' hb'

@[simp]
theorem ensures_pure {a : α} : Ensures (pure a : StateT σ (Except ε) α) s Q ↔ Q a s := by
  constructor
  · intro h
    exact h a s rfl
  · intro h b s' hb
    cases hb
    exact h

@[simp]
theorem ensures_throw {e : ε} : Ensures (throw e : StateT σ (Except ε) α) s Q :=
  fun _ _ h => by cases h

@[simp]
theorem ensures_modify {g : σ → σ} {Q : PUnit → σ → Prop} :
    Ensures (modify g : StateT σ (Except ε) PUnit) s Q ↔ Q ⟨⟩ (g s) := by
  constructor
  · intro h
    exact h ⟨⟩ (g s) rfl
  · intro h b s' hb
    cases hb
    exact h

/-- Reading the state and going on. -/
@[simp]
theorem ensures_get_bind {f : σ → StateT σ (Except ε) β} :
    Ensures (get >>= f) s R ↔ Ensures (f s) s R :=
  Iff.rfl

/-- Replacing the state and going on. -/
@[simp]
theorem ensures_modify_bind {g : σ → σ} {f : PUnit → StateT σ (Except ε) β} :
    Ensures (modify g >>= f) s R ↔ Ensures (f ⟨⟩) (g s) R :=
  Iff.rfl

theorem ensures_ite {c : Prop} [Decidable c] {m' : StateT σ (Except ε) α}
    (ht : c → Ensures m s Q) (hf : ¬ c → Ensures m' s Q) :
    Ensures (if c then m else m') s Q := by
  split
  · exact ht ‹_›
  · exact hf ‹_›

theorem ensures_dite {c : Prop} [Decidable c] {m : c → StateT σ (Except ε) α}
    {m' : ¬ c → StateT σ (Except ε) α} (ht : ∀ h, Ensures (m h) s Q)
    (hf : ∀ h, Ensures (m' h) s Q) : Ensures (if h : c then m h else m' h) s Q := by
  split
  · exact ht ‹_›
  · exact hf ‹_›

end Rules

/-- A counted loop ensures what its invariant says at the last value of the counter. -/
theorem ensures_forM_range {f : ℕ → StateT σ (Except ε) PUnit} {n : ℕ} (P : ℕ → σ → Prop) {s : σ}
    (h₀ : P 0 s) (hstep : ∀ k < n, ∀ s, P k s → Ensures (f k) s fun _ s' => P (k + 1) s') :
    Ensures ((List.range n).forM f) s fun _ s' => P n s' := by
  induction n with
  | zero => exact ensures_pure.mpr h₀
  | succ n ih =>
    have hlast : (List.range (n + 1)).forM f =
        ((List.range n).forM f >>= fun _ => f n) := by
      rw [List.range_succ, List.forM_eq_forM, List.forM_append]
      simp only [List.forM_cons, List.forM_nil, bind_pure_comp, id_map']
    rw [hlast]
    refine Ensures.bind (ih fun k hk => hstep k (Nat.lt_succ_of_lt hk)) fun _ s' hs' => ?_
    exact hstep n (Nat.lt_succ_self n) s' hs'

end Linux001
