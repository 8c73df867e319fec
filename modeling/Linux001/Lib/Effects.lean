import Linux001.Lib.Panics

/-!
# What sequential code leaves alone, and where it arrives

Two companions of `Ensures` for terms of `StateT σ (Except ε) α`. A part of the state that a
computation `Leaves` is the same afterwards, from whatever state it was started. A computation that
`Succeeds` does not stop in a panic, and its result and the state it leaves satisfy the
postcondition.

## Main definitions

* `Leaves f m`: `m` does not change the part `f` of the state.
* `Succeeds m s Q`: total correctness of `m` in the state `s`.

## Main results

* `Leaves.bind`, `leaves_forM`: what sequences and loops leave alone.
* `Succeeds.bind`, `succeeds_forM_range`: sequences and counted loops that arrive.
-/

namespace Linux001

variable {σ ε α β γ : Type}

/-! ### Parts of the state -/

/-- Whatever `m` does, it does not change the part `f` of the state. -/
def Leaves (f : σ → γ) (m : StateT σ (Except ε) α) : Prop := ∀ s, Ensures m s fun _ s' => f s' = f s

section Leaves

variable {f : σ → γ} {m : StateT σ (Except ε) α}

theorem leaves_pure (f : σ → γ) (a : α) : Leaves f (pure a : StateT σ (Except ε) α) :=
  fun _ => ensures_pure.mpr rfl

theorem leaves_throw (f : σ → γ) (e : ε) : Leaves f (throw e : StateT σ (Except ε) α) :=
  fun _ => ensures_throw

theorem leaves_get (f : σ → γ) : Leaves f (get : StateT σ (Except ε) σ) := fun _ _ _ h => by
  cases h
  rfl

theorem leaves_modify {g : σ → σ} (h : ∀ s, f (g s) = f s) :
    Leaves f (modify g : StateT σ (Except ε) PUnit) :=
  fun s => ensures_modify.mpr (h s)

theorem Leaves.bind {k : α → StateT σ (Except ε) β} (h : Leaves f m) (hk : ∀ a, Leaves f (k a)) :
    Leaves f (m >>= k) :=
  fun s => (h s).bind fun a s' hs' => (hk a s').mono fun _ _ h'' => h''.trans hs'

theorem leaves_ite {c : Prop} [Decidable c] {m' : StateT σ (Except ε) α} (h : Leaves f m)
    (h' : Leaves f m') : Leaves f (if c then m else m') := by
  split
  · exact h
  · exact h'

theorem leaves_forM {ι : Type} (l : List ι) {k : ι → StateT σ (Except ε) PUnit}
    (h : ∀ i, Leaves f (k i)) : Leaves f (l.forM k) := by
  induction l with
  | nil => exact leaves_pure f _
  | cons i l ih => exact (h i).bind fun _ => ih

end Leaves

/-! ### Total correctness -/

/-- `m` does not panic in `s`, and its result and the state it leaves satisfy `Q`. -/
def Succeeds (m : StateT σ (Except ε) α) (s : σ) (Q : α → σ → Prop) : Prop :=
  ∃ a s', m s = .ok (a, s') ∧ Q a s'

section Succeeds

variable {m : StateT σ (Except ε) α} {k : α → StateT σ (Except ε) β} {s : σ}
  {Q Q' : α → σ → Prop} {R : β → σ → Prop}

theorem succeeds_pure {a : α} (h : Q a s) : Succeeds (pure a : StateT σ (Except ε) α) s Q :=
  ⟨a, s, rfl, h⟩

theorem succeeds_modify {g : σ → σ} {Q : PUnit → σ → Prop} (h : Q ⟨⟩ (g s)) :
    Succeeds (modify g : StateT σ (Except ε) PUnit) s Q :=
  ⟨⟨⟩, g s, rfl, h⟩

theorem succeeds_get_bind {f : σ → StateT σ (Except ε) β} :
    Succeeds (get >>= f) s R ↔ Succeeds (f s) s R :=
  Iff.rfl

theorem succeeds_modify_bind {g : σ → σ} {f : PUnit → StateT σ (Except ε) β} :
    Succeeds (modify g >>= f) s R ↔ Succeeds (f ⟨⟩) (g s) R :=
  Iff.rfl

theorem Succeeds.mono (h : Succeeds m s Q) (hQ : ∀ a s', Q a s' → Q' a s') : Succeeds m s Q' :=
  let ⟨a, s', hm, hq⟩ := h
  ⟨a, s', hm, hQ a s' hq⟩

/-- The second part is started where the first one arrives. -/
theorem Succeeds.bind (h : Succeeds m s Q) (hk : ∀ a s', Q a s' → Succeeds (k a) s' R) :
    Succeeds (m >>= k) s R := by
  obtain ⟨a, s', hm, hq⟩ := h
  obtain ⟨b, s'', hb, hr⟩ := hk a s' hq
  refine ⟨b, s'', ?_, hr⟩
  change (m s >>= fun p => k p.1 p.2) = _
  rw [hm]
  exact hb

/-- Computations that succeed ensure what they succeed with. -/
theorem Succeeds.ensures (h : Succeeds m s Q) : Ensures m s Q := by
  obtain ⟨a, s', hm, hq⟩ := h
  intro b s'' hb
  obtain ⟨rfl, rfl⟩ := Prod.mk.inj (Except.ok.inj (hm.symm.trans hb))
  exact hq

theorem Succeeds.and (h : Succeeds m s Q) (h' : Ensures m s Q') :
    Succeeds m s fun a s' => Q a s' ∧ Q' a s' :=
  let ⟨a, s', hm, hq⟩ := h
  ⟨a, s', hm, hq, h' a s' hm⟩

/-- What returns at all arrives at what it ensures. -/
theorem Ensures.succeeds (h : Ensures m s Q) (hok : ∃ r, m s = .ok r) : Succeeds m s Q := by
  obtain ⟨⟨a, s'⟩, hm⟩ := hok
  exact ⟨a, s', hm, h a s' hm⟩

/-- A counted loop arrives at what its invariant says at the last value of the counter. -/
theorem succeeds_forM_range {f : ℕ → StateT σ (Except ε) PUnit} {n : ℕ} (P : ℕ → σ → Prop) {s : σ}
    (h₀ : P 0 s) (hstep : ∀ k < n, ∀ s, P k s → Succeeds (f k) s fun _ s' => P (k + 1) s') :
    Succeeds ((List.range n).forM f) s fun _ s' => P n s' := by
  induction n with
  | zero => exact succeeds_pure h₀
  | succ n ih =>
    have hlast : (List.range (n + 1)).forM f = ((List.range n).forM f >>= fun _ => f n) := by
      rw [List.range_succ, List.forM_eq_forM, List.forM_append]
      simp only [List.forM_cons, List.forM_nil, bind_pure_comp, id_map']
    rw [hlast]
    refine Succeeds.bind (ih fun k hk => hstep k (Nat.lt_succ_of_lt hk)) fun _ s' hs' => ?_
    exact hstep n (Nat.lt_succ_self n) s' hs'

end Succeeds

end Linux001
