import Linux001.Tty.Cooked
import Mathlib.Data.List.Infix

/-!
# The echo of characters

A round of the loop of `copy_to_cooked` echoes nothing, or it puts at most two characters into the
write queue and calls the `write` function once. So `copy_to_cooked` leaves the write queue as it
is, or empties it.

## Main definitions

* `Terminal.absorbs`: the characters that are read without an echo.
* `Terminal.Hushed`: `copy_to_cooked` echoes nothing.
* `Queue.Passed`: the queue has been left as it is, or it has been emptied.

## Main results

* `Terminal.cook_absorbed`, `Terminal.cook_echoed`: one round of `copy_to_cooked`.
* `copyToCooked_hushed`, `copyToCooked_drained`: its loop.
* `conWrite_extends`: the bound on the depth does not matter to a call that returns.
* `conWrite_drains`: `con_write` leaves the queue empty, or takes a character from an empty queue.
-/

namespace Linux001.Tty

/-! ### One round of `copy_to_cooked` -/

/-- The echo of a character. -/
def echoList (t : Termios) (c : UInt8) : List UInt8 :=
  if c = 10 then [10, 13]
  else if isControl c then if t.ECHOCTL then [94, c + 64] else []
  else [c]

/-- The echo of an erased character. -/
def eraseList (c : UInt8) : List UInt8 := if isControl c then [127, 127] else [127]

namespace Terminal

variable {σ : Type*} (high : UInt8 → Bool) (s : Terminal σ)

theorem echo_eq (c : UInt8) :
    s.echo c = { s with writeQ := s.writeQ.putAll (echoList s.termios c) } := by
  unfold echo echoList
  split_ifs <;> rfl

theorem echoErase_eq (c : UInt8) :
    s.echoErase c = { s with writeQ := s.writeQ.putAll (eraseList c) } := by
  unfold echoErase eraseList
  split_ifs <;> rfl

/-- `ERASE_CHAR` has no effect. -/
def nothingToErase : Bool :=
  s.secondary.empty ∨ s.secondary.last = 10 ∨ isChar s.secondary.last s.termios.eofChar

/-- The character `c` as it is after the mapping. -/
def lowered (c : UInt8) : UInt8 := if s.termios.IUCLC then toLower high c else c

/-- The character `c`, after the mapping, is used up without an echo. -/
def absorbsMapped (c : UInt8) : Bool :=
  if s.termios.ICANON ∧ isChar c s.termios.eraseChar then s.nothingToErase
  else
    (s.termios.ICANON ∧ (isChar c s.termios.stopChar ∨ isChar c s.termios.startChar)) ∨
      (s.termios.ISIG = false ∧ isChar c s.termios.intrChar)

/-- The character `c` of the read queue is used up without an echo. -/
def absorbs (c : UInt8) : Bool :=
  match s.mapped c with
  | none => true
  | some c => s.absorbsMapped (s.lowered high c)

variable {high s} {s' : Terminal σ}

/-- Only what the echo does not depend on has changed, unless there is no echo at all. -/
structure Silent (s s' : Terminal σ) : Prop where
  readQ : s'.readQ = s.readQ
  writeQ : s'.writeQ = s.writeQ
  termios : s'.termios = s.termios
  screen : s'.screen = s.screen
  secondary : s.termios.ECHO = true → s'.secondary = s.secondary

/-- The characters `l` that are echoed for the character `c`: a query can only end with the last
one, and not when `c` is a character of an answer. -/
structure Echo (c : UInt8) (l : List UInt8) : Prop where
  length_le : l.length ≤ 2
  ne_query : ∀ x ∈ l.dropLast, x ≠ 'Z'.toUInt8
  response : c ∈ RESPONSE → 'Z'.toUInt8 ∉ l

/-- The first of two characters is the only one before the last. -/
theorem ne_query_pair {a b : UInt8} (h : a ≠ 'Z'.toUInt8) :
    ∀ x ∈ [a, b].dropLast, x ≠ 'Z'.toUInt8 := by
  rintro x (_ | ⟨_, ⟨⟩⟩)
  exact h

theorem ne_query_single {a : UInt8} : ∀ x ∈ [a].dropLast, x ≠ 'Z'.toUInt8 :=
  fun _ hx => absurd hx List.not_mem_nil

theorem echo_eraseList (c x : UInt8) : Echo c (eraseList x) := by
  unfold eraseList
  split_ifs
  · exact ⟨by decide, ne_query_pair (by decide), fun _ => by decide⟩
  · exact ⟨by decide, ne_query_single, fun _ => by decide⟩

theorem mem_response {c : UInt8} (hc : c ∈ RESPONSE) :
    c = 27 ∨ c = 91 ∨ c = 63 ∨ c = 49 ∨ c = 59 ∨ c = 50 ∨ c = 99 := by
  simpa only [RESPONSE, List.mem_cons, List.not_mem_nil, or_false] using hc

theorem response_echoList {t : Termios} {c : UInt8} (hc : c ∈ RESPONSE) :
    'Z'.toUInt8 ∉ echoList t c := by
  have h : ∀ b : Bool, 'Z'.toUInt8 ∉ (
      if c = 10 then [10, 13] else if isControl c then if b then [94, c + 64] else []
        else [c]) := by
    rcases mem_response hc with rfl | rfl | rfl | rfl | rfl | rfl | rfl <;> decide
  exact h t.ECHOCTL

theorem echo_echoList {t : Termios} {c c' : UInt8} (hc : c ∈ RESPONSE → c' = c) :
    Echo c (echoList t c') := by
  refine ⟨?_, ?_, fun h => hc h ▸ response_echoList h⟩
  · unfold echoList
    split_ifs <;> simp
  · unfold echoList
    split_ifs
    · exact ne_query_pair (by decide)
    · exact ne_query_pair (by decide)
    · exact fun x hx => absurd hx List.not_mem_nil
    · exact ne_query_single

/-- The characters of an answer are not changed by the mapping. -/
theorem mapped_response (high : UInt8 → Bool) (s : Terminal σ) {c : UInt8} (hc : c ∈ RESPONSE) :
    s.mapped c = some c ∧ s.lowered high c = c := by
  have hne : c ≠ 13 ∧ c ≠ 10 ∧ c < 128 ∧ ¬ (65 ≤ c ∧ c ≤ 90) := by
    rcases mem_response hc with rfl | rfl | rfl | rfl | rfl | rfl | rfl <;> decide
  obtain ⟨h₁, h₂, h₃, h₄⟩ := hne
  have hupper : isUpper high c = false := by
    unfold isUpper
    rw [if_pos h₃]
    exact decide_eq_false h₄
  refine ⟨?_, ?_⟩
  · unfold mapped
    rw [if_neg h₁, if_neg fun h => h₂ h.1]
  · unfold lowered toLower
    rw [hupper]
    split_ifs <;> first | rfl | contradiction

theorem Silent.refl (s : Terminal σ) : Silent s s := ⟨rfl, rfl, rfl, rfl, fun _ => rfl⟩

theorem echoed_of_silent (h : s.termios.ECHO = false) (write : Terminal σ → Option (Terminal σ))
    (echo : Terminal σ → Terminal σ) : s.echoed write echo = some s := by
  unfold echoed
  rw [if_neg (h ▸ Bool.false_ne_true)]

theorem echoed_of_echo (h : s.termios.ECHO = true) (write : Terminal σ → Option (Terminal σ))
    (echo : Terminal σ → Terminal σ) : s.echoed write echo = write (echo s) := by
  unfold echoed
  rw [if_pos h]

/-- The secondary queue with the number of lines counted. -/
def counted (s : Terminal σ) (c : UInt8) : Queue :=
  if c = 10 ∨ isChar c s.termios.eofChar then
    { s.secondary with data := (s.secondary.data + 1) % 4294967296 }
  else s.secondary

theorem accept_eq (write : Terminal σ → Option (Terminal σ)) (c : UInt8) :
    s.accept write c = (({ s with secondary := s.counted c } : Terminal σ).echoed write
      fun s => s.echo c).map fun t => { t with secondary := t.secondary.putch c } := by
  unfold accept counted
  dsimp only
  split_ifs <;> rfl

/-- The effect of the mapped character `c` when it is not echoed. -/
theorem cookMapped_absorbed {c : UInt8} (h : s.termios.ECHO = false ∨ s.absorbsMapped c) :
    ∃ s', (∀ write, s.cookMapped write c = some s') ∧ Silent s s' := by
  unfold absorbsMapped at h
  unfold cookMapped
  split_ifs at h ⊢ with herase hstop hstart hintr
  · unfold erase
    dsimp only
    split_ifs with hnone
    · exact ⟨s, fun _ => rfl, .refl s⟩
    · have hecho := h.resolve_right fun h => hnone (of_decide_eq_true h)
      refine ⟨{ s with secondary := s.secondary.unput }, fun write => ?_, rfl, rfl, rfl, rfl,
        fun h => absurd (hecho.symm.trans h) Bool.false_ne_true⟩
      rw [echoed_of_silent hecho, Option.map_some]
  · exact ⟨{ s with stopped := true }, fun _ => rfl, rfl, rfl, rfl, rfl, fun _ => rfl⟩
  · exact ⟨{ s with stopped := false }, fun _ => rfl, rfl, rfl, rfl, rfl, fun _ => rfl⟩
  · refine ⟨s.intr, fun _ => rfl, ?_⟩
    unfold intr
    split_ifs
    · exact .refl s
    · exact ⟨rfl, rfl, rfl, rfl, fun _ => rfl⟩
  · have hecho : s.termios.ECHO = false := by
      refine h.resolve_right fun h => ?_
      rcases of_decide_eq_true h with ⟨hcanon, h | h⟩ | h
      · exact hstop ⟨hcanon, h⟩
      · exact hstart ⟨hcanon, h⟩
      · exact hintr h
    refine ⟨{ s with secondary := (s.counted c).putch c }, fun write => ?_, rfl, rfl, rfl, rfl,
      fun h => absurd (hecho.symm.trans h) Bool.false_ne_true⟩
    rw [accept_eq, echoed_of_silent (s := { s with secondary := s.counted c }) hecho,
      Option.map_some]

/-- The effect of the mapped character `c'` of a character `c` that is echoed: the `write` function
is called once. -/
theorem cookMapped_echoed {c c' : UInt8} (hecho : s.termios.ECHO = true)
    (h : s.absorbsMapped c' = false) (hc : c ∈ RESPONSE → c' = c) :
    ∃ l secondary, ∃ f : Queue → Queue, Echo c l ∧ ∀ write, s.cookMapped write c' =
      (write { s with secondary := secondary, writeQ := s.writeQ.putAll l }).map fun t =>
        { t with secondary := f t.secondary } := by
  unfold absorbsMapped at h
  unfold cookMapped
  split_ifs at h ⊢ with herase hstop hstart hintr
  · refine ⟨eraseList s.secondary.last, s.secondary, Queue.unput, echo_eraseList c _,
      fun write => ?_⟩
    unfold erase
    dsimp only
    rw [if_neg (of_decide_eq_false h), echoed_of_echo hecho, echoErase_eq]
  · exact absurd (Or.inl ⟨hstop.1, Or.inl hstop.2⟩) (of_decide_eq_false h)
  · exact absurd (Or.inl ⟨hstart.1, Or.inr hstart.2⟩) (of_decide_eq_false h)
  · exact absurd (Or.inr hintr) (of_decide_eq_false h)
  · refine ⟨echoList s.termios c', s.counted c', fun q => q.putch c', echo_echoList hc,
      fun write => ?_⟩
    rw [accept_eq, echoed_of_echo (s := { s with secondary := s.counted c' }) hecho, echo_eq]

/-- A round of `copy_to_cooked` in which nothing is echoed. -/
theorem cook_absorbed (h : s.termios.ECHO = false ∨ s.absorbs high s.readQ.getch.1) :
    ∃ s', (∀ write, s.cook high write = some s') ∧
      Silent { s with readQ := s.readQ.getch.2 } s' := by
  unfold absorbs at h
  unfold cook
  dsimp only
  have hmapped : ({ s with readQ := s.readQ.getch.2 } : Terminal σ).mapped = s.mapped := rfl
  rw [hmapped]
  cases hc : s.mapped s.readQ.getch.1 with
  | none => exact ⟨_, fun _ => rfl, .refl _⟩
  | some c =>
    rw [hc] at h
    exact cookMapped_absorbed h

/-- A round of `copy_to_cooked` in which something is echoed. -/
theorem cook_echoed (hecho : s.termios.ECHO = true) (h : s.absorbs high s.readQ.getch.1 = false) :
    ∃ l secondary, ∃ f : Queue → Queue, Echo s.readQ.getch.1 l ∧ ∀ write, s.cook high write =
      (write { s with
        readQ := s.readQ.getch.2
        secondary := secondary
        writeQ := s.writeQ.putAll l }).map fun t => { t with secondary := f t.secondary } := by
  unfold absorbs at h
  unfold cook
  dsimp only
  have hmapped : ({ s with readQ := s.readQ.getch.2 } : Terminal σ).mapped = s.mapped := rfl
  rw [hmapped]
  cases hc : s.mapped s.readQ.getch.1 with
  | none =>
    rw [hc] at h
    exact absurd h.symm Bool.false_ne_true
  | some c =>
    rw [hc] at h
    refine cookMapped_echoed (s := { s with readQ := s.readQ.getch.2 }) hecho h fun hresponse => ?_
    obtain ⟨hsome, hlowered⟩ := mapped_response high s hresponse
    obtain rfl := Option.some.inj (hc.symm.trans hsome)
    exact hlowered

/-- A round of `copy_to_cooked` echoes nothing, or it calls the `write` function once. -/
theorem absorbs_or_echoed (high : UInt8 → Bool) (s : Terminal σ) (c : UInt8) :
    (s.termios.ECHO = false ∨ s.absorbs high c = true) ∨
      s.termios.ECHO = true ∧ s.absorbs high c = false := by
  cases s.termios.ECHO <;> cases s.absorbs high c <;> simp

theorem absorbs_congr (htermios : s'.termios = s.termios) (hsecondary : s'.secondary = s.secondary)
    (c : UInt8) : s'.absorbs high c = s.absorbs high c := by
  unfold absorbs absorbsMapped nothingToErase lowered mapped
  rw [htermios, hsecondary]

end Terminal

open Terminal

/-! ### The bound on the depth -/

section Fuel

variable {σ : Type*} {high : UInt8 → Bool} {d : Driver σ} {f g : Terminal σ → Option (Terminal σ)}

/-- What the one function returns, the other one returns too. -/
def Extends (f g : Terminal σ → Option (Terminal σ)) : Prop := ∀ s t, f s = some t → g s = some t

theorem Extends.refl (f : Terminal σ → Option (Terminal σ)) : Extends f f := fun _ _ h => h

theorem cook_extends (h : Extends f g) : Extends (fun s => s.cook high f) fun s =>
    s.cook high g := by
  intro s t ht
  rcases absorbs_or_echoed high s s.readQ.getch.1 with hs | ⟨hecho, hs⟩
  · obtain ⟨s', hs', -⟩ := cook_absorbed hs
    exact (hs' g).trans ((hs' f).symm.trans ht)
  · obtain ⟨l, secondary, k, -, hs'⟩ := cook_echoed hecho hs
    dsimp only at ht ⊢
    rw [hs'] at ht ⊢
    obtain ⟨t', ht', rfl⟩ := Option.map_eq_some_iff.mp ht
    rw [h _ _ ht']
    rfl

theorem copyToCooked_extends (h : Extends f g) {m n : ℕ} (hmn : m ≤ n) :
    Extends (copyToCooked high f m) (copyToCooked high g n) := by
  induction m generalizing n with
  | zero => exact fun s t ht => nomatch ht
  | succ m ih =>
    obtain ⟨n, rfl⟩ := Nat.exists_eq_add_of_le' (Nat.le_of_add_left_le hmn)
    intro s t ht
    rw [copyToCooked] at ht ⊢
    split_ifs at ht ⊢
    · obtain ⟨s', hs', ht⟩ := Option.bind_eq_some_iff.mp ht
      exact Option.bind_eq_some_iff.mpr ⟨s', cook_extends h s s' hs', ih (by omega) s' t ht⟩
    · exact ht

theorem conLoop_extends (h : Extends f g) (nr : ℕ) : Extends (conLoop d f nr) (conLoop d g nr) := by
  induction nr with
  | zero => exact fun s t ht => ht
  | succ nr ih =>
    intro s t ht
    rw [conLoop] at ht ⊢
    dsimp only at ht ⊢
    split_ifs at ht ⊢
    · obtain ⟨s', hs', ht⟩ := Option.bind_eq_some_iff.mp ht
      exact Option.bind_eq_some_iff.mpr ⟨s', h _ s' hs', ih s' t ht⟩
    · exact ih _ t ht

/-- A call that returns also returns with a larger bound. -/
theorem conWrite_extends {m n : ℕ} (hmn : m ≤ n) :
    Extends (conWrite high d m) (conWrite high d n) := by
  induction m generalizing n with
  | zero => exact fun s t ht => nomatch ht
  | succ m ih =>
    obtain ⟨n, rfl⟩ := Nat.exists_eq_add_of_le' (Nat.le_of_add_left_le hmn)
    have hmn : m ≤ n := by omega
    intro s t ht
    exact conLoop_extends (fun s t ht => copyToCooked_extends (ih hmn) hmn _ t ht) _ s t ht

end Fuel

/-! ### Rounds without an echo -/

section Silence

variable {σ : Type*} {high : UInt8 → Bool} {s : Terminal σ}

/-- The loop of `copy_to_cooked` does not call the `write` function. -/
def Terminal.Hushed (high : UInt8 → Bool) (s : Terminal σ) : Prop :=
  s.termios.ECHO = false ∨ s.secondary.full = true ∨ ∀ c ∈ s.readQ.content, s.absorbs high c = true

/-- The loop of `copy_to_cooked` when nothing is echoed. -/
theorem copyToCooked_hushed {n : ℕ} (h : s.Hushed high) (hn : s.readQ.chars < n) :
    ∃ t, (∀ write, copyToCooked high write n s = some t) ∧ t.writeQ = s.writeQ ∧
      t.termios = s.termios ∧ t.screen = s.screen ∧
      (s.termios.ECHO = true → t.secondary = s.secondary ∧
        (s.secondary.full = false → t.readQ.content = [])) := by
  induction n generalizing s with
  | zero => exact absurd hn (Nat.not_lt_zero _)
  | succ n ih =>
    cases hcooking : s.cooking with
    | false =>
      refine ⟨s, fun write => ?_, rfl, rfl, rfl, fun _ => ⟨rfl, fun hfull => ?_⟩⟩
      · rw [copyToCooked, if_neg (hcooking ▸ Bool.false_ne_true)]
      · have hempty : ¬ s.readQ.empty = false := fun hempty =>
          of_decide_eq_false hcooking ⟨hempty, hfull⟩
        exact Queue.empty_iff.mp (Bool.eq_true_of_not_eq_false hempty)
    | true =>
      obtain ⟨hempty, hfull⟩ := of_decide_eq_true hcooking
      have hcontent := Queue.content_getch hempty
      have hsilent : s.termios.ECHO = false ∨ s.absorbs high s.readQ.getch.1 = true := by
        refine h.imp_right fun h => h.resolve_left (hfull ▸ Bool.false_ne_true) _ ?_
        rw [hcontent]
        exact List.mem_cons_self
      obtain ⟨s', hcook, hread, hwrite, htermios, hscreen, hsecondary⟩ := cook_absorbed hsilent
      dsimp only at hread hwrite htermios hscreen hsecondary
      have hchars : s'.readQ.chars < n := by
        have := Queue.chars_getch hempty
        rw [hread]
        omega
      have h' : s'.Hushed high := by
        unfold Hushed
        cases hecho : s.termios.ECHO with
        | false => exact Or.inl (htermios ▸ hecho)
        | true =>
          refine Or.inr (Or.inr fun c hc => ?_)
          rw [absorbs_congr htermios (hsecondary hecho)]
          refine (h.resolve_left (hecho ▸ Bool.noConfusion)).resolve_left
            (hfull ▸ Bool.false_ne_true) c ?_
          rw [hcontent]
          exact List.mem_cons_of_mem _ (hread ▸ hc)
      obtain ⟨t, ht, htwrite, httermios, htscreen, htsecondary⟩ := ih h' hchars
      refine ⟨t, fun write => ?_, htwrite.trans hwrite, httermios.trans htermios,
        htscreen.trans hscreen, fun hecho => ?_⟩
      · rw [copyToCooked, if_pos hcooking, hcook, Option.bind_some, ht]
      · obtain ⟨h₁, h₂⟩ := htsecondary (htermios ▸ hecho)
        have hsec := hsecondary hecho
        exact ⟨h₁.trans hsec, fun hfull => h₂ (hsec ▸ hfull)⟩

end Silence

/-! ### Taking characters from an empty queue -/

section Drained

/-- A character has been taken from the queue while it was empty, or it is empty. -/
def Queue.Drained (q : Queue) : Prop := q.underrun = true ∨ q.empty = true

/-- The queue `q` has been left as it is, or it has been emptied to become `q'`. -/
def Queue.Passed (q q' : Queue) : Prop :=
  q' = q ∨ q'.Drained ∧ (q.underrun = true → q'.underrun = true)

namespace Queue

variable {q q' q'' : Queue}

theorem Passed.trans (h : q.Passed q') (h' : q'.Passed q'') : q.Passed q'' := by
  rcases h' with rfl | ⟨hdrained, h'⟩
  · exact h
  · refine Or.inr ⟨hdrained, fun hq => h' ?_⟩
    rcases h with rfl | ⟨-, h⟩
    · exact hq
    · exact h hq

theorem Passed.drained (h : q.Passed q') (hq : q.Drained) : q'.Drained := by
  rcases h with rfl | ⟨h, -⟩
  · exact hq
  · exact h

theorem Passed.underrun (h : q.Passed q') (hq : q.underrun = true) : q'.underrun = true := by
  rcases h with rfl | ⟨-, h⟩
  · exact hq
  · exact h hq

theorem underrun_putAll (l : List UInt8) (q : Queue) : (q.putAll l).underrun = q.underrun := by
  induction l generalizing q with
  | nil => rfl
  | cons c l ih => exact ih (q.putch c)

theorem underrun_getch (h : q.underrun = true) : q.getch.2.underrun = true := by
  rw [getch, h]
  rfl

theorem Drained.getch (h : q.Drained) : q.getch.2.underrun = true := by
  rcases h with h | h
  · exact underrun_getch h
  · rw [Queue.getch, h]
    exact Bool.or_true _

end Queue

variable {σ : Type*} {high : UInt8 → Bool} {d : Driver σ}
  {write respond : Terminal σ → Option (Terminal σ)}

/-- A function that empties the write queue. -/
def Drains (write : Terminal σ → Option (Terminal σ)) : Prop :=
  ∀ s t, write s = some t →
    t.writeQ.Drained ∧ (s.writeQ.underrun = true → t.writeQ.underrun = true)

theorem cook_passed (hw : Drains write) {s t : Terminal σ} (ht : s.cook high write = some t) :
    s.writeQ.Passed t.writeQ := by
  rcases absorbs_or_echoed high s s.readQ.getch.1 with hs | ⟨hecho, hs⟩
  · obtain ⟨s', hs', hsilent⟩ := cook_absorbed hs
    obtain rfl := Option.some.inj ((hs' write).symm.trans ht)
    exact Or.inl hsilent.writeQ
  · obtain ⟨l, secondary, k, -, hs'⟩ := cook_echoed hecho hs
    rw [hs'] at ht
    obtain ⟨t', ht', rfl⟩ := Option.map_eq_some_iff.mp ht
    obtain ⟨hdrained, hunderrun⟩ := hw _ _ ht'
    rw [Queue.underrun_putAll] at hunderrun
    exact Or.inr ⟨hdrained, hunderrun⟩

theorem copyToCooked_passed (hw : Drains write) {n : ℕ} {s t : Terminal σ}
    (ht : copyToCooked high write n s = some t) : s.writeQ.Passed t.writeQ := by
  induction n generalizing s with
  | zero => exact nomatch ht
  | succ n ih =>
    rw [copyToCooked] at ht
    split_ifs at ht
    · obtain ⟨s', hs', ht⟩ := Option.bind_eq_some_iff.mp ht
      exact (cook_passed hw hs').trans (ih ht)
    · obtain rfl := Option.some.inj ht
      exact Or.inl rfl

/-- When something is echoed, the write queue is emptied. -/
theorem copyToCooked_drained (hw : Drains write) {n : ℕ} {s t : Terminal σ}
    (ht : copyToCooked high write n s = some t) (h : ¬ s.Hushed high) : t.writeQ.Drained := by
  induction n generalizing s with
  | zero => exact nomatch ht
  | succ n ih =>
    obtain ⟨hecho, hfull, c, hc, habsorbs⟩ : s.termios.ECHO = true ∧ s.secondary.full = false ∧
        ∃ c ∈ s.readQ.content, s.absorbs high c = false := by
      unfold Hushed at h
      push Not at h
      simpa using h
    have hempty : s.readQ.empty = false := by
      refine Bool.eq_false_iff.mpr fun hempty => ?_
      rw [Queue.empty_iff.mp hempty] at hc
      exact List.not_mem_nil hc
    have hcooking : s.cooking = true := decide_eq_true ⟨hempty, hfull⟩
    rw [copyToCooked, if_pos hcooking] at ht
    obtain ⟨s', hs', ht⟩ := Option.bind_eq_some_iff.mp ht
    rcases absorbs_or_echoed high s s.readQ.getch.1 with hs | ⟨-, hs⟩
    · obtain ⟨s'', hcook, hsilent⟩ := cook_absorbed hs
      obtain rfl := Option.some.inj ((hcook write).symm.trans hs')
      have hsecondary : s''.secondary = s.secondary := hsilent.secondary hecho
      refine ih ht fun h' => ?_
      have hread : s''.readQ.content = s.readQ.getch.2.content := by rw [hsilent.readQ]
      have hmem : c ∈ s''.readQ.content := by
        rw [Queue.content_getch hempty] at hc
        rcases List.mem_cons.mp hc with rfl | hc
        · rcases hs with hs | hs
          · exact absurd (hs.symm.trans hecho) Bool.false_ne_true
          · exact absurd (habsorbs.symm.trans hs) Bool.false_ne_true
        · rwa [hread]
      rcases h' with h' | h' | h'
      · rw [hsilent.termios] at h'
        exact Bool.false_ne_true (h'.symm.trans hecho)
      · rw [hsecondary, hfull] at h'
        exact Bool.false_ne_true h'
      · have h' := h' c hmem
        rw [absorbs_congr hsilent.termios hsecondary] at h'
        exact Bool.false_ne_true (habsorbs.symm.trans h')
    · obtain ⟨l, secondary, k, -, hcook⟩ := cook_echoed hecho hs
      rw [hcook] at hs'
      obtain ⟨t', ht', rfl⟩ := Option.map_eq_some_iff.mp hs'
      exact (copyToCooked_passed hw ht).drained (hw _ _ ht').1

theorem conLoop_drains (hr : ∀ s t, respond s = some t → s.writeQ.Passed t.writeQ) {nr : ℕ}
    {s t : Terminal σ} (ht : conLoop d respond nr s = some t)
    (h : s.writeQ.Drained ∨ s.writeQ.chars = nr) :
    t.writeQ.Drained ∧ (s.writeQ.underrun = true → t.writeQ.underrun = true) := by
  induction nr generalizing s with
  | zero =>
    obtain rfl := Option.some.inj ht
    refine ⟨h.elim id fun h => Or.inr ?_, id⟩
    rwa [Queue.empty_iff, ← List.length_eq_zero_iff, Queue.length_content]
  | succ nr ih =>
    have hget : s.writeQ.getch.2.Drained ∨ s.writeQ.getch.2.chars = nr := by
      refine h.imp (fun h => Or.inl h.getch) fun h => ?_
      have hempty : s.writeQ.empty = false := by
        refine Bool.eq_false_iff.mpr fun hempty => ?_
        rw [← Queue.length_content, Queue.empty_iff.mp hempty] at h
        exact Nat.succ_ne_zero nr h.symm
      have := Queue.chars_getch hempty
      omega
    rw [conLoop] at ht
    dsimp only at ht
    split_ifs at ht
    · obtain ⟨s', hs', ht⟩ := Option.bind_eq_some_iff.mp ht
      have hpassed := hr _ _ hs'
      obtain ⟨hdrained, hunderrun⟩ := ih ht (by
        rcases hpassed with heq | ⟨hdrained, -⟩
        · rw [heq]
          exact hget
        · exact Or.inl hdrained)
      exact ⟨hdrained, fun h => hunderrun (hpassed.underrun (Queue.underrun_getch h))⟩
    · obtain ⟨hdrained, hunderrun⟩ := ih ht hget
      exact ⟨hdrained, fun h => hunderrun (Queue.underrun_getch h)⟩

/-- A call that returns leaves the queue empty, or has taken a character from an empty queue. -/
theorem conWrite_drains (high : UInt8 → Bool) (d : Driver σ) (n : ℕ) :
    Drains (conWrite high d n) := by
  induction n with
  | zero => exact fun s t ht => nomatch ht
  | succ n ih =>
    intro s t ht
    rw [conWrite] at ht
    refine conLoop_drains (fun s t ht => ?_) ht (Or.inr rfl)
    have hpassed := copyToCooked_passed ih ht
    rwa [putResponse_writeQ] at hpassed

end Drained

end Linux001.Tty
