import Linux001.Tty.Echoes
import Mathlib.Data.List.Perm.Subperm

/-!
# The characters of the write queue of the console

`con_write` counts the characters of the write queue before its loop. The answer to a query `ESC Z`
in the loop may call `con_write` again, which empties the queue, and the rest of the loop then takes
characters from an empty queue. This happens exactly when a query is followed by more characters,
and the terminal echoes something before it goes on.

## Main definitions

* `queries`: the number of queries that are followed by more characters.
* `Terminal.Calm`: no answer calls `con_write` while characters are waiting.
* `ConsumedOnce`: `con_write` takes every character exactly once.

## Main results

* `consumedOnce_iff`: the characters are taken exactly once if and only if the terminal is calm.
-/

namespace Linux001.Tty

open Terminal

section Calm

variable {σ : Type*} {high : UInt8 → Bool} {d : Driver σ} {s s' t : Terminal σ}

/-- The number of queries among the characters that are followed by more characters. -/
def queries (d : Driver σ) (erase : UInt8) : σ → List UInt8 → ℕ
  | _, [] => 0
  | z, c :: l =>
    (if d.asks z c ∧ l ≠ [] then 1 else 0) + queries d erase (d.putc z erase c) l

/-- The number of queries in the write queue that are followed by more characters. -/
def Terminal.queries (d : Driver σ) (s : Terminal σ) : ℕ :=
  Tty.queries d s.termios.eraseChar s.screen s.writeQ.content

/-- What is read after an answer to a query is used up without an echo. -/
def Terminal.Swallows (high : UInt8 → Bool) (s : Terminal σ) : Prop :=
  ∀ c ∈ s.putResponse.readQ.content, s.absorbs high c = true

/-- While characters of the write queue are waiting, no answer to a query is echoed: there is no
echo, or the secondary queue is full, or no query is followed by more characters. Otherwise the read
queue must be so full that the answer overruns it, and what is left in it is used up without an
echo. -/
def Terminal.Calm (high : UInt8 → Bool) (d : Driver σ) (s : Terminal σ) : Prop :=
  s.termios.ECHO = false ∨ s.secondary.full = true ∨
    s.queries d = 0 ∨
    s.queries d = 1 ∧ s.Swallows high

/-- An answer that is read as a whole is not used up without an echo. -/
theorem not_swallows (h : s.readQ.content = []) : ¬ s.Swallows high := by
  intro hall
  have hchars : s.readQ.chars = 0 := by
    rw [← Queue.length_content, h]
    rfl
  have hcontent : (s.readQ.putAll RESPONSE).content = RESPONSE := by
    rw [Queue.content_putAll (by rw [hchars]; decide), h, List.nil_append]
  unfold Swallows at hall
  rw [putResponse_readQ, ← Queue.putAll, hcontent] at hall
  -- An absorbed character is one of the four special characters.
  have hsub : RESPONSE ⊆ [s.termios.eraseChar, s.termios.stopChar, s.termios.startChar,
      s.termios.intrChar] := by
    intro c hc
    obtain ⟨hmapped, hlowered⟩ := mapped_response high s hc
    have habsorbs := hall c hc
    unfold absorbs at habsorbs
    rw [hmapped] at habsorbs
    dsimp only at habsorbs
    rw [hlowered] at habsorbs
    have heq (x : UInt8) (hx : isChar c x = true) : c = x := (of_decide_eq_true hx).2
    unfold absorbsMapped at habsorbs
    simp only [List.mem_cons, List.not_mem_nil, or_false]
    split_ifs at habsorbs with herase
    · exact Or.inl (heq _ herase.2)
    · rcases of_decide_eq_true habsorbs with ⟨-, h | h⟩ | ⟨-, h⟩
      · exact Or.inr (Or.inl (heq _ h))
      · exact Or.inr (Or.inr (Or.inl (heq _ h)))
      · exact Or.inr (Or.inr (Or.inr (heq _ h)))
  have hnodup : RESPONSE.Nodup := by decide
  have hlength := (hnodup.subperm hsub).length_le
  exact absurd hlength (by simp [RESPONSE])

theorem hushed_putResponse : s.putResponse.Hushed high ↔
    s.termios.ECHO = false ∨ s.secondary.full = true ∨ s.Swallows high := by
  unfold Hushed Swallows
  simp only [putResponse_termios, putResponse_secondary,
    absorbs_congr (putResponse_termios s) (putResponse_secondary s)]

theorem swallows_congr (hread : s'.readQ = s.readQ) (htermios : s'.termios = s.termios)
    (hsecondary : s'.secondary = s.secondary) : s'.Swallows high ↔ s.Swallows high := by
  unfold Swallows
  rw [putResponse_readQ, putResponse_readQ, hread]
  simp only [absorbs_congr htermios hsecondary]

theorem conLoop_underrun {respond : Terminal σ → Option (Terminal σ)} {nr : ℕ}
    (hr : ∀ s t, respond s = some t → s.writeQ.Passed t.writeQ)
    (ht : conLoop d respond (nr + 1) s = some t) (h : s.writeQ.Drained) :
    t.writeQ.underrun = true := by
  rw [conLoop] at ht
  dsimp only at ht
  have hget := h.getch
  split_ifs at ht
  · obtain ⟨s', hs', ht⟩ := Option.bind_eq_some_iff.mp ht
    have hs'' := (hr _ _ hs').underrun hget
    exact (conLoop_drains hr ht (Or.inl (Or.inl hs''))).2 hs''
  · exact (conLoop_drains hr ht (Or.inl (Or.inl hget))).2 hget

/-- The terminal after the character `c` has been taken from the write queue. -/
def Terminal.took (d : Driver σ) (c : UInt8) (s : Terminal σ) : Terminal σ :=
  { s with writeQ := s.writeQ.getch.2, screen := d.putc s.screen s.termios.eraseChar c }

theorem conLoop_cons {respond : Terminal σ → Option (Terminal σ)} {nr : ℕ} {c : UInt8}
    {l : List UInt8} (h : s.writeQ.content = c :: l) :
    conLoop d respond (nr + 1) s =
      if d.asks s.screen c then (respond (s.took d c)).bind (conLoop d respond nr)
      else conLoop d respond nr (s.took d c) := by
  obtain ⟨rfl, -⟩ := Queue.getch_cons h
  rfl

theorem content_took {c : UInt8} {l : List UInt8} (h : s.writeQ.content = c :: l) :
    (s.took d c).writeQ.content = l := (Queue.getch_cons h).2

theorem exists_took {nr : ℕ} (hnr : s.writeQ.content.length = nr + 1) : ∃ c l,
    s.writeQ.content = c :: l ∧ (s.took d c).writeQ.content = l ∧
      (s.took d c).writeQ.content.length = nr := by
  obtain ⟨c, l, hcontent⟩ := List.exists_cons_of_length_eq_add_one hnr
  have hcontent' := content_took (d := d) hcontent
  rw [hcontent, List.length_cons, Nat.succ_inj] at hnr
  exact ⟨c, l, hcontent, hcontent', by rw [hcontent', hnr]⟩

theorem queries_took {c : UInt8} {l : List UInt8} (h : s.writeQ.content = c :: l) :
    s.queries d = (if d.asks s.screen c ∧ l ≠ [] then 1 else 0) + (s.took d c).queries d := by
  rw [Terminal.queries, Terminal.queries, h, content_took h]
  rfl

theorem swallows_took (c : UInt8) : (s.took d c).Swallows high ↔ s.Swallows high := by
  unfold took
  exact swallows_congr rfl rfl rfl

/-- The answer to a query. -/
def Terminal.respond (high : UInt8 → Bool) (d : Driver σ) (n : ℕ) (s : Terminal σ) :
    Option (Terminal σ) := copyToCooked high (conWrite high d n) n s.putResponse

theorem respond_passed (n : ℕ) (h : s.respond high d n = some t) : s.writeQ.Passed t.writeQ := by
  have hpassed := copyToCooked_passed (conWrite_drains high d n) h
  rwa [putResponse_writeQ] at hpassed

/-- So many rounds are enough when nothing is echoed. -/
theorem exists_rounds (n : ℕ) : ∃ m, n ≤ m ∧ ∀ q : Queue, q.chars < m :=
  ⟨n + 1024, Nat.le_add_right n 1024, fun _ => Nat.lt_add_left n (Nat.lt_succ_of_le Queue.chars_le)⟩

/-- The loop of `con_write` takes a character from an empty queue if the terminal is not calm. -/
theorem calm_of_conLoop {n nr : ℕ} (hnr : s.writeQ.content.length = nr)
    (ht : conLoop d (respond high d n) nr s = some t) (hunderrun : t.writeQ.underrun = false) :
    s.Calm high d := by
  induction nr generalizing s with
  | zero =>
    refine Or.inr (Or.inr (Or.inl ?_))
    rw [Terminal.queries, List.length_eq_zero_iff.mp hnr]
    rfl
  | succ nr ih =>
    obtain ⟨c, l, hcontent, hcontent', hnr'⟩ := exists_took (d := d) hnr
    rw [conLoop_cons hcontent] at ht
    unfold Calm
    rw [queries_took hcontent]
    by_cases hasks : d.asks s.screen c = true
    · rw [if_pos hasks] at ht
      obtain ⟨s', hs', ht⟩ := Option.bind_eq_some_iff.mp ht
      unfold Terminal.respond at hs'
      by_cases hl : l = []
      · refine Or.inr (Or.inr (Or.inl ?_))
        rw [if_neg fun h => h.2 hl, Terminal.queries, hcontent', hl]
        rfl
      rw [if_pos ⟨hasks, hl⟩]
      -- Without an underrun the answer cannot have been echoed.
      have hhushed : (s.took d c).putResponse.Hushed high := by
        by_contra hnot
        have hdrained : s'.writeQ.Drained :=
          copyToCooked_drained (conWrite_drains high d n) hs' hnot
        rcases nr with _ | nr
        · exact hl (hcontent'.symm.trans (List.length_eq_zero_iff.mp hnr'))
        · have htrue := conLoop_underrun (fun _ _ => respond_passed n) ht hdrained
          exact Bool.false_ne_true (hunderrun.symm.trans htrue)
      obtain ⟨m, hnm, hm⟩ := exists_rounds n
      obtain ⟨s'', hcopy, hwrite, htermios, hscreen, hsecondary⟩ :=
        copyToCooked_hushed hhushed (hm _)
      obtain rfl : s'' = s' := by
        have hs'' := copyToCooked_extends (.refl (conWrite high d n)) hnm _ _ hs'
        exact Option.some.inj ((hcopy (conWrite high d n)).symm.trans hs'')
      rw [putResponse_secondary, putResponse_termios] at hsecondary
      rw [putResponse_termios] at htermios
      rw [putResponse_writeQ] at hwrite
      rw [putResponse_screen] at hscreen
      rcases hushed_putResponse.mp hhushed with h | h | hswallows
      · exact Or.inl h
      · exact Or.inr (Or.inl h)
      rcases Bool.eq_false_or_eq_true s.termios.ECHO with hecho | hecho
      · obtain ⟨hsame, hread⟩ := hsecondary hecho
        have hqueries : s''.queries d = (s.took d c).queries d := by
          rw [Terminal.queries, Terminal.queries, htermios, hscreen, hwrite]
        rcases ih (hwrite ▸ hnr') ht with h | h | h | h
        · exact Or.inl (htermios ▸ h)
        · exact Or.inr (Or.inl (hsame ▸ h))
        · exact Or.inr (Or.inr (Or.inr ⟨by rw [← hqueries, h],
            (swallows_took c).mp hswallows⟩))
        · rcases Bool.eq_false_or_eq_true s.secondary.full with hfull | hfull
          · exact Or.inr (Or.inl hfull)
          · exact absurd h.2 (not_swallows (hread hfull))
      · exact Or.inl hecho
    · rw [if_neg hasks] at ht
      rw [if_neg fun h => hasks h.1, Nat.zero_add]
      have hcalm := ih hnr' ht
      unfold Calm at hcalm
      rwa [swallows_took] at hcalm

/-! ### Nested calls -/

/-- A bound on the rounds of `copy_to_cooked` that the characters can lead to: a character that is
not part of an answer may be echoed as the end of a query. -/
def weight (l : List UInt8) : ℕ := (l.map fun c => if c ∈ RESPONSE then 1 else 9).sum

theorem weight_cons (c : UInt8) (l : List UInt8) :
    weight (c :: l) = (if c ∈ RESPONSE then 1 else 9) + weight l := by
  rw [weight, List.map_cons, List.sum_cons, weight]

theorem weight_putch (q : Queue) {c : UInt8} (hc : c ∈ RESPONSE) :
    weight (q.putch c).content ≤ weight q.content + 1 := by
  rcases Bool.eq_false_or_eq_true q.full with hfull | hfull
  · rw [Queue.content_putch_full hfull]
    exact Nat.zero_le _
  · rw [Queue.content_putch hfull, weight, List.map_append, List.sum_append, ← weight]
    simp [hc]

theorem weight_putAll {l : List UInt8} (q : Queue) (hl : ∀ c ∈ l, c ∈ RESPONSE) :
    weight (q.putAll l).content ≤ weight q.content + l.length := by
  induction l generalizing q with
  | nil => exact le_refl _
  | cons c l ih =>
    have hfirst := weight_putch q (hl c List.mem_cons_self)
    have hrest := ih (q.putch c) fun c hc => hl c (List.mem_cons_of_mem _ hc)
    rw [List.length_cons]
    exact hrest.trans (by omega)

theorem weight_putResponse (s : Terminal σ) :
    weight s.putResponse.readQ.content ≤ weight s.readQ.content + 7 := by
  rw [putResponse_readQ]
  exact weight_putAll s.readQ fun c hc => hc

/-- All characters that are put into the queue have been taken. -/
structure Queue.Consumed (q q' : Queue) : Prop where
  fifo : q'.Fifo
  empty : q'.empty = true
  put : q.put <:+ q'.put

theorem Queue.Consumed.trans {q q' q'' : Queue} (h : q.Consumed q') (h' : q'.Consumed q'') :
    q.Consumed q'' := ⟨h'.fifo, h'.empty, h.put.trans h'.put⟩

/-- The state `t` is what a function makes of `s`. The read queue has not become heavier than by
`n`. -/
structure Finished (n : ℕ) (s t : Terminal σ) : Prop where
  consumed : s.writeQ.Consumed t.writeQ
  weight_le : weight t.readQ.content ≤ weight s.readQ.content + n

/-- The loop of `con_write` for the echo of a character: only the last one can be the end of a
query, and nothing is waiting then. -/
theorem conLoop_echo (hd : ∀ z c, d.asks z c = true → c = 'Z'.toUInt8) {n : ℕ} {l : List UInt8}
    {respond : Terminal σ → Option (Terminal σ)} (hfifo : s.writeQ.Fifo)
    (hcontent : s.writeQ.content = l)
    (hl : ∀ x ∈ l.dropLast, x ≠ 'Z'.toUInt8)
    (hr : 'Z'.toUInt8 ∈ l → ∀ s' : Terminal σ, s'.readQ = s.readQ → s'.writeQ.Fifo →
      s'.writeQ.empty = true → ∃ t, respond s' = some t ∧ Finished n s' t) :
    ∃ t, conLoop d respond l.length s = some t ∧ Finished n s t := by
  induction l generalizing s with
  | nil =>
    exact ⟨s, rfl, ⟨hfifo, Queue.empty_iff.mpr hcontent, List.suffix_refl _⟩, Nat.le_add_right _ _⟩
  | cons c l ih =>
    have hfifo' : (s.took d c).writeQ.Fifo := hfifo.getch (Queue.empty_of_cons hcontent)
    have hcontent' := content_took (d := d) hcontent
    have hread : (s.took d c).readQ = s.readQ := by
      simp only [took]
    have hput : (s.took d c).writeQ.put = s.writeQ.put := by
      simp only [took, Queue.getch]
    have hfinished {t : Terminal σ} (h : Finished n (s.took d c) t) : Finished n s t := by
      refine ⟨⟨h.consumed.fifo, h.consumed.empty, ?_⟩, ?_⟩
      · rw [← hput]
        exact h.consumed.put
      · rw [← hread]
        exact h.weight_le
    rw [List.length_cons, conLoop_cons hcontent]
    by_cases hasks : d.asks s.screen c = true
    · obtain rfl := hd _ _ hasks
      obtain rfl : l = [] := by
        by_contra hne
        refine hl _ ?_ rfl
        rw [List.dropLast_cons_of_ne_nil hne]
        exact List.mem_cons_self
      obtain ⟨t, ht, h⟩ := hr List.mem_cons_self _ hread hfifo' (Queue.empty_iff.mpr hcontent')
      rw [if_pos hasks]
      exact ⟨t, Option.bind_eq_some_iff.mpr ⟨t, ht, rfl⟩, hfinished h⟩
    · rw [if_neg hasks]
      obtain ⟨t, ht, h⟩ := ih hfifo' hcontent'
        (fun x hx => hl x (List.mem_of_mem_tail (by
          cases l with
          | nil => exact absurd hx List.not_mem_nil
          | cons c' l => exact hx)))
        (fun hmem s' hs' => hr (List.mem_cons_of_mem _ hmem) s' (hs'.trans hread))
      exact ⟨t, ht, hfinished h⟩

theorem Finished.trans {m n : ℕ} {s s' t : Terminal σ} (h : Finished m s s')
    (h' : Finished n s' t) :
    Finished (m + n) s t :=
  ⟨h.consumed.trans h'.consumed, h'.weight_le.trans (by have := h.weight_le; omega)⟩

/-- `copy_to_cooked` when no character is waiting in the write queue. -/
theorem copyToCooked_finished (hd : ∀ z c, d.asks z c = true → c = 'Z'.toUInt8) {n k f : ℕ}
    (hweight : weight s.readQ.content < n) (hk : n ≤ k) (hf : n ≤ f) (hfifo : s.writeQ.Fifo)
    (hempty : s.writeQ.empty = true) :
    ∃ t, copyToCooked high (conWrite high d f) k s = some t ∧ Finished 0 s t := by
  induction n using Nat.strong_induction_on generalizing s k f with
  | _ n ih =>
    obtain ⟨k, rfl⟩ := Nat.exists_eq_add_of_le' (Nat.one_le_of_lt (hweight.trans_le hk))
    obtain ⟨f, rfl⟩ := Nat.exists_eq_add_of_le' (Nat.one_le_of_lt (hweight.trans_le hf))
    rw [copyToCooked]
    split_ifs with hcooking
    swap
    · exact ⟨s, rfl, ⟨hfifo, hempty, List.suffix_refl _⟩, le_refl _⟩
    obtain ⟨hread, -⟩ := of_decide_eq_true hcooking
    have hcontent := Queue.content_getch hread
    rw [hcontent, weight_cons] at hweight
    -- What remains to be read is lighter.
    have hnext {s' : Terminal σ} (hs' : Finished 0 s s')
        (hlt : weight s'.readQ.content < n - 1) :
        ∃ t, copyToCooked high (conWrite high d (f + 1)) k s' = some t ∧ Finished 0 s t := by
      have hk : n - 1 ≤ k := by omega
      have hf : n - 1 ≤ f + 1 := by omega
      obtain ⟨t, ht, h⟩ := ih (n - 1) (by omega) hlt hk hf hs'.consumed.fifo hs'.consumed.empty
      exact ⟨t, ht, hs'.trans h⟩
    have hpos : 1 ≤ if s.readQ.getch.1 ∈ RESPONSE then 1 else 9 := by
      split_ifs <;> omega
    rcases absorbs_or_echoed high s s.readQ.getch.1 with hs | ⟨hecho, hs⟩
    · obtain ⟨s', hcook, hsilent⟩ := cook_absorbed hs
      have hread' : s'.readQ = s.readQ.getch.2 := hsilent.readQ
      have hwrite' : s'.writeQ = s.writeQ := hsilent.writeQ
      rw [hcook, Option.bind_some]
      refine hnext ⟨?_, ?_⟩ ?_
      · rw [hwrite']
        exact ⟨hfifo, hempty, List.suffix_refl _⟩
      · rw [hread', hcontent, weight_cons]
        omega
      · rw [hread']
        omega
    · obtain ⟨l, secondary, g, hl, hcook⟩ := cook_echoed hecho hs
      rw [hcook]
      set s₁ : Terminal σ := { s with
        readQ := s.readQ.getch.2, secondary := secondary, writeQ := s.writeQ.putAll l } with hs₁
      have hread₁ : s₁.readQ = s.readQ.getch.2 := rfl
      have hchars : s.writeQ.chars = 0 := by
        rw [← Queue.length_content, Queue.empty_iff.mp hempty]
        rfl
      have hlength := hl.length_le
      have hcontent₁ : s₁.writeQ.content = l := by
        have h := Queue.content_putAll (q := s.writeQ) (l := l) (by omega)
        rwa [Queue.empty_iff.mp hempty, List.nil_append] at h
      have hfifo₁ : s₁.writeQ.Fifo := hfifo.putAll (by omega)
      have hcalled : conWrite high d (f + 1) s₁ = conLoop d (respond high d f) l.length s₁ := by
        rw [conWrite, ← hcontent₁, Queue.length_content]
        rfl
      have hfinished {m : ℕ} {t : Terminal σ} (h : Finished m s₁ t)
          (hm : weight s.readQ.getch.2.content + m < n - 1)
          (hm' : m < if s.readQ.getch.1 ∈ RESPONSE then 1 else 9) :
          ∃ t', (((some t).map fun t => { t with secondary := g t.secondary }).bind
            (copyToCooked high (conWrite high d (f + 1)) k)) = some t' ∧ Finished 0 s t' := by
        have hlight := h.weight_le
        rw [hread₁] at hlight
        rw [Option.map_some, Option.bind_some]
        refine hnext ⟨⟨h.consumed.fifo, h.consumed.empty, ?_⟩, ?_⟩ ?_
        · exact (Queue.put_putAll l s.writeQ).trans h.consumed.put
        · rw [hcontent, weight_cons]
          dsimp only
          omega
        · dsimp only
          omega
      by_cases hquery : 'Z'.toUInt8 ∈ l
      · -- The character is none of an answer, and pays for the next answer.
        have hc : s.readQ.getch.1 ∉ RESPONSE := fun hc => hl.response hc hquery
        rw [if_neg hc] at hweight hfinished
        have hloop : ∃ t, conLoop d (respond high d f) l.length s₁ = some t ∧ Finished 7 s₁ t := by
          refine conLoop_echo hd hfifo₁ hcontent₁ hl.ne_query fun _ s' hs' hfifo' hempty' => ?_
          have hlight := weight_putResponse s'
          rw [hs', hread₁] at hlight
          obtain ⟨t, ht, h⟩ := ih (n - 2) (by omega) (s := s'.putResponse) (k := f) (f := f)
            (by omega) (by omega) (by omega) (by rwa [putResponse_writeQ])
            (by rwa [putResponse_writeQ])
          refine ⟨t, ht, ?_, ?_⟩
          · have hconsumed := h.consumed
            rwa [putResponse_writeQ] at hconsumed
          · exact h.weight_le.trans (weight_putResponse s')
        obtain ⟨t, ht, h⟩ := hloop
        rw [hcalled, ht]
        exact hfinished h (by omega) (by omega)
      · have hloop : ∃ t, conLoop d (respond high d f) l.length s₁ = some t ∧ Finished 0 s₁ t :=
          conLoop_echo hd hfifo₁ hcontent₁ hl.ne_query fun h => absurd h hquery
        obtain ⟨t, ht, h⟩ := hloop
        rw [hcalled, ht]
        exact hfinished h (by omega) (by omega)

/-! ### The queue of a calm terminal -/

theorem calm_took {c : UInt8} {l : List UInt8} (hcontent : s.writeQ.content = c :: l)
    (hasks : ¬ d.asks s.screen c = true) (hcalm : s.Calm high d) : (s.took d c).Calm high d := by
  unfold Calm at hcalm ⊢
  rw [queries_took hcontent, if_neg fun h => hasks h.1, Nat.zero_add, ← swallows_took c] at hcalm
  exact hcalm

/-- A calm terminal answers a query without an echo while characters are waiting, and stays calm. -/
theorem respond_of_calm {n : ℕ} {c : UInt8} {l : List UInt8} (hn : ∀ q : Queue, q.chars < n)
    (hcontent : s.writeQ.content = c :: l) (hasks : d.asks s.screen c = true) (hl : l ≠ [])
    (hcalm : s.Calm high d) :
    ∃ s', (s.took d c).respond high d n = some s' ∧ s'.writeQ = (s.took d c).writeQ ∧
      s'.termios = s.termios ∧ s'.screen = (s.took d c).screen ∧ s'.Calm high d := by
  unfold Calm at hcalm
  rw [queries_took hcontent, if_pos ⟨hasks, hl⟩] at hcalm
  have hhushed : (s.took d c).putResponse.Hushed high := by
    rw [hushed_putResponse, swallows_took]
    rcases hcalm with h | h | h | h
    · exact Or.inl h
    · exact Or.inr (Or.inl h)
    · omega
    · exact Or.inr (Or.inr h.2)
  obtain ⟨s', hcopy, hwrite, htermios, hscreen, hsecondary⟩ := copyToCooked_hushed hhushed (hn _)
  rw [putResponse_secondary, putResponse_termios] at hsecondary
  rw [putResponse_termios] at htermios
  rw [putResponse_writeQ] at hwrite
  rw [putResponse_screen] at hscreen
  have hqueries : s'.queries d = (s.took d c).queries d := by
    rw [Terminal.queries, Terminal.queries, htermios, hscreen, hwrite]
  refine ⟨s', hcopy _, hwrite, htermios, hscreen, ?_⟩
  unfold Calm
  rw [htermios, hqueries]
  rcases hcalm with h | h | h | h
  · exact Or.inl h
  · rcases Bool.eq_false_or_eq_true s.termios.ECHO with hecho | hecho
    · rw [(hsecondary hecho).1]
      exact Or.inr (Or.inl h)
    · exact Or.inl hecho
  · omega
  · exact Or.inr (Or.inr (Or.inl (by omega)))

/-- The loop of `con_write` takes every character exactly once if the terminal is calm. -/
theorem conLoop_of_calm (hd : ∀ z c, d.asks z c = true → c = 'Z'.toUInt8) {n nr : ℕ}
    (hn : ∀ q : Queue, q.chars < n ∧ weight q.content < n) (hnr : s.writeQ.content.length = nr)
    (hfifo : s.writeQ.Fifo) (hcalm : s.Calm high d) :
    ∃ t, conLoop d (respond high d n) nr s = some t ∧ s.writeQ.Consumed t.writeQ := by
  induction nr generalizing s with
  | zero =>
    have hempty := Queue.empty_iff.mpr (List.length_eq_zero_iff.mp hnr)
    exact ⟨s, rfl, hfifo, hempty, List.suffix_refl _⟩
  | succ nr ih =>
    obtain ⟨c, l, hcontent, hcontent', hnr'⟩ := exists_took (d := d) hnr
    have hfifo' : (s.took d c).writeQ.Fifo := hfifo.getch (Queue.empty_of_cons hcontent)
    have hput : (s.took d c).writeQ.put = s.writeQ.put := by
      simp only [took, Queue.getch]
    have hconsumed {q : Queue} (h : (s.took d c).writeQ.Consumed q) : s.writeQ.Consumed q :=
      ⟨h.fifo, h.empty, hput ▸ h.put⟩
    rw [conLoop_cons hcontent]
    by_cases hasks : d.asks s.screen c = true
    swap
    · rw [if_neg hasks]
      obtain ⟨t, ht, h⟩ := ih hnr' hfifo' (calm_took hcontent hasks hcalm)
      exact ⟨t, ht, hconsumed h⟩
    rw [if_pos hasks]
    by_cases hl : l = []
    · -- Nothing is waiting.
      obtain rfl : nr = 0 := by rw [← hnr', hcontent', hl, List.length_nil]
      have hempty : (s.took d c).writeQ.empty = true :=
        Queue.empty_iff.mpr (hcontent'.trans hl)
      have hanswer : ∃ t, (s.took d c).respond high d n = some t ∧
          Finished 0 (s.took d c).putResponse t :=
        copyToCooked_finished hd (hn _).2 (le_refl n) (le_refl n) (by rwa [putResponse_writeQ])
          (by rwa [putResponse_writeQ])
      obtain ⟨t, ht, h⟩ := hanswer
      have h := h.consumed
      rw [putResponse_writeQ] at h
      exact ⟨t, Option.bind_eq_some_iff.mpr ⟨t, ht, rfl⟩, hconsumed h⟩
    · obtain ⟨s', hanswer, hwrite, -, -, hcalm'⟩ :=
        respond_of_calm (fun q => (hn q).1) hcontent hasks hl hcalm
      obtain ⟨t, ht, h⟩ := ih (by rw [hwrite, hnr']) (hwrite ▸ hfifo') hcalm'
      rw [hwrite] at h
      exact ⟨t, Option.bind_eq_some_iff.mpr ⟨s', hanswer, ht⟩, hconsumed h⟩

theorem weight_le (l : List UInt8) : weight l ≤ 9 * l.length := by
  induction l with
  | nil => exact le_refl _
  | cons c l ih =>
    rw [weight_cons, List.length_cons]
    split_ifs <;> omega

/-- `con_write` returns, takes every character that has been put into the write queue exactly once
and in order, does not take a character from an empty queue, and leaves the queue empty. -/
def ConsumedOnce (high : UInt8 → Bool) (d : Driver σ) (s : Terminal σ) : Prop :=
  ∃ t, (∃ n, ∀ fuel ≥ n, conWrite high d fuel s = some t) ∧
    t.writeQ.underrun = false ∧ t.writeQ.overrun = false ∧ t.writeQ.empty = true ∧
    t.writeQ.taken = t.writeQ.put ∧ s.writeQ.put <:+ t.writeQ.put

theorem consumedOnce_of_calm (hd : ∀ z c, d.asks z c = true → c = 'Z'.toUInt8) (h : s.writeQ.Fifo)
    (hcalm : s.Calm high d) : ConsumedOnce high d s := by
  obtain ⟨n, hn⟩ : ∃ n, ∀ q : Queue, q.chars < n ∧ weight q.content < n := by
    refine ⟨9 * 1023 + 1, fun q => ?_⟩
    have hle := weight_le q.content
    have hchars := q.chars_le
    rw [Queue.length_content] at hle
    omega
  obtain ⟨t, ht, hconsumed⟩ := conLoop_of_calm hd hn Queue.length_content h hcalm
  have hreturns : conWrite high d (n + 1) s = some t := ht
  exact ⟨t, ⟨n + 1, fun fuel hfuel => conWrite_extends hfuel s t hreturns⟩,
    hconsumed.fifo.underrun, hconsumed.fifo.overrun, hconsumed.empty,
    hconsumed.fifo.taken_eq hconsumed.empty, hconsumed.put⟩

theorem calm_of_consumedOnce (h : ConsumedOnce high d s) : s.Calm high d := by
  obtain ⟨t, ⟨n, hn⟩, hunderrun, -⟩ := h
  have ht := hn (n + 1) (Nat.le_succ n)
  rw [conWrite] at ht
  exact calm_of_conLoop Queue.length_content ht hunderrun

end Calm

/-- `con_write` takes the characters of the write queue exactly once if and only if the terminal is
calm. -/
theorem consumedOnce_iff {high : UInt8 → Bool} {s : Terminal Console} (h : s.writeQ.Fifo) :
    ConsumedOnce high console s ↔ s.Calm high console :=
  ⟨calm_of_consumedOnce, consumedOnce_of_calm (fun _ _ h => (of_decide_eq_true h).2) h⟩

/-- A terminal with echo, and with `ESC Z a` in its write queue. -/
def asking : Terminal Console where
  termios := ⟨0, 0, 0o10, fun _ => 0⟩
  pgrp := 0
  stopped := false
  readQ := ⟨0, 0, 0, fun _ => 0, [], [], false, false⟩
  writeQ := ⟨0, 3, 0, fun i => if i = 0 then 27 else if i = 1 then 90 else 97,
    [97, 90, 27], [], false,
    false⟩
  secondary := ⟨0, 0, 0, fun _ => 0, [], [], false, false⟩
  signalled := []
  screen := Console.boot fun _ => 0

theorem fifo_asking : asking.writeQ.Fifo := ⟨rfl, rfl, by decide⟩

theorem not_calm_asking (high : UInt8 → Bool) : ¬ asking.Calm high console := by
  rintro (h | h | h | ⟨-, h⟩)
  · exact absurd h (by decide)
  · exact absurd h (by decide)
  · exact absurd h (by decide)
  · exact not_swallows (by decide) h

theorem consumedOnce_iff_asking :
    ConsumedOnce (fun _ => false) console asking ↔ asking.Calm (fun _ => false) console :=
  consumedOnce_iff fifo_asking

/-- The character after the query is taken by the nested call, and the loop goes on with the empty
queue. -/
theorem not_consumedOnce : ¬ ∀ (high : UInt8 → Bool) (s : Terminal Console), s.writeQ.Fifo →
    ConsumedOnce high console s := fun h =>
  not_calm_asking (fun _ => false) (calm_of_consumedOnce (h _ _ fifo_asking))

end Linux001.Tty
