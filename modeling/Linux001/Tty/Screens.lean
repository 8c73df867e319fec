import Linux001.Tty.Scrolling
import Linux001.Tty.Cooked
import Mathlib.Data.Option.Basic

/-!
# The screen of the console during `con_write`

`con_write` uses the screen only through what it does with characters. So a relation between screens
that every character keeps is kept by whole calls, with the queues staying equal.

## Main definitions

* `Terminal.Rel`: terminals with related screens that are otherwise equal.
* `Driven`: the states that a console goes through.

## Main results

* `conWrite_rel`: calls keep the relation.
* `cursor_inv`: the cursor and the window after any characters.
* `scrolling_invisible`: consoles that look the same still do after `con_write`.
-/

namespace Linux001.Tty

namespace Terminal

variable {σ : Type*}

/-- The screens are related, and the rest is equal. -/
structure Rel (R : σ → σ → Prop) (s t : Terminal σ) : Prop where
  rest : t = { s with screen := t.screen }
  screen : R s.screen t.screen

variable {R : σ → σ → Prop} {s t : Terminal σ}

theorem Rel.exists_eq (h : Rel R s t) : ∃ z, t = { s with screen := z } := ⟨_, h.rest⟩

/-- The queues are changed in the same way. -/
theorem Rel.set (h : Rel R s t) (readQ writeQ secondary : Queue) (stopped : Bool)
    (signalled : List ℤ) :
    Rel R
      { s with
        readQ := readQ, writeQ := writeQ, secondary := secondary, stopped := stopped
        signalled := signalled }
      { t with
        readQ := readQ, writeQ := writeQ, secondary := secondary, stopped := stopped
        signalled := signalled } where
  rest := by rw [h.rest]
  screen := h.screen

end Terminal

open Terminal

section Calls

variable {σ : Type*} {R : σ → σ → Prop} {s t : Terminal σ} {high : UInt8 → Bool}
  {write : Terminal σ → Option (Terminal σ)}

/-- A function that keeps the relation. -/
def Keeps (R : σ → σ → Prop) (f : Terminal σ → Option (Terminal σ)) : Prop :=
  ∀ s t, Rel R s t → Option.Rel (Rel R) (f s) (f t)

theorem rel_map {f : Terminal σ → Terminal σ} (hf : ∀ s t, Rel R s t → Rel R (f s) (f t))
    {x y : Option (Terminal σ)} (h : Option.Rel (Rel R) x y) :
    Option.Rel (Rel R) (x.map f) (y.map f) := by
  cases h with
  | some h => exact .some (hf _ _ h)
  | none => exact .none

theorem rel_bind {f : Terminal σ → Option (Terminal σ)} (hf : Keeps R f)
    {x y : Option (Terminal σ)} (h : Option.Rel (Rel R) x y) :
    Option.Rel (Rel R) (x.bind f) (y.bind f) := by
  cases h with
  | some h => exact hf _ _ h
  | none => exact .none

/-- A function that does not look at the screen. -/
def Blind (f : Terminal σ → Terminal σ) : Prop :=
  ∀ s z, f { s with screen := z } = { f s with screen := z } ∧ (f s).screen = s.screen

theorem Blind.rel {f : Terminal σ → Terminal σ} (hf : Blind f) (h : Rel R s t) :
    Rel R (f s) (f t) := by
  obtain ⟨z, rfl⟩ := h.exists_eq
  refine ⟨?_, ?_⟩
  · rw [(hf s z).1]
  · rw [(hf s z).1, (hf s z).2]
    exact h.screen

theorem blind_echo (c : UInt8) : Blind (σ := σ) fun s => s.echo c := by
  intro s z
  unfold echo
  dsimp only
  split_ifs <;> exact ⟨rfl, rfl⟩

theorem blind_echoErase (c : UInt8) : Blind (σ := σ) fun s => s.echoErase c := by
  intro s z
  unfold echoErase
  dsimp only
  split_ifs <;> exact ⟨rfl, rfl⟩

theorem echoed_rel (hw : Keeps R write) {echo : Terminal σ → Terminal σ} (hecho : Blind echo) :
    Keeps R fun s => s.echoed write echo := by
  intro s t h
  have hr := hecho.rel h
  have htermios : t.termios = s.termios := by rw [h.rest]
  change Option.Rel (Rel R) (s.echoed write echo) (t.echoed write echo)
  unfold echoed
  rw [htermios]
  split_ifs
  · exact hw _ _ hr
  · exact .some h

theorem erase_rel (hw : Keeps R write) : Keeps R fun s => s.erase write := by
  intro s t h
  have he := echoed_rel hw (blind_echoErase s.secondary.last) s t h
  obtain ⟨z, rfl⟩ := h.exists_eq
  unfold erase
  dsimp only at he ⊢
  split_ifs
  · exact .some h
  · refine rel_map (fun s t h => ?_) he
    obtain ⟨z, rfl⟩ := h.exists_eq
    exact h.set _ _ _ _ _

theorem accept_rel (hw : Keeps R write) (c : UInt8) : Keeps R fun s => s.accept write c := by
  intro s t h
  have hput (s t : Terminal σ) (h : Rel R s t) :
      Rel R { s with secondary := s.secondary.putch c }
        { t with secondary := t.secondary.putch c } := by
    obtain ⟨z, rfl⟩ := h.exists_eq
    exact h.set _ _ _ _ _
  obtain ⟨z, rfl⟩ := h.exists_eq
  unfold accept
  dsimp only
  split_ifs
  · exact rel_map hput (echoed_rel hw (blind_echo c) _ _ (h.set _ _ _ _ _))
  · exact rel_map hput (echoed_rel hw (blind_echo c) _ _ h)

theorem cookMapped_rel (hw : Keeps R write) (c : UInt8) :
    Keeps R fun s => s.cookMapped write c := by
  intro s t h
  have herase := erase_rel hw s t h
  have haccept := accept_rel hw c s t h
  obtain ⟨z, rfl⟩ := h.exists_eq
  unfold cookMapped
  dsimp only at herase haccept ⊢
  split_ifs
  · exact herase
  · exact .some (h.set _ _ _ _ _)
  · exact .some (h.set _ _ _ _ _)
  · refine .some ?_
    unfold intr
    dsimp only
    split_ifs
    · exact h
    · exact h.set _ _ _ _ _
  · exact haccept

theorem cook_rel (hw : Keeps R write) : Keeps R fun s => s.cook high write := by
  intro s t h
  obtain ⟨z, rfl⟩ := h.exists_eq
  have hget : Rel R { s with readQ := s.readQ.getch.2 }
      { s with readQ := s.readQ.getch.2, screen := z } := h.set _ _ _ _ _
  have hmapped : ({ s with readQ := s.readQ.getch.2, screen := z } : Terminal σ).mapped =
      ({ s with readQ := s.readQ.getch.2 } : Terminal σ).mapped := rfl
  unfold cook
  dsimp only
  rw [hmapped]
  split
  · exact .some hget
  · exact cookMapped_rel hw _ _ _ hget

theorem copyToCooked_rel (hw : Keeps R write) (fuel : ℕ) :
    Keeps R (copyToCooked high write fuel) := by
  induction fuel with
  | zero => exact fun _ _ _ => .none
  | succ fuel ih =>
    intro s t h
    have hcook : Option.Rel (Rel R) (s.cook high write) (t.cook high write) := cook_rel hw s t h
    obtain ⟨z, rfl⟩ := h.exists_eq
    rw [copyToCooked, copyToCooked, show
      ({ s with screen := z } : Terminal σ).cooking = s.cooking from rfl]
    split_ifs
    · exact rel_bind ih hcook
    · exact .some h

variable {d : Driver σ}

theorem conLoop_rel (hputc : ∀ s t e c, R s t → R (d.putc s e c) (d.putc t e c))
    (hasks : ∀ s t c, R s t → d.asks t c = d.asks s c) {respond : Terminal σ → Option (Terminal σ)}
    (hr : Keeps R respond) (nr : ℕ) : Keeps R (conLoop d respond nr) := by
  induction nr with
  | zero => exact fun _ _ h => .some h
  | succ nr ih =>
    intro s t h
    obtain ⟨z, rfl⟩ := h.exists_eq
    have hget : Rel R
        { s with
          writeQ := s.writeQ.getch.2
          screen := d.putc s.screen s.termios.eraseChar s.writeQ.getch.1 }
        { s with
          writeQ := s.writeQ.getch.2
          screen := d.putc z s.termios.eraseChar s.writeQ.getch.1 } :=
      ⟨rfl, hputc _ _ _ _ h.screen⟩
    rw [conLoop, conLoop]
    dsimp only
    rw [hasks _ _ _ h.screen]
    split_ifs
    · exact rel_bind ih (hr _ _ hget)
    · exact ih _ _ hget

/-- A relation between screens that every character keeps is kept by `con_write`. -/
theorem conWrite_rel (hputc : ∀ s t e c, R s t → R (d.putc s e c) (d.putc t e c))
    (hasks : ∀ s t c, R s t → d.asks t c = d.asks s c) (fuel : ℕ) :
    Keeps R (conWrite high d fuel) := by
  induction fuel with
  | zero => exact fun _ _ _ => .none
  | succ fuel ih =>
    intro s t h
    rw [conWrite, conWrite, show t.writeQ = s.writeQ by rw [h.rest]]
    refine conLoop_rel hputc hasks (fun s t h => copyToCooked_rel ih fuel _ _ ?_) _ s t h
    obtain ⟨z, rfl⟩ := h.exists_eq
    rw [putResponse_eq, putResponse_eq]
    exact h.set _ _ _ _ _

end Calls

/-! ### The console -/

/-- The states that a console goes through from the state `s₀` on while characters are written. -/
inductive Driven (s₀ : Console) : Console → Prop
  | start : Driven s₀ s₀
  | putc {s : Console} (h : Driven s₀ s) (erase c : UInt8) : Driven s₀ (s.putc erase c)

/-- The cursor is moved in `con_init`. -/
theorem Console.inv_gotoxy (byte : ℕ → UInt8) {x y : ℕ} (hx : x < columns) (hy : y < lines) :
    Console.Inv ((Console.boot byte).gotoxy x y) := by
  have hx' : x < 80 := hx
  have hy' : y < 25 := hy
  unfold Console.gotoxy
  rw [if_neg (not_or.mpr ⟨Nat.not_le_of_lt hx, Nat.not_le_of_lt hy⟩)]
  exact {
    x_le := hx.le
    y_lt := hy
    top_lt := Nat.zero_lt_succ 24
    bottom_le := le_refl lines
    npar_lt := Nat.zero_lt_succ 15
    scrEnd_eq := congrArg (SCREEN_START + ·) (Nat.mul_comm (lines * columns) 2)
    start_le := le_refl SCREEN_START
    le_end := by
      have hends : SCREEN_START + lines * columns * 2 ≤ SCREEN_END := by decide
      exact hends
    pos_eq := by
      have horigin : (Console.boot byte).origin = 753664 := rfl
      have hcolumns : columns = 80 := rfl
      dsimp only
      rw [horigin, hcolumns]
      exact u32_eq (by omega) (by omega)
    savedX_le := Nat.zero_le columns
    savedY_lt := Nat.zero_lt_succ 24
    stores := fun a ha => absurd ha List.not_mem_nil }

theorem Driven.inv {s₀ s : Console} (h : Driven s₀ s) (h₀ : s₀.Inv) : s.Inv := by
  induction h with
  | start => exact h₀
  | putc h erase c ih => exact ih.putc erase c

/-- `con_write` leads to another state that the console goes through. -/
theorem conWrite_driven {high : UInt8 → Bool} {s₀ : Console} {fuel : ℕ} {s t : Terminal Console}
    (hs : Driven s₀ s.screen) (ht : conWrite high console fuel s = some t) :
    Driven s₀ t.screen := by
  have hkeeps : Keeps (fun s t => Driven s₀ s ∧ t = s) (conWrite high console fuel) :=
    conWrite_rel (fun s t e c h => ⟨h.1.putc e c, by rw [h.2]⟩) (fun s t c h => by rw [h.2]) fuel
  have h := hkeeps s s ⟨rfl, hs, rfl⟩
  rw [ht] at h
  cases h with
  | some h => exact h.screen.1

/-- Once `con_init` has moved the cursor, the invariant holds whatever characters the console is
given, and whatever `con_write` is called with leads to another such state. -/
theorem cursor_inv (byte : ℕ → UInt8) {x y : ℕ} (hx : x < columns) (hy : y < lines) {s : Console}
    (hs : Driven ((Console.boot byte).gotoxy x y) s) :
    s.Inv ∧ ∀ high fuel (t t' : Terminal Console), t.screen = s →
      conWrite high console fuel t = some t' →
        Driven ((Console.boot byte).gotoxy x y) t'.screen ∧ t'.screen.Inv := by
  have h₀ := Console.inv_gotoxy byte hx hy
  refine ⟨hs.inv h₀, fun high fuel t t' ht hwrite => ?_⟩
  subst ht
  have hs' := conWrite_driven hs hwrite
  exact ⟨hs', hs'.inv h₀⟩

theorem cursor_inv_wrap : ((Console.boot fun _ => 0).gotoxy 79 24 |>.putc 127 65).Inv :=
  (cursor_inv (fun _ => 0) (by decide) (by decide) (Driven.start.putc 127 65)).1

/-- Terminals whose consoles look the same behave in the same way, and the consoles still look the
same. Moving the window looks the same as copying the lines. -/
theorem scrolling_invisible {s t : Terminal Console} (h : Rel Console.Same s t)
    (high : UInt8 → Bool) (fuel : ℕ) :
    Option.Rel (Rel Console.Same) (conWrite high console fuel s) (conWrite high console fuel t) ∧
    ∀ s : Console, s.Inv → s.top = 0 → s.bottom = lines →
      Console.Same s.scrup s.copyLines ∧
        ∀ b < 2 * lines * columns, s.scrup.shown b = scrolledUp 0 lines s.shown b := by
  refine ⟨conWrite_rel (fun s t e c h => h.putc e c) (fun s t c h => h.asks c) fuel s t h,
    fun s hs htop hbottom => ?_⟩
  have hwindow := hs.scrup_window htop hbottom
  have hcopy := hs.copyLines
  rw [htop, hbottom] at hcopy
  exact ⟨(Console.Same.refl hs).redrawn hwindow hcopy fun b _ => rfl, hwindow.shows⟩

/-- A blank screen with the cursor on the last line, and with the window moved by `n` lines. -/
def bottomLine (n : ℕ) : Terminal Console where
  termios := ⟨0, 0, 0, fun _ => 0⟩
  pgrp := 0
  stopped := false
  readQ := ⟨0, 0, 0, fun _ => 0, [], [], false, false⟩
  writeQ := ⟨0, 2, 0, fun _ => 10, [10, 10], [], false, false⟩
  secondary := ⟨0, 0, 0, fun _ => 0, [], [], false, false⟩
  signalled := []
  screen := { Console.boot fun _ => 32 with
    y := 24
    origin := SCREEN_START + 160 * n
    scrEnd := SCREEN_START + 160 * n + 2 * lines * columns
    pos := SCREEN_START + 160 * n + 2 * (24 * columns + 0) }

theorem inv_bottomLine {n : ℕ} (hn : n ≤ 179) : (bottomLine n).screen.Inv where
  x_le := Nat.zero_le columns
  y_lt := Nat.lt_succ_self 24
  top_lt := Nat.zero_lt_succ 24
  bottom_le := le_refl lines
  npar_lt := Nat.zero_lt_succ 15
  scrEnd_eq := rfl
  start_le := Nat.le_add_right SCREEN_START (160 * n)
  le_end := by
    have hlast : SCREEN_START + 160 * n + 2 * lines * columns ≤ SCREEN_END := by
      rw [show SCREEN_START = 753664 from rfl, show SCREEN_END = 786432 from rfl,
        show 2 * lines * columns = 4000 from rfl]
      omega
    exact hlast
  pos_eq := rfl
  savedX_le := Nat.zero_le columns
  savedY_lt := Nat.zero_lt_succ 24
  stores a ha := absurd ha List.not_mem_nil

theorem scrolling_invisible_bottomLine :
    Option.Rel (Rel Console.Same) (conWrite (fun _ => false) console 1 (bottomLine 0))
      (conWrite (fun _ => false) console 1 (bottomLine 179)) :=
  (scrolling_invisible (s := bottomLine 0) (t := bottomLine 179)
    ⟨rfl, rfl, inv_bottomLine (by decide), inv_bottomLine (by decide), fun _ _ => rfl⟩
    (fun _ => false) 1).1

end Linux001.Tty
