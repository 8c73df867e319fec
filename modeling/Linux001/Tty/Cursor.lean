import Linux001.Tty.Console

/-!
# The cursor and the window

What holds of the variables of the console driver after every character: the cursor is on the screen
or right after the last column, `pos` is its address, the window lies in the video memory, and
nothing else has been stored to. What an operation does to the screen is a function on the bytes
that the window shows, which does not depend on where the window is.

## Main definitions

* `Console.Inv`: the invariant.
* `Console.shown`, `Console.Redrawn`: what the window shows, and how an operation changes it.
* `scrolledUp`, `scrolledDown`, `inserted`, `deleted`, `erasedFrom`: the changes.

## Main results

* `Console.Inv.scrup`, `Console.Inv.scrdown`, …: the operations change the screen accordingly.
  Moving the window has the effect of copying the lines.
-/

namespace Linux001.Tty

/-! ### The loops over a line -/

namespace Video

variable {v v' : Video} {lo hi : ℕ} {f : ℕ → UInt8}

/-- `insert_char` moves the words up by one. -/
theorem wrote_insertLoop (n p : ℕ) (old : Word) (v : Video) :
    v.Wrote p (p + 2 * n)
      (fun a => if a = p then old.1 else if a = p + 1 then old.2 else v.byte (a - 2))
      (insertLoop n p old v) := by
  induction n generalizing p old v with
  | zero => exact .refl v p _
  | succ n ih =>
    have hstore := wrote_store16 v p old
    refine Wrote.append (Nat.le_add_right p 2) (by omega) (hstore.congr fun a h h' => ?_) ?_
    · split_ifs <;> first | rfl | omega
    · have h := (ih (p + 2) (v.word p) (v.store16 p old)).congr (g := fun a =>
          if a = p then old.1 else if a = p + 1 then old.2 else v.byte (a - 2)) fun a h _ => by
        rw [if_neg (by omega : a ≠ p), if_neg (by omega : a ≠ p + 1)]
        split_ifs with h₀ h₁
        · rw [h₀, Nat.add_sub_cancel]
          rfl
        · rw [h₁, show p + 2 + 1 - 2 = p + 1 by omega]
          rfl
        · rw [hstore.byte, if_neg (by omega)]
      rwa [show p + 2 + 2 * n = p + 2 * (n + 1) by omega] at h

/-- `delete_char` moves the words down by one. -/
theorem wrote_deleteLoop (n p : ℕ) (v : Video) :
    v.Wrote p (p + 2 * (n + 1))
      (fun a => if a < p + 2 * n then v.byte (a + 2) else blank (a - (p + 2 * n)))
      (deleteLoop n p v) := by
  induction n generalizing p v with
  | zero =>
    refine (wrote_erase v p).congr fun a h h' => ?_
    rw [if_neg (by omega)]
    rfl
  | succ n ih =>
    have hstore := wrote_store16 v p (v.word (p + 2))
    refine Wrote.append (Nat.le_add_right p 2) (by omega) (hstore.congr fun a h h' => ?_) ?_
    · rw [if_pos (by omega : a < p + 2 * (n + 1))]
      split_ifs with ha
      · rw [ha]
        rfl
      · rw [show a = p + 1 by omega]
        rfl
    · have h := (ih (p + 2) (v.store16 p (v.word (p + 2)))).congr (g := fun a =>
          if a < p + 2 * (n + 1) then v.byte (a + 2) else blank (a - (p + 2 * (n + 1))))
          fun a h _ => by
        rw [show p + 2 + 2 * n = p + 2 * (n + 1) by omega]
        split_ifs
        · rw [hstore.byte, if_neg (by omega)]
        · rfl
      rwa [show p + 2 + 2 * (n + 1) = p + 2 * (n + 1 + 1) by omega] at h

end Video

theorem u32_eq {n : ℤ} {m : ℕ} (h : n = m) (hm : m < 4294967296) : u32 n = m := by
  unfold u32
  omega

namespace Console

/-- The invariant. -/
structure Inv (s : Console) : Prop where
  x_le : s.x ≤ columns
  y_lt : s.y < lines
  top_lt : s.top < s.bottom
  bottom_le : s.bottom ≤ lines
  npar_lt : s.npar < NPAR
  scrEnd_eq : s.scrEnd = s.origin + 2 * lines * columns
  start_le : SCREEN_START ≤ s.origin
  le_end : s.scrEnd ≤ SCREEN_END
  pos_eq : s.pos = s.origin + 2 * (s.y * columns + s.x)
  savedX_le : s.savedX ≤ columns
  savedY_lt : s.savedY < lines
  stores : ∀ a ∈ s.video.stores, SCREEN_START ≤ a ∧ a < SCREEN_END

/-- The bytes that the window shows. -/
def shown (s : Console) (b : ℕ) : UInt8 := s.video.byte (s.origin + b)

/-- The screen shows the bytes `g`. Apart from the place of the window nothing else has changed. -/
structure Redrawn (s : Console) (g : ℕ → UInt8) (s' : Console) : Prop where
  rest : s' = { s with
    video := s'.video, origin := s'.origin, scrEnd := s'.scrEnd, pos := s'.pos }
  scrEnd_eq : s'.scrEnd = s'.origin + 2 * lines * columns
  start_le : SCREEN_START ≤ s'.origin
  le_end : s'.scrEnd ≤ SCREEN_END
  pos_eq : s'.pos = s'.origin + 2 * (s.y * columns + s.x)
  shows : ∀ b < 2 * lines * columns, s'.shown b = g b
  stores : ∀ a ∈ s'.video.stores, SCREEN_START ≤ a ∧ a < SCREEN_END

end Console

/-! ### Changes of the screen -/

/-- The lines from `top` to `bottom` move up by one, and the last one becomes blank. -/
def scrolledUp (top bottom : ℕ) (g : ℕ → UInt8) (b : ℕ) : UInt8 :=
  if 160 * top ≤ b ∧ b < 160 * bottom then
    if b < 160 * (bottom - 1) then g (b + 160) else blank b
  else g b

/-- The lines from `top` to `bottom` move down by one, and the first one becomes blank. -/
def scrolledDown (top bottom : ℕ) (g : ℕ → UInt8) (b : ℕ) : UInt8 :=
  if 160 * top ≤ b ∧ b < 160 * bottom then
    if 160 * (top + 1) ≤ b then g (b - 160) else blank b
  else g b

/-- The bytes from `lo` to `hi` become blank. -/
def erasedFrom (lo hi : ℕ) (g : ℕ → UInt8) (b : ℕ) : UInt8 :=
  if lo ≤ b ∧ b < hi then blank b else g b

/-- The bytes from `lo` to `hi` move up by a word, and the first one becomes blank. -/
def inserted (lo hi : ℕ) (g : ℕ → UInt8) (b : ℕ) : UInt8 :=
  if lo ≤ b ∧ b < hi then if lo + 2 ≤ b then g (b - 2) else blank b else g b

/-- The bytes from `lo` to `hi` move down by a word, and the last one becomes blank. -/
def deleted (lo hi : ℕ) (g : ℕ → UInt8) (b : ℕ) : UInt8 :=
  if lo ≤ b ∧ b < hi then if b + 2 < hi then g (b + 2) else blank b else g b

/-- A word is stored at `p`. -/
def printed (p : ℕ) (w : Word) (g : ℕ → UInt8) (b : ℕ) : UInt8 :=
  if p ≤ b ∧ b < p + 2 then if b = p then w.1 else w.2 else g b

theorem scrolledUp_full (g : ℕ → UInt8) {b : ℕ} (hb : b < 4000) :
    scrolledUp 0 lines g b = if b < 3840 then g (b + 160) else blank b :=
  if_pos ⟨Nat.zero_le b, hb⟩

theorem blank_congr {k l : ℕ} (h : k % 2 = l % 2) : blank k = blank l := by
  unfold blank
  rw [h]

namespace Console

variable {s s' : Console} {g : ℕ → UInt8}

theorem Redrawn.inv (hr : s.Redrawn g s') (h : Inv s) : Inv s' := by
  obtain ⟨hrest, hend, hstart, hfits, hpos, -, hstores⟩ := hr
  rw [hrest]
  exact ⟨h.x_le, h.y_lt, h.top_lt, h.bottom_le, h.npar_lt, hend, hstart, hfits, hpos, h.savedX_le,
    h.savedY_lt, hstores⟩

namespace Inv

/-- The numbers of the invariant. -/
theorem numbers (h : Inv s) : s.x ≤ 80 ∧ s.y < 25 ∧ s.top < s.bottom ∧ s.bottom ≤ 25 ∧
    s.scrEnd = s.origin + 4000 ∧ 753664 ≤ s.origin ∧ s.origin + 4000 ≤ 786432 ∧
    s.pos = s.origin + 2 * (s.y * 80 + s.x) :=
  ⟨h.x_le, h.y_lt, h.top_lt, h.bottom_le, h.scrEnd_eq, h.start_le, h.scrEnd_eq ▸ h.le_end, h.pos_eq⟩

/-- The window moves to `origin`, and some stores are made. -/
theorem moved (h : Inv s) {v : Video} {origin scrEnd pos lo hi : ℕ} {f : ℕ → UInt8}
    (hw : s.video.Wrote lo hi f v) (hlo : 753664 ≤ lo) (hhi : hi ≤ 786432)
    (horigin : 753664 ≤ origin) (hscrEnd : scrEnd = origin + 4000) (hfits : scrEnd ≤ 786432)
    (hpos : pos = origin + 2 * (s.y * 80 + s.x))
    (hg : ∀ b < 4000, g b = if lo ≤ origin + b ∧ origin + b < hi then f (origin + b)
      else s.video.byte (origin + b)) :
    s.Redrawn g { s with video := v, origin := origin, scrEnd := scrEnd, pos := pos } where
  rest := rfl
  scrEnd_eq := hscrEnd
  start_le := horigin
  le_end := hfits
  pos_eq := hpos
  shows b hb := (hw.byte _).trans (hg b hb).symm
  stores a ha := by
    rcases hw.stores a ha with ha | ha
    · exact h.stores a ha
    · exact ⟨hlo.trans ha.1, ha.2.trans_le hhi⟩

/-- Stores to the window. -/
theorem redrawn (h : Inv s) {v : Video} {lo hi : ℕ} {f : ℕ → UInt8}
    (hw : s.video.Wrote (s.origin + lo) (s.origin + hi) f v) (hhi : hi ≤ 4000)
    (hg : ∀ b < 4000, g b = if lo ≤ b ∧ b < hi then f (s.origin + b) else s.shown b) :
    s.Redrawn g { s with video := v } := by
  obtain ⟨-, -, -, -, hend, hstart, hfits, hpos⟩ := h.numbers
  refine h.moved hw (by omega) (by omega) hstart hend (by omega) hpos fun b hb => ?_
  rw [hg b hb]
  simp only [add_le_add_iff_left, add_lt_add_iff_left]
  rfl

/-- The cursor moves. -/
theorem setCursor (h : Inv s) {x y pos : ℕ} (hx : x ≤ 80) (hy : y < 25)
    (hpos : pos = s.origin + 2 * (y * 80 + x)) : Inv { s with x := x, y := y, pos := pos } where
  __ := h
  x_le := hx
  y_lt := hy
  pos_eq := hpos

/-! ### Scrolling -/

/-- Copying lines and blanking the last one. -/
theorem wrote_scrup (v : Video) (n d s : ℕ) (hds : d ≤ s) :
    v.Wrote d (d + 4 * n + 160)
      (fun a => if a < d + 4 * n then v.byte (s + (a - d)) else blank (a - (d + 4 * n)))
      ((v.movsl n d s).stosw columns (d + 4 * n)) := by
  refine Video.Wrote.append (Nat.le_add_right d _) (Nat.le_add_right _ _)
    ((Video.wrote_movsl n d s v hds).congr fun a h h' => ?_)
    ((Video.wrote_stosw columns (d + 4 * n) _).congr fun a h h' => ?_)
  · rw [if_pos h']
  · rw [if_neg (by omega)]

/-- The window moves by a line. -/
theorem scrup_window (h : Inv s) (htop : s.top = 0) (hbottom : s.bottom = lines) :
    s.Redrawn (scrolledUp 0 lines s.shown) s.scrup := by
  obtain ⟨hx, hy, -, -, hend, hstart, hfits, hpos⟩ := h.numbers
  have horigin : u32 (s.origin + columns * 2) = s.origin + 160 :=
    u32_eq (by simp only [columns]; omega) (by omega)
  have hpos' : u32 (s.pos + columns * 2) = s.pos + 160 :=
    u32_eq (by simp only [columns]; omega) (by omega)
  have hend' : u32 (s.scrEnd + columns * 2) = s.scrEnd + 160 :=
    u32_eq (by simp only [columns]; omega) (by omega)
  unfold Console.scrup
  rw [if_pos ⟨htop, hbottom⟩]
  dsimp only
  rw [horigin, hpos', hend']
  split_ifs with hwrap
  · -- It begins at the start of the video memory again.
    have hstart' : (SCREEN_START : ℤ) = 753664 := rfl
    have hscrEnd : u32 (↑(s.scrEnd + 160) - (↑(s.origin + 160) - ↑SCREEN_START)) = 757664 :=
      u32_eq (by rw [hstart']; omega) (by omega)
    have hpos₂ : u32 (↑(s.pos + 160) - (↑(s.origin + 160) - ↑SCREEN_START)) =
        753664 + 2 * (s.y * 80 + s.x) := u32_eq (by rw [hstart']; omega) (by omega)
    rw [hscrEnd, hpos₂]
    have hw := wrote_scrup s.video 960 753664 (s.origin + 160) (by omega)
    refine h.moved hw (by omega) (by omega) (by omega) (by omega) (by omega) rfl fun b hb => ?_
    rw [scrolledUp_full _ hb, show SCREEN_START = 753664 from rfl]
    by_cases hlt : b < 3840
    · rw [if_pos hlt, if_pos (by omega), if_pos (by omega)]
      exact congrArg s.video.byte (by omega)
    · rw [if_neg hlt, if_pos (by omega), if_neg (by omega)]
      exact blank_congr (by omega)
  · have hwrap : s.scrEnd + 160 ≤ 786432 := Nat.le_of_not_lt hwrap
    have hlast : u32 (↑(s.scrEnd + 160) - ↑columns * 2) = s.scrEnd :=
      u32_eq (by simp only [columns]; omega) (by omega)
    rw [hlast, Video.stosl_eq]
    have hw := Video.wrote_stosw 80 s.scrEnd s.video
    refine h.moved hw (by omega) (by omega) (by omega) (by omega) hwrap (by omega) fun b hb => ?_
    rw [scrolledUp_full _ hb]
    by_cases hlt : b < 3840
    · rw [if_pos hlt, if_neg (by omega)]
      exact congrArg s.video.byte (by omega)
    · rw [if_neg hlt, if_pos (by omega)]
      exact blank_congr (by omega)

theorem u32_lines (h : Inv s) :
    u32 ((s.bottom - s.top - 1 : ℤ) * columns) / 2 = 40 * (s.bottom - s.top - 1) := by
  obtain ⟨-, -, htop, hbottom, -, -, hfits, -⟩ := h.numbers
  rw [u32_eq (m := 80 * (s.bottom - s.top - 1)) (by simp only [columns]; omega) (by omega)]
  omega

/-- The lines of the scroll region are copied. -/
theorem copyLines (h : Inv s) : s.Redrawn (scrolledUp s.top s.bottom s.shown) s.copyLines := by
  obtain ⟨-, -, htop, hbottom, -, -, hfits, -⟩ := h.numbers
  have hd : u32 (s.origin + columns * 2 * s.top) = s.origin + 160 * s.top :=
    u32_eq (by simp only [columns]; omega) (by omega)
  have hs : u32 (s.origin + columns * 2 * (s.top + 1)) = s.origin + 160 * (s.top + 1) :=
    u32_eq (by simp only [columns]; omega) (by omega)
  unfold Console.copyLines
  rw [h.u32_lines, hd, hs]
  have hw := wrote_scrup s.video (40 * (s.bottom - s.top - 1)) (s.origin + 160 * s.top)
    (s.origin + 160 * (s.top + 1)) (by omega)
  rw [show s.origin + 160 * s.top + 4 * (40 * (s.bottom - s.top - 1)) + 160 =
    s.origin + 160 * s.bottom by omega] at hw
  refine h.redrawn hw (by omega) fun b hb => ?_
  unfold scrolledUp shown
  by_cases hin : 160 * s.top ≤ b ∧ b < 160 * s.bottom
  · rw [if_pos hin, if_pos hin]
    by_cases hlt : b < 160 * (s.bottom - 1)
    · rw [if_pos hlt, if_pos (by omega)]
      exact congrArg s.video.byte (by omega)
    · rw [if_neg hlt, if_neg (by omega)]
      exact blank_congr (by omega)
  · rw [if_neg hin, if_neg hin]

/-- Whether the window moves or the lines are copied, the lines of the scroll region move up. -/
theorem scrup (h : Inv s) : s.Redrawn (scrolledUp s.top s.bottom s.shown) s.scrup := by
  by_cases hfull : s.top = 0 ∧ s.bottom = lines
  · have hr := h.scrup_window hfull.1 hfull.2
    rwa [← hfull.2, ← hfull.1] at hr
  · have hr := h.copyLines
    unfold Console.scrup
    rwa [if_neg hfull]

theorem scrdown (h : Inv s) : s.Redrawn (scrolledDown s.top s.bottom s.shown) s.scrdown := by
  obtain ⟨-, -, htop, hbottom, -, hstart, hfits, -⟩ := h.numbers
  have hd : u32 (s.origin + columns * 2 * s.bottom - 4) = s.origin + 160 * s.bottom - 4 :=
    u32_eq (by simp only [columns]; omega) (by omega)
  have hs : u32 (s.origin + columns * 2 * (s.bottom - 1) - 4) =
      s.origin + 160 * (s.bottom - 1) - 4 :=
    u32_eq (by simp only [columns]; omega) (by omega)
  unfold Console.scrdown
  dsimp only
  rw [h.u32_lines, hd, hs]
  have hmove := Video.wrote_movslDown (40 * (s.bottom - s.top - 1)) (s.origin + 160 * s.bottom - 4)
    (s.origin + 160 * (s.bottom - 1) - 4) s.video (by omega) (by omega)
  generalize s.video.movslDown (40 * (s.bottom - s.top - 1)) (s.origin + 160 * s.bottom - 4)
    (s.origin + 160 * (s.bottom - 1) - 4) = v at hmove ⊢
  rw [show s.origin + 160 * s.bottom - 4 - 4 * (40 * (s.bottom - s.top - 1)) + 2 =
    s.origin + 160 * (s.top + 1) - 2 by omega]
  have hblank := Video.wrote_stoswDown columns (s.origin + 160 * (s.top + 1) - 2) v
    (by simp only [columns]; omega)
  rw [show s.origin + 160 * s.bottom - 4 + 4 = s.origin + 160 * s.bottom by omega,
    show s.origin + 160 * s.bottom - 4 * (40 * (s.bottom - s.top - 1)) =
      s.origin + 160 * (s.top + 1) by omega] at hmove
  rw [show s.origin + 160 * (s.top + 1) - 2 + 2 = s.origin + 160 * (s.top + 1) by omega,
    show s.origin + 160 * (s.top + 1) - 2 * columns = s.origin + 160 * s.top by
      simp only [columns]; omega] at hblank
  have hw := Video.Wrote.append' (f := fun a => if s.origin + 160 * (s.top + 1) ≤ a then
      s.video.byte (a - 160) else blank (a - (s.origin + 160 * s.top))) (by omega) (by omega)
    (hmove.congr fun a h h' => ?_) (hblank.congr fun a h h' => ?_)
  · refine h.redrawn hw (by omega) fun b hb => ?_
    unfold scrolledDown shown
    by_cases hin : 160 * s.top ≤ b ∧ b < 160 * s.bottom
    · rw [if_pos hin, if_pos hin]
      by_cases hlt : 160 * (s.top + 1) ≤ b
      · rw [if_pos hlt, if_pos (by omega)]
        exact congrArg s.video.byte (by omega)
      · rw [if_neg hlt, if_neg (by omega)]
        exact blank_congr (by omega)
    · rw [if_neg hin, if_neg hin]
  · rw [if_pos h]
    exact congrArg s.video.byte (by omega)
  · rw [if_neg (by omega)]

/-- The scroll region is set for a moment. -/
theorem setRegion (h : Inv s) {top bottom : ℕ} (htop : top < bottom) (hbottom : bottom ≤ lines) :
    Inv { s with top := top, bottom := bottom } where
  __ := h
  top_lt := htop
  bottom_le := hbottom

theorem insertLine (h : Inv s) : s.Redrawn (scrolledDown s.y lines s.shown) s.insertLine := by
  obtain ⟨hrest, hend, hstart, hfits, hpos, hshows, hstores⟩ := (h.setRegion h.y_lt le_rfl).scrdown
  refine ⟨?_, hend, hstart, hfits, hpos, hshows, hstores⟩
  unfold Console.insertLine
  rw [hrest]

theorem deleteLine (h : Inv s) : s.Redrawn (scrolledUp s.y lines s.shown) s.deleteLine := by
  obtain ⟨hrest, hend, hstart, hfits, hpos, hshows, hstores⟩ := (h.setRegion h.y_lt le_rfl).scrup
  refine ⟨?_, hend, hstart, hfits, hpos, hshows, hstores⟩
  unfold Console.deleteLine
  rw [hrest]

/-! ### Parts of a line -/

theorem erase (h : Inv s) {count start lo hi : ℕ} (hstart : start = s.origin + lo)
    (heven : lo % 2 = 0) (hcount : lo + 2 * count = hi) (hhi : hi ≤ 4000) :
    s.Redrawn (erasedFrom lo hi s.shown) (s.erase count start) := by
  have hw := Video.wrote_stosw count start s.video
  rw [hstart, Nat.add_assoc, hcount] at hw
  unfold Console.erase
  rw [hstart]
  refine h.redrawn hw hhi fun b hb => ?_
  unfold erasedFrom
  by_cases hin : lo ≤ b ∧ b < hi
  · rw [if_pos hin, if_pos hin]
    exact blank_congr (by omega)
  · rw [if_neg hin, if_neg hin]

theorem store16 (h : Inv s) {p : ℕ} (hp : p + 2 ≤ 4000) (w : Word) :
    s.Redrawn (printed p w s.shown) { s with video := s.video.store16 (s.origin + p) w } := by
  have hw := Video.wrote_store16 s.video (s.origin + p) w
  rw [Nat.add_assoc] at hw
  refine h.redrawn hw hp fun b hb => ?_
  unfold printed
  by_cases hin : p ≤ b ∧ b < p + 2
  · rw [if_pos hin, if_pos hin]
    simp only [Nat.add_left_cancel_iff]
  · rw [if_neg hin, if_neg hin]

theorem insertChar (h : Inv s) :
    s.Redrawn (inserted (2 * (s.y * 80 + s.x)) (160 * (s.y + 1)) s.shown) s.insertChar := by
  obtain ⟨hx, hy, -, -, -, -, hfits, hpos⟩ := h.numbers
  have hw := Video.wrote_insertLoop (columns - s.x) s.pos erased s.video
  have hend : s.pos + 2 * (columns - s.x) = s.origin + 160 * (s.y + 1) := by
    simp only [columns]
    omega
  refine h.redrawn (hw.cast hpos hend) (by omega) fun b hb => ?_
  unfold inserted shown
  by_cases hin : 2 * (s.y * 80 + s.x) ≤ b ∧ b < 160 * (s.y + 1)
  · rw [if_pos hin, if_pos hin]
    by_cases hlt : 2 * (s.y * 80 + s.x) + 2 ≤ b
    · rw [if_pos hlt, if_neg (by omega), if_neg (by omega)]
      exact congrArg s.video.byte (by omega)
    · rw [if_neg hlt]
      by_cases heq : b = 2 * (s.y * 80 + s.x)
      · rw [if_pos (by omega)]
        exact blank_congr (l := 0) (by omega)
      · rw [if_neg (by omega), if_pos (by omega)]
        exact blank_congr (l := 1) (by omega)
  · rw [if_neg hin, if_neg hin]

theorem deleteChar (h : Inv s) (hx : s.x < 80) :
    s.Redrawn (deleted (2 * (s.y * 80 + s.x)) (160 * (s.y + 1)) s.shown) s.deleteChar := by
  obtain ⟨-, hy, -, -, -, -, hfits, hpos⟩ := h.numbers
  have hw := Video.wrote_deleteLoop (columns - 1 - s.x) s.pos s.video
  have hend : s.pos + 2 * (columns - 1 - s.x + 1) = s.origin + 160 * (s.y + 1) := by
    simp only [columns]
    omega
  have hlast : s.pos + 2 * (columns - 1 - s.x) = s.origin + 160 * (s.y + 1) - 2 := by
    simp only [columns]
    omega
  unfold Console.deleteChar
  rw [if_neg (show ¬ columns ≤ s.x from Nat.not_le_of_lt hx)]
  rw [hlast] at hw
  refine h.redrawn (hw.cast hpos hend) (by omega) fun b hb => ?_
  unfold deleted shown
  by_cases hin : 2 * (s.y * 80 + s.x) ≤ b ∧ b < 160 * (s.y + 1)
  · rw [if_pos hin, if_pos hin]
    by_cases hlt : b + 2 < 160 * (s.y + 1)
    · rw [if_pos hlt, if_pos (by omega)]
      exact congrArg s.video.byte (by omega)
    · rw [if_neg hlt, if_neg (by omega)]
      exact blank_congr (by omega)
  · rw [if_neg hin, if_neg hin]

end Inv

end Console

end Linux001.Tty
