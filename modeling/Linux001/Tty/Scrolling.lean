import Linux001.Tty.Cursor

/-!
# Hardware scrolling is invisible

Two consoles look the same when they differ only in where the window is, and the windows show the
same bytes. Every character keeps this, although one console may move its window where the other one
moves it back to the start of the video memory.

## Main definitions

* `Console.Same`: two consoles that look the same.

## Main results

* `Console.Same.putc`: they still do after every character.
* `Console.Inv.putc`: every character keeps the invariant.
-/

namespace Linux001.Tty

/-! ### Changes of equal screens -/

section Screens

variable {g g' : ℕ → UInt8} {b : ℕ}

theorem scrolledUp_congr (hg : ∀ b < 4000, g b = g' b) {top bottom : ℕ} (hbottom : bottom ≤ 25)
    (hb : b < 4000) : scrolledUp top bottom g b = scrolledUp top bottom g' b := by
  unfold scrolledUp
  split_ifs with hin hlt
  · exact hg _ (by omega)
  · rfl
  · exact hg b hb

theorem scrolledDown_congr (hg : ∀ b < 4000, g b = g' b) {top bottom : ℕ} (hb : b < 4000) :
    scrolledDown top bottom g b = scrolledDown top bottom g' b := by
  unfold scrolledDown
  split_ifs
  · exact hg _ (by omega)
  · rfl
  · exact hg b hb

theorem erasedFrom_congr (hg : ∀ b < 4000, g b = g' b) {lo hi : ℕ} (hb : b < 4000) :
    erasedFrom lo hi g b = erasedFrom lo hi g' b := by
  unfold erasedFrom
  rw [hg b hb]

theorem inserted_congr (hg : ∀ b < 4000, g b = g' b) {lo hi : ℕ} (hb : b < 4000) :
    inserted lo hi g b = inserted lo hi g' b := by
  unfold inserted
  rw [hg b hb, hg (b - 2) (by omega)]

theorem deleted_congr (hg : ∀ b < 4000, g b = g' b) {lo hi : ℕ} (hhi : hi ≤ 4000) (hb : b < 4000) :
    deleted lo hi g b = deleted lo hi g' b := by
  unfold deleted
  split_ifs with hin hlt
  · exact hg _ (by omega)
  · rfl
  · exact hg b hb

theorem printed_congr (hg : ∀ b < 4000, g b = g' b) {p : ℕ} {w : Word} (hb : b < 4000) :
    printed p w g b = printed p w g' b := by
  unfold printed
  rw [hg b hb]

end Screens

namespace Console

/-- The consoles differ only in where the window is. -/
structure Same (s t : Console) : Prop where
  rest : t = { s with video := t.video, origin := t.origin, scrEnd := t.scrEnd, pos := t.pos }
  left : Inv s
  right : Inv t
  shown : ∀ b < 4000, s.shown b = t.shown b

variable {s t s' t' : Console} {g g' : ℕ → UInt8}

theorem Same.refl (h : Inv s) : Same s s := ⟨rfl, h, h, fun _ _ => rfl⟩

namespace Same

theorem x (h : Same s t) : t.x = s.x := by rw [h.rest]
theorem y (h : Same s t) : t.y = s.y := by rw [h.rest]
theorem top (h : Same s t) : t.top = s.top := by rw [h.rest]
theorem bottom (h : Same s t) : t.bottom = s.bottom := by rw [h.rest]
theorem state (h : Same s t) : t.state = s.state := by rw [h.rest]
theorem par (h : Same s t) : t.par = s.par := by rw [h.rest]

theorem exists_eq (h : Same s t) : ∃ video origin scrEnd pos,
    t = { s with video := video, origin := origin, scrEnd := scrEnd, pos := pos } :=
  ⟨_, _, _, _, h.rest⟩

/-- The screens are redrawn in the same way. -/
theorem redrawn (h : Same s t) (hs : s.Redrawn g s') (ht : t.Redrawn g' t')
    (hg : ∀ b < 4000, g b = g' b) : Same s' t' where
  rest := by
    rw [ht.rest, hs.rest, h.rest]
  left := hs.inv h.left
  right := ht.inv h.right
  shown b hb := (hs.shows b hb).trans ((hg b hb).trans (ht.shows b hb).symm)

/-- The cursors move to the same place. -/
theorem setCursor (h : Same s t) {x x' y y' pos pos' : ℕ} (hx' : x' = x) (hy' : y' = y)
    (hx : x ≤ 80) (hy : y < 25) (hpos : pos = s.origin + 2 * (y * 80 + x))
    (hpos' : pos' = t.origin + 2 * (y * 80 + x)) :
    Same { s with x := x, y := y, pos := pos } { t with x := x', y := y', pos := pos' } where
  rest := by rw [h.rest, hx', hy']
  left := h.left.setCursor hx hy hpos
  right := h.right.setCursor (hx'.trans_le hx) (hy'.trans_lt hy) (by rw [hpos', hx', hy'])
  shown := h.shown

/-- The other variables get the same values. -/
theorem setRest (h : Same s t) {top bottom state npar : ℕ} {par : ℕ → ℕ} {ques : Bool}
    {attr : UInt8} {savedX savedY : ℕ} (htop : top < bottom) (hbottom : bottom ≤ lines)
    (hnpar : npar < NPAR) (hx : savedX ≤ columns) (hy : savedY < lines) :
    Same
      { s with
        top := top, bottom := bottom, state := state, npar := npar, par := par, ques := ques
        attr := attr, savedX := savedX, savedY := savedY }
      { t with
        top := top, bottom := bottom, state := state, npar := npar, par := par, ques := ques
        attr := attr, savedX := savedX, savedY := savedY } where
  rest := by rw [h.rest]
  left := { h.left with
    top_lt := htop, bottom_le := hbottom, npar_lt := hnpar, savedX_le := hx, savedY_lt := hy }
  right := { h.right with
    top_lt := htop, bottom_le := hbottom, npar_lt := hnpar, savedX_le := hx, savedY_lt := hy }
  shown := h.shown

/-! ### The functions of the driver -/

theorem gotoxy (h : Same s t) (newX newY : ℕ) : Same (s.gotoxy newX newY) (t.gotoxy newX newY) := by
  unfold Console.gotoxy
  split_ifs with hout
  · exact h
  · obtain ⟨hnx, hny⟩ := not_or.mp hout
    have hnx : newX < 80 := Nat.lt_of_not_le hnx
    have hny : newY < 25 := Nat.lt_of_not_le hny
    have hpos {s : Console} (h : Inv s) : u32 (s.origin + (newY * columns + newX) * 2) =
        s.origin + 2 * (newY * 80 + newX) := by
      obtain ⟨-, -, -, -, -, -, hfits, -⟩ := h.numbers
      exact u32_eq (by simp only [columns]; omega) (by omega)
    exact h.setCursor rfl rfl hnx.le hny (hpos h.left) (hpos h.right)

theorem scrup (h : Same s t) : Same s.scrup t.scrup := by
  refine h.redrawn h.left.scrup h.right.scrup fun b hb => ?_
  rw [h.top, h.bottom]
  exact scrolledUp_congr h.shown h.left.bottom_le hb

theorem scrdown (h : Same s t) : Same s.scrdown t.scrdown := by
  refine h.redrawn h.left.scrdown h.right.scrdown fun b hb => ?_
  rw [h.top, h.bottom]
  exact scrolledDown_congr h.shown hb

/-- The cursors move by the same distance. -/
theorem move (h : Same s t) {x x' y y' : ℕ} (d : ℤ) (hx' : x' = x) (hy' : y' = y) (hx : x ≤ 80)
    (hy : y < 25) (hd : 2 * (s.y * 80 + s.x) + d = 2 * (y * 80 + x)) :
    Same { s with x := x, y := y, pos := u32 (s.pos + d) }
      { t with x := x', y := y', pos := u32 (t.pos + d) } := by
  have hs := h.left.numbers
  have ht := h.right.numbers
  rw [h.x, h.y] at ht
  exact h.setCursor hx' hy' hx hy (u32_eq (by omega) (by omega)) (u32_eq (by omega) (by omega))

theorem moveX (h : Same s t) {x : ℕ} (d : ℤ) (hx : x ≤ 80) (hd : 2 * s.x + d = 2 * x) :
    Same { s with x := x, pos := u32 (s.pos + d) } { t with x := x, pos := u32 (t.pos + d) } :=
  h.move d rfl h.y hx h.left.y_lt (by omega)

theorem moveY (h : Same s t) {y : ℕ} (d : ℤ) (hy : y < 25) (hd : 160 * s.y + d = 160 * y) :
    Same { s with y := y, pos := u32 (s.pos + d) } { t with y := y, pos := u32 (t.pos + d) } :=
  h.move d h.x rfl h.left.x_le hy (by omega)

theorem lf (h : Same s t) : Same s.lf t.lf := by
  obtain ⟨-, hy, -, hbottom, -⟩ := h.left.numbers
  obtain ⟨video, origin, scrEnd, pos, rfl⟩ := h.exists_eq
  unfold Console.lf
  dsimp only
  rw [u32_eq (n := s.y + 1) (m := s.y + 1) rfl (by omega)]
  split_ifs with hlt
  · exact h.moveY (y := s.y + 1) (columns * 2) (by omega) (by simp only [columns]; omega)
  · exact h.scrup

theorem ri (h : Same s t) : Same s.ri t.ri := by
  obtain ⟨-, hy, -⟩ := h.left.numbers
  obtain ⟨video, origin, scrEnd, pos, rfl⟩ := h.exists_eq
  unfold Console.ri
  dsimp only
  split_ifs with hlt
  · rw [u32_eq (n := s.y - 1) (m := s.y - 1) (by omega) (by omega)]
    exact h.moveY (y := s.y - 1) (-(columns * 2)) (by omega) (by simp only [columns]; omega)
  · exact h.scrdown

theorem cr (h : Same s t) : Same s.cr t.cr := by
  obtain ⟨video, origin, scrEnd, pos, rfl⟩ := h.exists_eq
  exact h.moveX (-(s.x * 2)) (Nat.zero_le _) (by omega)

/-- A word is stored under the cursor. -/
theorem store (h : Same s t) (hx : s.x < 80) (w : Word) :
    Same { s with video := s.video.store16 s.pos w }
      { t with video := t.video.store16 t.pos w } := by
  obtain ⟨-, hy, -, -, -, -, -, hpos⟩ := h.left.numbers
  obtain ⟨-, -, -, -, -, -, -, hpos'⟩ := h.right.numbers
  rw [h.x, h.y] at hpos'
  have hp : 2 * (s.y * 80 + s.x) + 2 ≤ 4000 := by omega
  have hs := h.left.store16 hp w
  have ht := h.right.store16 hp w
  rw [← hpos] at hs
  rw [← hpos'] at ht
  exact h.redrawn hs ht fun b hb => printed_congr h.shown hb

theorem del (h : Same s t) : Same s.del t.del := by
  obtain ⟨hx, -⟩ := h.left.numbers
  unfold Console.del
  rw [h.x]
  split_ifs with hne
  · rw [u32_eq (n := s.x - 1) (m := s.x - 1) (by omega) (by omega)]
    have hmove : Same { s with x := s.x - 1, pos := u32 (s.pos + -2) }
        { t with x := s.x - 1, pos := u32 (t.pos + -2) } := h.moveX (-2) (by omega) (by omega)
    exact hmove.store (show s.x - 1 < 80 by omega) erased
  · exact h

/-- Parts of the screens are erased. -/
theorem erase (h : Same s t) {count start start' : ℕ} (lo hi : ℕ) (hstart : start = s.origin + lo)
    (hstart' : start' = t.origin + lo) (heven : lo % 2 = 0) (hcount : lo + 2 * count = hi)
    (hhi : hi ≤ 4000) : Same (s.erase count start) (t.erase count start') :=
  h.redrawn (h.left.erase hstart heven hcount hhi) (h.right.erase hstart' heven hcount hhi)
    fun _ hb => erasedFrom_congr h.shown hb

theorem csiJ (h : Same s t) (par : ℕ) : Same (s.csiJ par) (t.csiJ par) := by
  have hs := h.left.numbers
  have ht := h.right.numbers
  rw [h.x, h.y] at ht
  unfold Console.csiJ
  split
  · have hcount (e o : ℕ) (he : e = o + 4000) (ho : o + 4000 ≤ 786432) :
        u32 (e - ↑(o + 2 * (s.y * 80 + s.x))) / 2 = 2000 - (s.y * 80 + s.x) := by
      rw [u32_eq (m := 4000 - 2 * (s.y * 80 + s.x)) (by omega) (by omega)]
      omega
    obtain ⟨hx, hy, -, -, hend, -, hfits, hpos⟩ := hs
    obtain ⟨-, -, -, -, hend', -, hfits', hpos'⟩ := ht
    rw [hpos, hpos', hcount _ _ hend hfits, hcount _ _ hend' hfits']
    exact h.erase _ 4000 rfl rfl (by omega) (by omega) (by omega)
  · have hcount (p o : ℕ) (hp : p = o + 2 * (s.y * 80 + s.x)) (ho : o + 4000 ≤ 786432) :
        u32 (p - o) / 2 = s.y * 80 + s.x := by
      rw [u32_eq (m := 2 * (s.y * 80 + s.x)) (by omega) (by omega)]
      omega
    obtain ⟨hx, hy, -, -, -, -, hfits, hpos⟩ := hs
    obtain ⟨-, -, -, -, -, -, hfits', hpos'⟩ := ht
    rw [hcount _ _ hpos hfits, hcount _ _ hpos' hfits']
    exact h.erase 0 _ rfl rfl rfl rfl (by omega)
  · exact h.erase 0 _ rfl rfl rfl rfl le_rfl
  · exact h

/-- The address of the first column. -/
theorem lineStart (h : Same s t) : u32 (s.pos - s.x * 2) = s.origin + 160 * s.y ∧
    u32 (t.pos - s.x * 2) = t.origin + 160 * s.y := by
  have hs := h.left.numbers
  have ht := h.right.numbers
  rw [h.x, h.y] at ht
  exact ⟨u32_eq (by omega) (by omega), u32_eq (by omega) (by omega)⟩

theorem csiK (h : Same s t) (par : ℕ) : Same (s.csiK par) (t.csiK par) := by
  obtain ⟨hx, hy, -, -, -, -, -, hpos⟩ := h.left.numbers
  obtain ⟨-, -, -, -, -, -, -, hpos'⟩ := h.right.numbers
  obtain ⟨hstart, hstart'⟩ := h.lineStart
  rw [h.x, h.y] at hpos'
  unfold Console.csiK
  rw [h.x]
  split
  · split_ifs with hlt
    · exact h
    · rw [u32_eq (n := columns - s.x) (m := 80 - s.x) (by simp only [columns]; omega) (by omega)]
      exact h.erase _ (160 * (s.y + 1)) hpos hpos' (by omega) (by omega) (by omega)
  · rw [hstart, hstart']
    have hcount : (if s.x < columns then s.x else columns) = s.x := by
      split_ifs with hlt
      · rfl
      · exact le_antisymm (Nat.le_of_not_lt hlt) hx
    rw [hcount]
    exact h.erase _ (160 * s.y + 2 * s.x) rfl rfl (by omega) rfl (by omega)
  · rw [hstart, hstart']
    exact h.erase _ (160 * (s.y + 1)) rfl rfl (by omega) (by simp only [columns]; omega)
      (by omega)
  · exact h

theorem insertChar (h : Same s t) : Same s.insertChar t.insertChar := by
  have ht := h.right.insertChar
  rw [h.x, h.y] at ht
  exact h.redrawn h.left.insertChar ht fun _ hb => inserted_congr h.shown hb

theorem deleteChar (h : Same s t) : Same s.deleteChar t.deleteChar := by
  obtain ⟨-, hy, -⟩ := h.left.numbers
  by_cases hx : columns ≤ s.x
  · unfold Console.deleteChar
    rw [if_pos hx, if_pos (h.x ▸ hx)]
    exact h
  · have hx : s.x < 80 := Nat.lt_of_not_le hx
    have ht := h.right.deleteChar (h.x ▸ hx)
    rw [h.x, h.y] at ht
    exact h.redrawn (h.left.deleteChar hx) ht fun _ hb => deleted_congr h.shown (by omega) hb

theorem insertLine (h : Same s t) : Same s.insertLine t.insertLine := by
  have ht := h.right.insertLine
  rw [h.y] at ht
  exact h.redrawn h.left.insertLine ht fun _ hb => scrolledDown_congr h.shown hb

theorem deleteLine (h : Same s t) : Same s.deleteLine t.deleteLine := by
  have ht := h.right.deleteLine
  rw [h.y] at ht
  exact h.redrawn h.left.deleteLine ht fun _ hb => scrolledUp_congr h.shown le_rfl hb

/-- What is repeated. -/
theorem iterate {f : Console → Console} (hf : ∀ {s t : Console}, Same s t → Same (f s) (f t))
    (n : ℕ)
    (h : Same s t) : Same (f^[n] s) (f^[n] t) := by
  induction n generalizing s t with
  | zero => exact h
  | succ n ih => exact ih (hf h)

/-! ### Characters -/

/-- Only the parser and its parameters change. -/
theorem setParser (h : Same s t) {state npar : ℕ} {par : ℕ → ℕ} {ques : Bool}
    (hnpar : npar < NPAR) :
    Same { s with state := state, npar := npar, par := par, ques := ques }
      { t with state := state, npar := npar, par := par, ques := ques } := by
  obtain ⟨video, origin, scrEnd, pos, rfl⟩ := h.exists_eq
  exact h.setRest h.left.top_lt h.left.bottom_le hnpar h.left.savedX_le h.left.savedY_lt

theorem setState (h : Same s t) (state : ℕ) :
    Same { s with state := state } { t with state := state } := by
  obtain ⟨video, origin, scrEnd, pos, rfl⟩ := h.exists_eq
  exact h.setParser h.left.npar_lt

theorem setPar (h : Same s t) (i v : ℕ) : Same (s.setPar i v) (t.setPar i v) := by
  obtain ⟨video, origin, scrEnd, pos, rfl⟩ := h.exists_eq
  exact h.setParser h.left.npar_lt

theorem decPar (h : Same s t) (i : ℕ) : Same (s.decPar i) (t.decPar i) := by
  unfold Console.decPar
  rw [h.par]
  split_ifs
  · exact h.setPar i _
  · exact h

theorem onePar (h : Same s t) : Same s.onePar t.onePar := by
  unfold Console.onePar
  rw [h.par]
  split_ifs
  · exact h.setPar 0 1
  · exact h

theorem csiSgr (h : Same s t) : Same s.csiSgr t.csiSgr := by
  obtain ⟨video, origin, scrEnd, pos, rfl⟩ := h.exists_eq
  exact h.setRest h.left.top_lt h.left.bottom_le h.left.npar_lt h.left.savedX_le h.left.savedY_lt

theorem saveCur (h : Same s t) : Same s.saveCur t.saveCur := by
  obtain ⟨video, origin, scrEnd, pos, rfl⟩ := h.exists_eq
  exact h.setRest h.left.top_lt h.left.bottom_le h.left.npar_lt h.left.x_le h.left.y_lt

theorem restoreCur (h : Same s t) : Same s.restoreCur t.restoreCur := by
  have hpos (o : ℕ) (ho : o + 4000 ≤ 786432) : u32 (o + (s.savedY * columns + s.savedX) * 2) =
      o + 2 * (s.savedY * 80 + s.savedX) := by
    have hx : s.savedX ≤ 80 := h.left.savedX_le
    have hy : s.savedY < 25 := h.left.savedY_lt
    exact u32_eq (by simp only [columns]; omega) (by omega)
  obtain ⟨-, -, -, -, -, -, hfits, -⟩ := h.left.numbers
  obtain ⟨-, -, -, -, -, -, hfits', -⟩ := h.right.numbers
  obtain ⟨video, origin, scrEnd, pos, rfl⟩ := h.exists_eq
  unfold Console.restoreCur
  dsimp only
  rw [hpos _ hfits, hpos _ hfits']
  exact h.setCursor rfl rfl h.left.savedX_le h.left.savedY_lt rfl rfl

theorem region (h : Same s t) : Same s.region t.region := by
  unfold Console.region
  have h₁ := h.decPar 0
  generalize s.decPar 0 = s₁ at h₁ ⊢
  generalize t.decPar 0 = t₁ at h₁ ⊢
  have h₂ : Same (if s₁.par 1 = 0 then s₁.setPar 1 lines else s₁)
      (if t₁.par 1 = 0 then t₁.setPar 1 lines else t₁) := by
    rw [h₁.par]
    split_ifs
    · exact h₁.setPar 1 lines
    · exact h₁
  dsimp only
  generalize (if s₁.par 1 = 0 then s₁.setPar 1 lines else s₁) = s₂ at h₂ ⊢
  generalize (if t₁.par 1 = 0 then t₁.setPar 1 lines else t₁) = t₂ at h₂ ⊢
  obtain ⟨video, origin, scrEnd, pos, rfl⟩ := h₂.exists_eq
  dsimp only
  split_ifs with hlt
  · exact h₂.setRest hlt.1 hlt.2 h₂.left.npar_lt h₂.left.savedX_le h₂.left.savedY_lt
  · exact h₂

/-- A line wraps. The cursor may have gone beyond the last column by a tabulator. -/
theorem wrap {s t : Console} {x pos pos' : ℕ} (h : Same s t) (hx : 80 ≤ x) (hx' : x ≤ 160)
    (hpos : pos = s.origin + 2 * (s.y * 80 + x)) (hpos' : pos' = t.origin + 2 * (s.y * 80 + x)) :
    Same (Console.wrap { s with x := x, pos := pos })
      (Console.wrap { t with x := x, pos := pos' }) := by
  obtain ⟨-, hy, -, -, -, hstart, hfits, -⟩ := h.left.numbers
  obtain ⟨-, -, -, -, -, hstart', hfits', -⟩ := h.right.numbers
  obtain ⟨video, origin, scrEnd, posₜ, rfl⟩ := h.exists_eq
  unfold Console.wrap
  dsimp only at hpos hpos' hstart' hfits' ⊢
  rw [u32_eq (n := x - columns) (m := x - 80) (by simp only [columns]; omega) (by omega),
    u32_eq (n := pos - columns * 2) (m := s.origin + 2 * (s.y * 80 + (x - 80)))
      (by simp only [columns]; omega) (by omega),
    u32_eq (n := pos' - columns * 2) (m := origin + 2 * (s.y * 80 + (x - 80)))
      (by simp only [columns]; omega) (by omega)]
  exact (h.setCursor rfl rfl (by omega) hy rfl rfl).lf

omit s t in
theorem lf_x (s : Console) : s.lf.x = s.x := by
  unfold Console.lf
  split_ifs
  · rfl
  · unfold Console.scrup
    dsimp only
    split_ifs <;> rfl

/-- Both consoles take the same branch. -/
theorem ite_rel {p : Prop} [Decidable p] (h : Same s t) (h' : Same s' t') :
    Same (if p then s else s') (if p then t else t') := by
  split_ifs
  · exact h
  · exact h'

theorem print (h : Same s t) (c : UInt8) : Same (s.print c) (t.print c) := by
  obtain ⟨hx, -, -, -, -, -, -, hpos⟩ := h.left.numbers
  obtain ⟨-, -, -, -, -, -, -, hpos'⟩ := h.right.numbers
  rw [h.x, h.y] at hpos'
  unfold Console.print
  have hwrap : Same (if columns ≤ s.x then s.wrap else s) (if columns ≤ t.x then t.wrap else t) ∧
      (if columns ≤ s.x then s.wrap else s).x < 80 := by
    rw [h.x]
    split_ifs with hlt
    · have hlt : 80 ≤ s.x := hlt
      obtain ⟨video, origin, scrEnd, pos, rfl⟩ := h.exists_eq
      refine ⟨h.wrap (x := s.x) hlt (by omega) hpos hpos', ?_⟩
      unfold Console.wrap
      rw [lf_x]
      exact (u32_eq (m := s.x - 80) (by simp only [columns]; omega) (by omega)).trans_lt (by omega)
    · exact ⟨h, Nat.lt_of_not_le hlt⟩
  dsimp only
  generalize (if columns ≤ s.x then s.wrap else s) = s₁ at hwrap ⊢
  generalize (if columns ≤ t.x then t.wrap else t) = t₁ at hwrap ⊢
  obtain ⟨h₁, hx₁⟩ := hwrap
  obtain ⟨video, origin, scrEnd, pos, rfl⟩ := h₁.exists_eq
  dsimp only
  rw [u32_eq (n := s₁.x + 1) (m := s₁.x + 1) rfl (by omega)]
  exact (h₁.store hx₁ (c, s₁.attr)).moveX (x := s₁.x + 1) 2 (by omega) (by simp only; omega)

theorem back (h : Same s t) : Same s.back t.back := by
  obtain ⟨hx, -⟩ := h.left.numbers
  unfold Console.back
  rw [h.x]
  split_ifs with hne
  · rw [u32_eq (n := s.x - 1) (m := s.x - 1) (by omega) (by omega)]
    exact h.moveX (x := s.x - 1) (-2) (by omega) (by omega)
  · exact h

theorem tab (h : Same s t) : Same s.tab t.tab := by
  obtain ⟨hx, hy, -, -, -, -, hfits, hpos⟩ := h.left.numbers
  obtain ⟨-, -, -, -, -, -, hfits', hpos'⟩ := h.right.numbers
  rw [h.x, h.y] at hpos'
  unfold Console.tab
  rw [h.x]
  obtain ⟨n, hn⟩ : ∃ n, n = 8 - s.x % 8 := ⟨_, rfl⟩
  rw [← hn]
  dsimp only
  rw [u32_eq (n := s.x + n) (m := s.x + n) rfl (by omega),
    u32_eq (n := s.pos + n * 2) (m := s.origin + 2 * (s.y * 80 + (s.x + n))) (by omega) (by omega),
    u32_eq (n := t.pos + n * 2) (m := t.origin + 2 * (s.y * 80 + (s.x + n))) (by omega) (by omega)]
  split_ifs with hlt
  · have hlt : 80 < s.x + n := hlt
    exact h.wrap (by omega) (by omega) rfl rfl
  · have hlt : s.x + n ≤ 80 := Nat.le_of_not_lt hlt
    exact h.setCursor rfl h.y hlt hy rfl rfl

theorem plain (h : Same s t) (erase c : UInt8) : Same (s.plain erase c) (t.plain erase c) := by
  unfold Console.plain
  split_ifs
  · exact h.print c
  · exact h.setState 1
  · exact h.lf
  · exact h.cr
  · exact h.del
  · exact h.back
  · exact h.tab
  · exact h

theorem escape (h : Same s t) (c : UInt8) : Same (s.escape c) (t.escape c) := by
  have h₀ := h.setState 0
  obtain ⟨video, origin, scrEnd, pos, rfl⟩ := h.exists_eq
  unfold Console.escape
  dsimp only
  split_ifs
  · exact h.setState 2
  · exact h₀.gotoxy 0 _
  · exact h₀.ri
  · exact h₀.lf
  · exact h₀
  · exact h₀.saveCur
  · exact h₀.restoreCur
  · exact h₀

theorem command (h : Same s t) (c : UInt8) : Same (s.command c) (t.command c) := by
  have hdec := h.decPar 0
  have hone := h.onePar
  have hdec₂ := hdec.decPar 1
  unfold Console.command
  dsimp only
  rw [hdec.par, hdec.x, hdec.y, hone.par, hone.x, hone.y, hdec₂.par, h.par]
  refine ite_rel (hdec.gotoxy _ _) (ite_rel (hone.gotoxy _ _) ?_)
  refine ite_rel (hone.gotoxy _ _) (ite_rel (hone.gotoxy _ _) ?_)
  refine ite_rel (hone.gotoxy _ _) (ite_rel (hone.gotoxy _ _) ?_)
  refine ite_rel (hone.gotoxy _ _) (ite_rel (hdec.gotoxy _ _) ?_)
  refine ite_rel (hdec₂.gotoxy _ _) (ite_rel (h.csiJ _) ?_)
  refine ite_rel (h.csiK _) (ite_rel (h.iterate insertLine _) ?_)
  refine ite_rel (h.iterate deleteLine _) (ite_rel (h.iterate deleteChar _) ?_)
  refine ite_rel (h.iterate insertChar _) (ite_rel h.csiSgr ?_)
  exact ite_rel h.region (ite_rel h.saveCur (ite_rel h.restoreCur h))

theorem final (h : Same s t) (c : UInt8) : Same (s.final c) (t.final c) :=
  (h.setState 0).command c

theorem params (h : Same s t) (c : UInt8) : Same (s.params c) (t.params c) := by
  obtain ⟨video, origin, scrEnd, pos, rfl⟩ := h.exists_eq
  unfold Console.params
  dsimp only
  split_ifs with hsep
  · exact h.setParser (Nat.lt_sub_iff_add_lt.mp hsep.2)
  · exact h.setPar _ _
  · exact (h.setState 4).final c

theorem bracket (h : Same s t) (c : UInt8) : Same (s.bracket c) (t.bracket c) := by
  obtain ⟨video, origin, scrEnd, pos, rfl⟩ := h.exists_eq
  unfold Console.bracket
  dsimp only
  split_ifs
  · exact h.setParser (by decide)
  · exact (h.setParser (by decide)).params c

/-- Every character keeps the consoles looking the same. -/
theorem putc (h : Same s t) (erase c : UInt8) : Same (s.putc erase c) (t.putc erase c) := by
  unfold Console.putc
  rw [h.state]
  split
  · exact h.plain erase c
  · exact h.escape c
  · exact h.bracket c
  · exact h.params c
  · exact h.final c
  · exact h

theorem asks (h : Same s t) (c : UInt8) : t.asks c = s.asks c := by
  unfold Console.asks
  rw [h.state]

end Same

/-- Every character keeps the invariant. -/
theorem Inv.putc (h : Inv s) (erase c : UInt8) : Inv (s.putc erase c) :=
  ((Same.refl h).putc erase c).left

end Console

end Linux001.Tty
