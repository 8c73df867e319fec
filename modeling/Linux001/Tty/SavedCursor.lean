import Linux001.Tty.Queries
import Mathlib.Logic.Function.Conjugate

/-!
# Saving and restoring the cursor

`ESC 7` and `CSI s` save the cursor, and `ESC 8` and `CSI u` restore it. What a character means is
decided by its place in the escape sequences, which is a matter of the characters alone (`Place`).
The driver however looks at the column of the cursor where it should look at the character after an
escape.

## Main definitions

* `Place`: the places in the escape sequences, with `Place.saves` and `Place.restores`.
* `Console.Obeys`: a character does with the saved cursor what its sequence says, and nothing else.
* `Console.Recognised`: the column of the cursor agrees with the character after an escape.
* `Restored`: the characters of a save, other characters and a restore leave the cursor as it was.
* `Terminal.Restores`: `con_write` writes these characters once each, and the cursor is as it was.

## Main results

* `Console.obeys_iff`: the characters that do what their sequence says.
* `restored_iff`: the cursor is saved and restored exactly when the column agrees with every
  character after an escape; in `con_write` exactly when the terminal is calm as well.
* `not_restored_column`: `ESC 7` does not save the cursor at another column.
-/

namespace Linux001.Tty

/-! ### Escape sequences -/

/-- The places in an escape sequence. -/
inductive Place
  | ground
  /-- After `ESC`. -/
  | escape
  /-- After `ESC [`. -/
  | bracket
  /-- In the parameters, after `n` semicolons. -/
  | params (n : ℕ)
  deriving DecidableEq

namespace Place

/-- The place after a character in the parameters. -/
def nextParam (n : ℕ) (c : UInt8) : Place :=
  if c = ';'.toUInt8 ∧ n < NPAR - 1 then params (n + 1)
  else if '0'.toUInt8 ≤ c ∧ c ≤ '9'.toUInt8 then params n
  else ground

/-- The place after a character. -/
def next : Place → UInt8 → Place
  | ground, c => if c = 27 then escape else ground
  | escape, c => if c = '['.toUInt8 then bracket else ground
  | bracket, c => if c = '?'.toUInt8 then params 0 else nextParam 0 c
  | params n, c => nextParam n c

/-- The character ends `ESC 7` or `CSI s`. -/
def saves : Place → UInt8 → Bool
  | ground, _ => false
  | escape, c => c = '7'.toUInt8
  | bracket, c => c = 's'.toUInt8
  | params _, c => c = 's'.toUInt8

/-- The character ends `ESC 8` or `CSI u`. -/
def restores : Place → UInt8 → Bool
  | ground, _ => false
  | escape, c => c = '8'.toUInt8
  | bracket, c => c = 'u'.toUInt8
  | params _, c => c = 'u'.toUInt8

/-- The characters from the place on contain no sequence that saves or restores the cursor, and lead
back to the ground state. -/
def Plain : Place → List UInt8 → Prop
  | p, [] => p = ground
  | p, c :: w => p.saves c = false ∧ p.restores c = false ∧ (p.next c).Plain w

instance decidablePlain : (p : Place) → (w : List UInt8) → Decidable (p.Plain w)
  | p, [] => inferInstanceAs (Decidable (p = ground))
  | p, c :: w =>
    haveI := decidablePlain (p.next c) w
    inferInstanceAs (Decidable (_ ∧ _ ∧ _))

end Place

/-- A sequence that saves the cursor, and the sequence that restores it. -/
inductive Pair
  /-- `ESC 7` and `ESC 8`. -/
  | esc
  /-- `CSI s` and `CSI u`. -/
  | csi

namespace Pair

def save : Pair → List UInt8
  | esc => [27, '7'.toUInt8]
  | csi => [27, '['.toUInt8, 's'.toUInt8]

def restore : Pair → List UInt8
  | esc => [27, '8'.toUInt8]
  | csi => [27, '['.toUInt8, 'u'.toUInt8]

end Pair

namespace Console

/-! ### The parser of the driver -/

/-- The parser is at the place. -/
def At (s : Console) : Place → Prop
  | .ground => s.state = 0
  | .escape => s.state = 1
  | .bracket => s.state = 2
  | .params n => s.state = 3 ∧ s.npar = n

def cursor (s : Console) : ℕ × ℕ := (s.x, s.y)

def saved (s : Console) : ℕ × ℕ := (s.savedX, s.savedY)

/-- The console with another saved cursor. -/
def withSaved (m : ℕ × ℕ) (s : Console) : Console := { s with savedX := m.1, savedY := m.2 }

/-- The state after the characters. -/
def run (erase : UInt8) (s : Console) (l : List UInt8) : Console :=
  l.foldl (fun s c => s.putc erase c) s

/-- The character `c` at the place `p` does what it should with the saved cursor, whatever cursor
has been saved before: it saves the cursor, or it restores it, or it neither uses nor changes what
is saved. -/
def Obeys (erase : UInt8) (p : Place) (s : Console) (c : UInt8) : Prop :=
  ∀ m, let t := (s.withSaved m).putc erase c
    if p.saves c then t.saved = s.cursor ∧ t.cursor = s.cursor
    else if p.restores c then t.saved = m ∧ t.cursor = m
    else t = (s.putc erase c).withSaved m

/-- The characters that the driver knows after an escape by the character itself. -/
def known : List UInt8 :=
  ['['.toUInt8, 'E'.toUInt8, 'M'.toUInt8, 'D'.toUInt8, 'Z'.toUInt8]

/-- Where the driver looks at the column of the cursor, the column agrees with the character. -/
def Recognised (p : Place) (s : Console) (c : UInt8) : Prop :=
  p = .escape → c ∉ known → (c = '7'.toUInt8 ↔ s.x = 55) ∧ (c = '8'.toUInt8 ↔ s.x = 56)

/-- Every character has the property in the state in which it is written. -/
def Steps (P : Place → Console → UInt8 → Prop) (erase : UInt8) : Place → Console → List UInt8 → Prop
  | _, _, [] => True
  | p, s, c :: l => P p s c ∧ Steps P erase (p.next c) (s.putc erase c) l

variable {s : Console} {p : Place} {erase c : UInt8} {w : List UInt8}

/-! ### What does not concern the saved cursor -/

/-- The console with another saved cursor and another state of the parser. -/
def frame (m : ℕ × ℕ) (k : ℕ) (s : Console) : Console :=
  { s with savedX := m.1, savedY := m.2, state := k }

/-- The function neither uses nor changes the saved cursor and the state of the parser. -/
def Indifferent (f : Console → Console) : Prop := ∀ m k, Function.Commute f (frame m k)

namespace Indifferent

variable {f g : Console → Console}

theorem comp (hf : Indifferent f) (hg : Indifferent g) : Indifferent fun s => g (f s) :=
  fun m k => (hg m k).comp_left (hf m k)

theorem iterate (hf : Indifferent f) (n : ℕ) : Indifferent f^[n] :=
  fun m k => (hf m k).iterate_left n

/-- The choice between two functions must not look at the saved cursor. -/
theorem ite {P : Console → Prop} [DecidablePred P] (hP : ∀ m k s, P (frame m k s) ↔ P s)
    (hf : Indifferent f) (hg : Indifferent g) : Indifferent fun s => if P s then f s else g s := by
  intro m k s
  dsimp only
  by_cases h : P s
  · have h' := (hP m k s).mpr h
    rw [if_pos h, if_pos h', hf m k s]
  · have h' := (hP m k s).not.mpr h
    rw [if_neg h, if_neg h', hg m k s]

theorem cond {p : Prop} [Decidable p] (hf : Indifferent f) (hg : Indifferent g) :
    Indifferent fun s => if p then f s else g s := ite (fun _ _ _ => Iff.rfl) hf hg

theorem id : Indifferent fun s => s := fun _ _ _ => rfl

theorem gotoxy (x y : Console → ℕ) (hx : ∀ m k s, x (frame m k s) = x s := by intro _ _ _; rfl)
    (hy : ∀ m k s, y (frame m k s) = y s := by intro _ _ _; rfl) :
    Indifferent fun s => s.gotoxy (x s) (y s) := by
  intro m k s
  dsimp only
  rw [hx, hy]
  unfold Console.gotoxy
  split_ifs <;> rfl

theorem scrup : Indifferent Console.scrup := by
  refine ite (fun _ _ _ => Iff.rfl) (fun m k s => ?_) fun _ _ _ => rfl
  dsimp only [frame]
  split_ifs <;> rfl

theorem scrdown : Indifferent Console.scrdown := by
  intro m k s
  simp only [Console.scrdown, frame]

theorem lf : Indifferent Console.lf := ite (fun _ _ _ => Iff.rfl) (fun _ _ _ => rfl) scrup

theorem ri : Indifferent Console.ri := ite (fun _ _ _ => Iff.rfl) (fun _ _ _ => rfl) scrdown

theorem cr : Indifferent Console.cr := fun _ _ _ => rfl

theorem del : Indifferent Console.del := ite (fun _ _ _ => Iff.rfl) (fun _ _ _ => rfl) id

theorem back : Indifferent Console.back := ite (fun _ _ _ => Iff.rfl) (fun _ _ _ => rfl) id

theorem wrap : Indifferent Console.wrap := comp (f := fun s =>
  { s with x := u32 (s.x - columns), pos := u32 (s.pos - columns * 2) }) (fun _ _ _ => rfl) lf

theorem csiJ (par : ℕ) : Indifferent fun s => s.csiJ par := by
  intro m k s
  match par with
  | 0 | 1 | 2 | _ + 3 => simp only [Console.csiJ, Console.erase, frame]

theorem csiK (par : ℕ) : Indifferent fun s => s.csiK par := by
  have hfirst : Indifferent fun s =>
      if columns ≤ s.x then s else s.erase (u32 (columns - s.x)) s.pos :=
    ite (fun _ _ _ => Iff.rfl) id fun _ _ _ => rfl
  intro m k s
  match par with
  | 0 => exact hfirst m k s
  | 1 | 2 | _ + 3 => rfl

theorem insertLine : Indifferent Console.insertLine := by
  intro m k s
  have h := scrdown m k { s with top := s.y, bottom := lines }
  unfold Console.insertLine
  exact congrArg (fun t => { t with top := s.top, bottom := s.bottom }) h

theorem deleteLine : Indifferent Console.deleteLine := by
  intro m k s
  have h := scrup m k { s with top := s.y, bottom := lines }
  unfold Console.deleteLine
  exact congrArg (fun t => { t with top := s.top, bottom := s.bottom }) h

theorem insertChar : Indifferent Console.insertChar := fun _ _ _ => rfl

theorem deleteChar : Indifferent Console.deleteChar :=
  ite (fun _ _ _ => Iff.rfl) id fun _ _ _ => rfl

theorem csiL (nr : ℕ) : Indifferent fun s => s.csiL nr := insertLine.iterate _

theorem csiM (nr : ℕ) : Indifferent fun s => s.csiM nr := deleteLine.iterate _

theorem csiP (nr : ℕ) : Indifferent fun s => s.csiP nr := deleteChar.iterate _

theorem csiAt (nr : ℕ) : Indifferent fun s => s.csiAt nr := insertChar.iterate _

theorem csiSgr : Indifferent Console.csiSgr := fun _ _ _ => rfl

theorem decPar (i : ℕ) : Indifferent fun s => s.decPar i :=
  ite (fun _ _ _ => Iff.rfl) (fun _ _ _ => rfl) id

theorem onePar : Indifferent Console.onePar := ite (fun _ _ _ => Iff.rfl) (fun _ _ _ => rfl) id

theorem region : Indifferent Console.region := by
  have hlast : Indifferent fun s => if s.par 1 = 0 then s.setPar 1 lines else s :=
    ite (fun _ _ _ => Iff.rfl) (fun _ _ _ => rfl) id
  have hset : Indifferent fun s => if s.par 0 < s.par 1 ∧ s.par 1 ≤ lines then
      { s with top := s.par 0, bottom := s.par 1 } else s :=
    ite (fun _ _ _ => Iff.rfl) (fun _ _ _ => rfl) id
  have hregion := (decPar 0).comp (hlast.comp hset)
  exact hregion

theorem print (c : UInt8) : Indifferent fun s => s.print c := by
  have hwrap : Indifferent fun s => if columns ≤ s.x then s.wrap else s :=
    ite (fun _ _ _ => Iff.rfl) wrap id
  exact comp hwrap (g := fun s => { s with
    video := s.video.store16 s.pos (c, s.attr)
    pos := u32 (s.pos + 2)
    x := u32 (s.x + 1) }) fun _ _ _ => rfl

theorem tab : Indifferent Console.tab := by
  have hwrap : Indifferent fun s => if columns < s.x then s.wrap else s :=
    ite (fun _ _ _ => Iff.rfl) wrap id
  exact comp (f := fun s => { s with
    x := u32 (s.x + (8 - s.x % 8 : ℕ)), pos := u32 (s.pos + (8 - s.x % 8 : ℕ) * 2) })
    (fun _ _ _ => rfl) hwrap

theorem plain (e : UInt8) (hc : c ≠ 27) : Indifferent fun s => s.plain e c := by
  unfold Console.plain
  simp only [if_neg hc]
  split_ifs
  · exact print c
  · exact lf
  · exact cr
  · exact del
  · exact back
  · exact tab
  · exact id

/-- The cursor is moved after a change of the parameters. -/
theorem thenGotoxy (hf : Indifferent f) (x y : Console → ℕ)
    (hx : ∀ m k s, x (frame m k s) = x s := by intro _ _ _; rfl)
    (hy : ∀ m k s, y (frame m k s) = y s := by intro _ _ _; rfl) :
    Indifferent fun s => (f s).gotoxy (x (f s)) (y (f s)) := hf.comp (gotoxy x y hx hy)

theorem ofPar {f : ℕ → Console → Console} (hf : ∀ n, Indifferent (f n)) :
    Indifferent fun s => f (s.par 0) s := fun m k s => hf (s.par 0) m k s

/-- All commands except for `CSI s` and `CSI u`. -/
theorem command (hsave : c ≠ 's'.toUInt8) (hrestore : c ≠ 'u'.toUInt8) :
    Indifferent fun s => s.command c := by
  have hdec := decPar 0
  have hdec₂ := hdec.comp (decPar 1)
  unfold Console.command
  refine cond (hdec.thenGotoxy (fun s => s.par 0) fun s => s.y) ?_
  refine cond (onePar.thenGotoxy (fun s => s.x) fun s => u32 (s.y - s.par 0)) ?_
  refine cond (onePar.thenGotoxy (fun s => s.x) fun s => u32 (s.y + s.par 0)) ?_
  refine cond (onePar.thenGotoxy (fun s => u32 (s.x + s.par 0)) fun s => s.y) ?_
  refine cond (onePar.thenGotoxy (fun s => u32 (s.x - s.par 0)) fun s => s.y) ?_
  refine cond (onePar.thenGotoxy (fun _ => 0) fun s => u32 (s.y + s.par 0)) ?_
  refine cond (onePar.thenGotoxy (fun _ => 0) fun s => u32 (s.y - s.par 0)) ?_
  refine cond (hdec.thenGotoxy (fun s => s.x) fun s => s.par 0) ?_
  refine cond (hdec₂.thenGotoxy (fun s => s.par 1) fun s => s.par 0) ?_
  refine cond (ofPar csiJ) (cond (ofPar csiK) ?_)
  refine cond (ofPar csiL) (cond (ofPar csiM) (cond (ofPar csiP) (cond (ofPar csiAt) ?_)))
  refine cond csiSgr (cond region ?_)
  rw [funext fun s => if_neg hsave, funext fun s => if_neg hrestore]
  exact id

theorem state_eq (hf : Indifferent f) (s : Console) : (f s).state = s.state := by
  have hcomm : f s = frame s.saved s.state (f s) := hf s.saved s.state s
  have hstate := congrArg Console.state hcomm
  exact hstate

theorem withSaved_comm (hf : Indifferent f) (m : ℕ × ℕ) (s : Console) :
    f (s.withSaved m) = (f s).withSaved m := by
  have hcomm : f (s.withSaved m) = frame m s.state (f s) := hf m s.state s
  rwa [← hf.state_eq s] at hcomm

end Indifferent

/-! ### One character -/

theorem putc_ground (h : s.state = 0) : s.putc erase c = s.plain erase c := by
  simp only [putc, h]

theorem putc_escape (h : s.state = 1) : s.putc erase c = s.escape c := by
  simp only [putc, h]

theorem putc_bracket (h : s.state = 2) : s.putc erase c = s.bracket c := by
  simp only [putc, h]

theorem putc_params (h : s.state = 3) : s.putc erase c = s.params c := by
  simp only [putc, h]

/-- What the driver does with a character after an escape that it does not know. -/
theorem escape_unknown (hc : c ∉ known) : s.escape c =
    if s.x = 55 then { s with state := 0 }.saveCur
    else if s.x = 56 then { s with state := 0 }.restoreCur
    else { s with state := 0 } := by
  simp only [known, List.mem_cons, List.not_mem_nil, or_false, not_or] at hc
  obtain ⟨h₁, h₂, h₃, h₄, h₅⟩ := hc
  rw [escape, if_neg h₁, if_neg h₂, if_neg h₃, if_neg h₄, if_neg h₅]

/-- A character that the driver knows after an escape leaves the saved cursor alone. -/
theorem escape_known (hc : c ∈ known) (m : ℕ × ℕ) (s : Console) :
    (s.withSaved m).escape c = (s.escape c).withSaved m := by
  have hgoto := Indifferent.gotoxy (fun _ => 0) fun s => u32 (s.y + 1)
  have h (f : Console → Console) (hf : Indifferent f) :=
    hf.withSaved_comm m { s with state := 0 }
  simp only [known, List.mem_cons, List.not_mem_nil, or_false] at hc
  rcases hc with rfl | rfl | rfl | rfl | rfl
  · rfl
  · exact h _ hgoto
  · exact h _ Indifferent.ri
  · exact h _ Indifferent.lf
  · rfl

theorem obeys_other (hsave : p.saves c = false) (hrestore : p.restores c = false) :
    s.Obeys erase p c ↔ ∀ m, (s.withSaved m).putc erase c = (s.putc erase c).withSaved m := by
  unfold Obeys
  simp only [hsave, hrestore, Bool.false_eq_true, if_false]

/-- The end of a sequence with parameters. -/
theorem obeys_final (s : Console) (c : UInt8) (m : ℕ × ℕ) :
    let t := (s.withSaved m).final c
    if c = 's'.toUInt8 then t.saved = s.cursor ∧ t.cursor = s.cursor
    else if c = 'u'.toUInt8 then t.saved = m ∧ t.cursor = m
    else t = (s.final c).withSaved m := by
  dsimp only
  split_ifs with hsave hrestore
  · subst hsave
    exact ⟨rfl, rfl⟩
  · subst hrestore
    exact ⟨rfl, rfl⟩
  · exact (Indifferent.command hsave hrestore).withSaved_comm m { s with state := 0 }

/-- A character in the parameters. -/
theorem obeys_params (s : Console) (c : UInt8) (m : ℕ × ℕ) :
    let t := (s.withSaved m).params c
    if c = 's'.toUInt8 then t.saved = s.cursor ∧ t.cursor = s.cursor
    else if c = 'u'.toUInt8 then t.saved = m ∧ t.cursor = m
    else t = (s.params c).withSaved m := by
  by_cases hsep : c = ';'.toUInt8 ∧ s.npar < NPAR - 1
  · obtain ⟨rfl, hnpar⟩ := hsep
    have hparams (t : Console) (ht : t.npar < NPAR - 1) :
        t.params ';'.toUInt8 = { t with npar := t.npar + 1 } := if_pos ⟨rfl, ht⟩
    dsimp only
    rw [hparams _ hnpar, hparams (s.withSaved m) hnpar]
    exact rfl
  by_cases hdigit : '0'.toUInt8 ≤ c ∧ c ≤ '9'.toUInt8
  · have hparams (t : Console) (ht : t.npar = s.npar) :
        t.params c = t.setPar t.npar (u32 (10 * t.par t.npar + c.toNat - 48)) := by
      rw [params, ht, if_neg hsep, if_pos hdigit]
    have hne : c ≠ 's'.toUInt8 ∧ c ≠ 'u'.toUInt8 := by
      constructor <;> rintro rfl <;> exact absurd hdigit (by decide)
    dsimp only
    rw [if_neg hne.1, if_neg hne.2, hparams _ rfl, hparams (s.withSaved m) rfl]
    rfl
  · have hparams (t : Console) (ht : t.npar = s.npar) : t.params c = t.final c := by
      rw [← ht] at hsep
      rw [params, if_neg hsep, if_neg hdigit]
      rfl
    rw [hparams _ rfl, hparams (s.withSaved m) rfl]
    exact obeys_final s c m

/-- A character after an escape that the driver does not know: it looks at the column instead. -/
theorem obeys_unknown (h : s.state = 1) (hc : c ∉ known) : s.Obeys erase .escape c ↔
    (c = '7'.toUInt8 ↔ s.x = 55) ∧ (c = '8'.toUInt8 ↔ s.x = 56) := by
  have hputc (m : ℕ × ℕ) : (s.withSaved m).putc erase c =
      if s.x = 55 then { s.withSaved m with state := 0 }.saveCur
      else if s.x = 56 then { s.withSaved m with state := 0 }.restoreCur
      else { s.withSaved m with state := 0 } := by
    have hs : (s.withSaved m).state = 1 := h
    rw [putc_escape hs, escape_unknown hc]
    rfl
  -- A saved cursor that differs from the cursor.
  have hne : ((s.x + 1, 0) : ℕ × ℕ) ≠ s.cursor := fun heq =>
    Nat.succ_ne_self s.x (congrArg Prod.fst heq)
  by_cases hsave : c = '7'.toUInt8
  · have hobeys : s.Obeys erase .escape c ↔ s.x = 55 := by
      subst hsave
      refine ⟨fun hobeys => ?_, fun hx m => ?_⟩
      · by_contra hx
        have hsaved : ((s.withSaved (s.x + 1, 0)).putc erase '7'.toUInt8).saved = (s.x + 1, 0) := by
          rw [hputc, if_neg hx]
          split_ifs <;> rfl
        exact hne (hsaved.symm.trans (hobeys _).1)
      · rw [hputc, if_pos hx]
        exact ⟨rfl, rfl⟩
    subst hsave
    rw [hobeys]
    have hne' : '7'.toUInt8 ≠ '8'.toUInt8 := by decide
    simp only [true_iff, hne', false_iff]
    omega
  by_cases hrestore : c = '8'.toUInt8
  · have hobeys : s.Obeys erase .escape c ↔ s.x = 56 := by
      subst hrestore
      refine ⟨fun hobeys => ?_, fun hx m => ?_⟩
      · by_contra hx
        have hcursor : ((s.withSaved (s.x + 1, 0)).putc erase '8'.toUInt8).cursor = s.cursor := by
          rw [hputc, if_neg hx]
          split_ifs <;> rfl
        exact hne ((hobeys (s.x + 1, 0)).2.symm.trans hcursor)
      · have hx' : s.x ≠ 55 := by omega
        dsimp only
        rw [hputc, if_neg hx', if_pos hx]
        exact ⟨rfl, rfl⟩
    subst hrestore
    rw [hobeys]
    simp only [hsave, true_iff, false_iff]
    omega
  · have hobeys : s.Obeys erase .escape c ↔ s.x ≠ 55 ∧ s.x ≠ 56 := by
      have hsaves : Place.saves .escape c = false := decide_eq_false hsave
      have hrestores : Place.restores .escape c = false := decide_eq_false hrestore
      rw [obeys_other hsaves hrestores]
      refine ⟨fun hobeys => ⟨fun hx => ?_, fun hx => ?_⟩, fun ⟨h₅₅, h₅₆⟩ m => ?_⟩
      · have hsaved := congrArg saved (hobeys (s.x + 1, 0))
        rw [hputc, if_pos hx] at hsaved
        exact hne hsaved.symm
      · -- Two saved cursors would have to lead to the same cursor.
        have hcursor (m : ℕ × ℕ) : m = (s.putc erase c).cursor := by
          have heq := congrArg cursor (hobeys m)
          rw [hputc, if_neg (by omega), if_pos hx] at heq
          exact heq
        have heq := (hcursor (0, 0)).trans (hcursor (1, 0)).symm
        exact absurd heq (by decide)
      · rw [hputc, if_neg h₅₅, if_neg h₅₆, putc_escape h, escape_unknown hc, if_neg h₅₅, if_neg h₅₆]
        rfl
    rw [hobeys]
    simp only [hsave, hrestore, false_iff]

/-- A character does what its sequence says if and only if the column agrees with it. -/
theorem obeys_iff (h : s.At p) : s.Obeys erase p c ↔ s.Recognised p c := by
  unfold Recognised
  cases p with
  | ground =>
    refine iff_of_true ((obeys_other rfl rfl).mpr fun m => ?_) fun hp => nomatch hp
    have hs : s.state = 0 := h
    rw [putc_ground hs, putc_ground (s := s.withSaved m) hs]
    by_cases hc : c = 27
    · subst hc
      rfl
    · exact (Indifferent.plain erase hc).withSaved_comm m s
  | escape =>
    by_cases hc : c ∈ known
    · refine iff_of_true ((obeys_other ?_ ?_).mpr fun m => ?_) fun _ hnot => absurd hc hnot
      · exact decide_eq_false fun heq => absurd (heq ▸ hc) (by decide)
      · exact decide_eq_false fun heq => absurd (heq ▸ hc) (by decide)
      · have hs : s.state = 1 := h
        rw [putc_escape hs, putc_escape (s := s.withSaved m) hs]
        exact escape_known hc m s
    · rw [obeys_unknown h hc]
      exact ⟨fun hobeys _ _ => hobeys, fun hrec => hrec rfl hc⟩
  | bracket =>
    refine iff_of_true (fun m => ?_) fun hp => nomatch hp
    have hs : s.state = 2 := h
    dsimp only
    rw [putc_bracket hs, putc_bracket (s := s.withSaved m) hs]
    by_cases hques : c = '?'.toUInt8
    · subst hques
      rfl
    · have hobeys := obeys_params { s with
        par := fun i => if i < NPAR then 0 else s.par i, npar := 0, state := 3,
        ques := decide (c = '?'.toUInt8) } c m
      simp only [Place.saves, Place.restores, decide_eq_true_eq]
      unfold Console.bracket
      dsimp only
      rw [if_neg hques, if_neg hques]
      exact hobeys
  | params n =>
    refine iff_of_true (fun m => ?_) fun hp => nomatch hp
    have hs : s.state = 3 := h.1
    have hobeys := obeys_params s c m
    dsimp only
    rw [putc_params hs, putc_params (s := s.withSaved m) hs]
    simp only [Place.saves, Place.restores, decide_eq_true_eq]
    exact hobeys

/-! ### The parser follows the sequences -/

theorem state_command (s : Console) (c : UInt8) : (s.command c).state = s.state := by
  by_cases hsave : c = 's'.toUInt8
  · subst hsave
    rfl
  by_cases hrestore : c = 'u'.toUInt8
  · subst hrestore
    rfl
  · exact (Indifferent.command hsave hrestore).state_eq s

theorem at_params (h : s.state = 3) (c : UInt8) : (s.params c).At (Place.nextParam s.npar c) := by
  unfold params Place.nextParam
  split_ifs
  · exact ⟨h, rfl⟩
  · exact ⟨h, rfl⟩
  · exact state_command { s with state := 0 } c

theorem at_escape (s : Console) (c : UInt8) : (s.escape c).At (Place.next .escape c) := by
  have h (f : Console → Console) (hf : Indifferent f) : (f { s with state := 0 }).state = 0 :=
    hf.state_eq { s with state := 0 }
  unfold escape Place.next
  dsimp only
  split_ifs
  · exact rfl
  · exact h _ (Indifferent.gotoxy (fun _ => 0) fun s => u32 (s.y + 1))
  · exact h _ Indifferent.ri
  · exact h _ Indifferent.lf
  all_goals exact rfl

/-- The parser of the driver is at the place of the character. -/
theorem at_putc (h : s.At p) (erase c : UInt8) : (s.putc erase c).At (p.next c) := by
  cases p with
  | ground =>
    have hs : s.state = 0 := h
    rw [putc_ground hs]
    change (s.plain erase c).At (if c = 27 then .escape else .ground)
    split_ifs with hc
    · subst hc
      exact rfl
    · exact ((Indifferent.plain erase hc).state_eq s).trans hs
  | escape =>
    rw [putc_escape h]
    exact at_escape s c
  | bracket =>
    rw [putc_bracket h]
    unfold bracket Place.next
    dsimp only
    split_ifs
    · exact ⟨rfl, rfl⟩
    · exact at_params rfl c
  | params n =>
    obtain ⟨hs, rfl⟩ := h
    rw [putc_params hs]
    exact at_params hs c

theorem steps_iff {P Q : Place → Console → UInt8 → Prop}
    (hPQ : ∀ p s c, s.At p → (P p s c ↔ Q p s c)) (h : s.At p) (l : List UInt8) :
    Steps P erase p s l ↔ Steps Q erase p s l := by
  induction l generalizing s p with
  | nil => exact Iff.rfl
  | cons c l ih => exact and_congr (hPQ p s c h) (ih (at_putc h erase c))

theorem steps_append {P : Place → Console → UInt8 → Prop} (l l' : List UInt8) :
    Steps P erase p s (l ++ l') ↔
      Steps P erase p s l ∧ Steps P erase (l.foldl Place.next p) (s.run erase l) l' := by
  induction l generalizing s p with
  | nil => exact ⟨fun h => ⟨trivial, h⟩, And.right⟩
  | cons c l ih =>
    rw [List.cons_append, Steps, Steps, ih, and_assoc]
    rfl

theorem run_append (l l' : List UInt8) : s.run erase (l ++ l') = (s.run erase l).run erase l' :=
  List.foldl_append

/-! ### Saving and restoring -/

/-- Characters without a sequence that saves the cursor leave the saved cursor as it is. -/
theorem saved_run (h : s.At p) (hw : p.Plain w) (hobeys : Steps (Obeys erase) erase p s w) :
    (s.run erase w).saved = s.saved ∧ (s.run erase w).At .ground ∧
      w.foldl Place.next p = .ground := by
  induction w generalizing s p with
  | nil =>
    obtain rfl : p = .ground := hw
    exact ⟨rfl, h, rfl⟩
  | cons c w ih =>
    obtain ⟨hsaves, hrestores, hw⟩ := hw
    have hstep : s.putc erase c = (s.putc erase c).withSaved s.saved :=
      (obeys_other hsaves hrestores).mp hobeys.1 s.saved
    have hsaved : (s.putc erase c).saved = s.saved := by
      rw [hstep]
      rfl
    obtain ⟨hrun, hground, hplace⟩ := ih (at_putc h erase c) hw hobeys.2
    exact ⟨hrun.trans hsaved, hground, hplace⟩

theorem putc_esc (h : s.state = 0) : s.putc erase 27 = { s with state := 1 } := by
  rw [putc_ground h]
  rfl

theorem putc_open (h : s.state = 1) : s.putc erase '['.toUInt8 = { s with state := 2 } := by
  rw [putc_escape h]
  rfl

/-- A sequence that saves the cursor saves it, and leaves it where it is. -/
theorem run_save (h : s.At .ground) (pair : Pair)
    (hobeys : Steps (Obeys erase) erase .ground s pair.save) :
    (s.run erase pair.save).saved = s.cursor ∧ (s.run erase pair.save).At .ground ∧
      pair.save.foldl Place.next .ground = .ground := by
  have hs : s.state = 0 := h
  cases pair with
  | esc =>
    have hrun : s.run erase Pair.esc.save = { s with state := 1 }.putc erase '7'.toUInt8 := by
      rw [← putc_esc hs]
      rfl
    have hsave := hobeys.2.1
    rw [putc_esc hs] at hsave
    have hat : ({ s with state := 1 } : Console).At .escape := rfl
    rw [hrun]
    exact ⟨(hsave s.saved).1, at_putc hat erase '7'.toUInt8, rfl⟩
  | csi =>
    have hs' : { s with state := 1 }.state = 1 := rfl
    have hrun : s.run erase Pair.csi.save = { s with state := 2 }.putc erase 's'.toUInt8 := by
      rw [← putc_open hs', ← putc_esc hs]
      rfl
    have hsave := hobeys.2.2.1
    rw [putc_esc hs, putc_open hs'] at hsave
    have hat : ({ s with state := 2 } : Console).At .bracket := rfl
    rw [hrun]
    exact ⟨(hsave s.saved).1, at_putc hat erase 's'.toUInt8, rfl⟩

/-- A sequence that restores the cursor moves it to where it has been saved. -/
theorem run_restore (h : s.At .ground) (pair : Pair)
    (hobeys : Steps (Obeys erase) erase .ground s pair.restore) :
    (s.run erase pair.restore).cursor = s.saved := by
  have hs : s.state = 0 := h
  cases pair with
  | esc =>
    have hrun : s.run erase Pair.esc.restore = { s with state := 1 }.putc erase '8'.toUInt8 := by
      rw [← putc_esc hs]
      rfl
    have hrestore := hobeys.2.1
    rw [putc_esc hs] at hrestore
    rw [hrun]
    exact (hrestore s.saved).2
  | csi =>
    have hs' : { s with state := 1 }.state = 1 := rfl
    have hrun : s.run erase Pair.csi.restore = { s with state := 2 }.putc erase 'u'.toUInt8 := by
      rw [← putc_open hs', ← putc_esc hs]
      rfl
    have hrestore := hobeys.2.2.1
    rw [putc_esc hs, putc_open hs'] at hrestore
    rw [hrun]
    exact (hrestore s.saved).2

/-- When every character does what its sequence says, the cursor is where it was. -/
theorem cursor_run (h : s.At .ground) (pair : Pair) (hw : Place.ground.Plain w)
    (hobeys : Steps (Obeys erase) erase .ground s (pair.save ++ w ++ pair.restore)) :
    (s.run erase (pair.save ++ w ++ pair.restore)).cursor = s.cursor := by
  rw [List.append_assoc, steps_append] at hobeys
  obtain ⟨hsave, hobeys⟩ := hobeys
  obtain ⟨hsaved, hat, hplace⟩ := run_save h pair hsave
  rw [hplace, steps_append] at hobeys
  obtain ⟨hplain, hrestore⟩ := hobeys
  obtain ⟨hsaved', hat', hplace'⟩ := saved_run hat hw hplain
  rw [hplace'] at hrestore
  rw [List.append_assoc, run_append, run_append, run_restore hat' pair hrestore, hsaved', hsaved]

end Console

/-! ### `con_write` -/

section Calls

variable {σ : Type*} {high : UInt8 → Bool} {d : Driver σ} {s : Terminal σ}

open Terminal

/-- The loop of `con_write` shows the characters of the write queue, and nothing else, if the
terminal is calm and the last character is not the end of a query. -/
theorem conLoop_shows (hd : ∀ z c, d.asks z c = true → c = 'Z'.toUInt8) {n nr : ℕ}
    (hn : ∀ q : Queue, q.chars < n) (hnr : s.writeQ.content.length = nr)
    (hlast : ∀ c ∈ s.writeQ.content.getLast?, c ≠ 'Z'.toUInt8) (hcalm : s.Calm high d) :
    ∃ t, conLoop d (respond high d n) nr s = some t ∧
      t.screen = s.writeQ.content.foldl (fun z c => d.putc z s.termios.eraseChar c) s.screen := by
  induction nr generalizing s with
  | zero =>
    rw [List.length_eq_zero_iff.mp hnr]
    exact ⟨s, rfl, rfl⟩
  | succ nr ih =>
    obtain ⟨c, l, hcontent, hcontent', hnr'⟩ := exists_took (d := d) hnr
    have hlast' : ∀ x ∈ l.getLast?, x ≠ 'Z'.toUInt8 := by
      intro x hx
      refine hlast x ?_
      rw [hcontent]
      exact List.mem_getLast?_cons hx
    rw [conLoop_cons hcontent, hcontent, List.foldl_cons]
    by_cases hasks : d.asks s.screen c = true
    swap
    · rw [if_neg hasks]
      obtain ⟨t, ht, hscreen⟩ := ih hnr' (hcontent' ▸ hlast') (calm_took hcontent hasks hcalm)
      rw [hcontent'] at hscreen
      exact ⟨t, ht, hscreen⟩
    have hl : l ≠ [] := by
      rintro rfl
      refine hlast c ?_ (hd _ _ hasks)
      rw [hcontent]
      exact rfl
    rw [if_pos hasks]
    obtain ⟨s', hanswer, hwrite, htermios, hscreen, hcalm'⟩ :=
      respond_of_calm hn hcontent hasks hl hcalm
    rw [← hwrite] at hnr' hcontent'
    obtain ⟨t, ht, hshown⟩ := ih hnr' (hcontent' ▸ hlast') hcalm'
    rw [hcontent', htermios, hscreen] at hshown
    exact ⟨t, Option.bind_eq_some_iff.mpr ⟨s', hanswer, ht⟩, hshown⟩

end Calls

/-- `con_write` on a calm terminal shows the characters of the write queue. -/
theorem conWrite_run {high : UInt8 → Bool} {t : Terminal Console}
    (hlast : ∀ c ∈ t.writeQ.content.getLast?, c ≠ 'Z'.toUInt8) (hcalm : t.Calm high console) :
    ∃ t', (∃ n, ∀ fuel ≥ n, conWrite high console fuel t = some t') ∧
      t'.screen = t.screen.run t.termios.eraseChar t.writeQ.content := by
  obtain ⟨n, -, hn⟩ := exists_rounds 0
  obtain ⟨t', ht', hscreen⟩ := conLoop_shows (d := console)
    (fun _ _ h => (of_decide_eq_true h).2) hn Queue.length_content hlast hcalm
  have hreturns : conWrite high console (n + 1) t = some t' := ht'
  exact ⟨t', ⟨n + 1, fun fuel hfuel => conWrite_extends hfuel t t' hreturns⟩, hscreen⟩

/-- The characters `w` are written between a save of the cursor and its restoration: every character
does with the saved cursor what its sequence says, and the cursor is where it was before. -/
structure Restored (erase : UInt8) (s : Console) (pair : Pair) (w : List UInt8) : Prop where
  obeys : Console.Steps (Console.Obeys erase) erase .ground s (pair.save ++ w ++ pair.restore)
  returns : (s.run erase (pair.save ++ w ++ pair.restore)).cursor = s.cursor

/-- `con_write` of the characters `w` between a save of the cursor and its restoration writes every
character once; it does with the saved cursor what its sequence says, and in the end the cursor is
where it was before. -/
structure Terminal.Restores (high : UInt8 → Bool) (t : Terminal Console) (pair : Pair)
    (w : List UInt8) : Prop where
  once : ConsumedOnce high console t
  obeys : Console.Steps (Console.Obeys t.termios.eraseChar) t.termios.eraseChar .ground t.screen
    (pair.save ++ w ++ pair.restore)
  returns : ∃ t', (∃ n, ∀ fuel ≥ n, conWrite high console fuel t = some t') ∧
    t'.screen.cursor = t.screen.cursor

theorem Pair.getLast?_restore (pair : Pair) (l : List UInt8) :
    ∀ c ∈ (l ++ pair.restore).getLast?, c ≠ 'Z'.toUInt8 := by
  intro c hc
  cases pair with
  | esc =>
    obtain rfl : '8'.toUInt8 = c := by simpa [Pair.restore] using hc
    decide
  | csi =>
    obtain rfl : 'u'.toUInt8 = c := by simpa [Pair.restore] using hc
    decide

/-- The cursor is saved and restored as the sequences say if and only if the column of the cursor
agrees with every character after an escape that the driver does not know. In `con_write` the
terminal must be calm as well, since the echo of an answer is written, too. -/
theorem restored_iff {erase : UInt8} {s : Console} {w : List UInt8} (hground : s.At .ground)
    (hw : Place.ground.Plain w) (pair : Pair) :
    (Restored erase s pair w ↔
      Console.Steps Console.Recognised erase .ground s (pair.save ++ w ++ pair.restore)) ∧
    ∀ high (t : Terminal Console), t.screen = s → t.termios.eraseChar = erase → t.writeQ.Fifo →
      t.writeQ.content = pair.save ++ w ++ pair.restore →
      (t.Restores high pair w ↔
        Console.Steps Console.Recognised erase .ground s (pair.save ++ w ++ pair.restore) ∧
          t.Calm high console) := by
  have hobeys (p : Place) (s : Console) (c : UInt8) (h : s.At p) :
      s.Obeys erase p c ↔ s.Recognised p c := Console.obeys_iff h
  have hsteps :
      Console.Steps (Console.Obeys erase) erase .ground s (pair.save ++ w ++ pair.restore) ↔
        Console.Steps Console.Recognised erase .ground s (pair.save ++ w ++ pair.restore) :=
    Console.steps_iff hobeys hground _
  refine ⟨?_, fun high t hscreen herase hfifo hcontent => ?_⟩
  · rw [← hsteps]
    exact ⟨Restored.obeys, fun h => ⟨h, Console.cursor_run hground pair hw h⟩⟩
  · subst hscreen herase
    rw [← hsteps]
    refine ⟨fun h => ⟨h.obeys, calm_of_consumedOnce h.once⟩, fun ⟨h, hcalm⟩ => ?_⟩
    have hlast : ∀ c ∈ t.writeQ.content.getLast?, c ≠ 'Z'.toUInt8 := by
      rw [hcontent]
      exact pair.getLast?_restore _
    obtain ⟨t', hreturns, hscreen⟩ := conWrite_run hlast hcalm
    have honce := consumedOnce_of_calm (fun _ _ h => (of_decide_eq_true h).2) hfifo hcalm
    refine ⟨honce, h, t', hreturns, ?_⟩
    rw [hscreen, hcontent]
    exact Console.cursor_run hground pair hw h

/-- A terminal with `CSI s`, a letter and `CSI u` in its write queue. -/
def letter : Terminal Console where
  termios := ⟨0, 0, 0o10, fun _ => 0⟩
  pgrp := 0
  stopped := false
  readQ := ⟨0, 0, 0, fun _ => 0, [], [], false, false⟩
  writeQ := ⟨0, 7, 0, fun i => [27, 91, 115, 65, 27, 91, 117].getD i 0,
    [117, 91, 27, 65, 115, 91, 27], [], false, false⟩
  secondary := ⟨0, 0, 0, fun _ => 0, [], [], false, false⟩
  signalled := []
  screen := Console.boot fun _ => 0

theorem restored_iff_letter :
    letter.Restores (fun _ => false) .csi [65] ↔
      Console.Steps Console.Recognised 0 .ground (Console.boot fun _ => 0)
        (Pair.csi.save ++ [65] ++ Pair.csi.restore) ∧ letter.Calm (fun _ => false) console :=
  (restored_iff (s := Console.boot fun _ => 0) (w := [65]) rfl (by decide) .csi).2 _ letter rfl rfl
    ⟨rfl, rfl, by decide⟩ (by decide)

/-- `ESC 7`, a letter and `ESC 8` at the first column: the cursor stays after the letter. -/
theorem not_restored_column : ¬ ∀ (erase : UInt8) (s : Console) (pair : Pair) (w : List UInt8),
    s.At .ground → Place.ground.Plain w → Restored erase s pair w := by
  intro h
  have hcursor := (h 127 (Console.boot fun _ => 0) .esc [65] rfl (by decide)).returns
  have hletter : ((Console.boot fun _ => 0).run 127
      (Pair.esc.save ++ [65] ++ Pair.esc.restore)).cursor =
      (1, 0) := rfl
  exact absurd (hletter.symm.trans hcursor) (by decide)

end Linux001.Tty
