import Linux001.Printf.Format

/-!
# The language of formats

A format of the language is a list of items, which are bytes of text and directives. A directive
that takes its width or its precision from the arguments, by `*`, is to be rendered as if the number
were written in the format. But `vsprintf` does not move `fmt` on behind the `*`, which becomes the
conversion of the directive; there is no such conversion, and the rest is written out as text.

What it writes then can still be what is to be written: the format `%*s%*%*c` writes itself and
takes three arguments, as it should do if the first two are 0 and the string `%*s%*`. So it is the
prefixes of a format that show which directives are rendered.

## Main definitions

* `Directive`, `Item`: the language.
* `Directive.render`, `render`: what is to be written, and how many arguments are to be taken.
* `Renders`: `vsprintf` writes that, and returns its length.

## Main results

* `formatLoop_bytes`: a format without a `*` is rendered.
* `directive_of_star`: a directive with a `*` is written out.
* `renders_iff`: the prefixes of a format are rendered if and only if there is no `*` in it.
-/

namespace Linux001.Printf

variable (a : Args)

/-! ### The language -/

/-- The flags of a directive. -/
inductive Flag
  | minus
  | plus
  | space
  | hash
  | zero
  deriving DecidableEq, Repr

def Flag.char : Flag → Char
  | .minus => '-'
  | .plus => '+'
  | .space => ' '
  | .hash => '#'
  | .zero => '0'

def Flag.set (flags : Flags) : Flag → Flags
  | .minus => { flags with left := true }
  | .plus => { flags with plus := true }
  | .space => { flags with space := true }
  | .hash => { flags with special := true }
  | .zero => { flags with zeropad := true }

/-- A width or a precision: the next argument, or digits. -/
inductive Size
  | star
  | literal (ds : List Char)
  deriving DecidableEq, Repr

def Size.text : Size → List Char
  | .star => ['*']
  | .literal ds => ds

/-- The qualifiers. -/
inductive Qualifier
  | h
  | l
  | L
  deriving DecidableEq, Repr

def Qualifier.char : Qualifier → Char
  | .h => 'h'
  | .l => 'l'
  | .L => 'L'

/-- The conversions. -/
inductive Conversion
  | c
  | s
  | o
  | p
  | x
  | X
  | d
  | i
  | u
  | percent
  deriving DecidableEq, Repr

def Conversion.char : Conversion → Char
  | .c => 'c'
  | .s => 's'
  | .o => 'o'
  | .p => 'p'
  | .x => 'x'
  | .X => 'X'
  | .d => 'd'
  | .i => 'i'
  | .u => 'u'
  | .percent => '%'

/-- A directive. -/
structure Directive where
  flags : List Flag
  width : Option Size
  precision : Option Size
  qualifier : Option Qualifier
  conversion : Conversion
  deriving DecidableEq, Repr

/-- A part of a format: a byte of text, or a directive. -/
inductive Item
  | text (c : Char)
  | directive (d : Directive)
  deriving DecidableEq, Repr

namespace Directive

variable (d : Directive)

/-- The qualifier and the conversion. -/
def qualified : List Char := (d.qualifier.map Qualifier.char).toList ++ [d.conversion.char]

/-- The precision, and what follows. -/
def precised : List Char := d.precision.elim [] (fun z => '.' :: z.text) ++ d.qualified

/-- The width, and what follows. -/
def sized : List Char := d.width.elim [] Size.text ++ d.precised

/-- The text of the directive. -/
def text : List Char := '%' :: (d.flags.map Flag.char ++ d.sized)

/-- The digits of a width do not begin with the flag `0`, and the sizes that are written in the
format are sizes of type `int`. -/
structure Valid : Prop where
  width : ∀ ds, d.width = some (.literal ds) → ds ≠ [] ∧ ds.head? ≠ some '0'
  digit : ∀ ds, d.width = some (.literal ds) ∨ d.precision = some (.literal ds) →
    (∀ c ∈ ds, isDigit c = true) ∧ readDigits 10 ds < 2 ^ 31

/-- A size is taken from the arguments. -/
def Star : Prop := d.width = some .star ∨ d.precision = some .star

instance : Decidable d.Star := inferInstanceAs (Decidable (_ ∨ _))

end Directive

/-- The bytes of an item. -/
def Item.bytes : Item → List Char
  | .text c => [c]
  | .directive d => d.text

/-- Text has no `%` and no terminator. -/
def Item.Valid : Item → Prop
  | .text c => c ≠ '%' ∧ c ≠ '\x00'
  | .directive d => d.Valid

/-- A size is taken from the arguments. -/
def Item.Star : Item → Prop
  | .text _ => False
  | .directive d => d.Star

/-- The bytes of a format. -/
def bytes (F : List Item) : List Char := F.flatMap Item.bytes

/-! ### What is to be written -/

/-- A size, with the number of arguments that have been taken: -1 if there is none. -/
def sizeOf (next : ℕ) : Option Size → ℤ × ℕ
  | none => (-1, next)
  | some .star => ((a.word next).toInt, next + 1)
  | some (.literal ds) => (readDigits 10 ds, next)

/-- Text in a field of at least `width` bytes. -/
def field (flags : Flags) (width : ℤ) (s : List Char) : List Char :=
  if flags.left then s ++ List.replicate (width - s.length).toNat ' '
  else List.replicate (width - s.length).toNat ' ' ++ s

/-- What a conversion is to write for the argument `v`. For a number it is the output of `number`,
which `Formatted` describes. -/
def Conversion.render (flags : Flags) (width precision : ℤ) (v : Word) : Conversion → List Char
  | .c => field flags width [Char.ofNat (v.toNat % 256)]
  | .s => field flags width
    (if precision < 0 then a.string v else (a.string v).take precision.toNat)
  | .o => (number v 8 width precision flags).getD []
  | .p =>
    if width = -1 then (number v 16 8 precision { flags with zeropad := true }).getD []
    else (number v 16 width precision flags).getD []
  | .x => (number v 16 width precision { flags with small := true }).getD []
  | .X => (number v 16 width precision flags).getD []
  | .d | .i => (number v 10 width precision { flags with sign := true }).getD []
  | .u => (number v 10 width precision flags).getD []
  | .percent => ['%']

/-- What a directive is to write, and how many arguments have been taken then: one for each `*`, and
one for the conversion, unless it is `%`. -/
def Directive.render (d : Directive) (next : ℕ) : List Char × ℕ :=
  let (width, next) := sizeOf a next d.width
  let (precision, next) := sizeOf a next d.precision
  (d.conversion.render a (d.flags.foldl Flag.set .none) width precision (a.word next),
    if d.conversion = .percent then next else next + 1)

/-- What a format is to write, and how many arguments have been taken then. -/
def render : List Item → ℕ → List Char × ℕ
  | [], next => ([], next)
  | .text c :: F, next => (c :: (render F next).1, (render F next).2)
  | .directive d :: F, next =>
    ((d.render a next).1 ++ (render F (d.render a next).2).1, (render F (d.render a next).2).2)

/-- `vsprintf` writes what it is to write, and returns its length. -/
def Renders (F : List Item) : Prop :=
  vsprintf a (bytes F) = some ⟨(render a F 0).1 ++ ['\x00'], (render a F 0).2, [],
    (render a F 0).1.length⟩

variable {a} {s : List Char} {c : Char}

/-! ### The parts of a directive -/

/-- A byte that is no flag. -/
def NoFlag (c : Char) : Prop := c ∉ "-+ #0".toList

instance (c : Char) : Decidable (NoFlag c) := inferInstanceAs (Decidable (¬ _))

theorem NoFlag.ne (h : NoFlag c) (f : Flag) : c ≠ f.char := by
  rintro rfl
  cases f <;> exact h (by decide)

theorem noFlag_of_isDigit (h : isDigit c = true) (hzero : c ≠ '0') : NoFlag c := by
  intro hmem
  simp only [String.reduceToList, List.mem_cons, List.not_mem_nil, or_false] at hmem
  rcases hmem with rfl | rfl | rfl | rfl | rfl
  · exact absurd h (by decide)
  · exact absurd h (by decide)
  · exact absurd h (by decide)
  · exact absurd h (by decide)
  · exact hzero rfl

theorem scanFlags_append {fs : List Flag} {flags : Flags} (hc : NoFlag c) :
    scanFlags flags (fs.map Flag.char ++ c :: s) = some (fs.foldl Flag.set flags, c :: s) := by
  induction fs generalizing flags with
  | nil =>
    rw [List.map_nil, List.nil_append, scanFlags, if_neg (show c ≠ '-' from hc.ne .minus),
      if_neg (show c ≠ '+' from hc.ne .plus), if_neg (show c ≠ ' ' from hc.ne .space),
      if_neg (show c ≠ '#' from hc.ne .hash), if_neg (show c ≠ '0' from hc.ne .zero)]
    rfl
  | cons f fs ih =>
    rw [List.map_cons, List.cons_append]
    cases f <;> exact ih

/-- The digits of a size are decimal digits. -/
theorem digits_of_isDigit (h : isDigit c = true) : ∃ j < 10, c = (digits .none).getD j ' ' := by
  have hlo : '0'.toNat ≤ c.toNat := (of_decide_eq_true h).1
  have hhi : c.toNat ≤ '9'.toNat := (of_decide_eq_true h).2
  have hdigit : ∀ j < 10, Char.ofNat ('0'.toNat + j) = (digits .none).getD j ' ' := by decide
  refine ⟨c.toNat - '0'.toNat, (Nat.sub_lt_iff_lt_add hlo).mpr (Nat.lt_succ_of_le hhi), ?_⟩
  rw [← hdigit _ ((Nat.sub_lt_iff_lt_add hlo).mpr (Nat.lt_succ_of_le hhi)), Nat.add_sub_cancel' hlo,
    Char.ofNat_toNat]

/-- A size that is written in the format. -/
theorem skipAtoi_append {ds : List Char} (hds : ∀ d ∈ ds, isDigit d = true)
    (hlt : readDigits 10 ds < 2 ^ 31) (hc : isDigit c = false) :
    skipAtoi (ds ++ c :: s) = some ((readDigits 10 ds : ℤ), c :: s) :=
  skipDigits_append (v := 0) hc (fun d hd => digits_of_isDigit (hds d hd)) hlt

namespace Directive

variable {d : Directive} {flags : Flags} {next : ℕ}

theorem qualified_head (d : Directive) :
    ∃ c t, d.qualified = c :: t ∧ isDigit c = false ∧ c ≠ '*' ∧ c ≠ '.' ∧ NoFlag c := by
  rw [qualified]
  cases d.qualifier with
  | none => exact ⟨_, _, rfl, by cases d.conversion <;> decide⟩
  | some q => exact ⟨_, _, rfl, by cases q <;> decide⟩

theorem precised_head (d : Directive) :
    ∃ c t, d.precised = c :: t ∧ isDigit c = false ∧ c ≠ '*' ∧ NoFlag c := by
  rw [precised]
  cases d.precision with
  | none =>
    obtain ⟨c, t, heq, hdigit, hstar, -, hflag⟩ := d.qualified_head
    exact ⟨c, t, heq, hdigit, hstar, hflag⟩
  | some z => exact ⟨_, _, rfl, by decide⟩

theorem sized_head (hd : d.Valid) : ∃ c t, d.sized = c :: t ∧ NoFlag c := by
  rw [sized]
  cases hw : d.width with
  | none =>
    obtain ⟨c, t, heq, -, -, hflag⟩ := d.precised_head
    exact ⟨c, t, heq, hflag⟩
  | some z =>
    cases z with
    | star => exact ⟨_, _, rfl, by decide⟩
    | literal ds =>
      obtain ⟨hne, hzero⟩ := hd.width ds hw
      cases ds with
      | nil => exact absurd rfl hne
      | cons c ds =>
        exact ⟨c, _, rfl, noFlag_of_isDigit ((hd.digit _ (.inl hw)).1 c List.mem_cons_self)
          fun hc => hzero (congrArg some hc)⟩

theorem scanFlags_text (hd : d.Valid) :
    scanFlags .none (d.flags.map Flag.char ++ d.sized ++ s) =
      some (d.flags.foldl Flag.set .none, d.sized ++ s) := by
  obtain ⟨c, t, heq, hc⟩ := sized_head hd
  rw [heq, List.append_assoc]
  exact scanFlags_append hc

theorem scanWidth_sized (hd : d.Valid) (hw : d.width ≠ some .star) :
    scanWidth a flags next (d.sized ++ s) =
      some ((sizeOf a next d.width).1, flags, (sizeOf a next d.width).2, d.precised ++ s) := by
  obtain ⟨c, t, heq, hdigit, hstar, -⟩ := d.precised_head
  rw [sized, heq]
  cases hz : d.width with
  | none =>
    change scanWidth a flags next (c :: (t ++ s)) = _
    rw [scanWidth, hdigit, if_neg Bool.false_ne_true, if_neg hstar]
    rfl
  | some z =>
    cases z with
    | star => exact absurd hz hw
    | literal ds =>
      obtain ⟨hds, hlt⟩ := hd.digit ds (.inl hz)
      have hskip := skipAtoi_append (s := t ++ s) hds hlt hdigit
      cases ds with
      | nil => exact absurd rfl (hd.width _ hz).1
      | cons e ds =>
        change scanWidth a flags next ((e :: ds) ++ (c :: t) ++ s) = _
        rw [List.append_assoc, List.cons_append, scanWidth, if_pos (hds e List.mem_cons_self)]
        exact congrArg (Option.map _) hskip

theorem scanWidth_star (hw : d.width = some .star) : ∃ width flags',
    scanWidth a flags next (d.sized ++ s) =
      some (width, flags', next + 1, '*' :: d.precised ++ s) := by
  rw [sized, hw]
  change ∃ width flags', scanWidth a flags next ('*' :: (d.precised ++ s)) = _
  rw [scanWidth, if_neg (by decide), if_pos rfl]
  split_ifs
  · exact ⟨_, _, rfl⟩
  · exact ⟨_, _, rfl⟩

theorem scanPrecision_precised (hd : d.Valid) (hp : d.precision ≠ some .star) :
    scanPrecision a next (d.precised ++ s) =
      some ((sizeOf a next d.precision).1, (sizeOf a next d.precision).2, d.qualified ++ s) := by
  obtain ⟨c, t, heq, hdigit, hstar, hpoint, -⟩ := d.qualified_head
  rw [precised, heq]
  cases hz : d.precision with
  | none =>
    change scanPrecision a next (c :: (t ++ s)) = _
    rw [scanPrecision, if_neg hpoint]
    rfl
  | some z =>
    cases z with
    | star => exact absurd hz hp
    | literal ds =>
      obtain ⟨hds, hlt⟩ := hd.digit ds (.inr hz)
      have hskip := skipAtoi_append (s := t ++ s) hds hlt hdigit
      change scanPrecision a next ('.' :: (ds ++ (c :: t) ++ s)) = _
      rw [scanPrecision, if_pos rfl, List.append_assoc]
      cases ds with
      | nil =>
        rw [List.nil_append, List.cons_append, scanPoint, hdigit, if_neg Bool.false_ne_true,
          if_neg hstar]
        rfl
      | cons e ds =>
        rw [List.cons_append, scanPoint, if_pos (hds e List.mem_cons_self), Option.map_map]
        refine (congrArg (Option.map _) hskip).trans ?_
        rw [Option.map_some, Function.comp, if_neg (Int.natCast_nonneg _).not_gt]
        rfl

theorem scanPrecision_star (hp : d.precision = some .star) : ∃ precision,
    scanPrecision a next (d.precised ++ s) =
      some (precision, next + 1, '*' :: d.qualified ++ s) := by
  rw [precised, hp]
  change ∃ precision, scanPrecision a next ('.' :: '*' :: (d.qualified ++ s)) = _
  rw [scanPrecision, if_pos rfl, scanPoint, if_neg (by decide), if_pos rfl]
  exact ⟨_, rfl⟩

theorem scanQualifier_qualified (d : Directive) :
    scanQualifier (d.qualified ++ s) = some (d.conversion.char :: s) := by
  rw [qualified]
  cases d.qualifier with
  | none => cases d.conversion <;> rfl
  | some q => cases q <;> rfl

end Directive

/-! ### Conversions -/

theorem conversion_star {flags : Flags} {width precision : ℤ} {o : Output} :
    conversion a flags width precision o ('*' :: s) =
      some (s, { o with str := o.str ++ ['%', '*'] }) := by
  change some (s, { o with str := o.str ++ ['%'] ++ ['*'] }) = _
  rw [List.append_assoc]
  rfl

/-- The loops of the conversion `c`, which count down before they look. -/
theorem countDownFirst_eq (w : ℤ) (hlo : -2 ^ 31 < w) (hhi : w < 2 ^ 31) :
    countDownFirst w = (List.replicate (w - 1).toNat ' ', min 0 (w - 1)) := by
  have hint : int (w - 1) = w - 1 := int_of_range (by omega) (by omega)
  fun_induction countDownFirst w with
  | case1 w hpos s w' hrun ih =>
    rw [hint] at hpos hrun ih
    rw [hrun, Prod.mk.injEq] at ih
    obtain ⟨hs, hw'⟩ := ih (by omega) (by omega) (int_of_range (by omega) (by omega))
    rw [hs, hw', show (w - 1).toNat = (w - 1 - 1).toNat + 1 by omega,
      show min 0 (w - 1 - 1) = min 0 (w - 1) by omega]
    rfl
  | case2 w hpos =>
    rw [hint] at hpos
    rw [hint, show (w - 1).toNat = 0 by omega, show min 0 (w - 1) = w - 1 by omega]
    rfl

theorem formatChar_eq {flags : Flags} {width : ℤ} (hlo : -1 ≤ width) (hhi : width < 2 ^ 31)
    (v : Word) : formatChar flags width v = field flags width [Char.ofNat (v.toNat % 256)] := by
  have hfirst := countDownFirst_eq width (by omega) hhi
  have hdone := countDownFirst_eq (min 0 (width - 1)) (by omega) (by omega)
  rw [show (min 0 (width - 1) - 1).toNat = 0 by omega] at hdone
  rw [formatChar, field]
  cases flags.left with
  | true => simp [hfirst]
  | false => simp [hfirst, hdone]

theorem formatString_eq {flags : Flags} {width precision : ℤ} (hlo : -1 ≤ width)
    (hhi : width < 2 ^ 31) (hs : s.length < 2 ^ 31) : formatString flags width precision s =
      field flags width (if precision < 0 then s else s.take precision.toNat) := by
  set t := if precision < 0 then s else s.take precision.toNat with ht
  obtain ⟨hlen, htake⟩ : (if precision < 0 then (s.length : ℤ)
      else if precision < s.length then precision else s.length) = t.length ∧
      s.take t.length = t := by
    rw [ht]
    split_ifs with hneg hlt
    · exact ⟨rfl, List.take_length⟩
    · rw [List.length_take]
      exact ⟨by omega, by rw [Nat.min_eq_left (by omega)]⟩
    · rw [List.take_of_length_le (by omega)]
      exact ⟨rfl, List.take_length⟩
  have hle : t.length ≤ s.length := by
    rw [← htake, List.length_take]
    exact Nat.min_le_right ..
  have hint : int (min (t.length : ℤ) width - 1) = min (t.length : ℤ) width - 1 :=
    int_of_range (by omega) (by omega)
  have hdone : (min (t.length : ℤ) width - 1 - t.length).toNat = 0 := by omega
  rw [formatString, field]
  cases flags.left with
  | true => simp [hlen, htake, countDown_eq]
  | false => simp [hlen, htake, countDown_eq, hint, hdone]

/-- A conversion of the language writes what it is to write, and takes its argument. -/
theorem conversion_char {flags : Flags} {width precision : ℤ} {o : Output} (k : Conversion)
    (hlo : -1 ≤ width) (hhi : width < 2 ^ 31) :
    conversion a flags width precision o (k.char :: s) =
      some (s, { o with
        str := o.str ++ k.render a flags width precision (a.word o.next)
        next := if k = .percent then o.next else o.next + 1 }) := by
  have hnumber (base : ℤ) (hbase : 2 ≤ base ∧ base ≤ 36) (width : ℤ) (flags : Flags) :
      (number (a.word o.next) base width precision flags).map
        (fun out => (s, { o with str := o.str ++ out, next := o.next + 1 })) =
      some (s, { o with
        str := o.str ++ (number (a.word o.next) base width precision flags).getD []
        next := o.next + 1 }) := by
    obtain ⟨out, hout⟩ := exists_number (a.word o.next) width precision flags hbase.1 hbase.2
    rw [hout]
    rfl
  cases k with
  | c =>
    refine congrArg some ?_
    rw [Conversion.render, ← formatChar_eq hlo hhi]
    rfl
  | s =>
    rw [Conversion.render, ← formatString_eq hlo hhi (a.length_lt _)]
    rfl
  | o => exact hnumber 8 (by decide) width flags
  | p =>
    rw [Conversion.render]
    by_cases hw : width = -1
    · rw [if_pos hw]
      exact (if_pos hw).trans (hnumber 16 (by decide) 8 { flags with zeropad := true })
    · rw [if_neg hw]
      exact (if_neg hw).trans (hnumber 16 (by decide) width flags)
  | x => exact hnumber 16 (by decide) width { flags with small := true }
  | X => exact hnumber 16 (by decide) width flags
  | d | i => exact hnumber 10 (by decide) width { flags with sign := true }
  | u => exact hnumber 10 (by decide) width flags
  | percent => rfl

/-! ### Directives -/

theorem sizeOf_of_ne {z : Option Size} (next : ℕ) (hz : z ≠ some .star) :
    (sizeOf a next z).2 = next := by
  cases z with
  | none => rfl
  | some z =>
    cases z with
    | star => exact absurd rfl hz
    | literal ds => rfl

theorem le_sizeOf (next : ℕ) (z : Option Size) : next ≤ (sizeOf a next z).2 := by
  by_cases hz : z = some .star
  · rw [hz]
    exact Nat.le_succ next
  · exact (sizeOf_of_ne next hz).ge

namespace Directive

variable {d : Directive}

theorem width_range (hd : d.Valid) (hw : d.width ≠ some .star) (next : ℕ) :
    -1 ≤ (sizeOf a next d.width).1 ∧ (sizeOf a next d.width).1 < 2 ^ 31 := by
  cases hz : d.width with
  | none => exact ⟨le_rfl, show (-1 : ℤ) < 2 ^ 31 by decide⟩
  | some z =>
    cases z with
    | star => exact absurd hz hw
    | literal ds =>
      have hlt := (hd.digit ds (.inl hz)).2
      change -1 ≤ (readDigits 10 ds : ℤ) ∧ (readDigits 10 ds : ℤ) < 2 ^ 31
      omega

/-- A directive without a `*` is rendered. -/
theorem directive_of_not_star (hd : d.Valid) (hstar : ¬ d.Star) (o : Output) :
    directive a (d.flags.map Flag.char ++ d.sized ++ s) o =
      some (s, { o with
        str := o.str ++ (d.render a o.next).1
        next := (d.render a o.next).2 }) := by
  have hw : d.width ≠ some .star := fun h => hstar (.inl h)
  have hp : d.precision ≠ some .star := fun h => hstar (.inr h)
  obtain ⟨hlo, hhi⟩ := width_range (a := a) hd hw o.next
  rw [directive_eq (scanFlags_text hd) (scanWidth_sized hd hw) (scanPrecision_precised hd hp)
    d.scanQualifier_qualified, conversion_char _ hlo hhi]
  rfl

/-- A directive with a `*` takes one argument, and what follows the `*` is left. -/
theorem directive_of_star (hd : d.Valid) (hstar : d.Star) (o : Output) :
    ∃ t, (t = d.precised ∨ t = d.qualified) ∧
      directive a (d.flags.map Flag.char ++ d.sized ++ s) o =
        some (t ++ s, { o with str := o.str ++ ['%', '*'], next := o.next + 1 }) := by
  by_cases hw : d.width = some .star
  · obtain ⟨width, flags, hwidth⟩ := scanWidth_star (a := a) (s := s) hw
    refine ⟨_, .inl rfl, ?_⟩
    rw [directive_eq (scanFlags_text hd) hwidth rfl rfl]
    exact conversion_star
  · obtain ⟨precision, hprecision⟩ := scanPrecision_star (a := a) (s := s) (hstar.resolve_left hw)
    refine ⟨_, .inr rfl, ?_⟩
    rw [directive_eq (scanFlags_text hd) (scanWidth_sized hd hw) hprecision rfl,
      sizeOf_of_ne o.next hw]
    exact conversion_star

/-- A directive with a `*` is to take two arguments. -/
theorem lt_render (hstar : d.Star) (hk : d.conversion ≠ .percent) (next : ℕ) :
    next + 1 < (d.render a next).2 := by
  rw [Directive.render]
  dsimp only
  rw [if_neg hk]
  refine Nat.succ_lt_succ ?_
  rcases hstar with h | h
  · rw [h]
    exact le_sizeOf (next + 1) d.precision
  · rw [h]
    exact Nat.lt_succ_of_le (le_sizeOf next d.width)

/-- What follows the `*` is text and the conversion. -/
theorem qualified_eq (d : Directive) : ∃ u, d.qualified = u ++ [d.conversion.char] ∧
    ∀ c ∈ u, c ≠ '%' ∧ c ≠ '\x00' := by
  refine ⟨_, rfl, fun c hc => ?_⟩
  cases hq : d.qualifier with
  | none =>
    rw [hq] at hc
    exact absurd hc List.not_mem_nil
  | some q =>
    rw [hq] at hc
    obtain rfl := List.mem_singleton.mp hc
    cases q <;> decide

theorem precised_eq (hd : d.Valid) : ∃ u, d.precised = u ++ [d.conversion.char] ∧
    ∀ c ∈ u, c ≠ '%' ∧ c ≠ '\x00' := by
  obtain ⟨u, heq, hu⟩ := d.qualified_eq
  refine ⟨d.precision.elim [] (fun z => '.' :: z.text) ++ u, ?_, fun c hc => ?_⟩
  · rw [precised, heq, List.append_assoc]
  · refine (List.mem_append.mp hc).elim (fun hc => ?_) (hu c)
    cases hz : d.precision with
    | none =>
      rw [hz] at hc
      exact absurd hc List.not_mem_nil
    | some z =>
      rw [hz] at hc
      rcases List.mem_cons.mp hc with rfl | hc
      · decide
      · cases z with
        | star =>
          obtain rfl := List.mem_singleton.mp hc
          decide
        | literal ds =>
          have hdigit := (hd.digit ds (.inr hz)).1 c hc
          constructor <;> rintro rfl <;> exact absurd hdigit (by decide)

end Directive

/-! ### The loop -/

theorem render_append (F G : List Item) (next : ℕ) :
    render a (F ++ G) next = ((render a F next).1 ++ (render a G (render a F next).2).1,
      (render a G (render a F next).2).2) := by
  induction F generalizing next with
  | nil => rfl
  | cons x F ih =>
    cases x with
    | text c =>
      rw [List.cons_append, render, ih]
      rfl
    | directive d =>
      rw [List.cons_append, render, ih, ← List.append_assoc]
      rfl

section Loop

variable {n : ℕ}

theorem formatLoop_text {t : List Char} (ht : ∀ c ∈ t, c ≠ '%' ∧ c ≠ '\x00') (o : Output) :
    formatLoop a (n + t.length) (t ++ s) o = formatLoop a n s { o with str := o.str ++ t } := by
  induction t generalizing o with
  | nil =>
    rw [List.append_nil]
    rfl
  | cons c t ih =>
    obtain ⟨hc, hzero⟩ := ht c List.mem_cons_self
    rw [List.length_cons, ← Nat.add_assoc, List.cons_append, formatLoop, if_neg hzero, if_neg hc,
      ih fun c hc => ht c (List.mem_cons_of_mem _ hc), List.append_assoc]
    rfl

/-- Text and a last byte, which may be a `%`, are written as they are. -/
theorem formatLoop_last {t : List Char} (ht : ∀ c ∈ t, c ≠ '%' ∧ c ≠ '\x00') (k : Conversion)
    (hn : t.length + 2 ≤ n) (o : Output) :
    formatLoop a n (t ++ [k.char] ++ ['\x00']) o =
      some { o with str := o.str ++ (t ++ [k.char]) } := by
  obtain ⟨n, rfl⟩ : ∃ k, n = k + 2 + t.length := ⟨n - (t.length + 2), by omega⟩
  rw [List.append_assoc, formatLoop_text ht, ← List.append_assoc]
  cases k <;> rfl

/-- A turn of the loop on a directive. -/
theorem formatLoop_directive (d : Directive) (o : Output) : formatLoop a (n + 1) (d.text ++ s) o =
    (directive a (d.flags.map Flag.char ++ d.sized ++ s) o).bind fun r =>
    formatLoop a n r.1 r.2 := by
  rw [Directive.text, List.cons_append, formatLoop, if_neg (by decide), if_pos rfl]

/-- A format without a `*` is rendered. -/
theorem formatLoop_bytes {F : List Item} (hF : ∀ x ∈ F, x.Valid) (hstar : ∀ x ∈ F, ¬ x.Star)
    (hn : (bytes F ++ s).length ≤ n) (o : Output) : ∃ m, s.length ≤ m ∧
      formatLoop a n (bytes F ++ s) o = formatLoop a m s { o with
        str := o.str ++ (render a F o.next).1
        next := (render a F o.next).2 } := by
  induction F generalizing n o with
  | nil =>
    refine ⟨n, hn, ?_⟩
    rw [render, List.append_nil]
    rfl
  | cons x F ih =>
    have hF' := fun y hy => hF y (List.mem_cons_of_mem _ hy)
    have hstar' := fun y hy => hstar y (List.mem_cons_of_mem _ hy)
    have hx := hF x List.mem_cons_self
    have hx' := hstar x List.mem_cons_self
    have hpos : 0 < x.bytes.length := by cases x <;> exact Nat.succ_pos _
    rw [bytes, List.flatMap_cons, List.append_assoc] at hn ⊢
    rw [List.length_append] at hn
    obtain ⟨n, rfl⟩ : ∃ k, n = k + 1 := ⟨n - 1, by omega⟩
    have hn' : (bytes F ++ s).length ≤ n := by
      rw [bytes]
      omega
    cases x with
    | text c =>
      obtain ⟨m, hm, hrun⟩ := ih hF' hstar' hn' { o with str := o.str ++ [c] }
      refine ⟨m, hm, ?_⟩
      rw [Item.bytes, List.cons_append, List.nil_append, formatLoop, if_neg hx.2, if_neg hx.1]
      refine hrun.trans ?_
      rw [render, List.append_assoc]
      rfl
    | directive d =>
      obtain ⟨m, hm, hrun⟩ := ih hF' hstar' hn' { o with
        str := o.str ++ (d.render a o.next).1
        next := (d.render a o.next).2 }
      refine ⟨m, hm, ?_⟩
      rw [Item.bytes, formatLoop_directive, Directive.directive_of_not_star hx hx',
        Option.bind_some]
      refine hrun.trans ?_
      rw [render, List.append_assoc]

end Loop

/-! ### Main theorem -/

theorem vsprintf_eq {fmt : List Char} {o : Output}
    (h : formatLoop a (fmt ++ ['\x00']).length (fmt ++ ['\x00']) ⟨[], 0, []⟩ = some o) :
    vsprintf a fmt = some ⟨o.str ++ ['\x00'], o.next, o.stores, o.str.length⟩ := by
  rw [List.length_append] at h
  exact congrArg (Option.map _) h

/-- What `vsprintf` writes for a format the last directive of which has the only `*`. -/
theorem vsprintf_of_star {F : List Item} {d : Directive} (hF : ∀ x ∈ F, x.Valid)
    (hfree : ∀ x ∈ F, ¬ x.Star) (hd : d.Valid) (hstar : d.Star) :
    ∃ t, t ≠ [] ∧ vsprintf a (bytes (F ++ [.directive d])) = some
      ⟨(render a F 0).1 ++ '%' :: '*' :: t ++ ['\x00'], (render a F 0).2 + 1, [],
        ((render a F 0).1 ++ '%' :: '*' :: t).length⟩ := by
  have hbytes : bytes (F ++ [.directive d]) ++ ['\x00'] = bytes F ++ (d.text ++ ['\x00']) := by
    rw [bytes, List.flatMap_append, List.flatMap_singleton, List.append_assoc]
    rfl
  obtain ⟨m, hm, hrun⟩ := formatLoop_bytes (a := a) (s := d.text ++ ['\x00']) hF hfree le_rfl
      ⟨[], 0, []⟩
  obtain ⟨t, ht, hdirective⟩ := Directive.directive_of_star (a := a) (s := ['\x00']) hd hstar
    ⟨(render a F 0).1, (render a F 0).2, []⟩
  obtain ⟨u, rfl, hu, hle⟩ : ∃ u, t = u ++ [d.conversion.char] ∧ (∀ c ∈ u, c ≠ '%' ∧ c ≠ '\x00') ∧
      t.length ≤ d.sized.length := by
    obtain ⟨u, hu, hu'⟩ := Directive.precised_eq hd
    obtain ⟨v, hv, hv'⟩ := d.qualified_eq
    rcases ht with rfl | rfl
    · refine ⟨u, hu, hu', ?_⟩
      rw [Directive.sized, List.length_append]
      exact Nat.le_add_left ..
    · refine ⟨v, hv, hv', ?_⟩
      rw [Directive.sized, Directive.precised, List.length_append, List.length_append]
      omega
  rw [List.length_append, Directive.text, List.length_cons, List.length_append] at hm
  rw [List.length_append] at hle
  obtain ⟨m, rfl⟩ : ∃ k, m = k + 1 := ⟨m - 1, by omega⟩
  have hloop : formatLoop a (bytes (F ++ [.directive d]) ++ ['\x00']).length
      (bytes (F ++ [.directive d]) ++ ['\x00']) ⟨[], 0, []⟩ =
      some ⟨(render a F 0).1 ++ '%' :: '*' :: (u ++ [d.conversion.char]), (render a F 0).2 +
        1, []⟩ := by
    rw [hbytes, hrun, formatLoop_directive]
    refine (congrArg (Option.bind · _) hdirective).trans ?_
    rw [Option.bind_some]
    refine (formatLoop_last hu d.conversion ?_ _).trans ?_
    · rw [List.length_singleton] at hle hm
      omega
    · rw [List.append_assoc]
      rfl
  exact ⟨u ++ [d.conversion.char], List.append_ne_nil_of_right_ne_nil _ (List.cons_ne_nil _ _),
    vsprintf_eq hloop⟩

theorem not_renders {F : List Item} {d : Directive} (hF : ∀ x ∈ F, x.Valid)
    (hfree : ∀ x ∈ F, ¬ x.Star) (hd : d.Valid) (hstar : d.Star) :
    ¬ Renders a (F ++ [.directive d]) := by
  intro h
  obtain ⟨t, hne, ht⟩ := vsprintf_of_star (a := a) hF hfree hd hstar
  rw [Renders, ht, Option.some_inj, Result.mk.injEq, render_append] at h
  obtain ⟨-, hargs, -, hlen⟩ := h
  by_cases hk : d.conversion = .percent
  · have hrender : (d.render a (render a F 0).2).1 = ['%'] := by
      rw [Directive.render, hk]
      rfl
    rw [render, hrender, List.length_append, List.length_append] at hlen
    have hpos := List.length_pos_of_ne_nil hne
    simp only [List.length_cons, List.length_append, render, List.length_nil] at hlen
    omega
  · exact (Directive.lt_render (a := a) hstar hk (render a F 0).2).ne hargs

/-- **`vsprintf` comes to the end of every format, and reads nothing behind the terminator. It
writes what a format and its prefixes are to write if and only if no width and no precision is taken
from the arguments.** -/
theorem vsprintf_renders_iff (a : Args) {F : List Item} (hF : ∀ x ∈ F, x.Valid) :
    (∀ fmt, ∃ r, vsprintf a fmt = some r) ∧
      ((∀ G, G <+: F → Renders a G) ↔ ∀ x ∈ F, ¬ x.Star) := by
  refine ⟨exists_vsprintf a, fun h => ?_, fun h G hG => ?_⟩
  · -- The first directive with a `*` ends a prefix that is not rendered.
    induction F using List.reverseRecOn with
    | nil => exact fun x hx => absurd hx List.not_mem_nil
    | append_singleton F x ih =>
      have hfree := ih (fun y hy => hF y (List.mem_append_left _ hy))
        fun G hG => h G (hG.trans (List.prefix_append F [x]))
      intro y hy
      rcases List.mem_append.mp hy with hy | hy
      · exact hfree y hy
      · obtain rfl := List.mem_singleton.mp hy
        cases y with
        | text c => exact id
        | directive d =>
          intro hstar
          exact not_renders (fun y hy => hF y (List.mem_append_left _ hy)) hfree
            (hF _ (List.mem_append_right F List.mem_cons_self)) hstar (h _ List.prefix_rfl)
  · have hmem : ∀ x ∈ G, x ∈ F := fun x hx => hG.subset hx
    obtain ⟨m, hm, hrun⟩ := formatLoop_bytes (a := a) (s := ['\x00']) (fun x hx => hF x (hmem x hx))
      (fun x hx => h x (hmem x hx)) le_rfl ⟨[], 0, []⟩
    obtain ⟨m, rfl⟩ : ∃ k, m = k + 1 := ⟨m - 1, (Nat.sub_add_cancel hm).symm⟩
    exact vsprintf_eq hrun

/-- All the words are 5, and there are no bytes in the strings. -/
def fives : Args := ⟨fun _ => 5, fun _ => [], fun _ => by decide⟩

/-- The format `%08lx`, with which tables are dumped. -/
theorem vsprintf_renders_iff_hex :
    (∀ fmt, ∃ r, vsprintf fives fmt = some r) ∧
      ((∀ G, G <+: [.directive ⟨[.zero], some (.literal ['8']), none, some .l, .x⟩] →
          Renders fives G) ↔
        ∀ x ∈ [.directive ⟨[.zero], some (.literal ['8']), none, some .l, .x⟩], ¬ Item.Star x) := by
  refine vsprintf_renders_iff fives fun x hx => ?_
  obtain rfl := List.mem_singleton.mp hx
  refine ⟨fun ds hds => ?_, fun ds hds => ?_⟩
  · cases hds
    decide
  · rcases hds with hds | hds
    · cases hds
      refine ⟨fun c hc => ?_, show 8 < 2 ^ 31 by norm_num⟩
      rw [List.mem_singleton.mp hc]
      rfl
    · cases hds

/-- The format `%*c` with the width 5 and the byte 5 is written out, and one argument is taken. -/
theorem not_renders_star :
    (∀ x ∈ [Item.directive ⟨[], some .star, none, none, .c⟩], x.Valid) ∧
      (∀ n, 0 ≤ (fives.word n).toInt) ∧
      vsprintf fives "%*c".toList = some ⟨"%*c\x00".toList, 1, [], 3⟩ ∧
      ¬ Renders fives [.directive ⟨[], some .star, none, none, .c⟩] := by
  refine ⟨fun x hx => ?_, fun _ => show (0 : ℤ) ≤ (5 : Word).toInt by decide, rfl, fun h => ?_⟩
  · obtain rfl := List.mem_singleton.mp hx
    refine ⟨fun ds hds => ?_, fun ds hds => ?_⟩
    · cases hds
    · rcases hds with hds | hds <;> cases hds
  · exact absurd (congrArg (Option.map Result.args) h) (by decide)

end Linux001.Printf
