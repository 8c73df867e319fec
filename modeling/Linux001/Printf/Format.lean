import Linux001.Printf.Number

/-!
# Formats

The function `vsprintf` of `kernel/vsprintf.c`. The pointer `fmt` is what is left of the format from
it on, with the terminator, and the function has no result if it would read past that. The arguments
are the words that `va_arg` takes from the stack, one after the other.

## Main definitions

* `Args`, `Output`: what the function reads, and what it has written.
* `directive`: the body of its loop, behind a `%`.
* `vsprintf`: the function.

## Main results

* `exists_vsprintf`: it comes to the end of every format.
-/

namespace Linux001.Printf

/-- The words on the stack from the first argument on, and the strings that a word may point to. -/
structure Args where
  word : ℕ → Word
  string : Word → List Char
  length_lt : ∀ p, (string p).length < 2 ^ 31

/-- What has been written to `buf`, how many arguments have been taken, and the stores that `%n` has
made. -/
structure Output where
  str : List Char
  next : ℕ
  stores : List (Word × ℕ)

/-! ### The parts of a directive -/

/-- The loop at the label `repeat`. -/
def scanFlags (flags : Flags) : List Char → Option (Flags × List Char)
  | [] => none
  | c :: fmt =>
    if c = '-' then scanFlags { flags with left := true } fmt
    else if c = '+' then scanFlags { flags with plus := true } fmt
    else if c = ' ' then scanFlags { flags with space := true } fmt
    else if c = '#' then scanFlags { flags with special := true } fmt
    else if c = '0' then scanFlags { flags with zeropad := true } fmt
    else some (flags, c :: fmt)

variable (a : Args)

/-- The field width, and what is left of the format. -/
def scanWidth (flags : Flags) (next : ℕ) : List Char → Option (ℤ × Flags × ℕ × List Char)
  | [] => none
  | c :: fmt =>
    if isDigit c then (skipAtoi (c :: fmt)).map fun r => (r.1, flags, next, r.2)
    else if c = '*' then
      -- The pointer stays at the `*`.
      if (a.word next).toInt < 0 then
        some (int (-(a.word next).toInt), { flags with left := true }, next + 1, c :: fmt)
      else some ((a.word next).toInt, flags, next + 1, c :: fmt)
    else some (-1, flags, next, c :: fmt)

/-- The number behind the point of a precision, before `if (precision < 0) precision = 0`. -/
def scanPoint (next : ℕ) : List Char → Option (ℤ × ℕ × List Char)
  | [] => none
  | c :: fmt =>
    if isDigit c then (skipAtoi (c :: fmt)).map fun r => (r.1, next, r.2)
    else if c = '*' then some ((a.word next).toInt, next + 1, c :: fmt)
    else some (-1, next, c :: fmt)

/-- The precision. -/
def scanPrecision (next : ℕ) : List Char → Option (ℤ × ℕ × List Char)
  | [] => none
  | c :: fmt =>
    if c = '.' then (scanPoint a next fmt).map fun r => (if r.1 < 0 then 0 else r.1, r.2)
    else some (-1, next, c :: fmt)

/-- The qualifier, of which no use is made. -/
def scanQualifier : List Char → Option (List Char)
  | [] => none
  | c :: fmt => some (if c = 'h' ∨ c = 'l' ∨ c = 'L' then fmt else c :: fmt)

/-- `while (--w > 0) *str++ = ' '`, with what is written and the last value of `w`. -/
def countDownFirst (w : ℤ) : List Char × ℤ :=
  if 0 < int (w - 1) then
    let (s, w) := countDownFirst (int (w - 1))
    (' ' :: s, w)
  else ([], int (w - 1))
  termination_by (int (w - 1)).toNat
  decreasing_by
    have hlt : int (w - 1) < 2 ^ 31 := Int.bmod_lt (x := w - 1) (m := 2 ^ 32) (by decide)
    rw [int_of_range (x := int (w - 1) - 1) (by omega) (by omega)]
    omega

/-- The conversion `c`. -/
def formatChar (flags : Flags) (width : ℤ) (v : Word) : List Char :=
  let (before, width) := if flags.left then ([], width) else countDownFirst width
  let (after, _) := countDownFirst width
  before ++ [Char.ofNat (v.toNat % 256)] ++ after

/-- The conversion `s`. -/
def formatString (flags : Flags) (width precision : ℤ) (s : List Char) : List Char :=
  let len : ℤ := s.length
  let len := if precision < 0 then len else if precision < len then precision else len
  let (before, width) := if flags.left then ([], width) else countDown ' ' len width
  let (after, _) := countDown ' ' len width
  before ++ s.take len.toNat ++ after

/-- The `switch` on the conversion, with what is left of the format after the `++fmt` of the
loop. -/
def conversion (flags : Flags) (width precision : ℤ) (o : Output) :
    List Char → Option (List Char × Output)
  | [] => none
  | c :: fmt =>
    let v := a.word o.next
    let put (s : List Char) : List Char × Output :=
      (fmt, { o with str := o.str ++ s, next := o.next + 1 })
    if c = 'c' then some (put (formatChar flags width v))
    else if c = 's' then some (put (formatString flags width precision (a.string v)))
    else if c = 'o' then (number v 8 width precision flags).map put
    else if c = 'p' then
      if width = -1 then (number v 16 8 precision { flags with zeropad := true }).map put
      else (number v 16 width precision flags).map put
    else if c = 'x' then (number v 16 width precision { flags with small := true }).map put
    else if c = 'X' then (number v 16 width precision flags).map put
    else if c = 'd' ∨ c = 'i' then
      (number v 10 width precision { flags with sign := true }).map put
    else if c = 'u' then (number v 10 width precision flags).map put
    else if c = 'n' then
      some (fmt, { o with next := o.next + 1, stores := o.stores ++ [(v, o.str.length)] })
    else
      let str := if c = '%' then o.str else o.str ++ ['%']
      if c = '\x00' then some (c :: fmt, { o with str := str }) -- `--fmt` here, then `++fmt`.
      else some (fmt, { o with str := str ++ [c] })

/-- The body of the loop from a `%` on, behind which the format goes on with `fmt`. -/
def directive (fmt : List Char) (o : Output) : Option (List Char × Output) := do
  let (flags, fmt) ← scanFlags .none fmt
  let (width, flags, next, fmt) ← scanWidth a flags o.next fmt
  let (precision, next, fmt) ← scanPrecision a next fmt
  let fmt ← scanQualifier fmt
  conversion a flags width precision { o with next := next } fmt

/-- The loop of `vsprintf`, for at most `fuel` turns. -/
def formatLoop : ℕ → List Char → Output → Option Output
  | _, [], _ => none
  | 0, _ :: _, _ => none
  | fuel + 1, c :: fmt, o =>
    if c = '\x00' then some o
    else if c = '%' then (directive a fmt o).bind fun r => formatLoop fuel r.1 r.2
    else formatLoop fuel fmt { o with str := o.str ++ [c] }

/-- What a call of `vsprintf` leaves: the bytes of `buf` with the terminator, the arguments it has
taken, the stores of `%n`, and its result. -/
structure Result where
  buf : List Char
  args : ℕ
  stores : List (Word × ℕ)
  len : ℕ

/-- `vsprintf` with a format, which the terminator follows. A turn of the loop takes one byte of the
format at least. -/
def vsprintf (fmt : List Char) : Option Result :=
  (formatLoop a (fmt.length + 1) (fmt ++ ['\x00']) ⟨[], 0, []⟩).map fun o =>
    ⟨o.str ++ ['\x00'], o.next, o.stores, o.str.length⟩

/-! ### The end of the format -/

/-- The terminator is still ahead, and `s` is no longer than what there was. -/
def Ahead (n : ℕ) (s : List Char) : Prop := '\x00' ∈ s ∧ s.length ≤ n

variable {a} {s : List Char} {n : ℕ} {c : Char}

theorem Ahead.tail (h : Ahead n (c :: s)) (hc : c ≠ '\x00') : Ahead n s :=
  ⟨(List.mem_cons.mp h.1).resolve_left hc.symm, (Nat.le_succ _).trans h.2⟩

theorem ahead_nil : ¬ Ahead n [] := fun h => List.not_mem_nil h.1

theorem exists_skipDigits (i : ℤ) (h : Ahead n s) : ∃ r, skipDigits i s = some r ∧ Ahead n r.2 := by
  induction s generalizing i with
  | nil => exact absurd h ahead_nil
  | cons c s ih =>
    rw [skipDigits]
    split_ifs with hc
    · exact ih _ (h.tail (by rintro rfl; exact absurd hc (by decide)))
    · exact ⟨_, rfl, h⟩

theorem exists_scanFlags (flags : Flags) (h : Ahead n s) :
    ∃ r, scanFlags flags s = some r ∧ Ahead n r.2 := by
  induction s generalizing flags with
  | nil => exact absurd h ahead_nil
  | cons c s ih =>
    rw [scanFlags]
    split_ifs with h1 h2 h3 h4 h5
    · exact ih _ (h.tail (by rw [h1]; decide))
    · exact ih _ (h.tail (by rw [h2]; decide))
    · exact ih _ (h.tail (by rw [h3]; decide))
    · exact ih _ (h.tail (by rw [h4]; decide))
    · exact ih _ (h.tail (by rw [h5]; decide))
    · exact ⟨_, rfl, h⟩

theorem exists_scanWidth (flags : Flags) (next : ℕ) (h : Ahead n s) :
    ∃ r, scanWidth a flags next s = some r ∧ Ahead n r.2.2.2 := by
  cases s with
  | nil => exact absurd h ahead_nil
  | cons c s =>
    rw [scanWidth]
    split_ifs
    · obtain ⟨r, hr, hr'⟩ := exists_skipDigits 0 h
      rw [skipAtoi, hr]
      exact ⟨_, rfl, hr'⟩
    · exact ⟨_, rfl, h⟩
    · exact ⟨_, rfl, h⟩
    · exact ⟨_, rfl, h⟩

theorem exists_scanPrecision (next : ℕ) (h : Ahead n s) :
    ∃ r, scanPrecision a next s = some r ∧ Ahead n r.2.2 := by
  cases s with
  | nil => exact absurd h ahead_nil
  | cons c s =>
    rw [scanPrecision]
    split_ifs with hc
    · have h' := h.tail (by rw [hc]; decide)
      suffices hpoint : ∃ r, scanPoint a next s = some r ∧ Ahead n r.2.2 by
        obtain ⟨r, hr, hr'⟩ := hpoint
        rw [hr]
        exact ⟨_, rfl, hr'⟩
      cases s with
      | nil => exact absurd h' ahead_nil
      | cons d s =>
        rw [scanPoint]
        split_ifs
        · obtain ⟨r, hr, hr'⟩ := exists_skipDigits 0 h'
          rw [skipAtoi, hr]
          exact ⟨_, rfl, hr'⟩
        · exact ⟨_, rfl, h'⟩
        · exact ⟨_, rfl, h'⟩
    · exact ⟨_, rfl, h⟩

theorem exists_scanQualifier (h : Ahead n s) : ∃ r, scanQualifier s = some r ∧ Ahead n r := by
  cases s with
  | nil => exact absurd h ahead_nil
  | cons c s =>
    refine ⟨_, rfl, ?_⟩
    split_ifs with hc
    · exact h.tail (by rcases hc with rfl | rfl | rfl <;> decide)
    · exact h

theorem exists_number (v : Word) (width precision : ℤ) (flags : Flags) {base : ℤ} (hbase : 2 ≤ base)
    (hbase' : base ≤ 36) : ∃ out, number v base width precision flags = some out := by
  unfold number
  dsimp only
  rw [if_neg (by omega)]
  exact ⟨_, rfl⟩

theorem exists_ite {α : Type} {P : α → Prop} {p : Prop} [Decidable p] {x y : Option α}
    (hx : p → ∃ r, x = some r ∧ P r) (hy : ¬ p → ∃ r, y = some r ∧ P r) :
    ∃ r, (if p then x else y) = some r ∧ P r := by
  split_ifs with h
  · exact hx h
  · exact hy h

theorem exists_conversion (flags : Flags) (width precision : ℤ) (o : Output) (h : Ahead n s) :
    ∃ r, conversion a flags width precision o s = some r ∧ Ahead n r.1 := by
  cases s with
  | nil => exact absurd h ahead_nil
  | cons c s =>
    have hnumber {base : ℤ} (hbase : 2 ≤ base) (hbase' : base ≤ 36) (width : ℤ) (flags : Flags)
        (hc : c ≠ '\x00') : ∃ r, (number (a.word o.next) base width precision flags).map
          (fun out => (s, { o with str := o.str ++ out, next := o.next + 1 })) = some r ∧
          Ahead n r.1 := by
      obtain ⟨out, hout⟩ := exists_number (a.word o.next) width precision flags hbase hbase'
      rw [hout]
      exact ⟨_, rfl, h.tail hc⟩
    have hne {d : Char} (hd : d ≠ '\x00') (hc : c = d) : c ≠ '\x00' := hc ▸ hd
    rw [conversion]
    refine exists_ite (fun hc => ⟨_, rfl, h.tail (hne (by decide) hc)⟩) fun _ => ?_
    refine exists_ite (fun hc => ⟨_, rfl, h.tail (hne (by decide) hc)⟩) fun _ => ?_
    refine exists_ite (fun hc => hnumber (by decide) (by decide) _ _ (hne (by decide) hc))
      fun _ => ?_
    refine exists_ite (fun hc => exists_ite
      (fun _ => hnumber (by decide) (by decide) _ _ (hne (by decide) hc))
      (fun _ => hnumber (by decide) (by decide) _ _ (hne (by decide) hc))) fun _ => ?_
    refine exists_ite (fun hc => hnumber (by decide) (by decide) _ _ (hne (by decide) hc))
      fun _ => ?_
    refine exists_ite (fun hc => hnumber (by decide) (by decide) _ _ (hne (by decide) hc))
      fun _ => ?_
    refine exists_ite (fun hc => hnumber (by decide) (by decide) _ _
      (hc.elim (hne (by decide)) (hne (by decide)))) fun _ => ?_
    refine exists_ite (fun hc => hnumber (by decide) (by decide) _ _ (hne (by decide) hc))
      fun _ => ?_
    refine exists_ite (fun hc => ⟨_, rfl, h.tail (hne (by decide) hc)⟩) fun _ => ?_
    exact exists_ite (fun _ => ⟨_, rfl, h⟩) (fun hc => ⟨_, rfl, h.tail hc⟩)

/-- The parts of a directive, one after the other. -/
theorem directive_eq {o : Output} {flags flags' : Flags} {width precision : ℤ} {next next' : ℕ}
    {s₁ s₂ s₃ s₄ : List Char} (hflags : scanFlags .none s = some (flags, s₁))
    (hwidth : scanWidth a flags o.next s₁ = some (width, flags', next, s₂))
    (hprecision : scanPrecision a next s₂ = some (precision, next', s₃))
    (hqualifier : scanQualifier s₃ = some s₄) :
    directive a s o = conversion a flags' width precision { o with next := next' } s₄ := by
  simp only [directive, hflags, hwidth, hprecision, hqualifier, Option.bind_eq_bind,
    Option.bind_some]

theorem exists_directive (o : Output) (h : Ahead n s) :
    ∃ r, directive a s o = some r ∧ Ahead n r.1 := by
  obtain ⟨⟨flags, s₁⟩, hflags, h⟩ := exists_scanFlags .none h
  obtain ⟨⟨width, flags', next, s₂⟩, hwidth, h⟩ := exists_scanWidth (a := a) flags o.next h
  obtain ⟨⟨precision, next', s₃⟩, hprecision, h⟩ := exists_scanPrecision (a := a) next h
  obtain ⟨s₄, hqualifier, h⟩ := exists_scanQualifier h
  rw [directive_eq hflags hwidth hprecision hqualifier]
  exact exists_conversion flags' width precision _ h

theorem exists_formatLoop (o : Output) (h : Ahead n s) : ∃ o', formatLoop a n s o = some o' := by
  induction n generalizing s o with
  | zero => exact absurd (List.length_eq_zero_iff.mp (Nat.le_zero.mp h.2) ▸ h) ahead_nil
  | succ n ih =>
    cases s with
    | nil => exact absurd h ahead_nil
    | cons c s =>
      rw [formatLoop]
      split_ifs with hzero hc
      · exact ⟨o, rfl⟩
      · obtain ⟨r, hr, hr'⟩ := exists_directive (a := a) o
          ⟨(h.tail hzero).1, Nat.le_of_succ_le_succ h.2⟩
        rw [hr]
        exact ih _ hr'
      · exact ih _ ⟨(h.tail hzero).1, Nat.le_of_succ_le_succ h.2⟩

/-- `vsprintf` comes to the end of every format, and reads nothing behind the terminator. -/
theorem exists_vsprintf (a : Args) (fmt : List Char) : ∃ r, vsprintf a fmt = some r := by
  have h : Ahead (fmt.length + 1) (fmt ++ ['\x00']) :=
    ⟨List.mem_append_right _ List.mem_cons_self, List.length_append.le⟩
  obtain ⟨o, ho⟩ := exists_formatLoop (a := a) ⟨[], 0, []⟩ h
  rw [vsprintf, ho]
  exact ⟨_, rfl⟩

end Linux001.Printf
