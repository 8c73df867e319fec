import Mathlib.Data.BitVec
import Mathlib.Data.Nat.Log
import Mathlib.Tactic.IntervalCases
import Mathlib.Tactic.Linarith

/-!
# Numbers

The functions `skip_atoi` and `number` of `kernel/vsprintf.c`. A string is a list of bytes, each of
them a `Char` below 256; what `skip_atoi` reads ends with a terminator, and it has no result if it
would read past that. An `int` is an integer, and the operations that may overflow wrap around.

## Main definitions

* `skipAtoi`, `number`: the functions.
* `Flags.layout`: padding, sign, prefix and digits in the order that the flags demand.
* `readDigits`: the number that digits denote.

## Main results

* `number_eq`: `number` lays out the digits of the number.
* `readDigits_digitsOf`: the digits denote it.
-/

namespace Linux001.Printf

/-- A register of 32 bits. -/
abbrev Word := BitVec 32

/-- The value of an `int` after an operation with the result `x`. -/
def int (x : ℤ) : ℤ := x.bmod (2 ^ 32)

/-- `is_digit`. -/
def isDigit (c : Char) : Bool := '0' ≤ c ∧ c ≤ '9'

/-- The loop of `skip_atoi`, which returns `i` and the rest of the string. -/
def skipDigits (i : ℤ) : List Char → Option (ℤ × List Char)
  | [] => none
  | c :: s =>
    if isDigit c then skipDigits (int (int (int (i * 10) + c.toNat) - '0'.toNat)) s
    else some (i, c :: s)

/-- `skip_atoi`. -/
def skipAtoi (s : List Char) : Option (ℤ × List Char) := skipDigits 0 s

/-- The bits of `type`: `ZEROPAD`, `SIGN`, `PLUS`, `SPACE`, `LEFT`, `SPECIAL` and `SMALL`. -/
structure Flags where
  zeropad : Bool
  sign : Bool
  plus : Bool
  space : Bool
  left : Bool
  special : Bool
  small : Bool
  deriving DecidableEq, Repr

/-- The table `digits`. -/
def digits (type : Flags) : List Char :=
  if type.small then "0123456789abcdefghijklmnopqrstuvwxyz".toList
  else "0123456789ABCDEFGHIJKLMNOPQRSTUVWXYZ".toList

/-- `while (num != 0) tmp[i++] = digits[do_div(num, base)]`: `do_div` divides by the instruction
`divl`, without a sign. `number` has checked the base. -/
def convert (table : List Char) (base num : Word) : List Char :=
  if _h : num = 0 ∨ base.toNat < 2 then []
  else table.getD (num % base).toNat ' ' :: convert table base (num / base)
  termination_by num.toNat
  decreasing_by
    have hnum : 0 < num.toNat := Nat.pos_of_ne_zero fun hc => _h (.inl (BitVec.eq_of_toNat_eq hc))
    exact Nat.div_lt_self hnum (by omega)

/-- `while (k < w--) *str++ = c`, with what is written and the last value of `w`. -/
def countDown (c : Char) (k w : ℤ) : List Char × ℤ :=
  if k < w then
    let (s, w) := countDown c k (w - 1)
    (c :: s, w)
  else ([], int (w - 1))
  termination_by (w - k).toNat

/-- `while (i-- > 0) *str++ = tmp[i]`. -/
def copyBack (tmp : List Char) : ℕ → List Char
  | 0 => []
  | i + 1 => tmp.getD i ' ' :: copyBack tmp i

/-- `sign`, which is 0 if there is none. -/
def signOf (type : Flags) (num : Word) : Option Char :=
  if type.sign ∧ num.toInt < 0 then some '-'
  else if type.plus then some '+'
  else if type.space then some ' '
  else none

/-- What `number` writes for `SPECIAL`. -/
def specialOf (type : Flags) (base : ℤ) : List Char :=
  if type.special then
    if base = 8 then ['0']
    else if base = 16 then ['0', (digits type).getD 33 ' ']
    else []
  else []

/-- The digits that `number` puts into `tmp`, from the last one on. -/
def tmpOf (type : Flags) (num : Word) (base : ℤ) : List Char :=
  let num := if type.sign ∧ num.toInt < 0 then -num else num
  if num = 0 then ['0'] else convert (digits type) (BitVec.ofInt 32 base) num

/-- `number`: what is written to `str`, or nothing if the result is 0. -/
def number (num : Word) (base size precision : ℤ) (type : Flags) : Option (List Char) :=
  let type := if type.left then { type with zeropad := false } else type
  if base < 2 ∨ 36 < base then none
  else
    let c := if type.zeropad then '0' else ' '
    let sign := signOf type num
    let size := if sign.isSome then int (size - 1) else size
    let size :=
      if type.special then
        if base = 16 then int (size - 2) else if base = 8 then int (size - 1) else size
      else size
    let tmp := tmpOf type num base
    let i := tmp.length
    let precision := if precision < i then (i : ℤ) else precision
    let size := int (size - precision)
    let (blanks, size) := if type.zeropad ∨ type.left then ([], size) else countDown ' ' 0 size
    let (pad, size) := if type.left then ([], size) else countDown c 0 size
    let (zeros, _) := countDown '0' i precision
    let (rest, _) := countDown ' ' 0 size
    some (blanks ++ sign.toList ++ specialOf type base ++ pad ++ zeros ++ copyBack tmp i ++ rest)

/-! ### What the output is to be -/

/-- The digits of a number, from the first one on. -/
def digitsOf (type : Flags) (num : Word) (base : ℤ) : List Char := (tmpOf type num base).reverse

/-- The number that the digits are to denote. -/
def magnitude (type : Flags) (num : Word) : ℕ := if type.sign then num.toInt.natAbs else num.toNat

/-- A field of at least `size` bytes with the sign and the prefix `head` and the digits `body`. -/
def Flags.layout (type : Flags) (size : ℤ) (head body : List Char) : List Char :=
  let pad := (size - (head.length + body.length)).toNat
  if type.left then head ++ body ++ List.replicate pad ' '
  else if type.zeropad then head ++ List.replicate pad '0' ++ body
  else List.replicate pad ' ' ++ head ++ body

/-- The value of a digit. -/
def digitValue (c : Char) : ℕ :=
  if c ≤ '9' then c.toNat - '0'.toNat
  else if c ≤ 'Z' then c.toNat - 'A'.toNat + 10
  else c.toNat - 'a'.toNat + 10

/-- The number that digits denote in a base. -/
def readDigits (base : ℕ) (ds : List Char) : ℕ :=
  ds.foldl (fun v c => v * base + digitValue c) 0

/-- The output is as the base, the size, the precision and the flags demand: the digits fit into
`tmp`, denote the number, and are laid out in a field of the right length. -/
structure Formatted (num : Word) (base size precision : ℤ) (type : Flags) (out : List Char) :
    Prop where
  tmp : (tmpOf type num base).length ≤ 36
  digit : ∀ c ∈ digitsOf type num base, ∃ j < base.toNat, c = (digits type).getD j ' '
  layout : out = type.layout size ((signOf type num).toList ++ specialOf type base)
    (List.replicate (precision - (digitsOf type num base).length).toNat '0' ++
      digitsOf type num base)
  length : (out.length : ℤ) = max size ((signOf type num).toList.length +
    (specialOf type base).length + max precision (digitsOf type num base).length)
  denotes : readDigits base.toNat
    (List.replicate (precision - (digitsOf type num base).length).toNat '0' ++
      digitsOf type num base) = magnitude type num

/-- No flags. -/
def Flags.none : Flags := ⟨false, false, false, false, false, false, false⟩

variable {num : Word} {base size precision : ℤ} {type : Flags} {c : Char} {k w : ℤ}

/-! ### Loops -/

theorem int_of_range {x : ℤ} (hlo : -2 ^ 31 ≤ x) (hhi : x < 2 ^ 31) : int x = x :=
  Int.bmod_eq_of_le (by omega) (by omega)

/-- A counting loop writes as many bytes as it counts. -/
theorem countDown_eq (c : Char) (k w : ℤ) :
    countDown c k w = (List.replicate (w - k).toNat c, int (min k w - 1)) := by
  fun_induction countDown c k w with
  | case1 w hlt s w' hrun ih =>
    rw [hrun, Prod.mk.injEq] at ih
    rw [ih.1, ih.2, show (w - k).toNat = (w - 1 - k).toNat + 1 by omega,
      show min k (w - 1) = min k w by omega]
    rfl
  | case2 w hlt =>
    rw [show (w - k).toNat = 0 by omega, show min k w = w by omega]
    rfl

theorem copyBack_eq (tmp : List Char) {i : ℕ} (hi : i ≤ tmp.length) :
    copyBack tmp i = (tmp.take i).reverse := by
  induction i with
  | zero => rfl
  | succ i ih =>
    rw [copyBack, ih (by omega), List.take_add_one, List.reverse_append, List.getD_eq_getElem?_getD,
      List.getElem?_eq_getElem hi]
    rfl

/-! ### Digits -/

theorem digitValue_digits (type : Flags) : ∀ j < 36, digitValue ((digits type).getD j ' ') = j := by
  rw [digits]
  cases type.small <;> decide

theorem readDigits_append (b : ℕ) (ds : List Char) (c : Char) :
    readDigits b (ds ++ [c]) = readDigits b ds * b + digitValue c := by
  rw [readDigits, List.foldl_append]
  rfl

/-- Zeros in front of digits do not count. -/
theorem readDigits_replicate (b n : ℕ) (ds : List Char) :
    readDigits b (List.replicate n '0' ++ ds) = readDigits b ds := by
  induction n with
  | zero => rfl
  | succ n ih =>
    refine Eq.trans ?_ ih
    rw [readDigits, List.replicate_succ, List.cons_append, List.foldl_cons, Nat.zero_mul]
    rfl

section Convert

variable {b : Word} (hb : 2 ≤ b.toNat)

include hb

theorem convert_of_ne {table : List Char} (hnum : num ≠ 0) :
    convert table b num = table.getD (num % b).toNat ' ' :: convert table b (num / b) := by
  rw [convert, dif_neg]
  rintro (hzero | hlt)
  · exact hnum hzero
  · omega

omit hb in
theorem convert_zero (table : List Char) : convert table b 0 = [] := by
  rw [convert, dif_pos (.inl rfl)]

/-- A number of `n` bits has at most `n` digits. -/
theorem length_convert_le (table : List Char) {n : ℕ} (hnum : num.toNat < 2 ^ n) :
    (convert table b num).length ≤ n := by
  induction n generalizing num with
  | zero =>
    obtain rfl : num = 0 := BitVec.eq_of_toNat_eq (by simpa using hnum)
    rw [convert_zero]
    exact le_rfl
  | succ n ih =>
    by_cases hzero : num = 0
    · rw [hzero, convert_zero]
      exact Nat.zero_le _
    · rw [convert_of_ne hb hzero, List.length_cons]
      refine Nat.succ_le_succ (ih ?_)
      rw [BitVec.toNat_udiv]
      rw [pow_succ] at hnum
      exact Nat.div_lt_of_lt_mul (by nlinarith)

/-- The digits of a number denote it, and are digits of the base. -/
theorem readDigits_convert (hb' : b.toNat ≤ 36) (type : Flags) (num : Word) :
    readDigits b.toNat (convert (digits type) b num).reverse = num.toNat ∧
      ∀ c ∈ convert (digits type) b num, ∃ j < b.toNat, c = (digits type).getD j ' ' := by
  induction h : num.toNat using Nat.strong_induction_on generalizing num with
  | _ n ih =>
    by_cases hzero : num = 0
    · rw [hzero, convert_zero]
      rw [hzero] at h
      exact ⟨h, fun c hc => absurd hc List.not_mem_nil⟩
    · have hpos : 0 < num.toNat := Nat.pos_of_ne_zero fun hc => hzero (BitVec.eq_of_toNat_eq hc)
      have hmod : (num % b).toNat < b.toNat := by
        rw [BitVec.toNat_umod]
        exact Nat.mod_lt _ (by omega)
      have hvalue := digitValue_digits type (num % b).toNat (by omega)
      obtain ⟨hread, hlt⟩ := ih (num / b).toNat
        (by rw [BitVec.toNat_udiv, ← h]; exact Nat.div_lt_self hpos hb) (num / b) rfl
      rw [convert_of_ne hb hzero]
      refine ⟨?_, fun c hc => ?_⟩
      · rw [List.reverse_cons, readDigits_append, hread, hvalue, BitVec.toNat_udiv,
          BitVec.toNat_umod, ← h]
        exact Nat.div_add_mod' _ _
      · rcases List.mem_cons.mp hc with rfl | hc
        · exact ⟨_, hmod, rfl⟩
        · exact hlt c hc

end Convert

/-- The digits that `number` writes denote what they are to denote. There are at most 32 of them. -/
theorem readDigits_digitsOf (type : Flags) (num : Word) (hbase : 2 ≤ base) (hbase' : base ≤ 36) :
    readDigits base.toNat (digitsOf type num base) = magnitude type num ∧
      (∀ c ∈ digitsOf type num base, ∃ j < base.toNat, c = (digits type).getD j ' ') ∧
      (digitsOf type num base).length ≤ 32 := by
  have hb : (BitVec.ofInt 32 base).toNat = base.toNat := by
    rw [BitVec.toNat_ofInt]
    omega
  set num' := if type.sign ∧ num.toInt < 0 then -num else num with hnum'
  have habs : num'.toNat = magnitude type num := by
    rw [magnitude, hnum']
    split_ifs with hneg hsign hsign
    · have hlt := hneg.2
      rw [BitVec.toNat_neg]
      rw [BitVec.toInt_eq_toNat_cond] at hlt ⊢
      split_ifs at hlt ⊢ <;> omega
    · exact absurd hneg.1 hsign
    · have hpos : 0 ≤ num.toInt := not_lt.mp fun hc => hneg ⟨hsign, hc⟩
      rw [BitVec.toInt_eq_toNat_cond] at hpos ⊢
      split_ifs at hpos ⊢ <;> omega
    · rfl
  rw [digitsOf, tmpOf, ← hnum']
  by_cases hzero : num' = 0
  · rw [if_pos hzero, ← habs, hzero]
    refine ⟨Nat.zero_mul _, fun c hc => ?_, by decide⟩
    obtain rfl := List.mem_singleton.mp (List.mem_reverse.mp hc)
    refine ⟨0, by omega, ?_⟩
    rw [digits]
    split_ifs <;> rfl
  · obtain ⟨hread, hlt⟩ := readDigits_convert (b := BitVec.ofInt 32 base) (by omega)
      (by omega) type num'
    rw [if_neg hzero, ← habs, ← hb]
    refine ⟨hread, fun c hc => hlt c (List.mem_reverse.mp hc), ?_⟩
    rw [List.length_reverse]
    exact length_convert_le (by omega) _ num'.isLt

/-! ### `number` -/

/-- Dropping `ZEROPAD` where there is `LEFT` matters for the padding only. -/
theorem number_drop (num : Word) (base : ℤ) (t : Flags)
    (ht : t = if type.left then { type with zeropad := false } else type) :
    signOf t num = signOf type num ∧ specialOf t base = specialOf type base ∧
      tmpOf t num base = tmpOf type num base ∧ t.special = type.special ∧ t.left = type.left ∧
      t.zeropad = (type.zeropad && !type.left) := by
  rw [ht]
  cases hleft : type.left with
  | false => exact ⟨rfl, rfl, rfl, rfl, hleft, (Bool.and_true _).symm⟩
  | true => exact ⟨rfl, rfl, rfl, rfl, rfl, (Bool.and_false _).symm⟩

theorem length_signOf (type : Flags) (num : Word) : (signOf type num).toList.length ≤ 1 := by
  cases signOf type num with
  | none => exact Nat.zero_le _
  | some c => exact le_rfl

theorem length_specialOf (type : Flags) (base : ℤ) : (specialOf type base).length ≤ 2 := by
  rw [specialOf]
  split_ifs <;> simp

/-- `if (sign) size--`. -/
theorem size_sign {x : ℤ} (hlo : -1 ≤ x) (hhi : x < 2 ^ 30) :
    (if (signOf type num).isSome then int (x - 1) else x) =
    x - (signOf type num).toList.length := by
  cases signOf type num with
  | none => exact (sub_zero x).symm
  | some c => exact int_of_range (by omega) (by omega)

/-- `if (type & SPECIAL) if (base == 16) size -= 2; else if (base == 8) size--`. -/
theorem size_special {x : ℤ} (hlo : -2 ≤ x) (hhi : x < 2 ^ 30) :
    (if type.special then
        if base = 16 then int (x - 2) else if base = 8 then int (x - 1) else x
      else x) = x - (specialOf type base).length := by
  rw [specialOf]
  split_ifs with hs h16 h8 h8
  · omega
  · exact int_of_range (by omega) (by omega)
  · exact int_of_range (by omega) (by omega)
  · exact (sub_zero x).symm
  · exact (sub_zero x).symm

/-- `number` lays out the digits of the number. -/
theorem number_eq (hbase : 2 ≤ base) (hbase' : base ≤ 36) (hsize : -1 ≤ size)
    (hsize' : size < 2 ^ 30) (hprecision : -1 ≤ precision) (hprecision' : precision < 2 ^ 30) :
    number num base size precision type = some (type.layout size
      ((signOf type num).toList ++ specialOf type base)
      (List.replicate (precision - (digitsOf type num base).length).toNat '0' ++
        digitsOf type num base)) := by
  have hlen := (readDigits_digitsOf type num hbase hbase').2.2
  have hi : (tmpOf type num base).length = (digitsOf type num base).length :=
    (List.length_reverse ..).symm
  have hs := length_signOf type num
  have hp := length_specialOf type base
  unfold number
  generalize ht : (if type.left then { type with zeropad := false } else type) = t
  obtain ⟨hsign, hspecial, htmp, hspecial', hleft, hzeropad⟩ :=
    number_drop num base t ht.symm
  dsimp only
  rw [if_neg (by omega), hsign, hspecial, htmp, hspecial', hleft, hzeropad, hi,
    size_sign hsize hsize', size_special (by omega) (by omega), countDown_eq '0' _ _,
    copyBack_eq _ hi.ge, ← hi, List.take_length]
  set len := (tmpOf type num base).length with hlen'
  set p := if precision < len then (len : ℤ) else precision with hp'
  have hpmax : p = max precision len := by
    rw [hp']
    split_ifs <;> omega
  rw [int_of_range (x := size - _ - _ - p) (by omega) (by omega)]
  set s := size - (signOf type num).toList.length - (specialOf type base).length - p with hs'
  rw [Flags.layout, List.length_append, List.length_append, List.length_replicate, ← hi]
  have hpad : (size - (((signOf type num).toList.length + (specialOf type base).length : ℕ) +
      ((precision - len).toNat + len : ℕ))).toNat = s.toNat := by
    omega
  dsimp only
  rw [hpad, show (p - len).toNat = (precision - len).toNat by omega]
  -- A loop that has ended leaves a negative number to the next one.
  have hdone (c d : Char) : (countDown c 0 (countDown d 0 s).2).1 = [] := by
    rw [countDown_eq, countDown_eq, int_of_range (by omega) (by omega),
      show (min 0 s - 1 - 0).toNat = 0 by omega]
    rfl
  have hdone' (c d e : Char) : (countDown c 0 (countDown d 0 (countDown e 0 s).2).2).1 = [] := by
    rw [countDown_eq, countDown_eq, countDown_eq, int_of_range (x := min 0 s - 1) (by omega)
      (by omega),
      int_of_range (by omega) (by omega), show (min 0 (min 0 s - 1) - 1 - 0).toNat = 0 by omega]
    rfl
  have hfirst (c : Char) : (countDown c 0 s).1 = List.replicate s.toNat c := by
    rw [countDown_eq, sub_zero]
  cases hl : type.left with
  | true =>
    simp only [Bool.not_true, Bool.and_false, Bool.false_eq_true, or_true, if_true, hfirst,
      List.nil_append, List.append_assoc, digitsOf]
  | false =>
    cases hz : type.zeropad with
    | true =>
      simp only [Bool.not_false, Bool.and_true, Bool.false_eq_true, or_false, if_true, if_false,
        hfirst, hdone, List.nil_append, List.append_assoc, List.append_nil, digitsOf]
    | false =>
      simp only [Bool.not_false, Bool.and_true, Bool.false_eq_true, or_false, if_false, hfirst,
        hdone, hdone', List.append_assoc, List.append_nil, digitsOf]

theorem length_layout (type : Flags) (size : ℤ) (head body : List Char) :
    ((type.layout size head body).length : ℤ) = max size (head.length + body.length) := by
  rw [Flags.layout]
  split_ifs <;> simp only [List.length_append, List.length_replicate] <;> omega

/-- Without flags and a size the digits are all that is written. -/
theorem layout_none (num : Word) (body : List Char) :
    Flags.layout .none (-1) ((signOf .none num).toList ++ specialOf .none 10) body = body := by
  have hpad : (-1 - ((((signOf .none num).toList ++ specialOf .none 10).length : ℤ) +
      body.length)).toNat = 0 := by omega
  rw [Flags.layout, hpad]
  rfl

/-! ### `skip_atoi` -/

theorem le_foldl_digits (ds : List Char) (v : ℕ) :
    v ≤ ds.foldl (fun v c => v * 10 + digitValue c) v := by
  induction ds generalizing v with
  | nil => exact le_rfl
  | cons c ds ih =>
    have hle : v ≤ v * 10 + digitValue c := by omega
    exact hle.trans (ih _)

/-- `skip_atoi` reads decimal digits, up to the first byte that is none. -/
theorem skipDigits_append {ds : List Char} {v : ℕ} {s : List Char} (hc : isDigit c = false)
    (hds : ∀ d ∈ ds, ∃ j < 10, d = (digits .none).getD j ' ')
    (hlt : ds.foldl (fun v c => v * 10 + digitValue c) v < 2 ^ 31) :
    skipDigits v (ds ++ c :: s) =
      some (((ds.foldl (fun v c => v * 10 + digitValue c) v : ℕ) : ℤ), c :: s) := by
  induction ds generalizing v with
  | nil =>
    rw [List.nil_append, skipDigits, hc]
    rfl
  | cons d ds ih =>
    obtain ⟨j, hj, rfl⟩ := hds d List.mem_cons_self
    have hdigit : ∀ j < 10, isDigit ((digits .none).getD j ' ') = true ∧
        ((digits .none).getD j ' ').toNat = '0'.toNat + digitValue ((digits .none).getD j ' ') := by
      decide
    obtain ⟨his, hnat⟩ := hdigit j hj
    have hle := le_foldl_digits ds (v * 10 + digitValue ((digits .none).getD j ' '))
    rw [List.foldl_cons] at hlt
    have hstep : int (int (int ((v : ℤ) * 10) + ((digits .none).getD j ' ').toNat) - '0'.toNat) =
        (v * 10 + digitValue ((digits .none).getD j ' ') : ℕ) := by
      rw [int, int, int, Int.bmod_sub_bmod, add_sub_assoc, Int.bmod_add_bmod, hnat]
      refine (int_of_range ?_ ?_).trans ?_ <;> push_cast <;> omega
    rw [List.cons_append, skipDigits, his, if_pos rfl, hstep]
    exact ih (fun d hd => hds d (List.mem_cons_of_mem _ hd)) hlt

/-! ### Main theorem -/

/-- **`number` writes the number that it is given, as the base, the size, the precision and the
flags demand, and `skip_atoi` reads back the decimal digits.** -/
theorem number_roundTrip (num : Word) (type : Flags) (hbase : 2 ≤ base) (hbase' : base ≤ 36)
    (hsize : -1 ≤ size) (hsize' : size < 2 ^ 30) (hprecision : -1 ≤ precision)
    (hprecision' : precision < 2 ^ 30) :
    (∃ out, number num base size precision type = some out ∧
      Formatted num base size precision type out) ∧
    ∀ n < 2 ^ 31, ∀ c s, isDigit c = false → ∃ out,
      number (BitVec.ofNat 32 n) 10 (-1) precision .none = some out ∧
      skipAtoi (out ++ c :: s) = some ((n : ℤ), c :: s) := by
  refine ⟨?_, fun n hn c s hc => ?_⟩
  · obtain ⟨hread, hdigit, hlen⟩ := readDigits_digitsOf type num hbase hbase'
    refine ⟨_, number_eq hbase hbase' hsize hsize' hprecision hprecision', ?_, hdigit, rfl, ?_, ?_⟩
    · rw [← List.length_reverse]
      exact hlen.trans (by decide)
    · rw [length_layout, List.length_append, List.length_append, List.length_replicate]
      push_cast
      omega
    · rw [readDigits_replicate, hread]
  · obtain ⟨hread, hdigit, -⟩ := readDigits_digitsOf .none (BitVec.ofNat 32 n)
      (show (2 : ℤ) ≤ 10 by decide) (by decide)
    have hmag : magnitude .none (BitVec.ofNat 32 n) = n :=
      (BitVec.toNat_ofNat n 32).trans (Nat.mod_eq_of_lt (by omega))
    refine ⟨_, number_eq (by decide) (by decide) le_rfl (by decide) hprecision hprecision', ?_⟩
    generalize digitsOf .none (BitVec.ofNat 32 n) 10 = ds at *
    rw [layout_none]
    have hvalue : (List.replicate (precision - ds.length).toNat '0' ++ ds).foldl
        (fun v c => v * 10 + digitValue c) 0 = n :=
      (readDigits_replicate 10 _ ds).trans (hread.trans hmag)
    refine (skipDigits_append (v := 0) hc (fun d hd => ?_) (by rwa [hvalue])).trans (by rw [hvalue])
    rcases List.mem_append.mp hd with hd | hd
    · exact ⟨0, by decide, List.eq_of_mem_replicate hd⟩
    · exact hdigit d hd

/-- The least `int`, in a field of 20 bytes that begins with zeros. -/
theorem number_roundTrip_least :
    (∃ out, number 0x80000000 10 20 (-1) ⟨true, true, false, false, false, false, false⟩ =
      some out ∧
      Formatted 0x80000000 10 20 (-1) ⟨true, true, false, false, false, false, false⟩ out) ∧
    ∀ n < 2 ^ 31, ∀ c s, isDigit c = false → ∃ out,
      number (BitVec.ofNat 32 n) 10 (-1) (-1) .none = some out ∧
      skipAtoi (out ++ c :: s) = some ((n : ℤ), c :: s) :=
  number_roundTrip 0x80000000 ⟨true, true, false, false, false, false, false⟩ (by decide)
    (by decide)
    (by decide) (by decide) (by decide) (by decide)

end Linux001.Printf
