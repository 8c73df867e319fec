import Linux001.Lib.StringOps

/-!
# Searching strings

`strcmp` and `strstr` of `string.h`, and the scan with which several functions begin. A loop takes
turns that are counted down, and every theorem says how many are enough.

## Main definitions

* `lengthWord`: the length of a string.
* `strcmp`, `strstr`: the functions.

## Main results

* `strcmp_eq`: the order of strings, as `strcmp` sees it.
* `strstr_first`: the first place at which a string is found.
-/

namespace Linux001.Strings

open I386

/-- `movl $-1,%ecx ; xorl %eax,%eax ; repne ; scasb ; notl %ecx ; decl %ecx`, with which several
functions begin. -/
def lengthWord (m : Bytes) (s : Word) : Word :=
  ~~~BitVec.ofNat 32 (repneScasb m 0 0xffffffff s false).1 - 1

/-- `strcmp`. `scasb` compares the character of `ct` with that of `cs`, and `jl` takes them as
signed numbers. -/
def strcmp (m : Bytes) : ℕ → Word → Word → Option Word
  | 0, _, _ => none
  | fuel + 1, edi, esi =>
    let al := m esi
    if al ≠ m edi then some (if al.slt (m edi) then 1 else -1)
    else if al ≠ 0 then strcmp m fuel (edi + 1) (esi + 1)
    else some 0

/-- The loop `1:` of `strstr`. The zero flag only matters when `%edx` is 0. -/
def strLoop (m : Bytes) (ct : Word) (edx : ℕ) : ℕ → Word → Bool → Option Word
  | 0, _, _ => none
  | fuel + 1, esi, zf =>
    let r := repeCmpsb m edx esi ct zf
    if r.2.2 then some esi
    else if m (r.1 - 1) ≠ 0 then strLoop m ct edx fuel (esi + 1) false
    else some 0

/-- `strstr`. -/
def strstr (fuel : ℕ) (m : Bytes) (cs ct : Word) : Option Word :=
  let ecx := lengthWord m ct
  strLoop m ct ecx.toNat fuel cs (ecx = 0)

section Lengths

variable {m : Bytes} {s : Word} {l : List Byte}

theorem lengthWord_eq (h : Str m s l) (hl : l.length < 0xffffffff) :
    lengthWord m s = BitVec.ofNat 32 l.length := by
  have hcount : (repneScasb m 0 0xffffffff s false).1 = 0xffffffff - (l.length + 1) := by
    rw [repneScasb_zero h hl]
  rw [lengthWord, hcount]
  refine BitVec.eq_of_toNat_eq ?_
  rw [BitVec.toNat_sub, BitVec.toNat_not, BitVec.toNat_ofNat, BitVec.toNat_ofNat]
  have hone : (1 : Word).toNat = 1 := rfl
  rw [hone]
  omega

theorem toNat_lengthWord (h : Str m s l) (hl : l.length < 0xffffffff) :
    (lengthWord m s).toNat = l.length := by
  rw [lengthWord_eq h hl, BitVec.toNat_ofNat, Nat.mod_eq_of_lt (by omega)]

end Lengths

section Search

variable {m : Bytes} {cs ct : Word} {l d : List Byte} {fuel : ℕ} {zf : Bool}

/-- The first place at which a list is found in another one. -/
def firstAt (d : List Byte) : List Byte → Option ℕ
  | [] => if d = [] then some 0 else none
  | c :: l => if d <+: c :: l then some 0 else (firstAt d l).map (· + 1)

theorem firstAt_eq_none (hd : l.length < d.length) : firstAt d l = none := by
  induction l with
  | nil =>
    rw [firstAt, if_neg]
    rintro rfl
    exact absurd hd (Nat.not_lt_zero _)
  | cons c l ih =>
    rw [List.length_cons] at hd
    rw [firstAt, if_neg, ih (by omega)]
    · rfl
    · intro hfits
      have hle := hfits.length_le
      rw [List.length_cons] at hle
      omega

theorem strLoop_eq (hd : Str m ct d) (h : Str m cs l) (hzf : d = [] → zf = true)
    (hfuel : l.length < fuel) : strLoop m ct d.length fuel cs zf =
      some ((firstAt d l).elim 0 fun i => cs + BitVec.ofNat 32 i) := by
  induction l generalizing cs fuel zf with
  | nil =>
    obtain ⟨fuel, rfl⟩ := Nat.exists_eq_succ_of_ne_zero (Nat.ne_of_gt hfuel)
    obtain ⟨hfound, hend⟩ := repeCmpsb_str h hd hzf
    rw [strLoop, hfound, firstAt]
    by_cases hnil : d = []
    · simp [hnil]
    · have hnot : ¬d <+: [] := fun hfits => hnil (List.prefix_nil.mp hfits)
      have hlast := (hend hnot).mpr List.nil_prefix
      simp only [hnot, decide_false, Bool.false_eq_true, if_false]
      rw [if_neg (not_not.mpr hlast), if_neg hnil]
      rfl
  | cons c l ih =>
    obtain ⟨fuel, rfl⟩ := Nat.exists_eq_succ_of_ne_zero (Nat.ne_of_gt (Nat.zero_lt_of_lt hfuel))
    obtain ⟨hfound, hend⟩ := repeCmpsb_str h hd hzf
    rw [List.length_cons] at hfuel
    rw [strLoop, hfound, firstAt]
    by_cases hfits : d <+: c :: l
    · simp [hfits]
    · simp only [hfits, decide_false, Bool.false_eq_true, if_false]
      by_cases hlast : c :: l <+: d
      · -- The rest of `cs` is shorter than `ct`.
        have hshort : l.length < d.length := by
          have hle := hlast.length_le
          rw [List.length_cons] at hle
          omega
        rw [(hend hfits).mpr hlast, firstAt_eq_none hshort]
        simp
      · have hgo := mt (hend hfits).mp hlast
        have hnil (h0 : d = []) : false = true := absurd (h0 ▸ List.nil_prefix) hfits
        rw [if_pos hgo, ih h.2.2 hnil (by omega)]
        cases firstAt d l with
        | none => rfl
        | some i => simp only [Option.map_some, Option.elim_some, add_one_add]

theorem strstr_eq (h : Str m cs l) (hd : Str m ct d) (hlen : d.length < 0xffffffff)
    (hfuel : l.length < fuel) : strstr fuel m cs ct =
      some ((firstAt d l).elim 0 fun i => cs + BitVec.ofNat 32 i) := by
  have hzero (hnil : d = []) : decide (lengthWord m ct = 0) = true := by
    rw [lengthWord_eq hd hlen, hnil]
    rfl
  rw [strstr, toNat_lengthWord hd hlen]
  exact strLoop_eq hd h hzero hfuel

theorem firstAt_some {i : ℕ} (h : firstAt d l = some i) :
    i ≤ l.length ∧ d <+: l.drop i ∧ ∀ j < i, ¬d <+: l.drop j := by
  induction l generalizing i with
  | nil =>
    rw [firstAt] at h
    split_ifs at h with hnil
    obtain rfl := Option.some.inj h
    exact ⟨le_rfl, by simp [hnil], fun _ hj => absurd hj (Nat.not_lt_zero _)⟩
  | cons c l ih =>
    rw [firstAt] at h
    split_ifs at h with hfits
    · obtain rfl := Option.some.inj h
      exact ⟨Nat.zero_le _, hfits, fun _ hj => absurd hj (Nat.not_lt_zero _)⟩
    · obtain ⟨i', hi', rfl⟩ := Option.map_eq_some_iff.mp h
      obtain ⟨hle, hfound, hfirst⟩ := ih hi'
      refine ⟨Nat.succ_le_succ hle, hfound, fun j hj => ?_⟩
      rcases j with _ | j
      · exact hfits
      · exact hfirst j (by omega)

theorem firstAt_none (h : firstAt d l = none) : ¬d <:+: l := by
  induction l with
  | nil =>
    rw [firstAt] at h
    split_ifs at h with hnil
    exact fun hinfix => hnil (List.infix_nil.mp hinfix)
  | cons c l ih =>
    rw [firstAt] at h
    split_ifs at h with hfits
    rw [List.infix_cons_iff]
    exact not_or.mpr ⟨hfits, ih (Option.map_eq_none_iff.mp h)⟩

/-- **`strstr` finds the first occurrence.** It returns a pointer to the first place in `cs` at
which `ct` is found, and `NULL` if there is none. -/
theorem strstr_first (h : Str m cs l) (hd : Str m ct d) (hlen : d.length < 0xffffffff)
    (hfuel : l.length < fuel) : ∃ p, strstr fuel m cs ct = some p ∧
      ((∃ i ≤ l.length, p = cs + BitVec.ofNat 32 i ∧ d <+: l.drop i ∧ ∀ j < i, ¬d <+: l.drop j) ∨
        p = 0 ∧ ¬d <:+: l) := by
  refine ⟨_, strstr_eq h hd hlen hfuel, ?_⟩
  cases hfirst : firstAt d l with
  | none => exact .inr ⟨rfl, firstAt_none hfirst⟩
  | some i =>
    obtain ⟨hle, hfound, hnone⟩ := firstAt_some hfirst
    exact .inl ⟨i, hle, rfl, hfound, hnone⟩

/-- `aab` at 8 and `ab` at 16. -/
def twoStrings : Bytes := fun x =>
  if x = 8 ∨ x = 9 ∨ x = 16 then 97 else if x = 10 ∨ x = 17 then 98 else 0

theorem strstr_first_second : ∃ p, strstr 4 twoStrings 8 16 = some p ∧
    ((∃ i ≤ 3, p = 8 + BitVec.ofNat 32 i ∧ [97, 98] <+: [97, 97, (98 : Byte)].drop i ∧
      ∀ j < i, ¬[97, 98] <+: [97, 97, (98 : Byte)].drop j) ∨
        p = 0 ∧ ¬[97, 98] <:+: [97, 97, (98 : Byte)]) :=
  strstr_first (l := [97, 97, 98]) (d := [97, 98])
    ⟨by decide, rfl, by decide, rfl, by decide, rfl, rfl⟩ ⟨by decide, rfl, by decide, rfl, rfl⟩
    (by decide) (by decide)

end Search

/-! ### The order of strings -/

section Order

variable {m : Bytes} {cs ct : Word} {l l' : List Byte} {fuel : ℕ}

/-- A string as `strcmp` sees it: its characters are signed, and the 0 at its end counts. -/
def signed (l : List Byte) : List ℤ := (l ++ [0]).map BitVec.toInt

theorem signed_cons (c : Byte) (l : List Byte) : signed (c :: l) = c.toInt :: signed l := rfl

theorem signed_head (h : Str m cs l) : ∃ tail, signed l = (m cs).toInt :: tail := by
  cases l with
  | nil =>
    have hend : m cs = 0 := h
    exact ⟨[], by rw [hend]; rfl⟩
  | cons c l => exact ⟨signed l, by rw [h.2.1, signed_cons]⟩

/-- The first characters differ. -/
theorem strcmp_of_ne (h : Str m cs l) (h' : Str m ct l') (hne : m ct ≠ m cs) :
    strcmp m (fuel + 1) cs ct =
      some (if l = l' then 0 else if signed l < signed l' then -1 else 1) := by
  obtain ⟨tail, htail⟩ := signed_head h
  obtain ⟨tail', htail'⟩ := signed_head h'
  have hlists : l ≠ l' := by
    rintro rfl
    rw [htail] at htail'
    exact hne (BitVec.toInt_inj.mp (List.cons.inj htail').1).symm
  have hints : (m cs).toInt ≠ (m ct).toInt := fun heq => hne (BitVec.toInt_inj.mp heq).symm
  rw [strcmp, if_pos hne, if_neg hlists, htail, htail']
  simp only [BitVec.slt_iff_toInt_lt]
  by_cases hlt : (m ct).toInt < (m cs).toInt
  · have hnot : ¬(m cs).toInt :: tail < (m ct).toInt :: tail' := by
      rw [List.cons_lt_cons_iff]
      omega
    rw [if_pos hlt, if_neg hnot]
  · have hless : (m cs).toInt :: tail < (m ct).toInt :: tail' := by
      rw [List.cons_lt_cons_iff]
      omega
    rw [if_neg hlt, if_pos hless]

/-- **`strcmp` compares strings in the lexicographic order of signed characters.** -/
theorem strcmp_eq (h : Str m cs l) (h' : Str m ct l') (hfuel : l.length < fuel) :
    strcmp m fuel cs ct = some (if l = l' then 0 else if signed l < signed l' then -1 else 1) := by
  induction l generalizing cs ct l' fuel with
  | nil =>
    obtain ⟨fuel, rfl⟩ := Nat.exists_eq_succ_of_ne_zero (Nat.ne_of_gt hfuel)
    by_cases hne : m ct = m cs
    · have hcs : m cs = 0 := h
      have hnil : l' = [] := by
        cases l' with
        | nil => rfl
        | cons d l' => exact absurd (h'.2.1.symm.trans (hne.trans hcs)) h'.1
      rw [strcmp, if_neg (not_not.mpr hne), hne, hcs, if_neg (not_not.mpr rfl), hnil, if_pos rfl]
    · exact strcmp_of_ne h h' hne
  | cons c l ih =>
    obtain ⟨fuel, rfl⟩ := Nat.exists_eq_succ_of_ne_zero (Nat.ne_of_gt (Nat.zero_lt_of_lt hfuel))
    by_cases hne : m ct = m cs
    · obtain ⟨hc, hcs, hl⟩ := h
      cases l' with
      | nil =>
        have hct : m ct = 0 := h'
        exact absurd (hcs.symm.trans (hne.symm.trans hct)) hc
      | cons d l' =>
        obtain ⟨-, hct, hl'⟩ := h'
        obtain rfl : c = d := hcs.symm.trans (hne.symm.trans hct)
        rw [List.length_cons] at hfuel
        rw [strcmp, if_neg (not_not.mpr hne), hct, if_pos hc, ih hl hl' (by omega), signed_cons,
          signed_cons]
        simp only [List.cons.injEq, true_and, List.cons_lt_cons_iff, lt_self_iff_false, false_or]
    · exact strcmp_of_ne h h' hne

theorem strcmp_eq_less : strcmp twoStrings 4 8 16 =
    some (if [97, 97, (98 : Byte)] = [97, 98] then 0
      else if signed [97, 97, 98] < signed [97, 98] then -1 else 1) :=
  have h : Str twoStrings 8 [97, 97, 98] := ⟨by decide, rfl, by decide, rfl, by decide, rfl, rfl⟩
  have h' : Str twoStrings 16 [97, 98] := ⟨by decide, rfl, by decide, rfl, rfl⟩
  strcmp_eq h h' (by decide)

end Order

end Linux001.Strings
