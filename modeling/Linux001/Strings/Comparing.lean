import Linux001.Strings.Storing

/-!
# Comparing with a count

`strncmp` and `memcmp` of `string.h`. Both take bytes as signed numbers, as `strcmp` does. `memcmp`
looks at the flags after `repe cmpsb`, which leaves them alone when the count is 0.

## Main definitions

* `strncmp`, `memcmp`: the functions.
* `order`: the lexicographic order of signed bytes as a return value.

## Main results

* `strncmp_eq`: `strncmp` compares the beginnings of two strings.
* `memcmp_eq_iff`: when `memcmp` compares.
-/

namespace Linux001.Strings

open I386

/-- `strncmp`, with the count in `%ecx`. -/
def strncmp (m : Bytes) : ℕ → Word → Word → Word → Option Word
  | 0, _, _, _ => none
  | fuel + 1, edi, esi, ecx =>
    let ecx := ecx - 1
    if ecx.msb then some 0
    else
      let al := m esi
      if al ≠ m edi then some (if al.slt (m edi) then 1 else -1)
      else if al ≠ 0 then strncmp m fuel (edi + 1) (esi + 1) ecx
      else some 0

/-- `memcmp`. `zf` is the zero flag before, and `jl` says whether that instruction would have jumped
then. -/
def memcmp (zf jl : Bool) (m : Bytes) (cs ct count : Word) : Word :=
  let r := repeCmpsb m count.toNat ct cs zf
  if r.2.2 then 0
  else if (if count = 0 then jl else (m (r.1 - 1)).slt (m (r.2.1 - 1))) then 1
  else -1

/-! ### The order of bytes -/

/-- What a comparison returns: the lexicographic order of signed bytes. -/
def order (l l' : List Byte) : Word :=
  if l = l' then 0 else if l.map BitVec.toInt < l'.map BitVec.toInt then -1 else 1

/-- The `n` bytes at an address. -/
def bytesAt (m : Bytes) : Word → ℕ → List Byte
  | _, 0 => []
  | a, n + 1 => m a :: bytesAt m (a + 1) n

section Order

variable {m : Bytes} {cs ct count : Word} {c d : Byte} {l l' : List Byte} {n fuel : ℕ} {zf : Bool}

theorem order_self (l : List Byte) : order l l = 0 := if_pos rfl

theorem order_cons (c : Byte) (l l' : List Byte) : order (c :: l) (c :: l') = order l l' := by
  simp only [order, List.cons.injEq, true_and, List.map_cons, List.cons_lt_cons_iff,
    lt_self_iff_false, false_or]

theorem order_of_ne (hne : d ≠ c) : order (c :: l) (d :: l') = if d.slt c then 1 else -1 := by
  have hlists : c :: l ≠ d :: l' := fun heq => hne (List.cons.inj heq).1.symm
  have hints : d.toInt ≠ c.toInt := fun heq => hne (BitVec.toInt_inj.mp heq)
  rw [order, if_neg hlists, List.map_cons, List.map_cons]
  simp only [List.cons_lt_cons_iff, BitVec.slt_iff_toInt_lt]
  by_cases hlt : d.toInt < c.toInt
  · rw [if_pos hlt, if_neg (by omega)]
  · rw [if_neg hlt, if_pos (by omega)]

/-- The flags after `repe cmpsb` are those of the last bytes. -/
theorem repeCmpsb_order (hzf : n = 0 → zf = true) :
    (if (repeCmpsb m n ct cs zf).2.2 then 0
      else if (m ((repeCmpsb m n ct cs zf).1 - 1)).slt (m ((repeCmpsb m n ct cs zf).2.1 - 1)) then 1
      else -1) = order (bytesAt m cs n) (bytesAt m ct n) := by
  induction n generalizing cs ct zf with
  | zero => rw [repeCmpsb, hzf rfl, if_pos rfl, bytesAt, bytesAt, order_self]
  | succ n ih =>
    rw [repeCmpsb, bytesAt, bytesAt]
    by_cases heq : m ct = m cs
    · rw [if_pos heq, ih fun _ => rfl, heq, order_cons]
    · rw [if_neg heq, order_of_ne heq, if_neg Bool.false_ne_true, BitVec.add_sub_cancel,
        BitVec.add_sub_cancel]

/-- **When `memcmp` compares.** With a count of 0 it relies on the zero flag that was there
before. -/
theorem memcmp_eq_iff (zf jl : Bool) (m : Bytes) (cs ct count : Word) :
    memcmp zf jl m cs ct count =
        order (bytesAt m cs count.toNat) (bytesAt m ct count.toNat) ↔
      (count = 0 → zf = true) := by
  by_cases hcount : count = 0
  · have hnat : count.toNat = 0 := by rw [hcount]; rfl
    rw [memcmp, hnat, repeCmpsb, bytesAt, bytesAt, order_self, if_pos hcount]
    cases zf <;> cases jl <;> simp [hcount]
  · have hnat : count.toNat = 0 → zf = true := fun h0 => absurd (BitVec.eq_of_toNat_eq h0) hcount
    rw [memcmp, if_neg hcount]
    exact iff_of_true (repeCmpsb_order hnat) fun h0 => absurd h0 hcount

/-- The first byte of a string with its 0. -/
theorem str_head (h : Str m cs l) : ∃ tail, l ++ [0] = m cs :: tail := by
  cases l with
  | nil =>
    have hend : m cs = 0 := h
    exact ⟨[], by rw [hend]; rfl⟩
  | cons c l => exact ⟨l ++ [0], by rw [h.2.1]; rfl⟩

/-- The count is used up. -/
theorem strncmp_of_zero (hzero : room count = 0) (l l' : List Byte) :
    strncmp m (fuel + 1) cs ct count =
      some (order (l.take (room count)) (l'.take (room count))) := by
  rw [strncmp, if_pos (room_eq_zero.mp hzero), hzero, List.take_zero, List.take_zero, order_self]

/-- The first characters differ. -/
theorem strncmp_of_ne (h : Str m cs l) (h' : Str m ct l') (hpos : 0 < room count)
    (hne : m ct ≠ m cs) : strncmp m (fuel + 1) cs ct count =
      some (order ((l ++ [0]).take (room count)) ((l' ++ [0]).take (room count))) := by
  obtain ⟨tail, htail⟩ := str_head h
  obtain ⟨tail', htail'⟩ := str_head h'
  obtain ⟨n, hn⟩ := Nat.exists_eq_succ_of_ne_zero hpos.ne'
  rw [htail, htail', hn, List.take_succ_cons, List.take_succ_cons, order_of_ne hne]
  simp only [strncmp, if_neg (not_msb_of_room hpos), if_pos hne]

/-- **`strncmp` compares the beginnings of two strings.** -/
theorem strncmp_eq (h : Str m cs l) (h' : Str m ct l') (count : Word) (hfuel : l.length < fuel) :
    strncmp m fuel cs ct count =
      some (order ((l ++ [0]).take (room count)) ((l' ++ [0]).take (room count))) := by
  induction l generalizing cs ct count l' fuel with
  | nil =>
    obtain ⟨fuel, rfl⟩ := Nat.exists_eq_succ_of_ne_zero (Nat.ne_of_gt hfuel)
    rcases Nat.eq_zero_or_pos (room count) with hzero | hpos
    · exact strncmp_of_zero hzero _ _
    by_cases hne : m ct = m cs
    · have hcs : m cs = 0 := h
      have hnil : l' = [] := by
        cases l' with
        | nil => rfl
        | cons d l' => exact absurd (h'.2.1.symm.trans (hne.trans hcs)) h'.1
      rw [strncmp, if_neg (not_msb_of_room hpos), hnil, order_self]
      simp only [hne, hcs, ne_eq, not_true, if_false]
    · exact strncmp_of_ne h h' hpos hne
  | cons c l ih =>
    obtain ⟨fuel, rfl⟩ := Nat.exists_eq_succ_of_ne_zero (Nat.ne_of_gt (Nat.zero_lt_of_lt hfuel))
    rcases Nat.eq_zero_or_pos (room count) with hzero | hpos
    · exact strncmp_of_zero hzero _ _
    by_cases hne : m ct = m cs
    · obtain ⟨hc, hcs, hl⟩ := h
      cases l' with
      | nil =>
        have hct : m ct = 0 := h'
        exact absurd (hcs.symm.trans (hne.symm.trans hct)) hc
      | cons d l' =>
        obtain ⟨-, hct, hl'⟩ := h'
        obtain rfl : c = d := hcs.symm.trans (hne.symm.trans hct)
        have hnext : room count = room (count - 1) + 1 := by
          rw [(room_pred hpos).1]
          omega
        rw [List.length_cons] at hfuel
        rw [strncmp, if_neg (not_msb_of_room hpos), hnext, List.cons_append, List.cons_append,
          List.take_succ_cons, List.take_succ_cons, order_cons,
          ← ih hl hl' _ (Nat.lt_of_succ_lt_succ hfuel)]
        simp only [hne, hcs, ne_eq, not_true, if_false, hc, not_false_eq_true, if_true]
    · exact strncmp_of_ne h h' hpos hne

theorem strncmp_eq_less : strncmp twoStrings 4 8 16 2 = some
    (order (([97, 97, 98] ++ [0]).take (room 2)) (([97, 98] ++ [0]).take (room 2))) :=
  have h : Str twoStrings 8 [97, 97, 98] := ⟨by decide, rfl, by decide, rfl, by decide, rfl, rfl⟩
  have h' : Str twoStrings 16 [97, 98] := ⟨by decide, rfl, by decide, rfl, rfl⟩
  strncmp_eq h h' 2 (by decide)

end Order

end Linux001.Strings
