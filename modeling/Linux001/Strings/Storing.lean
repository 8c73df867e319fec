import Linux001.Strings.Scanning

/-!
# Storing strings

`strncpy` and `strncat` of `string.h`, which store the first characters of a string at an address
or behind another string. The areas may have bytes in common if no byte is stored over one that is
still to be read. The count is counted down before it is looked at, and the loop is left when the
sign bit is set.

## Main definitions

* `strncpy`, `strncat`: the functions, with the value they return and the memory.
* `room`: how many characters a count lets through.

## Main results

* `strncpy_stored`: what is stored.
* `strncat_appended`: the string that is there then. `strncat` stores a second 0 when it appends the
  whole string and the count is not used up.
-/

namespace Linux001.Strings

open I386

/-! ### The functions -/

/-- `repne ; scasb ; decl %edi`: the end of the string at `dest`. -/
def endOf (dest : Word) (m : Bytes) : Word := (repneScasb m 0 0xffffffff dest false).2.1 - 1

/-- What the loop of `strncpy` and `strncat` leaves behind. -/
structure Cpy where
  js : Bool
  ecx : Word
  edi : Word
  m : Bytes

/-- The loop `1:` of `strncpy` and `strncat`, with the count in `%ecx`. It is left by `js` or behind
a 0. -/
def ncpyLoop : ℕ → Word → Word → Word → Bytes → Option Cpy
  | 0, _, _, _, _ => none
  | fuel + 1, ecx, esi, edi, m =>
    let ecx := ecx - 1
    if ecx.msb then some ⟨true, ecx, edi, m⟩
    else
      let al := m esi
      let m := Function.update m edi al
      let edi := edi + 1
      if al ≠ 0 then ncpyLoop fuel ecx (esi + 1) edi m else some ⟨false, ecx, edi, m⟩

/-- `strncpy`. -/
def strncpy (fuel : ℕ) (dest src count : Word) (m : Bytes) : Option (Word × Bytes) :=
  (ncpyLoop fuel count src dest m).map fun r =>
    (dest, if r.js then r.m else repStosb 0 r.ecx.toNat r.edi r.m)

/-- `strncat`. -/
def strncat (fuel : ℕ) (dest src count : Word) (m : Bytes) : Option (Word × Bytes) :=
  (ncpyLoop fuel count src (endOf dest m) m).map fun r => (dest, Function.update r.m r.edi 0)

/-! ### Counts -/

/-- How many characters a count lets through: none when the sign bit is set after `decl`. It is not
set for the least of the negative counts, which `decl` makes positive. -/
def room (count : Word) : ℕ := if (count - 1).msb then 0 else count.toNat

section Room

variable {count : Word}

theorem room_eq_zero : room count = 0 ↔ (count - 1).msb = true := by
  rw [room]
  split_ifs with hmsb
  · exact iff_of_true rfl hmsb
  · refine iff_of_false (fun h0 => hmsb ?_) hmsb
    rw [BitVec.eq_of_toNat_eq (y := 0) h0]
    rfl

theorem not_msb_of_room (h : 0 < room count) : ¬(count - 1).msb = true :=
  fun hmsb => h.ne' (room_eq_zero.mpr hmsb)

theorem room_eq_toNat (h : 0 < room count) : room count = count.toNat :=
  if_neg (not_msb_of_room h)

theorem room_lt (count : Word) : room count < 2 ^ 32 := by
  rw [room]
  split_ifs
  · decide
  · exact count.isLt

/-- `decl` uses up one character. -/
theorem room_pred (h : 0 < room count) :
    room (count - 1) = room count - 1 ∧ (count - 1).toNat = room count - 1 := by
  have hmsb := not_msb_of_room h
  have hcount := room_eq_toNat h
  have hone : (1 : Word).toNat = 1 := rfl
  have hlt := count.isLt
  have hpred : (count - 1).toNat = count.toNat - 1 := by
    rw [BitVec.toNat_sub]
    omega
  rw [hcount, hpred]
  refine ⟨?_, rfl⟩
  rw [room]
  split_ifs with hmsb'
  · -- The last character: the sign bit is set next time.
    rw [BitVec.msb_eq_decide, decide_eq_true_eq] at hmsb hmsb'
    rw [BitVec.toNat_sub] at hmsb'
    omega
  · exact hpred

end Room

/-! ### The loops -/

section Loops

variable {m : Bytes} {src dst count : Word} {l : List Byte} {fuel : ℕ}

/-- The loop ends behind the 0. -/
theorem ncpyLoop_whole (h : Str m src l) (hroom : l.length < room count)
    (hunread : Unread dst src (l.length + 1)) (hfuel : l.length < fuel) :
    ∃ ecx m', ncpyLoop fuel count src dst m =
        some ⟨false, ecx, dst + BitVec.ofNat 32 (l.length + 1), m'⟩ ∧
      ecx.toNat = room count - (l.length + 1) ∧ Stored m m' dst (l ++ [0]) := by
  induction l generalizing m src dst count fuel with
  | nil =>
    obtain ⟨fuel, rfl⟩ := Nat.exists_eq_succ_of_ne_zero (Nat.ne_of_gt hfuel)
    have hend : m src = 0 := h
    have hmsb := not_msb_of_room hroom
    obtain ⟨-, hecx⟩ := room_pred hroom
    refine ⟨count - 1, Function.update m dst 0, ?_, hecx, stored_update m dst 0⟩
    simp only [ncpyLoop, if_neg hmsb, hend, ne_eq, not_true, if_false]
    rfl
  | cons c l ih =>
    obtain ⟨fuel, rfl⟩ := Nat.exists_eq_succ_of_ne_zero (Nat.ne_of_gt (Nat.zero_lt_of_lt hfuel))
    obtain ⟨hc, hsrc, hl⟩ := h
    rw [List.length_cons] at hroom hunread hfuel
    have hmsb := not_msb_of_room (Nat.zero_lt_of_lt hroom)
    obtain ⟨hnext, -⟩ := room_pred (Nat.zero_lt_of_lt hroom)
    obtain ⟨ecx, m', hloop, hleft, hstored⟩ := ih (hl.stored hunread)
      (by omega : l.length < room (count - 1)) hunread.next (Nat.lt_of_succ_lt_succ hfuel)
    have hlt := room_lt count
    refine ⟨ecx, m', ?_, ?_, hstored.cons ?_⟩
    · simp only [ncpyLoop, if_neg hmsb, hsrc, ne_eq, hc, not_false_eq_true, if_true, hloop]
      rw [add_one_add]
      rfl
    · rw [hleft, List.length_cons]
      omega
    · rw [List.length_append, List.length_singleton]
      omega

/-- The loop ends when the count is used up. -/
theorem ncpyLoop_cut (h : Str m src l) (hroom : room count ≤ l.length)
    (hunread : Unread dst src (l.length + 1)) (hfuel : l.length < fuel) :
    ∃ ecx m', ncpyLoop fuel count src dst m =
        some ⟨true, ecx, dst + BitVec.ofNat 32 (room count), m'⟩ ∧
      Stored m m' dst (l.take (room count)) := by
  generalize hn : room count = n at hroom
  induction n generalizing m src dst count l fuel with
  | zero =>
    obtain ⟨fuel, rfl⟩ := Nat.exists_eq_succ_of_ne_zero (Nat.ne_of_gt (Nat.zero_lt_of_lt hfuel))
    refine ⟨count - 1, m, ?_, ?_⟩
    · rw [ncpyLoop, if_pos (room_eq_zero.mp hn), BitVec.add_zero]
    · rw [List.take_zero]
      exact .nil m dst
  | succ n ih =>
    obtain ⟨fuel, rfl⟩ := Nat.exists_eq_succ_of_ne_zero (Nat.ne_of_gt (Nat.zero_lt_of_lt hfuel))
    obtain ⟨c, l, rfl⟩ := List.exists_cons_of_length_pos (Nat.zero_lt_of_lt hroom)
    obtain ⟨hc, hsrc, hl⟩ := h
    have hpos : 0 < room count := by omega
    have hmsb := not_msb_of_room hpos
    obtain ⟨hnext, -⟩ := room_pred hpos
    have hlt := room_lt count
    rw [List.length_cons] at hroom hunread hfuel
    obtain ⟨ecx, m', hloop, hstored⟩ := ih (hl.stored (c := c) hunread) hunread.next
      (Nat.lt_of_succ_lt_succ hfuel) (by omega : room (count - 1) = n)
      (Nat.le_of_succ_le_succ hroom)
    refine ⟨ecx, m', ?_, ?_⟩
    · simp only [ncpyLoop, if_neg hmsb, hsrc, ne_eq, hc, not_false_eq_true, if_true, hloop]
      rw [add_one_add]
    · rw [List.take_succ_cons]
      refine hstored.cons ?_
      rw [List.length_take]
      omega

end Loops

/-! ### The strings that are there then -/

section Strings

variable {m : Bytes} {dest src : Word} {d l : List Byte} {fuel : ℕ}

theorem endOf_eq (hd : Str m dest d) (hlen : d.length < 0xffffffff) :
    endOf dest m = dest + BitVec.ofNat 32 d.length := by
  rw [endOf, repneScasb_zero hd hlen, ← add_ofNat_add]
  exact BitVec.add_sub_cancel ..

/-- **`strncpy` stores as many bytes as the count says.** They are the first characters of the
string, and zeros behind them. -/
theorem strncpy_stored (h : Str m src l) (count : Word)
    (hunread : Unread dest src (l.length + 1)) (hfuel : l.length < fuel) :
    ∃ m', strncpy fuel dest src count m = some (dest, m') ∧
      Stored m m' dest (l.take (room count) ++ List.replicate (room count - l.length) 0) := by
  have hlt := room_lt count
  rcases lt_or_ge l.length (room count) with hroom | hroom
  · obtain ⟨ecx, m', hloop, hecx, hstored⟩ := ncpyLoop_whole h hroom hunread hfuel
    refine ⟨_, by rw [strncpy, hloop, Option.map_some], ?_⟩
    rw [if_neg Bool.false_ne_true, hecx, List.take_of_length_le hroom.le]
    have hzeros : room count - l.length = 1 + (room count - (l.length + 1)) := by omega
    rw [hzeros, List.replicate_add, List.replicate_one, ← List.append_assoc]
    refine hstored.append ?_ ?_
    · rw [List.length_append, List.length_singleton]
      exact repStosb_stored (by omega)
    · rw [List.length_append, List.length_singleton, List.length_replicate]
      omega
  · obtain ⟨ecx, m', hloop, hstored⟩ := ncpyLoop_cut h hroom hunread hfuel
    refine ⟨m', by rw [strncpy, hloop, Option.map_some, if_pos rfl], ?_⟩
    rwa [Nat.sub_eq_zero_of_le hroom, List.replicate_zero, List.append_nil]

theorem strncpy_stored_one : ∃ m', strncpy 2 10 20 3 (Function.update 0 20 65) = some (10, m') ∧
    Stored (Function.update 0 20 65) m' 10 ([65].take (room 3) ++ List.replicate (room 3 - 1) 0) :=
  have hstr : Str (Function.update 0 20 65) 20 [65] := ⟨by decide, rfl, rfl⟩
  strncpy_stored hstr 3 (unread_of_le (by decide) (by decide)) (by decide)

/-- **`strncat` appends at most as many characters as the count says.** It stores a second 0 if the
string has fewer. -/
theorem strncat_appended (hd : Str m dest d) (h : Str m src l) (count : Word)
    (hlen : d.length + (l.length + 2) < 2 ^ 32)
    (hunread : Unread (dest + BitVec.ofNat 32 d.length) src (l.length + 1))
    (hfuel : l.length < fuel) :
    ∃ m', strncat fuel dest src count m = some (dest, m') ∧
      Str m' dest (d ++ l.take (room count)) ∧
      Stored m m' (dest + BitVec.ofNat 32 d.length)
        (l.take (room count) ++ 0 :: if l.length < room count then [0] else []) := by
  have hne : ∀ c ∈ l.take (room count), c ≠ 0 := fun c hc => h.ne_zero c (List.mem_of_mem_take hc)
  have hle := List.length_take_le' (room count) l
  rcases lt_or_ge l.length (room count) with hroom | hroom
  · obtain ⟨ecx, m', hloop, -, hstored⟩ := ncpyLoop_whole h hroom hunread hfuel
    rw [if_pos hroom]
    have hboth := hstored.append (stored_update m' _ 0) (by
      rw [List.length_append, List.length_singleton]
      omega)
    rw [List.length_append, List.length_singleton, List.append_assoc, List.singleton_append,
      ← List.take_of_length_le hroom.le] at hboth
    refine ⟨_, ?_, hboth.appended hd hne ?_, hboth⟩
    · rw [strncat, endOf_eq hd (by omega), hloop, Option.map_some, List.take_of_length_le hroom.le]
    · rw [List.length_singleton]
      omega
  · obtain ⟨ecx, m', hloop, hstored⟩ := ncpyLoop_cut h hroom hunread hfuel
    rw [if_neg (not_lt.mpr hroom)]
    have hboth := hstored.append (stored_update m' _ 0) (by
      rw [List.length_singleton]
      omega)
    rw [List.length_take_of_le hroom] at hboth
    refine ⟨_, ?_, hboth.appended hd hne ?_, hboth⟩
    · rw [strncat, endOf_eq hd (by omega), hloop, Option.map_some]
    · rw [List.length_nil]
      omega

theorem strncat_appended_one : ∃ m', strncat 2 10 20 3 (Function.update 0 20 65) = some (10, m') ∧
    Str m' 10 ([] ++ [65].take (room 3)) ∧ Stored (Function.update 0 20 65) m'
      (10 + BitVec.ofNat 32 0) ([65].take (room 3) ++ 0 :: if 1 < room 3 then [0] else []) :=
  have hempty : Str (Function.update 0 20 65) 10 [] := rfl
  have hstr : Str (Function.update 0 20 65) 20 [65] := ⟨by decide, rfl, rfl⟩
  strncat_appended hempty hstr 3 (by decide) (unread_of_le (by decide) (by decide)) (by decide)

end Strings

end Linux001.Strings
