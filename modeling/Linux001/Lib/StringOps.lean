import Linux001.Lib.I386
import Mathlib.Data.List.Basic

/-!
# The string instructions of the 386

`scasb`, `cmpsb`, `movsb` and `stosb` with their repeat prefixes, and strings of bytes that end with
a zero. The count of a repeated instruction is a number, and the other registers are words, so that
strings may run around the end of the address space.

## Main definitions

* `repneScasb`, `repeCmpsb`, `repMovsb`, `repStosb`: repeated instructions.
* `Str`: a string in memory.
* `Copied`, `Stored`: what has become of an area.

## Main results

* `repneScasb_zero`: the search for the end of a string.
* `repneScasb_mem`: the search for a character in a string.
* `repeCmpsb_str`: the comparison of a string with the beginning of another one.
* `copied_up`, `copied_down`: what is copied, when the two areas may overlap.
* `repMovsb_repeats`: what happens to an area that is copied into itself.
* `Stored.appended`: bytes that are stored behind a string append to it.
-/

namespace Linux001.I386

abbrev Byte := BitVec 8

/-! ### Addresses -/

section Addresses

variable {a : Word} {i j : ℕ}

theorem add_one_add (a : Word) (i : ℕ) :
    a + 1 + BitVec.ofNat 32 i = a + BitVec.ofNat 32 (i + 1) := by
  rw [Nat.add_comm i, BitVec.ofNat_add, BitVec.add_assoc]
  rfl

theorem add_ofNat_add (a : Word) (i j : ℕ) :
    a + BitVec.ofNat 32 i + BitVec.ofNat 32 j = a + BitVec.ofNat 32 (i + j) := by
  rw [BitVec.add_assoc, ← BitVec.ofNat_add]

theorem toNat_add_ofNat (h : a.toNat + i < 2 ^ 32) :
    (a + BitVec.ofNat 32 i).toNat = a.toNat + i := by
  rw [BitVec.toNat_add, BitVec.toNat_ofNat, Nat.mod_eq_of_lt (by omega : i < 2 ^ 32),
    Nat.mod_eq_of_lt h]

theorem add_ofNat_ne (a : Word) (hi : i < 2 ^ 32) (hj : j < 2 ^ 32) (hij : i ≠ j) :
    a + BitVec.ofNat 32 i ≠ a + BitVec.ofNat 32 j := fun heq => by
  have hnat := congrArg BitVec.toNat ((BitVec.add_right_inj a).mp heq)
  rw [BitVec.toNat_ofNat, BitVec.toNat_ofNat, Nat.mod_eq_of_lt hi, Nat.mod_eq_of_lt hj] at hnat
  exact hij hnat

end Addresses

/-! ### Instructions -/

/-- `repne scasb` with `n` in `%ecx`: the count, `%edi` and the zero flag. -/
def repneScasb (m : Bytes) (al : Byte) : ℕ → Word → Bool → ℕ × Word × Bool
  | 0, edi, zf => (0, edi, zf)
  | n + 1, edi, _ => if al = m edi then (n, edi + 1, true) else repneScasb m al n (edi + 1) false

/-- `repe cmpsb` with `n` in `%ecx`: `%esi`, `%edi` and the zero flag. -/
def repeCmpsb (m : Bytes) : ℕ → Word → Word → Bool → Word × Word × Bool
  | 0, esi, edi, zf => (esi, edi, zf)
  | n + 1, esi, edi, _ =>
    if m esi = m edi then repeCmpsb m n (esi + 1) (edi + 1) true else (esi + 1, edi + 1, false)

/-- `rep movsb` with `n` in `%ecx`, upwards after `cld` and downwards after `std`. -/
def repMovsb (up : Bool) : ℕ → Word → Word → Bytes → Bytes
  | 0, _, _, m => m
  | n + 1, esi, edi, m =>
    let m := Function.update m edi (m esi)
    if up then repMovsb up n (esi + 1) (edi + 1) m else repMovsb up n (esi - 1) (edi - 1) m

/-- `rep stosb` upwards with `n` in `%ecx`. -/
def repStosb (al : Byte) : ℕ → Word → Bytes → Bytes
  | 0, _, m => m
  | n + 1, edi, m => repStosb al n (edi + 1) (Function.update m edi al)

/-! ### Strings -/

/-- A string of bytes other than 0, with a 0 behind it. -/
def Str (m : Bytes) : Word → List Byte → Prop
  | a, [] => m a = 0
  | a, c :: l => c ≠ 0 ∧ m a = c ∧ Str m (a + 1) l

section Str

variable {m m' : Bytes} {a : Word} {c : Byte} {l l' : List Byte} {n : ℕ} {zf : Bool}

theorem Str.ne_zero (h : Str m a l) : ∀ c ∈ l, c ≠ 0 := by
  induction l generalizing a with
  | nil => exact fun _ hc => nomatch hc
  | cons c l ih =>
    obtain ⟨hc, -, hl⟩ := h
    intro d hd
    rcases List.mem_cons.mp hd with rfl | hd
    · exact hc
    · exact ih hl d hd

/-- A string only depends on its bytes and the 0 behind them. -/
theorem Str.congr (h : Str m a l)
    (hm : ∀ i ≤ l.length, m' (a + BitVec.ofNat 32 i) = m (a + BitVec.ofNat 32 i)) :
    Str m' a l := by
  induction l generalizing a with
  | nil =>
    have h0 := hm 0 le_rfl
    rw [BitVec.add_zero] at h0
    exact h0.trans h
  | cons c l ih =>
    obtain ⟨hc, ha, hl⟩ := h
    have h0 := hm 0 (Nat.zero_le _)
    rw [BitVec.add_zero] at h0
    refine ⟨hc, h0.trans ha, ih hl fun i hi => ?_⟩
    have hnext := hm (i + 1) (by simpa using hi)
    rwa [← add_one_add] at hnext

/-- Bytes other than 0 with a 0 behind them are a string. -/
theorem str_of_bytes (hl : ∀ c ∈ l, c ≠ 0)
    (hm : ∀ i (hi : i < (l ++ 0 :: l').length), m (a + BitVec.ofNat 32 i) = (l ++ 0 :: l')[i]) :
    Str m a l := by
  induction l generalizing a with
  | nil =>
    have h0 := hm 0 (by simp)
    rwa [BitVec.add_zero] at h0
  | cons c l ih =>
    have h0 := hm 0 (by simp)
    rw [BitVec.add_zero] at h0
    refine ⟨hl c List.mem_cons_self, h0, ih (fun d hd => hl d (List.mem_cons_of_mem _ hd)) ?_⟩
    intro i hi
    have hnext := hm (i + 1) (by simpa using hi)
    rwa [← add_one_add] at hnext

/-- A string with another one behind its last character. -/
theorem Str.append (h : Str m a l)
    (hm : ∀ i < l.length, m' (a + BitVec.ofNat 32 i) = m (a + BitVec.ofNat 32 i))
    (hl' : Str m' (a + BitVec.ofNat 32 l.length) l') : Str m' a (l ++ l') := by
  induction l generalizing a with
  | nil => simpa using hl'
  | cons c l ih =>
    obtain ⟨hc, ha, hl⟩ := h
    have h0 := hm 0 (Nat.zero_lt_succ _)
    rw [BitVec.add_zero] at h0
    rw [List.length_cons, ← add_one_add] at hl'
    refine ⟨hc, h0.trans ha, ih hl (fun i hi => ?_) hl'⟩
    have hnext := hm (i + 1) (by simpa using hi)
    rwa [← add_one_add] at hnext

/-- `repne scasb` finds the end of a string. -/
theorem repneScasb_zero (h : Str m a l) (hn : l.length < n) : repneScasb m 0 n a zf =
    (n - (l.length + 1), a + BitVec.ofNat 32 (l.length + 1), true) := by
  induction l generalizing a n zf with
  | nil =>
    obtain ⟨n, rfl⟩ := Nat.exists_eq_succ_of_ne_zero (Nat.ne_of_gt hn)
    have ha : 0 = m a := h.symm
    rw [repneScasb, if_pos ha]
    rfl
  | cons c l ih =>
    obtain ⟨n, rfl⟩ := Nat.exists_eq_succ_of_ne_zero (Nat.ne_of_gt (Nat.zero_lt_of_lt hn))
    obtain ⟨hc, ha, hl⟩ := h
    have hne : ¬0 = m a := fun h0 => hc (ha.symm.trans h0.symm)
    rw [List.length_cons] at hn
    rw [repneScasb, if_neg hne, ih hl (by omega), List.length_cons, add_one_add, Nat.succ_sub_succ]

/-- `repe cmpsb` with the length of a string tells whether another one begins with it. When it does
not, the last byte that has been looked at is the end of the other one if and only if that one is
the beginning. -/
theorem repeCmpsb_str {b : Word} (h : Str m a l) (h' : Str m b l') (hzf : l' = [] → zf = true) :
    (repeCmpsb m l'.length a b zf).2.2 = decide (l' <+: l) ∧
      (¬l' <+: l → (m ((repeCmpsb m l'.length a b zf).1 - 1) = 0 ↔ l <+: l')) := by
  induction l' generalizing a b l zf with
  | nil => exact ⟨by simp [repeCmpsb, hzf rfl], fun hnot => absurd (List.nil_prefix) hnot⟩
  | cons d l' ih =>
    obtain ⟨hd, hb, hl'⟩ := h'
    rw [List.length_cons, repeCmpsb, hb]
    cases l with
    | nil =>
      have ha : m a = 0 := h
      have hne : ¬m a = d := fun heq => hd (heq.symm.trans ha)
      rw [if_neg hne, BitVec.add_sub_cancel, ha]
      exact ⟨by simp, fun _ => iff_of_true rfl List.nil_prefix⟩
    | cons c l =>
      obtain ⟨hc, ha, hl⟩ := h
      rw [ha]
      split_ifs with hcd
      · subst hcd
        obtain ⟨hfound, hend⟩ := ih hl hl' fun _ => rfl
        simp only [List.cons_prefix_cons, true_and]
        exact ⟨hfound, hend⟩
      · rw [BitVec.add_sub_cancel, ha]
        refine ⟨?_, fun _ => iff_of_false hc ?_⟩
        · simp [List.cons_prefix_cons, Ne.symm hcd]
        · simp [List.cons_prefix_cons, hcd]

end Str

/-! ### Copies -/

/-- `n` bytes at `src` have been copied to `dst`, and nothing else has changed. -/
structure Copied (m m' : Bytes) (dst src : Word) (n : ℕ) : Prop where
  copied : ∀ i < n, m' (dst + BitVec.ofNat 32 i) = m (src + BitVec.ofNat 32 i)
  others : ∀ x, (∀ i < n, x ≠ dst + BitVec.ofNat 32 i) → m' x = m x

section Copies

variable {m : Bytes} {dst src : Word} {n : ℕ}

theorem repMovsb_others {x : Word} (hx : ∀ i < n, x ≠ dst + BitVec.ofNat 32 i) :
    repMovsb true n src dst m x = m x := by
  induction n generalizing m dst src with
  | zero => rfl
  | succ n ih =>
    have hself := hx 0 (Nat.succ_pos n)
    rw [BitVec.add_zero] at hself
    rw [repMovsb, if_pos rfl, ih fun i hi => ?_, Function.update_of_ne hself]
    rw [add_one_add]
    exact hx (i + 1) (by omega)

/-- The first byte is stored once. -/
theorem repMovsb_first (hn : n < 2 ^ 32) : repMovsb true (n + 1) src dst m dst = m src := by
  rw [repMovsb, if_pos rfl, repMovsb_others fun i hi => ?_, Function.update_self]
  have hne := add_ofNat_ne dst (i := 0) (j := i + 1) (by omega) (by omega) (by omega)
  rwa [BitVec.add_zero, ← add_one_add] at hne

/-- Copying upwards is right if no byte is stored over one that is still to be read. -/
theorem copied_up (hn : n ≤ 2 ^ 32) (hlater : ∀ i j, i < j → j < n →
      dst + BitVec.ofNat 32 i ≠ src + BitVec.ofNat 32 j) :
    Copied m (repMovsb true n src dst m) dst src n := by
  refine ⟨?_, fun x hx => repMovsb_others hx⟩
  induction n generalizing m dst src with
  | zero => exact fun _ hi => absurd hi (Nat.not_lt_zero _)
  | succ n ih =>
    intro i hi
    rcases i with _ | i
    · rw [BitVec.add_zero, BitVec.add_zero]
      exact repMovsb_first (by omega)
    · have hafter (i j : ℕ) (hij : i < j) (hj : j < n) :
          dst + 1 + BitVec.ofNat 32 i ≠ src + 1 + BitVec.ofNat 32 j := by
        rw [add_one_add, add_one_add]
        exact hlater (i + 1) (j + 1) (by omega) (by omega)
      have hcopied := ih (m := Function.update m dst (m src)) (by omega) hafter i (by omega)
      have hne := hlater 0 (i + 1) (by omega) hi
      rw [BitVec.add_zero] at hne
      rw [add_one_add, add_one_add] at hcopied
      rw [repMovsb, if_pos rfl, hcopied, Function.update_of_ne hne.symm]

/-- Copying upwards into the area itself repeats its first `gap` bytes. -/
theorem repMovsb_repeats {gap i : ℕ} (hgap : 0 < gap) (hgap' : gap < 2 ^ 32) (hn : n ≤ 2 ^ 32)
    (hdst : dst = src + BitVec.ofNat 32 gap) (hi : i < n) :
    repMovsb true n src dst m (dst + BitVec.ofNat 32 i) = m (src + BitVec.ofNat 32 (i % gap)) := by
  induction n generalizing dst src m i with
  | zero => exact absurd hi (Nat.not_lt_zero _)
  | succ n ih =>
    have hnext : dst + 1 = src + 1 + BitVec.ofNat 32 gap := by
      rw [hdst, BitVec.add_assoc, BitVec.add_comm (BitVec.ofNat 32 gap), ← BitVec.add_assoc]
    rcases i with _ | i
    · rw [Nat.zero_mod, BitVec.add_zero, BitVec.add_zero]
      exact repMovsb_first (by omega)
    · have hlt := Nat.mod_lt i hgap
      rw [repMovsb, if_pos rfl, ← add_one_add, ih (by omega) hnext (by omega), add_one_add,
        ← Nat.mod_add_mod i gap 1]
      by_cases hlast : i % gap + 1 = gap
      · -- The byte that has just been stored is read again.
        rw [hlast, Nat.mod_self, ← hdst, Function.update_self, BitVec.add_zero]
      · rw [Nat.mod_eq_of_lt (by omega : i % gap + 1 < gap), Function.update_of_ne]
        rw [hdst]
        exact add_ofNat_ne src (by omega) hgap' hlast

/-- Copying downwards, from the last byte on. -/
theorem copied_down (hn : n ≤ 2 ^ 32) (hlater : ∀ i j, j < i → i < n →
      dst + BitVec.ofNat 32 i ≠ src + BitVec.ofNat 32 j) :
    Copied m (repMovsb false n (src + BitVec.ofNat 32 n - 1) (dst + BitVec.ofNat 32 n - 1) m)
      dst src n := by
  induction n generalizing m with
  | zero => exact ⟨fun _ hi => absurd hi (Nat.not_lt_zero _), fun _ _ => rfl⟩
  | succ n ih =>
    have hlast (a : Word) : a + BitVec.ofNat 32 (n + 1) - 1 = a + BitVec.ofNat 32 n := by
      rw [BitVec.ofNat_add, ← BitVec.add_assoc]
      exact BitVec.add_sub_cancel ..
    rw [hlast, hlast, repMovsb, if_neg Bool.false_ne_true]
    generalize hm : Function.update m (dst + BitVec.ofNat 32 n) (m (src + BitVec.ofNat 32 n)) = m₁
    have hrest := ih (m := m₁) (by omega) fun i j hij hi => hlater i j hij (by omega)
    refine ⟨fun i hi => ?_, fun x hx => ?_⟩
    · rcases Nat.lt_succ_iff_lt_or_eq.mp hi with hi | rfl
      · rw [hrest.copied i hi, ← hm, Function.update_of_ne]
        exact (hlater n i hi (by omega)).symm
      · rw [hrest.others, ← hm, Function.update_self]
        exact fun j hj => add_ofNat_ne dst (by omega) (by omega) (by omega)
    · rw [hrest.others x fun i hi => hx i (by omega), ← hm, Function.update_of_ne (hx n (by omega))]

end Copies

/-! ### Stores -/

/-- The bytes `bs` have been stored at `dst`, and nothing else has changed. -/
structure Stored (m m' : Bytes) (dst : Word) (bs : List Byte) : Prop where
  stored : ∀ i (hi : i < bs.length), m' (dst + BitVec.ofNat 32 i) = bs[i]
  others : ∀ x, (∀ i < bs.length, x ≠ dst + BitVec.ofNat 32 i) → m' x = m x

section Stores

variable {m m₁ m' : Bytes} {dst : Word} {b al : Byte} {as bs l : List Byte} {n : ℕ}

theorem Stored.nil (m : Bytes) (dst : Word) : Stored m m dst [] :=
  ⟨fun _ hi => absurd hi (Nat.not_lt_zero _), fun _ _ => rfl⟩

theorem Stored.cons (h : Stored (Function.update m dst b) m' (dst + 1) bs)
    (hlen : bs.length < 2 ^ 32) : Stored m m' dst (b :: bs) := by
  constructor
  · intro i hi
    rcases i with _ | i
    · rw [BitVec.add_zero, h.others dst fun i hi => ?_, Function.update_self]
      · rfl
      have hne := add_ofNat_ne dst (i := 0) (j := i + 1) (by omega) (by omega) (by omega)
      rwa [BitVec.add_zero, ← add_one_add] at hne
    · rw [← add_one_add]
      exact h.stored i (Nat.lt_of_succ_lt_succ hi)
  · intro x hx
    have hself := hx 0 (Nat.zero_lt_succ _)
    rw [BitVec.add_zero] at hself
    rw [h.others x fun i hi => ?_, Function.update_of_ne hself]
    rw [add_one_add]
    exact hx (i + 1) (Nat.succ_lt_succ hi)

/-- One byte. -/
theorem stored_update (m : Bytes) (dst : Word) (b : Byte) :
    Stored m (Function.update m dst b) dst [b] :=
  (Stored.nil _ _).cons (by decide)

theorem Stored.append (h : Stored m m₁ dst as)
    (h' : Stored m₁ m' (dst + BitVec.ofNat 32 as.length) bs)
    (hlen : as.length + bs.length ≤ 2 ^ 32) : Stored m m' dst (as ++ bs) := by
  constructor
  · intro i hi
    rw [List.length_append] at hi
    rcases lt_or_ge i as.length with hlt | hge
    · rw [List.getElem_append_left hlt, ← h.stored i hlt, h'.others]
      intro j hj
      rw [add_ofNat_add]
      exact add_ofNat_ne dst (by omega) (by omega) (by omega)
    · obtain ⟨k, rfl⟩ := Nat.exists_eq_add_of_le hge
      rw [List.getElem_append_right hge, ← add_ofNat_add, h'.stored k (by omega)]
      simp only [Nat.add_sub_cancel_left]
  · intro x hx
    rw [List.length_append] at hx
    rw [h'.others x fun i hi => ?_, h.others x fun i hi => hx i (by omega)]
    rw [add_ofNat_add]
    exact hx _ (by omega)

theorem Stored.str (h : Stored m m' dst (l ++ 0 :: bs)) (hl : ∀ c ∈ l, c ≠ 0) : Str m' dst l :=
  str_of_bytes hl h.stored

/-- What is stored behind the last character of a string appends to it. -/
theorem Stored.appended {d : List Byte}
    (h : Stored m m' (dst + BitVec.ofNat 32 d.length) (l ++ 0 :: bs)) (hd : Str m dst d)
    (hl : ∀ c ∈ l, c ≠ 0) (hlen : d.length + (l.length + 1 + bs.length) ≤ 2 ^ 32) :
    Str m' dst (d ++ l) := by
  refine hd.append (fun i hi => h.others _ fun j hj => ?_) (h.str hl)
  rw [List.length_append, List.length_cons] at hj
  rw [add_ofNat_add]
  exact add_ofNat_ne dst (by omega) (by omega) (by omega)

theorem repStosb_stored (hn : n ≤ 2 ^ 32) :
    Stored m (repStosb al n dst m) dst (List.replicate n al) := by
  induction n generalizing m dst with
  | zero => exact .nil m dst
  | succ n ih =>
    rw [List.replicate_succ, repStosb]
    exact (ih (by omega)).cons (by rw [List.length_replicate]; omega)

/-- No byte of `n` at `src` is stored over from `dst` on before it has been read, when the bytes are
stored and read in turn. -/
def Unread (dst src : Word) (n : ℕ) : Prop :=
  ∀ i j, i < j → j < n → dst + BitVec.ofNat 32 i ≠ src + BitVec.ofNat 32 j

theorem Unread.next {src : Word} (h : Unread dst src (n + 1)) : Unread (dst + 1) (src + 1) n := by
  intro i j hij hj
  rw [add_one_add, add_one_add]
  exact h (i + 1) (j + 1) (by omega) (by omega)

/-- Storing in front of what is read. -/
theorem unread_of_le {src : Word} (hle : dst.toNat ≤ src.toNat) (hlt : src.toNat + n ≤ 2 ^ 32) :
    Unread dst src n := fun i j hij hj heq => by
  have hnat := congrArg BitVec.toNat heq
  rw [toNat_add_ofNat (by omega), toNat_add_ofNat (by omega)] at hnat
  omega

/-- The rest of a string is still there when its first character has been stored. -/
theorem Str.stored {src : Word} {c : Byte} (h : Str m (src + 1) l)
    (hunread : Unread dst src (l.length + 2)) : Str (Function.update m dst c) (src + 1) l := by
  refine h.congr fun i hi => Function.update_of_ne ?_ _ _
  have hne := hunread 0 (i + 1) (by omega) (by omega)
  rw [BitVec.add_zero, ← add_one_add] at hne
  exact hne.symm

end Stores

end Linux001.I386
