import Linux001.Exec.NewSpace

/-!
# The arguments of a new program

`create_tables` finds the strings again that `copy_strings` has left at the end of the new segment:
it scans them from the first byte on, and stores the address of each in the tables of `argv` and
`envp`, which it puts below them. What the new program finds at its stack pointer are the arguments
of the caller.

## Main definitions

* `BytesAt`, `LongAt`: what is stored at an address.
* `Strings`: a table of strings.
* `Passed`: the stack of a program with the given arguments.

## Main results

* `Supplied.skipString`, `Supplied.fillTable`: the loops of `create_tables`.
* `passed`: the new program finds the arguments and the environment of the caller.
-/

namespace Linux001.Exec

open Mm (Memory Word Pages maxArgPages byteOf)

/-! ### What is stored at an address -/

/-- The bytes from `a` on are those of the list. -/
def BytesAt (F : ℕ → Byte) (a : ℕ) (l : List Byte) : Prop := ∀ k < l.length, F (a + k) = l.getD k 0

/-- The number at `a` is `w`. -/
def LongAt (F : ℕ → Byte) (a : ℕ) (w : Word) : Prop := ∀ k < 4, F (a + k) = byteOf w k

section At

variable {F F' : ℕ → Byte} {a : ℕ} {l r : List Byte} {w : Word}

theorem bytesAt_append : BytesAt F a (l ++ r) ↔ BytesAt F a l ∧ BytesAt F (a + l.length) r := by
  refine ⟨fun h => ⟨fun k hk => ?_, fun k hk => ?_⟩, fun ⟨hl, hr⟩ k hk => ?_⟩
  · rw [h k (by rw [List.length_append]; omega), List.getD_append _ _ _ _ hk]
  · rw [Nat.add_assoc, h _ (by rw [List.length_append]; omega),
      List.getD_append_right _ _ _ _ (by omega), Nat.add_sub_cancel_left]
  · by_cases hkl : k < l.length
    · rw [hl k hkl, List.getD_append _ _ _ _ hkl]
    · rw [List.length_append] at hk
      rw [List.getD_append_right _ _ _ _ (by omega), ← hr _ (by omega)]
      congr 1
      omega

theorem bytesAt_cons {b : Byte} : BytesAt F a (b :: l) ↔ F a = b ∧ BytesAt F (a + 1) l := by
  rw [show b :: l = [b] ++ l from rfl, bytesAt_append]
  refine and_congr_left fun _ => ⟨fun h => h 0 (by simp), fun h k hk => ?_⟩
  obtain rfl : k = 0 := by simpa using hk
  exact h

theorem BytesAt.congr (h : BytesAt F a l) (hF : ∀ k < l.length, F' (a + k) = F (a + k)) :
    BytesAt F' a l := fun k hk => (hF k hk).trans (h k hk)

theorem LongAt.congr (h : LongAt F a w) (hF : ∀ k < 4, F' (a + k) = F (a + k)) : LongAt F' a w :=
  fun k hk => (hF k hk).trans (h k hk)

theorem longAt_overlay : LongAt (overlay F a 4 (byteOf w)) a w := fun k hk => by
  rw [overlay_of_mem (by omega) (by omega), Nat.add_sub_cancel_left]

end At

/-- A table of the addresses of strings, from `t` on, with a zero at its end. -/
structure Strings (F : ℕ → Byte) (t : ℕ) (addr : ℕ → ℕ) (ss : List Str) : Prop where
  entry : ∀ i (hi : i < ss.length), LongAt F (t + 4 * i) (BitVec.ofNat 32 (addr i)) ∧
    BytesAt F (addr i) ss[i].full
  last : LongAt F (t + 4 * ss.length) 0

/-- The addresses of strings that are stored one after the other. -/
def strAddr (p : ℕ) (ss : List Str) (i : ℕ) : ℕ := p + total (ss.take i)

/-- An interval, given by its first address and its length, is apart from another one. -/
def Apart (x y : ℕ × ℕ) : Prop := x.1 + x.2 ≤ y.1 ∨ y.1 + y.2 ≤ x.1

/-- The intervals of the three numbers at the stack pointer, of the two tables and of the
strings. -/
def pieces (sp av ev : ℕ) (addr : ℕ → ℕ) (argv envp : List Str) : List (ℕ × ℕ) :=
  (sp, 12) :: (av, 4 * (argv.length + 1)) :: (ev, 4 * (envp.length + 1)) ::
    (argv ++ envp).mapIdx fun i s => (addr i, s.len)

/-- What a program finds at its stack pointer: the number of its arguments, and the tables at `av`
and `ev` of its arguments and of its environment. All this is in the last megabyte of the segment,
and nothing of it overlaps. -/
structure Passed (F : ℕ → Byte) (sp : Word) (argv envp : List Str) (av ev : ℕ) (addr : ℕ → ℕ) :
    Prop where
  argcAt : LongAt F sp.toNat (BitVec.ofNat 32 argv.length)
  argvAt : LongAt F (sp.toNat + 4) (BitVec.ofNat 32 av)
  envpAt : LongAt F (sp.toNat + 8) (BitVec.ofNat 32 ev)
  args : Strings F av addr argv
  envs : Strings F ev (fun j => addr (argv.length + j)) envp
  apart : (pieces sp.toNat av ev addr argv envp).Pairwise Apart
  inside : ∀ x ∈ pieces sp.toNat av ev addr argv envp, 0x3f00000 ≤ x.1 ∧ x.1 + x.2 ≤ 0x4000000

section Addresses

variable {F : ℕ → Byte} {p : ℕ} {ss l r : List Str}

theorem length_full_flatMap (ss : List Str) : (ss.flatMap Str.full).length = total ss := by
  rw [List.length_flatMap, total]
  simp only [Str.length_full]

theorem strAddr_append_left {i : ℕ} (hi : i ≤ l.length) : strAddr p (l ++ r) i = strAddr p l i := by
  rw [strAddr, strAddr, List.take_append_of_le_length hi]

theorem strAddr_append_right (i : ℕ) :
    strAddr p (l ++ r) (l.length + i) = strAddr (p + total l) r i := by
  rw [strAddr, strAddr, List.take_length_add_append, total_append, Nat.add_assoc]

/-- Strings that are stored one after the other. -/
theorem bytesAt_strAddr : ∀ {ss : List Str} {p : ℕ}, BytesAt F p (ss.flatMap Str.full) →
    ∀ i (hi : i < ss.length), BytesAt F (strAddr p ss i) ss[i].full
  | s :: ss, p, h, i, hi => by
    rw [List.flatMap_cons, bytesAt_append, Str.length_full] at h
    cases i with
    | zero => exact h.1
    | succ i =>
      rw [strAddr, List.take_succ_cons, total_cons, ← Nat.add_assoc, List.getElem_cons_succ]
      exact bytesAt_strAddr h.2 i (by simpa using hi)

theorem strAddr_add_len_le : ∀ {ss : List Str} {p : ℕ} (i : ℕ) (hi : i < ss.length),
    strAddr p ss i + ss[i].len ≤ p + total ss
  | s :: ss, p, 0, hi => by
    rw [strAddr, List.take_zero, total_nil, total_cons, List.getElem_cons_zero]
    omega
  | s :: ss, p, i + 1, hi => by
    have := @strAddr_add_len_le ss (p + s.len) i (by simpa using hi)
    rw [strAddr] at this ⊢
    rw [List.take_succ_cons, total_cons, total_cons, List.getElem_cons_succ]
    omega

theorem mapIdx_strAddr (s : Str) (ss : List Str) (p : ℕ) :
    ((s :: ss).mapIdx fun i s' => (strAddr p (s :: ss) i, s'.len)) =
      (p, s.len) :: ss.mapIdx fun i s' => (strAddr (p + s.len) ss i, s'.len) := by
  rw [List.mapIdx_cons]
  simp only [strAddr, List.take_zero, total_nil, List.take_succ_cons, total_cons, Nat.add_zero,
    Nat.add_assoc]

theorem strAddr_inside : ∀ {ss : List Str} {p : ℕ},
    ∀ x ∈ ss.mapIdx fun i s => (strAddr p ss i, s.len), p ≤ x.1 ∧ x.1 + x.2 ≤ p + total ss
  | [], p, x, hx => by simp at hx
  | s :: ss, p, x, hx => by
    rw [mapIdx_strAddr, List.mem_cons] at hx
    rw [total_cons]
    rcases hx with rfl | hx
    · exact ⟨le_rfl, by dsimp only; omega⟩
    · obtain ⟨h₁, h₂⟩ := strAddr_inside x hx
      exact ⟨by omega, by omega⟩

theorem strAddr_apart : ∀ (ss : List Str) (p : ℕ),
    (ss.mapIdx fun i s => (strAddr p ss i, s.len)).Pairwise Apart
  | [], _ => by simp
  | s :: ss, p => by
    rw [mapIdx_strAddr, List.pairwise_cons]
    exact ⟨fun x hx => .inl (strAddr_inside x hx).1, strAddr_apart ss (p + s.len)⟩

end Addresses

/-! ### `create_tables` -/

section Loops

variable {n : ℕ} {R : Finset ℕ} {F : ℕ → Byte} {s : State}

theorem Supplied.putFsLong (h : Supplied n R F s) {off : ℕ} (hoff : off + 4 ≤ 0x4000000)
    (hR : ∀ o, off ≤ o → o < 0x4000000 → o / 4096 ∈ R) (w : Word) :
    Succeeds (putFsLong w (BitVec.ofNat 32 off)) s fun _ s' =>
      Supplied n R (overlay F off 4 (byteOf w)) s' :=
  h.putBytes hoff fun o ho ho' => hR o ho (by omega)

/-- The scan of a string. -/
theorem Supplied.skipString : ∀ (bs : List Byte) {fuel off : ℕ} {s : State}, Supplied n R F s →
    0 ∉ bs → bs.length < fuel → BytesAt F off (bs ++ [0]) → off + bs.length + 1 ≤ 0x4000000 →
    (∀ o, off ≤ o → o < 0x4000000 → o / 4096 ∈ R) →
    Succeeds (skipString fuel (BitVec.ofNat 32 off)) s fun p s' =>
      p = BitVec.ofNat 32 (off + bs.length + 1) ∧ Supplied n R F s'
  | bs, 0, _, _, _, _, hfuel, _, _, _ => absurd hfuel (Nat.not_lt_zero _)
  | [], fuel + 1, off, s, h, _, _, hat, hle, hR => by
    rw [Exec.skipString]
    refine (h.getFsByte (by omega) (hR off le_rfl (by omega))).bind fun b s' ⟨hb, hs'⟩ => ?_
    rw [if_pos (hb.trans (bytesAt_cons.mp hat).1)]
    refine succeeds_pure ⟨?_, hs'⟩
    rw [BitVec.ofNat_add]
    rfl
  | b :: bs, fuel + 1, off, s, h, hnul, hfuel, hat, hle, hR => by
    rw [List.length_cons] at hfuel hle ⊢
    obtain ⟨hb, hrest⟩ := bytesAt_cons.mp hat
    rw [Exec.skipString]
    refine (h.getFsByte (by omega) (hR off le_rfl (by omega))).bind fun c s' ⟨hc, hs'⟩ => ?_
    have hne : c ≠ 0 := fun hc' => hnul (List.mem_cons.mpr (.inl (hc'.symm.trans (hc.trans hb))))
    rw [if_neg hne, show BitVec.ofNat 32 off + 1 = BitVec.ofNat 32 (off + 1) from
      (BitVec.ofNat_add off 1).symm]
    refine (skipString bs hs' (fun hm => hnul (List.mem_cons_of_mem _ hm)) (by omega)
      hrest (by omega)
      fun o ho => hR o (by omega)).mono fun p s'' ⟨hp, hs''⟩ => ⟨?_, hs''⟩
    rw [hp]
    congr 1
    omega

/-- The loop that fills a table: the addresses are those of the strings from `p` on. -/
theorem Supplied.fillTable : ∀ (ss : List Str) {p t : ℕ} {F : ℕ → Byte} {s : State},
    Supplied n R F s → BytesAt F p (ss.flatMap Str.full) → t + 4 * (ss.length + 1) ≤ p →
    p + total ss ≤ 0x4000000 → (∀ o, t ≤ o → o < 0x4000000 → o / 4096 ∈ R) →
    Succeeds (fillTable ss.length (BitVec.ofNat 32 p) (BitVec.ofNat 32 t)) s fun q s' =>
      q = BitVec.ofNat 32 (p + total ss) ∧ ∃ F', Supplied n R F' s' ∧
        (∀ i < ss.length, LongAt F' (t + 4 * i) (BitVec.ofNat 32 (strAddr p ss i))) ∧
        LongAt F' (t + 4 * ss.length) 0 ∧
        ∀ o, o < t ∨ t + 4 * (ss.length + 1) ≤ o → F' o = F o
  | [], p, t, F, s, h, _, htp, hle, hR => by
    rw [List.length_nil] at htp ⊢
    rw [total_nil] at hle
    rw [Exec.fillTable]
    refine (h.putFsLong (by omega) hR 0).bind fun _ s' hs' =>
      succeeds_pure ⟨rfl, _, hs', ?_, ?_, ?_⟩
    · exact fun i hi => absurd hi (Nat.not_lt_zero i)
    · exact longAt_overlay
    · exact fun o ho => overlay_of_notMem (by omega)
  | str :: ss, p, t, F, s, h, hat, htp, hle, hR => by
    rw [List.length_cons] at htp ⊢
    rw [total_cons] at hle ⊢
    rw [List.flatMap_cons, bytesAt_append, Str.length_full] at hat
    obtain ⟨hstr, hrest⟩ := hat
    have hlen : str.len = str.bytes.length + 1 := rfl
    rw [Exec.fillTable]
    refine (h.putFsLong (by omega) hR (BitVec.ofNat 32 p)).bind fun _ s₁ h₁ => ?_
    -- The tables are below the strings.
    have hkeep : ∀ o, p ≤ o → overlay F t 4 (byteOf (BitVec.ofNat 32 p)) o = F o := fun o ho =>
      overlay_of_notMem (by omega)
    refine (Supplied.skipString str.bytes h₁ str.nul_free (Nat.lt_succ_of_lt str.length_lt)
      (hstr.congr fun k _ => hkeep _ (by omega)) (by omega) fun o ho => hR o (by omega)).bind
      fun q s₂ ⟨hq, h₂⟩ => ?_
    rw [hq, show p + str.bytes.length + 1 = p + str.len by omega,
      show BitVec.ofNat 32 t + 4 = BitVec.ofNat 32 (t + 4) from (BitVec.ofNat_add t 4).symm]
    refine (fillTable ss h₂ (hrest.congr fun k _ => hkeep _ (by omega)) (by omega) (by omega)
      fun o ho => hR o (by omega)).mono fun r s' ⟨hr, F', hF', hentry, hlast, hother⟩ => ?_
    refine ⟨by rw [hr, Nat.add_assoc], F', hF', fun i hi => ?_, ?_, fun o ho => ?_⟩
    · cases i with
      | zero =>
        rw [strAddr, List.take_zero, total_nil, Nat.mul_zero, Nat.add_zero, Nat.add_zero]
        exact longAt_overlay.congr fun k hk => hother _ (by omega)
      | succ i =>
        rw [strAddr, List.take_succ_cons, total_cons, ← Nat.add_assoc,
          show t + 4 * (i + 1) = t + 4 + 4 * i by omega]
        exact hentry i (by omega)
    · rw [show t + 4 * (ss.length + 1) = t + 4 + 4 * ss.length by omega]
      exact hlast
    · rw [hother o (by omega), overlay_of_notMem (by omega)]

end Loops

private theorem ofNat_sub_ofNat {a b : ℕ} (h : b ≤ a) (ha : a < 2 ^ 32) :
    (BitVec.ofNat 32 a - BitVec.ofNat 32 b : Word) = BitVec.ofNat 32 (a - b) := by
  bv_omega

/-- `create_tables` in terms of offsets, for strings at `p` and a stack pointer `sp`. -/
theorem createTables_eq {p sp argc envc : ℕ} (hp : p < 2 ^ 32)
    (hle : 4 * (argc + envc + 5) ≤ p / 4 * 4)
    (hsp : sp = p / 4 * 4 - 4 * (argc + envc + 5)) :
    createTables (BitVec.ofNat 32 p) argc envc = (do
      putFsLong (BitVec.ofNat 32 (sp + 12 + 4 * (argc + 1))) (BitVec.ofNat 32 (sp + 8))
      putFsLong (BitVec.ofNat 32 (sp + 12)) (BitVec.ofNat 32 (sp + 4))
      putFsLong (BitVec.ofNat 32 argc) (BitVec.ofNat 32 sp)
      let p ← fillTable argc (BitVec.ofNat 32 p) (BitVec.ofNat 32 (sp + 12))
      let _ ← fillTable envc p (BitVec.ofNat 32 (sp + 12 + 4 * (argc + 1)))
      pure (BitVec.ofNat 32 sp)) := by
  have halign : 0xfffffffc &&& BitVec.ofNat 32 p = BitVec.ofNat 32 (p / 4 * 4) := by
    refine BitVec.eq_of_toNat_eq ?_
    rw [toNat_align, BitVec.toNat_ofNat, BitVec.toNat_ofNat, Nat.mod_eq_of_lt hp,
      Nat.mod_eq_of_lt (by omega)]
  have hevp : (BitVec.ofNat 32 (p / 4 * 4) - BitVec.ofNat 32 (4 * (envc + 1)) : Word) =
      BitVec.ofNat 32 (sp + 12 + 4 * (argc + 1)) := by
    rw [ofNat_sub_ofNat (by omega) (by omega)]
    congr 1
    omega
  have havp : (BitVec.ofNat 32 (sp + 12 + 4 * (argc + 1)) - BitVec.ofNat 32 (4 * (argc + 1)) :
      Word) =
      BitVec.ofNat 32 (sp + 12) := by
    rw [ofNat_sub_ofNat (by omega) (by omega)]
    congr 1
    omega
  have hbelow : ∀ k ≤ 12, (BitVec.ofNat 32 (sp + 12) - BitVec.ofNat 32 k : Word) =
      BitVec.ofNat 32 (sp + 12 - k) := fun k hk => ofNat_sub_ofNat (by omega) (by omega)
  have h4 : (BitVec.ofNat 32 (sp + 12) - 4 : Word) = BitVec.ofNat 32 (sp + 8) :=
    hbelow 4 (by norm_num)
  have h8 : (BitVec.ofNat 32 (sp + 12) - 8 : Word) = BitVec.ofNat 32 (sp + 4) :=
    hbelow 8 (by norm_num)
  have h12 : (BitVec.ofNat 32 (sp + 12) - 12 : Word) = BitVec.ofNat 32 sp := hbelow 12 le_rfl
  rw [createTables, halign, hevp, havp, h4, h8, h12]

section Tables

variable {n : ℕ} {R : Finset ℕ} {F : ℕ → Byte} {s : State} {argv envp : List Str}

/-- The tables are put below the strings. -/
theorem Supplied.createTables {p sp : ℕ} (h : Supplied n R F s)
    (hat : BytesAt F p ((argv ++ envp).flatMap Str.full)) (hlo : 0x3fe0000 ≤ p)
    (htop : p + total (argv ++ envp) ≤ 0x4000000) (hlen : argv.length + envp.length ≤ 131068)
    (hsp : sp = p / 4 * 4 - 4 * (argv.length + envp.length + 5))
    (hR : ∀ o, sp ≤ o → o < 0x4000000 → o / 4096 ∈ R) :
    Succeeds (createTables (BitVec.ofNat 32 p) argv.length envp.length) s fun w s' =>
      Segment n (userByte n s'.mem) s' ∧ w = BitVec.ofNat 32 sp ∧
        Passed (userByte n s'.mem) w argv envp (sp + 12) (sp + 12 + 4 * (argv.length + 1))
          (strAddr p (argv ++ envp)) := by
  have hflat := bytesAt_strAddr hat
  rw [List.flatMap_append, bytesAt_append] at hat
  rw [total_append] at htop
  rw [length_full_flatMap] at hat
  obtain ⟨hargs, henvs⟩ := hat
  rw [createTables_eq (by omega) (by omega) hsp]
  set av := sp + 12 with hav
  set ev := av + 4 * (argv.length + 1) with hev
  -- The three numbers, and the two tables above them.
  refine (h.putFsLong (by omega) (fun o ho => hR o (by omega)) _).bind fun _ s₁ h₁ => ?_
  refine (h₁.putFsLong (by omega) (fun o ho => hR o (by omega)) _).bind fun _ s₂ h₂ => ?_
  refine (h₂.putFsLong (by omega) (fun o ho => hR o (by omega)) _).bind fun _ s₃ h₃ => ?_
  set F₁ := overlay F (sp + 8) 4 (byteOf (BitVec.ofNat 32 ev)) with hF₁
  set F₂ := overlay F₁ (sp + 4) 4 (byteOf (BitVec.ofNat 32 av)) with hF₂
  set F₃ := overlay F₂ sp 4 (byteOf (BitVec.ofNat 32 argv.length)) with hF₃
  have hkeep : ∀ o, av ≤ o → F₃ o = F o := fun o ho => by
    rw [hF₃, overlay_of_notMem (by omega), hF₂, overlay_of_notMem (by omega), hF₁,
      overlay_of_notMem (by omega)]
  refine (h₃.fillTable argv (hargs.congr fun k _ => hkeep _ (by omega)) (by omega) (by omega)
    fun o ho => hR o (by omega)).bind fun q s₄ ⟨hq, F₄, h₄, hentry₄, hlast₄, hother₄⟩ => ?_
  rw [hq]
  refine (h₄.fillTable envp (henvs.congr fun k _ => ?_) (by omega) (by omega)
    fun o ho => hR o (by omega)).bind fun q' s₅ ⟨_, F₅, h₅, hentry₅, hlast₅, hother₅⟩ => ?_
  · rw [hother₄ _ (by omega), hkeep _ (by omega)]
  have hnat : (BitVec.ofNat 32 sp).toNat = sp := by
    rw [BitVec.toNat_ofNat, Nat.mod_eq_of_lt (by omega)]
  -- What is there at the end.
  have hG₅ : ∀ o, o < 0x4000000 → userByte n s₅.mem o = F₅ o := h₅.byte
  have hG₄ : ∀ o, o < 0x4000000 → o < ev ∨ ev + 4 * (envp.length + 1) ≤ o →
      userByte n s₅.mem o = F₄ o := fun o ho hout => (hG₅ o ho).trans (hother₅ o hout)
  have hG₃ : ∀ o, o < av → userByte n s₅.mem o = F₃ o := fun o ho =>
    (hG₄ o (by omega) (by omega)).trans (hother₄ o (by omega))
  have hG : ∀ o, p ≤ o → o < 0x4000000 → userByte n s₅.mem o = F o := fun o ho ho' =>
    (hG₄ o ho' (by omega)).trans ((hother₄ o (by omega)).trans (hkeep o (by omega)))
  have hstrings : ∀ i (hi : i < (argv ++ envp).length),
      BytesAt (userByte n s₅.mem) (strAddr p (argv ++ envp) i) (argv ++ envp)[i].full :=
    fun i hi => (hflat i hi).congr fun k hk => by
      have hle := strAddr_add_len_le (p := p) i hi
      have hge : p ≤ strAddr p (argv ++ envp) i := Nat.le_add_right _ _
      rw [Str.length_full] at hk
      rw [total_append] at hle
      exact hG _ (by omega) (by omega)
  have hinside : ∀ x ∈ (argv ++ envp).mapIdx fun i s => (strAddr p (argv ++ envp) i, s.len),
      p ≤ x.1 ∧ x.1 + x.2 ≤ 0x4000000 := fun x hx => by
    obtain ⟨h₁, h₂⟩ := strAddr_inside x hx
    rw [total_append] at h₂
    exact ⟨h₁, by omega⟩
  refine succeeds_pure ⟨⟨h₅.pos, h₅.lt, h₅.base, h₅.size, h₅.space, fun _ _ => rfl⟩, rfl, ?_⟩
  refine ⟨?_, ?_, ?_, ⟨fun i hi => ⟨?_, ?_⟩, ?_⟩, ⟨fun i hi => ⟨?_, ?_⟩, ?_⟩, ?_, ?_⟩
  · rw [hnat]
    exact longAt_overlay.congr fun k hk => hG₃ _ (by omega)
  · have hat : LongAt F₂ (sp + 4) (BitVec.ofNat 32 av) := longAt_overlay
    rw [hnat]
    refine hat.congr fun k hk => (hG₃ _ (by omega)).trans ?_
    exact overlay_of_notMem (by omega)
  · have hat : LongAt F₁ (sp + 8) (BitVec.ofNat 32 ev) := longAt_overlay
    rw [hnat]
    refine hat.congr fun k hk => (hG₃ _ (by omega)).trans ?_
    rw [hF₃, overlay_of_notMem (by omega), hF₂, overlay_of_notMem (by omega)]
  · rw [strAddr_append_left hi.le]
    exact (hentry₄ i hi).congr fun k hk => hG₄ _ (by omega) (by omega)
  · have hi' : i < (argv ++ envp).length := by rw [List.length_append]; omega
    have := hstrings i hi'
    rwa [List.getElem_append_left hi] at this
  · exact hlast₄.congr fun k hk => hG₄ _ (by omega) (by omega)
  · rw [strAddr_append_right]
    exact (hentry₅ i hi).congr fun k hk => hG₅ _ (by omega)
  · have hi' : argv.length + i < (argv ++ envp).length := by rw [List.length_append]; omega
    have := hstrings (argv.length + i) hi'
    rw [List.getElem_append_right (Nat.le_add_right _ _)] at this
    simpa only [Nat.add_sub_cancel_left] using this
  · exact hlast₅.congr fun k hk => hG₅ _ (by omega)
  · rw [hnat, pieces]
    simp only [List.pairwise_cons, List.mem_cons, forall_eq_or_imp, Apart]
    refine ⟨⟨.inl (by omega), .inl (by omega), fun x hx => .inl ?_⟩,
      ⟨.inl (by omega), fun x hx => .inl ?_⟩, fun x hx => .inl ?_, strAddr_apart _ _⟩
    all_goals
      have := (hinside x hx).1
      omega
  · rw [hnat, pieces]
    simp only [List.mem_cons, forall_eq_or_imp]
    refine ⟨⟨by omega, by omega⟩, ⟨by omega, by omega⟩, ⟨by omega, by omega⟩, fun x hx => ?_⟩
    obtain ⟨h₁, h₂⟩ := hinside x hx
    exact ⟨by omega, h₂⟩

end Tables

/-! ### From the caller to the program -/

section Passed

variable {n : ℕ} {held : Finset ℕ} {s : State} {argv envp : List Str} {a : Pages}

/-- Strings that take less than the area fit. -/
theorem argsFit_of_lt {F : ℕ} (htotal : total (argv ++ envp) < 131068) (hF : 32 ≤ F) :
    ArgsFit F argv envp := by
  have hroom : room F = 131068 := by
    rw [room, maxArgPages]
    omega
  rw [total_append] at htotal
  refine ⟨fun l str r heq _ => ?_, .inr (by omega)⟩
  have hsum := congrArg total heq
  simp only [total_append, total_reverse, total_cons] at hsum
  omega

/-- The strings are at the end of the segment. -/
theorem bytesAt_imageOf (ha : Filled s.mem (total (argv ++ envp)) a)
    (harea : ∀ k < total (argv ++ envp), area a (131068 - total (argv ++ envp) + k) =
      ((argv ++ envp).flatMap Str.full).getD k 0) :
    BytesAt (imageOf a) (0x3fffffc - total (argv ++ envp)) ((argv ++ envp).flatMap Str.full) := by
  have hle := ha.le
  intro k hk
  rw [length_full_flatMap] at hk
  have hmax : maxArgPages = 32 := rfl
  rw [imageOf, if_pos ⟨by omega, (ha.page_iff _ (by omega)).mpr ⟨by omega, by omega⟩⟩, ← harea k hk]
  exact congrArg (area a) (by omega)

/-- The stack is set up when there are enough frames. -/
theorem succeeds_newStack (h : Ready n held s) (ha : Filled s.mem (total (argv ++ envp)) a)
    (harea : ∀ k < total (argv ++ envp), area a (131068 - total (argv ++ envp) + k) =
      ((argv ++ envp).flatMap Str.full).getD k 0)
    (hfree : 35 + (argv.length + envp.length) / 1024 ≤ s.mem.freeFrames) (text : Word) :
    Succeeds (giveUp >>= fun _ => newStack text argv.length envp.length
        (BitVec.ofNat 32 (131068 - total (argv ++ envp))) a.page) { s with mem := a.mem }
      fun sp s' => Segment n (userByte n s'.mem) s' ∧
        ∃ av ev addr, Passed (userByte n s'.mem) sp argv envp av ev addr := by
  have hat := bytesAt_imageOf ha harea
  have hcount := length_le_total (argv ++ envp)
  rw [List.length_append] at hcount
  have hleft := ha.freeFrames
  have htotal := ha.le
  refine (h.taken ha.toTaken).giveUp.bind fun _ s₁ h₁ => ?_
  rw [newStack]
  refine (h₁.changeLdt h.pos h.lt ha.toTaken rfl text).bind fun top s₂ ⟨htop, h₂⟩ => ?_
  rw [htop, stackAt htotal]
  dsimp only at h₂
  -- The pages from the tables on are the last ones of the segment.
  set T := total (argv ++ envp) with hT
  set sp := (0x3fffffc - T) / 4 * 4 - 4 * (argv.length + envp.length + 5) with hsp
  have hsub : ((Finset.Ico (sp / 4096) 16384).filter
      fun j => ¬ (16352 ≤ j ∧ a.page (j - 16352) ≠ 0)) ⊆
        Finset.Ico (sp / 4096) (if T = 0 then 16384 else 16352 + (131068 - T) / 4096) :=
          fun j hj => by
    obtain ⟨hj, hno⟩ := Finset.mem_filter.mp hj
    obtain ⟨hlo, hhi⟩ := Finset.mem_Ico.mp hj
    refine Finset.mem_Ico.mpr ⟨hlo, ?_⟩
    split_ifs with hzero
    · exact hhi
    · by_contra hc
      have hmax : maxArgPages = 32 := rfl
      exact hno ⟨by omega, (ha.page_iff _ (by omega)).mpr ⟨hzero, by omega⟩⟩
  have hcard := Finset.card_le_card hsub
  rw [Nat.card_Ico] at hcard
  have hsupplied : Supplied n (Finset.Ico (sp / 4096) 16384) (imageOf a) s₂ := by
    refine ⟨h₂.image ?_, h₂.enough _ (fun j hj => ?_) ?_⟩
    · split_ifs at hleft <;> omega
    · have := Finset.mem_Ico.mp hj
      omega
    · split_ifs at hleft hcard <;> omega
  refine (hsupplied.createTables hat (by omega) (by omega) (by omega) hsp
    fun o ho ho' => Finset.mem_Ico.mpr ⟨by omega, by omega⟩).mono fun w s₃ ⟨h₃, _, hpassed⟩ => ?_
  exact ⟨h₃, _, _, _, hpassed⟩

/-- **Arguments of a new program.** If the strings take less than the area, and there are enough
frames, the new program finds them at its stack pointer. -/
theorem passed (h : Ready n held s) (htotal : total (argv ++ envp) < 131068)
    (hfree : 35 + (argv.length + envp.length) / 1024 ≤ s.mem.freeFrames) (text : Word) :
    ∃ p a, copyArguments argv envp s.mem = .ok (p, a) ∧ p ≠ 0 ∧
      Succeeds (giveUp >>= fun _ => newStack text argv.length envp.length p a.page)
        { s with mem := a.mem } fun sp s' => Segment n (userByte n s'.mem) s' ∧
          ∃ av ev addr, Passed (userByte n s'.mem) sp argv envp av ev addr := by
  have hroom : room s.mem.freeFrames = 131068 := by
    rw [room, maxArgPages]
    omega
  obtain ⟨p, a, hcopy, -, -, hfull⟩ := copyArguments_ok
    (argsFit_of_lt (F := s.mem.freeFrames) htotal (by omega))
  obtain ⟨rfl, ha, harea⟩ := hfull (by omega)
  refine ⟨_, a, hcopy, fun hc => ?_, succeeds_newStack h ha harea hfree text⟩
  have hzero := congrArg BitVec.toNat hc
  rw [BitVec.toNat_ofNat, Nat.mod_eq_of_lt (by omega)] at hzero
  change 131068 - total (argv ++ envp) = 0 at hzero
  omega

end Passed

/-- Two arguments, the first of more than a page. -/
def someArgv : List Str := [Str.replicate 5000 (by decide), Str.replicate 2 (by decide)]

def someEnvp : List Str := [Str.replicate 7 (by decide)]

/-- The strings of a program in a slot of its own. -/
theorem passed_three : ∃ p a, copyArguments someArgv someEnvp slotState.mem = .ok (p, a) ∧
    p ≠ 0 ∧ Succeeds (giveUp >>= fun _ => newStack 4096 2 1 p a.page)
      { slotState with mem := a.mem } fun sp s' => Segment 1 (userByte 1 s'.mem) s' ∧
        ∃ av ev addr, Passed (userByte 1 s'.mem) sp someArgv someEnvp av ev addr :=
  have htotal : total (someArgv ++ someEnvp) < 131068 := by
    simp only [someArgv, someEnvp, total_append, total_cons, total_nil, Str.len_replicate]
    norm_num
  have hfree : slotState.mem.freeFrames = _ := Memory.freeFrames_boot _
  passed ready_slotState htotal (by rw [hfree]; decide) 4096

end Linux001.Exec
