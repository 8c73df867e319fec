import Linux001.Files.Writers

/-!
# Blocks and bytes of concurrent writers

`_bmap` tests the place of a zone number, `new_block` may sleep, and its result is stored without
another test. When a process finds a place empty while another one is in `new_block` for the same
place, the number that is stored first is overwritten: its zone is lost, and with it what has been
written there. When this does not happen, the zones of all calls are in the tree of the file, and
`file_read` returns what was written last.

## Main definitions

* `Fresh`: the file before the calls.
* `Separate`: no call enters `new_block` for a place for which another one is there.
* `State.ReadBack`: a byte of a call is read back.
* `Inv`: the invariant of the runs in which the calls are separate.

## Main results

* `writers_keep`: no zone and no byte is lost when the calls are separate.
* `writers_lose`: two calls fill the same hole, and a zone and a byte are lost.
-/

namespace Linux001.Files

open Fs

variable {n : ℕ} {sb : Super} {s₀ s s' : State n} {p : Fin n}

/-- A call that has not begun. -/
def Proc.idle : Proc := ⟨false, 0, [], 0, 0, 0, .idle⟩

/-- The zone `z` is marked in the bitmap. -/
def Used (sb : Super) (zmap : ℕ → Bool) (z : ℕ) : Prop :=
  sb.firstdatazone ≤ z ∧ z < sb.nzones ∧ zmap (sb.bit z) = true

/-- The zones of a file are marked in the bitmap, and no zone is at two places. Bit 0 of the bitmap
stands for no zone. -/
structure Sound (sb : Super) (s : State n) : Prop where
  reserved : s.zmap 0 = true
  used : ∀ a, s.tree a ≠ 0 → Used sb s.zmap (s.tree a)
  inj : ∀ a b, s.tree a ≠ 0 → s.tree a = s.tree b → a = b

/-- No call has begun. -/
structure Fresh (sb : Super) (s : State n) : Prop where
  sound : Sound sb s
  proc : ∀ p, s.proc p = Proc.idle
  got : ∀ p, s.got p = []
  last : ∀ x, s.last x = none

/-- The place for which the next step of `p` enters `new_block` and gets a zone. -/
def State.enters (sb : Super) (s : State n) (p : Fin n) : Option Slot :=
  match s.target p with
  | none => none
  | some (c, _) => if s.slot c = 0 ∧ (s.newBlock sb).1.isSome then some c else none

/-- The place in which a call inside `new_block` will store the result. -/
def Pc.storing : Pc → Option Slot
  | .newBlock c _ _ => some c
  | _ => none

/-- No call enters `new_block` for a place for which another one is there. -/
def Separate (sb : Super) (s : State n) (e : Event n) : Prop :=
  ∀ p q, e = .run p → s.enters sb p ≠ none → (s.proc q).pc.storing ≠ s.enters sb p

instance (s : State n) (e : Event n) : Decidable (Separate sb s e) :=
  inferInstanceAs (Decidable (∀ p q, e = .run p → s.enters sb p ≠ none →
    (s.proc q).pc.storing ≠ s.enters sb p))

/-- A call has written to the offset `x`. -/
def Proc.Wrote (q : Proc) (x : ℕ) : Prop := q.start ≤ x ∧ x < q.start + q.i

/-- The `j`-th byte of a call is in the file, and every `file_read` over its offset returns it. -/
def State.ReadBack (s : State n) (q : Fin n) (j : ℕ) : Prop :=
  (s.proc q).start + j < s.size ∧
    ∀ pos count, pos ≤ (s.proc q).start + j → (s.proc q).start + j < pos + count →
      pos + count ≤ maxBlocks * 1024 →
        ∃ bytes, s.fileRead pos count = some bytes ∧
          bytes[(s.proc q).start + j - pos]? = (s.proc q).buf[j]?

/-! ### The invariant -/

/-- What is known of a call at a position. -/
def Pc.Ok (tree : Path → ℕ) (q : Proc) : Pc → Prop
  | .idle => q.i = 0
  | .loop => True
  | .table t k rest => ∃ a, SlotAt tree (.entry t k) a ∧ Leads (q.pos / 1024) a rest
  | .newBlock c _ rest => ∃ a, SlotAt tree c a ∧ tree a = 0 ∧ Leads (q.pos / 1024) a rest
  | .data z => z ≠ 0 ∧ q.pos / 1024 < maxBlocks ∧ tree (leafPath (q.pos / 1024)) = z
  | .done value => value = if q.i = 0 then -1 else (q.i : ℤ)

/-- The block with the offset `x` is there, and has the byte `b` at this offset. -/
structure Holds (size : ℕ) (data : ℕ → Block) (tree : Path → ℕ) (x : ℕ) (b : UInt8) : Prop where
  size : x < size
  block : x / 1024 < maxBlocks
  leaf : tree (leafPath (x / 1024)) ≠ 0
  byte : data (tree (leafPath (x / 1024))) (x % 1024) = b

/-- The counters of a call and its position are consistent. -/
structure Proc.Ok (tree : Path → ℕ) (q : Proc) : Prop where
  pos : q.pos = q.start + q.i
  le : q.i ≤ q.buf.length
  pc : q.pc.Ok tree q

/-- The invariant of the runs in which the calls are separate. -/
structure Inv (sb : Super) (s : State n) : Prop where
  sound : Sound sb s
  got : ∀ q, ∀ z ∈ s.got q, z ≠ 0 ∧ ∃ a, s.tree a = z
  proc : ∀ q, (s.proc q).Ok s.tree
  hand : ∀ q c z rest, (s.proc q).pc = .newBlock c z rest → Used sb s.zmap z ∧ ∀ a, s.tree a ≠ z
  hands : ∀ q q' c c' z z' rest rest', q ≠ q' → (s.proc q).pc = .newBlock c z rest →
    (s.proc q').pc = .newBlock c' z' rest' → c ≠ c' ∧ z ≠ z'
  last : ∀ x q, s.last x = some q →
    (s.proc q).Wrote x ∧
      Holds s.size s.data s.tree x ((s.proc q).buf.getD (x - (s.proc q).start) 0)
  written : ∀ q x, (s.proc q).Wrote x → s.last x ≠ none

theorem Fresh.inv (h : Fresh sb s) : Inv sb s where
  sound := h.sound
  got q z hz := by
    rw [h.got q] at hz
    cases hz
  proc q := by
    rw [h.proc q]
    exact ⟨rfl, le_rfl, rfl⟩
  hand q c z rest hpc := by
    rw [h.proc q] at hpc
    cases hpc
  hands q q' c c' z z' rest rest' _ hpc := by
    rw [h.proc q] at hpc
    cases hpc
  last x q hx := by
    rw [h.last x] at hx
    cases hx
  written q x hx := by
    rw [h.proc q] at hx
    exact absurd hx.2 (Nat.not_lt_of_le hx.1)

theorem Used.ne_zero {zmap : ℕ → Bool} {z : ℕ} (h : Used sb zmap z) : z ≠ 0 := by
  have := View.firstdatazone_pos sb
  have := h.1
  omega

/-- A place is tested where the tree has it. -/
theorem slotAt_of_target {c : Slot} {rest : List ℕ} (hok : (s.proc p).Ok s.tree)
    (h : s.target p = some (c, rest)) :
    ∃ a, SlotAt s.tree c a ∧ Leads ((s.proc p).pos / 1024) a rest := by
  have hpc := hok.pc
  unfold State.target at h
  dsimp only at h
  split at h
  · split_ifs at h
    obtain ⟨⟨k, rest'⟩, hr, hc⟩ := Option.map_eq_some_iff.mp h
    obtain ⟨rfl, rfl⟩ := Prod.mk.inj hc
    obtain ⟨l, hl, hleads⟩ := leads_of_route hr
    exact ⟨.zone l, ⟨l, hl, rfl⟩, hleads⟩
  · rename_i t k rest' heq
    obtain ⟨rfl, rfl⟩ := Prod.mk.inj (Option.some.inj h)
    rw [heq] at hpc
    exact hpc
  · cases h

/-- A place is at one place of the tree, and no other place is there. -/
theorem SlotAt.unique {tree : Path → ℕ} {c c' : Slot} {a : Path} (h : SlotAt tree c a)
    (h' : SlotAt tree c' a) : c = c' := by
  cases c with
  | inode k =>
    obtain ⟨l, rfl, rfl⟩ := h
    cases c' with
    | inode k' =>
      obtain ⟨l', rfl, hl⟩ := h'
      rw [Path.zone.inj hl]
    | entry t k' =>
      obtain ⟨-, T, i, -, -, ha⟩ := h'
      cases T <;> cases ha
  | entry t k =>
    obtain ⟨-, T, i, rfl, rfl, rfl⟩ := h
    cases c' with
    | inode k' =>
      obtain ⟨l', -, ha⟩ := h'
      cases T <;> cases ha
    | entry t' k' =>
      obtain ⟨-, T', i', rfl, rfl, ha⟩ := h'
      obtain ⟨rfl, rfl⟩ := Table.entry_inj ha
      rfl

/-- Places stay where they are when the tree is extended. -/
theorem SlotAt.extend {tree tree' : Path → ℕ} (htree : ∀ a, tree a ≠ 0 → tree' a = tree a)
    {c : Slot} {a : Path} (h : SlotAt tree c a) : SlotAt tree' c a := by
  cases c with
  | inode k => exact h
  | entry t k =>
    obtain ⟨ht, T, i, rfl, hi, ha⟩ := h
    exact ⟨ht, T, i, htree _ ht, hi, ha⟩

/-- What is known of a call stays true when the tree is extended at other places than the one for
which the call is in `new_block`. -/
theorem Pc.Ok.extend {tree tree' : Path → ℕ} (htree : ∀ a, tree a ≠ 0 → tree' a = tree a)
    {q : Proc} {pc : Pc} (h : pc.Ok tree q)
    (hvacant : ∀ c z rest a, pc = .newBlock c z rest → SlotAt tree c a → tree a = 0 → tree' a = 0) :
    pc.Ok tree' q := by
  cases pc with
  | idle | loop | done => exact h
  | table t k rest =>
    obtain ⟨a, ha, hleads⟩ := h
    exact ⟨a, ha.extend htree, hleads⟩
  | newBlock c z rest =>
    obtain ⟨a, ha, h0, hleads⟩ := h
    exact ⟨a, ha.extend htree, hvacant c z rest a rfl ha h0, hleads⟩
  | data z =>
    obtain ⟨hz, hb, rfl⟩ := h
    exact ⟨hz, hb, htree _ hz⟩

/-- A call that follows a number of the tree knows where it is. -/
theorem ok_follow {tree : Path → ℕ} {q : Proc} {a : Path} {rest : List ℕ}
    (hleads : Leads (q.pos / 1024) a rest) (ha : tree a ≠ 0) :
    (State.follow (tree a) rest).Ok tree q := by
  cases rest with
  | nil =>
    obtain ⟨hb, rfl⟩ := hleads
    exact ⟨ha, hb, rfl⟩
  | cons k rest =>
    obtain ⟨T, i, rfl, rfl, hleads⟩ := hleads
    exact ⟨T.entry i, ⟨ha, T, i, rfl, rfl, rfl⟩, hleads⟩

namespace Inv

/-- A step that changes a call and takes a bit of the bitmap. -/
theorem quiet (h : Inv sb s) (q' : Proc) {zmap : ℕ → Bool}
    (hzmap : ∀ j, s.zmap j = true → zmap j = true) (hok : q'.Ok s.tree)
    (hkeep : (q'.start = (s.proc p).start ∧ q'.i = (s.proc p).i ∧ q'.buf = (s.proc p).buf) ∨
      (s.proc p).i = 0 ∧ q'.i = 0)
    (hhand : ∀ c z rest, q'.pc = .newBlock c z rest → (Used sb zmap z ∧ ∀ a, s.tree a ≠ z) ∧
      ∀ q c' z' rest', q ≠ p → (s.proc q).pc = .newBlock c' z' rest' → c' ≠ c ∧ z' ≠ z) :
    Inv sb { s with zmap := zmap, proc := Function.update s.proc p q' } := by
  have hused (z : ℕ) (hz : Used sb s.zmap z) : Used sb zmap z := ⟨hz.1, hz.2.1, hzmap _ hz.2.2⟩
  have hself : Function.update s.proc p q' p = q' := Function.update_self ..
  have hother (q : Fin n) (hq : q ≠ p) : Function.update s.proc p q' q = s.proc q :=
    Function.update_of_ne hq ..
  refine ⟨⟨hzmap 0 h.sound.reserved, fun a ha => hused _ (h.sound.used a ha), h.sound.inj⟩, h.got,
    fun q => ?_, fun q c z rest hpc => ?_, fun q q₂ c c₂ z z₂ rest rest₂ hne hpc hpc₂ => ?_,
    fun x q hx => ?_, fun q x hx => ?_⟩
  · change (Function.update s.proc p q' q).Ok s.tree
    by_cases hq : q = p
    · rw [hq, hself]
      exact hok
    · rw [hother q hq]
      exact h.proc q
  · change (Function.update s.proc p q' q).pc = _ at hpc
    by_cases hq : q = p
    · rw [hq, hself] at hpc
      exact (hhand c z rest hpc).1
    · rw [hother q hq] at hpc
      exact (h.hand q c z rest hpc).imp_left (hused z)
  · change (Function.update s.proc p q' q).pc = _ at hpc
    change (Function.update s.proc p q' q₂).pc = _ at hpc₂
    by_cases hq : q = p
    · rw [hq, hself] at hpc
      rw [hother q₂ fun h => hne (hq.trans h.symm)] at hpc₂
      exact ((hhand c z rest hpc).2 q₂ c₂ z₂ rest₂ (fun h => hne (hq.trans h.symm)) hpc₂).imp
        Ne.symm Ne.symm
    · rw [hother q hq] at hpc
      by_cases hq₂ : q₂ = p
      · rw [hq₂, hself] at hpc₂
        exact (hhand c₂ z₂ rest₂ hpc₂).2 q c z rest hq hpc
      · rw [hother q₂ hq₂] at hpc₂
        exact h.hands q q₂ c c₂ z z₂ rest rest₂ hne hpc hpc₂
  · obtain ⟨hwrote, hbyte⟩ := h.last x q hx
    by_cases hq : q = p
    · subst hq
      obtain ⟨hstart, hi, hbuf⟩ | ⟨hi, -⟩ := hkeep
      · change (Function.update s.proc q q' q).Wrote x ∧ Holds s.size s.data s.tree x
          ((Function.update s.proc q q' q).buf.getD (x - (Function.update s.proc q q' q).start) 0)
        rw [hself, Proc.Wrote, hstart, hi, hbuf]
        exact ⟨hwrote, hbyte⟩
      · have := hwrote.1
        have := hwrote.2
        omega
    · change (Function.update s.proc p q' q).Wrote x ∧ Holds s.size s.data s.tree x
        ((Function.update s.proc p q' q).buf.getD (x - (Function.update s.proc p q' q).start) 0)
      rw [hother q hq]
      exact ⟨hwrote, hbyte⟩
  · change (Function.update s.proc p q' q).Wrote x at hx
    by_cases hq : q = p
    · subst hq
      rw [hself] at hx
      obtain ⟨hstart, hi, -⟩ | ⟨-, hi⟩ := hkeep
      · refine h.written q x ?_
        rw [Proc.Wrote, hstart, hi] at hx
        exact hx
      · have := hx.1
        have := hx.2
        omega
    · rw [hother q hq] at hx
      exact h.written q x hx

/-- The end of a call. -/
theorem finish (h : Inv sb s) {zmap : ℕ → Bool} (hzmap : ∀ j, s.zmap j = true → zmap j = true) :
    Inv sb ({ s with zmap := zmap }.finish p) :=
  h.quiet _ hzmap ⟨(h.proc p).pos, (h.proc p).le, rfl⟩ (.inl ⟨rfl, rfl, rfl⟩) fun _ _ _ =>
    (nomatch ·)

/-- A call goes on with a number of the tree. -/
theorem follow (h : Inv sb s) {c : Slot} {rest : List ℕ} (ht : s.target p = some (c, rest))
    (hc : s.slot c ≠ 0) : Inv sb (s.setPc p (State.follow (s.slot c) rest)) := by
  obtain ⟨a, ha, hleads⟩ := slotAt_of_target (h.proc p) ht
  rw [State.slot_eq ha] at hc ⊢
  refine h.quiet { s.proc p with pc := State.follow (s.tree a) rest } (fun _ => id)
    ⟨(h.proc p).pos, (h.proc p).le, ok_follow hleads hc⟩ (.inl ⟨rfl, rfl, rfl⟩) ?_
  intro c' z rest' hpc
  cases rest <;> cases hpc

/-- A call enters `new_block` for a place for which no other call is there. -/
theorem enter (h : Inv sb s) {c : Slot} {rest : List ℕ} {j : ℕ} (ht : s.target p = some (c, rest))
    (hc : s.slot c = 0) (hj : s.zmap j = false) (hlt : j + (sb.firstdatazone - 1) < sb.nzones)
    (hsep : ∀ q, (s.proc q).pc.storing ≠ some c) :
    Inv sb ({ s with zmap := Function.update s.zmap j true }.setPc p
      (.newBlock c (j + (sb.firstdatazone - 1)) rest)) := by
  obtain ⟨a, ha, hleads⟩ := slotAt_of_target (h.proc p) ht
  have hpos := View.firstdatazone_pos sb
  have hj0 : j ≠ 0 := by
    rintro rfl
    rw [h.sound.reserved] at hj
    cases hj
  have hbit : sb.bit (j + (sb.firstdatazone - 1)) = j := Nat.add_sub_cancel ..
  -- The zone was not used.
  have hfree (z : ℕ) (hz : Used sb s.zmap z) : z ≠ j + (sb.firstdatazone - 1) := by
    rintro rfl
    have hset := hz.2.2
    rw [hbit, hj] at hset
    cases hset
  have hzmap (i : ℕ) (hi : s.zmap i = true) : Function.update s.zmap j true i = true := by
    rw [Function.update_apply]
    split_ifs
    · rfl
    · exact hi
  refine h.quiet { s.proc p with pc := .newBlock c (j + (sb.firstdatazone - 1)) rest } hzmap
    ⟨(h.proc p).pos, (h.proc p).le, a, ha, ?_, hleads⟩ (.inl ⟨rfl, rfl, rfl⟩) ?_
  · rw [← State.slot_eq ha]
    exact hc
  · rintro _ _ _ ⟨⟩
    refine ⟨⟨⟨by omega, hlt, ?_⟩, fun b hb => ?_⟩, fun q c' z' rest' hq hpc => ⟨?_, ?_⟩⟩
    · rw [hbit]
      exact Function.update_self ..
    · refine hfree _ (h.sound.used b ?_) hb
      omega
    · rintro rfl
      refine hsep q ?_
      rw [hpc]
      rfl
    · exact hfree z' (h.hand q c' z' rest' hpc).1

end Inv

/-! ### Storing a zone and copying bytes -/

theorem Table.path_inj {T T' : Table} (h : T.path = T'.path) : T = T' := by
  cases T <;> cases T' <;> cases h <;> rfl

/-- The zone `z` has been stored at the vacant place `a`, and the call `p` goes on with it. -/
structure Stored (s s' : State n) (p : Fin n) (a : Path) (z : ℕ) (rest : List ℕ) : Prop where
  tree : ∀ b, s'.tree b = if b = a then z else s.tree b
  data : ∀ w, w ≠ z → (∀ T : Table, s.tree T.path ≠ w) → s'.data w = s.data w
  size : s'.size = s.size
  zmap : s'.zmap = s.zmap
  last : s'.last = s.last
  got : s'.got = Function.update s.got p (z :: s.got p)
  proc : s'.proc = Function.update s.proc p { s.proc p with pc := State.follow z rest }

theorem Inv.stored (h : Inv sb s) {c : Slot} {z : ℕ} {rest : List ℕ} {a : Path}
    (hpc : (s.proc p).pc = .newBlock c z rest) (ha : SlotAt s.tree c a) (h0 : s.tree a = 0) :
    Stored s (s.store p c z rest) p a z rest := by
  obtain ⟨hused, hfree⟩ := h.hand p c z rest hpc
  cases c with
  | inode k =>
    obtain ⟨l, rfl, rfl⟩ := ha
    have hdata (w : ℕ) (hw : w ≠ z) : Function.update s.data z zeroBlock w = s.data w :=
      Function.update_of_ne hw ..
    exact ⟨fun b => zoneAt_set_zone h0 (Function.update_self ..) (fun T _ => hdata _ (hfree _)) b,
      fun w hw _ => hdata w hw, rfl, rfl, rfl, rfl, rfl⟩
  | entry t k =>
    obtain ⟨ht, T, i, rfl, rfl, rfl⟩ := ha
    have hdata (w : ℕ) (hw : w ≠ z) (hwt : w ≠ s.tree T.path) :
        (s.store p (.entry (s.tree T.path) i) z rest).data w = s.data w :=
      (Function.update_of_ne hwt ..).trans (Function.update_of_ne hw ..)
    refine ⟨fun b => zoneAt_set_entry ht h0 ?_ (hused.2.1.trans sb.nzones_lt) ?_ ?_ b,
      fun w hw hT => hdata w hw (hT T).symm, rfl, rfl, rfl, rfl, rfl⟩
    · exact (Function.update_of_ne (hfree _).symm ..).trans (Function.update_self ..)
    · refine (Function.update_self ..).trans ?_
      exact congrArg (setWord · i z) (Function.update_of_ne (hfree _) ..)
    · intro T' hT hne
      refine hdata _ (hfree _) fun heq => hT ?_
      exact Table.path_inj (h.sound.inj _ _ hne heq)

/-- A call stores the zone that `new_block` has returned. -/
theorem Inv.store (h : Inv sb s) {c : Slot} {z : ℕ} {rest : List ℕ}
    (hpc : (s.proc p).pc = .newBlock c z rest) : Inv sb (s.store p c z rest) := by
  obtain ⟨hused, hfree⟩ := h.hand p c z rest hpc
  have hok := (h.proc p).pc
  rw [hpc] at hok
  obtain ⟨a, ha, h0, hleads⟩ := hok
  have hs := h.stored hpc ha h0
  generalize s.store p c z rest = s' at hs
  have hself : s'.proc p = { s.proc p with pc := State.follow z rest } := by
    rw [hs.proc]
    exact Function.update_self ..
  have hother (q : Fin n) (hq : q ≠ p) : s'.proc q = s.proc q := by
    rw [hs.proc]
    exact Function.update_of_ne hq ..
  have hextend (b : Path) (hb : s.tree b ≠ 0) : s'.tree b = s.tree b := by
    rw [hs.tree, if_neg]
    rintro rfl
    exact hb h0
  have hnew : s'.tree a = z := by rw [hs.tree, if_pos rfl]
  -- The call is not in `new_block` any more.
  have hne {q : Fin n} {c' : Slot} {z' : ℕ} {rest' : List ℕ}
      (hq : (s'.proc q).pc = .newBlock c' z' rest') :
      q ≠ p ∧ (s.proc q).pc = .newBlock c' z' rest' := by
    by_cases hqp : q = p
    · rw [hqp, hself] at hq
      cases rest <;> cases hq
    · exact ⟨hqp, hother q hqp ▸ hq⟩
  refine ⟨⟨hs.zmap ▸ h.sound.reserved, fun b hb => ?_, fun b b' hb heq => ?_⟩, fun q w hw => ?_,
    fun q => ?_, fun q c' z' rest' hq => ?_, fun q q₂ c' c₂ z' z₂ rest' rest₂ hqq hq hq₂ => ?_,
    fun x q hx => ?_, fun q x hx => ?_⟩
  · rw [hs.zmap]
    rw [hs.tree] at hb ⊢
    split_ifs at hb ⊢
    · exact hused
    · exact h.sound.used b hb
  · rw [hs.tree] at hb heq
    rw [hs.tree] at heq
    split_ifs at hb heq with hba hba' hba'
    · rw [hba, hba']
    · exact absurd heq.symm (hfree b')
    · exact absurd heq (hfree b)
    · exact h.sound.inj b b' hb heq
  · rw [hs.got, Function.update_apply] at hw
    have hold (w : ℕ) (hw : w ∈ s.got q) : w ≠ 0 ∧ ∃ b, s'.tree b = w := by
      obtain ⟨hw0, b, rfl⟩ := h.got q w hw
      exact ⟨hw0, b, hextend b hw0⟩
    split_ifs at hw with hq
    · rcases List.mem_cons.mp hw with rfl | hw
      · exact ⟨hused.ne_zero, a, hnew⟩
      · exact hold w (hq ▸ hw)
    · exact hold w hw
  · by_cases hq : q = p
    · rw [hq, hself]
      refine ⟨(h.proc p).pos, (h.proc p).le, ?_⟩
      rw [← hnew]
      exact ok_follow (q := { s.proc p with pc := _ }) hleads (hnew ▸ hused.ne_zero)
    · rw [hother q hq]
      refine ⟨(h.proc q).pos, (h.proc q).le, (h.proc q).pc.extend hextend ?_⟩
      intro c' z' rest' a' hpc' ha' h0'
      rw [hs.tree, if_neg]
      · exact h0'
      · rintro rfl
        exact (h.hands q p c' c z' z rest' rest hq hpc' hpc).1 (ha'.unique ha)
  · obtain ⟨hqp, hq⟩ := hne hq
    rw [hs.zmap]
    refine ⟨(h.hand q c' z' rest' hq).1, fun b => ?_⟩
    rw [hs.tree]
    split_ifs
    · exact (h.hands q p c' c z' z rest' rest hqp hq hpc).2.symm
    · exact (h.hand q c' z' rest' hq).2 b
  · exact h.hands q q₂ c' c₂ z' z₂ rest' rest₂ hqq (hne hq).2 (hne hq₂).2
  · rw [hs.last] at hx
    obtain ⟨hwrote, hbyte⟩ := h.last x q hx
    have hsame : (s'.proc q).start = (s.proc q).start ∧ (s'.proc q).i = (s.proc q).i ∧
        (s'.proc q).buf = (s.proc q).buf := by
      by_cases hq : q = p
      · rw [hq, hself]
        exact ⟨rfl, rfl, rfl⟩
      · rw [hother q hq]
        exact ⟨rfl, rfl, rfl⟩
    rw [Proc.Wrote, hsame.1, hsame.2.1, hsame.2.2, hs.size]
    have hleaf := hextend _ hbyte.leaf
    refine ⟨hwrote, hbyte.size, hbyte.block, hleaf ▸ hbyte.leaf, ?_⟩
    rw [hleaf, hs.data _ (hfree _), hbyte.byte]
    intro T heq
    exact leafPath_ne_path (x / 1024) T (h.sound.inj _ _ hbyte.leaf heq.symm)
  · rw [hs.last]
    refine h.written q x ?_
    by_cases hq : q = p
    · rw [hq, hself] at hx
      exact hq ▸ hx
    · rw [hother q hq] at hx
      exact hx

/-- The call `p` has copied `c` bytes to the block of its position. -/
structure Copied (s s' : State n) (p : Fin n) (c : ℕ) : Prop where
  block : c ≤ 1024 - (s.proc p).pos % 1024
  buf : c ≤ (s.proc p).buf.length - (s.proc p).i
  tree : s'.tree = s.tree
  data : ∀ x, x / 1024 < maxBlocks → s.tree (leafPath (x / 1024)) ≠ 0 →
    s'.data (s.tree (leafPath (x / 1024))) (x % 1024) =
      if (s.proc p).pos ≤ x ∧ x < (s.proc p).pos + c then
        (s.proc p).buf.getD (x - (s.proc p).start) 0
      else s.data (s.tree (leafPath (x / 1024))) (x % 1024)
  size : s'.size = max s.size ((s.proc p).pos + c)
  zmap : s'.zmap = s.zmap
  got : s'.got = s.got
  last : ∀ x, s'.last x =
    if (s.proc p).pos ≤ x ∧ x < (s.proc p).pos + c then some p else s.last x
  proc : s'.proc = Function.update s.proc p
    { s.proc p with pos := (s.proc p).pos + c, i := (s.proc p).i + c, pc := .loop }

theorem Inv.copied (h : Inv sb s) {z : ℕ} (hz : z ≠ 0)
    (hblock : (s.proc p).pos / 1024 < maxBlocks)
    (hleaf : s.tree (leafPath ((s.proc p).pos / 1024)) = z) :
    Copied s (s.copy p z) p
      (min (1024 - (s.proc p).pos % 1024) ((s.proc p).buf.length - (s.proc p).i)) := by
  have hpos := (h.proc p).pos
  subst hleaf
  refine ⟨min_le_left .., min_le_right .., ?_, fun x hx hne => ?_, rfl, rfl, rfl, fun _ => rfl, rfl⟩
  · -- No table is stored in the block.
    funext a
    refine zoneAt_congr (fun T hT => Function.update_of_ne (fun heq => ?_) ..) a
    exact leafPath_ne_path _ T (h.sound.inj _ _ hT heq).symm
  · change Function.update s.data _ _ _ _ = _
    rw [Function.update_apply]
    by_cases hzone : s.tree (leafPath (x / 1024)) = s.tree (leafPath ((s.proc p).pos / 1024))
    · have hdiv := leafPath_inj hx hblock (h.sound.inj _ _ hne hzone)
      rw [if_pos hzone, hzone]
      refine ite_congr (propext ⟨fun _ => ?_, fun _ => ?_⟩) (fun _ => ?_) fun _ => rfl
      · omega
      · omega
      · congr 1
        omega
    · rw [if_neg hzone, if_neg]
      intro hrange
      exact hzone (by rw [show x / 1024 = (s.proc p).pos / 1024 by omega])

/-- A call copies bytes to a block. -/
theorem Inv.copy (h : Inv sb s) {z : ℕ} (hpc : (s.proc p).pc = .data z) :
    Inv sb (s.copy p z) := by
  have hok := (h.proc p).pc
  rw [hpc] at hok
  obtain ⟨hz, hblock, hleaf⟩ := hok
  have hs := h.copied hz hblock hleaf
  generalize s.copy p z = s' at hs
  generalize min (1024 - (s.proc p).pos % 1024) ((s.proc p).buf.length - (s.proc p).i) = c at hs
  have hpos := (h.proc p).pos
  have hle := (h.proc p).le
  have hcblock := hs.block
  have hcbuf := hs.buf
  have hself : s'.proc p =
      { s.proc p with pos := (s.proc p).pos + c, i := (s.proc p).i + c, pc := .loop } := by
    rw [hs.proc]
    exact Function.update_self ..
  have hother (q : Fin n) (hq : q ≠ p) : s'.proc q = s.proc q := by
    rw [hs.proc]
    exact Function.update_of_ne hq ..
  have hne {q : Fin n} {c' : Slot} {z' : ℕ} {rest' : List ℕ}
      (hq : (s'.proc q).pc = .newBlock c' z' rest') : (s.proc q).pc = .newBlock c' z' rest' := by
    by_cases hqp : q = p
    · rw [hqp, hself] at hq
      cases hq
    · exact hother q hqp ▸ hq
  -- The call has written to what it had written to before and to the new bytes.
  have hwrote (q : Fin n) (x : ℕ) : (s'.proc q).Wrote x ↔
      (s.proc q).Wrote x ∨ q = p ∧ (s.proc p).pos ≤ x ∧ x < (s.proc p).pos + c := by
    by_cases hq : q = p
    · subst hq
      rw [hself]
      unfold Proc.Wrote
      dsimp only
      omega
    · rw [hother q hq]
      exact ⟨.inl, fun h => h.resolve_right fun h => hq h.1⟩
  have hbuf (q : Fin n) : (s'.proc q).buf = (s.proc q).buf ∧
      (s'.proc q).start = (s.proc q).start := by
    by_cases hq : q = p
    · rw [hq, hself]
      exact ⟨rfl, rfl⟩
    · rw [hother q hq]
      exact ⟨rfl, rfl⟩
  refine ⟨⟨hs.zmap ▸ h.sound.reserved, ?_, ?_⟩, ?_, fun q => ?_, fun q c' z' rest' hq => ?_,
    fun q q₂ c' c₂ z' z₂ rest' rest₂ hqq hq hq₂ => ?_, fun x q hx => ?_, fun q x hx => ?_⟩
  · rw [hs.tree, hs.zmap]
    exact h.sound.used
  · rw [hs.tree]
    exact h.sound.inj
  · rw [hs.tree, hs.got]
    exact h.got
  · rw [hs.tree]
    by_cases hq : q = p
    · rw [hq, hself]
      refine ⟨?_, ?_, trivial⟩
      · change (s.proc p).pos + c = (s.proc p).start + ((s.proc p).i + c)
        omega
      · change (s.proc p).i + c ≤ (s.proc p).buf.length
        omega
    · rw [hother q hq]
      exact h.proc q
  · rw [hs.tree, hs.zmap]
    exact h.hand q c' z' rest' (hne hq)
  · exact h.hands q q₂ c' c₂ z' z₂ rest' rest₂ hqq (hne hq) (hne hq₂)
  · rw [hs.tree, hs.size, hwrote, (hbuf q).1, (hbuf q).2]
    rw [hs.last] at hx
    split_ifs at hx with hrange
    · obtain rfl := Option.some.inj hx
      have hdiv : x / 1024 = (s.proc p).pos / 1024 := by omega
      have hx0 : s.tree (leafPath (x / 1024)) ≠ 0 := by rwa [hdiv, hleaf]
      refine ⟨.inr ⟨rfl, hrange⟩, by omega, hdiv ▸ hblock, hx0, ?_⟩
      rw [hs.data x (hdiv ▸ hblock) hx0, if_pos hrange]
    · obtain ⟨hold, hbyte⟩ := h.last x q hx
      refine ⟨.inl hold, hbyte.size.trans_le (le_max_left ..), hbyte.block, hbyte.leaf, ?_⟩
      rw [hs.data x hbyte.block hbyte.leaf, if_neg hrange, hbyte.byte]
  · rw [hs.last]
    split_ifs with hrange
    · exact Option.some_ne_none p
    · exact h.written q x (((hwrote q x).mp hx).resolve_right fun h => hrange h.2)

/-! ### Runs -/

theorem Inv.step {e : Event n} (h : Inv sb s) (hnext : s.next sb e = some s')
    (hsep : Separate sb s e) : Inv sb s' := by
  cases State.trans hnext with
  | start append fpos buf pos hpc =>
    have hok := (h.proc e.proc).pc
    rw [hpc] at hok
    exact h.quiet _ (fun _ => id) ⟨rfl, Nat.zero_le _, trivial⟩ (.inr ⟨hok, rfl⟩)
      fun _ _ _ => (nomatch ·)
  | finish zmap hzmap => exact h.finish hzmap
  | follow c rest ht hc => exact h.follow ht hc
  | enter c rest j he ht hc hj hlt hz =>
    have henters : s.enters sb e.proc = some c := by
      unfold State.enters
      rw [ht]
      exact if_pos ⟨hc, hz ▸ rfl⟩
    refine h.enter ht hc hj hlt fun q => ?_
    have hq := hsep e.proc q he
    rw [henters] at hq
    exact hq (Option.some_ne_none c)
  | store c z rest hpc => exact h.store hpc
  | copy z hpc => exact h.copy hpc

/-- What a call has written last is read back. -/
theorem Inv.readBack (h : Inv sb s) {q : Fin n} {j : ℕ}
    (hlast : s.last ((s.proc q).start + j) = some q) : s.ReadBack q j := by
  obtain ⟨hwrote, hbyte⟩ := h.last _ q hlast
  have hj : j < (s.proc q).buf.length := by
    have := hwrote.2
    have := (h.proc q).le
    omega
  refine ⟨hbyte.size, fun pos count hpos hcount hle => ⟨_, State.fileRead_eq hle, ?_⟩⟩
  rw [List.getElem?_map, List.getElem?_range (by omega), Option.map_some, Nat.add_sub_cancel' hpos,
    State.byte, if_neg hbyte.leaf, hbyte.byte, Nat.add_sub_cancel_left,
    List.getD_eq_getElem?_getD, List.getElem?_eq_getElem hj, Option.getD_some]

/-- In every run in which no call enters `new_block` for a place for which another call is there,
every zone that a call has got is in the tree of the file, and every byte that a call has reported
written is read back, if no other call has written to its offset, or none after the call. -/
theorem writers_keep {es : List (Event n)} (hs : Fresh sb s₀)
    (hrun : Runs (fun s e s' => s.next sb e = some s' ∧ Separate sb s e) s₀ es s) :
    (∀ q, ∀ z ∈ s.got q, z ≠ 0 ∧ ∃ a, s.tree a = z) ∧
      ∀ q (r : ℕ), (s.proc q).pc = .done r → ∀ j < r,
        s.last ((s.proc q).start + j) = some q ∨
          (∀ q' ≠ q, ¬ (s.proc q').Wrote ((s.proc q).start + j)) → s.ReadBack q j := by
  have hI : Inv sb s := hrun.invariant (I := Inv sb)
    (fun s e s' h ⟨hnext, hsep⟩ => h.step hnext hsep) hs.inv
  refine ⟨hI.got, fun q r hpc j hj hq => hI.readBack ?_⟩
  rcases hq with hq | hq
  · exact hq
  · have hok := (hI.proc q).pc
    rw [hpc] at hok
    have hwrote : (s.proc q).Wrote ((s.proc q).start + j) := by
      refine ⟨Nat.le_add_right .., Nat.add_lt_add_left ?_ _⟩
      have hr : (r : ℤ) = if (s.proc q).i = 0 then -1 else ((s.proc q).i : ℤ) := hok
      split_ifs at hr
      omega
    obtain ⟨q', hq'⟩ := Option.ne_none_iff_exists'.mp (hI.written q _ hwrote)
    by_cases hqq : q' = q
    · rw [hq', hqq]
    · exact absurd (hI.last _ q' hq').1 (hq q' hqq)

/-- A device with 64 blocks. -/
def smallDevice : Super := .small

/-- An empty file on an empty device, before the calls of two processes. -/
def State.empty : State 2 where
  zone := fun _ => 0
  size := 0
  data := fun _ => zeroBlock
  zmap := fun j => j = 0
  proc := fun _ => Proc.idle
  got := fun _ => []
  last := fun _ => none

/-- A file without tables has no zones but those in its inode. -/
theorem tree_eq_zero (h7 : s.zone 7 = 0) (h8 : s.zone 8 = 0) (T : Table) (i : Fin 512) :
    s.tree (T.entry i) = 0 := by
  have hdind (i : Fin 512) : s.tree (.dind i) = 0 := if_pos h8
  cases T with
  | ind => exact if_pos h7
  | dind => exact hdind i
  | two k => exact if_pos (hdind k)

theorem fresh_empty : Fresh smallDevice State.empty := by
  have htree (a : Path) : State.empty.tree a = 0 := by
    rcases a.cases_entry with ⟨k, rfl⟩ | ⟨T, i, rfl⟩
    · rfl
    · exact tree_eq_zero rfl rfl T i
  exact ⟨⟨rfl, fun a ha => absurd (htree a) ha, fun a b ha => absurd (htree a) ha⟩, fun _ => rfl,
    fun _ => rfl, fun _ => rfl⟩

/-- Two calls in turn write one byte each to the first block. -/
theorem writers_keep_inTurn : ∃ es s,
    Runs (fun s e s' => State.next smallDevice s e = some s' ∧ Separate smallDevice s e)
        State.empty es s ∧
      (∀ q, (s.proc q).pc = .done 1) ∧ (∀ q, ∀ z ∈ s.got q, z ≠ 0 ∧ ∃ a, s.tree a = z) ∧
        s.ReadBack 0 0 ∧ s.ReadBack 1 0 := by
  have hexec : ∃ s, exec (fun s e => (State.next smallDevice s e).filter fun _ =>
      Separate smallDevice s e) State.empty
        ([.call 0 false 0 [1], .run 0, .run 0, .run 0, .run 0,
          .call 1 false 1 [2], .run 1, .run 1, .run 1]) = some s ∧
      (s.proc 0).pc = .done 1 ∧ (s.proc 1).pc = .done 1 ∧
        s.last ((s.proc 0).start + 0) = some 0 ∧ s.last ((s.proc 1).start + 0) = some 1 :=
    ⟨_, rfl, rfl, rfl, rfl, rfl⟩
  obtain ⟨s, hs, hpc₀, hpc₁, hlast₀, hlast₁⟩ := hexec
  have hrun := runs_of_exec_guarded hs
  obtain ⟨hgot, hread⟩ := writers_keep fresh_empty hrun
  refine ⟨_, s, hrun, fun q => ?_, hgot, hread 0 1 hpc₀ 0 Nat.one_pos (.inl hlast₀),
    hread 1 1 hpc₁ 0 Nat.one_pos (.inl hlast₁)⟩
  match q with
  | 0 => exact hpc₀
  | 1 => exact hpc₁

/-- Two calls write one byte each to the missing first block. Both find the place empty and get a
zone. The zone of the first call is in the tree no more, and its byte reads as zero. -/
theorem writers_lose : ∃ es s,
    Runs (fun s e s' => State.next smallDevice s e = some s') State.empty es s ∧
      (∀ q, (s.proc q).pc = .done 1) ∧ (∃ z ∈ s.got 0, z ≠ 0 ∧ ∀ a, s.tree a ≠ z) ∧
        s.last (s.proc 0).start = some 0 ∧ (s.proc 0).buf = [1] ∧
          s.fileRead (s.proc 0).start 1 = some [0] := by
  have hexec : ∃ s, exec (State.next smallDevice) State.empty
      [.call 0 false 0 [1], .run 0, .call 1 false 1 [2], .run 1, .run 0, .run 0, .run 0, .run 1,
        .run 1, .run 1] = some s ∧
      (s.proc 0).pc = .done 1 ∧ (s.proc 1).pc = .done 1 ∧ s.got 0 = [5] ∧
        (s.zone 7 = 0 ∧ s.zone 8 = 0 ∧ ∀ k : Fin 9, s.zone k ≠ 5) ∧
          (s.proc 0).start = 0 ∧ s.last 0 = some 0 ∧ (s.proc 0).buf = [1] ∧ s.byte 0 = 0 :=
    ⟨_, rfl, rfl, rfl, rfl, by decide, rfl, rfl, rfl, rfl⟩
  obtain ⟨s, hs, hpc₀, hpc₁, hgot, ⟨h7, h8, hzone⟩, hstart, hlast, hbuf, hbyte⟩ := hexec
  refine ⟨_, s, runs_of_exec hs, fun q => ?_, ⟨5, ?_, by decide, fun a => ?_⟩, ?_, hbuf, ?_⟩
  · match q with
    | 0 => exact hpc₀
    | 1 => exact hpc₁
  · rw [hgot]
    exact List.mem_singleton_self 5
  · rcases a.cases_entry with ⟨k, rfl⟩ | ⟨T, i, rfl⟩
    · exact hzone k
    · rw [tree_eq_zero h7 h8 T i]
      decide
  · rw [hstart]
    exact hlast
  · rw [hstart, State.fileRead_eq (by decide)]
    exact congrArg (fun b => some [b]) hbyte

end Linux001.Files
