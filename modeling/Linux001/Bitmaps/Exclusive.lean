import Linux001.Bitmaps.Allocation

/-!
# No zone and no inode is allocated twice

A bit that has been found clear is set before the process sleeps, so that at most one process
allocates or frees a zone at a time, and none does while the zone is owned. Only this process refers
to the buffer of the zone; `new_block` therefore finds `b_count` to be one, and `free_block` does
not return before it has cleared the bit.

## Main definitions

* `Zones`, `Inodes`: what the bitmaps, the processes and the log say of zones and inodes.
* `Inv`: the invariant.

## Main results

* `Inv.step`: the invariant is kept.
* `State.no_double_allocation`: what is returned is in range and not in use, and what is freed is
  what has been set.
-/

namespace Linux001.Bitmaps

open BufferCache (Label Exact)

variable {D : Type*} {N n : ℕ} {sb : Super}

/-! ### Zones -/

/-- The zone that a process is allocating or freeing. -/
def Pc.zone (sb : Super) : Pc → Option ℕ
  | .getblk x | .brelse x => some (sb.zone x)
  | .free z => some z
  | .idle | .emptyInode => none

/-- The bit that a process has set. -/
def Pc.newBit : Pc → Option Bit
  | .getblk x | .brelse x => some x
  | _ => none

/-- The zones that processes allocate or free, and those that are owned, have their bits set. -/
structure Zones (sb : Super) (pc : Fin n → Pc) (zmap : Bitmap) (log : List (Output n)) : Prop where
  busy : ∀ p z, (pc p).zone sb = some z → sb.IsZone z ∧ zmap.get (sb.place z) = true
  alone : ∀ p q z, (pc p).zone sb = some z → (pc q).zone sb = some z → p = q
  new : ∀ p x, (pc p).newBit = some x → bitOf (sb.zone x) log = none ∧ sb.place (sb.zone x) = x
  freeing : ∀ p z, pc p = .free z → bitOf z log ≠ none
  owned : ∀ z x, bitOf z log = some x →
    sb.IsZone z ∧ zmap.get (sb.place z) = true ∧ x = sb.place z
  first : ∀ bits, zmap 0 = some bits → bits 0 = true

/-- What has been returned and not been freed has its bit set. -/
structure Inodes (sb : Super) (imap : Bitmap) (log : List (Output n)) : Prop where
  taken : ∀ num, inodeTaken num log = true → num ≤ sb.ninodes ∧ imap.get (bitAt num) = true
  first : ∀ bits, imap 0 = some bits → bits 0 = true

namespace Zones

variable {pc : Fin n → Pc} {zmap : Bitmap} {log : List (Output n)} {p : Fin n} {x : Bit} {z : ℕ}

/-- A zone whose bit is clear is in nobody's hands. -/
theorem free_of_clear (h : Zones sb pc zmap log) (hx : zmap.get (sb.place z) = false) :
    bitOf z log = none ∧ ∀ q, (pc q).zone sb ≠ some z := by
  refine ⟨?_, fun q hq => ?_⟩
  · cases hz : bitOf z log with
    | none => rfl
    | some y => exact absurd (h.owned z y hz).2.1 (by rw [hx]; nofun)
  · exact absurd (h.busy q z hq).2 (by rw [hx]; nofun)

/-- A process moves, and has the same zone in its hands. -/
theorem setPc (h : Zones sb pc zmap log) {pc' : Pc} (hzone : pc'.zone sb = (pc p).zone sb)
    (hnew : pc'.newBit = (pc p).newBit) (hfree : ∀ z, pc' ≠ .free z) :
    Zones sb (Function.update pc p pc') zmap log where
  busy q z hq := by
    rw [Function.update_apply] at hq
    split_ifs at hq with hqp
    · exact h.busy p z (hzone ▸ hq)
    · exact h.busy q z hq
  alone q r z hq hr := by
    have hsame : ∀ q, ((Function.update pc p pc') q).zone sb = (pc q).zone sb := fun q => by
      rw [Function.update_apply]
      split_ifs with hqp
      · rw [hqp, hzone]
      · rfl
    rw [hsame] at hq hr
    exact h.alone q r z hq hr
  new q x hq := by
    rw [Function.update_apply] at hq
    split_ifs at hq with hqp
    · exact h.new p x (hnew ▸ hq)
    · exact h.new q x hq
  freeing q z hq := by
    rw [Function.update_apply] at hq
    split_ifs at hq with hqp
    · exact absurd hq (hfree z)
    · exact h.freeing q z hq
  owned := h.owned
  first := h.first

/-- A bit is set, and its zone is out of range. -/
theorem waste (h : Zones sb pc zmap log) : Zones sb pc (zmap.set x true) log where
  busy q z hq := ⟨(h.busy q z hq).1, Bitmap.get_mono (h.busy q z hq).2⟩
  alone := h.alone
  new := h.new
  freeing := h.freeing
  owned z y hy := ⟨(h.owned z y hy).1, Bitmap.get_mono (h.owned z y hy).2.1, (h.owned z y hy).2.2⟩
  first := Bitmap.first_set h.first (.inl rfl)

/-- A clear bit is set, and the process has its zone in its hands. -/
theorem take (h : Zones sb pc zmap log) (hx : zmap.firstClear = some x)
    (hlt : sb.zone x < sb.nzones) :
    Zones sb (Function.update pc p (.getblk x)) (zmap.set x true) log := by
  obtain ⟨bits, hbits, hclear, hlt'⟩ := Bitmap.of_firstClear hx
  obtain ⟨hle, hplace⟩ := sb.place_zone hlt' (Bitmap.firstClear_ne hx h.first)
  have hget : zmap.get (sb.place (sb.zone x)) = false := by
    rw [hplace, Bitmap.get, hbits]
    exact hclear
  obtain ⟨hnone, hnobody⟩ := h.free_of_clear hget
  have hw := h.waste (x := x)
  refine ⟨fun q z hq => ?_, fun q r z hq hr => ?_, fun q y hq => ?_, fun q z hq => ?_, hw.owned,
    hw.first⟩
  · rw [Function.update_apply] at hq
    split_ifs at hq with hqp
    · rw [← Option.some.inj hq, hplace]
      exact ⟨⟨hle, hlt⟩, Bitmap.get_set_self (by rw [hbits]; exact Option.some_ne_none bits)⟩
    · exact hw.busy q z hq
  · rw [Function.update_apply] at hq hr
    split_ifs at hq hr with hqp hrp hrp
    · rw [hqp, hrp]
    · exact absurd ((Option.some.inj hq).symm ▸ hr) (hnobody r)
    · exact absurd ((Option.some.inj hr).symm ▸ hq) (hnobody q)
    · exact h.alone q r z hq hr
  · rw [Function.update_apply] at hq
    split_ifs at hq with hqp
    · rw [← Option.some.inj hq]
      exact ⟨hnone, hplace⟩
    · exact h.new q y hq
  · rw [Function.update_apply] at hq
    split_ifs at hq with hqp
    exact h.freeing q z hq

/-- `new_block` returns the zone. -/
theorem give (h : Zones sb pc zmap log) (hpc : pc p = .brelse x) :
    Zones sb (Function.update pc p .idle) zmap (.block p (sb.zone x) x :: log) := by
  have hzone : (pc p).zone sb = some (sb.zone x) := by rw [hpc]; rfl
  have hplace := (h.new p x (by rw [hpc]; rfl)).2
  have hold {q : Fin n} {z : ℕ} (hq : ((Function.update pc p .idle) q).zone sb = some z) :
      (pc q).zone sb = some z ∧ q ≠ p := by
    rw [Function.update_apply] at hq
    split_ifs at hq with hqp
    · cases hq
    · exact ⟨hq, hqp⟩
  have hne {q : Fin n} {z : ℕ} (hq : ((Function.update pc p .idle) q).zone sb = some z) :
      z ≠ sb.zone x := fun hz =>
    (hold hq).2 (h.alone q p z (hold hq).1 (hz ▸ hzone))
  refine ⟨fun q z hq => h.busy q z (hold hq).1,
    fun q r z hq hr => h.alone q r z (hold hq).1 (hold hr).1, fun q y hq => ?_, fun q z hq => ?_,
    fun z y hy => ?_, h.first⟩
  · have hz : ((Function.update pc p .idle) q).zone sb = some (sb.zone y) := by
      generalize (Function.update pc p .idle) q = pc₀ at hq
      cases pc₀ <;> cases hq <;> rfl
    rw [Function.update_of_ne (hold hz).2] at hq
    refine ⟨?_, (h.new q y hq).2⟩
    rw [bitOf, if_neg (hne hz)]
    exact (h.new q y hq).1
  · have hz : ((Function.update pc p .idle) q).zone sb = some z := by rw [hq]; rfl
    rw [Function.update_of_ne (hold hz).2] at hq
    rw [bitOf, if_neg (hne hz)]
    exact h.freeing q z hq
  · rw [bitOf] at hy
    split_ifs at hy with hz
    · rw [← Option.some.inj hy, hz, hplace]
      have hbusy := h.busy p _ hzone
      rw [hplace] at hbusy
      exact ⟨hbusy.1, hbusy.2, rfl⟩
    · exact h.owned z y hy

/-- `free_block` begins with a zone that is owned. -/
theorem begin (h : Zones sb pc zmap log) (hz : bitOf z log ≠ none) (hfree : ∀ q, pc q ≠ .free z) :
    Zones sb (Function.update pc p (.free z)) zmap log := by
  have hnobody : ∀ q, (pc q).zone sb ≠ some z := fun q hq => by
    have hnew := h.new q
    cases hpc : pc q with
    | idle | emptyInode => rw [hpc] at hq; cases hq
    | getblk x | brelse x =>
      rw [hpc] at hq hnew
      exact hz (Option.some.inj hq ▸ (hnew x rfl).1)
    | free z' =>
      rw [hpc] at hq
      exact hfree q (Option.some.inj hq ▸ hpc)
  obtain ⟨x, hx⟩ := Option.ne_none_iff_exists'.mp hz
  refine ⟨fun q z' hq => ?_, fun q r z' hq hr => ?_, fun q y hq => ?_, fun q z' hq => ?_, h.owned,
    h.first⟩
  · rw [Function.update_apply] at hq
    split_ifs at hq with hqp
    · rw [← Option.some.inj hq]
      exact ⟨(h.owned z x hx).1, (h.owned z x hx).2.1⟩
    · exact h.busy q z' hq
  · rw [Function.update_apply] at hq hr
    split_ifs at hq hr with hqp hrp hrp
    · rw [hqp, hrp]
    · exact absurd ((Option.some.inj hq).symm ▸ hr) (hnobody r)
    · exact absurd ((Option.some.inj hr).symm ▸ hq) (hnobody q)
    · exact h.alone q r z' hq hr
  · rw [Function.update_apply] at hq
    split_ifs at hq with hqp
    · cases hq
    · exact h.new q y hq
  · rw [Function.update_apply] at hq
    split_ifs at hq with hqp
    · exact Pc.free.inj hq ▸ hz
    · exact h.freeing q z' hq

/-- `free_block` clears the bit. -/
theorem clear (h : Zones sb pc zmap log) (hpc : pc p = .free z) :
    Zones sb (Function.update pc p .idle) (zmap.set (sb.place z) false) (.freed p z :: log) := by
  have hzone : (pc p).zone sb = some z := by rw [hpc]; rfl
  have hplace {z' : ℕ} (hz' : sb.IsZone z') (hne : z' ≠ z) : sb.place z' ≠ sb.place z := fun hc =>
    hne (Super.place_inj hz' (h.busy p z hzone).1 hc)
  have hold {q : Fin n} {z' : ℕ} (hq : ((Function.update pc p .idle) q).zone sb = some z') :
      (pc q).zone sb = some z' ∧ q ≠ p ∧ z' ≠ z := by
    rw [Function.update_apply] at hq
    split_ifs at hq with hqp
    · cases hq
    · exact ⟨hq, hqp, fun hz => hqp (h.alone q p z (hz ▸ hq) hzone)⟩
  refine ⟨fun q z' hq => ?_, fun q r z' hq hr => h.alone q r z' (hold hq).1 (hold hr).1,
    fun q y hq => ?_, fun q z' hq => ?_, fun z' y hy => ?_,
    Bitmap.first_set h.first (.inr (Super.place_ne_zero (h.busy p z hzone).1))⟩
  · obtain ⟨hq, -, hne⟩ := hold hq
    have hbusy := h.busy q z' hq
    rw [Bitmap.get_set_of_ne (hplace hbusy.1 hne)]
    exact hbusy
  · have hz : ((Function.update pc p .idle) q).zone sb = some (sb.zone y) := by
      generalize (Function.update pc p .idle) q = pc₀ at hq
      cases pc₀ <;> cases hq <;> rfl
    rw [Function.update_of_ne (hold hz).2.1] at hq
    refine ⟨?_, (h.new q y hq).2⟩
    rw [bitOf, if_neg (hold hz).2.2]
    exact (h.new q y hq).1
  · have hz : ((Function.update pc p .idle) q).zone sb = some z' := by rw [hq]; rfl
    rw [Function.update_of_ne (hold hz).2.1] at hq
    rw [bitOf, if_neg (hold hz).2.2]
    exact h.freeing q z' hq
  · rw [bitOf] at hy
    split_ifs at hy with hz
    have howned := h.owned z' y hy
    rw [Bitmap.get_set_of_ne (hplace howned.1 hz)]
    exact howned

/-- The zones are as they were when the log has the same zones. -/
theorem congr {log' : List (Output n)} (h : Zones sb pc zmap log)
    (hlog : ∀ z, bitOf z log' = bitOf z log) : Zones sb pc zmap log' where
  busy := h.busy
  alone := h.alone
  new p x hp := by rw [hlog]; exact h.new p x hp
  freeing p z hp := by rw [hlog]; exact h.freeing p z hp
  owned z x hz := h.owned z x (hlog z ▸ hz)
  first := h.first

end Zones

/-! ### Inodes -/

namespace Inodes

variable {imap : Bitmap} {log : List (Output n)} {p : Fin n} {x : Bit} {num : ℕ}

theorem congr {log' : List (Output n)} (h : Inodes sb imap log)
    (hlog : ∀ num, inodeTaken num log' = inodeTaken num log) : Inodes sb imap log' where
  taken num hnum := h.taken num (hlog num ▸ hnum)
  first := h.first

/-- The number of a new inode is in range and not in use. -/
theorem fresh (h : Inodes sb imap log) (hx : imap.firstClear = some x) :
    1 ≤ x.2 + x.1 * 8192 ∧ inodeTaken (x.2 + x.1 * 8192) log = false := by
  obtain ⟨bits, hbits, hclear, hlt⟩ := Bitmap.of_firstClear hx
  refine ⟨?_, Bool.eq_false_iff.mpr fun htaken => ?_⟩
  · by_contra hc
    refine Bitmap.firstClear_ne hx h.first (Prod.ext (Fin.ext ?_) ?_)
    · change (x.1 : ℕ) = 0
      omega
    · change x.2 = 0
      omega
  · have hget := (h.taken _ htaken).2
    rw [bitAt_of_bit hlt, Bitmap.get, hbits] at hget
    exact absurd hget (by simp [hclear])

/-- `new_inode` sets the bit and returns the inode. -/
theorem take (h : Inodes sb imap log) (hx : imap.firstClear = some x)
    (hle : x.2 + x.1 * 8192 ≤ sb.ninodes) :
    Inodes sb (imap.set x true) (.inode p (x.2 + x.1 * 8192) :: log) where
  taken num hnum := by
    obtain ⟨bits, hbits, -, hlt⟩ := Bitmap.of_firstClear hx
    rcases (Bool.or_eq_true _ _).mp hnum with heq | hold
    · rw [of_decide_eq_true heq, bitAt_of_bit hlt]
      exact ⟨hle, Bitmap.get_set_self (by rw [hbits]; nofun)⟩
    · exact ⟨(h.taken num hold).1, Bitmap.get_mono (h.taken num hold).2⟩
  first := Bitmap.first_set h.first (.inl rfl)

/-- `free_inode` clears the bit. -/
theorem clear (h : Inodes sb imap log) (hpos : 1 ≤ num) (hle : num ≤ sb.ninodes) :
    Inodes sb (imap.set (bitAt num) false) (.freedInode p num :: log) where
  taken num' hnum' := by
    have hlt := sb.ninodes_lt
    obtain ⟨hne, hold⟩ := (Bool.and_eq_true _ _).mp hnum'
    obtain ⟨hle', hget⟩ := h.taken num' hold
    rw [Bitmap.get_set_of_ne fun hc =>
      of_decide_eq_true hne (bitAt_inj (by omega) (by omega) hc)]
    exact ⟨hle', hget⟩
  first := Bitmap.first_set h.first (.inr fun hc => by
    have hlt := sb.ninodes_lt
    have hzero := bitAt_inj (by omega) (by omega : 0 < 65536) hc
    omega)

end Inodes

/-! ### Buffers -/

section Cache

variable {c c' : BufferCache.State D N n} {p q : Fin n} {pc : Pc} {z : ℕ} {b : Fin N}

/-- The position in the buffer cache is in a `brelse` of the buffer of a zone. -/
def Releases (sb : Super) (label : Fin N → Label) (z : ℕ) (pc : BufferCache.Pc N) : Prop :=
  ∃ b, pc = .brelse b none ∧ label b = sb.label z

/-- What a process does in the buffer cache. Besides the buffer that it has got, it holds none of a
zone. -/
def Pc.Doing (sb : Super) (label : Fin N → Label) (pr : BufferCache.Proc N) : Pc → Prop
  | .idle | .emptyInode => pr.pc = .idle ∧ ∀ y ∈ pr.held, sb.Plain y.1
  | .getblk x =>
    pr.pc.goal = some (sb.label (sb.zone x), .get false) ∧ (∀ y ∈ pr.held, sb.Plain y.1) ∨
      pr.pc = .idle ∧ ∃ b held, pr.held = (sb.label (sb.zone x), b) :: held ∧
        ∀ y ∈ held, sb.Plain y.1
  | .brelse x =>
    (pr.pc = .idle ∨ Releases sb label (sb.zone x) pr.pc) ∧ ∀ y ∈ pr.held, sb.Plain y.1
  | .free z =>
    (pr.pc = .idle ∨ pr.pc.goal = some (sb.label z, .free) ∨ Releases sb label z pr.pc) ∧
      ∀ y ∈ pr.held, sb.Plain y.1

/-- Only the labels of the buffers that the process refers to matter. -/
theorem Pc.Doing.congr {label label' : Fin N → Label} {pr : BufferCache.Proc N}
    (h : pc.Doing sb label pr) (hl : ∀ b ∈ pr.refs, label' b = label b) :
    pc.Doing sb label' pr := by
  have hreleases {z : ℕ} (hr : Releases sb label z pr.pc) : Releases sb label' z pr.pc := by
    obtain ⟨b, hb, hlabel⟩ := hr
    exact ⟨b, hb, (hl b (by simp [BufferCache.Proc.refs, hb, BufferCache.Pc.ref])).trans hlabel⟩
  cases pc with
  | idle | emptyInode | getblk x => exact h
  | brelse x => exact ⟨h.1.imp_right hreleases, h.2⟩
  | free z => exact ⟨h.1.imp_right (Or.imp_right hreleases), h.2⟩

/-- The buffer that a process waits for has the label that it looks for. -/
theorem label_of_goal {label : Fin N → Label} {pr : BufferCache.Proc N} {l : Label}
    {u : BufferCache.Use} (hl : pr.pc.Labelled label) (hg : pr.pc.goal = some (l, u))
    (href : pr.pc.ref = some b) (hr : pr.pc.recycles ≠ some b) : label b = l := by
  generalize pr.pc = pc at hl hg href hr
  cases pc with
  | hashWait b' l' u' | readWait b' l' =>
    rw [← Option.some.inj href, ← (Prod.mk.inj (Option.some.inj hg)).1]
    exact hl
  | brelse b' r =>
    obtain rfl : r = none := hl
    cases hg
  | sync r | syncWait r | syncWrite r =>
    cases r with
    | none => cases href
    | some r => exact absurd href hr
  | relabel r => exact absurd href hr
  | idle | find | scan | freeWait | noFree => cases href

/-- Plain labels are not those of the buffers of zones. -/
theorem not_mem_plain {label : Fin N → Label} {held : List (Label × Fin N)}
    (hheld : ∀ y ∈ held, sb.Plain y.1) (hl : ∀ y ∈ held, label y.2 = y.1) (hz : sb.IsZone z)
    (hlabel : label b = sb.label z) : b ∉ held.map Prod.snd := fun hmem => by
  obtain ⟨y, hy, rfl⟩ := List.mem_map.mp hmem
  exact hheld y hy z hz ((hl y hy).symm.trans hlabel)

/-- A process that refers to the buffer of a zone, and does not recycle it, has the zone in its
hands. -/
theorem Pc.Doing.zone_of_mem {label : Fin N → Label} {pr : BufferCache.Proc N}
    (h : pc.Doing sb label pr) (hl : pr.Labelled label) (hb : b ∈ pr.refs)
    (hr : pr.pc.recycles ≠ some b) (hz : sb.IsZone z) (hlabel : label b = sb.label z) :
    pc.zone sb = some z := by
  have hsame {z' : ℕ} (h' : label b = sb.label z') : z' = z :=
    (Label.mk.inj (h'.symm.trans hlabel)).2
  have hreleases {z' : ℕ} (h' : Releases sb label z' pr.pc) (href : pr.pc.ref = some b) :
      z' = z := by
    obtain ⟨b', hpc, hb'⟩ := h'
    rw [hpc] at href
    exact hsame (Option.some.inj href ▸ hb')
  rcases List.mem_append.mp hb with href | hheld
  · have href : pr.pc.ref = some b := Option.mem_toList.mp href
    cases pc with
    | idle | emptyInode =>
      rw [h.1] at href
      cases href
    | getblk x =>
      rcases h with ⟨hg, -⟩ | ⟨hidle, -⟩
      · exact congrArg some (hsame (label_of_goal hl.pc hg href hr))
      · rw [hidle] at href
        cases href
    | brelse x =>
      rcases h.1 with hidle | hrel
      · rw [hidle] at href
        cases href
      · exact congrArg some (hreleases hrel href)
    | free z' =>
      rcases h.1 with hidle | hg | hrel
      · rw [hidle] at href
        cases href
      · exact congrArg some (hsame (label_of_goal hl.pc hg href hr))
      · exact congrArg some (hreleases hrel href)
  · cases pc with
    | idle | emptyInode | brelse x | free z' =>
      exact absurd hheld (not_mem_plain h.2 hl.held hz hlabel)
    | getblk x =>
      rcases h with ⟨-, hbase⟩ | ⟨-, b', held, heq, hbase⟩
      · exact absurd hheld (not_mem_plain hbase hl.held hz hlabel)
      · rw [heq, List.map_cons] at hheld
        rcases List.mem_cons.mp hheld with rfl | hheld
        · refine congrArg some (hsame (hl.held (sb.label (sb.zone x), b) ?_))
          rw [heq]
          exact List.mem_cons_self
        · refine absurd hheld (not_mem_plain hbase (fun y hy => hl.held y ?_) hz hlabel)
          rw [heq]
          exact List.mem_cons_of_mem _ hy

end Cache

/-! ### The invariant -/

/-- What holds in every state. -/
structure Inv (sb : Super) (s : State D N n) : Prop where
  cache : Exact s.cache
  doing : ∀ p, (s.pc p).Doing sb s.cache.labels (s.cache.proc p)
  zones : Zones sb s.pc s.zmap s.log
  inodes : Inodes sb s.imap s.log

namespace Inv

variable {s s' : State D N n} {p q : Fin n} {b : Fin N} {z : ℕ} {x : Bit}

/-- No other process refers to the buffer of a zone that a process has in its hands. -/
theorem not_mem_refs (h : Inv sb s) (hzone : (s.pc p).zone sb = some z)
    (hlabel : s.cache.labels b = sb.label z) (hout : ¬ s.cache.out b) (hne : q ≠ p) :
    b ∉ (s.cache.proc q).refs := fun hmem =>
  hne (h.zones.alone q p z ((h.doing q).zone_of_mem (h.cache.labelled q) hmem
    (fun hr => hout ⟨q, hr⟩) (h.zones.busy p z hzone).1 hlabel) hzone)

/-- A process that does not recycle the buffer that it refers to finds it in the queues. -/
theorem not_out (h : Inv sb s) (hb : b ∈ (s.cache.proc p).refs)
    (hr : (s.cache.proc p).pc.recycles = none) : ¬ s.cache.out b := by
  rintro ⟨q, hq⟩
  by_cases hne : p = q
  · rw [← hne, hr] at hq
    cases hq
  · exact h.cache.inv.not_mem_refs hq hne hb

/-- The buffer that `getblk` returns to `new_block` has one reference. -/
theorem count_getblk (h : Inv sb s) (hpc : s.pc p = .getblk x)
    (hidle : (s.cache.proc p).pc = .idle) :
    ∃ b held, (s.cache.proc p).held = (sb.label (sb.zone x), b) :: held ∧
      (s.cache.buf b).count = 1 ∧ ∀ y ∈ held, sb.Plain y.1 := by
  have hzone : (s.pc p).zone sb = some (sb.zone x) := by rw [hpc]; rfl
  have hdoing := h.doing p
  rw [hpc] at hdoing
  rcases hdoing with ⟨hg, -⟩ | ⟨-, b, held, hheld, hplain⟩
  · rw [hidle] at hg
    cases hg
  have hl := (h.cache.labelled p).held
  rw [hheld] at hl
  have hlabel : s.cache.labels b = sb.label (sb.zone x) := hl _ List.mem_cons_self
  have hrefs : (s.cache.proc p).refs = b :: held.map Prod.snd := by
    rw [BufferCache.Proc.refs, hidle, hheld]
    rfl
  have hout := h.not_out (p := p) (b := b) (by rw [hrefs]; exact List.mem_cons_self)
    (by rw [hidle]; rfl)
  refine ⟨b, held, hheld, h.cache.count_eq_one (p := p) ?_ fun q hne =>
    h.not_mem_refs hzone hlabel hout hne, hplain⟩
  rw [hrefs, List.count_cons_self, List.count_eq_zero.mpr]
  exact not_mem_plain hplain (fun y hy => hl y (List.mem_cons_of_mem _ hy))
    (h.zones.busy p _ hzone).1 hlabel

/-- `free_block` finds the buffer of the zone with one reference. -/
theorem count_free (h : Inv sb s) (hpc : s.pc p = .free z) {l : Label}
    (hwait : (s.cache.proc p).pc = .hashWait b l .free) : (s.cache.buf b).count = 1 := by
  have hzone : (s.pc p).zone sb = some z := by rw [hpc]; rfl
  have hdoing := h.doing p
  rw [hpc] at hdoing
  obtain ⟨hidle | hg | ⟨b', hrel, -⟩, hplain⟩ := hdoing
  · rw [hwait] at hidle
    cases hidle
  · have hlabelled := h.cache.labelled p
    have hpcl := hlabelled.pc
    rw [hwait] at hg hpcl
    obtain rfl := (Prod.mk.inj (Option.some.inj hg)).1
    have hrefs : (s.cache.proc p).refs = b :: (s.cache.proc p).held.map Prod.snd := by
      rw [BufferCache.Proc.refs, hwait]
      rfl
    have hout := h.not_out (p := p) (b := b) (by rw [hrefs]; exact List.mem_cons_self)
      (by rw [hwait]; rfl)
    refine h.cache.count_eq_one (p := p) ?_ fun q hne => h.not_mem_refs hzone hpcl hout hne
    rw [hrefs, List.count_cons_self, List.count_eq_zero.mpr]
    exact not_mem_plain hplain hlabelled.held (h.zones.busy p _ hzone).1 hpcl
  · rw [hwait] at hrel
    cases hrel

/-- A buffer that is found has no reference yet. -/
theorem noWrap (h : Inv sb s) (hzone : (s.pc p).zone sb = some z) {u : BufferCache.Use}
    (hg : (s.cache.proc p).pc.goal = some (sb.label z, u))
    (hplain : ∀ y ∈ (s.cache.proc p).held, sb.Plain y.1) : s.cache.NoWrap (.run p) := by
  intro p' hp' b hb
  obtain rfl := Option.some.inj hp'
  have hout := h.cache.inv.not_out_of_hit hb
  cases hpc : (s.cache.proc p).pc with
  | find l u' =>
    rw [hpc] at hg
    obtain rfl := (Prod.mk.inj (Option.some.inj hg)).1
    simp only [BufferCache.State.hits, hpc] at hb
    have hlabel := (h.cache.inv.hashed.find_eq_some hb).2.1
    rw [h.cache.count_eq_zero fun q => ?_]
    · exact Nat.succ_pos _
    by_cases hne : q = p
    · rw [hne, BufferCache.Proc.refs, hpc]
      exact not_mem_plain hplain (h.cache.labelled p).held (h.zones.busy p _ hzone).1 hlabel
    · exact h.not_mem_refs hzone hlabel hout hne
  | _ => simp [BufferCache.State.hits, hpc] at hb

variable {c : BufferCache.State D N n}

/-- The processes that do not take the step do what they have done. -/
theorem doing_other (h : Inv sb s) {e : BufferCache.Event D N n} (hnext : s.cache.next e = some c)
    (hq : e.proc ≠ some q) : (s.pc q).Doing sb c.labels (c.proc q) := by
  obtain ⟨hproc, hlabels⟩ := BufferCache.State.next_other h.cache.inv hnext hq
  rw [hproc]
  exact (h.doing q).congr hlabels

/-- A process releases the buffer of a zone. -/
theorem run_release (h : Inv sb s) (hnext : s.cache.next (.run p) = some c)
    (hrel : Releases sb s.cache.labels z (s.cache.proc p).pc) :
    Exact c ∧ c.proc p = ⟨.idle, (s.cache.proc p).held⟩ := by
  obtain ⟨b, hpc, -⟩ := hrel
  refine ⟨h.cache.step (fun p' hp' b' hb' => ?_) (fun p' hp' b' l hpc' => ?_) hnext,
    BufferCache.State.next_put h.cache.inv hnext hpc⟩
  · obtain rfl := Option.some.inj hp'
    simp [BufferCache.State.hits, hpc] at hb'
  · obtain rfl := BufferCache.Event.run.inj hp'
    rw [hpc] at hpc'
    cases hpc'

/-- A process looks for the buffer of a zone. -/
theorem run_search (h : Inv sb s) (hnext : s.cache.next (.run p) = some c)
    (hzone : (s.pc p).zone sb = some z) {u : BufferCache.Use}
    (hg : (s.cache.proc p).pc.goal = some (sb.label z, u)) (hu : u = .free → s.pc p = .free z)
    (hplain : ∀ y ∈ (s.cache.proc p).held, sb.Plain y.1) :
    Exact c ∧ BufferCache.Served (s.cache.proc p).held c.labels (sb.label z) u (c.proc p) := by
  refine ⟨h.cache.step (h.noWrap hzone hg hplain) (fun p' hp' b l hpc _ => ?_) hnext,
    BufferCache.State.next_served h.cache.inv (h.cache.labelled p) hnext hg⟩
  obtain rfl := BufferCache.Event.run.inj hp'
  rw [hpc] at hg
  exact h.count_free (hu (Prod.mk.inj (Option.some.inj hg)).2.symm) hpc

/-- A process goes on in the buffer cache. -/
theorem run_cache (h : Inv sb s) (hnext : s.cache.next (.run p) = some c)
    (hbusy : (s.cache.proc p).pc ≠ .idle) : Inv sb { s with cache := c } := by
  have hdoing := h.doing p
  obtain ⟨hexact, hself⟩ : Exact c ∧ (s.pc p).Doing sb c.labels (c.proc p) := by
    cases hpc : s.pc p with
    | idle | emptyInode =>
      rw [hpc] at hdoing
      exact absurd hdoing.1 hbusy
    | getblk x =>
      rw [hpc] at hdoing
      obtain ⟨hg, hplain⟩ := hdoing.resolve_right fun hc => hbusy hc.1
      obtain ⟨hexact, hserved⟩ := h.run_search hnext (by rw [hpc]; rfl) hg nofun hplain
      refine ⟨hexact, ?_⟩
      generalize c.proc p = pr at hserved
      cases hserved with
      | going hg => exact .inl ⟨hg, hplain⟩
      | missed hu => exact absurd rfl (hu false)
      | got => exact .inr ⟨rfl, _, _, rfl, hplain⟩
      | dropped hu => exact absurd rfl hu
    | brelse x =>
      rw [hpc] at hdoing
      obtain ⟨hexact, hproc⟩ := h.run_release hnext (hdoing.1.resolve_left hbusy)
      rw [hproc]
      exact ⟨hexact, .inl rfl, hdoing.2⟩
    | free z =>
      rw [hpc] at hdoing
      rcases hdoing.1.resolve_left hbusy with hg | hrel
      · obtain ⟨hexact, hserved⟩ :=
          h.run_search hnext (by rw [hpc]; rfl) hg (fun _ => hpc) hdoing.2
        refine ⟨hexact, ?_⟩
        generalize c.proc p = pr at hserved
        cases hserved with
        | going hg => exact ⟨.inr (.inl hg), hdoing.2⟩
        | missed => exact ⟨.inl rfl, hdoing.2⟩
        | got hu => exact absurd rfl hu
        | dropped hu hl => exact ⟨.inr (.inr ⟨_, rfl, hl⟩), hdoing.2⟩
      · obtain ⟨hexact, hproc⟩ := h.run_release hnext hrel
        rw [hproc]
        exact ⟨hexact, .inl rfl, hdoing.2⟩
  refine ⟨hexact, fun q => ?_, h.zones, h.inodes⟩
  by_cases hne : q = p
  · rw [hne]
    exact hself
  · exact h.doing_other hnext fun hc => hne (Option.some.inj hc).symm

/-- A step of the disk. -/
theorem disk_cache (h : Inv sb s) {e : BufferCache.Event D N n} (hnext : s.cache.next e = some c)
    (he : e.proc = none) : Inv sb { s with cache := c } where
  cache := h.cache.step (fun p hp => by rw [he] at hp; cases hp)
    (fun p hp => by rw [hp] at he; cases he) hnext
  doing q := h.doing_other hnext (by rw [he]; nofun)
  zones := h.zones
  inodes := h.inodes

/-- A process that is in no call of the buffer cache takes a step there. -/
theorem exact_idle (h : Inv sb s) {e : BufferCache.Event D N n} (hnext : s.cache.next e = some c)
    (he : ∀ p, e ≠ .run p) (hp : e.proc = some p) (hidle : (s.cache.proc p).pc = .idle) :
    Exact c := by
  refine h.cache.step (fun p' hp' b hb => ?_) (fun p hp' => absurd hp' (he p)) hnext
  obtain rfl := Option.some.inj (hp.symm.trans hp')
  simp [BufferCache.State.hits, hidle] at hb

end Inv

/-! ### Steps -/

/-- What holds of a call that ends with the step from `s` to `s'`. -/
def Output.Allowed (sb : Super) (s s' : State D N n) : Output n → Prop
  | .block _ z x => sb.IsZone z ∧ bitOf z s.log = none ∧ s.zmap.get x = true
  | .freed _ z => ∃ x, bitOf z s.log = some x ∧ s.zmap.get x = true ∧ s'.zmap = s.zmap.set x false
  | .kept _ _ => False
  | .inode _ num => 1 ≤ num ∧ num ≤ sb.ninodes ∧ inodeTaken num s.log = false
  | .freedInode _ _ => True

/-- What holds of the step from `s` to `s'`: the invariant is kept, at most one call ends, and a
process that enters `getblk` has set a clear bit. -/
structure Sound (sb : Super) (s s' : State D N n) : Prop where
  inv : Inv sb s'
  log : s'.log = s.log ∨ ∃ o, s'.log = o :: s.log ∧ o.Allowed sb s s'
  bit : ∀ p x, s'.pc p = .getblk x →
    s.pc p = .getblk x ∨ s.zmap.get x = false ∧ s'.zmap = s.zmap.set x true

namespace Inv

variable {s s' : State D N n} {p q : Fin n} {b : Fin N} {z : ℕ} {x : Bit}

/-- Nothing has changed but the buffer cache. -/
theorem sound_cache {c : BufferCache.State D N n} (h : Inv sb { s with cache := c }) :
    Sound sb s { s with cache := c } := ⟨h, .inl rfl, fun _ _ => .inl⟩

/-- No process enters `getblk`. -/
theorem bit_setPc {pc : Pc} (hpc : ∀ x, pc ≠ .getblk x) (q : Fin n) (x : Bit)
    (hq : Function.update s.pc p pc q = .getblk x) : s.pc q = .getblk x := by
  rw [Function.update_apply] at hq
  split_ifs at hq with hqp
  · exact absurd hq (hpc x)
  · exact hq

/-- The processes do what they have done, or the one that has moved does what it should. -/
theorem doing_setPc {label : Fin N → Label} {proc : Fin n → BufferCache.Proc N} {pc' : Pc}
    (hself : pc'.Doing sb label (proc p))
    (hother : ∀ q ≠ p, (s.pc q).Doing sb label (proc q)) (q : Fin n) :
    (Function.update s.pc p pc' q).Doing sb label (proc q) := by
  rw [Function.update_apply]
  split_ifs with hqp
  · rw [hqp]
    exact hself
  · exact hother q hqp

/-- A process is outside of the functions again. -/
theorem doing_idle (h : Inv sb s) (hidle : (s.cache.proc p).pc = .idle)
    (hplain : ∀ y ∈ (s.cache.proc p).held, sb.Plain y.1) (q : Fin n) :
    (Function.update s.pc p .idle q).Doing sb s.cache.labels (s.cache.proc q) := by
  refine doing_setPc ?_ (fun q _ => h.doing q) q
  exact ⟨hidle, hplain⟩

theorem newBlock (h : Inv sb s) (hpc : s.pc p = .idle) (hs : s.newBlock sb p = some s') :
    Sound sb s s' ∧ s'.panic = s.panic := by
  have hdoing := h.doing p
  rw [hpc] at hdoing
  unfold State.newBlock at hs
  cases hx : s.zmap.firstClear with
  | none =>
    rw [hx] at hs
    rw [← Option.some.inj hs]
    exact ⟨⟨h, .inl rfl, fun _ _ => .inl⟩, rfl⟩
  | some x =>
    rw [hx] at hs
    dsimp only at hs
    split_ifs at hs with hrange
    · rw [← Option.some.inj hs]
      exact ⟨⟨⟨h.cache, h.doing, h.zones.waste, h.inodes⟩, .inl rfl, fun _ _ => .inl⟩, rfl⟩
    · obtain ⟨s₁, hs₁, rfl⟩ := Option.map_eq_some_iff.mp hs
      obtain ⟨c, hc, rfl⟩ := Option.map_eq_some_iff.mp hs₁
      have hproc := BufferCache.State.next_call hc
      have hexact := h.exact_idle hc nofun rfl hdoing.1
      refine ⟨⟨⟨hexact, doing_setPc ?_ fun q hne =>
        h.doing_other hc fun hq => hne (Option.some.inj hq).symm,
          h.zones.take hx (not_le.mp hrange), h.inodes⟩, .inl rfl, fun q y hq => ?_⟩, rfl⟩
      · change Pc.Doing sb c.labels (c.proc p) (.getblk x)
        rw [hproc]
        exact .inl ⟨rfl, hdoing.2⟩
      · obtain ⟨bits, hbits, hclear, -⟩ := Bitmap.of_firstClear hx
        dsimp only [State.setPc] at hq
        rw [Function.update_apply] at hq
        split_ifs at hq with hqp
        · rw [← Pc.getblk.inj hq]
          refine .inr ⟨?_, rfl⟩
          rw [Bitmap.get, hbits]
          exact hclear
        · exact .inl hq

theorem clearBlock [Zero D] (h : Inv sb s) (hpc : s.pc p = .getblk x)
    (hidle : (s.cache.proc p).pc = .idle) (hs : s.clearBlock p x = some s') :
    Sound sb s s' ∧ s'.panic = s.panic := by
  obtain ⟨b, held, hheld, hcount, hplain⟩ := h.count_getblk hpc hidle
  unfold State.clearBlock at hs
  rw [hheld] at hs
  dsimp only at hs
  rw [if_neg (not_not.mpr hcount)] at hs
  obtain ⟨s₂, hs₂, rfl⟩ := Option.map_eq_some_iff.mp hs
  obtain ⟨s₁, hs₁, hs₂⟩ := Option.bind_eq_some_iff.mp hs₂
  obtain ⟨c₁, hc₁, rfl⟩ := Option.map_eq_some_iff.mp hs₁
  obtain ⟨c₂, hc₂, rfl⟩ := Option.map_eq_some_iff.mp hs₂
  obtain ⟨hproc₁, hlabels₁⟩ := BufferCache.State.next_fill hc₁
  have h₁ : Inv sb { s with cache := c₁ } := by
    refine ⟨h.exact_idle hc₁ nofun rfl hidle, fun q => ?_, h.zones, h.inodes⟩
    dsimp only
    rw [hproc₁, hlabels₁]
    exact h.doing q
  obtain ⟨y, hy, hproc₂, hlabels₂⟩ := BufferCache.State.next_brelse hc₂
  dsimp only at hy hproc₂ hlabels₂
  rw [hproc₁, hheld] at hy hproc₂
  obtain rfl := Option.some.inj hy
  have hlabel : c₂.labels b = sb.label (sb.zone x) := by
    rw [hlabels₂, hlabels₁]
    refine (h.cache.labelled p).held (sb.label (sb.zone x), b) ?_
    rw [hheld]
    exact List.mem_cons_self
  have hexact := h₁.exact_idle hc₂ nofun rfl (by rw [hproc₁]; exact hidle)
  refine ⟨⟨⟨hexact, doing_setPc ?_ fun q hne =>
    h₁.doing_other hc₂ fun hq => hne (Option.some.inj hq).symm,
      h.zones.setPc (by rw [hpc]; rfl) (by rw [hpc]; rfl) nofun, h.inodes⟩, .inl rfl,
        fun q y hq => .inl (bit_setPc (fun _ h => by cases h) q y hq)⟩, rfl⟩
  change Pc.Doing sb c₂.labels (c₂.proc p) (.brelse x)
  rw [hproc₂]
  exact ⟨.inr ⟨b, rfl, hlabel⟩, hplain⟩

theorem freeBlock (h : Inv sb s) (hpc : s.pc p = .idle) (hz : s.Owned z)
    (hs : s.freeBlock sb p z = some s') : Sound sb s s' ∧ s'.panic = s.panic := by
  have hdoing := h.doing p
  rw [hpc] at hdoing
  obtain ⟨x, hx⟩ := Option.ne_none_iff_exists'.mp hz.1
  obtain ⟨hle, hlt⟩ := (h.zones.owned z x hx).1
  unfold State.freeBlock at hs
  rw [if_neg (by omega)] at hs
  obtain ⟨s₁, hs₁, rfl⟩ := Option.map_eq_some_iff.mp hs
  obtain ⟨c, hc, rfl⟩ := Option.map_eq_some_iff.mp hs₁
  have hproc := BufferCache.State.next_call hc
  have hexact := h.exact_idle hc nofun rfl hdoing.1
  refine ⟨⟨⟨hexact, doing_setPc ?_ fun q hne =>
    h.doing_other hc fun hq => hne (Option.some.inj hq).symm, h.zones.begin hz.1 hz.2, h.inodes⟩,
      .inl rfl, fun q y hq => .inl (bit_setPc (fun _ h => by cases h) q y hq)⟩, rfl⟩
  change Pc.Doing sb c.labels (c.proc p) (.free z)
  rw [hproc]
  exact ⟨.inr (.inl rfl), hdoing.2⟩

theorem clearBit (h : Inv sb s) (hpc : s.pc p = .free z) (hidle : (s.cache.proc p).pc = .idle) :
    Sound sb s (s.clearBit sb p z) ∧ (s.clearBit sb p z).panic = s.panic := by
  have hdoing := h.doing p
  rw [hpc] at hdoing
  have hbusy := h.zones.busy p z (by rw [hpc]; rfl)
  obtain ⟨x, hx⟩ := Option.ne_none_iff_exists'.mp (h.zones.freeing p z hpc)
  obtain ⟨-, hset, rfl⟩ := h.zones.owned z x hx
  rw [State.clearBit, if_pos hset]
  exact ⟨⟨⟨h.cache, h.doing_idle hidle hdoing.2, h.zones.clear hpc, h.inodes.congr fun _ => rfl⟩,
    .inr ⟨_, rfl, _, hx, hset, rfl⟩,
      fun q y hq => .inl (bit_setPc (fun _ h => by cases h) q y hq)⟩, rfl⟩

/-- `new_block` returns. -/
theorem giveBlock (h : Inv sb s) (hpc : s.pc p = .brelse x)
    (hidle : (s.cache.proc p).pc = .idle) :
    Sound sb s (s.finish p (.block p (sb.zone x) x)) := by
  have hdoing := h.doing p
  rw [hpc] at hdoing
  have hbusy := h.zones.busy p (sb.zone x) (by rw [hpc]; rfl)
  obtain ⟨hnone, hplace⟩ := h.zones.new p x (by rw [hpc]; rfl)
  refine ⟨⟨h.cache, h.doing_idle hidle hdoing.2, h.zones.give hpc, h.inodes.congr fun _ => rfl⟩,
    .inr ⟨_, rfl, hbusy.1, hnone, ?_⟩,
      fun q y hq => .inl (bit_setPc (fun _ h => by cases h) q y hq)⟩
  rw [← hplace]
  exact hbusy.2

theorem not_keeps (h : Inv sb s) (hpc : s.pc p = .free z) : s.keeps p = false := by
  unfold State.keeps
  split
  · next b l hwait => simp [h.count_free hpc hwait]
  · rfl

/-- A process goes on from where it is. -/
theorem run [Zero D] (h : Inv sb s) (hs : s.run sb p = some s') :
    Sound sb s s' ∧ s'.panic = s.panic := by
  have hcache {s' : State D N n} (hidle : (s.cache.proc p).pc ≠ .idle)
      (hs : s.onCache (.run p) = some s') : Sound sb s s' ∧ s'.panic = s.panic := by
    obtain ⟨c, hc, rfl⟩ := Option.map_eq_some_iff.mp hs
    exact ⟨sound_cache (h.run_cache hc hidle), rfl⟩
  unfold State.run at hs
  cases hpc : s.pc p with
  | idle | emptyInode => simp [hpc] at hs
  | getblk x =>
    simp only [hpc] at hs
    split_ifs at hs with hidle
    · exact h.clearBlock hpc hidle hs
    · exact hcache hidle hs
  | brelse x =>
    simp only [hpc] at hs
    split_ifs at hs with hidle
    · rw [← Option.some.inj hs]
      exact ⟨h.giveBlock hpc hidle, rfl⟩
    · exact hcache hidle hs
  | free z =>
    simp only [hpc, h.not_keeps hpc, Bool.false_eq_true, if_false] at hs
    split_ifs at hs with hidle
    · rw [← Option.some.inj hs]
      exact h.clearBit hpc hidle
    · exact hcache hidle hs

/-- A process enters `get_empty_inode`, or is outside of the functions. -/
theorem doing_outside (h : Inv sb s) {pc : Pc} (pc' : Pc) (hpc : s.pc p = pc)
    (hout : (pc = .idle ∨ pc = .emptyInode) ∧ (pc' = .idle ∨ pc' = .emptyInode)) :
    Zones sb (Function.update s.pc p pc') s.zmap s.log ∧
      ∀ q, (Function.update s.pc p pc' q).Doing sb s.cache.labels (s.cache.proc q) := by
  have hdoing := h.doing p
  obtain ⟨hpc₀, hpc'⟩ := hout
  rw [hpc] at hdoing
  refine ⟨h.zones.setPc ?_ ?_ ?_, doing_setPc ?_ fun q _ => h.doing q⟩
  · rw [hpc]
    rcases hpc₀ with rfl | rfl <;> rcases hpc' with rfl | rfl <;> rfl
  · rw [hpc]
    rcases hpc₀ with rfl | rfl <;> rcases hpc' with rfl | rfl <;> rfl
  · rcases hpc' with rfl | rfl <;> exact fun _ h => by cases h
  · rcases hpc₀ with rfl | rfl <;> rcases hpc' with rfl | rfl <;> exact hdoing

theorem takeInode (h : Inv sb s) {k : Fin 32} (hpc : s.pc p = .emptyInode) :
    Sound sb s (s.takeInode sb p k) ∧ (s.takeInode sb p k).panic = s.panic := by
  obtain ⟨hzones, hdoing⟩ := h.doing_outside .idle hpc ⟨.inr rfl, .inl rfl⟩
  have hbit {q : Fin n} {y : Bit} (hq : Function.update s.pc p .idle q = .getblk y) :
      s.pc q = .getblk y := bit_setPc (fun _ h => by cases h) q y hq
  unfold State.takeInode
  dsimp only
  cases hx : s.imap.firstClear with
  | none =>
    exact ⟨⟨⟨h.cache, hdoing, hzones, h.inodes⟩, .inl rfl, fun _ _ hq => .inl (hbit hq)⟩, rfl⟩
  | some x =>
    dsimp only
    split_ifs with hrange
    · exact ⟨⟨⟨h.cache, hdoing, hzones, h.inodes⟩, .inl rfl, fun _ _ hq => .inl (hbit hq)⟩, rfl⟩
    · obtain ⟨hpos, hfresh⟩ := h.inodes.fresh hx
      exact ⟨⟨⟨h.cache, hdoing, hzones.congr fun _ => rfl, h.inodes.take hx (not_lt.mp hrange)⟩,
        .inr ⟨_, rfl, hpos, not_lt.mp hrange, hfresh⟩, fun _ _ hq => .inl (hbit hq)⟩, rfl⟩

theorem freeInode (h : Inv sb s) {k : Fin 32} (hpc : s.pc p = .idle) :
    Sound sb s (s.freeInode sb p k) := by
  obtain ⟨hzones, hdoing⟩ := h.doing_outside .idle hpc ⟨.inl rfl, .inl rfl⟩
  have hsame {s' : State D N n} (hcache : s'.cache = s.cache) (hzmap : s'.zmap = s.zmap)
      (himap : s'.imap = s.imap) (hpc : s'.pc = s.pc) (hlog : s'.log = s.log) : Sound sb s s' := by
    refine ⟨⟨?_, fun q => ?_, ?_, ?_⟩, .inl hlog, fun q y hq => .inl (hpc ▸ hq)⟩
    · rw [hcache]
      exact h.cache
    · rw [hcache, hpc]
      exact h.doing q
    · rw [hpc, hzmap, hlog]
      exact h.zones
    · rw [himap, hlog]
      exact h.inodes
  unfold State.freeInode
  dsimp only
  split_ifs with hdev hcount hlinks hrange hmap hset
  · exact hsame rfl rfl rfl rfl rfl
  · exact hsame rfl rfl rfl rfl rfl
  · exact hsame rfl rfl rfl rfl rfl
  · exact hsame rfl rfl rfl rfl rfl
  · exact hsame rfl rfl rfl rfl rfl
  · obtain ⟨hpos, hle⟩ := not_or.mp hrange
    exact ⟨⟨h.cache, hdoing, hzones.congr fun _ => rfl,
      h.inodes.clear (not_lt.mp hpos) (not_lt.mp hle)⟩, .inr ⟨_, rfl, trivial⟩,
        fun q y hq => .inl (bit_setPc (fun _ h => by cases h) q y hq)⟩
  · exact hsame rfl rfl rfl rfl rfl

/-- **Step lemma.** Every step keeps the invariant, and only `free_inode` panics. -/
theorem step [Zero D] (h : Inv sb s) {e : Event N n} (hs : s.next sb e = some s') :
    Sound sb s s' ∧ ((∀ p k, e ≠ .freeInode p k) → s'.panic = none) := by
  unfold State.next at hs
  split_ifs at hs with hpanic
  rw [not_not] at hpanic
  cases e with
  | newBlock p =>
    simp only at hs
    split_ifs at hs with hready
    obtain ⟨hsound, hp⟩ := h.newBlock hready.1 hs
    exact ⟨hsound, fun _ => hp.trans hpanic⟩
  | freeBlock p z =>
    simp only at hs
    split_ifs at hs with hready
    obtain ⟨hsound, hp⟩ := h.freeBlock hready.1.1 hready.2 hs
    exact ⟨hsound, fun _ => hp.trans hpanic⟩
  | newInode p =>
    simp only at hs
    split_ifs at hs with hready
    obtain ⟨hzones, hdoing⟩ := h.doing_outside .emptyInode hready.1 ⟨.inl rfl, .inr rfl⟩
    rw [← Option.some.inj hs]
    exact ⟨⟨⟨h.cache, hdoing, hzones, h.inodes⟩, .inl rfl,
      fun q y hq => .inl (bit_setPc (fun _ h => by cases h) q y hq)⟩, fun _ => hpanic⟩
  | freeInode p k =>
    simp only at hs
    split_ifs at hs with hready
    rw [← Option.some.inj hs]
    exact ⟨h.freeInode hready.1, fun hc => absurd rfl (hc p k)⟩
  | setLinks p k v =>
    simp only at hs
    split_ifs at hs with hready
    rw [← Option.some.inj hs]
    exact ⟨⟨⟨h.cache, h.doing, h.zones, h.inodes⟩, .inl rfl, fun _ _ => .inl⟩, fun _ => hpanic⟩
  | empty p k =>
    simp only at hs
    split_ifs at hs with hready
    rw [← Option.some.inj hs]
    obtain ⟨hsound, hp⟩ := h.takeInode hready.1
    exact ⟨hsound, fun _ => hp.trans hpanic⟩
  | run p =>
    obtain ⟨hsound, hp⟩ := h.run hs
    exact ⟨hsound, fun _ => hp.trans hpanic⟩
  | disk b | intr b =>
    obtain ⟨c, hc, rfl⟩ := Option.map_eq_some_iff.mp hs
    exact ⟨sound_cache (h.disk_cache hc rfl), fun _ => hpanic⟩

theorem initial [NeZero N] (h : s.Initial sb) : Inv sb s := by
  obtain ⟨disk, data, es, hrun⟩ := h.cache
  obtain ⟨hinv, hl⟩ := BufferCache.labelled_of_runs hrun
  refine ⟨⟨hinv, hl, h.counted⟩, fun p => ?_, ⟨fun p z hp => ?_, fun p q z hp => ?_,
    fun p x hp => ?_, fun p z hp => ?_, fun z x hz => ?_, h.zmap⟩, ⟨fun num hnum => ?_, h.imap⟩⟩
  · rw [(h.idle p).1]
    exact ⟨(h.idle p).2, h.held p⟩
  · rw [(h.idle p).1] at hp
    cases hp
  · rw [(h.idle p).1] at hp
    cases hp
  · rw [(h.idle p).1] at hp
    cases hp
  · rw [(h.idle p).1] at hp
    cases hp
  · rw [h.log] at hz
    cases hz
  · rw [h.log] at hnum
    cases hnum

end Inv

/-! ### Runs -/

/-- **No double allocation.** In every run on a mounted device, a zone that `new_block` returns is
one of the zones, an inode number that `new_inode` returns is one of the inodes, neither has been
returned before and not been freed since, and `free_block` always clears a bit, which is exactly the
one that `new_block` has set. No function but `free_inode` panics. -/
theorem State.no_double_allocation [NeZero N] [Zero D] {s₀ s s' : State D N n}
    {es : List (Event N n)} {e : Event N n} (h₀ : s₀.Initial sb)
    (h : Runs (fun s e s' => State.next s sb e = some s') s₀ es s)
    (hs : s.next sb e = some s') :
    (s'.log = s.log ∨ ∃ o, s'.log = o :: s.log ∧ o.Allowed sb s s') ∧
      (∀ p x, s'.pc p = .getblk x →
        s.pc p = .getblk x ∨ s.zmap.get x = false ∧ s'.zmap = s.zmap.set x true) ∧
      ((∀ p k, e ≠ .freeInode p k) → s'.panic = none) := by
  have hinv : Inv sb s := h.invariant (I := Inv sb) (fun _ _ _ hi hnext => (hi.step hnext).1.inv)
    (.initial h₀)
  obtain ⟨hsound, hpanic⟩ := hinv.step hs
  exact ⟨hsound.log, hsound.bit, hpanic⟩

theorem thirtyTwo_lt : 32 < 65536 := by decide

/-- A device with six zones and 32 inodes. -/
def smallDevice : Super where
  dev := 1
  ninodes := 32
  nzones := 11
  firstdatazone := 5
  dev_ne := by decide
  ninodes_lt := thirtyTwo_lt
  nzones_lt := by decide

/-- The device is empty, and two processes use it. -/
def emptyDevice : State ℕ 2 2 where
  cache := .init (fun _ => 0) fun _ => 0
  zmap i := if i = 0 then some fun j => j = 0 else none
  imap i := if i = 0 then some fun j => j = 0 else none
  inode _ := .zero
  pc _ := .idle
  log := []
  panic := none

theorem initial_emptyDevice : emptyDevice.Initial smallDevice where
  cache := ⟨_, _, [], .nil⟩
  idle _ := ⟨rfl, rfl⟩
  counted _ := rfl
  held _ _ hx := by cases hx
  zmap bits hbits := by
    rw [← Option.some.inj hbits]
    rfl
  imap bits hbits := by
    rw [← Option.some.inj hbits]
    rfl
  log := rfl

/-- Each process gets a zone. The first one wants another one and waits for a dirty buffer, and the
second one frees zone 5, up to the last step. -/
def allocateFree : List (Event 2 2) :=
  .newBlock 0 :: List.replicate 7 (.run 0) ++ .newBlock 1 :: List.replicate 7 (.run 1) ++
    .newBlock 0 :: List.replicate 5 (.run 0) ++ [.freeBlock 1 5, .run 1]

/-- Bit 1 is set for zone 5, and is cleared with the last step. -/
theorem State.no_double_allocation_freed : ∃ s s' : State ℕ 2 2,
    Runs (fun s e s' => State.next s smallDevice e = some s') emptyDevice allocateFree.reverse s ∧
    s.next smallDevice (.run 1) = some s' ∧ bitOf 5 s.log = some (0, 1) ∧
    s.zmap.get (0, 1) = true ∧ s'.zmap.get (0, 1) = false := by
  have hexec : ((exec (fun s e => State.next s smallDevice e) emptyDevice allocateFree).any fun s =>
      bitOf 5 s.log = some (0, 1) && (s.next smallDevice (.run 1)).any fun s' =>
        s'.log.head?.any fun
          | .freed _ z => z = 5 && s'.log.length = s.log.length + 1
          | _ => false) = true := by
    decide +kernel
  obtain ⟨s, hrun, hexec⟩ := (Option.any_eq_true _ _).mp hexec
  obtain ⟨hbit, hexec⟩ := (Bool.and_eq_true _ _).mp hexec
  obtain ⟨s', hs', hexec⟩ := (Option.any_eq_true _ _).mp hexec
  obtain ⟨o, ho, hfreed⟩ := (Option.any_eq_true _ _).mp hexec
  have hbit := of_decide_eq_true hbit
  obtain ⟨hlog, -, -⟩ := no_double_allocation initial_emptyDevice (runs_of_exec hrun) hs'
  cases o with
  | freed p z =>
    obtain ⟨hz, hlength⟩ := (Bool.and_eq_true _ _).mp hfreed
    rcases hlog with hsame | ⟨o', ho', hallowed⟩
    · rw [hsame] at hlength
      exact absurd (of_decide_eq_true hlength) (by omega)
    · rw [ho'] at ho
      obtain rfl := Option.some.inj ho
      obtain ⟨x, hx, hset, hclear⟩ := hallowed
      rw [of_decide_eq_true hz] at hx
      obtain rfl := Option.some.inj (hbit.symm.trans hx)
      refine ⟨s, s', runs_of_exec hrun, hs', hbit, hset, ?_⟩
      rw [hclear]
      obtain ⟨bits, hbits, -⟩ := Bitmap.get_eq_true.mp hset
      exact Bitmap.get_set_self (by rw [hbits]; nofun)
  | _ => cases hfreed

end Linux001.Bitmaps
