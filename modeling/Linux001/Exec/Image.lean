import Linux001.Exec.Stack
import Linux001.Fs.ZoneTree

/-!
# The text and data of a new program

`read_area` copies the blocks of a file after its first one to user memory, with a loop for the
blocks of the inode, one for those of the indirect block, and one over the tables of the
double-indirect block. The last one advances by one block, not by the 512 blocks of a table, and
keeps the double-indirect block for good.

## Main definitions

* `fileByte`: a byte of the file, found with the block numbers of `_bmap`.
* `Reads`: the first blocks after the header are in user memory.
* `Faithful`: user memory has the text and data of the file, zeros after them, and all buffers have
  been released.

## Main results

* `Reads.readBlock`, `Reads.readInd`, `Reads.readArea`: the loaders.
* `faithful_iff`: a program is loaded faithfully if and only if it needs no double-indirect block.
-/

namespace Linux001.Exec

open Mm (Memory Word Pages maxArgPages byteOf)
open Fs (Cache Block tableAt zoneAt leafPath)

/-! ### The file -/

/-- The block `m` of a file in the numbering of `_bmap`, 0 if it is a hole. -/
def zoneOf (data : ℕ → Block) (zone : ℕ → ℕ) (m : ℕ) : ℕ := zoneAt data zone (leafPath m)

/-- The byte `x` of a file. -/
def fileByte (data : ℕ → Block) (zone : ℕ → ℕ) (x : ℕ) : Byte :=
  if zoneOf data zone (x / 1024) = 0 then 0
  else (data (zoneOf data zone (x / 1024)) (x % 1024)).toBitVec

section Zones

variable {data : ℕ → Block} {zone : ℕ → ℕ} {m : ℕ}

theorem zoneOf_direct (hm : m < 7) : zoneOf data zone m = zone m := by
  rw [zoneOf, leafPath, dif_pos hm]
  rfl

theorem zoneOf_ind (hm : m < 512) : zoneOf data zone (7 + m) = tableAt data (zone 7) m := by
  rw [zoneOf, leafPath, dif_neg (by omega), dif_pos (by omega), zoneAt]
  congr 1
  dsimp only
  omega

theorem zoneOf_two (hm : 519 ≤ m) (hzero : zone 8 = 0) : zoneOf data zone m = 0 := by
  rw [zoneOf, leafPath, dif_neg (by omega), dif_neg (by omega), zoneAt, hzero]
  rfl

end Zones

/-! ### Buffers -/

section Buffers

variable {s : State}

theorem ensures_bread (z : ℕ) (s : State) : Ensures (bread z) s fun b s' =>
    b = s.cache.data z ∧ ∃ c, Cache.Read s.cache z c ∧ s' = { s with cache := c } := by
  refine Ensures.bind (Q := fun _ s' => ∃ c, Cache.Read s.cache z c ∧ s' = { s with cache := c })
    (fun _ s' h => ?_) fun _ s' ⟨c, hc, hs'⟩ => ?_
  · rw [onCache] at h
    split at h
    · cases h
    · rename_i c hc
      exact ⟨c, Cache.read_bread hc, (Prod.mk.inj (Except.ok.inj h)).2.symm⟩
  · rw [ensures_get_bind, ensures_pure, hs']
    exact ⟨congrFun hc.data z, c, hc, rfl⟩

theorem ensures_brelse (z : ℕ) (s : State) : Ensures (brelse z) s fun _ s' =>
    ∃ c, Cache.Released s.cache z c ∧ s' = { s with cache := c } := fun _ s' h => by
  rw [brelse, onCache] at h
  split at h
  · cases h
  · rename_i c hc
    exact ⟨c, Cache.released_brelse hc, (Prod.mk.inj (Except.ok.inj h)).2.symm⟩

/-- The contents of the blocks, as the kernel sees them. -/
def State.blocks (s : State) : ℕ → Block := s.cache.data

/-- `b_count` of the buffers, an `unsigned char`. -/
def State.counts (s : State) (z : ℕ) : ℕ := s.cache.count z % 256

theorem leaves_blocks_bread (z : ℕ) : Leaves State.blocks (bread z) := fun s =>
  (ensures_bread z s).mono fun _ _ ⟨_, _, hc, hs'⟩ => by
    rw [hs']
    exact hc.data

theorem leaves_blocks_borrow {z : ℕ} {k : Block → K Unit} (hk : ∀ b, Leaves State.blocks (k b)) :
    Leaves State.blocks (do
      let b ← bread z
      k b
      brelse z) :=
  (leaves_blocks_bread z).bind fun b => (hk b).bind fun _ s =>
    (ensures_brelse z s).mono fun _ _ ⟨_, hc, hs'⟩ => by
      rw [hs']
      exact hc.data

/-- A reference that is taken and given back. -/
theorem counts_return {c c₁ c₂ c₃ : Cache} {z : ℕ} (hread : Cache.Read c z c₁)
    (hsame : ∀ x, c₂.count x % 256 = c₁.count x % 256) (hrel : Cache.Released c₂ z c₃) (x : ℕ) :
    c₃.count x % 256 = c.count x % 256 := by
  have hpos := hrel.pos
  have hx := hsame x
  rw [hread.count, Function.update_apply] at hx
  rw [hrel.count, Function.update_apply]
  split_ifs at hx ⊢ with hxz
  · subst hxz
    omega
  · exact hx

/-- A buffer that is released after its use, if what is done with it leaves the references alone. -/
theorem leaves_counts_borrow {z : ℕ} {k : Block → K Unit} (hk : ∀ b, Leaves State.counts (k b)) :
    Leaves State.counts (do
      let b ← bread z
      k b
      brelse z) := fun s => by
  refine (ensures_bread z s).bind fun b s₁ ⟨_, c, hc, hs₁⟩ => (hk b s₁).bind fun _ s₂ hs₂ =>
    (ensures_brelse z s₂).mono fun _ s₃ ⟨c', hc', hs₃⟩ => ?_
  rw [hs₁] at hs₂
  rw [hs₃]
  exact funext (counts_return hc (congrFun hs₂) hc')

end Buffers

/-! ### Blocks in user memory -/

/-- Below the stack, the first `k` blocks after the header are there, and nothing else. -/
def ImageTo (data : ℕ → Block) (zone : ℕ → ℕ) (k : ℕ) (F : ℕ → Byte) : Prop :=
  ∀ o < 0x3f00000, F o = if o < 1024 * k then fileByte data zone (1024 + o) else 0

/-- The data segment has the first `k` blocks after the header. -/
def Reads (n : ℕ) (data : ℕ → Block) (zone : ℕ → ℕ) (k : ℕ) (s : State) : Prop :=
  s.blocks = data ∧ ∃ F, Segment n F s ∧ ImageTo data zone k F

theorem Segment.congr {n : ℕ} {F : ℕ → Byte} {s s' : State} (h : Segment n F s)
    (hmem : s'.mem = s.mem) (hdata : s'.proc.data = s.proc.data) : Segment n F s' := by
  obtain ⟨h₁, h₂, h₃, h₄, h₅, h₆⟩ := h
  rw [← hdata] at h₃ h₄
  rw [← hmem] at h₅ h₆
  exact ⟨h₁, h₂, h₃, h₄, h₅, h₆⟩

section Reads

variable {n k : ℕ} {data : ℕ → Block} {zone : ℕ → ℕ} {F : ℕ → Byte} {s : State} {i : Inode}

theorem ImageTo.hole (h : ImageTo data zone k F) (hz : zoneOf data zone (k + 1) = 0) :
    ImageTo data zone (k + 1) F := fun o ho => by
  rw [h o ho]
  by_cases hk : o < 1024 * k
  · rw [if_pos hk, if_pos (by omega)]
  · rw [if_neg hk]
    split_ifs with hk'
    · rw [fileByte, show (1024 + o) / 1024 = k + 1 by omega, if_pos hz]
    · rfl

theorem ImageTo.block (h : ImageTo data zone k F) (hz : zoneOf data zone (k + 1) ≠ 0) :
    ImageTo data zone (k + 1) (overlay F (1024 * k) 1024 fun j =>
      (data (zoneOf data zone (k + 1)) j).toBitVec) := fun o ho => by
  by_cases hk : 1024 * k ≤ o ∧ o < 1024 * k + 1024
  · rw [overlay_of_mem hk.1 hk.2, if_pos (by omega), fileByte,
      show (1024 + o) / 1024 = k + 1 by omega, if_neg hz,
      show (1024 + o) % 1024 = o - 1024 * k by omega]
  · rw [overlay_of_notMem (by omega), h o ho]
    exact if_congr (by omega) rfl rfl

/-- The next block. -/
theorem Reads.readBlock (h : Reads n data zone k s) (hk : 1024 * (k + 1) ≤ 0x3f00000) :
    Ensures (readBlock (zoneOf data zone (k + 1)) (BitVec.ofNat 32 (1024 * k))) s fun _ s' =>
      Reads n data zone (k + 1) s' := by
  obtain ⟨hdata, F, hF, himage⟩ := h
  have hblocks := leaves_readBlock (f := State.blocks) (fun _ _ => rfl) leaves_blocks_borrow
    (zoneOf data zone (k + 1)) (BitVec.ofNat 32 (1024 * k)) s
  suffices hbytes : Ensures (Exec.readBlock (zoneOf data zone (k + 1)) (BitVec.ofNat 32 (1024 * k)))
    s
      fun _ s' => ∃ F, Segment n F s' ∧ ImageTo data zone (k + 1) F from
    (hblocks.and hbytes).mono fun _ s' ⟨hs', hF'⟩ => ⟨hs'.trans hdata, hF'⟩
  rw [Exec.readBlock]
  refine ensures_ite (fun hz => ensures_pure.mpr ⟨F, hF, himage.hole hz⟩) fun hz => ?_
  refine (ensures_bread _ s).bind fun b s₁ ⟨hb, c, _, hs₁⟩ => ?_
  rw [show b = data (zoneOf data zone (k + 1)) from hb.trans (congrFun hdata _)]
  have hF₁ : Segment n F s₁ := hF.congr (by rw [hs₁]) (by rw [hs₁])
  refine (hF₁.putBytes (by omega)).bind fun _ s₂ hF₂ =>
    (ensures_brelse _ s₂).mono fun _ s₃ ⟨c', _, hs₃⟩ => ?_
  exact ⟨_, hF₂.congr (by rw [hs₃]) (by rw [hs₃]), himage.block hz⟩

/-- Holes need not be read. -/
theorem Reads.holes (h : Reads n data zone k s) : ∀ {m : ℕ},
    (∀ j, k ≤ j → j < k + m → zoneOf data zone (j + 1) = 0) → Reads n data zone (k + m) s
  | 0, _ => h
  | m + 1, hz => by
    obtain ⟨hdata, F, hF, himage⟩ := h.holes (m := m) fun j hj hj' => hz j hj (by omega)
    exact ⟨hdata, F, hF, himage.hole (hz (k + m) (by omega) (by omega))⟩

theorem Reads.readHead (h : Reads n data i.zone 0 s) (blocks : ℤ) :
    Ensures (readHead i blocks) s fun _ s' => Reads n data i.zone (min blocks 6).toNat s' := by
  refine ensures_forM_range (fun k s' => Reads n data i.zone k s') h fun k hk s' hs' => ?_
  rw [← (zoneOf_direct (by omega) : zoneOf data i.zone (k + 1) = _), Nat.mul_comm]
  exact hs'.readBlock (by omega)

theorem Reads.readIndFrom (hzone : zone 7 ≠ 0) : ∀ {turns k : ℕ} {s : State},
    Reads n data zone (6 + k) s → k + turns ≤ 512 →
    Ensures (readIndFrom (data (zone 7)) turns k (BitVec.ofNat 32 (1024 * (6 + k)))) s fun _ s' =>
      Reads n data zone (6 + k + turns) s'
  | 0, k, s, h, _ => ensures_pure.mpr h
  | turns + 1, k, s, h, hle => by
    have hz : Fs.word (data (zone 7)) k = zoneOf data zone (6 + k + 1) := by
      rw [show 6 + k + 1 = 7 + k by omega, zoneOf_ind (by omega), tableAt, if_neg hzone]
    rw [Exec.readIndFrom, hz]
    refine (h.readBlock (by omega)).bind fun _ s' hs' => ?_
    rw [show (BitVec.ofNat 32 (1024 * (6 + k)) + 1024 : Word) =
        BitVec.ofNat 32 (1024 * (6 + (k + 1))) by
      rw [← Nat.add_assoc, Nat.mul_succ, BitVec.ofNat_add]
      rfl, show 6 + k + (turns + 1) = 6 + (k + 1) + turns by omega]
    exact readIndFrom hzone (by rwa [← Nat.add_assoc]) (by omega)

/-- The loader of the blocks of the indirect block. -/
theorem Reads.readInd (h : Reads n data zone 6 s) {size : ℕ} (hsize : 0 < size) :
    Ensures (readInd (zone 7) size (BitVec.ofNat 32 (1024 * 6))) s fun _ s' =>
      Reads n data zone (6 + (min size 524288 + 1023) / 1024) s' := by
  rw [Exec.readInd]
  refine ensures_ite (fun hc => absurd hc (by omega)) fun _ =>
    ensures_ite (fun hz => ?_) fun hz => ?_
  · refine ensures_pure.mpr (h.holes fun j hj hj' => ?_)
    rw [show j + 1 = 7 + (j - 6) by omega, zoneOf_ind (by omega), hz]
    rfl
  · have hturns : ((min (size : ℤ) (512 * blockSize) + blockSize - 1) / blockSize).toNat =
        (min size 524288 + 1023) / 1024 := by
      rw [blockSize]
      omega
    obtain ⟨hdata, F, hF, himage⟩ := h
    refine (ensures_bread _ s).bind fun b s₁ ⟨hb, c, hc, hs₁⟩ => ?_
    rw [show b = data (zone 7) from hb.trans (congrFun hdata _), hturns]
    have h₁ : Reads n data zone (6 + 0) s₁ := by
      refine ⟨?_, F, hF.congr (by rw [hs₁]) (by rw [hs₁]), himage⟩
      rw [hs₁]
      exact hc.data.trans hdata
    refine (readIndFrom hz h₁ (by omega)).bind fun _ s₂ ⟨hdata₂, F₂, hF₂, himage₂⟩ =>
      (ensures_brelse _ s₂).mono fun _ s₃ ⟨c', hc', hs₃⟩ => ?_
    refine ⟨?_, F₂, hF₂.congr (by rw [hs₃]) (by rw [hs₃]), himage₂⟩
    rw [hs₃]
    exact hc'.data.trans hdata₂

/-- A program that needs no double-indirect block is read. -/
theorem Reads.readArea (h : Reads n data i.zone 0 s) {size : ℕ} (hle : size ≤ 0x3000000)
    (hcond : size ≤ 518 * 1024 ∨ i.zone 8 = 0) : Ensures (readArea i size) s fun _ s' =>
      Reads n data i.zone ((size + 1023) / 1024) s' := by
  rw [Exec.readArea]
  refine (h.readHead _).bind fun _ s₁ h₁ =>
    ensures_ite (fun hsmall => ensures_pure.mpr ?_) fun hbig => ?_
  · rw [blockSize] at h₁ hsmall
    rwa [show (min (((size : ℤ) + 1024 - 1) / 1024) 6).toNat = (size + 1023) / 1024 by omega] at h₁
  rw [blockSize] at h₁ hbig
  rw [show (min (((size : ℤ) + 1024 - 1) / 1024) 6).toNat = 6 by omega] at h₁
  have hsize : (size : ℤ) - blockSize * 6 = (size - 6144 : ℕ) := by
    rw [blockSize]
    omega
  rw [hsize]
  refine (h₁.readInd (by omega)).bind fun _ s₂ h₂ =>
    ensures_ite (fun hsmall => ensures_pure.mpr ?_) fun hbig' => ?_
  · rw [blockSize] at hsmall
    rwa [show 6 + (min (size - 6144) 524288 + 1023) / 1024 = (size + 1023) / 1024 by omega] at h₂
  rw [blockSize] at hbig'
  have hzone : i.zone 8 = 0 := hcond.resolve_left (by omega)
  refine ensures_ite (fun _ => ensures_pure.mpr ?_) fun hc => absurd hzone hc
  rw [show 6 + (min (size - 6144) 524288 + 1023) / 1024 = 518 by omega] at h₂
  rw [show (size + 1023) / 1024 = 518 + ((size + 1023) / 1024 - 518) by omega]
  exact h₂.holes fun j hj _ => zoneOf_two (by omega) hzone

/-- The references are given back, except that to the double-indirect block. -/
theorem ensures_readArea_counts (i : Inode) (size : ℤ) (s : State) :
    Ensures (readArea i size) s fun _ s' =>
      s'.counts = s.counts ↔ size ≤ 518 * 1024 ∨ i.zone 8 = 0 := by
  have hhead := leaves_readHead (f := State.counts) (fun _ _ => rfl) leaves_counts_borrow i
  have hind := leaves_readInd (f := State.counts) (fun _ _ => rfl) leaves_counts_borrow
  have hdind := leaves_readDindFrom (f := State.counts) (fun _ _ => rfl) leaves_counts_borrow
  rw [Exec.readArea]
  refine (hhead _ s).bind fun _ s₁ h₁ => ensures_ite (fun hsmall => ?_) fun _ => ?_
  · rw [blockSize] at hsmall
    exact ensures_pure.mpr (iff_of_true h₁ (.inl (by omega)))
  refine (hind _ _ _ s₁).bind fun _ s₂ h₂ => ensures_ite (fun hsmall => ?_) fun hbig => ?_
  · rw [blockSize] at hsmall
    exact ensures_pure.mpr (iff_of_true (h₂.trans h₁) (.inl (by omega)))
  refine ensures_ite (fun hzone => ?_) fun hzone => ?_
  · exact ensures_pure.mpr (iff_of_true (h₂.trans h₁) (.inr hzone))
  rw [blockSize] at hbig
  refine (ensures_bread _ s₂).bind fun b s₃ ⟨_, c, hc, hs₃⟩ =>
    (hdind b _ _ _ s₃).mono fun _ s₄ h₄ => ?_
  -- One reference more to the double-indirect block.
  refine iff_of_false (fun hsame => ?_) (by omega)
  have hat := congrFun (h₄.symm.trans (hsame.trans (h₂.trans h₁).symm)) (i.zone 8)
  rw [State.counts, State.counts, hs₃] at hat
  dsimp only at hat
  rw [hc.count, Function.update_self] at hat
  omega

end Reads

/-! ### The rest of the image -/

section Rest

variable {n : ℕ} {F : ℕ → Byte} {s : State}

theorem and_page_eq_zero {off : ℕ} (hoff : off < 2 ^ 32) :
    BitVec.ofNat 32 off &&& 0xfff = 0 ↔ off % 4096 = 0 := by
  rw [← BitVec.toNat_inj, BitVec.toNat_and, BitVec.toNat_ofNat, Nat.mod_eq_of_lt hoff]
  change off &&& 2 ^ 12 - 1 = 0 ↔ _
  rw [Nat.and_two_pow_sub_one_eq_mod]

/-- The rest of a page is cleared. -/
theorem Segment.clearPage : ∀ {d fuel off : ℕ} {F : ℕ → Byte} {s : State}, Segment n F s →
    (off + d) % 4096 = 0 → d < 4096 → d ≤ fuel → off + d ≤ 0x4000000 →
    Ensures (clearPage fuel (BitVec.ofNat 32 off)) s fun _ s' =>
      Segment n (overlay F off d fun _ => 0) s'
  | 0, 0, off, F, s, h, _, _, _, _ => ensures_pure.mpr (by rwa [overlay_zero])
  | 0, fuel + 1, off, F, s, h, hmod, _, _, hle => by
    rw [Exec.clearPage]
    refine ensures_ite (fun hc => absurd ((and_page_eq_zero (by omega)).mpr hmod) hc) fun _ => ?_
    exact ensures_pure.mpr (by rwa [overlay_zero])
  | d + 1, fuel + 1, off, F, s, h, hmod, hd, hfuel, hle => by
    rw [Exec.clearPage]
    refine ensures_ite (fun _ => ?_) fun hc => absurd ((and_page_eq_zero (by omega)).mp
      (not_not.mp hc)) (by omega)
    refine (h.putFsByte (by omega) 0).bind fun _ s₁ ⟨h₁, _⟩ => ?_
    rw [show BitVec.ofNat 32 off + 1 = BitVec.ofNat 32 (off + 1) from (BitVec.ofNat_add off 1).symm]
    refine (clearPage h₁ (by omega) (by omega) (Nat.le_of_succ_le_succ hfuel) (by omega)).mono
      fun _ s₂ h₂ => ?_
    refine ⟨h₂.pos, h₂.lt, h₂.base, h₂.size, h₂.space, fun o ho => (h₂.byte o ho).trans ?_⟩
    rw [overlay, overlay, Function.update_apply]
    split_ifs <;> first | rfl | omega

/-- An access at an address that may be beyond the segment. -/
theorem Segment.fetchByte (h : Segment n F s) (p : Word) :
    Ensures (Exec.getFsByte p) s fun _ s' => Segment n F s' := by
  by_cases hp : p.toNat < 0x4000000
  · have hof : p = BitVec.ofNat 32 p.toNat := BitVec.eq_of_toNat_eq (by simp)
    rw [hof]
    exact (h.getFsByte hp).mono fun _ _ h' => h'.2.1
  · intro a s' hs'
    have hthrow : Exec.getFsByte p s = .error .protection := by
      change ((if p.toNat < s.proc.data.size then _ else _ : K Word) s >>= _) = _
      rw [if_neg (by rwa [h.size])]
      rfl
    rw [hthrow] at hs'
    cases hs'

theorem Segment.skipString : ∀ {fuel : ℕ} {p : Word} {s : State}, Segment n F s →
    Ensures (skipString fuel p) s fun _ s' => Segment n F s'
  | 0, _, _, _ => ensures_throw
  | fuel + 1, p, s, h => by
    rw [Exec.skipString]
    exact (h.fetchByte p).bind fun _ s' h' =>
      ensures_ite (fun _ => ensures_pure.mpr h') fun _ => h'.skipString

theorem Segment.putFsLong (h : Segment n F s) {off : ℕ} (hoff : off + 4 ≤ 0x4000000) (w : Word) :
    Ensures (putFsLong w (BitVec.ofNat 32 off)) s fun _ s' =>
      ∃ F', Segment n F' s' ∧ ∀ o < off, F' o = F o :=
  (h.putBytes hoff).mono fun _ _ h' => ⟨_, h', fun _ ho => overlay_of_notMem (.inl ho)⟩

/-- The tables are above all that is below them. -/
theorem Segment.fillTable {m t : ℕ} {p : Word} (h : Segment n F s)
    (hle : t + 4 * (m + 1) ≤ 0x4000000) :
    Ensures (fillTable m p (BitVec.ofNat 32 t)) s fun _ s' =>
      ∃ F', Segment n F' s' ∧ ∀ o < t, F' o = F o := by
  induction m generalizing t p F s with
  | zero => exact (h.putFsLong (by omega) 0).bind fun _ _ h' => ensures_pure.mpr h'
  | succ m ih =>
    rw [Exec.fillTable]
    refine (h.putFsLong (by omega) p).bind ?_
    rintro _ s₁ ⟨F₁, h₁, hF₁⟩
    refine h₁.skipString.bind fun q s₂ h₂ => ?_
    rw [show BitVec.ofNat 32 t + 4 = BitVec.ofNat 32 (t + 4) from (BitVec.ofNat_add t 4).symm]
    refine (ih h₂ (by omega)).mono ?_
    rintro _ s₃ ⟨F₃, h₃, hF₃⟩
    refine ⟨F₃, h₃, fun o ho => ?_⟩
    exact (hF₃ o (by omega)).trans (hF₁ o ho)

theorem Segment.createTables (h : Segment n F s) {p sp argc envc : ℕ} (hp : p ≤ 0x4000000)
    (hle : 4 * (argc + envc + 5) ≤ p / 4 * 4) (hsp : sp = p / 4 * 4 - 4 * (argc + envc + 5)) :
    Ensures (createTables (BitVec.ofNat 32 p) argc envc) s fun _ s' =>
      ∃ F', Segment n F' s' ∧ ∀ o < sp, F' o = F o := by
  rw [createTables_eq (by omega) hle hsp]
  refine (h.putFsLong (by omega) _).bind ?_
  rintro _ s₁ ⟨F₁, h₁, hF₁⟩
  refine (h₁.putFsLong (by omega) _).bind ?_
  rintro _ s₂ ⟨F₂, h₂, hF₂⟩
  refine (h₂.putFsLong (by omega) _).bind ?_
  rintro _ s₃ ⟨F₃, h₃, hF₃⟩
  refine (h₃.fillTable (by omega)).bind ?_
  rintro _ s₄ ⟨F₄, h₄, hF₄⟩
  refine (h₄.fillTable (by omega)).bind ?_
  rintro _ s₅ ⟨F₅, h₅, hF₅⟩
  refine ensures_pure.mpr ⟨F₅, h₅, fun o ho => ?_⟩
  rw [hF₅ o (by omega), hF₄ o (by omega), hF₃ o ho, hF₂ o (by omega), hF₁ o (by omega)]

end Rest

/-! ### The whole -/

section Whole

variable {n : ℕ} {held : Finset ℕ} {s s' : State} {i : Inode} {ex : Header} {argv envp : List Str}

theorem leaves_cache_setProc (g : Proc → Proc) : Leaves State.cache (setProc g) :=
  leaves_modify fun _ => rfl

theorem leaves_cache_giveUp : Leaves State.cache giveUp := by
  rw [giveUp]
  exact (leaves_cache_setProc _).bind fun _ => (leaves_get _).bind fun _ =>
    (leaves_onMem fun _ _ => rfl).bind fun _ => (leaves_onMem fun _ _ => rfl).bind fun _ =>
      leaves_cache_setProc _

theorem leaves_cache_changeLdt (text : Word) (page : ℕ → ℕ) :
    Leaves State.cache (changeLdt text page) := by
  rw [changeLdt]
  refine (leaves_get _).bind fun _ => (leaves_cache_setProc _).bind fun _ => Leaves.bind ?_ fun _ =>
    leaves_pure _ _
  exact leaves_modify fun _ => rfl

theorem leaves_cache_newStack (text : Word) (argc envc : ℕ) (p : Word) (page : ℕ → ℕ) :
    Leaves State.cache (newStack text argc envc p page) := by
  rw [newStack]
  exact (leaves_cache_changeLdt _ _).bind fun _ => leaves_createTables (fun _ _ => rfl) _ _ _

/-- User memory has the text and data of the file and zeros after them, and all buffers have been
released. -/
structure Faithful (n : ℕ) (i : Inode) (ex : Mm.Exec) (s s' : State) : Prop where
  file : ∀ o < ex.text.toNat + ex.data.toNat,
    userByte n s'.mem o = fileByte s.blocks i.zone (1024 + o)
  bss : ∀ o, ex.text.toNat + ex.data.toNat ≤ o → o < ex.text.toNat + ex.data.toNat + ex.bss.toNat →
    userByte n s'.mem o = 0
  released : s'.counts = s.counts

/-- A program that needs no double-indirect block is complete when the rest of its last page has
been cleared. -/
theorem ImageTo.cleared {data : ℕ → Block} {zone : ℕ → ℕ} {F : ℕ → Byte} {size d : ℕ}
    (h : ImageTo data zone ((size + 1023) / 1024) F) (hd : (size + d) % 4096 = 0) (hlt : d < 4096) :
    (∀ o < size, o < 0x3f00000 → overlay F size d (fun _ => 0) o = fileByte data zone (1024 + o)) ∧
      ∀ o, size ≤ o → o < 0x3f00000 → overlay F size d (fun _ => 0) o = 0 := by
  refine ⟨fun o ho ho' => ?_, fun o ho ho' => ?_⟩
  · rw [overlay_of_notMem (.inl ho), h o ho', if_pos (by omega)]
  · by_cases hod : o < size + d
    · exact overlay_of_mem ho hod
    · rw [overlay_of_notMem (.inr (not_lt.mp hod)), h o ho', if_neg (by omega)]

theorem ensures_loadProgram_faithful (h : Ready n held s) {a : Pages} (ha : Taken s.mem a) {T : ℕ}
    (hT : T ≤ 131068) (hargs : argv.length + envp.length ≤ T) (i : Inode)
    (hbound : ex.text.toNat + ex.data.toNat + ex.bss.toNat ≤ 0x3000000) :
    Ensures (loadProgram i ex argv.length envp.length (BitVec.ofNat 32 (131068 - T)) a.page)
      { s with mem := a.mem } fun _ s' => Faithful n i ex.toExec s s' ↔
        ex.text.toNat + ex.data.toNat ≤ 518 * 1024 ∨ i.zone 8 = 0 := by
  have hsize : (ex.text + ex.data).toInt = (ex.text.toNat + ex.data.toNat : ℕ) := by
    rw [BitVec.toInt_eq_toNat_of_lt (by bv_omega)]
    bv_omega
  have hoff : ex.text + ex.data = BitVec.ofNat 32 (ex.text.toNat + ex.data.toNat) := by
    bv_omega
  rw [loadProgram, hsize, hoff]
  generalize hE : ex.text.toNat + ex.data.toNat = size at *
  refine ((h.taken ha).giveUp.ensures.and (leaves_cache_giveUp _)).bind ?_
  rintro _ s₁ ⟨h₁, hc₁⟩
  refine Ensures.bind (Q := fun _ s₂ => s₂.cache = s.cache ∧
    ∃ F, Segment n F s₂ ∧ ∀ o < 0x3f00000, F o = 0) ?_ ?_
  · refine (((leaves_cache_newStack _ _ _ _ _ s₁).mono fun _ _ hc => hc.trans hc₁).and ?_)
    rw [newStack]
    refine (h₁.changeLdt h.pos h.lt ha rfl ex.text).ensures.bind ?_
    rintro top s₂ ⟨htop, h₂⟩
    obtain ⟨F, hF, hzero⟩ := h₂.segment
    rw [htop, stackAt hT]
    refine (hF.createTables (by omega) (by omega) rfl).mono ?_
    rintro _ s₃ ⟨F', hF', hbelow⟩
    refine ⟨F', hF', fun o ho => ?_⟩
    rw [hbelow o (by omega), hzero o (by omega)]
  rintro sp s₂ ⟨hc₂, F, hF, hzero⟩
  rw [setProc, ensures_modify_bind]
  set s₃ : State := { s₂ with proc := { s₂.proc with
    endCode := ex.text, endData := ex.data + ex.text, brk := ex.bss + (ex.data + ex.text)
    startStack := sp &&& 0xfffff000 } } with hs₃
  have hstart : Reads n s.blocks i.zone 0 s₃ :=
    ⟨congrArg Cache.data hc₂, F, hF.congr rfl rfl, fun o ho => by
      rw [hzero o ho, if_neg (by omega)]⟩
  have hreads : Ensures (readArea i size) s₃ fun _ s₄ => size ≤ 518 * 1024 ∨ i.zone 8 = 0 →
      Reads n s.blocks i.zone ((size + 1023) / 1024) s₄ := fun a s₄ hs₄ hcond =>
    hstart.readArea (by omega) hcond a s₄ hs₄
  refine ((ensures_readArea_counts i size s₃).and hreads).bind ?_
  rintro _ s₄ ⟨hcounts, hreads⟩
  rw [iput, ensures_modify_bind]
  have hclear : Ensures (clearPage 4096 (BitVec.ofNat 32 size))
      { s₄ with iCount := s₄.iCount - 1 } fun _ s₅ => size ≤ 518 * 1024 ∨ i.zone 8 = 0 →
        ∃ F, Segment n F s₅ ∧ (∀ o < size, F o = fileByte s.blocks i.zone (1024 + o)) ∧
          ∀ o, size ≤ o → o < 0x3f00000 → F o = 0 := fun a s₅ hs₅ hcond => by
    obtain ⟨-, F₄, hF₄, himage⟩ := hreads hcond
    have hF₄' : Segment n F₄ { s₄ with iCount := s₄.iCount - 1 } := hF₄.congr rfl rfl
    have hfinal := hF₄'.clearPage (d := (4096 - size % 4096) % 4096) (by omega)
        (by omega) (by omega)
      (by omega) a s₅ hs₅
    obtain ⟨hfile, hrest⟩ := himage.cleared (d := (4096 - size % 4096) % 4096) (by omega) (by omega)
    exact ⟨_, hfinal, fun o ho => hfile o ho (by omega), hrest⟩
  refine ((leaves_clearPage (f := State.cache) (fun _ _ => rfl) _ _ _).and hclear).bind ?_
  rintro _ s₅ ⟨hc₅, himage⟩
  rw [ensures_modify_bind, ensures_pure]
  have hcount : ∀ s' : State, s'.cache = s₅.cache → (s'.counts = s.counts ↔
      size ≤ 518 * 1024 ∨ i.zone 8 = 0) := fun s' hs' => by
    have hs₄ : s'.counts = s₄.counts := funext fun x => by
      rw [State.counts, State.counts, hs', hc₅]
    have hs : s₃.counts = s.counts := funext fun x => by
      rw [State.counts, State.counts, hs₃, hc₂]
    rw [hs₄, ← hs]
    exact hcounts.trans (or_congr_left (by omega))
  refine ⟨fun hf => (hcount _ rfl).mp hf.released, fun hcond => ?_⟩
  obtain ⟨F₅, hF₅, hfile, hrest⟩ := himage hcond
  refine ⟨fun o ho => ?_, fun o ho ho' => ?_, (hcount _ rfl).mpr hcond⟩
  · rw [hE] at ho
    exact (hF₅.byte o (by omega)).trans (hfile o ho)
  · rw [hE] at ho ho'
    exact (hF₅.byte o (by omega)).trans (hrest o ho (by omega))

theorem ensures_doExecve_faithful (h : Ready n held s)
    (hw : NoWrap (header (s.blocks (i.zone 0))).toExec) :
    Ensures (doExecve i argv envp) s fun r s' => r = 0 →
      (Faithful n i (header (s.blocks (i.zone 0))).toExec s s' ↔
        (header (s.blocks (i.zone 0))).text.toNat + (header (s.blocks (i.zone 0))).data.toNat ≤
          518 * 1024 ∨ i.zone 8 = 0) := by
  rw [doExecve]
  refine (ensures_bread _ s).bind ?_
  rintro b s₁ ⟨hb, c, hc, hs₁⟩
  refine (ensures_brelse _ s₁).bind ?_
  rintro _ s₂ ⟨c', hc', hs₂⟩
  rw [show b = s.blocks (i.zone 0) from hb]
  generalize header (s.blocks (i.zone 0)) = ex at *
  refine ensures_ite (fun _ => ?_) fun hrefused => ?_
  · rw [iput, ensures_modify_bind, ensures_pure, ENOEXEC]
    omega
  rw [Bool.not_eq_true] at hrefused
  rw [hs₁] at hc' hs₂
  have hblocks : s₂.blocks = s.blocks := by
    rw [hs₂]
    exact hc'.data.trans hc.data
  have hcounts : s₂.counts = s.counts := by
    rw [hs₂]
    exact funext (counts_return hc (fun _ => rfl) hc')
  have h₂ : Ready n held s₂ := by
    rw [hs₂]
    exact ⟨h.pos, h.lt, h.exact, h.codeBase, h.dataBase, h.granular, h.code_le, h.data_le, h.owned⟩
  have hbound := (bounded_of_noWrap hrefused hw).1
  have hsame : ∀ s' : State, Faithful n i ex.toExec s₂ s' ↔ Faithful n i ex.toExec s s' := fun s' =>
    ⟨fun hf => ⟨hblocks ▸ hf.1, hf.2, hcounts ▸ hf.3⟩,
      fun hf => ⟨hblocks.symm ▸ hf.1, hf.2, hcounts.symm ▸ hf.3⟩⟩
  intro r s' hrun hr
  rw [hr] at hrun
  obtain ⟨a, htaken, hlt, hload⟩ := load_of_execAccepted hrun
  have hargs := length_le_total (argv ++ envp)
  rw [List.length_append] at hargs
  rw [← hsame]
  exact ensures_loadProgram_faithful h₂ htaken hlt.le hargs i hbound 0 s' hload

/-- **The image of a program.** When `do_execve` has succeeded, user memory has what the file says,
and all buffers have been released, if and only if the program needs no double-indirect block. -/
theorem faithful_iff (h : Ready n held s) (hw : NoWrap (header (s.blocks (i.zone 0))).toExec)
    (hok : doExecve i argv envp s = .ok (0, s')) :
    Faithful n i (header (s.blocks (i.zone 0))).toExec s s' ↔
      (header (s.blocks (i.zone 0))).text.toNat + (header (s.blocks (i.zone 0))).data.toNat ≤
        518 * 1024 ∨ i.zone 8 = 0 :=
  ensures_doExecve_faithful h hw 0 s' hok rfl

end Whole

/-! ### A program that is a hole -/

/-- The first block of a program with 520 kilobytes of text. -/
def sparseBlock : Block := fun j => ([(0, 0x0b), (1, 1), (5, 0x20), (6, 8)].lookup j).getD 0

/-- A file with this first block and the double-indirect block `z`, and no other block. -/
def sparse (z : ℕ) : Inode := ⟨0x100000, fun k => if k = 0 then 1 else if k = 8 then z else 0⟩

/-- A device with this file, and one buffer. -/
def sparseCache : Cache :=
  ⟨fun _ => none, [none], fun z => if z = 1 then sparseBlock else Fs.zeroBlock,
    fun _ _ h => nomatch h⟩

/-- A process that is alone with this device. -/
def sparseState : State := { slotState with cache := sparseCache }

theorem ready_sparseState : Ready 1 ∅ sparseState :=
  let h := ready_slotState
  ⟨h.pos, h.lt, h.exact, h.codeBase, h.dataBase, h.granular, h.code_le, h.data_le, h.owned⟩

section Sparse

variable {s : State}

theorem succeeds_bread {z : ℕ} (h : s.cache.Roomy) : Succeeds (bread z) s fun b s' =>
    b = s.cache.data z ∧ ∃ c, Cache.Read s.cache z c ∧ s' = { s with cache := c } := by
  obtain ⟨c, hc⟩ := Cache.exists_bread (z := z) h
  refine Ensures.succeeds (ensures_bread z s) ⟨(c.data z, { s with cache := c }), ?_⟩
  change (onCache _ _ s >>= _) = _
  rw [onCache, hc]
  rfl

theorem succeeds_brelse {z : ℕ} (h : s.cache.count z ≠ 0) : Succeeds (brelse z) s fun _ s' =>
    ∃ c, Cache.Released s.cache z c ∧ s' = { s with cache := c } := by
  have hc : s.cache.brelse z = some (s.cache.setCount z (s.cache.count z - 1)) := if_neg h
  refine Ensures.succeeds (ensures_brelse z s)
    ⟨((), { s with cache := s.cache.setCount z (s.cache.count z - 1) }), ?_⟩
  rw [brelse, onCache, hc]

theorem readBlock_hole (off : Word) : readBlock 0 off = pure () := if_pos rfl

theorem readInd_hole {size : ℤ} (hsize : 0 < size) (off : Word) : readInd 0 size off = pure () := by
  rw [readInd, if_neg (by omega), if_pos rfl]

/-- Nothing but the table of tables is read. -/
theorem succeeds_readArea_sparse {z : ℕ} (hroomy : s.cache.Roomy)
    (hzero : s.cache.data z = Fs.zeroBlock) :
    Succeeds (readArea (sparse z) 0x82000) s fun _ _ => True := by
  rw [readArea]
  have hhead : Succeeds (readHead (sparse z) ((0x82000 + blockSize - 1) / blockSize)) s
      fun _ s' => s' = s := by
    refine succeeds_forM_range (fun _ s' => s' = s) rfl fun k hk s' hs' => ?_
    have hzone : (sparse z).zone (k + 1) = 0 := by
      rw [blockSize] at hk
      rw [sparse]
      dsimp only
      rw [if_neg (by omega), if_neg (by omega)]
    rw [hzone, readBlock_hole]
    exact succeeds_pure hs'
  refine hhead.bind fun _ s₁ hs₁ => ?_
  have h₆ : (0x82000 : ℤ) - blockSize * 6 = 526336 := rfl
  have h₅₁₂ : (526336 : ℤ) - blockSize * 512 = 2048 := rfl
  rw [h₆, if_neg (by norm_num), h₅₁₂, if_neg (by norm_num), show (sparse z).zone 7 = 0 from rfl,
    readInd_hole (by norm_num), show (sparse z).zone 8 = z from rfl]
  refine Succeeds.bind (Q := fun _ s' => s' = s₁) (succeeds_pure rfl) fun _ s₂ hs₂ => ?_
  rw [hs₂, hs₁]
  by_cases hz : z = 0
  · rw [if_pos hz]
    exact succeeds_pure trivial
  rw [if_neg hz]
  refine (succeeds_bread hroomy).bind fun b s₃ ⟨hb, _⟩ => ?_
  rw [hb, hzero, readDindFrom, show Fs.word Fs.zeroBlock 0 = 0 from rfl, readInd_hole (by norm_num)]
  refine Succeeds.bind (Q := fun _ _ => True) (succeeds_pure trivial) fun _ s₄ _ => ?_
  have hend : (2048 : ℤ) - blockSize * 512 ≤ 0 := by decide
  rw [if_pos hend]
  exact succeeds_pure trivial

end Sparse

theorem header_sparseBlock : (header sparseBlock).refused 0x100000 = false ∧
    (header sparseBlock).text = 0x82000 ∧ (header sparseBlock).data = 0 := by decide

/-- The program is loaded, with the table of tables in block 2 or without it. -/
theorem runs_sparse {z : ℕ} (hz : z ≠ 1) :
    ∃ s', doExecve (sparse z) [] [] sparseState = .ok (0, s') := by
  obtain ⟨hrefused, htext, hdata⟩ := header_sparseBlock
  have hroomy : sparseCache.Roomy := ⟨none, List.mem_singleton.mpr rfl, rfl⟩
  have hsound : sparseCache.Sound := ⟨fun z h => absurd rfl h, fun _ => rfl⟩
  suffices h : Succeeds (doExecve (sparse z) [] []) sparseState fun r _ => r = 0 by
    obtain ⟨r, s', hok, rfl⟩ := h
    exact ⟨s', hok⟩
  rw [doExecve]
  refine (succeeds_bread hroomy).bind ?_
  rintro b s₁ ⟨hb, c₁, hc₁, hs₁⟩
  have hheld : s₁.cache.count 1 ≠ 0 := by
    rw [hs₁]
    dsimp only
    rw [hc₁.count, show (sparse z).zone 0 = 1 from rfl, Function.update_self]
    decide
  refine (succeeds_brelse hheld).bind ?_
  rintro _ s₂ ⟨c₂, hc₂, hs₂⟩
  rw [hs₁] at hc₂ hs₂
  dsimp only at hc₂
  have hcount : c₂.count = sparseCache.count := by
    rw [hc₂.count, hc₁.count]
    exact (Function.update_idem _ _ _).trans (Function.update_eq_self_iff.mpr rfl)
  have hroomy₂ : c₂.Roomy := hroomy.congr hsound (hc₂.sound (hc₁.sound hsound)) hcount
    (hc₂.length.trans hc₁.length)
  have hdata₂ : c₂.data = sparseCache.data := hc₂.data.trans hc₁.data
  rw [hb, show sparseState.cache.data ((sparse z).zone 0) = sparseBlock from rfl,
    show (sparse z).size = 0x100000 from rfl, hrefused, if_neg Bool.false_ne_true]
  have h₂ : Ready 1 ∅ s₂ := by
    rw [hs₂]
    exact ⟨le_rfl, by norm_num, ready_slotState.exact, ready_slotState.codeBase,
      ready_slotState.dataBase, ready_slotState.granular, ready_slotState.code_le,
      ready_slotState.data_le, ready_slotState.owned⟩
  suffices hload : Succeeds (loadProgram (sparse z) (header sparseBlock) 0 0 stackTop fun _ => 0) s₂
      fun r _ => r = 0 by
    obtain ⟨r, s₃, hok, hr⟩ := hload
    refine ⟨r, s₃, ?_, hr⟩
    rw [execAccepted_eq]
    change (if stackTop = 0 then abandon ⟨fun _ => 0, s₂.mem⟩ s₂
      else loadProgram (sparse z) (header sparseBlock) 0 0 stackTop (fun _ => 0) s₂) = _
    rw [if_neg (by decide)]
    exact hok
  have hfree : 35 + (([] : List Str).length + ([] : List Str).length) / 1024 ≤
      s₂.mem.freeFrames := by
    rw [hs₂]
    change _ ≤ (Memory.boot fun _ => 0).freeFrames
    rw [Memory.freeFrames_boot]
    norm_num
  have hstack := @succeeds_newStack 1 ∅ s₂ [] [] ⟨fun _ => 0, s₂.mem⟩ h₂ (Filled.start s₂.mem)
    (fun k hk => absurd hk (Nat.not_lt_zero k)) hfree 0x82000
  have hcache : Leaves State.cache (giveUp >>= fun _ =>
      newStack 0x82000 0 0 (BitVec.ofNat 32 (131068 - 0)) fun _ => 0) :=
    leaves_cache_giveUp.bind fun _ => leaves_cache_newStack _ _ _ _ _
  rw [loadProgram, htext, hdata, ← bind_assoc]
  refine (hstack.and (hcache _)).bind ?_
  rintro sp s₃ ⟨-, hs₃⟩
  refine Succeeds.bind (Q := fun _ s' => s'.cache = c₂) (succeeds_modify ?_) fun _ s₄ hs₄ => ?_
  · dsimp only
    rw [hs₃, hs₂]
  refine (succeeds_readArea_sparse (z := z) ?_ ?_).bind fun _ s₅ _ => ?_
  · rwa [hs₄]
  · rw [hs₄, hdata₂]
    exact if_neg hz
  refine Succeeds.bind (Q := fun _ _ => True) (succeeds_modify trivial) fun _ s₆ _ => ?_
  refine Succeeds.bind (Q := fun _ _ => True) (succeeds_pure trivial) fun _ s₇ _ => ?_
  exact Succeeds.bind (Q := fun _ _ => True) (succeeds_modify trivial) fun _ s₈ _ =>
    succeeds_pure rfl

theorem noWrap_sparse (z : ℕ) :
    NoWrap (header (sparseState.blocks ((sparse z).zone 0))).toExec := by
  have hblock : sparseState.blocks ((sparse z).zone 0) = sparseBlock := rfl
  rw [hblock]
  exact ⟨by decide, by decide⟩

theorem faithful_iff_hole : ∃ s', doExecve (sparse 0) [] [] sparseState = .ok (0, s') ∧
    (Faithful 1 (sparse 0) (header (sparseState.blocks ((sparse 0).zone 0))).toExec sparseState s' ↔
      (header (sparseState.blocks ((sparse 0).zone 0))).text.toNat +
        (header (sparseState.blocks ((sparse 0).zone 0))).data.toNat ≤ 518 * 1024 ∨
          (sparse 0).zone 8 = 0) := by
  obtain ⟨s', hok⟩ := runs_sparse zero_ne_one
  exact ⟨s', hok, faithful_iff ready_sparseState (noWrap_sparse 0) hok⟩

/-- With a double-indirect block the program is loaded, and its buffer is not released. -/
theorem not_faithful : ∃ s', doExecve (sparse 2) [] [] sparseState = .ok (0, s') ∧
    ¬ Faithful 1 (sparse 2) (header (sparseState.blocks ((sparse 2).zone 0))).toExec
      sparseState s' := by
  obtain ⟨s', hok⟩ := runs_sparse (by norm_num : 2 ≠ 1)
  refine ⟨s', hok, fun hf => ?_⟩
  have hcond := (ensures_doExecve_faithful ready_sparseState (noWrap_sparse 2) 0 s' hok rfl).mp hf
  have hblock : sparseState.blocks ((sparse 2).zone 0) = sparseBlock := rfl
  rw [hblock] at hcond
  exact absurd hcond (by decide)

end Linux001.Exec
