import Linux001.Fs.Blocks

/-!
# Inodes on the disk

A block of the inode table has 32 slots of 32 bytes, each with a `struct d_inode`: two words, two
long words, two bytes, and the nine zone numbers. The same fields are the first part of an inode in
core, so `read_inode` and `write_inode` copy a slot as a whole.

## Main definitions

* `DInode`: `struct d_inode`, with its words `DInode.word`.
* `slot`, `setSlot`: a slot of a block, read and stored.

## Main results

* `slot_setSlot`, `slot_setSlot_of_ne`: a stored inode is read back, and the other slots are kept.
-/

namespace Linux001.Fs

/-- `struct d_inode`. -/
@[ext]
structure DInode where
  mode : UInt16
  uid : UInt16
  size : UInt32
  time : UInt32
  gid : UInt8
  nlinks : UInt8
  zone : Fin 9 → UInt16

/-- The `i`-th `unsigned short` of the bytes of a `struct d_inode`. -/
def DInode.word (d : DInode) : ℕ → ℕ
  | 0 => d.mode.toNat
  | 1 => d.uid.toNat
  | 2 => d.size.toNat % 65536
  | 3 => d.size.toNat / 65536
  | 4 => d.time.toNat % 65536
  | 5 => d.time.toNat / 65536
  | 6 => d.gid.toNat + 256 * d.nlinks.toNat
  | i + 7 => if h : i < 9 then (d.zone ⟨i, h⟩).toNat else 0

/-- The `struct d_inode` with the sixteen words `w`. -/
def DInode.ofWords (w : ℕ → ℕ) : DInode where
  mode := UInt16.ofNat (w 0)
  uid := UInt16.ofNat (w 1)
  size := UInt32.ofNat (w 2 + 65536 * w 3)
  time := UInt32.ofNat (w 4 + 65536 * w 5)
  gid := UInt8.ofNat (w 6)
  nlinks := UInt8.ofNat (w 6 / 256)
  zone i := UInt16.ofNat (w (i + 7))

/-- `((struct d_inode *) bh->b_data)[k]`. -/
def slot (b : Block) (k : ℕ) : DInode := .ofWords fun i => word b (16 * k + i)

/-- `((struct d_inode *) bh->b_data)[k] = d`. -/
def setSlot (k : ℕ) (d : DInode) (b : Block) : Block := fun j =>
  if j / 32 = k then UInt8.ofNat (d.word (j % 32 / 2) / 256 ^ (j % 2)) else b j

variable {b b' : Block} {k k' : ℕ} {d : DInode}

theorem DInode.word_lt (d : DInode) (i : ℕ) : d.word i < 65536 := by
  match i with
  | 0 => exact d.mode.toNat_lt
  | 1 => exact d.uid.toNat_lt
  | 2 | 4 => exact Nat.mod_lt _ (by omega)
  | 3 =>
    have hsize := d.size.toNat_lt
    exact Nat.div_lt_of_lt_mul (by omega)
  | 5 =>
    have htime := d.time.toNat_lt
    exact Nat.div_lt_of_lt_mul (by omega)
  | 6 =>
    have hgid := d.gid.toNat_lt
    have hnlinks := d.nlinks.toNat_lt
    change d.gid.toNat + 256 * d.nlinks.toNat < 65536
    omega
  | i + 7 =>
    change (if h : i < 9 then (d.zone ⟨i, h⟩).toNat else 0) < 65536
    split
    · exact UInt16.toNat_lt _
    · omega

theorem DInode.ofWords_word (d : DInode) : ofWords d.word = d := by
  have hsize := d.size.toNat_lt
  have htime := d.time.toNat_lt
  have hgid := d.gid.toNat_lt
  have hnlinks := d.nlinks.toNat_lt
  ext i
  · exact congrArg UInt16.toNat UInt16.ofNat_toNat
  · exact congrArg UInt16.toNat UInt16.ofNat_toNat
  · change (UInt32.ofNat (d.size.toNat % 65536 + 65536 * (d.size.toNat / 65536))).toNat = _
    rw [Nat.mod_add_div, UInt32.ofNat_toNat]
  · change (UInt32.ofNat (d.time.toNat % 65536 + 65536 * (d.time.toNat / 65536))).toNat = _
    rw [Nat.mod_add_div, UInt32.ofNat_toNat]
  · change (UInt8.ofNat (d.gid.toNat + 256 * d.nlinks.toNat)).toNat = _
    rw [UInt8.toNat_ofNat']
    omega
  · change (UInt8.ofNat ((d.gid.toNat + 256 * d.nlinks.toNat) / 256)).toNat = _
    rw [UInt8.toNat_ofNat']
    omega
  · change (UInt16.ofNat (if h : i.val < 9 then (d.zone ⟨i, h⟩).toNat else 0)).toNat = _
    rw [dif_pos i.isLt, UInt16.ofNat_toNat]

theorem DInode.ofWords_congr {w w' : ℕ → ℕ} (h : ∀ i < 16, w i = w' i) :
    ofWords w = ofWords w' := by
  have hzone : ∀ i : Fin 9, w (i + 7) = w' (i + 7) := fun i => h _ (by omega)
  unfold ofWords
  simp only [h 0 (by omega), h 1 (by omega), h 2 (by omega), h 3 (by omega), h 4 (by omega),
    h 5 (by omega), h 6 (by omega), hzone]

/-- The bytes of other slots are kept. -/
theorem setSlot_of_ne {j : ℕ} (h : j / 32 ≠ k) : setSlot k d b j = b j := if_neg h

private theorem word_setSlot {i : ℕ} (hi : i < 16) :
    word (setSlot k d b) (16 * k + i) = d.word i := by
  have hlt := d.word_lt i
  have h₀ : 2 * (16 * k + i) / 32 = k := by omega
  have h₁ : (2 * (16 * k + i) + 1) / 32 = k := by omega
  have h₂ : 2 * (16 * k + i) % 32 / 2 = i := by omega
  have h₃ : (2 * (16 * k + i) + 1) % 32 / 2 = i := by omega
  have h₄ : 2 * (16 * k + i) % 2 = 0 := by omega
  have h₅ : (2 * (16 * k + i) + 1) % 2 = 1 := by omega
  unfold word setSlot
  rw [if_pos h₀, if_pos h₁, h₂, h₃, h₄, h₅, pow_zero, pow_one, Nat.div_one, UInt8.toNat_ofNat',
    UInt8.toNat_ofNat']
  omega

/-- A slot is read from its own bytes. -/
theorem slot_congr (h : ∀ j, j / 32 = k → b' j = b j) : slot b' k = slot b k := by
  refine DInode.ofWords_congr fun i hi => ?_
  unfold word
  rw [h _ (by omega), h _ (by omega)]

/-- A stored inode is read back. -/
theorem slot_setSlot : slot (setSlot k d b) k = d :=
  (DInode.ofWords_congr fun _ hi => word_setSlot hi).trans d.ofWords_word

/-- Storing an inode keeps the other slots. -/
theorem slot_setSlot_of_ne (h : k' ≠ k) : slot (setSlot k d b) k' = slot b k' :=
  slot_congr fun _ hj => setSlot_of_ne fun hk => h (hj.symm.trans hk)

end Linux001.Fs
