import Linux001.Fs.Blocks
import Mathlib.Data.List.Basic

/-!
# The buffers of a device

The model of `getblk`, `bread`, `brelse` and `sync_dev` of `fs/buffer.c` for one process at a time
and one device. Since no block is in two buffers, a buffer is addressed by the number of its block.
The list that begins at `free_list` has all buffers, held ones too; `getblk` takes the first one
that is not held, writes all changed buffers if this one has been changed, and puts it at the end of
the list with its new block.

What `bread` returns for a block is what the buffer of the block holds, and otherwise what the
device holds. This is the contents of the block that the file system sees: it does not depend on
which blocks are in the cache.

## Main definitions

* `Buf`, `Cache`: the buffers and the device.
* `Cache.getblk`, `Cache.bread`, `Cache.brelse`, `Cache.sync`: `buffer.c`.
* `Cache.data`, `Cache.count`: the contents of the blocks, and the references to their buffers.

## Main results

* `Cache.data_getblk`: taking a buffer from another block loses nothing.
* `Cache.exists_getblk`: `getblk` finds a buffer if there are more buffers than references.
-/

namespace Linux001.Fs

/-- What is in a buffer: nothing of its block (`b_uptodate = 0`), what the device holds, or
something that the device is still to be given (`b_dirt = 1`). -/
inductive BufState
  | stale
  | clean
  | dirty
  deriving DecidableEq

/-- A buffer with a block. `count` is `b_count`, an `unsigned char`. -/
structure Buf where
  data : Block
  state : BufState
  count : ℕ

/-- The buffer after `if (bh->b_dirt) ll_rw_block(WRITE, bh)`. -/
def Buf.written (b : Buf) : Buf := if b.state = .dirty then { b with state := .clean } else b

theorem Buf.written_of_dirty {b : Buf} (h : b.state = .dirty) :
    b.written = { b with state := .clean } := if_pos h

theorem Buf.written_of_not_dirty {b : Buf} (h : b.state ≠ .dirty) : b.written = b := if_neg h

/-- The buffers of the device, by the numbers of their blocks, and the device itself. The list has
the block of each buffer in the order of the free list, `none` for a buffer without a block. -/
structure Cache where
  buf : ℕ → Option Buf
  free : List (Option ℕ)
  disk : ℕ → Block
  clean : ∀ z b, buf z = some b → b.state = .clean → b.data = disk z

namespace Cache

theorem clean_none (_ : ℕ) (b : Buf) (h : none = some b) : b.state = .clean → b.data = zeroBlock :=
  nomatch h

variable (c : Cache) (z : ℕ)

/-- The contents of a block. -/
def data : Block :=
  match c.buf z with
  | none => c.disk z
  | some b => if b.state = .stale then c.disk z else b.data

/-- The references to the buffer of a block. -/
def count : ℕ :=
  match c.buf z with
  | none => 0
  | some b => b.count

/-- The buffer of the block has the contents of the block. -/
def Ready : Prop := ∃ b, c.buf z = some b ∧ b.state ≠ .stale

/-- Stores to the fields of the buffer of a block. -/
def change (f : Buf → Buf)
    (hf : ∀ b, c.buf z = some b → (f b).state = .clean → (f b).data = c.disk z) : Cache where
  buf := Function.update c.buf z ((c.buf z).map f)
  free := c.free
  disk := c.disk
  clean x b hb hstate := by
    rw [Function.update_apply] at hb
    split_ifs at hb with hx
    · obtain ⟨b₀, hb₀, rfl⟩ := Option.map_eq_some_iff.mp hb
      rw [hx]
      exact hf b₀ hb₀ hstate
    · exact c.clean x b hb hstate

/-- `b_count` gets the value `k`. -/
def setCount (k : ℕ) : Cache := c.change z (fun b => { b with count := k }) (c.clean z)

/-- `ll_rw_block(READ, bh)`. -/
def read : Cache :=
  c.change z (fun b => { b with data := c.disk z, state := .clean }) fun _ _ _ => rfl

/-- Stores to the data of a buffer, and `b_dirt = 1`. -/
def store (f : Block → Block) : Cache :=
  c.change z (fun b => { b with data := f b.data, state := .dirty }) fun _ _ => (nomatch ·)

/-- `b_dirt = 0` and `b_uptodate = 0`. -/
def forget : Cache := c.change z (fun b => { b with state := .stale }) fun _ _ => (nomatch ·)

/-- `sync_dev(dev)`. -/
def sync : Cache where
  buf x := (c.buf x).map Buf.written
  free := c.free
  disk x :=
    match c.buf x with
    | none => c.disk x
    | some b => if b.state = .dirty then b.data else c.disk x
  clean x b hb hstate := by
    obtain ⟨b₀, hb₀, rfl⟩ := Option.map_eq_some_iff.mp hb
    rw [hb₀]
    unfold Buf.written at hstate ⊢
    dsimp only
    split_ifs at hstate ⊢
    · rfl
    · exact c.clean x b₀ hb₀ hstate

/-- The buffer of the block `w`, or one without a block, gets the block `z`. -/
def relabel (w : Option ℕ) : Cache where
  buf x :=
    if x = z then some ⟨((w.bind c.buf).map Buf.data).getD zeroBlock, .stale, 1⟩
    else if some x = w then none
    else c.buf x
  free := c.free.erase w ++ [some z]
  disk := c.disk
  clean x b hb hstate := by
    split_ifs at hb with hx hw
    · rw [← Option.some.inj hb] at hstate
      cases hstate
    · exact c.clean x b hb hstate

/-- Nobody holds the buffer. -/
def isFree : Option ℕ → Bool
  | none => true
  | some x => c.count x = 0

/-- `b_dirt` of the buffer. -/
def isDirty (w : Option ℕ) : Bool :=
  match w.bind c.buf with
  | none => false
  | some b => b.state = .dirty

/-- `getblk(dev, z)`. Without a free buffer it sleeps for ever. -/
def getblk : Option Cache :=
  match c.buf z with
  | some b => some (c.setCount z ((b.count + 1) % 256))
  | none =>
    match c.free.find? c.isFree with
    | none => none
    | some w => some ((if c.isDirty w then c.sync else c).relabel z w)

/-- `bread(dev, z)`. -/
def bread : Option Cache :=
  (c.getblk z).map fun c =>
    match c.buf z with
    | none => c
    | some b => if b.state = .stale then c.read z else c

/-- `brelse(bh)` for the buffer of the block: a panic if nobody holds it. -/
def brelse : Option Cache := if c.count z = 0 then none else some (c.setCount z (c.count z - 1))

/-! ### Changing a buffer -/

section Lookup

variable {c z} {b : Buf}

theorem data_of_none (h : c.buf z = none) : c.data z = c.disk z := by
  unfold data
  rw [h]

theorem data_of_some (h : c.buf z = some b) :
    c.data z = if b.state = .stale then c.disk z else b.data := by
  unfold data
  rw [h]

theorem count_of_none (h : c.buf z = none) : c.count z = 0 := by
  unfold count
  rw [h]

theorem count_of_some (h : c.buf z = some b) : c.count z = b.count := by
  unfold count
  rw [h]

end Lookup

section Change

variable {c z} {f : Buf → Buf}
  {hf : ∀ b, c.buf z = some b → (f b).state = .clean → (f b).data = c.disk z} {x : ℕ} {b : Buf}

theorem buf_change_self (hb : c.buf z = some b) : (c.change z f hf).buf z = some (f b) := by
  change Function.update _ _ _ _ = _
  rw [Function.update_self, hb, Option.map_some]

theorem buf_change_of_ne (hx : x ≠ z) : (c.change z f hf).buf x = c.buf x :=
  Function.update_of_ne hx ..

theorem data_congr {c' : Cache} (hbuf : c'.buf x = c.buf x) (hdisk : c'.disk x = c.disk x) :
    c'.data x = c.data x := by
  unfold data
  rw [hbuf, hdisk]

theorem count_congr {c' : Cache} (hbuf : c'.buf x = c.buf x) : c'.count x = c.count x := by
  unfold count
  rw [hbuf]

theorem data_change_of_ne (hx : x ≠ z) : (c.change z f hf).data x = c.data x :=
  data_congr (buf_change_of_ne hx) rfl

/-- A change that keeps the data and the state of the buffer. -/
theorem data_change (h : ∀ b, (f b).data = b.data ∧ (f b).state = b.state) :
    (c.change z f hf).data = c.data := by
  funext x
  by_cases hx : x = z
  · subst hx
    cases hb : c.buf x with
    | none =>
      refine data_congr ?_ rfl
      change Function.update _ _ _ _ = _
      rw [Function.update_self, hb, Option.map_none]
    | some b =>
      rw [data_of_some (buf_change_self hb), data_of_some hb, (h b).1, (h b).2]
      rfl
  · exact data_change_of_ne hx

/-- A change that keeps the counter of the buffer. -/
theorem count_change (h : ∀ b, (f b).count = b.count) : (c.change z f hf).count = c.count := by
  funext x
  by_cases hx : x = z
  · subst hx
    cases hb : c.buf x with
    | none =>
      refine count_congr ?_
      change Function.update _ _ _ _ = _
      rw [Function.update_self, hb, Option.map_none]
    | some b => rw [count_of_some (buf_change_self hb), count_of_some hb, h b]
  · exact count_congr (buf_change_of_ne hx)

end Change

/-! ### The contents of the blocks -/

variable {c z} {c' : Cache}

@[simp]
theorem data_setCount (k : ℕ) : (c.setCount z k).data = c.data :=
  data_change fun _ => ⟨rfl, rfl⟩

theorem count_setCount {b : Buf} (hb : c.buf z = some b) (k : ℕ) :
    (c.setCount z k).count = Function.update c.count z k := by
  funext x
  rw [Function.update_apply]
  split_ifs with hx
  · rw [hx]
    exact count_of_some (buf_change_self hb)
  · exact count_congr (buf_change_of_ne hx)

@[simp]
theorem buf_sync (x : ℕ) : c.sync.buf x = (c.buf x).map Buf.written := rfl

theorem disk_sync_of_some {x : ℕ} {b : Buf} (hb : c.buf x = some b) :
    c.sync.disk x = if b.state = .dirty then b.data else c.disk x := by
  unfold sync
  dsimp only
  rw [hb]

theorem disk_sync_of_none {x : ℕ} (hb : c.buf x = none) : c.sync.disk x = c.disk x := by
  unfold sync
  dsimp only
  rw [hb]

@[simp]
theorem data_sync : c.sync.data = c.data := by
  funext x
  cases hb : c.buf x with
  | none => rw [data_of_none hb, data_of_none (by rw [buf_sync, hb, Option.map_none]),
      disk_sync_of_none hb]
  | some b =>
    have hb' : c.sync.buf x = some b.written := by rw [buf_sync, hb, Option.map_some]
    rw [data_of_some hb, data_of_some hb', disk_sync_of_some hb]
    by_cases h : b.state = .dirty
    · rw [Buf.written_of_dirty h, if_neg (by exact (nomatch ·)),
        if_neg (by rw [h]; exact (nomatch ·))]
    · rw [Buf.written_of_not_dirty h, if_neg h]

@[simp]
theorem count_sync : c.sync.count = c.count := by
  funext x
  cases hb : c.buf x with
  | none => rw [count_of_none hb, count_of_none (by rw [buf_sync, hb, Option.map_none])]
  | some b =>
    have hb' : c.sync.buf x = some b.written := by rw [buf_sync, hb, Option.map_some]
    rw [count_of_some hb, count_of_some hb', Buf.written]
    split_ifs <;> rfl

/-- No buffer is dirty after `sync_dev`. -/
theorem isDirty_sync (w : Option ℕ) : c.sync.isDirty w = false := by
  unfold isDirty
  cases w with
  | none => rfl
  | some x =>
    rw [Option.bind_some, buf_sync]
    cases c.buf x with
    | none => rfl
    | some b =>
      refine decide_eq_false ?_
      by_cases h : b.state = .dirty
      · rw [Buf.written_of_dirty h]
        exact (nomatch ·)
      · rwa [Buf.written_of_not_dirty h]

theorem buf_relabel_self {w : Option ℕ} : (c.relabel z w).buf z =
    some ⟨((w.bind c.buf).map Buf.data).getD zeroBlock, .stale, 1⟩ :=
  if_pos rfl

theorem buf_relabel_of_ne {w : Option ℕ} {x : ℕ} (hx : x ≠ z) :
    (c.relabel z w).buf x = if some x = w then none else c.buf x :=
  if_neg hx

/-- The buffer that is taken has nothing that the device does not have. -/
theorem data_relabel {w : Option ℕ} (hz : c.buf z = none) (hw : c.isDirty w = false) :
    (c.relabel z w).data = c.data := by
  funext x
  by_cases hx : x = z
  · rw [hx, data_of_none hz, data_of_some buf_relabel_self]
    rfl
  · have hbuf := buf_relabel_of_ne (c := c) (w := w) hx
    split_ifs at hbuf with hxw
    · -- The block `x` loses its buffer.
      subst hxw
      rw [data_of_none hbuf]
      cases hb : c.buf x with
      | none => exact (data_of_none hb).symm
      | some b =>
        rw [data_of_some hb]
        split_ifs with hstate
        · rfl
        · have hdirty : b.state ≠ .dirty := by
            rw [isDirty, Option.bind_some, hb] at hw
            exact of_decide_eq_false hw
          have hclean : b.state = .clean := by
            cases hs : b.state with
            | stale => exact absurd hs hstate
            | clean => rfl
            | dirty => exact absurd hs hdirty
          exact (c.clean x b hb hclean).symm
    · exact data_congr hbuf rfl

theorem count_relabel {w : Option ℕ} (hw : c.isFree w = true) :
    (c.relabel z w).count = Function.update c.count z 1 := by
  funext x
  rw [Function.update_apply]
  split_ifs with hx
  · rw [hx]
    exact count_of_some buf_relabel_self
  · have hbuf := buf_relabel_of_ne (c := c) (w := w) hx
    split_ifs at hbuf with hxw
    · subst hxw
      rw [count_of_none hbuf]
      exact (of_decide_eq_true hw).symm
    · exact count_congr hbuf

/-- Looking for a buffer changes the contents of no block: the buffer that is taken from another
block is written to the device before if it has to be. -/
theorem data_getblk (h : c.getblk z = some c') : c'.data = c.data := by
  unfold getblk at h
  split at h
  · rw [← Option.some.inj h, data_setCount]
  · split at h
    · cases h
    · rename_i hz _ w hw
      rw [← Option.some.inj h]
      split_ifs with hd
      · rw [data_relabel (by rw [buf_sync, hz, Option.map_none]) (isDirty_sync w), data_sync]
      · exact data_relabel hz (Bool.eq_false_iff.mpr hd)

theorem count_getblk (h : c.getblk z = some c') :
    c'.count = Function.update c.count z ((c.count z + 1) % 256) := by
  unfold getblk at h
  split at h
  · rename_i b hb
    rw [← Option.some.inj h, count_setCount hb, count_of_some hb]
  · split at h
    · cases h
    · rename_i hz _ w hw
      have hfree := List.find?_some hw
      rw [← Option.some.inj h, count_of_none hz]
      split_ifs with hd
      · have hfree' : c.sync.isFree w = true := by
          cases w with
          | none => rfl
          | some x =>
            change decide (c.sync.count x = 0) = true
            rw [count_sync]
            exact hfree
        rw [count_relabel hfree', count_sync]
      · exact count_relabel hfree

/-! ### Held buffers -/

/-- Every buffer that is held has the contents of its block, and the blocks of the buffers in the
list are those in the cache. -/
structure Sound (c : Cache) : Prop where
  held : ∀ z, c.count z ≠ 0 → c.Ready z
  listed : ∀ z, c.free.count (some z) = if (c.buf z).isSome then 1 else 0

theorem Ready.data {b : Buf} (h : c.Ready z) (hb : c.buf z = some b) : c.data z = b.data := by
  obtain ⟨b', hb', hstate⟩ := h
  obtain rfl : b = b' := Option.some.inj (hb.symm.trans hb')
  rw [data_of_some hb, if_neg hstate]

theorem isSome_change {f : Buf → Buf}
    {hf : ∀ b, c.buf z = some b → (f b).state = .clean → (f b).data = c.disk z} (x : ℕ) :
    ((c.change z f hf).buf x).isSome = (c.buf x).isSome := by
  by_cases hx : x = z
  · subst hx
    have hself : (c.change x f hf).buf x = (c.buf x).map f := Function.update_self ..
    rw [hself, Option.isSome_map]
  · rw [buf_change_of_ne hx]

/-- A change of a buffer after which it is not stale, unless nobody holds it. -/
theorem Sound.change (h : c.Sound) {f : Buf → Buf}
    {hf : ∀ b, c.buf z = some b → (f b).state = .clean → (f b).data = c.disk z}
    (hcount : ∀ x ≠ z, (c.change z f hf).count x = c.count x)
    (hready : (c.change z f hf).count z ≠ 0 → (c.change z f hf).Ready z) :
    (c.change z f hf).Sound where
  held x hx := by
    by_cases hxz : x = z
    · rw [hxz] at hx ⊢
      exact hready hx
    · rw [hcount x hxz] at hx
      obtain ⟨b, hb, hstate⟩ := h.held x hx
      exact ⟨b, (buf_change_of_ne hxz).trans hb, hstate⟩
  listed x := by
    rw [isSome_change]
    exact h.listed x

theorem ready_sync (h : c.Ready z) : c.sync.Ready z := by
  obtain ⟨b, hb, hstate⟩ := h
  refine ⟨b.written, by rw [buf_sync, hb, Option.map_some], ?_⟩
  unfold Buf.written
  split_ifs
  · exact (nomatch ·)
  · exact hstate

theorem Sound.sync (h : c.Sound) : c.sync.Sound where
  held x hx := by
    rw [count_sync] at hx
    exact ready_sync (h.held x hx)
  listed x := by
    rw [buf_sync, Option.isSome_map]
    exact h.listed x

theorem listed_relabel {w : Option ℕ} (h : c.Sound) (hz : c.buf z = none)
    (hw : w ∈ c.free) (x : ℕ) :
    (c.relabel z w).free.count (some x) = if ((c.relabel z w).buf x).isSome then 1 else 0 := by
  have hx := h.listed x
  change (c.free.erase w ++ [some z]).count (some x) = _
  rw [List.count_append, List.count_singleton]
  by_cases hxz : x = z
  · subst hxz
    have hxw : some x ≠ w := by
      rintro rfl
      rw [hz] at hx
      exact absurd hx (List.count_pos_iff.mpr hw).ne'
    rw [buf_relabel_self, List.count_erase_of_ne hxw, hx, hz]
    simp only [Option.isSome_none, Option.isSome_some, beq_self_eq_true, if_true]
    rfl
  · have hne : (some z == some x) = false := beq_eq_false_iff_ne.mpr fun h =>
      hxz (Option.some.inj h).symm
    rw [buf_relabel_of_ne hxz, if_neg (Bool.eq_false_iff.mp hne), Nat.add_zero]
    by_cases hxw : some x = w
    · subst hxw
      rw [List.count_erase_self, hx, if_pos rfl]
      cases c.buf x <;> rfl
    · rw [List.count_erase_of_ne hxw, hx, if_neg hxw]

/-- A held buffer is not taken by `getblk`. The buffer that `getblk` returns for another block is
held with whatever was in it. -/
theorem sound_getblk (h : c.getblk z = some c') (hs : c.Sound) :
    (∀ x ≠ z, c'.count x ≠ 0 → c'.Ready x) ∧
      (∀ x, c'.free.count (some x) = if (c'.buf x).isSome then 1 else 0) ∧
        (c.count z ≠ 0 → c'.Ready z) := by
  have hcount := count_getblk h
  unfold getblk at h
  split at h
  · rename_i b hb
    have hready (x : ℕ) (hx : c.count x ≠ 0) : c'.Ready x := by
      obtain ⟨b', hb', hstate⟩ := hs.held x hx
      rw [← Option.some.inj h]
      by_cases hxz : x = z
      · subst hxz
        exact ⟨_, buf_change_self hb', hstate⟩
      · exact ⟨b', (buf_change_of_ne hxz).trans hb', hstate⟩
    refine ⟨fun x hxz hx => hready x ?_, fun x => ?_, hready z⟩
    · rwa [hcount, Function.update_of_ne hxz] at hx
    · rw [← Option.some.inj h, setCount, isSome_change]
      exact hs.listed x
  · rename_i hz
    split at h
    · cases h
    · rename_i w hw
      have hfree : c.isFree w = true := List.find?_some hw
      have hmem : w ∈ c.free := List.mem_of_find?_eq_some hw
      have hkeep (c₁ : Cache) (h₁ : c₁.Sound) (hcount₁ : c₁.count = c.count) (x : ℕ) (hxz : x ≠ z)
          (hx : c.count x ≠ 0) : (c₁.relabel z w).Ready x := by
        obtain ⟨b, hb, hstate⟩ := h₁.held x (hcount₁ ▸ hx)
        refine ⟨b, ?_, hstate⟩
        rw [buf_relabel_of_ne hxz, if_neg, hb]
        rintro rfl
        exact hx (of_decide_eq_true hfree)
      refine ⟨fun x hxz hx => ?_, fun x => ?_, fun hx => absurd (count_of_none hz) hx⟩
      · rw [hcount, Function.update_of_ne hxz] at hx
        rw [← Option.some.inj h]
        split_ifs
        · exact hkeep _ hs.sync count_sync x hxz hx
        · exact hkeep _ hs rfl x hxz hx
      · rw [← Option.some.inj h]
        by_cases hd : c.isDirty w = true
        · rw [if_pos hd]
          exact listed_relabel hs.sync (by rw [buf_sync, hz, Option.map_none]) hmem x
        · rw [if_neg hd]
          exact listed_relabel hs hz hmem x

theorem exists_buf_getblk (h : c.getblk z = some c') : ∃ b, c'.buf z = some b := by
  unfold getblk at h
  split at h
  · rename_i b hb
    rw [← Option.some.inj h]
    exact ⟨_, buf_change_self hb⟩
  · split at h
    · cases h
    · rw [← Option.some.inj h]
      exact ⟨_, buf_relabel_self⟩

/-- The number of buffers stays what it is. -/
theorem length_getblk (h : c.getblk z = some c') : c'.free.length = c.free.length := by
  unfold getblk at h
  split at h
  · rw [← Option.some.inj h]
    rfl
  · split at h
    · cases h
    · rename_i w hw
      have hmem : w ∈ c.free := List.mem_of_find?_eq_some hw
      have hpos := List.length_pos_of_mem hmem
      have hlength : (c.free.erase w ++ [some z]).length = c.free.length := by
        rw [List.length_append, List.length_erase_of_mem hmem, List.length_singleton]
        omega
      rw [← Option.some.inj h]
      split_ifs <;> exact hlength

/-- What is known after `bread`: the contents of all blocks are kept, and there is one reference
more to a buffer that has the contents of its block. -/
structure Read (c : Cache) (z : ℕ) (c' : Cache) : Prop where
  data : c'.data = c.data
  count : c'.count = Function.update c.count z ((c.count z + 1) % 256)
  ready : c'.Ready z
  sound : c.Sound → c'.Sound
  length : c'.free.length = c.free.length

theorem read_bread (h : c.bread z = some c') : Read c z c' := by
  obtain ⟨c₁, h₁, hc'⟩ := Option.map_eq_some_iff.mp h
  obtain ⟨b, hb⟩ := exists_buf_getblk h₁
  rw [hb] at hc'
  dsimp only at hc'
  split_ifs at hc' with hstate
  · -- The buffer is filled with what the device has.
    have hbuf : c'.buf z = some { b with data := c₁.disk z, state := .clean } := by
      rw [← hc']
      exact buf_change_self hb
    have hready : c'.Ready z := ⟨_, hbuf, (nomatch ·)⟩
    have hcount : c'.count = c₁.count := by
      rw [← hc']
      exact count_change fun _ => rfl
    have hdata : c'.data = c₁.data := by
      funext x
      by_cases hx : x = z
      · rw [hx, hready.data hbuf, data_of_some hb, if_pos hstate]
      · rw [← hc']
        exact data_change_of_ne hx
    have hlength : c'.free.length = c₁.free.length := by
      rw [← hc']
      rfl
    refine ⟨hdata.trans (data_getblk h₁), hcount.trans (count_getblk h₁), hready, fun hs => ?_,
      hlength.trans (length_getblk h₁)⟩
    obtain ⟨hheld, hlisted, -⟩ := sound_getblk h₁ hs
    refine ⟨fun x hx => ?_, fun x => ?_⟩
    · by_cases hxz : x = z
      · rwa [hxz]
      · rw [hcount] at hx
        obtain ⟨b', hb', hstate'⟩ := hheld x hxz hx
        refine ⟨b', ?_, hstate'⟩
        rw [← hc', ← hb']
        exact buf_change_of_ne hxz
    · rw [← hc', read, isSome_change]
      exact hlisted x
  · subst hc'
    refine ⟨data_getblk h₁, count_getblk h₁, ⟨b, hb, hstate⟩, fun hs => ?_, length_getblk h₁⟩
    obtain ⟨hheld, hlisted, -⟩ := sound_getblk h₁ hs
    refine ⟨fun x hx => ?_, hlisted⟩
    by_cases hxz : x = z
    · rw [hxz]
      exact ⟨b, hb, hstate⟩
    · exact hheld x hxz hx

theorem exists_buf_of_count (h : c.count z ≠ 0) : ∃ b, c.buf z = some b := by
  cases hb : c.buf z with
  | none => exact absurd (count_of_none hb) h
  | some b => exact ⟨b, rfl⟩

/-- What is known after `brelse`: there is one reference less. -/
structure Released (c : Cache) (z : ℕ) (c' : Cache) : Prop where
  pos : c.count z ≠ 0
  data : c'.data = c.data
  count : c'.count = Function.update c.count z (c.count z - 1)
  sound : c.Sound → c'.Sound
  length : c'.free.length = c.free.length

theorem released_brelse (h : c.brelse z = some c') : Released c z c' := by
  unfold brelse at h
  split_ifs at h with h0
  obtain ⟨b, hb⟩ := exists_buf_of_count h0
  rw [← Option.some.inj h]
  refine ⟨h0, data_setCount _, count_setCount hb _, fun hs => hs.change (fun x hx => ?_) ?_, rfl⟩
  · exact count_congr (buf_change_of_ne hx)
  · obtain ⟨b', hb', hstate⟩ := hs.held z h0
    exact fun _ => ⟨_, buf_change_self hb', hstate⟩

/-- Stores to a held buffer change its block. -/
theorem data_store (h : c.Ready z) (f : Block → Block) :
    (c.store z f).data = Function.update c.data z (f (c.data z)) := by
  obtain ⟨b, hb, hstate⟩ := h
  funext x
  rw [Function.update_apply]
  split_ifs with hx
  · have hb' : (c.store z f).buf z = some { b with data := f b.data, state := .dirty } :=
      buf_change_self hb
    rw [hx, data_of_some hb', if_neg (by exact (nomatch ·)), data_of_some hb, if_neg hstate]
  · exact data_change_of_ne hx

@[simp]
theorem count_store (f : Block → Block) : (c.store z f).count = c.count :=
  count_change fun _ => rfl

theorem ready_store {b : Buf} (hb : c.buf z = some b) (f : Block → Block) : (c.store z f).Ready z :=
  ⟨_, buf_change_self hb, (nomatch ·)⟩

theorem Sound.store (h : c.Sound) (f : Block → Block) : (c.store z f).Sound := by
  refine h.change (fun x hx => count_congr (buf_change_of_ne hx)) fun hz => ?_
  have hz : c.count z ≠ 0 := by rwa [← count_store f]
  obtain ⟨b, hb⟩ := exists_buf_of_count hz
  exact ready_store hb f

theorem data_forget_of_ne {x : ℕ} (hx : x ≠ z) : (c.forget z).data x = c.data x :=
  data_change_of_ne hx

@[simp]
theorem count_forget : (c.forget z).count = c.count := count_change fun _ => rfl

/-! ### Free buffers -/

/-- Some buffer is not held: there are more buffers than held ones. -/
def Roomy (c : Cache) : Prop := ∃ w ∈ c.free, c.isFree w = true

theorem roomy_iff : c.Roomy ↔ (c.free.filter fun w => !c.isFree w).length < c.free.length := by
  rw [List.length_filter_lt_length_iff_exists]
  simp only [Roomy, Bool.not_eq_true', Bool.not_eq_false]

/-- `getblk` finds a buffer if there are more buffers than held ones. -/
theorem exists_getblk (h : c.Roomy) : ∃ c', c.getblk z = some c' := by
  unfold getblk
  split
  · exact ⟨_, rfl⟩
  · split
    · rename_i hw
      obtain ⟨w, hmem, hfree⟩ := h
      exact absurd hfree (List.find?_eq_none.mp hw w hmem)
    · exact ⟨_, rfl⟩

theorem exists_bread (h : c.Roomy) : ∃ c', c.bread z = some c' := by
  obtain ⟨c', hc'⟩ := exists_getblk (z := z) h
  exact ⟨_, Option.map_eq_some_iff.mpr ⟨c', hc', rfl⟩⟩

/-- The number of held buffers depends on the references only. -/
theorem Roomy.congr (h : c.Roomy) (hs : c.Sound) (hs' : c'.Sound) (hcount : c'.count = c.count)
    (hlength : c'.free.length = c.free.length) : c'.Roomy := by
  have hfree : c'.isFree = c.isFree := by
    funext w
    cases w with
    | none => rfl
    | some x => exact congrArg (fun k => decide (k = 0)) (congrFun hcount x)
  have hperm : (c'.free.filter fun w => !c'.isFree w).Perm
      (c.free.filter fun w => !c.isFree w) := by
    rw [List.perm_iff_count]
    intro w
    rw [hfree]
    by_cases hw : c.isFree w = true
    · rw [List.count_eq_zero.mpr, List.count_eq_zero.mpr]
      · exact fun h => absurd (List.mem_filter.mp h).2 (by simp [hw])
      · exact fun h => absurd (List.mem_filter.mp h).2 (by simp [hw])
    · rw [List.count_filter (by simp [hw]), List.count_filter (by simp [hw])]
      cases w with
      | none => exact absurd rfl hw
      | some x =>
        have hx : c.count x ≠ 0 := fun h => hw (decide_eq_true h)
        obtain ⟨b, hb⟩ := exists_buf_of_count hx
        obtain ⟨b', hb'⟩ := exists_buf_of_count (c := c') (z := x) (hcount ▸ hx)
        rw [hs.listed, hs'.listed, hb, hb']
        rfl
  rw [roomy_iff] at h ⊢
  rw [hperm.length_eq, hlength]
  exact h

end Cache

end Linux001.Fs
