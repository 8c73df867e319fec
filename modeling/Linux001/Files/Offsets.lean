import Linux001.Fs.Namei
import Linux001.Fs.ZoneTree
import Mathlib.Data.BitVec
import Mathlib.Tactic.NormNum

/-!
# File offsets

The model of `sys_lseek`, `sys_read` and `sys_write` of `fs/read_write.c`, with `file_read` and
`file_write` of `fs/file_dev.c`, for one process that opens regular files. An `off_t` is a signed
32-bit number and `i_size` an unsigned one. What the device does is part of a call: which blocks of
the file can be obtained.

`sys_lseek` takes any offset that is not negative, and `sys_read` clips at the end of the file.
Nothing clips a write: it comes to `_bmap` with a block beyond the largest file.

## Main definitions

* `State`, `Call`, `perform`: the open files, and the calls.
* `Harmless`: in a sequence of calls nothing panics, and no offset is negative.
* `InRange`: a write stays below the largest size, or comes to an end before.

## Main results

* `perform_spec`: a call panics if and only if it is a write that is not in range.
* `offsets_iff`: a sequence of calls is harmless if and only if all its writes are in range.
-/

namespace Linux001.Files.Offsets

open Fs (Errno Fault maxBlocks)

/-- A word of 32 bits. -/
abbrev Word := BitVec 32

/-- `f_flags & O_APPEND`, the number of the inode, and `f_pos`. -/
structure OpenFile where
  append : Bool
  inode : ℕ
  pos : Word

/-- `i_size` of the regular files, and the open files of the process. -/
structure State where
  size : ℕ → Word
  filp : ℕ → Option OpenFile

/-- The calls of the process. What `open_namei` finds is the number of an inode, and whether the
file has been created or truncated; `get k` says that the block `k` of the file can be obtained: it
can be read or is a hole, or else it can be created and read. -/
inductive Call
  | open (append : Bool) (found : Option (ℕ × Bool))
  | lseek (fd : ℕ) (offset : Word) (origin : ℤ)
  | read (fd : ℕ) (count : Word) (get : ℕ → Bool)
  | write (fd : ℕ) (count : Word) (get : ℕ → Bool)

/-- The largest size of a file. -/
def maxSize : ℕ := maxBlocks * 1024

/-! ### The functions -/

/-- `_bmap(inode, block, create)`, and whether the block can be obtained. -/
def bmap (get : ℕ → Bool) (block : ℤ) : Except Fault Bool :=
  if block < 0 then .error (.panic "_bmap: block<0")
  else if 7 + 512 + 512 * 512 ≤ block then .error (.panic "_bmap: block>big")
  else .ok (get block.toNat)

/-- The loop of `file_read` from the offset `f_pos` on: the offset afterwards and `left`. Every turn
reads at least one byte, so that `count` turns are enough. -/
def fileReadFrom (get : ℕ → Bool) : ℕ → Word → ℕ → Except Fault (Word × ℕ)
  | 0, pos, left => .ok (pos, left)
  | fuel + 1, pos, left =>
    if left = 0 then .ok (pos, left)
    else do
      let ok ← bmap get (pos.toInt.tdiv 1024)
      if ok then
        let chars := (min (1024 - pos.toInt.tmod 1024) left).toNat
        fileReadFrom get fuel (pos + BitVec.ofNat 32 chars) (left - chars)
      else .ok (pos, left)

/-- The loop of `file_write`: `pos`, `i` and `i_size` afterwards. -/
def fileWriteFrom (get : ℕ → Bool) (count : ℕ) :
    ℕ → Word → ℕ → Word → Except Fault (Word × ℕ × Word)
  | 0, pos, i, size => .ok (pos, i, size)
  | fuel + 1, pos, i, size =>
    if i < count then do
      let ok ← bmap get (pos.toInt.tdiv 1024)
      if ok then
        let c := (min (1024 - pos.toInt.tmod 1024) ((count - i : ℕ) : ℤ)).toNat
        let pos := pos + BitVec.ofNat 32 c
        fileWriteFrom get count fuel pos (i + c) (if size.toNat < pos.toNat then pos else size)
      else .ok (pos, i, size)
    else .ok (pos, i, size)

/-- What a call returns. -/
abbrev Result := Except Errno Word

/-- `file->f_pos = pos`. -/
def State.setPos (s : State) (fd : ℕ) (f : OpenFile) (pos : Word) : State :=
  { s with filp := Function.update s.filp fd (some { f with pos := pos }) }

/-- `sys_open(filename, flag, mode)`. -/
def sysOpen (append : Bool) (found : Option (ℕ × Bool)) (s : State) : Result × State :=
  match (List.range 20).find? fun fd => (s.filp fd).isNone, found with
  | some fd, some (n, fresh) =>
    (.ok (BitVec.ofNat 32 fd), {
      size := if fresh then Function.update s.size n 0 else s.size
      filp := Function.update s.filp fd (some ⟨append, n, 0⟩) })
  | _, _ => (.error .EINVAL, s)

/-- `sys_lseek(fd, offset, origin)`. -/
def sysLseek (fd : ℕ) (offset : Word) (origin : ℤ) (s : State) : Result × State :=
  match if 20 ≤ fd then none else s.filp fd with
  | none => (.error .EBADF, s)
  | some f =>
    if origin = 0 then
      if offset.toInt < 0 then (.error .EINVAL, s) else (.ok offset, s.setPos fd f offset)
    else if origin = 1 then
      if (f.pos + offset).toInt < 0 then (.error .EINVAL, s)
      else (.ok (f.pos + offset), s.setPos fd f (f.pos + offset))
    else if origin = 2 then
      let tmp := s.size f.inode + offset
      if tmp.toInt < 0 then (.error .EINVAL, s) else (.ok tmp, s.setPos fd f tmp)
    else (.error .EINVAL, s)

/-- `sys_read(fd, buf, count)`. -/
def sysRead (fd : ℕ) (count : Word) (get : ℕ → Bool) (s : State) : Except Fault (Result × State) :=
  match if 20 ≤ fd ∨ count.toInt < 0 then none else s.filp fd with
  | none => .ok (.error .EINVAL, s)
  | some f =>
    if count = 0 then .ok (.ok 0, s)
    else
      let size := s.size f.inode
      let count := if size.toNat < (count + f.pos).toNat then size - f.pos else count
      if count.toInt ≤ 0 then .ok (.ok 0, s)
      else do
        let (pos, left) ← fileReadFrom get count.toNat f.pos count.toNat
        let done := count.toNat - left
        pure (if done = 0 then .error .ERROR else .ok (BitVec.ofNat 32 done), s.setPos fd f pos)

/-- `sys_write(fd, buf, count)`. -/
def sysWrite (fd : ℕ) (count : Word) (get : ℕ → Bool) (s : State) :
    Except Fault (Result × State) :=
  match if 20 ≤ fd ∨ count.toInt < 0 then none else s.filp fd with
  | none => .ok (.error .EINVAL, s)
  | some f =>
    if count = 0 then .ok (.ok 0, s)
    else do
      let start := if f.append then s.size f.inode else f.pos
      let (pos, i, size) ← fileWriteFrom get count.toNat count.toNat start 0 (s.size f.inode)
      let s := { s with size := Function.update s.size f.inode size }
      pure (if i = 0 then .error .EPERM else .ok (BitVec.ofNat 32 i),
        if f.append then s else s.setPos fd f pos)

/-- A call, from its start to its return. -/
def perform : Call → State → Except Fault (Result × State)
  | .open append found, s => .ok (sysOpen append found s)
  | .lseek fd offset origin, s => .ok (sysLseek fd offset origin s)
  | .read fd count get, s => sysRead fd count get s
  | .write fd count get, s => sysWrite fd count get s

/-! ### Sequences of calls -/

/-- No offset is negative. -/
def State.NonNeg (s : State) : Prop := ∀ fd f, s.filp fd = some f → 0 ≤ f.pos.toInt

/-- No call panics, and no offset is ever negative. -/
def Harmless : State → List Call → Prop
  | s, [] => s.NonNeg
  | s, c :: cs => s.NonNeg ∧ ∃ r s', perform c s = .ok (r, s') ∧ Harmless s' cs

/-- A write of `count` bytes ends at the largest size of a file or before, or it begins before, and
some block up to there cannot be obtained. -/
def Stays (get : ℕ → Bool) (start count : ℕ) : Prop :=
  start + count ≤ maxSize ∨
    start < maxSize ∧ ∃ k, start / 1024 ≤ k ∧ k < maxBlocks ∧ get k = false

/-- If the call writes to a file, it stays below the largest size. -/
def InRange (s : State) : Call → Prop
  | .write fd count get => fd < 20 → 0 < count.toInt → ∀ f, s.filp fd = some f →
      Stays get (if f.append then s.size f.inode else f.pos).toNat count.toNat
  | _ => True

/-- All writes of a sequence are in range. -/
def AllInRange : State → List Call → Prop
  | _, [] => True
  | s, c :: cs => InRange s c ∧ ∀ r s', perform c s = .ok (r, s') → AllInRange s' cs

/-- No file is larger than `_bmap` allows, and no offset is negative. -/
structure Inv (s : State) : Prop where
  size : ∀ n, (s.size n).toNat ≤ maxSize
  nonNeg : s.NonNeg

variable {s s' : State} {get : ℕ → Bool} {pos size : Word} {count left i fd : ℕ}

/-! ### Words -/

theorem nonneg_iff (w : Word) : 0 ≤ w.toInt ↔ w.toNat < 2 ^ 31 := by
  rw [BitVec.toInt_eq_toNat_cond]
  have := w.isLt
  split_ifs <;> omega

theorem toInt_of_lt {w : Word} (h : w.toNat < 2 ^ 31) : w.toInt = w.toNat :=
  BitVec.toInt_eq_toNat_of_lt (by omega)

theorem tdiv_of_lt {w : Word} (h : w.toNat < 2 ^ 31) :
    w.toInt.tdiv 1024 = (w.toNat / 1024 : ℕ) := by
  rw [toInt_of_lt h]
  rfl

theorem tmod_of_lt {w : Word} (h : w.toNat < 2 ^ 31) :
    w.toInt.tmod 1024 = (w.toNat % 1024 : ℕ) := by
  rw [toInt_of_lt h]
  rfl

theorem toNat_add_ofNat {w : Word} {c : ℕ} (h : w.toNat + c < 2 ^ 32) :
    (w + BitVec.ofNat 32 c).toNat = w.toNat + c := by
  rw [BitVec.toNat_add, BitVec.toNat_ofNat]
  omega

theorem maxSize_eq : maxSize = 268966912 := rfl

/-- The number of bytes of a turn. -/
theorem toNat_chars {w : Word} (h : w.toNat < 2 ^ 31) (n : ℕ) :
    (min (1024 - w.toInt.tmod 1024) (n : ℤ)).toNat = min (1024 - w.toNat % 1024) n := by
  rw [tmod_of_lt h]
  omega

/-! ### The loops -/

theorem bmap_of_lt (h : pos.toNat < maxSize) (get : ℕ → Bool) :
    bmap get (pos.toInt.tdiv 1024) = .ok (get (pos.toNat / 1024)) := by
  rw [maxSize_eq] at h
  rw [bmap, tdiv_of_lt (by omega), if_neg (by omega), if_neg (by omega), Int.toNat_natCast]

theorem bmap_of_ge (h : maxSize ≤ pos.toNat) (h' : pos.toNat < 2 ^ 31) (get : ℕ → Bool) :
    bmap get (pos.toInt.tdiv 1024) = .error (.panic "_bmap: block>big") := by
  rw [maxSize_eq] at h
  rw [bmap, tdiv_of_lt h', if_neg (by omega), if_pos (by omega)]

/-- A read that ends before the largest size of a file does not panic. -/
theorem fileReadFrom_ok (get : ℕ → Bool) (fuel : ℕ) (h : pos.toNat + left ≤ maxSize) :
    ∃ pos' left', fileReadFrom get fuel pos left = .ok (pos', left') ∧ pos'.toNat ≤ maxSize := by
  induction fuel generalizing pos left with
  | zero => exact ⟨pos, left, rfl, by omega⟩
  | succ fuel ih =>
    rw [fileReadFrom]
    by_cases h0 : left = 0
    · rw [if_pos h0]
      exact ⟨pos, left, rfl, by omega⟩
    · have hmax := maxSize_eq
      rw [if_neg h0, bmap_of_lt (by omega), toNat_chars (by omega)]
      change ∃ pos' left', (if get (pos.toNat / 1024) = true then fileReadFrom get fuel _ _
        else .ok (pos, left)) = _ ∧ _
      split_ifs
      · refine ih ?_
        rw [toNat_add_ofNat (by omega)]
        omega
      · exact ⟨pos, left, rfl, by omega⟩

/-- After a block has been written, the rest stays below the largest size if the write does. -/
theorem stays_next {p n : ℕ} (hget : get (p / 1024) = true) :
    Stays get (p + min (1024 - p % 1024) n) (n - min (1024 - p % 1024) n) ↔ Stays get p n := by
  have hmax : maxSize = maxBlocks * 1024 := rfl
  constructor
  · rintro (hle | ⟨hlt, k, hk, hbound, hfalse⟩)
    · exact .inl (by omega)
    · exact .inr ⟨by omega, k, by omega, hbound, hfalse⟩
  · rintro (hle | ⟨hlt, k, hk, hbound, hfalse⟩)
    · exact .inl (by omega)
    · -- The block that cannot be obtained is another one.
      have hne : k ≠ p / 1024 := fun heq => by
        rw [heq, hget] at hfalse
        cases hfalse
      rcases Nat.lt_or_ge n (1024 - p % 1024) with hlast | hmore
      · exact .inl (by omega)
      · exact .inr ⟨by omega, k, by omega, hbound, hfalse⟩

/-- The loop of `file_write` panics if and only if the write does not stay below the largest
size. -/
theorem fileWriteFrom_spec (get : ℕ → Bool) {fuel : ℕ} (hpos : pos.toNat < 2 ^ 31)
    (hsize : size.toNat ≤ maxSize)
    (hi : i ≤ count) (hfuel : count ≤ i + fuel) (h : i < count ∨ pos.toNat ≤ maxSize) :
    (Stays get pos.toNat (count - i) → ∃ pos' i' size',
      fileWriteFrom get count fuel pos i size = .ok (pos', i', size') ∧
        pos'.toNat ≤ maxSize ∧ size'.toNat ≤ maxSize) ∧
      (¬Stays get pos.toNat (count - i) →
        fileWriteFrom get count fuel pos i size = .error (.panic "_bmap: block>big")) := by
  have hmax := maxSize_eq
  induction fuel generalizing pos i size with
  | zero =>
    obtain rfl : i = count := by omega
    refine ⟨fun _ => ⟨pos, i, size, rfl, by omega, hsize⟩, fun hnot => absurd (.inl ?_) hnot⟩
    omega
  | succ fuel ih =>
    rw [fileWriteFrom]
    by_cases hlt : i < count
    swap
    · rw [if_neg hlt]
      refine ⟨fun _ => ⟨pos, i, size, rfl, by omega, hsize⟩, fun hnot => absurd (.inl ?_) hnot⟩
      omega
    rw [if_pos hlt]
    rcases Nat.lt_or_ge pos.toNat maxSize with hbelow | hbeyond
    · rw [bmap_of_lt hbelow, toNat_chars hpos]
      by_cases hget : get (pos.toNat / 1024) = true
      · -- The write goes on in the next block, or it is done.
        set c := min (1024 - pos.toNat % 1024) (count - i) with hc
        have hadd : (pos + BitVec.ofNat 32 c).toNat = pos.toNat + c := toNat_add_ofNat (by omega)
        have hstays := stays_next (n := count - i) hget
        have hrest : count - i - c = count - (i + c) := Nat.sub_sub ..
        rw [← hc, hrest] at hstays
        have hpos' : (pos + BitVec.ofNat 32 c).toNat < 2 ^ 31 := by omega
        have hle' : (pos + BitVec.ofNat 32 c).toNat ≤ maxSize := by omega
        have hsize' : (if size.toNat < (pos + BitVec.ofNat 32 c).toNat then pos + BitVec.ofNat 32 c
            else size).toNat ≤ maxSize := by
          split_ifs
          · exact hle'
          · exact hsize
        have hnext := ih hpos' hsize' (i := i + c) (by omega) (by omega) (.inr hle')
        rw [← hadd] at hstays
        rw [hstays] at hnext
        rw [hget]
        exact hnext
      · rw [Bool.not_eq_true] at hget
        have hk : pos.toNat / 1024 < maxBlocks :=
          Nat.div_lt_of_lt_mul (by rwa [Nat.mul_comm])
        refine ⟨fun _ => ⟨pos, i, size, ?_, hbelow.le, hsize⟩, fun hnot => absurd (.inr ?_) hnot⟩
        · rw [hget]
          rfl
        · exact ⟨hbelow, _, le_rfl, hk, hget⟩
    · rw [bmap_of_ge hbeyond hpos]
      refine ⟨fun hstays => ?_, fun _ => rfl⟩
      rcases hstays with hle | ⟨hlt', -⟩
      · omega
      · omega

/-! ### The calls -/

/-- The count of `sys_read`, clipped at the end of the file. -/
theorem clip_le (count : Word) (hpos : pos.toNat < 2 ^ 31) (hcount : 0 ≤ count.toInt)
    (hsize : size.toNat ≤ maxSize)
    (h : 0 < (if size.toNat < (count + pos).toNat then size - pos else count).toInt) :
    pos.toNat + (if size.toNat < (count + pos).toNat then size - pos else count).toNat ≤
      maxSize := by
  have hmax := maxSize_eq
  rw [nonneg_iff] at hcount
  have hsum : (count + pos).toNat = count.toNat + pos.toNat := by
    rw [BitVec.toNat_add]
    omega
  rw [hsum] at h ⊢
  split_ifs at h ⊢ with hover
  · -- Beyond the end of the file the difference is negative.
    have hdiff := (nonneg_iff _).1 h.le
    rw [BitVec.toNat_sub] at hdiff ⊢
    omega
  · omega

theorem Inv.setPos (h : Inv s) (f : OpenFile) (hpos : 0 ≤ pos.toInt) : Inv (s.setPos fd f pos) := by
  refine ⟨h.size, fun fd' f' hf' => ?_⟩
  change Function.update s.filp fd (some { f with pos := pos }) fd' = some f' at hf'
  rw [Function.update_apply] at hf'
  split_ifs at hf'
  · cases hf'
    exact hpos
  · exact h.nonNeg fd' f' hf'

theorem Inv.setSize (h : Inv s) (n : ℕ) (hsize : size.toNat ≤ maxSize) :
    Inv { s with size := Function.update s.size n size } := by
  refine ⟨fun m => ?_, h.nonNeg⟩
  change (Function.update s.size n size m).toNat ≤ maxSize
  rw [Function.update_apply]
  split_ifs
  · exact hsize
  · exact h.size m

theorem Inv.pos_lt (h : Inv s) {f : OpenFile} (hf : s.filp fd = some f) : f.pos.toNat < 2 ^ 31 :=
  (nonneg_iff _).1 (h.nonNeg fd f hf)

theorem sysOpen_inv (h : Inv s) (append : Bool) (found : Option (ℕ × Bool)) :
    Inv (sysOpen append found s).2 := by
  unfold sysOpen
  split
  next fd n fresh _ =>
    have hsized : Inv { s with size := if fresh then Function.update s.size n 0 else s.size } := by
      cases fresh
      · exact h
      · exact h.setSize n (Nat.zero_le _)
    exact hsized.setPos ⟨append, n, 0⟩ le_rfl
  next => exact h

/-- `sys_lseek` takes no offset that is negative. -/
theorem sysLseek_inv (h : Inv s) (fd : ℕ) (offset : Word) (origin : ℤ) :
    Inv (sysLseek fd offset origin s).2 := by
  unfold sysLseek
  split
  next => exact h
  next f _ =>
    dsimp only
    split_ifs
    all_goals first
      | exact h
      | exact h.setPos f (not_lt.1 ‹_›)

/-- A read never panics. -/
theorem sysRead_inv (h : Inv s) (fd : ℕ) (count : Word) (get : ℕ → Bool) :
    ∃ r s', sysRead fd count get s = .ok (r, s') ∧ Inv s' := by
  unfold sysRead
  split
  next => exact ⟨_, s, rfl, h⟩
  next f hopen =>
    have hif : ¬(20 ≤ fd ∨ count.toInt < 0) := fun hbad => by simp [hbad] at hopen
    rw [if_neg hif] at hopen
    have hclip := clip_le count (h.pos_lt hopen) (by omega) (h.size f.inode)
    dsimp only
    generalize (if (s.size f.inode).toNat < (count + f.pos).toNat then s.size f.inode - f.pos
      else count) = clip at hclip ⊢
    split_ifs with h0 hle
    · exact ⟨_, s, rfl, h⟩
    · exact ⟨_, s, rfl, h⟩
    · have hend := hclip (not_le.1 hle)
      obtain ⟨pos, left, hrun, hpos⟩ := fileReadFrom_ok get clip.toNat hend
      have hmax := maxSize_eq
      have hpos' : 0 ≤ pos.toInt := (nonneg_iff _).2 (by omega)
      rw [hrun]
      exact ⟨_, _, rfl, h.setPos f hpos'⟩

/-- A write panics if and only if it is not in range. -/
theorem sysWrite_spec (h : Inv s) (fd : ℕ) (count : Word) (get : ℕ → Bool) :
    (InRange s (.write fd count get) → ∃ r s', sysWrite fd count get s = .ok (r, s') ∧ Inv s') ∧
      (¬InRange s (.write fd count get) →
        sysWrite fd count get s = .error (.panic "_bmap: block>big")) := by
  by_cases hbad : 20 ≤ fd ∨ count.toInt < 0
  · have hno : sysWrite fd count get s = .ok (.error .EINVAL, s) := by
      rw [sysWrite, if_pos hbad]
    exact ⟨fun _ => ⟨_, s, hno, h⟩, fun hnot => (hnot (by intro _ _ _ _; omega)).elim⟩
  cases hopen : s.filp fd with
  | none =>
    have hno : sysWrite fd count get s = .ok (.error .EINVAL, s) := by
      rw [sysWrite, if_neg hbad, hopen]
    refine ⟨fun _ => ⟨_, s, hno, h⟩, fun hnot => (hnot fun _ _ f hf => ?_).elim⟩
    rw [hopen] at hf
    cases hf
  | some f =>
    by_cases h0 : count = 0
    · have hno : sysWrite fd count get s = .ok (.ok 0, s) := by
        rw [sysWrite, if_neg hbad, hopen]
        exact if_pos h0
      refine ⟨fun _ => ⟨_, s, hno, h⟩, fun hnot => (hnot fun _ hpos => ?_).elim⟩
      rw [h0] at hpos
      exact absurd hpos (by decide)
    have hmax := maxSize_eq
    have hcount : 0 < count.toNat := Nat.pos_of_ne_zero fun h' => h0 (BitVec.eq_of_toNat_eq h')
    have hlt : count.toNat < 2 ^ 31 := (nonneg_iff _).1 (by omega)
    have hstart : (if f.append then s.size f.inode else f.pos).toNat < 2 ^ 31 := by
      have := h.pos_lt hopen
      have := h.size f.inode
      split_ifs <;> omega
    have hrange : InRange s (.write fd count get) ↔
        Stays get (if f.append then s.size f.inode else f.pos).toNat count.toNat := by
      refine ⟨fun hr => hr (by omega) ?_ f hopen, fun hs _ _ f' hf' => ?_⟩
      · rw [toInt_of_lt hlt]
        omega
      · rw [hopen] at hf'
        cases hf'
        exact hs
    obtain ⟨hok, hpanic⟩ := fileWriteFrom_spec get (i := 0) hstart (h.size f.inode)
      (Nat.zero_le _) (Nat.le_add_left _ 0) (.inl hcount)
    rw [hrange, sysWrite, if_neg hbad, hopen]
    dsimp only
    rw [if_neg h0]
    refine ⟨fun hs => ?_, fun hnot => ?_⟩
    · obtain ⟨pos, i, size, hrun, hpos, hsize⟩ := hok hs
      rw [hrun]
      refine ⟨_, _, rfl, ?_⟩
      have hpos' : 0 ≤ pos.toInt := (nonneg_iff _).2 (by omega)
      split_ifs
      · exact h.setSize f.inode hsize
      · exact (h.setSize f.inode hsize).setPos f hpos'
    · rw [hpanic hnot]
      rfl

/-- A call panics if and only if it is a write that is not in range. -/
theorem perform_spec (h : Inv s) (c : Call) :
    (InRange s c → ∃ r s', perform c s = .ok (r, s') ∧ Inv s') ∧
      (¬InRange s c → perform c s = .error (.panic "_bmap: block>big")) := by
  cases c with
  | «open» append found => exact ⟨fun _ => ⟨_, _, rfl, sysOpen_inv h ..⟩, fun hn =>
      (hn trivial).elim⟩
  | lseek fd offset origin =>
    exact ⟨fun _ => ⟨_, _, rfl, sysLseek_inv h ..⟩, fun hn => (hn trivial).elim⟩
  | read fd count get => exact ⟨fun _ => sysRead_inv h .., fun hn => (hn trivial).elim⟩
  | write fd count get => exact sysWrite_spec h ..

/-! ### Main theorem -/

/-- **In a sequence of calls nothing panics and no offset is negative, if and only if all its writes
are in range.** -/
theorem offsets_iff (h : Inv s) (cs : List Call) : Harmless s cs ↔ AllInRange s cs := by
  induction cs generalizing s with
  | nil => exact ⟨fun _ => trivial, fun _ => h.nonNeg⟩
  | cons c cs ih =>
    obtain ⟨hok, hpanic⟩ := perform_spec h c
    constructor
    · rintro ⟨-, r, s', hrun, hrest⟩
      have hin : InRange s c := by
        by_contra hnot
        rw [hpanic hnot] at hrun
        cases hrun
      refine ⟨hin, fun r' s'' hrun' => ?_⟩
      obtain ⟨r₁, s₁, hrun₁, hinv⟩ := hok hin
      rw [hrun₁] at hrun hrun'
      cases hrun
      cases hrun'
      exact (ih hinv).1 hrest
    · rintro ⟨hin, hrest⟩
      obtain ⟨r, s', hrun, hinv⟩ := hok hin
      exact ⟨h.nonNeg, r, s', hrun, (ih hinv).2 (hrest r s' hrun)⟩

/-- All files are empty, and none is open. -/
def fresh : State := ⟨fun _ => 0, fun _ => none⟩

theorem fresh_inv : Inv fresh := by
  refine ⟨fun _ => Nat.zero_le _, fun fd f hf => ?_⟩
  cases hf

/-- The last byte of the largest file is written. -/
theorem offsets_iff_lastByte :
    Inv fresh ∧ Harmless fresh [.open false (some (1, true)), .lseek 0 268966911 0,
      .write 0 1 (fun _ => true)] := by
  refine ⟨fresh_inv, (offsets_iff fresh_inv _).2
    ⟨trivial, fun r s h => ⟨trivial, fun r' s' h' => ?_⟩⟩⟩
  cases h
  cases h'
  refine ⟨fun _ _ f hf => ?_, fun _ _ _ => trivial⟩
  cases hf
  exact .inl le_rfl

/-- The byte after it is written. -/
theorem lseek_write_panics :
    Inv fresh ∧ ¬Harmless fresh [.open false (some (1, true)), .lseek 0 268966912 0,
      .write 0 1 (fun _ => true)] := by
  refine ⟨fresh_inv, ?_⟩
  rintro ⟨-, r₁, s₁, h₁, -, r₂, s₂, h₂, -, r₃, s₃, h₃, -⟩
  cases h₁
  cases h₂
  cases h₃

end Linux001.Files.Offsets
