import Linux001.Lib.Linked
import Mathlib.Algebra.Group.Nat.Defs
import Mathlib.Order.CompletePartialOrder
import Mathlib.Order.Interval.Set.Disjoint

/-!
# The memory of the buffers

The function `buffer_init` of `fs/buffer.c`, on addresses. The buffer heads, of 32 bytes each, begin
where the kernel ends, and the data of the buffers come down from `BUFFER_END`, over the hole
between 640 KB and 1 MB, until the two meet. Pointers have 32 bits, and 0 is the null pointer.

## Main definitions

* `Memory`: the fields of the buffer heads, by their addresses.
* `bufferInit`: the function.
* `Partitioned`: the heads and the data of all buffers are apart, and the free list has all heads.

## Main results

* `Prepared.initHead`, `initLoop_filled`: one turn of the loop, and all of them.
* `bufferInit_partitioned`: the function ends, and the memory is partitioned.
-/

namespace Linux001.BufferCache

/-- The fields of a `struct buffer_head` by its address, the array `hash_table`, `free_list` and
`NR_BUFFERS`. -/
structure Memory where
  data : ℕ → ℕ
  dev : ℕ → ℕ
  dirt : ℕ → ℕ
  count : ℕ → ℕ
  lock : ℕ → ℕ
  uptodate : ℕ → ℕ
  wait : ℕ → ℕ
  next : ℕ → ℕ
  prev : ℕ → ℕ
  prevFree : ℕ → ℕ
  nextFree : ℕ → ℕ
  hash : ℕ → ℕ
  freeList : ℕ
  nrBuffers : ℕ

/-- `sizeof(struct buffer_head)`. -/
def headSize : ℕ := 32

/-- `BLOCK_SIZE`. -/
def blockSize : ℕ := 1024

/-- A pointer and a number of bytes. -/
def ptrAdd (p k : ℕ) : ℕ := (p + k) % 2 ^ 32

def ptrSub (p k : ℕ) : ℕ := (p + 2 ^ 32 - k) % 2 ^ 32

/-- The body of the loop of `buffer_init`, for the buffer head `h` and the block `b`. -/
def Memory.initHead (m : Memory) (h b : ℕ) : Memory :=
  { m with
    dev := Function.update m.dev h 0
    dirt := Function.update m.dirt h 0
    count := Function.update m.count h 0
    lock := Function.update m.lock h 0
    uptodate := Function.update m.uptodate h 0
    wait := Function.update m.wait h 0
    next := Function.update m.next h 0
    prev := Function.update m.prev h 0
    data := Function.update m.data h b
    prevFree := Function.update m.prevFree h (ptrSub h headSize)
    nextFree := Function.update m.nextFree h (ptrAdd h headSize)
    nrBuffers := m.nrBuffers + 1 }

/-- The loop of `buffer_init`, for less than `fuel` turns, with the last value of `h`. -/
def initLoop : ℕ → Memory → ℕ → ℕ → Option (Memory × ℕ)
  | 0, _, _, _ => none
  | fuel + 1, m, h, b =>
    let b := ptrSub b blockSize
    if ptrAdd h headSize ≤ b then
      initLoop fuel (m.initHead h b) (ptrAdd h headSize) (if b = 0x100000 then 0xA0000 else b)
    else some (m, h)

/-- What `buffer_init` does behind its loop, with the last buffer head `h`. -/
def Memory.close (m : Memory) (start h : ℕ) : Memory :=
  let m := { m with freeList := start }
  let m := { m with prevFree := Function.update m.prevFree m.freeList h }
  let m := { m with nextFree := Function.update m.nextFree h m.freeList }
  { m with hash := fun i => if i < 307 then 0 else m.hash i }

/-- `buffer_init`. The kernel ends at `kernelEnd`, where `start_buffer` points to, and `NR_BUFFERS`
is 0. -/
def bufferInit (kernelEnd bufferEnd fuel : ℕ) (m : Memory) : Option Memory :=
  (initLoop fuel { m with nrBuffers := 0 } kernelEnd bufferEnd).map fun r =>
    r.1.close kernelEnd (ptrSub r.2 headSize)

/-- More turns do not change the result. -/
theorem initLoop_mono {fuel k h b : ℕ} {m : Memory} {r : Memory × ℕ}
    (hrun : initLoop fuel m h b = some r) : initLoop (fuel + k) m h b = some r := by
  induction fuel generalizing m h b with
  | zero => cases hrun
  | succ fuel ih =>
    rw [Nat.add_right_comm, initLoop]
    rw [initLoop] at hrun
    by_cases hle : ptrAdd h headSize ≤ ptrSub b blockSize
    · rw [if_pos hle] at hrun ⊢
      exact ih hrun
    · rwa [if_neg hle] at hrun ⊢

theorem bufferInit_mono {kernelEnd bufferEnd fuel fuel' : ℕ} {m m' : Memory}
    (hinit : bufferInit kernelEnd bufferEnd fuel m = some m') (hle : fuel ≤ fuel') :
    bufferInit kernelEnd bufferEnd fuel' m = some m' := by
  obtain ⟨r, hrun, rfl⟩ := Option.map_eq_some_iff.mp hinit
  obtain ⟨k, rfl⟩ := Nat.exists_eq_add_of_le hle
  rw [bufferInit, initLoop_mono hrun]
  rfl

section Partition

variable (kernelEnd bufferEnd : ℕ) (m : Memory)

/-- The address of a buffer head. -/
def headAt (i : ℕ) : ℕ := kernelEnd + headSize * i

/-- The data of a buffer. -/
def Memory.area (i : ℕ) : Set ℕ :=
  Set.Ico (m.data (headAt kernelEnd i)) (m.data (headAt kernelEnd i) + blockSize)

/-- The array of the buffer heads. -/
def Memory.heads : Set ℕ := Set.Ico kernelEnd (headAt kernelEnd m.nrBuffers)

/-- The memory of the video card and the BIOS. -/
def hole : Set ℕ := Set.Ico 0xA0000 0x100000

/-- The buffers are apart from each other, from their heads and from the hole, end at `BUFFER_END`,
and are all in the free list. -/
structure Partitioned : Prop where
  pos : 0 < m.nrBuffers
  areas : ∀ i < m.nrBuffers, ∀ j < m.nrBuffers, i ≠ j →
    Disjoint (m.area kernelEnd i) (m.area kernelEnd j)
  heads : ∀ i < m.nrBuffers, Disjoint (m.area kernelEnd i) (m.heads kernelEnd)
  hole_areas : ∀ i < m.nrBuffers, Disjoint (m.area kernelEnd i) hole
  hole_heads : Disjoint (m.heads kernelEnd) hole
  le_heads : m.heads kernelEnd ⊆ Set.Iio bufferEnd
  le_areas : ∀ i < m.nrBuffers, m.area kernelEnd i ⊆ Set.Iio bufferEnd
  ring : ∃ r, Ring m.nextFree m.prevFree m.freeList r ∧
    m.freeList :: r = (List.range m.nrBuffers).map (headAt kernelEnd)

end Partition

/-! ### Where the loop is -/

section Loop

variable (e B : ℕ)

/-- The number of buffers above the hole. -/
def high : ℕ := (B - 0x100000) / blockSize

/-- The value of `b` before turn `i` of the loop. -/
def top (i : ℕ) : ℕ := if i < high B then B - blockSize * i else 0xA0000 - blockSize * (i - high B)

/-- The number of buffers for which there is room. -/
def room : ℕ := high B + (0xA0000 - headAt e (high B)) / (headSize + blockSize)

/-- What is known of the addresses. -/
structure Bounds : Prop where
  room : e + 1024 * headSize ≤ 0xA0000
  bufferEnd : B = 0xA0000 ∨ 0x100000 < B ∧ B ≤ 0x200000 ∧ 4096 ∣ B

/-- The first `k` buffer heads are filled in. -/
structure Prepared (k : ℕ) (m : Memory) : Prop where
  data : ∀ i < k, m.data (headAt e i) = top B i - blockSize
  nextFree : ∀ i < k, m.nextFree (headAt e i) = headAt e (i + 1)
  prevFree : ∀ i < k, m.prevFree (headAt e i) = ptrSub (headAt e i) headSize
  next : ∀ i < k, m.next (headAt e i) = 0
  prev : ∀ i < k, m.prev (headAt e i) = 0
  nrBuffers : m.nrBuffers = k

variable {e B} {i j k : ℕ} {m : Memory} (h : Bounds e B)

theorem headAt_inj (heq : headAt e i = headAt e j) : i = j := by
  unfold headAt headSize at heq
  omega

include h

theorem high_spec : B = 0xA0000 ∧ high B = 0 ∨
    B = 0x100000 + blockSize * high B ∧ 0 < high B ∧ high B ≤ 1024 := by
  have hB := h.bufferEnd
  unfold high blockSize
  omega

/-- There is room for another buffer as long as the next block is above the next head. -/
theorem lt_room_iff (hk : k ≤ room e B) :
    k < room e B ↔ headAt e (k + 1) ≤ top B k - blockSize := by
  have hroom := h.room
  have hhigh := high_spec h
  unfold room top headAt headSize blockSize at *
  split_ifs <;> omega

/-- The block does not wrap around. -/
theorem ptrSub_top (hk : k ≤ room e B) : ptrSub (top B k) blockSize = top B k - blockSize := by
  have hroom := h.room
  have hhigh := high_spec h
  unfold ptrSub room top headAt headSize blockSize at *
  split_ifs <;> omega

/-- The next block, over the hole if need be. -/
theorem top_succ :
    (if top B k - blockSize = 0x100000 then 0xA0000 else top B k - blockSize) = top B (k + 1) := by
  have hhigh := high_spec h
  unfold top blockSize at *
  split_ifs <;> omega

theorem ptrAdd_headAt (hk : k ≤ room e B) : ptrAdd (headAt e k) headSize = headAt e (k + 1) := by
  have hroom := h.room
  have hhigh := high_spec h
  unfold ptrAdd room headAt headSize blockSize at *
  omega

/-- One turn of the loop. -/
theorem Prepared.initHead (hm : Prepared e B k m) (hk : k < room e B) :
    Prepared e B (k + 1) (m.initHead (headAt e k) (top B k - blockSize)) := by
  have hupdate {f : ℕ → ℕ} {v : ℕ} {g : ℕ → ℕ} (hf : ∀ i < k, f (headAt e i) = g i) (hv : v = g k) :
      ∀ i < k + 1, Function.update f (headAt e k) v (headAt e i) = g i := by
    intro i hi
    rw [Function.update_apply]
    split_ifs with hik
    · rw [headAt_inj hik, hv]
    · exact hf i (lt_of_le_of_ne (Nat.le_of_lt_succ hi) fun heq => hik (heq ▸ rfl))
  exact ⟨hupdate hm.data rfl, hupdate hm.nextFree (ptrAdd_headAt h hk.le), hupdate hm.prevFree rfl,
    hupdate hm.next rfl, hupdate hm.prev rfl, congrArg (· + 1) hm.nrBuffers⟩

/-- The loop fills in the heads for which there is room. -/
theorem initLoop_filled (hm : Prepared e B k m) (hj : k + j = room e B) :
    ∃ m', Prepared e B (room e B) m' ∧
      ∀ fuel > j, initLoop fuel m (headAt e k) (top B k) = some (m', headAt e (room e B)) := by
  induction j generalizing k m with
  | zero =>
    obtain rfl : k = room e B := hj
    refine ⟨m, hm, fun fuel hfuel => ?_⟩
    obtain ⟨fuel, rfl⟩ : ∃ f, fuel = f + 1 := ⟨fuel - 1, by omega⟩
    rw [initLoop, ptrSub_top h le_rfl, ptrAdd_headAt h le_rfl, if_neg]
    exact fun hle => lt_irrefl _ ((lt_room_iff h le_rfl).mpr hle)
  | succ j ih =>
    have hlt : k < room e B := by omega
    obtain ⟨m', hm', hrun⟩ := ih (hm.initHead h hlt) (by omega)
    refine ⟨m', hm', fun fuel hfuel => ?_⟩
    obtain ⟨fuel, rfl⟩ : ∃ f, fuel = f + 1 := ⟨fuel - 1, by omega⟩
    rw [initLoop, ptrSub_top h hlt.le, ptrAdd_headAt h hlt.le,
      if_pos ((lt_room_iff h hlt.le).mp hlt), top_succ h]
    exact hrun fuel (by omega)

end Loop

/-! ### Main theorem -/

section Main

variable {e B : ℕ} {m : Memory} (h : Bounds e B)

include h

theorem room_pos : 0 < room e B := by
  have hroom := h.room
  have hhigh := high_spec h
  unfold room headAt headSize blockSize at *
  omega

/-- How the data of the buffers lie. -/
theorem top_bounds {i : ℕ} (hi : i < room e B) :
    headAt e (room e B) ≤ top B i - blockSize ∧ top B i ≤ B ∧ blockSize ≤ top B i ∧
      (top B i ≤ 0xA0000 ∨ 0x100000 ≤ top B i - blockSize) ∧
      ∀ j < i, top B i ≤ top B j - blockSize := by
  have hroom := h.room
  have hhigh := high_spec h
  unfold room top headAt headSize blockSize at *
  refine ⟨?_, ?_, ?_, ?_, fun j hj => ?_⟩ <;> split_ifs <;> omega

theorem ptrSub_headAt {i : ℕ} (hi : i < room e B) :
    ptrSub (headAt e (i + 1)) headSize = headAt e i := by
  have hroom := h.room
  have hhigh := high_spec h
  unfold ptrSub room headAt headSize blockSize at *
  omega

omit h in
/-- Closing the free list makes a ring of it. -/
theorem Prepared.ring {N : ℕ} (hm : Prepared e B N m) (hpos : 0 < N)
    (hsub : ∀ i < N, ptrSub (headAt e (i + 1)) headSize = headAt e i) :
    Ring (m.close e (headAt e (N - 1))).nextFree (m.close e (headAt e (N - 1))).prevFree e
        ((List.range' 1 (N - 1)).map (headAt e)) ∧
      e :: (List.range' 1 (N - 1)).map (headAt e) = (List.range N).map (headAt e) := by
  have hlist : e :: (List.range' 1 (N - 1)).map (headAt e) = (List.range N).map (headAt e) := by
    conv_rhs => rw [List.range_eq_range', ← Nat.sub_add_cancel hpos, List.range'_succ,
      List.map_cons]
    rfl
  refine ⟨⟨?_, ?_⟩, hlist⟩
  · rw [hlist]
    exact List.nodup_range.map fun i j => headAt_inj
  · refine linked_range' (i := 0) (f := headAt e) (fun j _ hj => ⟨?_, ?_⟩) ?_ ?_
    · refine (Function.update_of_ne (fun heq => ?_) _ _).trans (hm.nextFree j (by omega))
      have := headAt_inj heq
      omega
    · refine (Function.update_of_ne (fun heq => ?_) _ _).trans ?_
      · have := headAt_inj (i := j + 1) (j := 0) heq
        omega
      · rw [hm.prevFree _ (by omega), hsub j (by omega)]
    · rw [Nat.zero_add]
      exact Function.update_self ..
    · rw [Nat.zero_add]
      exact Function.update_self ..

/-- What `buffer_init` computes. -/
theorem bufferInit_eq (m₀ : Memory) : ∃ m, Prepared e B (room e B) m ∧ ∀ fuel > room e B,
    bufferInit e B fuel m₀ = some (m.close e (headAt e (room e B - 1))) := by
  have hpos := room_pos h
  have hstart : Prepared e B 0 { m₀ with nrBuffers := 0 } := by
    refine ⟨fun i hi => ?_, fun i hi => ?_, fun i hi => ?_, fun i hi => ?_, fun i hi => ?_, rfl⟩ <;>
      exact absurd hi (Nat.not_lt_zero i)
  obtain ⟨m, hm, hrun⟩ := initLoop_filled h hstart (Nat.zero_add _)
  have htop : top B 0 = B := by
    have hhigh := high_spec h
    unfold top blockSize at *
    split_ifs <;> omega
  have hlast : ptrSub (headAt e (room e B)) headSize = headAt e (room e B - 1) := by
    rw [← ptrSub_headAt h (Nat.sub_lt hpos Nat.one_pos), Nat.sub_add_cancel hpos]
  refine ⟨m, hm, fun fuel hfuel => ?_⟩
  have hloop := hrun fuel hfuel
  rw [htop] at hloop
  rw [bufferInit, show e = headAt e 0 from rfl, hloop]
  exact congrArg (fun h => some (m.close e h)) hlast

theorem headAt_room_le : headAt e (room e B) ≤ 0xA0000 ∧ 0xA0000 ≤ B := by
  have hroom := h.room
  have hhigh := high_spec h
  unfold room headAt headSize blockSize at *
  omega

omit h in
theorem disjoint_Ico {a b c d : ℕ} (hd : b ≤ c ∨ d ≤ a) : Disjoint (Set.Ico a b) (Set.Ico c d) := by
  rw [Set.Ico_disjoint_Ico]
  omega

/-- The buffers that the loop has set up are apart. -/
theorem Prepared.partitioned (hm : Prepared e B (room e B) m) :
    Partitioned e B (m.close e (headAt e (room e B - 1))) := by
  have hpos := room_pos h
  obtain ⟨hring, hlist⟩ := hm.ring hpos fun i hi => ptrSub_headAt h hi
  obtain ⟨hheads, hB⟩ := headAt_room_le h
  have hbounds {i : ℕ} (hi : i < m.nrBuffers) := top_bounds h (hm.nrBuffers ▸ hi)
  have harea {i : ℕ} (hi : i < m.nrBuffers) : (m.close e (headAt e (room e B - 1))).area e i =
      Set.Ico (top B i - blockSize) (top B i) := by
    have hdata : m.data (headAt e i) = top B i - blockSize := hm.data i (hm.nrBuffers ▸ hi)
    change Set.Ico (m.data (headAt e i)) (m.data (headAt e i) + blockSize) = _
    rw [hdata, Nat.sub_add_cancel (hbounds hi).2.2.1]
  have hcount : (m.close e (headAt e (room e B - 1))).heads e = Set.Ico e (headAt e (room e B)) :=
    congrArg (fun k => Set.Ico e (headAt e k)) hm.nrBuffers
  refine ⟨hm.nrBuffers ▸ hpos, fun i hi j hj hij => ?_, fun i hi => ?_, fun i hi => ?_, ?_, ?_,
    fun i hi => ?_, _, hring, hm.nrBuffers ▸ hlist⟩
  · rw [harea hi, harea hj]
    rcases Nat.lt_or_gt_of_ne hij with hlt | hlt
    · exact disjoint_Ico (.inr ((hbounds hj).2.2.2.2 i hlt))
    · exact disjoint_Ico (.inl ((hbounds hi).2.2.2.2 j hlt))
  · rw [harea hi, hcount]
    exact disjoint_Ico (.inr (hbounds hi).1)
  · rw [harea hi]
    exact disjoint_Ico (hbounds hi).2.2.2.1
  · rw [hcount]
    exact disjoint_Ico (.inl hheads)
  · rw [hcount]
    exact fun x hx => hx.2.trans_le (hheads.trans hB)
  · rw [harea hi]
    exact fun x hx => hx.2.trans_le (hbounds hi).2.1

end Main

/-- **The memory of the buffers is partitioned.** `buffer_init` ends, and the buffers are apart from
each other, from the heads and from the hole. -/
theorem bufferInit_partitioned {kernelEnd bufferEnd : ℕ} (h : Bounds kernelEnd bufferEnd)
    (m₀ : Memory) : ∃ m, (∀ fuel > m.nrBuffers, bufferInit kernelEnd bufferEnd fuel m₀ = some m) ∧
      Partitioned kernelEnd bufferEnd m := by
  obtain ⟨m, hm, hrun⟩ := bufferInit_eq h m₀
  refine ⟨_, fun fuel hfuel => hrun fuel ?_, hm.partitioned h⟩
  exact hm.nrBuffers ▸ hfuel

/-- Memory that has been cleared. -/
def Memory.zero : Memory :=
  ⟨fun _ => 0, fun _ => 0, fun _ => 0, fun _ => 0, fun _ => 0, fun _ => 0, fun _ => 0, fun _ => 0,
    fun _ => 0, fun _ => 0, fun _ => 0, fun _ => 0, 0, 0⟩

/-- The configuration with 8 MB of memory, and a kernel of 128 KB. -/
theorem bufferInit_partitioned_large :
    ∃ m, (∀ fuel > m.nrBuffers, bufferInit 0x20000 0x200000 fuel .zero = some m) ∧
      Partitioned 0x20000 0x200000 m :=
  bufferInit_partitioned ⟨by decide, .inr ⟨by decide, le_rfl, by decide⟩⟩ .zero

end Linux001.BufferCache
