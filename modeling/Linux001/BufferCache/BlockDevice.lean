import Linux001.BufferCache.Alone
import Linux001.Lib.Loops
import Linux001.Lib.Overlay

/-!
# Block devices as byte arrays

`block_write` and `block_read` of `fs/block_dev.c`, with one running process. They go through the
blocks of the device, and copy as many bytes as are left, or a block of them, to or from the buffer
of each block; in the first block they begin at the offset of the position. What is beyond the end
of the data of a buffer is the data of the buffer head before it, or memory that no buffer is in.
The bytes that a write copies are given by their number, and are not in that memory.

## Main definitions

* `bData`, `owner`: the addresses of the data of the buffers.
* `Machine`: the buffer cache and the rest of memory.
* `blockWrite`, `blockRead`: the functions.
* `Device`: a device that shows an array of bytes.
* `ByteArray`: reads and writes at a position are those of an array.

## Main results

* `Device.write`, `Device.read`: one block.
* `byteArray_iff`: an access is one to an array if and only if it begins at a block, or ends in the
  block in which it begins.
-/

namespace Linux001.BufferCache

/-! ### The memory of the buffers -/

/-- The bytes of a buffer. -/
abbrev Bytes := Fin 1024 → UInt8

/-- `b_data` of the buffer head `k`, as `buffer_init` sets it: the data go down from `BUFFER_END`,
and leave out what is between 640 kilobytes and 1 megabyte. -/
def bData (k : ℕ) : ℕ := if k < 1024 then 0x200000 - 1024 * (k + 1) else 0xA0000 - 1024 * (k - 1023)

/-- The buffer cache, and memory outside of it. There is memory for 1664 buffers at most. -/
structure Machine (N : ℕ) where
  cache : Cache Bytes N
  ram : ℕ → UInt8
  bound : N ≤ 1664

/-- The buffer in whose data an address is, and its place there. -/
def owner (N a : ℕ) : Option (Fin N × Fin 1024) :=
  ((List.finRange N).find? fun b : Fin N => bData b ≤ a ∧ a < bData b + 1024).map fun b =>
    (b, Fin.ofNat 1024 (a - bData b))

variable {N : ℕ}

/-- The byte at an address. -/
def peek (a : ℕ) (m : Machine N) : UInt8 :=
  match owner N a with
  | some (b, j) => (m.cache.buf b).data j
  | none => m.ram a

/-- A store of a byte. -/
def poke (a : ℕ) (v : UInt8) (m : Machine N) : Machine N :=
  match owner N a with
  | some (b, j) => { m with
      cache := m.cache.setBuf b
        { m.cache.buf b with data := Function.update (m.cache.buf b).data j v } }
  | none => { m with ram := Function.update m.ram a v }

/-! ### `fs/block_dev.c` -/

/-- The loop of `block_write`, for at most `fuel` turns, when `written` bytes of `buf` have been
written. The result is that number and the position; there is none if `bread` sleeps for ever or
`brelse` panics. -/
def blockWriteFrom (dev : ℕ) (buf : ℕ → UInt8) : (fuel block offset pos written count : ℕ) →
    Machine N → Option (ℕ × ℕ × Machine N)
  | 0, _, _, pos, written, _, m => some (written, pos, m)
  | fuel + 1, block, offset, pos, written, count, m =>
    if count = 0 then some (written, pos, m)
    else (m.cache.bread ⟨dev, block⟩ 1).bind fun r =>
      let chars := min count 1024
      let m := (List.range chars).foldl
        (fun m i => poke (bData r.2 + offset + i) (buf (written + i)) m) { m with cache := r.1 }
      let c := m.cache.setBuf r.2 { m.cache.buf r.2 with dirt := true }
      (c.brelse r.2).bind fun c =>
        blockWriteFrom dev buf fuel (block + 1) 0 (pos + chars) (written + chars) (count - chars)
          { m with cache := c }

/-- `block_write`. -/
def blockWrite (dev pos : ℕ) (buf : ℕ → UInt8) (count : ℤ) (m : Machine N) :
    Option (ℕ × ℕ × Machine N) :=
  blockWriteFrom dev buf count.toNat (pos / 1024) (pos % 1024) pos 0 count.toNat m

/-- The loop of `block_read`, with the bytes that have been read. It marks the buffers as
changed. -/
def blockReadFrom (dev : ℕ) : (fuel block offset pos : ℕ) → (read : List UInt8) → (count : ℕ) →
    Machine N → Option (List UInt8 × ℕ × Machine N)
  | 0, _, _, pos, read, _, m => some (read, pos, m)
  | fuel + 1, block, offset, pos, read, count, m =>
    if count = 0 then some (read, pos, m)
    else (m.cache.bread ⟨dev, block⟩ 1).bind fun r =>
      let chars := min count 1024
      let m := { m with cache := r.1 }
      let bytes := (List.range chars).map fun i => peek (bData r.2 + offset + i) m
      let c := m.cache.setBuf r.2 { m.cache.buf r.2 with dirt := true }
      (c.brelse r.2).bind fun c =>
        blockReadFrom dev fuel (block + 1) 0 (pos + chars) (read ++ bytes) (count - chars)
          { m with cache := c }

/-- `block_read`, with the bytes that it stores; their number is its result. -/
def blockRead (dev pos : ℕ) (count : ℤ) (m : Machine N) : Option (List UInt8 × ℕ × Machine N) :=
  blockReadFrom dev count.toNat (pos / 1024) (pos % 1024) pos [] count.toNat m

/-! ### The device -/

/-- The device `dev` shows the array `bytes` in its blocks, no function of the cache is running,
some buffer is free, and one reference more to a buffer can be counted in an `unsigned char`. -/
structure Device (dev : ℕ) (bytes : ℕ → UInt8) (m : Machine N) : Prop where
  sound : m.cache.Sound
  free : ∃ b, (m.cache.buf b).count = 0
  room : ∀ l, m.cache.Room l
  shows : ∀ block < 65536, m.cache.Current ⟨dev, block⟩ fun j => bytes (1024 * block + j)

/-- Outside of the device `dev` nothing has changed. -/
structure Outside (dev : ℕ) (m m' : Machine N) : Prop where
  ram : m'.ram = m.ram
  other : ∀ l d, l.dev ≠ dev → m.cache.Current l d → m'.cache.Current l d
  count : ∀ b, (m'.cache.buf b).count = (m.cache.buf b).count

/-- A write of `count` bytes at `pos` changes these bytes of the array only, a read returns them and
changes nothing, and a read after a write returns what has been written. -/
def ByteArray (N dev pos : ℕ) (count : ℤ) : Prop := ∀ (m : Machine N) (bytes : ℕ → UInt8),
  Device dev bytes m →
    (∀ buf, ∃ m', blockWrite dev pos buf count m = some (count.toNat, pos + count.toNat, m') ∧
      Device dev (overlay bytes pos count.toNat buf) m' ∧ Outside dev m m' ∧
      ∃ m'', blockRead dev pos count m' =
        some ((List.range count.toNat).map buf, pos + count.toNat, m'')) ∧
    ∃ m', blockRead dev pos count m =
        some ((List.range count.toNat).map fun i => bytes (pos + i), pos + count.toNat, m') ∧
      Device dev bytes m' ∧ Outside dev m m'

/-! ### The data of the buffers -/

theorem bData_disjoint {k k' a : ℕ} (hk : k < 1664) (hk' : k' < 1664)
    (h : bData k ≤ a ∧ a < bData k + 1024) (h' : bData k' ≤ a ∧ a < bData k' + 1024) : k = k' := by
  simp only [bData] at h h'
  split_ifs at h h' <;> omega

/-- The data of a buffer belong to it. -/
theorem owner_bData (hN : N ≤ 1664) (b : Fin N) {j : ℕ} (hj : j < 1024) :
    owner N (bData b + j) = some (b, ⟨j, hj⟩) := by
  have hfind : (List.finRange N).find?
      (fun b' : Fin N => bData b' ≤ bData b + j ∧ bData b + j < bData b' + 1024) = some b := by
    cases h : (List.finRange N).find?
        (fun b' : Fin N => bData b' ≤ bData b + j ∧ bData b + j < bData b' + 1024) with
    | none =>
      have hb := List.find?_eq_none.mp h b (List.mem_finRange b)
      simp only [decide_eq_true_eq] at hb
      omega
    | some b' =>
      have hb' := List.find?_some h
      rw [decide_eq_true_eq] at hb'
      have heq : b' = b :=
        Fin.ext (bData_disjoint (by omega) (by omega) hb' ⟨by omega, by omega⟩)
      rw [heq]
  rw [owner, hfind, Option.map_some, Nat.add_sub_cancel_left]
  exact congrArg (fun i => some (b, i)) (Fin.ext (Nat.mod_eq_of_lt hj))

/-- No buffer is beyond `BUFFER_END`. -/
theorem owner_end {a : ℕ} (ha : 0x200000 ≤ a) : owner N a = none := by
  rw [owner, Option.map_eq_none_iff, List.find?_eq_none]
  intro b _ hb
  rw [decide_eq_true_eq, bData] at hb
  split_ifs at hb <;> omega

/-- The bytes of a buffer, with those of `f` in the `len` places from `off` on. -/
def patch (off len : ℕ) (f : ℕ → UInt8) (d : Bytes) : Bytes := fun j =>
  if off ≤ j ∧ j < off + len then f (j - off) else d j

theorem patch_zero (off : ℕ) (f : ℕ → UInt8) (d : Bytes) : patch off 0 f d = d := by
  funext j
  rw [patch, if_neg (by omega)]

theorem patch_succ (off k : ℕ) (f : ℕ → UInt8) (d : Bytes) (hj : off + k < 1024) :
    Function.update (patch off k f d) ⟨off + k, hj⟩ (f k) = patch off (k + 1) f d := by
  funext j
  rw [Function.update_apply, patch, patch]
  rcases eq_or_ne j ⟨off + k, hj⟩ with rfl | hne
  · rw [if_pos rfl, if_pos (by simp), Nat.add_sub_cancel_left]
  · have hval : (j : ℕ) ≠ off + k := fun h => hne (Fin.ext h)
    rw [if_neg hne]
    exact if_congr (by omega) rfl rfl

/-- Bytes of a block of an array are changed in the array. -/
theorem patch_overlay (bytes f : ℕ → UInt8) (block off len : ℕ) :
    patch off len f (fun j => bytes (1024 * block + j)) =
      fun j : Fin 1024 => overlay bytes (1024 * block + off) len f (1024 * block + j) := by
  funext j
  rw [patch, overlay, Nat.add_sub_add_left]
  exact if_congr (by omega) rfl rfl

/-- Stores that stay inside the data of a buffer. -/
theorem foldl_poke (m : Machine N) (b : Fin N) {off len : ℕ} (f : ℕ → UInt8)
    (hlen : off + len ≤ 1024) :
    (List.range len).foldl (fun m i => poke (bData b + off + i) (f i) m) m =
      { m with
        cache := m.cache.setBuf b
          { m.cache.buf b with data := patch off len f (m.cache.buf b).data } } := by
  refine foldl_range (fun k s => s = { m with
    cache := m.cache.setBuf b
      { m.cache.buf b with data := patch off k f (m.cache.buf b).data } }) ?_ fun k hk s hs => ?_
  · rw [patch_zero, Cache.setBuf, Function.update_eq_self]
  · subst hs
    rw [Nat.add_assoc, poke, owner_bData m.bound b (by omega)]
    simp only [Cache.setBuf_self]
    rw [patch_succ, Cache.setBuf, Cache.setBuf, Cache.setBuf, Function.update_idem]

/-- Loads that stay inside the data of a buffer. -/
theorem map_peek (m : Machine N) (b : Fin N) {off len : ℕ} {f : ℕ → UInt8}
    (hlen : off + len ≤ 1024) (hf : (m.cache.buf b).data = fun j : Fin 1024 => f j) :
    (List.range len).map (fun i => peek (bData b + off + i) m) =
      (List.range len).map fun i => f (off + i) := by
  refine List.map_congr_left fun i hi => ?_
  have hi := List.mem_range.mp hi
  rw [Nat.add_assoc, peek, owner_bData m.bound b (by omega)]
  exact congrFun hf ⟨off + i, by omega⟩

/-! ### One block -/

variable {dev block offset len pos count : ℕ} {m m' m'' : Machine N} {bytes : ℕ → UInt8}

theorem Outside.refl (dev : ℕ) (m : Machine N) : Outside dev m m :=
  ⟨rfl, fun _ _ _ h => h, fun _ => rfl⟩

theorem Outside.trans (h : Outside dev m m') (h' : Outside dev m' m'') : Outside dev m m'' :=
  ⟨h'.ram.trans h.ram, fun l d hl hd => h'.other l d hl (h.other l d hl hd),
    fun b => (h'.count b).trans (h.count b)⟩

namespace Device

/-- A block is brought in, changed in part and released. -/
theorem modify (h : Device dev bytes m) (hdev : dev ≠ 0) (hblock : block < 65536)
    (hlen : offset + len ≤ 1024) (f : ℕ → UInt8) :
    ∃ c, m.cache.modify ⟨dev, block⟩ (patch offset len f) 1 = some c ∧
      Device dev (overlay bytes (1024 * block + offset) len f) { m with cache := c } ∧
      Outside dev m { m with cache := c } := by
  obtain ⟨c, hc, hmod⟩ :=
    Cache.modify_modified h.sound h.free (l := ⟨dev, block⟩) hdev (h.room _) (patch offset len f) 0
  refine ⟨c, hc, ⟨hmod.sound, ?_, fun l => (hmod.room l).mpr (h.room l), fun block' hblock' => ?_⟩,
    ⟨rfl, fun l d hl => hmod.other l d fun heq => hl (congrArg Label.dev heq), hmod.count⟩⟩
  · obtain ⟨b, hb⟩ := h.free
    exact ⟨b, (hmod.count b).trans hb⟩
  · rcases eq_or_ne block' block with rfl | hne
    · rw [← patch_overlay]
      exact hmod.self _ (h.shows block' hblock')
    · have hcur := hmod.other _ _ (fun heq => hne (congrArg Label.block heq))
        (h.shows block' hblock')
      have hsame : (fun j : Fin 1024 =>
          overlay bytes (1024 * block + offset) len f (1024 * block' + j)) =
          fun j : Fin 1024 => bytes (1024 * block' + j) :=
        funext fun j => overlay_of_notMem (by omega)
      exact hsame ▸ hcur

/-- `bread` of a block of the device. -/
theorem bread (h : Device dev bytes m) (hdev : dev ≠ 0) (hblock : block < 65536) :
    ∃ c b, m.cache.bread ⟨dev, block⟩ 1 = some (c, b) ∧
      (c.buf b).data = fun j : Fin 1024 => bytes (1024 * block + j) := by
  obtain ⟨c, b, hc, hgot, hup⟩ := Cache.bread_got h.sound h.free (l := ⟨dev, block⟩) hdev 0
  exact ⟨c, b, hc, (hgot.current _ _ (h.shows block hblock)).cached b hgot.label_self hup⟩

end Device

/-- A turn of `block_write` that stays in its block changes that block. -/
theorem blockWriteFrom_succ {buf : ℕ → UInt8} {fuel written : ℕ} (hcount : count ≠ 0)
    (hoff : offset + min count 1024 ≤ 1024) :
    blockWriteFrom dev buf (fuel + 1) block offset pos written count m =
      (m.cache.modify ⟨dev, block⟩ (patch offset (min count 1024) fun i => buf (written + i))
        1).bind
        fun c => blockWriteFrom dev buf fuel (block + 1) 0 (pos + min count 1024)
          (written + min count 1024) (count - min count 1024) { m with cache := c } := by
  rw [blockWriteFrom, if_neg hcount, Cache.modify, Option.bind_assoc]
  refine congrArg _ (funext fun r => ?_)
  dsimp only
  rw [foldl_poke _ _ _ hoff]
  rw [Cache.setBuf_self, Cache.store, Cache.setBuf, Cache.setBuf, Cache.setBuf,
    Function.update_idem]

/-- A turn of `block_read` that stays in its block returns bytes of that block. -/
theorem Device.read (pos : ℕ) (h : Device dev bytes m) (hdev : dev ≠ 0) (hblock : block < 65536)
    (fuel : ℕ) (read : List UInt8) (hcount : count ≠ 0) (hoff : offset + min count 1024 ≤ 1024) :
    ∃ m', Device dev bytes m' ∧ Outside dev m m' ∧
      blockReadFrom dev (fuel + 1) block offset pos read count m =
        blockReadFrom dev fuel (block + 1) 0 (pos + min count 1024)
          (read ++ (List.range (min count 1024)).map fun i => bytes (1024 * block + offset + i))
          (count - min count 1024) m' := by
  obtain ⟨c, b, hread, hdata⟩ := h.bread hdev hblock
  have hnothing : 0 + 0 ≤ 1024 := by omega
  obtain ⟨c', hc', hdevice, houtside⟩ := h.modify hdev hblock hnothing bytes
  rw [overlay_zero] at hdevice
  refine ⟨_, hdevice, houtside, ?_⟩
  -- Nothing is changed but `b_dirt`.
  rw [Cache.modify, hread, Option.bind_some] at hc'
  have hstore : c.store b (patch 0 0 bytes) = c.setBuf b { c.buf b with dirt := true } := by
    rw [Cache.store, patch_zero]
  rw [hstore] at hc'
  rw [blockReadFrom, if_neg hcount, hread, Option.bind_some]
  dsimp only
  rw [hc', Option.bind_some, map_peek { m with cache := c } b hoff
    (f := fun j => bytes (1024 * block + j)) hdata]
  simp only [Nat.add_assoc]

/-! ### The loops -/

/-- The loop of `block_write`, when the rest of the bytes begins at a block or ends in the block in
which it begins. -/
theorem Device.writeFrom (buf : ℕ → UInt8) (hdev : dev ≠ 0) {fuel : ℕ} (written : ℕ)
    (h : Device dev bytes m) (hfuel : count ≤ fuel) (hpos : count ≠ 0 → pos = 1024 * block + offset)
    (hoff : offset = 0 ∨ offset + count ≤ 1024) (hend : pos + count ≤ 65536 * 1024) :
    ∃ m', blockWriteFrom dev buf fuel block offset pos written count m =
        some (written + count, pos + count, m') ∧
      Device dev (overlay bytes pos count fun i => buf (written + i)) m' ∧ Outside dev m m' := by
  induction fuel generalizing block offset pos written count m bytes with
  | zero =>
    obtain rfl : count = 0 := by omega
    exact ⟨m, rfl, by rwa [overlay_zero], .refl dev m⟩
  | succ fuel ih =>
    by_cases hcount : count = 0
    · subst hcount
      refine ⟨m, ?_, by rwa [overlay_zero], .refl dev m⟩
      rw [blockWriteFrom, if_pos rfl]
      rfl
    · obtain rfl := hpos hcount
      have hblock : block < 65536 := by omega
      have hchars : offset + min count 1024 ≤ 1024 := by omega
      obtain ⟨c, hc, hdevice, houtside⟩ :=
        h.modify hdev hblock hchars fun i => buf (written + i)
      have hnext : count - min count 1024 ≠ 0 →
          1024 * block + offset + min count 1024 = 1024 * (block + 1) + 0 := by omega
      have hfuel' : count - min count 1024 ≤ fuel := by omega
      obtain ⟨m', hm', hdevice', houtside'⟩ :=
        ih (written + min count 1024) hdevice hfuel' hnext (.inl rfl) (by omega)
      refine ⟨m', ?_, ?_, houtside.trans houtside'⟩
      · rw [blockWriteFrom_succ hcount hchars, hc, Option.bind_some, hm']
        exact congrArg some (Prod.ext (by dsimp only; omega) (Prod.ext (by dsimp only; omega) rfl))
      · have hadd := overlay_add bytes (fun i => buf (written + i)) (1024 * block + offset)
          (min count 1024) (count - min count 1024)
        rw [show min count 1024 + (count - min count 1024) = count by omega] at hadd
        simp only [Nat.add_assoc] at hadd hdevice' ⊢
        exact hadd ▸ hdevice'

/-- The loop of `block_read`, when the rest of the bytes begins at a block or ends in the block in
which it begins. -/
theorem Device.readFrom (hdev : dev ≠ 0) {fuel : ℕ} (read : List UInt8) (h : Device dev bytes m)
    (hfuel : count ≤ fuel) (hpos : count ≠ 0 → pos = 1024 * block + offset)
    (hoff : offset = 0 ∨ offset + count ≤ 1024) (hend : pos + count ≤ 65536 * 1024) :
    ∃ m', blockReadFrom dev fuel block offset pos read count m =
        some (read ++ (List.range count).map fun i => bytes (pos + i), pos + count, m') ∧
      Device dev bytes m' ∧ Outside dev m m' := by
  induction fuel generalizing block offset pos read count m with
  | zero =>
    obtain rfl : count = 0 := by omega
    exact ⟨m, by rw [blockReadFrom, List.range_zero, List.map_nil, List.append_nil]; rfl, h,
      .refl dev m⟩
  | succ fuel ih =>
    by_cases hcount : count = 0
    · subst hcount
      refine ⟨m, ?_, h, .refl dev m⟩
      rw [blockReadFrom, if_pos rfl, List.range_zero, List.map_nil, List.append_nil]
      rfl
    · obtain rfl := hpos hcount
      have hblock : block < 65536 := by omega
      have hchars : offset + min count 1024 ≤ 1024 := by omega
      obtain ⟨m₁, hdevice, houtside, hturn⟩ :=
        h.read (1024 * block + offset) hdev hblock fuel read hcount hchars
      have hnext : count - min count 1024 ≠ 0 →
          1024 * block + offset + min count 1024 = 1024 * (block + 1) + 0 := by omega
      have hfuel' : count - min count 1024 ≤ fuel := by omega
      obtain ⟨m', hm', hdevice', houtside'⟩ :=
        ih (read ++ (List.range (min count 1024)).map
          fun i => bytes (1024 * block + offset + i)) hdevice hfuel' hnext (.inl rfl) (by omega)
      refine ⟨m', ?_, hdevice', houtside.trans houtside'⟩
      have hrange : List.range count = List.range (min count 1024) ++
          (List.range (count - min count 1024)).map (min count 1024 + ·) := by
        rw [← List.range_add]
        exact congrArg List.range (by omega)
      rw [hturn, hm', hrange, List.map_append, List.map_map, List.append_assoc]
      refine congrArg some (Prod.ext ?_ (Prod.ext (by dsimp only; omega) rfl))
      simp only [Function.comp_def, Nat.add_assoc]

/-- An access that begins at a block, or ends in the block in which it begins, is one to an
array. -/
theorem byteArray_of (hdev : dev ≠ 0) {count : ℤ} (hend : pos + count.toNat ≤ 65536 * 1024)
    (h : pos % 1024 = 0 ∨ pos % 1024 + count.toNat ≤ 1024) : ByteArray N dev pos count := by
  intro m bytes hm
  have hread : ∀ {m : Machine N} {bytes : ℕ → UInt8}, Device dev bytes m →
      ∃ m', blockRead dev pos count m =
          some ((List.range count.toNat).map fun i => bytes (pos + i), pos + count.toNat, m') ∧
        Device dev bytes m' ∧ Outside dev m m' := fun hm =>
    hm.readFrom hdev [] le_rfl (fun _ => by omega) h hend
  refine ⟨fun buf => ?_, hread hm⟩
  have hpos : count.toNat ≠ 0 → pos = 1024 * (pos / 1024) + pos % 1024 := fun _ => by omega
  obtain ⟨m', hwrite, hdevice, houtside⟩ := hm.writeFrom buf hdev 0 le_rfl hpos h hend
  simp only [Nat.zero_add] at hwrite hdevice
  obtain ⟨m'', hback, -, -⟩ := hread hdevice
  refine ⟨m', hwrite, hdevice, houtside, m'', hback.trans ?_⟩
  refine congrArg some (Prod.ext (List.map_congr_left fun i hi => ?_) rfl)
  have hi := List.mem_range.mp hi
  rw [overlay_of_mem (by omega) (by omega), Nat.add_sub_cancel_left]

/-! ### Accesses that leave their block -/

/-- What has been read is not lost. -/
theorem blockReadFrom_prefix {fuel block offset pos count : ℕ} {read out : List UInt8}
    {m m' : Machine N} {pos' : ℕ}
    (h : blockReadFrom dev fuel block offset pos read count m = some (out, pos', m')) :
    read <+: out := by
  induction fuel generalizing block offset pos read count m with
  | zero =>
    cases h
    exact List.prefix_rfl
  | succ fuel ih =>
    rw [blockReadFrom] at h
    split_ifs at h
    · cases h
      exact List.prefix_rfl
    · obtain ⟨r, -, h⟩ := Option.bind_eq_some_iff.mp h
      obtain ⟨c, -, h⟩ := Option.bind_eq_some_iff.mp h
      exact (List.prefix_append _ _).trans (ih h)

section Spill

variable [NeZero N]

/-- The cache as `buffer_init` leaves it, a disk of zeros, and ones elsewhere. -/
def Machine.fresh (hN : N ≤ 1664) : Machine N where
  cache := ⟨Queues.init, fun _ => ⟨⟨0, 0⟩, false, false, 0, none, fun _ => 0⟩, fun _ _ => 0⟩
  ram _ := 1
  bound := hN

theorem Device.fresh (hN : N ≤ 1664) (hdev : dev ≠ 0) :
    Device dev (fun _ => 0) (Machine.fresh hN) where
  sound := {
    unique := fun _ _ _ h => absurd rfl h
    uptodate := fun _ h => absurd h Bool.false_ne_true
    device := fun _ h => absurd h Bool.false_ne_true
    formed := Queues.Formed.of_init fun _ => rfl }
  free := ⟨0, rfl⟩
  room _ _ _ := by
    change 0 < 255
    omega
  shows _ _ := ⟨fun _ h => absurd (congrArg Label.dev h).symm hdev, fun _ => rfl⟩

/-- The first `bread` takes the first buffer. -/
theorem bread_fresh (hN : N ≤ 1664) {c : Cache Bytes N} {b : Fin N}
    (h : (Machine.fresh (N := N) hN).cache.bread ⟨dev, block⟩ 1 = some (c, b)) : b = 0 := by
  obtain ⟨n, rfl⟩ := Nat.exists_eq_succ_of_ne_zero (NeZero.ne N)
  rw [Cache.bread, Option.map_eq_some_iff] at h
  obtain ⟨r, hr, heq⟩ := h
  have hrb : r.2 = b := by
    split_ifs at heq
    · exact congrArg Prod.snd heq
    · exact congrArg Prod.snd heq
  rw [Cache.getblk] at hr
  have hfind : (Machine.fresh (N := n.succ) hN).cache.find ⟨dev, block⟩ = none := rfl
  have hscan : (Machine.fresh (N := n.succ) hN).cache.scan n.succ
    (Machine.fresh (N := n.succ) hN).cache.queues.freeList = some 0 := rfl
  rw [hfind, hscan] at hr
  dsimp only at hr
  split at hr
  · cases hr
  · rw [← hrb, ← Option.some.inj hr]

/-- A read that leaves its block returns memory beyond `BUFFER_END`. -/
theorem not_byteArray_of (hN : N ≤ 1664) (hdev : dev ≠ 0) {count : ℤ} (hoff : pos % 1024 ≠ 0)
    (hcount : 1024 < pos % 1024 + count.toNat) : ¬ ByteArray N dev pos count := by
  intro h
  obtain ⟨-, m', hread, -⟩ := h _ _ (Device.fresh hN hdev)
  obtain ⟨n, hn⟩ : ∃ n, count.toNat = n + 1 := ⟨count.toNat - 1, by omega⟩
  rw [blockRead, hn, blockReadFrom, if_neg (by omega), ← hn] at hread
  obtain ⟨⟨c, b⟩, hbread, hread⟩ := Option.bind_eq_some_iff.mp hread
  obtain rfl := bread_fresh hN hbread
  obtain ⟨c', -, hread⟩ := Option.bind_eq_some_iff.mp hread
  have hprefix := blockReadFrom_prefix hread
  rw [List.nil_append] at hprefix
  have hlt : 1024 - pos % 1024 < min count.toNat 1024 := by omega
  -- The byte at the end of the buffer is one, and not the zero of the next block.
  have hget := hprefix.getElem (i := 1024 - pos % 1024) (by simpa using hlt)
  rw [List.getElem_map, List.getElem_map, List.getElem_range, peek, owner_end] at hget
  · have hone : (1 : UInt8) = 0 := hget
    exact absurd hone (by decide)
  · change 0x200000 ≤ 0x200000 - 1024 * (0 + 1) + pos % 1024 + (1024 - pos % 1024)
    omega

end Spill

/-- A block device is a byte array for the accesses that begin at a block, and for those that end in
the block in which they begin. -/
theorem byteArray_iff [NeZero N] (hN : N ≤ 1664) (dev pos : ℕ) (hdev : dev ≠ 0) (count : ℤ)
    (hend : pos + count.toNat ≤ 65536 * 1024) :
    ByteArray N dev pos count ↔ pos % 1024 = 0 ∨ pos % 1024 + count.toNat ≤ 1024 := by
  refine ⟨fun h => ?_, byteArray_of hdev hend⟩
  by_contra hspill
  exact not_byteArray_of hN hdev (by omega) (by omega) h

/-- Two blocks from the second one on. -/
theorem byteArray_iff_aligned :
    ByteArray 2 0x306 1024 2048 ↔ 1024 % 1024 = 0 ∨ 1024 % 1024 + (2048 : ℤ).toNat ≤ 1024 :=
  byteArray_iff (by omega) 0x306 1024 (by omega) 2048 (by decide)

/-- A block from the second byte on. -/
theorem not_byteArray : ¬ ByteArray 2 0x306 1 1024 :=
  not_byteArray_of (by omega) (by omega) (by omega) (by decide)

end Linux001.BufferCache
