import Linux001.BufferCache.References
import Linux001.Fs.Model

/-!
# Allocation of zones and inodes

The functions `new_block`, `free_block`, `new_inode` and `free_inode` of `fs/bitmap.c` as processes
that share the bitmaps of a mounted device, the buffer cache and the inode table. `new_block` sleeps
in `getblk` after it has set the bit, and `free_block` in `get_hash_table` before it clears it; both
are processes of the buffer cache (`Linux001.BufferCache`). `new_inode` sleeps in `get_empty_inode`
before it looks for a bit.

The buffers of the bitmaps are held as long as the device is mounted; the bits stand for their
contents. A process that returns from `getblk` or from `brelse` may be overtaken by others before it
goes on, which the kernel does not let them do: the model has all interleavings of the kernel and
more. Which of the free slots `get_empty_inode` finds is left open.

## Main definitions

* `Bitmap`, `Bitmap.firstClear`: `s_imap` or `s_zmap`, and the search for a bit.
* `State`, `State.next`: the device, and the effect of an event.
* `bitOf`, `inodeTaken`: what has been returned and not been freed.
-/

namespace Linux001.Bitmaps

open BufferCache (Label)

/-- The number of a map block, and of a bit in it. -/
abbrev Bit := Fin 8 × ℕ

/-- The bit with the number `k`: `k/8192` and `k&8191`. -/
def bitAt (k : ℕ) : Bit := (Fin.ofNat 8 (k / 8192), k % 8192)

/-- `s_imap` or `s_zmap`: the bits of the map blocks, some of which may be missing. -/
abbrev Bitmap := Fin 8 → Option (ℕ → Bool)

namespace Bitmap

variable (m : Bitmap)

/-- A bit of a map block that is there is set. -/
def get (x : Bit) : Bool := (m x.1).any (· x.2)

/-- `set_bit` or `clear_bit`. -/
def set (x : Bit) (v : Bool) : Bitmap :=
  Function.update m x.1 ((m x.1).map fun bits => Function.update bits x.2 v)

/-- The loop of `new_block` and `new_inode` over the map blocks. -/
def firstClear : Option Bit :=
  (List.finRange 8).findSome? fun i => (m i).bind fun bits =>
    if Fs.findFirstZero bits 8192 0 < 8192 then some (i, Fs.findFirstZero bits 8192 0) else none

end Bitmap

/-- The fields of `struct super_block` of a mounted device that the functions use. -/
structure Super where
  dev : ℕ
  ninodes : ℕ
  nzones : ℕ
  firstdatazone : ℕ
  dev_ne : dev ≠ 0
  ninodes_lt : ninodes < 65536
  nzones_lt : nzones < 65536

namespace Super

variable (sb : Super)

/-- `j + i*8192 + s_firstdatazone-1`. The first bit of the first map block, which is set, is no
zone. -/
def zone (x : Bit) : ℕ := x.2 + 8192 * x.1 + sb.firstdatazone - 1

/-- The bit that `free_block` clears, after `block -= s_firstdatazone - 1`. -/
def place (z : ℕ) : Bit := bitAt (z + 1 - sb.firstdatazone)

/-- The label of the buffer of a zone. -/
def label (z : ℕ) : Label := ⟨sb.dev, z⟩

/-- The block is a zone. -/
def IsZone (z : ℕ) : Prop := sb.firstdatazone ≤ z ∧ z < sb.nzones

/-- The label is not the one of a zone. -/
def Plain (l : Label) : Prop := ∀ z, sb.IsZone z → l ≠ sb.label z

end Super

/-- An inode in core (`struct m_inode`). -/
structure Inode where
  dev : ℕ
  num : ℕ
  count : ℕ
  nlinks : ℕ

/-- An inode that `memset` has cleared. -/
def Inode.zero : Inode := ⟨0, 0, 0, 0⟩

/-- Where a process is. -/
inductive Pc
  /-- Outside of the functions. -/
  | idle
  /-- `new_block`, in `getblk`; the bit is set. -/
  | getblk (x : Bit)
  /-- `new_block`, in `brelse`. -/
  | brelse (x : Bit)
  /-- `free_block`, in `get_hash_table` or `brelse`. -/
  | free (z : ℕ)
  /-- `new_inode`, in `get_empty_inode`. -/
  | emptyInode
  deriving DecidableEq

/-- How calls have ended. -/
inductive Output (n : ℕ)
  /-- `new_block` has returned the zone `z`, for which it has set the bit `x`. -/
  | block (p : Fin n) (z : ℕ) (x : Bit)
  /-- `free_block` has cleared a bit. -/
  | freed (p : Fin n) (z : ℕ)
  /-- `free_block` has returned because others use the buffer. -/
  | kept (p : Fin n) (z : ℕ)
  /-- `new_inode` has returned an inode with this number. -/
  | inode (p : Fin n) (num : ℕ)
  /-- `free_inode` has cleared the bit of an inode. -/
  | freedInode (p : Fin n) (num : ℕ)

variable {n : ℕ}

/-- The bit that has been set for a zone that has been returned, and not been freed since. -/
def bitOf (z : ℕ) : List (Output n) → Option Bit
  | [] => none
  | .block _ z' x :: log => if z = z' then some x else bitOf z log
  | .freed _ z' :: log => if z = z' then none else bitOf z log
  | _ :: log => bitOf z log

/-- The inode number has been returned, and not been freed since. -/
def inodeTaken (num : ℕ) : List (Output n) → Bool
  | [] => false
  | .inode _ num' :: log => num = num' || inodeTaken num log
  | .freedInode _ num' :: log => num ≠ num' && inodeTaken num log
  | _ :: log => inodeTaken num log

/-- The state of a mounted device. The log has the calls that have ended, the last one first. -/
structure State (D : Type*) (N n : ℕ) where
  cache : BufferCache.State D N n
  zmap : Bitmap
  imap : Bitmap
  inode : Fin 32 → Inode
  pc : Fin n → Pc
  log : List (Output n)
  panic : Option String

/-- The events: a process calls `new_block`, `free_block` of a zone, `new_inode` or `free_inode` of
an inode in core, it changes `i_nlinks`, it finds an empty inode, or it goes on from where it is;
the disk takes or delivers the data of a buffer; the interrupt ends a transfer. -/
inductive Event (N n : ℕ)
  | newBlock (p : Fin n)
  | freeBlock (p : Fin n) (z : ℕ)
  | newInode (p : Fin n)
  | freeInode (p : Fin n) (k : Fin 32)
  | setLinks (p : Fin n) (k : Fin 32) (v : ℕ)
  | empty (p : Fin n) (k : Fin 32)
  | run (p : Fin n)
  | disk (b : Fin N)
  | intr (b : Fin N)

namespace State

variable {D : Type*} {N : ℕ} (s : State D N n) (sb : Super) (p : Fin n)

/-- Move a process. -/
def setPc (pc : Pc) : State D N n := { s with pc := Function.update s.pc p pc }

/-- A step of the buffer cache. -/
def onCache (e : BufferCache.Event D N n) : Option (State D N n) :=
  (s.cache.next e).map fun c => { s with cache := c }

/-- A call ends. -/
def finish (o : Output n) : State D N n := { s.setPc p .idle with log := o :: s.log }

/-- `new_block(dev)`. -/
def newBlock : Option (State D N n) :=
  match s.zmap.firstClear with
  | none => some s
  | some x =>
    let s := { s with zmap := s.zmap.set x true }
    if sb.nzones ≤ sb.zone x then some s
    else (s.onCache (.call p (sb.label (sb.zone x)) (.get false))).map (·.setPc p (.getblk x))

/-- `new_block`, when `getblk` has returned: the check of `b_count`, `clear_block`, and `brelse`. -/
def clearBlock [Zero D] (x : Bit) : Option (State D N n) :=
  match (s.cache.proc p).held with
  | [] => none
  | (_, b) :: _ =>
    if (s.cache.buf b).count ≠ 1 then some { s with panic := some "new block: count is != 1" }
    else ((s.onCache (.fill p 0 0)).bind (·.onCache (.brelse p 0))).map (·.setPc p (.brelse x))

/-- `free_block(dev, z)`. -/
def freeBlock (z : ℕ) : Option (State D N n) :=
  if z < sb.firstdatazone ∨ sb.nzones ≤ z then
    some { s with panic := some "trying to free block not in datazone" }
  else (s.onCache (.call p (sb.label z) .free)).map (·.setPc p (.free z))

/-- `free_block`, when the buffer has been released, or there is none. -/
def clearBit (z : ℕ) : State D N n :=
  if s.zmap.get (sb.place z) then
    { s.finish p (.freed p z) with zmap := s.zmap.set (sb.place z) false }
  else { s with panic := some "free_block: bit already cleared" }

/-- `free_block` finds that others use the buffer. -/
def keeps : Bool :=
  match (s.cache.proc p).pc with
  | .hashWait b l .free => (s.cache.buf b).label = l ∧ (s.cache.buf b).count ≠ 1
  | _ => false

/-- `new_inode(dev)`, when `get_empty_inode` has returned the inode in the slot `k`. -/
def takeInode (k : Fin 32) : State D N n :=
  let s := { s with inode := Function.update s.inode k .zero }
  match s.imap.firstClear with
  | none => s.setPc p .idle
  | some x =>
    let num := x.2 + x.1 * 8192
    if sb.ninodes < num then s.setPc p .idle
    else { s.finish p (.inode p num) with
      imap := s.imap.set x true
      inode := Function.update s.inode k ⟨sb.dev, num, 1, 1⟩ }

/-- `free_inode(inode)` for the inode in the slot `k`. -/
def freeInode (k : Fin 32) : State D N n :=
  let i := s.inode k
  let x := bitAt i.num
  if i.dev = 0 then { s with inode := Function.update s.inode k .zero }
  else if 1 < i.count then { s with panic := some "free_inode" }
  else if i.nlinks ≠ 0 then { s with panic := some "trying to free inode with links" }
  else if i.num < 1 ∨ sb.ninodes < i.num then
    { s with panic := some "trying to free inode 0 or nonexistant inode" }
  else if s.imap x.1 = none then { s with panic := some "nonexistent imap in superblock" }
  else if s.imap.get x then { s.finish p (.freedInode p i.num) with
    imap := s.imap.set x false
    inode := Function.update s.inode k .zero }
  else { s with panic := some "free_inode: bit already cleared" }

/-- A process goes on from where it is. -/
def run [Zero D] : Option (State D N n) :=
  match s.pc p with
  | .idle | .emptyInode => none
  | .getblk x =>
    if (s.cache.proc p).pc = .idle then s.clearBlock p x else s.onCache (.run p)
  | .brelse x =>
    if (s.cache.proc p).pc = .idle then some (s.finish p (.block p (sb.zone x) x))
    else s.onCache (.run p)
  | .free z =>
    if (s.cache.proc p).pc = .idle then some (s.clearBit sb p z)
    else if s.keeps p then (s.onCache (.run p)).map (·.finish p (.kept p z))
    else s.onCache (.run p)

/-- The zone is owned: it has been returned by `new_block`, and no process is freeing it. -/
def Owned (z : ℕ) : Prop := bitOf z s.log ≠ none ∧ ∀ q, s.pc q ≠ .free z

instance (z : ℕ) : Decidable (s.Owned z) :=
  inferInstanceAs (Decidable (bitOf z s.log ≠ none ∧ ∀ q, s.pc q ≠ .free z))

/-- A process may begin a call. -/
def Ready : Prop := s.pc p = .idle ∧ s.cache.current = none

instance : Decidable (s.Ready p) :=
  inferInstanceAs (Decidable (s.pc p = .idle ∧ s.cache.current = none))

/-- The effect of an event. Nothing happens after a panic. `free_block` is called for zones that are
owned. -/
def next [Zero D] (e : Event N n) : Option (State D N n) :=
  if s.panic ≠ none then none
  else match e with
  | .newBlock p => if s.Ready p then s.newBlock sb p else none
  | .freeBlock p z => if s.Ready p ∧ s.Owned z then s.freeBlock sb p z else none
  | .newInode p => if s.Ready p then some (s.setPc p .emptyInode) else none
  | .freeInode p k => if s.Ready p then some (s.freeInode sb p k) else none
  | .setLinks p k v =>
    if s.Ready p then
      some { s with inode := Function.update s.inode k { s.inode k with nlinks := v } }
    else none
  | .empty p k =>
    if s.pc p = .emptyInode ∧ s.cache.current = none ∧ (s.inode k).count = 0 then
      some (s.takeInode sb p k)
    else none
  | .run p => s.run sb p
  | .disk b => s.onCache (.disk b)
  | .intr b => s.onCache (.intr b)

/-- The device has been mounted, and the calls begin: the buffer cache is in a state that it can
come to without making a counter wrap around, no process is in a call, no reference is missing, no
process holds a buffer of a zone, and bit 0 of both bitmaps is set. -/
structure Initial [NeZero N] (s : State D N n) : Prop where
  cache : ∃ disk data es, Runs (fun c e c' => BufferCache.State.next c e = some c' ∧ c.NoWrap e)
    (.init disk data) es s.cache
  idle : ∀ p, s.pc p = .idle ∧ (s.cache.proc p).pc = .idle
  counted : ∀ b, (s.cache.buf b).count = ∑ q, (s.cache.proc q).refs.count b
  held : ∀ p, ∀ x ∈ (s.cache.proc p).held, sb.Plain x.1
  zmap : ∀ bits, s.zmap 0 = some bits → bits 0 = true
  imap : ∀ bits, s.imap 0 = some bits → bits 0 = true
  log : s.log = []

end State

/-! ### Bits and zones -/

theorem bitAt_of_bit {x : Bit} (h : x.2 < 8192) : bitAt (x.2 + x.1 * 8192) = x := by
  have hi := x.1.isLt
  refine Prod.ext (Fin.ext ?_) ?_
  · change (x.2 + x.1 * 8192) / 8192 % 8 = x.1
    omega
  · change (x.2 + x.1 * 8192) % 8192 = x.2
    omega

theorem bitAt_inj {k k' : ℕ} (hk : k < 65536) (hk' : k' < 65536) (h : bitAt k = bitAt k') :
    k = k' := by
  obtain ⟨hdiv, hmod⟩ := Prod.mk.inj h
  have hdiv' : k / 8192 % 8 = k' / 8192 % 8 := congrArg Fin.val hdiv
  omega

namespace Super

variable {sb : Super} {x : Bit} {z z' : ℕ}

/-- The bit of a zone that `new_block` returns is the one that `free_block` clears. -/
theorem place_zone (hlt : x.2 < 8192) (hx : x ≠ (0, 0)) :
    sb.firstdatazone ≤ sb.zone x ∧ sb.place (sb.zone x) = x := by
  have hpos : 1 ≤ x.2 + x.1 * 8192 := by
    by_contra hc
    exact hx (Prod.ext (Fin.ext (by change (x.1 : ℕ) = 0; omega)) (by omega))
  unfold place zone
  refine ⟨by omega, ?_⟩
  rw [← bitAt_of_bit hlt]
  congr 1
  rw [bitAt_of_bit hlt]
  omega

theorem place_inj (hz : sb.IsZone z) (hz' : sb.IsZone z') (h : sb.place z = sb.place z') :
    z = z' := by
  have hlt := sb.nzones_lt
  have heq := bitAt_inj (by have := hz.2; omega) (by have := hz'.2; omega) h
  have hle := hz.1
  have hle' := hz'.1
  omega

theorem place_ne_zero (hz : sb.IsZone z) : sb.place z ≠ (0, 0) := fun h => by
  have hlt := sb.nzones_lt
  have heq := bitAt_inj (by have := hz.2; omega) (by omega : 0 < 65536) h
  have hle := hz.1
  omega

end Super

namespace Bitmap

variable {m : Bitmap} {x y : Bit} {v : Bool}

/-- The bit that is found is a clear bit of a map block. -/
theorem of_firstClear (h : m.firstClear = some x) :
    ∃ bits, m x.1 = some bits ∧ bits x.2 = false ∧ x.2 < 8192 := by
  obtain ⟨i, -, hi⟩ := List.exists_of_findSome?_eq_some h
  obtain ⟨bits, hbits, hi⟩ := Option.bind_eq_some_iff.mp hi
  split_ifs at hi with hlt
  rw [← Option.some.inj hi]
  refine ⟨bits, hbits, Fs.findFirstZero_clear ?_, hlt⟩
  rwa [Nat.zero_add]

theorem get_set_self (h : m x.1 ≠ none) : (m.set x v).get x = v := by
  obtain ⟨bits, hbits⟩ := Option.ne_none_iff_exists'.mp h
  rw [get, set, Function.update_self, hbits]
  exact Function.update_self x.2 v bits

/-- The bit that is found is not the first one, which is set. -/
theorem firstClear_ne (h : m.firstClear = some x)
    (hfirst : ∀ bits, m 0 = some bits → bits 0 = true) : x ≠ (0, 0) := by
  rintro rfl
  obtain ⟨bits, hbits, hclear, -⟩ := of_firstClear h
  rw [hfirst bits hbits] at hclear
  cases hclear

theorem get_set_of_ne (h : y ≠ x) : (m.set x v).get y = m.get y := by
  rw [get, get, set]
  by_cases hi : y.1 = x.1
  · have hj : y.2 ≠ x.2 := fun hj => h (Prod.ext hi hj)
    rw [hi, Function.update_self]
    cases m x.1 with
    | none => rfl
    | some bits => exact Function.update_of_ne hj v bits
  · rw [Function.update_of_ne hi]

theorem get_eq_true : m.get x = true ↔ ∃ bits, m x.1 = some bits ∧ bits x.2 = true := by
  rw [get]
  cases m x.1 with
  | none => simp
  | some bits => simp

theorem get_mono (h : m.get y = true) : (m.set x true).get y = true := by
  by_cases hy : y = x
  · obtain ⟨bits, hbits, -⟩ := get_eq_true.mp h
    rw [hy, get_set_self (by rw [← hy, hbits]; nofun)]
  · rw [get_set_of_ne hy, h]

/-- The first bit of the first map block stays set. -/
theorem first_set (hfirst : ∀ bits, m 0 = some bits → bits 0 = true) (hv : v = true ∨ x ≠ (0, 0)) :
    ∀ bits, (m.set x v) 0 = some bits → bits 0 = true := fun bits hbits => by
  by_cases hi : 0 = x.1
  · rw [set, ← hi, Function.update_self] at hbits
    obtain ⟨bits₀, hbits₀, rfl⟩ := Option.map_eq_some_iff.mp hbits
    rw [Function.update_apply]
    split_ifs with hj
    · exact hv.resolve_right (not_not.mpr (Prod.ext hi.symm hj.symm))
    · exact hfirst bits₀ hbits₀
  · rw [set, Function.update_of_ne hi] at hbits
    exact hfirst bits hbits

end Bitmap

end Linux001.Bitmaps
