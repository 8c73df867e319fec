import Linux001.Lib.Counting
import Linux001.Lib.Sizes
import Mathlib.Algebra.BigOperators.Fin
import Mathlib.Data.List.FinRange

/-!
# Mounting a device

The model of `do_mount` of `fs/super.c`. The buffer cache is seen through the blocks of the device
that is mounted: `b_count`, a byte that may run over, and the data of their buffers. A call of
`bread` succeeds or not, as the device pleases. A store behind the end of an array and a store
through a null pointer end the function with a fault.

`do_mount` marks a slot of `super_block` as used before it knows that there is one, and forgets to
free it when block 1 cannot be read. It trusts the numbers of bitmap blocks in block 1.

## Main definitions

* `Super`, `Machine`: the table `super_block`, and the buffers.
* `doMount`: the function.
* `AllOrNothing`: a super block is mounted, or nothing has changed.

## Main results

* `allOrNothing_iff`: when `do_mount` is all or nothing.
-/

namespace Linux001.Fs.Mount

/-- `struct super_block`. Pointers to buffers are the numbers of their blocks. -/
structure Super where
  ninodes : UInt16
  nzones : UInt16
  imapBlocks : UInt16
  zmapBlocks : UInt16
  firstdatazone : UInt16
  logZoneSize : UInt16
  maxSize : UInt32
  magic : UInt16
  imap : Fin 8 → Option ℕ
  zmap : Fin 8 → Option ℕ
  dev : UInt16
  isup : Option ℕ
  imount : Option ℕ
  time : UInt32
  rdOnly : Bool
  dirt : Bool

/-- `SUPER_MAGIC`. -/
def SUPER_MAGIC : UInt16 := 0x137F

/-- The table `super_block`, the buffers of the blocks of the device, and the number of calls of
`bread` so far. -/
structure Machine where
  table : Fin 8 → Super
  count : ℕ → UInt8
  data : ℕ → ℕ → UInt8
  reads : ℕ

/-- What ends `do_mount` before it returns. -/
inductive Fault
  | outOfBounds
  | nullPointer
  | freeingFreeBuffer
  deriving DecidableEq

/-- The two arrays of bitmap blocks. -/
inductive Bitmap
  | inodes
  | zones

/-- `s_imap` or `s_zmap`. -/
def Super.map (q : Super) : Bitmap → Fin 8 → Option ℕ
  | .inodes => q.imap
  | .zones => q.zmap

/-- The super block with another `s_imap` or `s_zmap`. -/
def Super.withMap (q : Super) (f : Fin 8 → Option ℕ) : Bitmap → Super
  | .inodes => { q with imap := f }
  | .zones => { q with zmap := f }

namespace Machine

variable (m : Machine)

/-- Stores to a slot of the table. -/
def setSuper (p : Fin 8) (q : Super) : Machine := { m with table := Function.update m.table p q }

/-- `brelse(bh)`. -/
def brelse : Option ℕ → Except Fault Machine
  | none => .ok m
  | some b =>
    if m.count b = 0 then .error .freeingFreeBuffer
    else .ok { m with count := Function.update m.count b (m.count b - 1) }

/-- `getblk(dev, block)`. -/
def getblk (block : ℕ) : Machine :=
  { m with
    reads := m.reads + 1
    count := Function.update m.count block (m.count block + 1) }

/-- `bread(dev, block)`. -/
def bread (ok : ℕ → Bool) (block : ℕ) : Except Fault (Machine × Option ℕ) :=
  if ok m.reads then .ok (m.getblk block, some block)
  else ((m.getblk block).brelse (some block)).map fun m => (m, none)

/-- A loop that releases all buffers of a bitmap. -/
def brelseAll (f : Fin 8 → Option ℕ) : Except Fault Machine :=
  (List.finRange 8).foldlM (fun m i => m.brelse (f i)) m

/-- `bh->b_data[0] |= 1`. -/
def setFirst : Option ℕ → Except Fault Machine
  | none => .error .nullPointer
  | some b =>
    .ok { m with
      data := Function.update m.data b (Function.update (m.data b) 0 (m.data b 0 ||| 1)) }

/-- A loop that reads the blocks of a bitmap, with `n` of them to come, and the value of `block`
that it leaves. -/
def load (ok : ℕ → Bool) (w : Bitmap) (p : Fin 8) :
    ℕ → ℕ → ℕ → Machine → Except Fault (Machine × ℕ)
  | 0, _, block, m => .ok (m, block)
  | n + 1, i, block, m =>
    (m.bread ok block).bind fun (m, bh) =>
      if h : i < 8 then
        let q := m.table p
        let m := m.setSuper p (q.withMap (Function.update (q.map w) ⟨i, h⟩ bh) w)
        match bh with
        | some _ => load ok w p n (i + 1) (block + 1) m
        | none => .ok (m, block)
      else .error .outOfBounds

/-- The end of `do_mount`, from the test of `block` on. -/
def settle (dev : UInt16) (p : Fin 8) (block : ℕ) : Except Fault (Machine × Option (Fin 8)) :=
  let q := m.table p
  if block ≠ 2 + q.imapBlocks.toNat + q.zmapBlocks.toNat then
    (m.brelseAll q.imap).bind fun m =>
      (m.brelseAll q.zmap).bind fun m => .ok (m.setSuper p { m.table p with dev := 0 }, none)
  else
    (m.setFirst (q.imap 0)).bind fun m =>
      (m.setFirst (q.zmap 0)).bind fun m =>
        .ok (m.setSuper p { m.table p with
          dev := dev, isup := none, imount := none, time := 0, rdOnly := false, dirt := false },
          some p)

/-- `do_mount(dev)`, when block 1 holds `content`; `ok` tells which calls of `bread` succeed. -/
def doMount (ok : ℕ → Bool) (content : Super) (dev : UInt16) :
    Except Fault (Machine × Option (Fin 8)) :=
  match (List.finRange 8).find? fun p => (m.table p).dev = 0 with
  | none => .error .outOfBounds -- `p->s_dev = -1` is behind the table.
  | some p =>
    let m := m.setSuper p { m.table p with dev := 0xffff }
    (m.bread ok 1).bind fun (m, bh) =>
      match bh with
      | none => .ok (m, none)
      | some bh =>
        let m := m.setSuper p content
        (m.brelse (some bh)).bind fun m =>
          if content.magic ≠ SUPER_MAGIC then
            .ok (m.setSuper p { m.table p with dev := 0 }, none)
          else
            let m := m.setSuper p { m.table p with imap := fun _ => none, zmap := fun _ => none }
            (m.load ok .inodes p content.imapBlocks.toNat 0 2).bind fun (m, block) =>
              (m.load ok .zones p content.zmapBlocks.toNat 0 block).bind fun (m, block) =>
                m.settle dev p block

end Machine

/-! ### What the function is to do -/

/-- What others see of a slot: nothing, unless it is in use. -/
def Super.view (q : Super) : Option Super := if q.dev = 0 then none else some q

/-- The number of pointers of an array to the buffer of a block. -/
def pointers (f : Fin 8 → Option ℕ) (b : ℕ) : ℕ := ∑ i, if f i = some b then 1 else 0

/-- The number of pointers to the buffer of a block. -/
def Super.holds (q : Super) (b : ℕ) : ℕ := pointers q.imap b + pointers q.zmap b

/-- The bitmaps of the device have been loaded. -/
structure Super.Mounted (q : Super) (dev : UInt16) : Prop where
  dev : q.dev = dev
  imapBlocks_le : q.imapBlocks.toNat ≤ 8
  zmapBlocks_le : q.zmapBlocks.toNat ≤ 8
  imap : ∀ i : Fin 8, i.val < q.imapBlocks.toNat → q.imap i = some (2 + i.val)
  zmap : ∀ i : Fin 8, i.val < q.zmapBlocks.toNat → q.zmap i =
    some (2 + q.imapBlocks.toNat + i.val)

/-- `do_mount` returns a super block whose bitmaps are loaded, each buffer being counted once more
for each pointer to it, or it returns `NULL` and leaves the slots and the counts as they were. -/
def AllOrNothing (ok : ℕ → Bool) (content : Super) (dev : UInt16) (m : Machine) : Prop :=
  ∃ m' r, m.doMount ok content dev = .ok (m', r) ∧
    match r with
    | some p => (m'.table p).Mounted dev ∧ (m.table p).dev = 0 ∧
        (∀ j, j ≠ p → m'.table j = m.table j) ∧
        ∀ b, (m'.count b).toNat = (m.count b).toNat + (m'.table p).holds b
    | none => (∀ j, (m'.table j).view = (m.table j).view) ∧ m'.count = m.count

/-- The number of calls of `bread` that succeed, from the call `c` on and of at most `n` calls,
until one fails. -/
def run (ok : ℕ → Bool) : ℕ → ℕ → ℕ
  | _, 0 => 0
  | c, n + 1 => if ok c then run ok (c + 1) n + 1 else 0

/-- The number of calls of `bread` in a loop that loads `k` of `n` blocks. -/
def calls (k n : ℕ) : ℕ := if k < n then k + 1 else n

/-- There is a free slot and block 1 can be read. If it is a super block, neither loop stores a
ninth block, and no bitmap is empty when both have been loaded. The counters of the buffers of block
1 and of the blocks that the loops ask for are not at their greatest value. -/
def Mountable (ok : ℕ → Bool) (content : Super) (m : Machine) : Prop :=
  let c := m.reads
  let n := content.imapBlocks.toNat
  let k := run ok (c + 1) n
  let n' := content.zmapBlocks.toNat
  let k' := run ok (c + 1 + calls k n) n'
  (∃ p, (m.table p).dev = 0) ∧ ok c = true ∧ m.count 1 ≠ 255 ∧
    (content.magic = SUPER_MAGIC → (n ≤ 8 ∨ k < 8) ∧ (n' ≤ 8 ∨ k' < 8) ∧
      (k = n → k' = n' → n ≠ 0 ∧ n' ≠ 0) ∧
      (∀ j < calls k n, m.count (2 + j) ≠ 255) ∧ ∀ j < calls k' n', m.count (2 + k + j) ≠ 255)

/-! ### The loops -/

variable {ok : ℕ → Bool} {m m' : Machine} {p : Fin 8} {w : Bitmap} {q : Super} {b c n i k block : ℕ}

theorem run_le (ok : ℕ → Bool) (c n : ℕ) : run ok c n ≤ n := by
  induction n generalizing c with
  | zero => exact le_rfl
  | succ n ih =>
    rw [run]
    split_ifs
    · exact Nat.succ_le_succ (ih (c + 1))
    · exact Nat.zero_le _

theorem map_withMap (q : Super) (f : Fin 8 → Option ℕ) (w : Bitmap) :
    (q.withMap f w).map w = f := by
  cases w <;> rfl

theorem withMap_withMap (q : Super) (f g : Fin 8 → Option ℕ) (w : Bitmap) :
    (q.withMap f w).withMap g w = q.withMap g w := by
  cases w <;> rfl

theorem withMap_map (q : Super) (w : Bitmap) : q.withMap (q.map w) w = q := by
  cases w <;> rfl

theorem pointers_update {f : Fin 8 → Option ℕ} {i : Fin 8} (h : f i = none) (o : Option ℕ) (b : ℕ) :
    pointers (Function.update f i o) b = pointers f b + if o = some b then 1 else 0 := by
  have hsum := sum_update_add f (fun o : Option ℕ => if o = some b then 1 else 0) i o
  rw [h, if_neg (nomatch ·), Nat.add_zero] at hsum
  exact hsum

/-- A pointer is stored where there was none. -/
theorem holds_update (q : Super) {i : Fin 8} (h : q.map w i = none) (o : Option ℕ) (b : ℕ) :
    (q.withMap (Function.update (q.map w) i o) w).holds b =
      q.holds b + if o = some b then 1 else 0 := by
  have hmap := pointers_update h o b
  cases w with
  | inodes | zones =>
    simp only [Super.holds, Super.withMap, Super.map] at hmap ⊢
    omega

/-- What the loop that reads a bitmap does, when it has loaded `k` blocks from `block` on into the
places from `i` on. -/
structure Loaded (w : Bitmap) (p : Fin 8) (i block k : ℕ) (m m' : Machine) : Prop where
  others : ∀ j, j ≠ p → m'.table j = m.table j
  slot : m'.table p = (m.table p).withMap ((m'.table p).map w) w
  before : ∀ j : Fin 8, j.val < i → (m'.table p).map w j = (m.table p).map w j
  loaded : ∀ j : Fin 8, i ≤ j.val → j.val < i + k → (m'.table p).map w j =
    some (block + (j.val - i))
  rest : ∀ j : Fin 8, i + k ≤ j.val → (m.table p).map w j = none → (m'.table p).map w j = none
  count : ∀ b, (m'.count b).toNat + (m.table p).holds b =
    (m.count b).toNat + (m'.table p).holds b

/-- The state after a turn of the loop, in which the pointer `bh` has been stored. -/
def turn (w : Bitmap) (p : Fin 8) (i : Fin 8) (bh : Option ℕ) (m : Machine) : Machine :=
  { m with
    reads := m.reads + 1
    count := fun b => m.count b + if bh = some b then 1 else 0
    table := Function.update m.table p
      ((m.table p).withMap (Function.update ((m.table p).map w) i bh) w) }

theorem getblk_count (m : Machine) (block : ℕ) : (m.getblk block).count =
    fun b => m.count b + if some block = some b then 1 else 0 := by
  funext b
  rw [Machine.getblk]
  dsimp only
  rw [Function.update_apply]
  rcases eq_or_ne b block with rfl | hb
  · rw [if_pos rfl, if_pos rfl]
  · rw [if_neg hb, if_neg fun hc => hb (Option.some.inj hc).symm, UInt8.add_zero]

theorem brelse_some (h : m.count b ≠ 0) :
    m.brelse (some b) = .ok { m with count := Function.update m.count b (m.count b - 1) } :=
  if_neg h

theorem add_one_ne_zero {x : UInt8} (h : x ≠ 255) : x + 1 ≠ 0 := by
  grind

theorem toNat_add_one {x : UInt8} (h : x ≠ 255) : (x + 1).toNat = x.toNat + 1 := by
  have hne : x.toNat ≠ 255 := fun heq => h (UInt8.toNat_inj.mp heq)
  have hlt := x.toNat_lt
  rw [UInt8.toNat_add]
  exact Nat.mod_eq_of_lt (by change x.toNat + 1 < _; omega)

/-- A buffer that has been obtained and released. -/
theorem brelse_getblk (h : m.count block ≠ 255) :
    (m.getblk block).brelse (some block) = .ok { m with reads := m.reads + 1 } := by
  have hself : (m.getblk block).count block = m.count block + 1 := Function.update_self ..
  have hne : (m.getblk block).count block ≠ 0 := by
    rw [hself]
    exact add_one_ne_zero h
  rw [brelse_some hne, hself, UInt8.add_sub_cancel, Machine.getblk, Function.update_idem,
    Function.update_eq_self]

/-- A counter that has run over. -/
theorem brelse_getblk_full (h : m.count block = 255) :
    (m.getblk block).brelse (some block) = .error .freeingFreeBuffer := by
  refine if_pos ?_
  rw [Machine.getblk]
  dsimp only
  rw [Function.update_self, h]
  rfl

/-- A turn in which the read succeeds. -/
theorem load_succ (hi : i < 8) (hok : ok m.reads = true) :
    m.load ok w p (n + 1) i block =
      Machine.load ok w p n (i + 1) (block + 1) (turn w p ⟨i, hi⟩ (some block) m) := by
  have hcount := getblk_count m block
  rw [Machine.load, Machine.bread, if_pos hok]
  simp only [Except.bind]
  rw [dif_pos hi, turn, ← hcount]
  rfl

/-- The turn in which the read fails. -/
theorem load_fail (hi : i < 8) (hok : ok m.reads = false) (hroom : m.count block ≠ 255) :
    m.load ok w p (n + 1) i block = .ok (turn w p ⟨i, hi⟩ none m, block) := by
  have hcount : m.count = fun b => m.count b + if none = some b then 1 else 0 := by
    funext b
    rw [if_neg (nomatch ·), UInt8.add_zero]
  rw [Machine.load, Machine.bread, if_neg (by rw [hok]; exact Bool.false_ne_true),
    brelse_getblk hroom]
  simp only [Except.map, Except.bind]
  rw [dif_pos hi, turn, ← hcount]
  rfl

/-- The read fails, and the counter of the buffer has run over. -/
theorem load_full (hok : ok m.reads = false) (hfull : m.count block = 255) :
    m.load ok w p (n + 1) i block = .error .freeingFreeBuffer := by
  rw [Machine.load, Machine.bread, if_neg (by rw [hok]; exact Bool.false_ne_true),
    brelse_getblk_full hfull]
  rfl

/-- The turn of the loop behind the end of the array. -/
theorem load_outOfBounds : ∃ e, m.load ok w p (n + 1) 8 block = .error e := by
  rw [Machine.load]
  rcases m.bread ok block with e | ⟨m', bh⟩
  · exact ⟨e, rfl⟩
  · refine ⟨.outOfBounds, ?_⟩
    simp only [Except.bind]
    rw [dif_neg (by omega)]

/-- The loop that ends does so in the array. -/
theorem load_lt {x : Machine × ℕ} (h : m.load ok w p (n + 1) i block = .ok x) (hi : i ≤ 8) :
    i < 8 := by
  refine Nat.lt_of_le_of_ne hi fun heq => ?_
  subst heq
  obtain ⟨e, he⟩ : ∃ e, m.load ok w p (n + 1) 8 block = .error e := load_outOfBounds
  cases he.symm.trans h

theorem turn_table (w : Bitmap) (p i : Fin 8) (bh : Option ℕ) (m : Machine) :
    (turn w p i bh m).table p = (m.table p).withMap (Function.update ((m.table p).map w) i bh) w :=
  Function.update_self ..

theorem turn_map (w : Bitmap) (p i : Fin 8) (bh : Option ℕ) (m : Machine) :
    ((turn w p i bh m).table p).map w = Function.update ((m.table p).map w) i bh := by
  rw [turn_table, map_withMap]

theorem turn_none (hlt : i < 8) (hnone : ∀ j : Fin 8, i ≤ j.val → (m.table p).map w j = none)
    (j : Fin 8) (hj : i + 1 ≤ j.val) :
    ((turn w p ⟨i, hlt⟩ (some block) m).table p).map w j = none := by
  rw [turn_map, Function.update_of_ne (Fin.ne_of_gt hj)]
  exact hnone j (by omega)

/-- A turn as a loop that loads one block or none. -/
theorem loaded_turn {i : Fin 8} (hnone : (m.table p).map w i = none) {bh : Option ℕ}
    (hk : k = 0 ∧ bh = none ∨ k = 1 ∧ bh = some block) (hroom : m.count block ≠ 255) :
    Loaded w p i block k m (turn w p i bh m) := by
  refine ⟨fun j hj => Function.update_of_ne hj .., ?_, fun j hj => ?_, fun j hj hlt => ?_,
    fun j hj hjnone => ?_, fun b => ?_⟩
  · rw [turn_map, turn_table]
  · rw [turn_map, Function.update_of_ne (Fin.ne_of_lt hj)]
  · obtain ⟨rfl, -⟩ | ⟨rfl, rfl⟩ := hk
    · omega
    · obtain rfl : j = i := Fin.ext (by omega)
      rw [turn_map, Function.update_self, Nat.sub_self, Nat.add_zero]
  · rw [turn_map, Function.update_apply]
    split_ifs with hji
    · obtain ⟨-, rfl⟩ | ⟨rfl, -⟩ := hk
      · rfl
      · rw [hji] at hj
        omega
    · exact hjnone
  · have hholds := holds_update (m.table p) hnone bh b
    rw [turn_table, hholds]
    simp only [turn]
    split_ifs with hb
    · obtain rfl : block = b := by
        obtain ⟨-, rfl⟩ | ⟨-, rfl⟩ := hk
        · cases hb
        · exact Option.some.inj hb
      rw [toNat_add_one hroom]
      omega
    · rw [UInt8.add_zero]
      omega

theorem Loaded.trans {m₁ : Machine} {k' : ℕ} (h : Loaded w p i block k m m₁)
    (h' : Loaded w p (i + k) (block + k) k' m₁ m') : Loaded w p i block (k + k') m m' := by
  refine ⟨fun j hj => (h'.others j hj).trans (h.others j hj), ?_, fun j hj => ?_,
    fun j hj hlt => ?_,
    fun j hj hnone => h'.rest j (by omega) (h.rest j (by omega) hnone), fun b => ?_⟩
  · rw [h'.slot, h.slot, map_withMap, withMap_withMap]
  · rw [h'.before j (by omega), h.before j hj]
  · rcases Nat.lt_or_ge j.val (i + k) with hlt' | hge
    · rw [h'.before j hlt', h.loaded j hj hlt']
    · rw [h'.loaded j hge (by omega)]
      exact congrArg some (by omega)
  · have := h.count b
    have := h'.count b
    omega

/-- The counter of a block that a turn does not ask for. -/
theorem turn_count_of_ne {i : Fin 8} (h : b ≠ block) :
    (turn w p i (some block) m).count b = m.count b := by
  simp only [turn]
  rw [if_neg fun hc => h (Option.some.inj hc).symm, UInt8.add_zero]

/-- The loop goes behind the end of the array, or it ends after the first block that cannot be
read. -/
theorem load_spec (ok : ℕ → Bool) (n block : ℕ) (hi : i ≤ 8)
    (hnone : ∀ j : Fin 8, i ≤ j.val → (m.table p).map w j = none)
    (hroom : ∀ j < calls (run ok m.reads n) n, m.count (block + j) ≠ 255) :
    (8 ≤ i + run ok m.reads n ∧ 8 < i + n → ∃ e, m.load ok w p n i block = .error e) ∧
      (i + run ok m.reads n < 8 ∨ i + n ≤ 8 → ∃ m',
        m.load ok w p n i block = .ok (m', block + run ok m.reads n) ∧
          m'.reads = m.reads + calls (run ok m.reads n) n ∧
          Loaded w p i block (run ok m.reads n) m m') := by
  induction n generalizing i block m with
  | zero =>
    refine ⟨fun h => absurd h.2 (by omega), fun _ =>
      ⟨m, rfl, rfl, fun _ _ => rfl, ?_, fun _ _ => rfl,
      fun j hj hlt => ?_, fun _ _ h => h, fun _ => rfl⟩⟩
    · rw [withMap_map]
    · rw [run] at hlt
      omega
  | succ n ih =>
    rcases Nat.lt_or_ge i 8 with hlt | hge
    swap
    · obtain rfl : i = 8 := by omega
      exact ⟨fun _ => load_outOfBounds, fun h => absurd h (by omega)⟩
    have hi := hnone ⟨i, hlt⟩ le_rfl
    by_cases hok : ok m.reads = true
    · have hroom₀ : m.count block ≠ 255 := hroom 0 (by rw [calls]; split_ifs <;> omega)
      have hreads : (turn w p ⟨i, hlt⟩ (some block) m).reads = m.reads + 1 := rfl
      have hroom' : ∀ j < calls (run ok (m.reads + 1) n) n,
          (turn w p ⟨i, hlt⟩ (some block) m).count (block + 1 + j) ≠ 255 := by
        intro j hj
        rw [turn_count_of_ne (by omega), Nat.add_assoc, Nat.add_comm 1]
        refine hroom (j + 1) ?_
        rw [run, if_pos hok]
        rw [calls] at hj ⊢
        split_ifs at hj ⊢ <;> omega
      obtain ⟨hout, hin⟩ := ih (block + 1) hlt (turn_none hlt hnone) hroom'
      rw [hreads] at hout hin
      rw [load_succ hlt hok, run, if_pos hok]
      refine ⟨fun h => hout ⟨by omega, by omega⟩, fun h => ?_⟩
      obtain ⟨m', hrun, hcalls, hloaded⟩ := hin (by omega)
      refine ⟨m', ?_, ?_, ?_⟩
      · rw [hrun, Nat.add_right_comm, Nat.add_assoc]
      · rw [hcalls, calls, calls]
        split_ifs <;> omega
      · have hturn : Loaded w p i block 1 m (turn w p ⟨i, hlt⟩ (some block) m) :=
          loaded_turn hi (.inr ⟨rfl, rfl⟩) hroom₀
        rw [Nat.add_comm]
        exact hturn.trans hloaded
    · have hok : ok m.reads = false := by simpa using hok
      have hzero : run ok m.reads (n + 1) = 0 := by
        rw [run, if_neg (by rw [hok]; exact Bool.false_ne_true)]
      rw [hzero] at hroom ⊢
      have hroom₀ : m.count block ≠ 255 := hroom 0 (by rw [calls]; split_ifs <;> omega)
      rw [load_fail hlt hok hroom₀]
      refine ⟨fun h => absurd h.1 (by omega), fun _ => ⟨_, rfl, ?_, ?_⟩⟩
      · rw [calls, if_pos (Nat.succ_pos n)]
        rfl
      · exact loaded_turn (i := ⟨i, hlt⟩) hi (.inl ⟨rfl, rfl⟩) hroom₀

theorem turn_holds {i : Fin 8} (h : (m.table p).map w i = none) (o : Option ℕ) (b : ℕ) :
    ((turn w p i o m).table p).holds b = (m.table p).holds b + if o = some b then 1 else 0 := by
  rw [turn_table, holds_update _ h]

/-- What the loop leaves alone, when it returns. -/
theorem load_ok {block' : ℕ} (h : m.load ok w p n i block = .ok (m', block')) (hi : i ≤ 8)
    (hnone : ∀ j : Fin 8, i ≤ j.val → (m.table p).map w j = none) :
    block' = block + run ok m.reads n ∧ m'.reads = m.reads + calls (run ok m.reads n) n ∧
      (∀ b, b < block ∨ block' ≤ b → m'.count b = m.count b) ∧
      (∀ b, (m.table p).holds b ≤ (m'.table p).holds b) ∧
      m'.table p = (m.table p).withMap ((m'.table p).map w) w := by
  induction n generalizing i block m with
  | zero =>
    cases h
    exact ⟨rfl, rfl, fun _ _ => rfl, fun _ => le_rfl, (withMap_map _ _).symm⟩
  | succ n ih =>
    have hlt := load_lt h hi
    have hi := hnone ⟨i, hlt⟩ le_rfl
    by_cases hok : ok m.reads = true
    · rw [load_succ hlt hok] at h
      obtain ⟨hblock, hreads, hcount, hholds, hslot⟩ := ih h hlt (turn_none hlt hnone)
      have hreads₁ : (turn w p ⟨i, hlt⟩ (some block) m).reads = m.reads + 1 := rfl
      rw [hreads₁] at hblock hreads
      rw [run, if_pos hok]
      refine ⟨by omega, ?_, fun b hb => ?_, fun b => ?_, ?_⟩
      · rw [hreads, calls, calls]
        split_ifs <;> omega
      · rw [hcount b (by omega), turn_count_of_ne (by omega)]
      · have := hholds b
        rw [turn_holds hi] at this
        omega
      · rw [hslot, turn_table, withMap_withMap, map_withMap]
    · have hok : ok m.reads = false := by simpa using hok
      have hroom : m.count block ≠ 255 := fun hfull => by
        rw [load_full hok hfull] at h
        cases h
      rw [load_fail hlt hok hroom] at h
      cases h
      rw [run, if_neg (by rw [hok]; exact Bool.false_ne_true), calls, if_pos (Nat.succ_pos n)]
      refine ⟨rfl, rfl, fun b _ => ?_, fun b => ?_, ?_⟩
      · simp only [turn]
        rw [if_neg (nomatch ·), UInt8.add_zero]
      · rw [turn_holds hi]
        exact Nat.le_add_right ..
      · rw [turn_map, turn_table]

/-- A buffer that the super block has, whose counter has run over. -/
def Over (p : Fin 8) (b : ℕ) (m : Machine) : Prop := m.count b = 0 ∧ 0 < (m.table p).holds b

/-- The loop asks for a buffer whose counter is at its greatest value. -/
theorem load_over {block' : ℕ} (h : m.load ok w p n i block = .ok (m', block')) (hi : i ≤ 8)
    (hnone : ∀ j : Fin 8, i ≤ j.val → (m.table p).map w j = none)
    (hfull : ∃ j < calls (run ok m.reads n) n, m.count (block + j) = 255) :
    ∃ b < block', Over p b m' := by
  induction n generalizing i block m with
  | zero =>
    obtain ⟨j, hj, -⟩ := hfull
    rw [calls] at hj
    split_ifs at hj <;> omega
  | succ n ih =>
    have hlt := load_lt h hi
    have hi := hnone ⟨i, hlt⟩ le_rfl
    obtain ⟨j, hj, hfull⟩ := hfull
    by_cases hok : ok m.reads = true
    · rw [load_succ hlt hok] at h
      rcases Nat.eq_zero_or_pos j with rfl | hpos
      · obtain ⟨hblock, -, hcount, hholds, -⟩ := load_ok h hlt (turn_none hlt hnone)
        refine ⟨block, by omega, ?_, ?_⟩
        · rw [hcount block (by omega)]
          rw [Nat.add_zero] at hfull
          simp only [turn, if_true]
          rw [hfull]
          rfl
        · have := hholds block
          rw [turn_holds hi, if_pos rfl] at this
          omega
      · refine ih h hlt (turn_none hlt hnone) ⟨j - 1, ?_, ?_⟩
        · rw [run, if_pos hok] at hj
          have hreads₁ : (turn w p ⟨i, hlt⟩ (some block) m).reads = m.reads + 1 := rfl
          rw [hreads₁]
          rw [calls] at hj ⊢
          split_ifs at hj ⊢ <;> omega
        · rw [turn_count_of_ne (by omega)]
          have hplace : block + 1 + (j - 1) = block + j := by omega
          rwa [hplace]
    · have hok : ok m.reads = false := by simpa using hok
      rw [run, if_neg (by rw [hok]; exact Bool.false_ne_true), calls,
        if_pos (Nat.succ_pos n)] at hj
      obtain rfl : j = 0 := by omega
      rw [Nat.add_zero] at hfull
      rw [load_full hok hfull] at h
      cases h

theorem toNat_sub_one {x : UInt8} (h : x ≠ 0) : (x - 1).toNat = x.toNat - 1 :=
  UInt8.toNat_sub_of_le _ _ (by
    have hne : x.toNat ≠ 0 := fun heq => h (UInt8.toNat_inj.mp heq)
    exact UInt8.le_iff_toNat_le.mpr (Nat.one_le_iff_ne_zero.mpr hne))

/-- A loop that releases buffers. -/
theorem brelse_foldlM (f : Fin 8 → Option ℕ) (l : List (Fin 8))
    (h : ∀ b, (l.map fun i => if f i = some b then 1 else 0).sum ≤ (m.count b).toNat) :
    ∃ m', l.foldlM (fun m i => m.brelse (f i)) m = .ok m' ∧ m'.table = m.table ∧ ∀ b,
      (m'.count b).toNat + (l.map fun i => if f i = some b then 1 else 0).sum =
        (m.count b).toNat := by
  induction l generalizing m with
  | nil => exact ⟨m, rfl, rfl, fun _ => rfl⟩
  | cons i l ih =>
    simp only [List.map_cons, List.sum_cons] at h ⊢
    rw [List.foldlM_cons]
    cases hi : f i with
    | none =>
      obtain ⟨m', hrun, htable, hcount⟩ := ih fun b => (Nat.le_add_left _ _).trans (h b)
      refine ⟨m', hrun, htable, fun b => ?_⟩
      rw [if_neg (nomatch ·), Nat.zero_add]
      exact hcount b
    | some c =>
      have hc := h c
      rw [hi, if_pos rfl] at hc
      have hne : m.count c ≠ 0 := fun h0 => by
        have hzero : (m.count c).toNat = 0 := by rw [h0]; rfl
        omega
      rw [brelse_some hne]
      have hdown := toNat_sub_one hne
      obtain ⟨m', hrun, htable, hcount⟩ :=
        ih (m := { m with count := Function.update m.count c (m.count c - 1) }) fun b => by
          have hb := h b
          rw [hi] at hb
          dsimp only
          rw [Function.update_apply]
          split_ifs with hbc
          · subst hbc
            omega
          · rw [if_neg fun hcb => hbc (Option.some.inj hcb).symm] at hb
            omega
      refine ⟨m', hrun, htable, fun b => ?_⟩
      have hb := hcount b
      dsimp only at hb
      rw [Function.update_apply] at hb
      split_ifs at hb with hbc
      · subst hbc
        rw [if_pos rfl]
        omega
      · rw [if_neg fun hcb => hbc (Option.some.inj hcb).symm]
        omega

theorem brelseAll_spec (f : Fin 8 → Option ℕ) (h : ∀ b, pointers f b ≤ (m.count b).toNat) :
    ∃ m', m.brelseAll f = .ok m' ∧ m'.table = m.table ∧
      ∀ b, (m'.count b).toNat + pointers f b = (m.count b).toNat := by
  simp only [pointers, Fin.sum_univ_def] at h ⊢
  exact brelse_foldlM f _ h

/-- A loop that releases a buffer that nobody has does not return. -/
theorem brelse_over (f : Fin 8 → Option ℕ) (l : List (Fin 8)) (h : m.count b = 0)
    (hmem : ∃ i ∈ l, f i = some b) : ∃ e, l.foldlM (fun m i => m.brelse (f i)) m = .error e := by
  induction l generalizing m with
  | nil =>
    obtain ⟨i, hi, -⟩ := hmem
    cases hi
  | cons i l ih =>
    rw [List.foldlM_cons]
    obtain ⟨j, hj, hjb⟩ := hmem
    rcases eq_or_ne (f i) (some b) with hi | hi
    · exact ⟨_, by rw [hi, Machine.brelse, if_pos h]; rfl⟩
    have hrest : ∃ j ∈ l, f j = some b := by
      rcases List.mem_cons.mp hj with rfl | hj
      · exact absurd hjb hi
      · exact ⟨j, hj, hjb⟩
    cases hc : f i with
    | none => exact ih h hrest
    | some c =>
      by_cases hzero : m.count c = 0
      · exact ⟨_, by rw [Machine.brelse, if_pos hzero]; rfl⟩
      · rw [brelse_some hzero]
        have hbc : b ≠ c := by
          rintro rfl
          exact hi hc
        refine ih (m := { m with count := Function.update m.count c (m.count c - 1) }) ?_ hrest
        exact (Function.update_of_ne hbc ..).trans h

theorem brelse_kept (f : Fin 8 → Option ℕ) (l : List (Fin 8))
    (h : l.foldlM (fun m i => m.brelse (f i)) m = .ok m') (hne : ∀ i, f i ≠ some b) :
    m'.count b = m.count b ∧ m'.table = m.table := by
  induction l generalizing m with
  | nil =>
    cases h
    exact ⟨rfl, rfl⟩
  | cons i l ih =>
    rw [List.foldlM_cons] at h
    cases hc : f i with
    | none =>
      rw [hc] at h
      exact ih h
    | some c =>
      rw [hc] at h
      by_cases hzero : m.count c = 0
      · rw [Machine.brelse, if_pos hzero] at h
        cases h
      · rw [brelse_some hzero] at h
        obtain ⟨hcount, htable⟩ := ih h
        have hbc : b ≠ c := by
          rintro rfl
          exact hne i hc
        exact ⟨hcount.trans (Function.update_of_ne hbc ..), htable⟩

/-! ### `do_mount` -/

variable {content : Super} {dev : UInt16}

/-- The state after the test of `s_magic`, with a given super block in the slot. -/
def readSuper (m : Machine) (p : Fin 8) (q : Super) : Machine :=
  { m with reads := m.reads + 1, table := Function.update m.table p q }

section Found

variable (hp : ((List.finRange 8).find? fun p => (m.table p).dev = 0) = some p)

include hp

theorem doMount_unreadable (content : Super) (dev : UInt16) (hok : ok m.reads = false)
    (hroom : m.count 1 ≠ 255) :
    m.doMount ok content dev = .ok (readSuper m p { m.table p with dev := 0xffff }, none) := by
  rw [Machine.doMount, hp]
  dsimp only
  have hok' : ¬ok (m.setSuper p { m.table p with dev := 0xffff }).reads = true := by
    rw [Machine.setSuper, hok]
    exact Bool.false_ne_true
  have hrel (q : Super) : ((m.setSuper p q).getblk 1).brelse (some 1) =
      .ok { m.setSuper p q with reads := m.reads + 1 } := brelse_getblk hroom
  rw [Machine.bread, if_neg hok', hrel]
  rfl

/-- Block 1 has been read and released. -/
theorem doMount_readable (content : Super) (dev : UInt16) (hok : ok m.reads = true)
    (hroom : m.count 1 ≠ 255) :
    m.doMount ok content dev =
      if content.magic ≠ SUPER_MAGIC then .ok (readSuper m p { content with dev := 0 }, none)
      else
        ((readSuper m p { content with imap := fun _ => none, zmap := fun _ => none }).load ok
          .inodes
            p content.imapBlocks.toNat 0 2).bind fun (m, block) =>
          (m.load ok .zones p content.zmapBlocks.toNat 0 block).bind fun (m, block) =>
            m.settle dev p block := by
  have hread (q : Super) : (m.setSuper p q).bread ok 1 =
      .ok ((m.setSuper p q).getblk 1, some 1) := if_pos hok
  have hrel (q : Super) : ((m.setSuper p q).getblk 1).brelse (some 1) =
      .ok { m.setSuper p q with reads := m.reads + 1 } := brelse_getblk hroom
  have hset (q q' : Super) : ((m.setSuper p q).getblk 1).setSuper p q' =
      (m.setSuper p q').getblk 1 := by
    rw [Machine.setSuper, Machine.getblk, Machine.setSuper, Machine.setSuper, Machine.getblk]
    simp only [Function.update_idem]
  rw [Machine.doMount, hp]
  dsimp only
  rw [hread]
  simp only [Except.bind]
  rw [hset, hrel]
  simp only [Machine.setSuper, Function.update_idem, Function.update_self]
  rfl

/-- The counter of the buffer of block 1 runs over. -/
theorem doMount_over (content : Super) (dev : UInt16) (hfull : m.count 1 = 255) :
    m.doMount ok content dev = .error .freeingFreeBuffer := by
  have hrel (q q' : Super) : (((m.setSuper p q).getblk 1).setSuper p q').brelse (some 1) =
      .error .freeingFreeBuffer := by
    refine if_pos ?_
    change Function.update m.count 1 (m.count 1 + 1) 1 = 0
    rw [Function.update_self, hfull]
    rfl
  rw [Machine.doMount, hp]
  dsimp only
  by_cases hok : ok m.reads = true
  · have hread (q : Super) : (m.setSuper p q).bread ok 1 =
        .ok ((m.setSuper p q).getblk 1, some 1) := if_pos hok
    rw [hread]
    simp only [Except.bind]
    rw [hrel]
  · have hread (q : Super) : (m.setSuper p q).bread ok 1 = .error .freeingFreeBuffer := by
      have hfail : ¬ok (m.setSuper p q).reads = true := hok
      have hrel : ((m.setSuper p q).getblk 1).brelse (some 1) = .error .freeingFreeBuffer :=
        brelse_getblk_full hfull
      rw [Machine.bread, if_neg hfail, hrel]
      rfl
    rw [hread]
    rfl

/-- The slot that `do_mount` takes. -/
theorem free_of_find : (m.table p).dev = 0 := by
  simpa using List.find?_some hp

end Found

theorem doMount_full (hp : ((List.finRange 8).find? fun p => (m.table p).dev = 0) = none) :
    m.doMount ok content dev = .error .outOfBounds := by
  rw [Machine.doMount, hp]

theorem view_of_free (h : q.dev = 0) : q.view = none := if_pos h

/-- A super block without pointers. -/
theorem holds_empty (h : q.imap = fun _ => none) (h' : q.zmap = fun _ => none) (b : ℕ) :
    q.holds b = 0 := by
  have hzero : pointers (fun _ => none) b = 0 := Finset.sum_eq_zero fun _ _ => if_neg (nomatch ·)
  rw [Super.holds, h, h', hzero]

/-- What both loops do together. -/
structure Filled (p : Fin 8) (k k' : ℕ) (content : Super) (m m' : Machine) : Prop where
  others : ∀ j, j ≠ p → m'.table j = m.table j
  imapBlocks : (m'.table p).imapBlocks = content.imapBlocks
  zmapBlocks : (m'.table p).zmapBlocks = content.zmapBlocks
  imap : ∀ i : Fin 8, i.val < k → (m'.table p).imap i = some (2 + i.val)
  zmap : ∀ i : Fin 8, i.val < k' → (m'.table p).zmap i = some (2 + k + i.val)
  imap_rest : ∀ i : Fin 8, k ≤ i.val → (m'.table p).imap i = none
  zmap_rest : ∀ i : Fin 8, k' ≤ i.val → (m'.table p).zmap i = none
  count : ∀ b, (m'.count b).toNat = (m.count b).toNat + (m'.table p).holds b

/-- Both loops, from a super block without pointers on. -/
theorem loads_spec {α : Type} (ok : ℕ → Bool) (content : Super) (f : Machine × ℕ → Except Fault α)
    {n n' k k' : ℕ}
    (himap : (m.table p).imap = fun _ => none) (hzmap : (m.table p).zmap = fun _ => none)
    (hn : (m.table p).imapBlocks = content.imapBlocks)
    (hn' : (m.table p).zmapBlocks = content.zmapBlocks) (hk : k = run ok m.reads n)
    (hk' : k' = run ok (m.reads + calls k n) n')
    (hroom : ∀ j < calls k n, m.count (2 + j) ≠ 255)
    (hroom' : ∀ j < calls k' n', m.count (2 + k + j) ≠ 255) :
    (¬((n ≤ 8 ∨ k < 8) ∧ (n' ≤ 8 ∨ k' < 8)) →
        ∃ e, ((m.load ok .inodes p n 0 2).bind fun (m, block) =>
          (m.load ok .zones p n' 0 block).bind f) = .error e) ∧
      ((n ≤ 8 ∨ k < 8) ∧ (n' ≤ 8 ∨ k' < 8) → ∃ m',
        ((m.load ok .inodes p n 0 2).bind fun (m, block) =>
          (m.load ok .zones p n' 0 block).bind f) = f (m', 2 + k + k') ∧
          Filled p k k' content m m') := by
  obtain ⟨hout, hin⟩ := load_spec (m := m) (p := p) (w := .inodes) ok n 2
    (Nat.zero_le 8) (fun j _ => congrFun himap j) (by rwa [← hk])
  rw [← hk] at hout hin
  by_cases hfits : n ≤ 8 ∨ k < 8
  · obtain ⟨m₁, hrun₁, hcalls, h₁⟩ := hin (by omega)
    have hzmap₁ : (m₁.table p).zmap = fun _ => none := by
      rw [h₁.slot]
      exact hzmap
    have hreads : run ok m₁.reads n' = k' := by rw [hcalls, hk']
    have hcount₁ := (load_ok hrun₁ (Nat.zero_le 8) fun j _ => congrFun himap j).2.2.1
    obtain ⟨hout', hin'⟩ := load_spec (m := m₁) (p := p) (w := .zones) ok n'
      (2 + k) (Nat.zero_le 8) (fun j _ => congrFun hzmap₁ j) (by
        rw [hreads]
        intro j hj
        rw [hcount₁ _ (.inr (Nat.le_add_right ..))]
        exact hroom' j hj)
    rw [hreads] at hout' hin'
    rw [hrun₁]
    simp only [Except.bind]
    refine ⟨fun hnot => ?_, fun ⟨_, hfits'⟩ => ?_⟩
    · have hover : ¬(n' ≤ 8 ∨ k' < 8) := fun hfits' => hnot ⟨hfits, hfits'⟩
      obtain ⟨e, he⟩ := hout' (by omega)
      exact ⟨e, by rw [he]⟩
    · obtain ⟨m₂, hrun₂, -, h₂⟩ := hin' (by omega)
      refine ⟨m₂, by rw [hrun₂], ?_⟩
      have himap₂ : (m₂.table p).imap = (m₁.table p).imap := by
        rw [h₂.slot]
        rfl
      refine ⟨fun j hj => (h₂.others j hj).trans (h₁.others j hj), ?_, ?_, fun i hi => ?_,
        fun i hi => ?_, fun i hi => ?_, fun i hi => ?_, fun b => ?_⟩
      · rw [h₂.slot, h₁.slot, ← hn]
        rfl
      · rw [h₂.slot, h₁.slot, ← hn']
        rfl
      · rw [himap₂]
        exact h₁.loaded i (Nat.zero_le _) (by omega)
      · exact h₂.loaded i (Nat.zero_le _) (by omega)
      · rw [himap₂]
        exact h₁.rest i (by omega) (congrFun himap i)
      · exact h₂.rest i (by omega) (congrFun hzmap₁ i)
      · have := h₁.count b
        have := h₂.count b
        have := holds_empty himap hzmap b
        omega
  · refine ⟨fun _ => ?_, fun h => absurd h.1 hfits⟩
    obtain ⟨e, he⟩ := hout (by omega)
    exact ⟨e, by rw [he]; rfl⟩

/-- Both loops return, but one has asked for a buffer whose counter is at its greatest value. -/
theorem loads_over {m₁ m₂ : Machine} {n n' block block' : ℕ}
    (himap : (m.table p).imap = fun _ => none) (hzmap : (m.table p).zmap = fun _ => none)
    (hrun₁ : m.load ok .inodes p n 0 2 = .ok (m₁, block))
    (hrun₂ : m₁.load ok .zones p n' 0 block = .ok (m₂, block'))
    (hk : k = run ok m.reads n)
    (hfull : (∃ j < calls k n, m.count (2 + j) = 255) ∨
      ∃ j < calls (run ok (m.reads + calls k n) n') n', m.count (2 + k + j) = 255) :
    ∃ b, Over p b m₂ := by
  have hnone : ∀ j : Fin 8, 0 ≤ j.val → (m.table p).map .inodes j = none := fun j _ =>
    congrFun himap j
  obtain ⟨hblock, hreads, hcount, -, hslot⟩ := load_ok hrun₁ (Nat.zero_le 8) hnone
  have hnone₁ : ∀ j : Fin 8, 0 ≤ j.val → (m₁.table p).map .zones j = none := by
    intro j _
    rw [hslot]
    exact congrFun hzmap j
  obtain ⟨-, -, hcount₂, hholds₂, -⟩ := load_ok hrun₂ (Nat.zero_le 8) hnone₁
  rw [← hk] at hblock hreads
  rcases hfull with hfull | ⟨j, hj, hfull⟩
  · obtain ⟨b, hb, hzero, hpos⟩ := load_over hrun₁ (Nat.zero_le 8) hnone (by rwa [← hk])
    exact ⟨b, (hcount₂ b (.inl hb)).trans hzero, hpos.trans_le (hholds₂ b)⟩
  · obtain ⟨b, -, hover⟩ := load_over hrun₂ (Nat.zero_le 8) hnone₁ (by
      rw [hreads]
      refine ⟨j, hj, ?_⟩
      rw [hcount _ (.inr (Nat.le_add_right ..)), hblock, hfull])
    exact ⟨b, hover⟩

/-- The loops have not loaded all blocks: they are released. -/
theorem settle_release (dev : UInt16) {block : ℕ}
    (hblock : block ≠ 2 + (m.table p).imapBlocks.toNat + (m.table p).zmapBlocks.toNat)
    (hcount : ∀ b, (m.table p).holds b ≤ (m.count b).toNat) :
    ∃ m', m.settle dev p block = .ok (m', none) ∧ (∀ j, j ≠ p → m'.table j = m.table j) ∧
      (m'.table p).dev = 0 ∧
      ∀ b, (m'.count b).toNat + (m.table p).holds b = (m.count b).toNat := by
  obtain ⟨m₁, hrun₁, htable₁, hcount₁⟩ := brelseAll_spec (m := m) (m.table p).imap fun b =>
    (Nat.le_add_right _ _).trans (hcount b)
  obtain ⟨m₂, hrun₂, htable₂, hcount₂⟩ := brelseAll_spec (m := m₁) (m.table p).zmap fun b => by
    have := hcount b
    have := hcount₁ b
    rw [Super.holds] at *
    omega
  have hslot : (m₂.setSuper p { m₂.table p with dev := 0 }).table p =
      { m₂.table p with dev := 0 } := Function.update_self ..
  refine ⟨m₂.setSuper p { m₂.table p with dev := 0 }, ?_, fun j hj => ?_, ?_, fun b => ?_⟩
  · rw [Machine.settle]
    dsimp only
    rw [if_pos hblock, hrun₁]
    simp only [Except.bind]
    rw [hrun₂]
  · rw [← htable₁, ← htable₂]
    exact Function.update_of_ne hj ..
  · rw [hslot]
  · have h₁ := hcount₁ b
    have h₂ := hcount₂ b
    rw [Super.holds, ← h₁, ← h₂, Nat.add_left_comm, Nat.add_comm]
    rfl

theorem pointers_eq_zero {f : Fin 8 → Option ℕ} (h : ∀ i, f i ≠ some b) : pointers f b = 0 :=
  Finset.sum_eq_zero fun i _ => if_neg (h i)

/-- The buffers cannot be released when a counter has run over. -/
theorem settle_over {r : Option (Fin 8)} (h : Over p b m)
    (hrun : m.settle dev p block = .ok (m', r)) :
    r = some p ∧ m'.count b = 0 ∧ 0 < (m'.table p).holds b := by
  obtain ⟨hzero, hpos⟩ := h
  rw [Machine.settle] at hrun
  dsimp only at hrun
  split_ifs at hrun with hblock
  · by_cases himap : ∃ i ∈ List.finRange 8, (m.table p).imap i = some b
    · obtain ⟨e, he⟩ := brelse_over _ _ hzero himap
      rw [Machine.brelseAll, he] at hrun
      cases hrun
    have himap : ∀ i, (m.table p).imap i ≠ some b := fun i hi =>
      himap ⟨i, List.mem_finRange i, hi⟩
    have hzmap : ∃ i ∈ List.finRange 8, (m.table p).zmap i = some b := by
      by_contra hno
      rw [Super.holds, pointers_eq_zero himap, pointers_eq_zero fun i hi =>
        hno ⟨i, List.mem_finRange i, hi⟩] at hpos
      exact Nat.lt_irrefl 0 hpos
    cases hrun₁ : m.brelseAll (m.table p).imap with
    | error e =>
      rw [hrun₁] at hrun
      cases hrun
    | ok m₁ =>
      obtain ⟨e, he⟩ := brelse_over _ _ ((brelse_kept _ _ hrun₁ himap).1.trans hzero) hzmap
      rw [hrun₁] at hrun
      simp only [Except.bind] at hrun
      rw [Machine.brelseAll, he] at hrun
      cases hrun
  · cases himap : (m.table p).imap 0 with
    | none =>
      rw [himap] at hrun
      cases hrun
    | some c =>
      cases hzmap : (m.table p).zmap 0 with
      | none =>
        rw [himap, hzmap] at hrun
        cases hrun
      | some c' =>
        rw [himap, hzmap] at hrun
        obtain ⟨rfl, rfl⟩ := Prod.mk.inj (Except.ok.inj hrun)
        refine ⟨rfl, hzero, ?_⟩
        have hslot (m : Machine) (q : Super) : (m.setSuper p q).table p = q :=
          Function.update_self ..
        rw [hslot]
        exact hpos

theorem setFirst_some (m : Machine) (b : ℕ) :
    ∃ data, m.setFirst (some b) = .ok { m with data := data } :=
  ⟨_, rfl⟩

/-- All blocks have been loaded, and the first bits are set. -/
theorem settle_mounted (dev : UInt16) {block b b' : ℕ}
    (hblock : block = 2 + (m.table p).imapBlocks.toNat + (m.table p).zmapBlocks.toNat)
    (himap : (m.table p).imap 0 = some b) (hzmap : (m.table p).zmap 0 = some b') :
    ∃ m', m.settle dev p block = .ok (m', some p) ∧ m'.count = m.count ∧
      m'.table = Function.update m.table p { m.table p with
        dev := dev, isup := none, imount := none, time := 0, rdOnly := false, dirt := false } := by
  obtain ⟨data, hset⟩ := setFirst_some m b
  obtain ⟨data', hset'⟩ := setFirst_some { m with data := data } b'
  refine ⟨Machine.setSuper { m with data := data' } p { m.table p with
    dev := dev, isup := none, imount := none, time := 0, rdOnly := false, dirt := false },
    ?_, rfl, rfl⟩
  rw [Machine.settle]
  dsimp only
  rw [if_neg (not_not_intro hblock), himap, hzmap, hset]
  simp only [Except.bind]
  rw [hset']

/-- A bitmap without blocks: its first pointer is `NULL`. -/
theorem settle_nullPointer {block : ℕ}
    (hblock : block = 2 + (m.table p).imapBlocks.toNat + (m.table p).zmapBlocks.toNat)
    (hnone : (m.table p).imap 0 = none ∨ (m.table p).zmap 0 = none) :
    m.settle dev p block = .error .nullPointer := by
  rw [Machine.settle]
  dsimp only
  rw [if_neg (not_not_intro hblock)]
  rcases hnone with h | h
  · rw [h]
    rfl
  · rw [h]
    cases (m.table p).imap 0 <;> rfl

theorem not_allOrNothing {e : Fault} (h : m.doMount ok content dev = .error e) :
    ¬AllOrNothing ok content dev m := by
  rintro ⟨m', r, hrun, -⟩
  rw [h] at hrun
  cases hrun

/-- The slot is not freed when block 1 cannot be read. -/
theorem not_allOrNothing_unreadable
    (hp : ((List.finRange 8).find? fun p => (m.table p).dev = 0) = some p)
    (hok : ok m.reads = false) : ¬AllOrNothing ok content dev m := by
  by_cases hfull : m.count 1 = 255
  · exact not_allOrNothing (doMount_over hp content dev hfull)
  have hrun := doMount_unreadable hp content dev hok hfull
  rintro ⟨m', r, hrun', hafter⟩
  obtain ⟨rfl, rfl⟩ := Prod.mk.inj (Except.ok.inj (hrun.symm.trans hrun'))
  have hview := hafter.1 p
  rw [view_of_free (free_of_find hp)] at hview
  simp [readSuper, Super.view] at hview

/-- The function returns `NULL`, after it has freed the slot. -/
theorem allOrNothing_none (hfree : (m.table p).dev = 0)
    (hrun : m.doMount ok content dev = .ok (m', none))
    (hothers : ∀ j, j ≠ p → m'.table j = m.table j)
    (hdev : (m'.table p).dev = 0) (hcount : m'.count = m.count) :
    AllOrNothing ok content dev m := by
  refine ⟨m', none, hrun, fun j => ?_, hcount⟩
  rcases eq_or_ne j p with rfl | hj
  · rw [view_of_free hdev, view_of_free hfree]
  · rw [hothers j hj]

/-- The end of the function, when both loops have stayed inside the arrays. -/
theorem allOrNothing_settle {m₀ m₂ : Machine} {k k' : ℕ} (hfree : (m.table p).dev = 0)
    (hothers : ∀ j, j ≠ p → m₀.table j = m.table j) (hcount : m₀.count = m.count)
    (hfilled : Filled p k k' content m₀ m₂)
    (hk : k ≤ content.imapBlocks.toNat) (hk' : k' ≤ content.zmapBlocks.toNat)
    (hfits : (content.imapBlocks.toNat ≤ 8 ∨ k < 8) ∧ (content.zmapBlocks.toNat ≤ 8 ∨ k' < 8))
    (hrun : m.doMount ok content dev = m₂.settle dev p (2 + k + k')) :
    AllOrNothing ok content dev m ↔ (k = content.imapBlocks.toNat → k' = content.zmapBlocks.toNat →
      content.imapBlocks.toNat ≠ 0 ∧ content.zmapBlocks.toNat ≠ 0) := by
  have hothers₂ : ∀ j, j ≠ p → m₂.table j = m.table j := fun j hj =>
    (hfilled.others j hj).trans (hothers j hj)
  have hcount₂ : ∀ b, (m₂.count b).toNat = (m.count b).toNat + (m₂.table p).holds b := fun b => by
    rw [hfilled.count b, hcount]
  by_cases hall : k = content.imapBlocks.toNat ∧ k' = content.zmapBlocks.toNat
  · obtain ⟨hkn, hkn'⟩ := hall
    have hblock : 2 + k + k' = 2 + (m₂.table p).imapBlocks.toNat +
        (m₂.table p).zmapBlocks.toNat := by
      rw [hfilled.imapBlocks, hfilled.zmapBlocks, hkn, hkn']
    by_cases hempty : k = 0 ∨ k' = 0
    · have hnone : (m₂.table p).imap 0 = none ∨ (m₂.table p).zmap 0 = none :=
        hempty.imp (fun h => hfilled.imap_rest 0 (by omega)) fun h => hfilled.zmap_rest 0 (by omega)
      rw [settle_nullPointer hblock hnone] at hrun
      refine iff_of_false (not_allOrNothing hrun) fun h => ?_
      have := h hkn hkn'
      omega
    · refine iff_of_true ?_ fun _ _ => by omega
      obtain ⟨m', hsettle, hcount', htable⟩ := settle_mounted dev hblock
        (hfilled.imap 0 (by rw [Fin.val_zero]; omega))
          (hfilled.zmap 0 (by rw [Fin.val_zero]; omega))
      have hslot := (congrFun htable p).trans (Function.update_self ..)
      refine ⟨m', some p, hrun.trans hsettle, ?_, hfree, fun j hj => ?_, fun b => ?_⟩
      · rw [hslot]
        refine ⟨rfl, ?_, ?_, fun i hi => ?_, fun i hi => ?_⟩
        · rw [hfilled.imapBlocks]
          omega
        · rw [hfilled.zmapBlocks]
          omega
        · refine hfilled.imap i ?_
          rw [hkn, ← hfilled.imapBlocks]
          exact hi
        · rw [hfilled.imapBlocks, ← hkn]
          refine hfilled.zmap i ?_
          rw [hkn', ← hfilled.zmapBlocks]
          exact hi
      · rw [htable, Function.update_of_ne hj, hothers₂ j hj]
      · rw [hslot, hcount', hcount₂ b]
        rfl
  · refine iff_of_true ?_ fun h h' => absurd ⟨h, h'⟩ hall
    have hblock : 2 + k + k' ≠ 2 + (m₂.table p).imapBlocks.toNat +
        (m₂.table p).zmapBlocks.toNat := by
      rw [hfilled.imapBlocks, hfilled.zmapBlocks]
      omega
    obtain ⟨m', hsettle, hothers', hdev, hcount'⟩ := settle_release dev hblock fun b => by
      rw [hcount₂ b]
      exact Nat.le_add_left ..
    refine allOrNothing_none hfree (hrun.trans hsettle)
      (fun j hj => (hothers' j hj).trans (hothers₂ j hj)) hdev
      (funext fun b => UInt8.toNat_inj.mp ?_)
    have := hcount' b
    have := hcount₂ b
    omega

/-- The end of the function, when a counter has run over. -/
theorem not_allOrNothing_over {m₂ : Machine} (h : Over p b m₂)
    (hrun : m.doMount ok content dev = m₂.settle dev p block) : ¬AllOrNothing ok content dev m := by
  rintro ⟨m', r, hrun', hafter⟩
  obtain ⟨rfl, hzero, hpos⟩ := settle_over h (hrun.symm.trans hrun')
  have hcount := hafter.2.2.2 b
  rw [hzero] at hcount
  change 0 = _ at hcount
  omega

/-- When `do_mount` is all or nothing. -/
theorem allOrNothing_iff (ok : ℕ → Bool) (content : Super) (dev : UInt16) (m : Machine) :
    AllOrNothing ok content dev m ↔ Mountable ok content m := by
  cases hp : (List.finRange 8).find? fun p => (m.table p).dev = 0 with
  | none =>
    refine iff_of_false (not_allOrNothing (doMount_full hp)) fun ⟨⟨p, hfree⟩, _⟩ => ?_
    exact absurd hfree (by simpa using List.find?_eq_none.mp hp p (List.mem_finRange p))
  | some p =>
    have hfree := free_of_find hp
    by_cases hfull₁ : m.count 1 = 255
    · exact iff_of_false (not_allOrNothing (doMount_over hp content dev hfull₁)) fun h =>
        h.2.2.1 hfull₁
    by_cases hok : ok m.reads = true
    · have hrun := doMount_readable hp content dev hok hfull₁
      have hothers (q : Super) : ∀ j, j ≠ p → (readSuper m p q).table j = m.table j := fun j hj =>
        Function.update_of_ne hj ..
      have hslot (q : Super) : (readSuper m p q).table p = q := Function.update_self ..
      by_cases hmagic : content.magic = SUPER_MAGIC
      · rw [if_neg (not_not_intro hmagic)] at hrun
        set m₀ := readSuper m p { content with imap := fun _ => none, zmap := fun _ => none } with
          hm₀
        have hslot₀ := hslot { content with imap := fun _ => none, zmap := fun _ => none }
        rw [← hm₀] at hslot₀
        have hreads : m₀.reads = m.reads + 1 := rfl
        have hiff : Mountable ok content m ↔ _ := and_iff_right ⟨p, hfree⟩
        rw [hiff, and_iff_right hok, and_iff_right hfull₁, imp_iff_right hmagic]
        have himap₀ : (m₀.table p).imap = fun _ => none := by rw [hslot₀]
        have hzmap₀ : (m₀.table p).zmap = fun _ => none := by rw [hslot₀]
        set k := run ok (m.reads + 1) content.imapBlocks.toNat with hk
        set k' := run ok (m.reads + 1 + calls k content.imapBlocks.toNat) content.zmapBlocks.toNat
          with hk'
        by_cases hroom : (∀ j < calls k content.imapBlocks.toNat, m.count (2 + j) ≠ 255) ∧
            ∀ j < calls k' content.zmapBlocks.toNat, m.count (2 + k + j) ≠ 255
        · obtain ⟨hout, hin⟩ := loads_spec (m := m₀) (p := p) (n := content.imapBlocks.toNat) ok
            content (fun x => x.1.settle dev p x.2) himap₀ hzmap₀ (by rw [hslot₀]) (by rw [hslot₀])
            hk hk' hroom.1 hroom.2
          by_cases hfits : (content.imapBlocks.toNat ≤ 8 ∨ k < 8) ∧
              (content.zmapBlocks.toNat ≤ 8 ∨ k' < 8)
          · obtain ⟨m₂, hloads, hfilled⟩ := hin hfits
            rw [and_iff_right hfits.1, and_iff_right hfits.2, and_iff_left hroom]
            exact allOrNothing_settle hfree (hothers _) rfl hfilled (run_le ..) (run_le ..) hfits
              (hrun.trans hloads)
          · obtain ⟨e, he⟩ := hout hfits
            refine iff_of_false (not_allOrNothing (hrun.trans he)) fun h => ?_
            exact hfits ⟨h.1, h.2.1⟩
        · refine iff_of_false ?_ fun h => hroom h.2.2.2
          have hfull : (∃ j < calls k content.imapBlocks.toNat, m₀.count (2 + j) = 255) ∨
              ∃ j < calls k' content.zmapBlocks.toNat, m₀.count (2 + k + j) = 255 := by
            by_contra hno
            push Not at hno
            exact hroom hno
          cases hrun₁ : m₀.load ok .inodes p content.imapBlocks.toNat 0 2 with
          | error e =>
            rw [hrun₁] at hrun
            exact not_allOrNothing hrun
          | ok x =>
            obtain ⟨m₁, block⟩ := x
            rw [hrun₁] at hrun
            simp only [Except.bind] at hrun
            cases hrun₂ : m₁.load ok .zones p content.zmapBlocks.toNat 0 block with
            | error e =>
              rw [hrun₂] at hrun
              exact not_allOrNothing hrun
            | ok y =>
              obtain ⟨m₂, block'⟩ := y
              rw [hrun₂] at hrun
              obtain ⟨b, hover⟩ := loads_over himap₀ hzmap₀ hrun₁ hrun₂ hk hfull
              exact not_allOrNothing_over hover hrun
      · rw [if_pos hmagic] at hrun
        refine iff_of_true ?_ ⟨⟨p, hfree⟩, hok, hfull₁, fun h => absurd h hmagic⟩
        exact allOrNothing_none hfree hrun (hothers _) (by rw [hslot]) rfl
    · have hok : ok m.reads = false := by simpa using hok
      refine iff_of_false (not_allOrNothing_unreadable hp hok) fun h => ?_
      exact Bool.false_ne_true (hok.symm.trans h.2.1)

/-- A table of eight free slots, and a device of which no block can be read. -/
def unreadable : Machine where
  table _ := ⟨0, 0, 0, 0, 0, 0, 0, 0, fun _ => none, fun _ => none, 0, none, none, 0, false, false⟩
  count _ := 0
  data _ _ := 0
  reads := 0

/-- Slot 0 stays in use for ever when block 1 cannot be read. -/
theorem not_allOrNothing_bread :
    ¬AllOrNothing (fun _ => false) (unreadable.table 0) 0x306 unreadable :=
  not_allOrNothing_unreadable (p := 0) rfl rfl

end Linux001.Fs.Mount
