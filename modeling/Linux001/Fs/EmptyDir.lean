import Linux001.Fs.Blocks

/-!
# The search for entries of a directory that is removed

The model of `empty_dir` of `fs/namei.c`, with `bmap` of `fs/inode.c`, on a device some of whose
blocks cannot be read. The directory may be any image: its size, its zones and its blocks are
arbitrary. The buffers are seen through their counters, by block; a counter is a byte, and nothing
keeps it from running over.

The function keeps the buffer of the first block when the entries `.` or `..` are not right, and it
releases a buffer twice when it goes on after a block that is not mapped.

## Main definitions

* `Image`, `emptyDir`: a directory on its device, and the function.
* `Exact`: the result is right, and every buffer has been released.

## Main results

* `exact_iff`: the directories for which the function is exact.
-/

namespace Linux001.Fs.EmptyDir

/-- The fields `i_num`, `i_size` and `i_zone` of a directory, and its device: the contents of the
blocks, and which of them can be read. -/
structure Image where
  num : UInt16
  size : UInt32
  zone : Fin 9 → UInt16
  data : ℕ → Block
  readable : ℕ → Bool

/-- What keeps `empty_dir` from returning. -/
inductive Fault
  | panic (msg : String)

/-- `b_count` of the buffers, an `unsigned char`. -/
abbrev Counts := ℕ → UInt8

/-- `b_count++`. -/
def raise (c : Counts) (b : ℕ) : Counts := Function.update c b (c b + 1)

/-- `brelse(bh)`. -/
def brelse (c : Counts) (b : ℕ) : Except Fault Counts :=
  if c b = 0 then .error (.panic "Trying to free free buffer")
  else .ok (Function.update c b (c b - 1))

namespace Image

variable (d : Image)

/-- `i_size / sizeof (struct dir_entry)`. -/
def len : ℕ := d.size.toNat / 16

/-- `bread(dev, b)`: whether the block can be read, and if not, its buffer has been released. -/
def bread (b : ℕ) (c : Counts) : Except Fault (Bool × Counts) :=
  if d.readable b then .ok (true, raise c b) else (brelse (raise c b) b).map fun c => (false, c)

/-- An entry of a table of zone numbers, as `_bmap` looks it up: 0 if there is no table, or if its
block cannot be read. -/
def table (z i : ℕ) (c : Counts) : Except Fault (ℕ × Counts) :=
  if z = 0 then .ok (0, c)
  else do
    let (found, c) ← d.bread z c
    if found then (brelse c z).map fun c => (word (d.data z) i, c) else .ok (0, c)

/-- `bmap(inode, block)`. -/
def bmap (block : ℕ) (c : Counts) : Except Fault (ℕ × Counts) :=
  if 7 + 512 + 512 * 512 ≤ block then .error (.panic "_bmap: block>big")
  else if h : block < 7 then .ok ((d.zone ⟨block, lt_nine h⟩).toNat, c)
  else if block - 7 < 512 then d.table (d.zone 7).toNat (block - 7) c
  else do
    let (i, c) ← d.table (d.zone 8).toNat ((block - 7 - 512) >>> 9) c
    d.table i ((block - 7 - 512) % 512) c

/-- The loop of `empty_dir`, with `de` as an index into the block `bh`. When a block has been read,
`de` is 0 and the next turn looks at its first entry. -/
def scan (nr de bh : ℕ) (c : Counts) : Except Fault (Bool × Counts) :=
  if nr < d.len then
    if de < 64 then
      if entryInode (d.data bh) de ≠ 0 then (brelse c bh).map fun c => (false, c)
      else scan (nr + 1) (de + 1) bh c
    else do
      let c ← brelse c bh
      let (block, c) ← d.bmap (nr / 64) c
      if block = 0 then scan (nr + 64) de bh c -- `continue`: `bh` has been released.
      else do
        let (found, c) ← d.bread block c
        if found then scan nr 0 block c else .ok (false, c)
  else (brelse c bh).map fun c => (true, c)
  termination_by (d.len - nr, if de < 64 then 0 else 1)
  decreasing_by
    · exact Prod.Lex.left _ _ (by omega)
    · exact Prod.Lex.left _ _ (by omega)
    · refine Prod.Lex.right _ ?_
      rw [if_pos (Nat.zero_lt_succ 63), if_neg (by omega)]
      exact Nat.one_pos

/-- The entries `.` and `..` in the first block are not right. -/
def BadDots : Prop :=
  let b := d.data (d.zone 0).toNat
  entryInode b 0 ≠ d.num.toNat ∨ entryInode b 1 = 0 ∨ strEq [46] b 0 = false ∨
    strEq [46, 46] b 1 = false

instance : Decidable d.BadDots := inferInstanceAs (Decidable (_ ∨ _))

/-- `empty_dir(inode)`. -/
def emptyDir (c : Counts) : Except Fault (Bool × Counts) :=
  let z := (d.zone 0).toNat
  if d.len < 2 ∨ z = 0 then .ok (false, c)
  else do
    let (found, c) ← d.bread z c
    if found = false then .ok (false, c)
    else if d.BadDots then .ok (false, c) -- The buffer is not released.
    else d.scan 2 2 z c

/-! ### What the function is to do -/

/-- An entry of a table of zone numbers of the image. -/
def pointer (z i : ℕ) : ℕ := if z = 0 then 0 else word (d.data z) i

/-- The block to which a block of the directory is mapped. -/
def mapped (block : ℕ) : ℕ :=
  if h : block < 7 then (d.zone ⟨block, lt_nine h⟩).toNat
  else if block - 7 < 512 then d.pointer (d.zone 7).toNat (block - 7)
  else d.pointer (d.pointer (d.zone 8).toNat ((block - 7 - 512) / 512)) ((block - 7 - 512) % 512)

/-- The directory has `.`, `..` and no other entries in blocks that are mapped. -/
structure Bare : Prop where
  two_le : 2 ≤ d.len
  dots : ¬d.BadDots
  zero : ∀ k, ∀ i < 64, 2 ≤ 64 * k + i → 64 * k + i < d.len → d.mapped k ≠ 0 →
    entryInode (d.data (d.mapped k)) i = 0

/-- The function returns, with 1 only for a directory without entries, and the counters are what
they were. -/
def Exact (c : Counts) : Prop := ∃ r, d.emptyDir c = .ok (r, c) ∧ (r = true → d.Bare)

/-- An entry of a table that `bmap` can read. -/
def look (z i : ℕ) : ℕ := if z ≠ 0 ∧ d.readable z then word (d.data z) i else 0

/-- The result of `bmap`. -/
def found (block : ℕ) : ℕ :=
  if h : block < 7 then (d.zone ⟨block, lt_nine h⟩).toNat
  else if block - 7 < 512 then d.look (d.zone 7).toNat (block - 7)
  else d.look (d.look (d.zone 8).toNat ((block - 7 - 512) / 512)) ((block - 7 - 512) % 512)

/-- The function goes on after a block: it can be read and has no further entries. -/
def Clear (k : ℕ) : Prop :=
  d.readable (d.found k) = true ∧
    ∀ i < 64, 2 ≤ 64 * k + i → 64 * k + i < d.len → entryInode (d.data (d.found k)) i = 0

/-- The blocks whose buffers the function obtains on the way to a block of the directory. -/
def obtained (k : ℕ) : List ℕ :=
  if k < 7 then [d.found k]
  else if k - 7 < 512 then [(d.zone 7).toNat, d.found k]
  else [(d.zone 8).toNat, d.look (d.zone 8).toNat ((k - 7 - 512) / 512), d.found k]

/-- From a block on, the blocks that the loop comes to before an entry or a block that cannot be
read are mapped, and the counters of the buffers on the way have room. -/
def MappedFrom (c : Counts) (k : ℕ) : Prop :=
  ∀ j, k ≤ j → 64 * j < d.len → (∀ i < j, d.Clear i) →
    j < 7 + 512 + 512 * 512 ∧ d.found j ≠ 0 ∧ ∀ b ∈ d.obtained j, c b ≠ 255

/-- The function finds no first block, or the first block cannot be read, or `.` and `..` are right
and the blocks that it comes to are mapped. The counters of the buffers that it obtains are not at
their greatest value. -/
def Scannable (c : Counts) : Prop :=
  d.len < 2 ∨ (d.zone 0).toNat = 0 ∨ c (d.zone 0).toNat ≠ 255 ∧
    (d.readable (d.zone 0).toNat = false ∨ ¬d.BadDots ∧ d.MappedFrom c 1)

end Image

/-! ### Blocks and counters -/

variable {d : Image} {c c' : Counts} {b bh k : ℕ}

/-- What `brelse` says of a buffer that nobody has. -/
def freed : Fault := .panic "Trying to free free buffer"

theorem brelse_zero (h : c b = 0) : brelse c b = .error freed := if_pos h

theorem brelse_raise (h : c b ≠ 255) : brelse (raise c b) b = .ok c := by
  have hself : raise c b b = c b + 1 := Function.update_self ..
  have hne : c b + 1 ≠ 0 := by grind
  rw [brelse, hself, if_neg hne, UInt8.add_sub_cancel, raise, Function.update_idem,
    Function.update_eq_self]

/-- A counter that has run over. -/
theorem raise_full (h : c b = 255) : raise c b b = 0 := by
  rw [raise, Function.update_self, h]
  rfl

theorem toNat_raise (h : c b ≠ 255) (b' : ℕ) :
    (raise c b b').toNat = (c b').toNat + if b' = b then 1 else 0 := by
  rw [raise, Function.update_apply]
  split_ifs with hb
  · have hlt : (c b).toNat < 255 := by
      have hle := (c b).toNat_lt
      have hne : (c b).toNat ≠ 255 := fun heq => h (UInt8.toNat_inj.mp heq)
      omega
    rw [hb, UInt8.toNat_add]
    exact Nat.mod_eq_of_lt (by change (c b).toNat + 1 < _; omega)
  · rfl

/-- A counter that is not 0 has been raised. -/
theorem exists_raise (h : c b ≠ 0) : ∃ c₁, c = raise c₁ b ∧ c₁ b ≠ 255 := by
  refine ⟨Function.update c b (c b - 1), ?_, ?_⟩
  · rw [raise, Function.update_self, UInt8.sub_add_cancel, Function.update_idem,
      Function.update_eq_self]
  · rw [Function.update_self]
    grind

namespace Image

theorem bread_eq (h : c b ≠ 255) :
    d.bread b c = .ok (d.readable b, if d.readable b then raise c b else c) := by
  rw [bread]
  split_ifs with hread
  · rw [hread]
  · rw [brelse_raise h, Bool.eq_false_of_not_eq_true hread]
    rfl

theorem bread_full (h : c b = 255) (hread : d.readable b = false) :
    d.bread b c = .error freed := by
  rw [bread, hread, brelse_zero (raise_full h)]
  rfl

theorem table_eq {z : ℕ} (i : ℕ) (h : z ≠ 0 → c z ≠ 255) :
    d.table z i c = .ok (d.look z i, c) := by
  rw [table, look]
  by_cases hz : z = 0
  · rw [if_pos hz, if_neg (not_and_of_not_left _ (not_not_intro hz))]
  · rw [if_neg hz, bread_eq (h hz)]
    by_cases hread : d.readable z = true
    · rw [hread]
      change (brelse (raise c z) z).map _ = _
      rw [brelse_raise (h hz), if_pos ⟨hz, rfl⟩]
      rfl
    · rw [if_neg (not_and_of_not_right _ hread), Bool.eq_false_of_not_eq_true hread]
      rfl

theorem table_full {z : ℕ} (i : ℕ) (hz : z ≠ 0) (h : c z = 255) :
    d.table z i c = .error freed := by
  rw [table, if_neg hz]
  cases hread : d.readable z
  · rw [bread_full h hread]
    rfl
  · rw [bread, if_pos hread]
    change (brelse (raise c z) z).map _ = _
    rw [brelse_zero (raise_full h)]
    rfl

theorem table_cases (z i : ℕ) (c : Counts) :
    d.table z i c = .ok (d.look z i, c) ∨ z ≠ 0 ∧ c z = 255 ∧ d.table z i c = .error freed := by
  by_cases h : z ≠ 0 ∧ c z = 255
  · exact .inr ⟨h.1, h.2, table_full i h.1 h.2⟩
  · exact .inl (table_eq i fun hz heq => h ⟨hz, heq⟩)

/-- `bmap` releases the buffers of the tables, or a counter has run over. -/
theorem bmap_cases (hk : k < 7 + 512 + 512 * 512) (c : Counts) :
    d.bmap k c = .ok (d.found k, c) ∨
      d.bmap k c = .error freed ∧ (d.found k ≠ 0 → ∃ b ∈ d.obtained k, c b = 255) := by
  rw [bmap, if_neg (Nat.not_le.mpr hk), found, obtained]
  split_ifs with h7 h512
  · exact .inl rfl
  · rcases d.table_cases (d.zone 7).toNat (k - 7) c with h | ⟨-, hfull, h⟩
    · exact .inl h
    · exact .inr ⟨h, fun _ => ⟨_, List.mem_cons_self, hfull⟩⟩
  · rw [Nat.shiftRight_eq_div_pow]
    rcases d.table_cases (d.zone 8).toNat ((k - 7 - 512) / 512) c with h | ⟨-, hfull, h⟩
    · rw [h]
      rcases d.table_cases (d.look (d.zone 8).toNat ((k - 7 - 512) / 512))
          ((k - 7 - 512) % 512) c with h' | ⟨-, hfull, h'⟩
      · exact .inl h'
      · exact .inr ⟨h', fun _ => ⟨_, List.mem_cons_of_mem _ List.mem_cons_self, hfull⟩⟩
    · refine .inr ⟨?_, fun _ => ⟨_, List.mem_cons_self, hfull⟩⟩
      rw [h]
      rfl

/-- A table that leads to a block is there. -/
theorem look_ne_zero {z i : ℕ} (h : d.look z i ≠ 0) : z ≠ 0 := by
  rintro rfl
  rw [look, if_neg fun hz => hz.1 rfl] at h
  exact h rfl

/-- A counter of a table runs over. -/
theorem bmap_full (hk : k < 7 + 512 + 512 * 512) (hfound : d.found k ≠ 0) (hb : b ∈ d.obtained k)
    (hne : b ≠ d.found k) (hfull : c b = 255) : d.bmap k c = .error freed := by
  rw [bmap, if_neg (Nat.not_le.mpr hk)]
  rw [obtained] at hb
  rw [found] at hfound
  split_ifs with h7 h512
  · rw [if_pos h7, List.mem_singleton] at hb
    exact absurd hb hne
  · rw [if_neg h7, if_pos h512, List.mem_cons, List.mem_singleton, or_iff_left hne] at hb
    rw [dif_neg h7, if_pos h512] at hfound
    rw [hb] at hfull
    exact table_full _ (look_ne_zero hfound) hfull
  · rw [if_neg h7, if_neg h512, List.mem_cons, List.mem_cons, List.mem_singleton,
      or_iff_left hne] at hb
    rw [dif_neg h7, if_neg h512] at hfound
    rw [Nat.shiftRight_eq_div_pow]
    have hinner := look_ne_zero hfound
    rcases d.table_cases (d.zone 8).toNat ((k - 7 - 512) / 512) c with h | ⟨-, -, h⟩
    · rw [h]
      rcases hb with rfl | rfl
      · rw [table_full _ (look_ne_zero hinner) hfull] at h
        cases h
      · exact table_full _ hinner hfull
    · rw [h]
      rfl

theorem mapped_of_found (h : d.found k ≠ 0) : d.mapped k = d.found k := by
  have hlook : ∀ z i, d.look z i ≠ 0 → d.pointer z i = d.look z i := by
    intro z i hne
    rw [look] at hne ⊢
    split_ifs at hne ⊢ with hz
    · exact if_neg hz.1
    · exact absurd rfl hne
  rw [mapped]
  rw [found] at h ⊢
  split_ifs at h ⊢ with h7 h512
  · rfl
  · exact hlook _ _ h
  · rw [hlook _ _ (look_ne_zero h)]
    exact hlook _ _ h

/-! ### The loop -/

/-- The entries from `de` on have no inode numbers: the loop comes to the end of the block. -/
theorem scan_zero (de : ℕ) (hde : de ≤ 64)
    (h : ∀ i < 64, de ≤ i → 64 * k + i < d.len → entryInode (d.data bh) i = 0) :
    d.scan (64 * k + de) de bh c = d.scan (64 * (k + 1)) 64 bh c := by
  induction hn : 64 - de generalizing de with
  | zero =>
    obtain rfl : de = 64 := by omega
    rw [Nat.mul_succ]
  | succ n ih =>
    by_cases hlen : 64 * k + de < d.len
    · rw [scan, if_pos hlen, if_pos (by omega),
        if_neg (not_not_intro (h de (by omega) le_rfl hlen)),
        Nat.add_assoc]
      exact ih (de + 1) (by omega) (fun i hi hle => h i hi (by omega)) (by omega)
    · rw [scan, if_neg hlen, scan, if_neg (by omega)]

/-- The loop ends with an entry. -/
theorem scan_entry (de : ℕ) {i : ℕ} (hde : de ≤ i) (hi : i < 64) (hlen : 64 * k + i < d.len)
    (h : entryInode (d.data bh) i ≠ 0) :
    d.scan (64 * k + de) de bh c = (brelse c bh).map fun c => (false, c) := by
  induction hn : i - de generalizing de with
  | zero =>
    obtain rfl : de = i := by omega
    rw [scan, if_pos hlen, if_pos hi, if_pos h]
  | succ n ih =>
    rw [scan, if_pos (by omega), if_pos (by omega)]
    by_cases hentry : entryInode (d.data bh) de ≠ 0
    · rw [if_pos hentry]
    · rw [if_neg hentry, Nat.add_assoc]
      exact ih (de + 1) (by omega) (by omega)

/-- The loop does not end well with a buffer that nobody has. -/
theorem scan_freed (h : c bh = 0) (nr de : ℕ) : d.scan nr de bh c = .error freed := by
  induction hn : d.len - nr generalizing nr de with
  | zero =>
    rw [scan, if_neg (by omega), brelse_zero h]
    rfl
  | succ n ih =>
    rw [scan, if_pos (by omega)]
    split_ifs with hde hentry
    · rw [brelse_zero h]
      rfl
    · exact ih _ _ (by omega)
    · rw [brelse_zero h]
      rfl

/-- The end of the directory. -/
theorem scan_end (hlen : d.len ≤ 64 * k) :
    d.scan (64 * k) 64 bh c = (brelse c bh).map fun c => (true, c) := by
  rw [scan, if_neg (Nat.not_lt.mpr hlen)]

/-- The turn in which the loop comes to a block of the directory. -/
theorem scan_next (hlen : 64 * k < d.len) (hbh : c bh ≠ 255) (hk : k < 7 + 512 + 512 * 512) :
    d.scan (64 * k) 64 bh (raise c bh) = .error freed ∧
        (d.found k ≠ 0 → ∃ b ∈ d.obtained k, c b = 255) ∨
      d.found k = 0 ∧
        d.scan (64 * k) 64 bh (raise c bh) = d.scan (64 * (k + 1)) 64 bh c ∨
      d.found k ≠ 0 ∧ c (d.found k) ≠ 255 ∧ d.bmap k c = .ok (d.found k, c) ∧
        d.scan (64 * k) 64 bh (raise c bh) = if d.readable (d.found k)
          then d.scan (64 * k) 0 (d.found k) (raise c (d.found k)) else .ok (false, c) := by
  rw [scan, if_pos hlen, if_neg (by omega), brelse_raise hbh]
  change (d.bmap (64 * k / 64) c >>= _) = _ ∧ _ ∨ _ ∧ (d.bmap (64 * k / 64) c >>= _) = _ ∨
    _ ∧ _ ∧ _ ∧ (d.bmap (64 * k / 64) c >>= _) = _
  rw [Nat.mul_div_cancel_left k (Nat.succ_pos 63)]
  rcases bmap_cases hk c with hmap | ⟨hmap, hfull⟩
  swap
  · rw [hmap]
    exact .inl ⟨rfl, hfull⟩
  rw [hmap]
  by_cases hfound : d.found k = 0
  · refine .inr (.inl ⟨hfound, ?_⟩)
    change (if d.found k = 0 then _ else _) = _
    rw [if_pos hfound, Nat.mul_succ]
  have hmem : d.found k ∈ d.obtained k := by
    rw [obtained]
    split_ifs <;> simp
  by_cases hfull : c (d.found k) = 255
  · refine .inl ⟨?_, fun _ => ⟨_, hmem, hfull⟩⟩
    change (if d.found k = 0 then _ else d.bread (d.found k) c >>= _) = _
    rw [if_neg hfound]
    cases hread : d.readable (d.found k)
    · rw [bread_full hfull hread]
      rfl
    · rw [bread, if_pos hread]
      exact scan_freed (raise_full hfull) _ _
  · refine .inr (.inr ⟨hfound, hfull, rfl, ?_⟩)
    change (if d.found k = 0 then _ else d.bread (d.found k) c >>= _) = _
    rw [if_neg hfound, bread_eq hfull]
    cases hread : d.readable (d.found k) <;> rfl

/-- A block of the directory from its first entry on: an entry ends the loop, or the loop comes to
the next block. -/
theorem scan_block (k : ℕ) (hk : 1 ≤ k) (hfull : c (d.found k) ≠ 255)
    (hread : d.readable (d.found k) = true) :
    ¬d.Clear k ∧ d.scan (64 * k) 0 (d.found k) (raise c (d.found k)) = .ok (false, c) ∨
      d.Clear k ∧ d.scan (64 * k) 0 (d.found k) (raise c (d.found k)) =
        d.scan (64 * (k + 1)) 64 (d.found k) (raise c (d.found k)) := by
  by_cases hzero : ∀ i < 64, 64 * k + i < d.len → entryInode (d.data (d.found k)) i = 0
  · refine .inr ⟨⟨hread, fun i hi _ => hzero i hi⟩, ?_⟩
    exact scan_zero 0 (Nat.zero_le 64) fun i hi _ => hzero i hi
  · push Not at hzero
    obtain ⟨i, hi, hlen, hentry⟩ := hzero
    refine .inl ⟨fun hclear => hentry (hclear.2 i hi (by omega) hlen), ?_⟩
    have hscan := scan_entry (c := raise c (d.found k)) 0 (Nat.zero_le i) hi hlen hentry
    rwa [brelse_raise hfull] at hscan

theorem scan_big (hlen : 64 * k < d.len) (hbh : c bh ≠ 255) (hk : 7 + 512 + 512 * 512 ≤ k) :
    d.scan (64 * k) 64 bh (raise c bh) = .error (.panic "_bmap: block>big") := by
  rw [scan, if_pos hlen, if_neg (by omega), brelse_raise hbh]
  change (d.bmap (64 * k / 64) c >>= _) = _
  rw [Nat.mul_div_cancel_left k (Nat.succ_pos 63), bmap, if_pos hk]
  rfl

/-- The loop releases the buffer that it has, and every buffer that it obtains. -/
theorem scan_le {r : Bool} (h : d.scan (64 * k) 64 bh c = .ok (r, c')) (hk : 1 ≤ k) (b : ℕ) :
    (c' b).toNat + (if b = bh then 1 else 0) ≤ (c b).toNat := by
  induction hn : d.len - 64 * k using Nat.strong_induction_on generalizing k bh c with
  | h n ih =>
    have hpos : c bh ≠ 0 := fun hzero => by
      rw [scan_freed hzero] at h
      cases h
    obtain ⟨c₁, rfl, hbh⟩ := exists_raise hpos
    rw [toNat_raise hbh]
    rcases Nat.lt_or_ge (64 * k) d.len with hlen | hlen
    · rcases Nat.lt_or_ge k (7 + 512 + 512 * 512) with hbig | hbig
      swap
      · rw [scan_big hlen hbh hbig] at h
        cases h
      rcases scan_next hlen hbh hbig with ⟨hscan, -⟩ | ⟨-, hscan⟩ | ⟨-, hfull, -, hscan⟩
      · rw [hscan] at h
        cases h
      · rw [hscan] at h
        have := ih _ (by omega) h (by omega) rfl
        omega
      · rw [hscan] at h
        split_ifs at h with hread
        · rcases scan_block k hk hfull hread with ⟨-, hscan⟩ | ⟨-, hscan⟩
          · rw [hscan] at h
            cases h
            exact le_rfl
          · rw [hscan] at h
            have := ih _ (by omega) h (by omega) rfl
            rw [toNat_raise hfull] at this
            omega
        · cases h
          exact le_rfl
    · rw [scan_end hlen, brelse_raise hbh] at h
      cases h
      exact le_rfl

/-- The loop from a block on. -/
theorem scan_exact (hk : 1 ≤ k) (hclear : ∀ i < k, d.Clear i) (hbh : c bh ≠ 255) :
    ((∃ r, d.scan (64 * k) 64 bh (raise c bh) = .ok (r, c)) ↔ d.MappedFrom c k) ∧
      (d.scan (64 * k) 64 bh (raise c bh) = .ok (true, c) →
        ∀ j, k ≤ j → 64 * j < d.len → d.Clear j ∧ d.found j ≠ 0) := by
  induction hn : d.len - 64 * k using Nat.strong_induction_on generalizing k bh with
  | h n ih =>
    rcases Nat.lt_or_ge (64 * k) d.len with hlen | hlen
    swap
    · rw [scan_end hlen, brelse_raise hbh]
      exact ⟨iff_of_true ⟨_, rfl⟩ fun j hj hlt => by omega, fun _ j hj hlt => by omega⟩
    rcases Nat.lt_or_ge k (7 + 512 + 512 * 512) with hbig | hbig
    swap
    · rw [scan_big hlen hbh hbig]
      refine ⟨iff_of_false (fun ⟨_, h⟩ => nomatch h) fun h => ?_, fun h => nomatch h⟩
      exact absurd (h k le_rfl hlen hclear).1 (Nat.not_lt.mpr hbig)
    rcases scan_next hlen hbh hbig with
      ⟨hscan, hfull⟩ | ⟨hfound, hscan⟩ | ⟨hfound, hfull, hmap, hscan⟩
    · rw [hscan]
      refine ⟨iff_of_false (fun ⟨_, h⟩ => nomatch h) fun h => ?_, fun h => nomatch h⟩
      obtain ⟨-, hfound, hroom⟩ := h k le_rfl hlen hclear
      obtain ⟨b, hb, hc⟩ := hfull hfound
      exact hroom b hb hc
    · have hne : ∀ r, d.scan (64 * (k + 1)) 64 bh c ≠ .ok (r, c) := fun r h => by
        have := scan_le h (by omega) bh
        rw [if_pos rfl] at this
        omega
      rw [hscan]
      refine ⟨iff_of_false (fun ⟨r, h⟩ => hne r h) fun h => ?_, fun h => absurd h (hne true)⟩
      exact (h k le_rfl hlen hclear).2.1 hfound
    · have hroom : ∀ b ∈ d.obtained k, c b ≠ 255 := fun b hb hc => by
        by_cases hne : b = d.found k
        · exact hfull (hne ▸ hc)
        · rw [bmap_full hbig hfound hb hne hc] at hmap
          cases hmap
      -- A block that is not clear is the last one that the loop comes to.
      have hlast : ¬d.Clear k → d.MappedFrom c k := fun hnot j hj _ hall => by
        rcases Nat.eq_or_lt_of_le hj with rfl | hj
        · exact ⟨hbig, hfound, hroom⟩
        · exact absurd (hall k hj) hnot
      rw [hscan]
      split_ifs with hread
      · rcases scan_block k hk hfull hread with ⟨hnot, hscan⟩ | ⟨hself, hscan⟩
        · rw [hscan]
          exact ⟨iff_of_true ⟨_, rfl⟩ (hlast hnot), fun h => nomatch h⟩
        · rw [hscan]
          have hclear' : ∀ i < k + 1, d.Clear i := fun i hi =>
            (Nat.lt_succ_iff_lt_or_eq.mp hi).elim (hclear i) fun heq => heq ▸ hself
          obtain ⟨hiff, hall⟩ := ih _ (by omega) (by omega) hclear' hfull rfl
          refine ⟨hiff.trans ⟨fun h j hj => ?_, fun h j hj => h j (by omega)⟩, fun h j hj => ?_⟩
          · rcases Nat.eq_or_lt_of_le hj with rfl | hj
            · exact fun _ _ => ⟨hbig, hfound, hroom⟩
            · exact h j hj
          · rcases Nat.eq_or_lt_of_le hj with rfl | hj
            · exact fun _ => ⟨hself, hfound⟩
            · exact hall h j hj
      · exact ⟨iff_of_true ⟨_, rfl⟩ (hlast fun h => hread h.1), fun h => nomatch h⟩

/-- From the entries behind `.` and `..` on. -/
theorem scan_first (hdots : ¬d.BadDots) (htwo : 2 ≤ d.len) (hfull : c (d.found 0) ≠ 255)
    (hread : d.readable (d.found 0) = true) :
    (∃ r, d.scan 2 2 (d.found 0) (raise c (d.found 0)) = .ok (r, c) ∧ (r = true → d.Bare)) ↔
      d.MappedFrom c 1 := by
  by_cases hclear : d.Clear 0
  · have hscan : d.scan 2 2 (d.found 0) (raise c (d.found 0)) = _ :=
      scan_zero (k := 0) 2 (by omega) fun i hi hle => hclear.2 i hi (by omega)
    obtain ⟨hiff, hall⟩ := scan_exact (k := 1) le_rfl
      (fun i hi => Nat.lt_one_iff.mp hi ▸ hclear) hfull
    rw [hscan, ← hiff]
    refine exists_congr fun r => and_iff_left_of_imp fun h hr => ?_
    subst hr
    refine ⟨htwo, hdots, fun k i hi hle hlen _ => ?_⟩
    rcases Nat.eq_zero_or_pos k with rfl | hk
    · exact hclear.2 i hi hle hlen
    · obtain ⟨hclear', hfound⟩ := hall h k hk (by omega)
      rw [mapped_of_found hfound]
      exact hclear'.2 i hi hle hlen
  · have hnot := hclear
    rw [Clear, and_iff_right hread] at hnot
    push Not at hnot
    obtain ⟨i, hi, hle, hlen, hentry⟩ := hnot
    have hscan : d.scan 2 2 (d.found 0) (raise c (d.found 0)) = _ :=
      scan_entry (k := 0) 2 (by omega) hi hlen hentry
    rw [brelse_raise hfull] at hscan
    refine iff_of_true ⟨false, hscan, fun h => nomatch h⟩ fun k hk _ hall => ?_
    exact absurd (hall 0 hk) hclear

/-- The function with a directory that it does not refuse at once. -/
theorem emptyDir_eq (h : ¬(d.len < 2 ∨ (d.zone 0).toNat = 0)) : d.emptyDir c =
    if d.readable (d.found 0) then
      if d.BadDots then .ok (false, raise c (d.found 0))
      else d.scan 2 2 (d.found 0) (raise c (d.found 0))
    else (brelse (raise c (d.found 0)) (d.found 0)).map fun c => (false, c) := by
  have hz : (d.zone 0).toNat = d.found 0 := rfl
  rw [emptyDir, if_neg h, hz, bread]
  cases d.readable (d.found 0)
  · cases brelse (raise c (d.found 0)) (d.found 0) <;>
      simp only [Bool.false_eq_true, if_false] <;> rfl
  · rfl

/-- The directories, and the counters, for which `empty_dir` is exact. -/
theorem exact_iff (d : Image) (c : Counts) : d.Exact c ↔ d.Scannable c := by
  rw [Exact, Scannable]
  by_cases hrefused : d.len < 2 ∨ (d.zone 0).toNat = 0
  · rw [emptyDir, if_pos hrefused, ← or_assoc]
    exact iff_of_true ⟨false, rfl, fun h => nomatch h⟩ (.inl hrefused)
  rw [emptyDir_eq hrefused, ← or_assoc, or_iff_right hrefused]
  change _ ↔ c (d.found 0) ≠ 255 ∧ (d.readable (d.found 0) = false ∨ _)
  by_cases hfull : c (d.found 0) = 255
  · refine iff_of_false ?_ fun h => h.1 hfull
    rintro ⟨r, h, -⟩
    split_ifs at h with hread hdots
    · -- The counter has run over, and is not what it was.
      have hzero := raise_full hfull
      rw [(Prod.mk.inj (Except.ok.inj h)).2, hfull] at hzero
      cases hzero
    · rw [scan_freed (raise_full hfull)] at h
      cases h
    · rw [brelse_zero (raise_full hfull)] at h
      cases h
  rw [and_iff_right hfull]
  split_ifs with hread hdots
  · refine iff_of_false ?_ fun h => h.elim (fun h => ?_) fun h => h.1 hdots
    · rintro ⟨r, h, -⟩
      have hc := congrArg UInt8.toNat (congrFun (Prod.mk.inj (Except.ok.inj h)).2 (d.found 0))
      rw [toNat_raise hfull, if_pos rfl] at hc
      omega
    · cases hread.symm.trans h
  · rw [or_iff_right (by rw [hread]; decide), and_iff_right hdots]
    exact scan_first hdots (by omega) hfull hread
  · rw [brelse_raise hfull]
    exact iff_of_true ⟨false, rfl, fun h => nomatch h⟩ (.inl (Bool.eq_false_of_not_eq_true hread))

/-- An empty directory whose second block is not mapped, as on a device of another system. -/
def sparse : Image where
  num := 2
  size := 65 * 16
  zone := fun i => if i = 0 then 100 else 0
  data _ := setEntryName (setEntryName (setEntryInode (setEntryInode zeroBlock 0 2) 1 1) 0 [46]) 1
    [46, 46]
  readable _ := true

/-- The buffer of the first block is released twice. -/
theorem not_exact_sparse : ¬sparse.Exact fun _ => 0 := by
  rintro ⟨r, h, -⟩
  have hzero : ∀ i < 64, 2 ≤ i → entryInode (sparse.data 100) i = 0 := fun i _ hi => by
    rw [sparse, entryInode_setEntryName (by decide), entryInode_setEntryName (by decide),
      entryInode_setEntryInode_of_ne (by omega), entryInode_setEntryInode_of_ne (by omega),
      entryInode_zeroBlock]
  have hlen : sparse.len = 65 := rfl
  have hscan : sparse.scan 2 2 100 (raise (fun _ => 0) 100) = _ :=
    scan_zero (k := 0) 2 (by omega) fun i hi hle _ => hzero i hi hle
  have hrun : sparse.emptyDir (fun _ => 0) = sparse.scan 2 2 100 (raise (fun _ => 0) 100) := by
    rw [emptyDir_eq (by decide), if_pos (by rfl), if_neg (by decide)]
    rfl
  rcases @scan_next sparse (fun _ => 0) 100 1 (by omega) (by decide) (by omega) with
    ⟨hnext, -⟩ | ⟨-, hnext⟩ | ⟨hfound, -⟩
  · rw [hrun, hscan, hnext] at h
    cases h
  · rw [hrun, hscan, hnext, scan_end (by omega)] at h
    cases h
  · exact hfound (by decide)

end Image

end Linux001.Fs.EmptyDir
