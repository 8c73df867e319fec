import Linux001.Lib.Sizes
import Mathlib.Data.Nat.Notation
import Mathlib.Logic.Function.Basic
import Mathlib.Tactic.Linarith

/-!
# Blocks, tables of zone numbers and directory entries

A block is 1024 bytes. The file system reads blocks in three ways: as bytes of a regular file, as
512 zone numbers of a table (`unsigned short *`), and as 64 directory entries of 16 bytes
(`struct dir_entry`: the inode number, then 14 bytes of name). All three are views of the same
bytes.

## Main definitions

* `Block`, `word`, `setWord`: the bytes of a block, and its 16-bit words.
* `entryInode`, `setEntryInode`, `setEntryName`: the fields of directory entries.
* `strEq`: `strcmp(str, name) == 0` for the name of an entry.

## Main results

* `word_setWord`: a stored word is read back, and the other words are kept.
* `entryInode_setEntryInode`, `entryInode_setEntryName`: the inode numbers after stores to an entry.
-/

namespace Linux001.Fs

/-- The bytes of a block (`b_data`); only the indices below 1024 are used. -/
abbrev Block := ℕ → UInt8

/-- The block that `clear_block` leaves. -/
def zeroBlock : Block := fun _ => 0

/-- The `i`-th `unsigned short` of a block. -/
def word (b : Block) (i : ℕ) : ℕ := (b (2 * i)).toNat + 256 * (b (2 * i + 1)).toNat

/-- Stores an `unsigned short`. -/
def setWord (b : Block) (i v : ℕ) : Block := fun j =>
  if j = 2 * i then UInt8.ofNat v else if j = 2 * i + 1 then UInt8.ofNat (v / 256) else b j

/-- `de->inode` of the `k`-th entry of a block. -/
def entryInode (b : Block) (k : ℕ) : ℕ := word b (8 * k)

/-- `de->inode = n`. -/
def setEntryInode (b : Block) (k n : ℕ) : Block := setWord b (8 * k) n

/-- `de->name[i]`. -/
def entryName (b : Block) (k i : ℕ) : UInt8 := b (16 * k + 2 + i)

/-- Stores bytes from the first byte of the name on: the copy loop of `add_entry`, and `strcpy`. -/
def setEntryName (b : Block) (k : ℕ) (name : List UInt8) : Block := fun j =>
  if 16 * k + 2 ≤ j ∧ j < 16 * k + 2 + name.length then name.getD (j - (16 * k + 2)) 0 else b j

/-- `strcmp(str, de->name) == 0`: the bytes of `str` and the zero after them. -/
def strEq (str : List UInt8) (b : Block) (k : ℕ) : Bool :=
  (List.range (str.length + 1)).all fun i => entryName b k i == str.getD i 0

/-! ### Words -/

@[simp]
theorem word_zeroBlock (i : ℕ) : word zeroBlock i = 0 := rfl

theorem word_lt (b : Block) (i : ℕ) : word b i < 65536 := by
  have h₀ := (b (2 * i)).toNat_lt
  have h₁ := (b (2 * i + 1)).toNat_lt
  unfold word
  omega

/-- A stored word is read back modulo `2 ^ 16`, and the other words are kept. -/
theorem word_setWord (b : Block) (i j v : ℕ) :
    word (setWord b i v) j = if j = i then v % 65536 else word b j := by
  unfold word setWord
  by_cases h : j = i
  · subst h
    simp only [↓reduceIte, Nat.add_eq_left, one_ne_zero, UInt8.toNat_ofNat']
    omega
  · rw [if_neg (by omega), if_neg (by omega), if_neg (by omega), if_neg (by omega), if_neg h]

theorem word_setWord_self {b : Block} {i v : ℕ} (hv : v < 65536) :
    word (setWord b i v) i = v := by
  rw [word_setWord, if_pos rfl, Nat.mod_eq_of_lt hv]

theorem word_setWord_of_ne {b : Block} {i j v : ℕ} (h : j ≠ i) :
    word (setWord b i v) j = word b j := by
  rw [word_setWord, if_neg h]

/-! ### Directory entries -/

@[simp]
theorem entryInode_zeroBlock (k : ℕ) : entryInode zeroBlock k = 0 := rfl

theorem entryInode_setEntryInode_self {b : Block} {k n : ℕ} (hn : n < 65536) :
    entryInode (setEntryInode b k n) k = n :=
  word_setWord_self hn

theorem entryInode_setEntryInode_of_ne {b : Block} {k j n : ℕ} (h : j ≠ k) :
    entryInode (setEntryInode b k n) j = entryInode b j :=
  word_setWord_of_ne (by omega)

/-- Storing a name of at most 14 bytes keeps all inode numbers. -/
@[simp]
theorem entryInode_setEntryName {b : Block} {k : ℕ} {name : List UInt8} (hname : name.length ≤ 14)
    (j : ℕ) : entryInode (setEntryName b k name) j = entryInode b j := by
  unfold entryInode word setEntryName
  rw [if_neg (by omega), if_neg (by omega)]

/-- Storing an inode number keeps all names. -/
theorem entryName_setEntryInode (b : Block) (k n j : ℕ) {i : ℕ} (hi : i < 14) :
    entryName (setEntryInode b k n) j i = entryName b j i := by
  unfold entryName setEntryInode setWord
  rw [if_neg (by omega), if_neg (by omega)]

theorem entryName_setEntryName_self {b : Block} {k : ℕ} {name : List UInt8} {i : ℕ}
    (hi : i < name.length) : entryName (setEntryName b k name) k i = name.getD i 0 := by
  unfold entryName setEntryName
  rw [if_pos (by omega), Nat.add_sub_cancel_left]

/-- Storing the name of one entry keeps the names of the others. -/
theorem entryName_setEntryName_of_ne {b : Block} {k j : ℕ} {name : List UInt8}
    (hname : name.length ≤ 14) (h : j ≠ k) {i : ℕ} (hi : i < 14) :
    entryName (setEntryName b k name) j i = entryName b j i := by
  unfold entryName setEntryName
  rw [if_neg (by omega)]

end Linux001.Fs
