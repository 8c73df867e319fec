import Linux001.Lib.Sizes
import Mathlib.Algebra.Order.Ring.Nat
import Mathlib.Data.Nat.Init
import Mathlib.Tactic.Ring

/-!
# Addresses on the disk

The model of `rw_hd` of `kernel/hd.c`: a block of a partition is a pair of sectors, whose number on
the drive is taken apart into cylinder, head and sector by two divisions. All numbers are
`unsigned int`s of 32 bits.

## Main definitions

* `Drives`: the tables `hd_info` and `hd`, the latter as `hd_init` and `sys_setup` fill it.
* `Drives.rwHd`: what `rw_hd` passes on to `rw_abs_hd`.
* `Geometry.linear`: the number of a sector on its drive.

## Main results

* `confined_and_disjoint`: the addresses are exact and within the partition, and blocks do not
  overlap.
-/

namespace Linux001.Hd

/-- The fields of an entry of `hd_info` that the driver uses. -/
structure Geometry where
  head : UInt32
  sect : UInt32
  cyl : UInt32

/-- An entry of the table `hd` (`struct hd_struct`). -/
structure Partition where
  startSect : UInt32
  nrSects : UInt32

/-- `NR_HD`, the table `hd_info` and the table `hd[5*MAX_HD]`, with `MAX_HD` = 2. -/
structure Drives where
  nrHd : ℕ
  nrHd_le : nrHd ≤ 2
  hdInfo : Fin nrHd → Geometry
  hd : Fin 10 → Partition

/-- The address of a sector on a drive, whose sectors are counted from 1. -/
structure Chs where
  cyl : ℕ
  head : ℕ
  sec : ℕ
  deriving DecidableEq

/-- The number of a sector on its drive. -/
def Geometry.linear (g : Geometry) (a : Chs) : ℕ :=
  (a.cyl * g.head.toNat + a.head) * g.sect.toNat + (a.sec - 1)

/-- The sector that follows: on the same track, under the next head or on the next cylinder. -/
def Geometry.succ (g : Geometry) (a : Chs) : Chs :=
  if a.sec < g.sect.toNat then { a with sec := a.sec + 1 }
  else if a.head + 1 < g.head.toNat then ⟨a.cyl, a.head + 1, 1⟩
  else ⟨a.cyl + 1, 0, 1⟩

/-- The address is one of a sector under a head of the drive. -/
structure Geometry.Valid (g : Geometry) (a : Chs) : Prop where
  one_le : 1 ≤ a.sec
  sec_le : a.sec ≤ g.sect.toNat
  head_lt : a.head < g.head.toNat

/-- What `rw_hd` does: it returns, it calls `rw_abs_hd` with a drive and an address, or a `divl`
traps. -/
inductive Outcome (n : ℕ)
  | ignored
  | request (nr : Fin n) (sec head cyl : UInt32)
  | divideError
  deriving DecidableEq

/-- `divl`, of a word that is extended by 0: the quotient and the remainder. -/
def divl (a b : UInt32) : Option (UInt32 × UInt32) :=
  if b = 0 then none else some (a / b, a % b)

namespace Drives

variable (d : Drives)

/-- `MINOR(b_dev)`. -/
def minor (dev : UInt16) : UInt32 := (dev &&& 0xff).toUInt32

/-- `rw_hd(rw, bh)`, for the fields `b_dev` and `b_blocknr` of the buffer head. -/
def rwHd (bDev bBlocknr : UInt16) : Outcome d.nrHd :=
  let block := bBlocknr.toUInt32 <<< 1
  let dev := minor bDev
  if h : dev.toNat < 5 * d.nrHd then
    have := d.nrHd_le
    let p := d.hd ⟨dev.toNat, by omega⟩
    if block + 2 > p.nrSects then .ignored
    else
      let block := block + p.startSect
      let nr : Fin d.nrHd := ⟨dev.toNat / 5, by omega⟩
      match divl block (d.hdInfo nr).sect with
      | none => .divideError
      | some (block, sec) =>
        match divl block (d.hdInfo nr).head with
        | none => .divideError
        | some (cyl, head) => .request nr (sec + 1) head cyl
  else .ignored

/-- The loop of `hd_init`: the first entry of each drive is the whole drive. -/
def hdInit : Drives :=
  { d with
    hd := fun i =>
      if h : i.val % 5 = 0 ∧ i.val / 5 < d.nrHd then
        let g := d.hdInfo ⟨i.val / 5, h.2⟩
        ⟨0, g.head * g.sect * g.cyl⟩
      else d.hd i }

/-- The loop of `sys_setup`: the other four entries are read from the partition table of the
drive. -/
def sysSetup (table : Fin d.nrHd → Fin 4 → Partition) : Drives :=
  { d with
    hd := fun i =>
      if h : i.val % 5 ≠ 0 ∧ i.val / 5 < d.nrHd then
        table ⟨i.val / 5, h.2⟩ ⟨i.val % 5 - 1, by omega⟩
      else d.hd i }

/-- The two sectors of a transfer, with their drive. -/
def sectors (bDev bBlocknr : UInt16) : List (Fin d.nrHd × Chs) :=
  match d.rwHd bDev bBlocknr with
  | .request nr sec head cyl =>
    let a : Chs := ⟨cyl.toNat, head.toNat, sec.toNat⟩
    [(nr, a), (nr, (d.hdInfo nr).succ a)]
  | .ignored | .divideError => []

/-- The geometries are of drives with sectors, and the partitions have ends. -/
structure Sane : Prop where
  sect_pos : ∀ nr, 0 < (d.hdInfo nr).sect
  head_pos : ∀ nr, 0 < (d.hdInfo nr).head
  end_lt : ∀ i, (d.hd i).startSect.toNat + (d.hd i).nrSects.toNat < 2 ^ 32

/-- The sectors of two partitions, which may be on different drives, are different ones. -/
def Apart (i j : Fin 10) : Prop :=
  i.val / 5 ≠ j.val / 5 ∨
    (d.hd i).startSect.toNat + (d.hd i).nrSects.toNat ≤ (d.hd j).startSect.toNat ∨
    (d.hd j).startSect.toNat + (d.hd j).nrSects.toNat ≤ (d.hd i).startSect.toNat

end Drives

/-! ### Sectors of a drive -/

section Geometry

variable {g : Geometry} {a : Chs}

/-- The following sector has the following number. -/
theorem Geometry.Valid.linear_succ (h : g.Valid a) : g.linear (g.succ a) = g.linear a + 1 := by
  obtain ⟨hone, hsec, hhead⟩ := h
  unfold Geometry.succ
  split_ifs with hs hh
  · simp only [Geometry.linear]
    omega
  · -- The track ends.
    have hlast : a.sec = g.sect.toNat := by omega
    have htrack : (a.cyl * g.head.toNat + (a.head + 1)) * g.sect.toNat =
        (a.cyl * g.head.toNat + a.head) * g.sect.toNat + g.sect.toNat := by ring
    simp only [Geometry.linear, htrack]
    omega
  · -- The cylinder ends.
    have hlast : a.sec = g.sect.toNat := by omega
    have hheads : g.head.toNat = a.head + 1 := by omega
    have hcyl : ((a.cyl + 1) * g.head.toNat + 0) * g.sect.toNat =
        (a.cyl * g.head.toNat + a.head) * g.sect.toNat + g.sect.toNat := by
      rw [hheads]
      ring
    simp only [Geometry.linear, hcyl]
    omega

/-- A number that has been divided by the sectors of a track and the heads is put together again. -/
theorem linear_divided (n : ℕ) :
    (n / g.sect.toNat / g.head.toNat * g.head.toNat + n / g.sect.toNat % g.head.toNat) *
      g.sect.toNat + n % g.sect.toNat = n := by
  rw [Nat.div_add_mod', Nat.div_add_mod']

end Geometry

/-! ### `rw_hd` -/

/-- The address is that of the two sectors of a block of a partition. -/
structure Confined (g : Geometry) (p : Partition) (block : ℕ) (a : Chs) :
  Prop extends g.Valid a where
  linear : g.linear a = p.startSect.toNat + 2 * block
  within : ∀ b ∈ [a, g.succ a],
    p.startSect.toNat ≤ g.linear b ∧ g.linear b < p.startSect.toNat + p.nrSects.toNat

namespace Drives

variable {d : Drives}

/-- `divl` by a positive number. -/
theorem divl_of_pos {a b : UInt32} (hb : 0 < b) : divl a b = some (a / b, a % b) := by
  refine if_neg fun hzero => ?_
  rw [hzero] at hb
  exact UInt32.lt_irrefl 0 hb

/-- The number of the first sector of a block within its partition. -/
theorem toNat_block (b : UInt16) : (b.toUInt32 <<< 1).toNat = 2 * b.toNat := by
  have hb := b.toNat_lt
  rw [UInt32.toNat_shiftLeft, UInt16.toNat_toUInt32]
  simp only [UInt32.reduceToNat, Nat.reduceMod, Nat.shiftLeft_eq, pow_one]
  omega

/-- The check of the end of the block does not wrap. -/
theorem block_le_iff (b : UInt16) (n : UInt32) :
    ¬ b.toUInt32 <<< 1 + 2 > n ↔ 2 * b.toNat + 2 ≤ n.toNat := by
  have hb := b.toNat_lt
  rw [gt_iff_lt, UInt32.lt_iff_toNat_lt, UInt32.toNat_add, toNat_block]
  simp only [UInt32.reduceToNat]
  omega

/-- The parts of the number of a sector that the two divisions yield are its address. -/
theorem confined_divided {g : Geometry} {p : Partition} {n : UInt32} {block : ℕ}
    (hsect : 0 < g.sect) (hhead : 0 < g.head) (hn : n.toNat = p.startSect.toNat + 2 * block)
    (hend : 2 * block + 2 ≤ p.nrSects.toNat) :
    Confined g p block
      ⟨(n / g.sect / g.head).toNat, (n / g.sect % g.head).toNat, (n % g.sect + 1).toNat⟩ := by
  have hsect' : 0 < g.sect.toNat := UInt32.lt_iff_toNat_lt.mp hsect
  have hhead' : 0 < g.head.toNat := UInt32.lt_iff_toNat_lt.mp hhead
  have hlt := Nat.mod_lt n.toNat hsect'
  -- A remainder is below the largest word.
  have hsec : (n % g.sect + 1).toNat = n.toNat % g.sect.toNat + 1 := by
    have hword := g.sect.toNat_lt
    rw [UInt32.toNat_add, UInt32.toNat_mod]
    simp only [UInt32.reduceToNat]
    omega
  have hvalid : g.Valid
      ⟨(n / g.sect / g.head).toNat, (n / g.sect % g.head).toNat, (n % g.sect + 1).toNat⟩ := by
    refine ⟨?_, ?_, ?_⟩
    · dsimp only
      omega
    · dsimp only
      omega
    · rw [UInt32.toNat_mod]
      exact Nat.mod_lt _ hhead'
  have hlinear : g.linear
      ⟨(n / g.sect / g.head).toNat, (n / g.sect % g.head).toNat, (n % g.sect + 1).toNat⟩ =
        p.startSect.toNat + 2 * block := by
    rw [← hn, ← linear_divided (g := g) n.toNat]
    simp only [Geometry.linear, hsec, UInt32.toNat_div, UInt32.toNat_mod, Nat.add_sub_cancel]
  refine ⟨hvalid, hlinear, fun a ha => ?_⟩
  rcases List.mem_cons.mp ha with rfl | ha
  · omega
  · obtain rfl := List.mem_singleton.mp ha
    rw [hvalid.linear_succ]
    omega

/-- A request is for a block that is within its partition. -/
theorem rwHd_confined (h : d.Sane) {bDev b : UInt16} {nr : Fin d.nrHd} {sec head cyl : UInt32}
    (hr : d.rwHd bDev b = .request nr sec head cyl) :
    ∃ i : Fin 10, i.val = (minor bDev).toNat ∧ nr.val = i.val / 5 ∧
      Confined (d.hdInfo nr) (d.hd i) b.toNat ⟨cyl.toNat, head.toNat, sec.toNat⟩ := by
  unfold rwHd at hr
  dsimp only at hr
  split_ifs at hr with hdev hend
  rw [divl_of_pos (h.sect_pos _)] at hr
  dsimp only at hr
  rw [divl_of_pos (h.head_pos _)] at hr
  cases hr
  have hend := (block_le_iff b _).mp hend
  refine ⟨_, rfl, rfl, confined_divided (h.sect_pos _) (h.head_pos _) ?_ hend⟩
  have hlt := h.end_lt ⟨(minor bDev).toNat, by have := d.nrHd_le; omega⟩
  rw [UInt32.toNat_add, toNat_block, Nat.mod_eq_of_lt (by omega), Nat.add_comm]

/-- The tables that `hd_init` and `sys_setup` leave are as the driver needs them, when the drives
have sectors and the partitions have ends. -/
theorem Sane.setup {table : Fin d.nrHd → Fin 4 → Partition} (hsect : ∀ nr, 0 < (d.hdInfo nr).sect)
    (hhead : ∀ nr, 0 < (d.hdInfo nr).head)
    (htable : ∀ nr j, (table nr j).startSect.toNat + (table nr j).nrSects.toNat < 2 ^ 32)
    (hrest : ∀ i, (d.hd i).startSect.toNat + (d.hd i).nrSects.toNat < 2 ^ 32) :
    (d.hdInit.sysSetup table).Sane := by
  refine ⟨hsect, hhead, fun i => ?_⟩
  simp only [sysSetup, hdInit]
  split_ifs
  · exact htable _ _
  · rw [UInt32.toNat_zero, Nat.zero_add]
    exact UInt32.toNat_lt _
  · exact hrest i

/-- A sector of a transfer, its drive and its number. -/
theorem mem_sectors (h : d.Sane) {bDev b : UInt16} {x : Fin d.nrHd × Chs}
    (hx : x ∈ d.sectors bDev b) :
    ∃ i : Fin 10, i.val = (minor bDev).toNat ∧ x.1.val = i.val / 5 ∧
      (d.hdInfo x.1).linear x.2 < (d.hd i).startSect.toNat + (d.hd i).nrSects.toNat ∧
      ((d.hdInfo x.1).linear x.2 = (d.hd i).startSect.toNat + 2 * b.toNat ∨
        (d.hdInfo x.1).linear x.2 = (d.hd i).startSect.toNat + 2 * b.toNat + 1) := by
  unfold sectors at hx
  split at hx
  · rename_i nr sec head cyl hr
    obtain ⟨i, hi, hnr, hc⟩ := rwHd_confined h hr
    dsimp only at hx
    rcases List.mem_cons.mp hx with rfl | hx
    · exact ⟨i, hi, hnr, (hc.within _ (by simp)).2, .inl hc.linear⟩
    · obtain rfl := List.mem_singleton.mp hx
      refine ⟨i, hi, hnr, (hc.within _ (by simp)).2, .inr ?_⟩
      rw [hc.toValid.linear_succ, hc.linear]
  · cases hx
  · cases hx

/-- Disk addressing is exact and confined to the partition: a request of `rw_hd` is for the two
sectors of the block, which lie in its partition. So blocks of a partition do not overlap on the
disk, nor do blocks of disjoint partitions. -/
theorem confined_and_disjoint (h : d.Sane) :
    (∀ bDev b nr sec head cyl, d.rwHd bDev b = .request nr sec head cyl →
      ∃ i : Fin 10, i.val = (minor bDev).toNat ∧ nr.val = i.val / 5 ∧
        Confined (d.hdInfo nr) (d.hd i) b.toNat ⟨cyl.toNat, head.toNat, sec.toNat⟩) ∧
      (∀ bDev bDev' b b', minor bDev = minor bDev' → b ≠ b' →
        (d.sectors bDev b).Disjoint (d.sectors bDev' b')) ∧
      ∀ bDev bDev' b b', (∀ i j : Fin 10, i.val = (minor bDev).toNat →
          j.val = (minor bDev').toNat → d.Apart i j) →
        (d.sectors bDev b).Disjoint (d.sectors bDev' b') := by
  refine ⟨fun _ _ _ _ _ _ => rwHd_confined h, fun bDev bDev' b b' hdev hne x hx hx' => ?_,
    fun bDev bDev' b b' hapart x hx hx' => ?_⟩
  · obtain ⟨i, hi, -, -, hlinear⟩ := mem_sectors h hx
    obtain ⟨j, hj, -, -, hlinear'⟩ := mem_sectors h hx'
    obtain rfl : i = j := Fin.ext (by rw [hi, hj, hdev])
    exact hne (UInt16.toNat_inj.mp (by omega))
  · obtain ⟨i, hi, hnr, hend, hlinear⟩ := mem_sectors h hx
    obtain ⟨j, hj, hnr', hend', hlinear'⟩ := mem_sectors h hx'
    rcases hapart i j hi hj with hdrive | hbelow | habove
    · exact hdrive (hnr.symm.trans hnr')
    · omega
    · omega

/-- Two drives of 5 heads and 17 sectors, with four partitions each. -/
def twoDrives : Drives where
  nrHd := 2
  nrHd_le := le_rfl
  hdInfo _ := ⟨5, 17, 980⟩
  hd i := if i.val % 5 = 0 then ⟨0, 83300⟩ else ⟨20000 * (i.val % 5 - 1).toUInt32, 20000⟩

theorem confined_and_disjoint_twoDrives :
    (∃ i : Fin 10, i.val = (minor 0x307).toNat ∧
      Confined (twoDrives.hdInfo ⟨1, by decide⟩) (twoDrives.hd i) 3 ⟨235, 1, 15⟩) ∧
      (twoDrives.sectors 0x307 3).Disjoint (twoDrives.sectors 0x307 4) ∧
      (twoDrives.sectors 0x307 3).Disjoint (twoDrives.sectors 0x306 3) := by
  have hsane : twoDrives.Sane := ⟨by decide, by decide, by decide⟩
  obtain ⟨hexact, hblocks, hparts⟩ := confined_and_disjoint hsane
  refine ⟨?_, hblocks _ _ _ _ rfl (by decide), hparts _ _ _ _ ?_⟩
  · obtain ⟨i, hi, -, hc⟩ := hexact 0x307 3 ⟨1, by decide⟩ 15 1 235 (by decide)
    exact ⟨i, hi, hc⟩
  · intro i j hi hj
    obtain rfl : i = 7 := Fin.ext hi
    obtain rfl : j = 6 := Fin.ext hj
    exact .inr (.inr (by decide))

end Drives

end Linux001.Hd
