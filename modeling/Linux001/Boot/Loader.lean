import Linux001.Lib.Overlay
import Linux001.Lib.Runs
import Mathlib.Tactic.Ring

/-!
# Loading the system

The model of `boot/boot.s` up to the switch to protected mode, and of `tools/build.c`. The loader
moves itself to 0x90000, reads the diskette track by track into the memory from 0x10000 on, and
moves what it has read to address 0. A read of the BIOS must stay within one track, and must not
cross a 64 kB boundary, since the DMA controller cannot. A read that fails is made again.

Registers and variables are 16 bits wide. The variables `sread`, `head` and `track` are words of the
sector of the loader, which nothing else looks at until the loader has read all. The number of
sectors on a track and the size of the system are fixed when the loader is assembled, and are
parameters. The data of the BIOS below 0x500 are left out.

## Main definitions

* `Disk`: a diskette, and its sectors by track and head.
* `Loader`: the registers and variables of `read_it`, and the memory.
* `Loader.Step`: one call of the BIOS, which may fail, and the code up to the next one.
* `Loader.Inv`: the invariant of the loop.
* `doMove`: the move to address 0.
* `build`: the image that is written to the diskette.

## Main results

* `Loader.requests_valid`: every read is valid, and there are not more than 1024 without an error.
* `kernel_in_place`: the kernel that has been linked is in memory from address 0 on.
-/

namespace Linux001.Boot

/-- The physical memory. -/
abbrev Mem := ℕ → UInt8

/-- The bytes of a diskette, sector by sector, with `sectors` to a track: 9, 15 or 18 in
`boot.s`. -/
structure Disk where
  sectors : ℕ
  byte : ℕ → UInt8
  le_sectors : 8 ≤ sectors
  sectors_le : sectors ≤ 63

/-- Where a sector of a track starts. The sectors of a track are numbered from 1. -/
def Disk.offset (d : Disk) (track head sector : ℕ) : ℕ :=
  ((track * 2 + head) * d.sectors + (sector - 1)) * 512

/-- What `int 0x13` is asked to read: `al`, `ch`, `dh`, `cl` and `es:bx`. -/
structure Request where
  count : ℕ
  track : ℕ
  head : ℕ
  sector : ℕ
  buffer : ℕ

namespace Request

/-- The bytes that are read. -/
def size (r : Request) : ℕ := r.count * 512

/-- The sectors are on one track, and the buffer is in one 64 kB page, below 0x90000. -/
structure Valid (d : Disk) (r : Request) : Prop where
  pos : 0 < r.count
  head : r.head < 2
  sector : 0 < r.sector
  onTrack : r.sector - 1 + r.count ≤ d.sectors
  onPage : r.buffer / 65536 = (r.buffer + r.size - 1) / 65536
  low : 0x10000 ≤ r.buffer
  high : r.buffer + r.size ≤ 0x90000

/-- What a read without an error does. -/
def perform (d : Disk) (r : Request) (mem : Mem) : Mem :=
  overlay mem r.buffer r.size fun i => d.byte (d.offset r.track r.head r.sector + i)

end Request

/-- The registers `es` and `bx`, the variables `sread`, `head` and `track`, and the memory. -/
structure Loader where
  es : ℕ
  bx : ℕ
  sread : ℕ
  head : ℕ
  track : ℕ
  mem : Mem

namespace Loader

/-- `SYSSEG`. -/
def SYSSEG : ℕ := 0x1000

/-- The state at `rp_read`, when `read_it` has been called. -/
def start (mem : Mem) : Loader := ⟨SYSSEG, 0, 1, 0, 0, mem⟩

variable (d : Disk) (syssize : ℕ) (s : Loader)

/-- The number of sectors that are read next, as computed up to `ok2_read`: those that are left of
the track, or as many as fit in the segment. -/
def count : ℕ :=
  let ax := (d.sectors + 65536 - s.sread) % 65536
  let cx := ax * 512 % 65536
  if cx + s.bx < 65536 ∨ (cx + s.bx) % 65536 = 0 then ax
  else (65536 - s.bx) % 65536 / 512

/-- The registers at `int 0x13` in `read_track`. -/
def request : Request where
  count := s.count d % 256
  track := s.track % 256
  head := s.head % 2
  sector := (s.sread + 1) % 256
  buffer := s.es * 16 + s.bx

/-- `inc track` and the changes of `head` and `sread`, from `ok2_read` to `ok3_read`, after `n`
sectors. -/
def turn (n : ℕ) : Loader :=
  let ax := (n + s.sread) % 65536
  if ax = d.sectors then
    let head := (1 + 65536 - s.head) % 65536
    if head = 0 then { s with sread := 0, head := head, track := (s.track + 1) % 65536 }
    else { s with sread := 0, head := head }
  else { s with sread := ax }

/-- The changes of `bx` and `es` from `ok3_read` on, after `n` sectors. -/
def advance (n : ℕ) : Loader :=
  let cx := n * 512 % 65536
  if cx + s.bx < 65536 then { s with bx := cx + s.bx }
  else { s with es := (s.es + 0x1000) % 65536, bx := 0 }

/-- The state at the next `rp_read`. -/
def next : Loader :=
  ({ s with mem := (s.request d).perform d s.mem }.turn d (s.count d)).advance (s.count d)

/-- The comparison with `ENDSEG` at `rp_read`. -/
def Done : Prop := SYSSEG + syssize ≤ s.es

instance : Decidable (s.Done syssize) := inferInstanceAs (Decidable (_ ≤ _))

/-- A call of the BIOS at `read_track`. When it fails, it may have changed the buffer, and the
same read is made again. -/
inductive Step : Loader → Request × Bool → Loader → Prop
  | read {s : Loader} (h : ¬s.Done syssize) : Step s (s.request d, true) (s.next d)
  | failed {s : Loader} (h : ¬s.Done syssize) (garbage : ℕ → UInt8) :
      Step s (s.request d, false)
        { s with mem := overlay s.mem (s.request d).buffer (s.request d).size garbage }

/-- Where the next bytes go. -/
def address : ℕ := s.es * 16 + s.bx

/-- The invariant at `rp_read`: the variables say where the next sector is, and what has been read
is in memory. -/
structure Inv (mem : Mem) : Prop where
  segment : ∃ k ≤ 8, s.es = 0x1000 * (k + 1)
  bx_lt : s.bx < 65536
  bx_dvd : 512 ∣ s.bx
  sread : s.sread < d.sectors
  head : s.head < 2
  position : ((s.track * 2 + s.head) * d.sectors + s.sread) * 512 + 0x10000 = 512 + s.address
  done : s.Done syssize → s.bx = 0
  loaded : ∀ i, 0x10000 + i < s.address → s.mem (0x10000 + i) = d.byte (512 + i)
  kept : ∀ a, a < 0x10000 ∨ 0x90000 ≤ a → s.mem a = mem a

variable {d : Disk} {syssize : ℕ} {s s' : Loader} {mem : Mem}

namespace Inv

/-- A segment in which there is still something to read. -/
theorem es_le (h : s.Inv d syssize mem) (hsize : syssize ≤ 0x8000) (hd : ¬s.Done syssize) :
    ∃ k < 8, s.es = 0x1000 * (k + 1) := by
  obtain ⟨k, -, hk⟩ := h.segment
  rw [Done, SYSSEG] at hd
  exact ⟨k, by omega, hk⟩

/-- At least one sector is read, as many as there are left on the track and in the segment at
most. -/
theorem count_spec (h : s.Inv d syssize mem) : 0 < s.count d ∧
    s.sread + s.count d ≤ d.sectors ∧ s.bx + s.count d * 512 ≤ 65536 := by
  have hge := d.le_sectors
  have hle := d.sectors_le
  have hsread := h.sread
  have hbx := h.bx_lt
  obtain ⟨c, hc⟩ := h.bx_dvd
  have hax : (d.sectors + 65536 - s.sread) % 65536 = d.sectors - s.sread := by omega
  have hcx : (d.sectors - s.sread) * 512 % 65536 = (d.sectors - s.sread) * 512 := by omega
  rw [count, hax, hcx]
  split_ifs with hfit
  · omega
  · omega

/-- The number of the track fits in a byte. -/
theorem track_lt (h : s.Inv d syssize mem) (hsize : syssize ≤ 0x8000) (hd : ¬s.Done syssize) :
    s.track < 256 := by
  have hbx := h.bx_lt
  have hposition := h.position
  obtain ⟨k, hk, hes⟩ := h.es_le hsize hd
  have haddress : s.address = s.es * 16 + s.bx := rfl
  have htracks : s.track * 2 * 8 ≤ (s.track * 2 + s.head) * d.sectors :=
    Nat.mul_le_mul (Nat.le_add_right _ _) d.le_sectors
  omega

theorem request_eq (h : s.Inv d syssize mem) (hsize : syssize ≤ 0x8000) (hd : ¬s.Done syssize) :
    s.request d = ⟨s.count d, s.track, s.head, s.sread + 1, s.es * 16 + s.bx⟩ := by
  have hle := d.sectors_le
  have hsread := h.sread
  obtain ⟨hpos, htrack, hpage⟩ := h.count_spec
  have hcount : s.count d % 256 = s.count d := Nat.mod_eq_of_lt (by omega)
  have htrack' : s.track % 256 = s.track := Nat.mod_eq_of_lt (h.track_lt hsize hd)
  have hhead' : s.head % 2 = s.head := Nat.mod_eq_of_lt h.head
  have hsector : (s.sread + 1) % 256 = s.sread + 1 := Nat.mod_eq_of_lt (by omega)
  rw [request, hcount, htrack', hhead', hsector]

theorem request_valid (h : s.Inv d syssize mem) (hsize : syssize ≤ 0x8000)
    (hd : ¬s.Done syssize) : (s.request d).Valid d := by
  obtain ⟨hpos, htrack, hpage⟩ := h.count_spec
  obtain ⟨k, hk, hes⟩ := h.es_le hsize hd
  have hbx := h.bx_lt
  rw [h.request_eq hsize hd]
  refine ⟨hpos, h.head, Nat.succ_pos _, ?_, ?_, ?_, ?_⟩
  all_goals
    dsimp only [Request.size]
    omega

end Inv

/-- What `turn` does to the position on the diskette. -/
theorem turn_position (hhead : s.head < 2) {n : ℕ} (hn : s.sread + n ≤ d.sectors)
    (htrack : s.track < 256) :
    (s.turn d n).sread < d.sectors ∧ (s.turn d n).head < 2 ∧
      ((s.turn d n).track * 2 + (s.turn d n).head) * d.sectors + (s.turn d n).sread =
        (s.track * 2 + s.head) * d.sectors + s.sread + n := by
  have hge := d.le_sectors
  have hle := d.sectors_le
  have hax : (n + s.sread) % 65536 = n + s.sread := by omega
  simp only [turn, hax]
  split_ifs with hfull hhead0
  · -- The second side has been read.
    have h1 : s.head = 1 := by omega
    have htrack' : (s.track + 1) % 65536 = s.track + 1 := by omega
    have hswap : (1 + 65536 - 1) % 65536 = 0 := by norm_num
    simp only [h1, htrack', hswap]
    refine ⟨by omega, by omega, ?_⟩
    have hsum : ((s.track + 1) * 2 + 0) * d.sectors =
        (s.track * 2 + 1) * d.sectors + d.sectors := by ring
    omega
  · have h0 : s.head = 0 := by omega
    have hswap : (1 + 65536 - 0) % 65536 = 1 := by norm_num
    simp only [h0, hswap]
    refine ⟨by omega, by omega, ?_⟩
    have hsum : (s.track * 2 + 1) * d.sectors = (s.track * 2 + 0) * d.sectors + d.sectors := by ring
    omega
  · dsimp only
    exact ⟨by omega, hhead, by omega⟩

theorem turn_es (s : Loader) (d : Disk) (n : ℕ) :
    (s.turn d n).es = s.es ∧ (s.turn d n).bx = s.bx ∧ (s.turn d n).mem = s.mem := by
  rw [turn]
  dsimp only
  split_ifs <;> exact ⟨rfl, rfl, rfl⟩

theorem advance_position (s : Loader) (n : ℕ) : (s.advance n).sread = s.sread ∧
    (s.advance n).head = s.head ∧ (s.advance n).track = s.track ∧
      (s.advance n).mem = s.mem := by
  rw [advance]
  split_ifs <;> exact ⟨rfl, rfl, rfl, rfl⟩

/-- The next bytes go after the ones that have been read, and the segment is changed when it is
full. -/
theorem advance_address {n k : ℕ} (hk : k < 8) (hes : s.es = 0x1000 * (k + 1)) (hn : n < 128)
    (hbx : s.bx < 65536) (hpage : s.bx + n * 512 ≤ 65536) :
    (s.advance n).address = s.address + n * 512 ∧ (s.advance n).bx < 65536 ∧
      ((s.advance n).bx = s.bx + n * 512 ∧ (s.advance n).es = s.es ∨
        (s.advance n).bx = 0 ∧ (s.advance n).es = 0x1000 * (k + 2)) := by
  have hcx : n * 512 % 65536 = n * 512 := by omega
  by_cases hfit : n * 512 + s.bx < 65536
  · rw [advance, hcx, if_pos hfit]
    refine ⟨?_, hfit, .inl ⟨Nat.add_comm .., rfl⟩⟩
    dsimp only [address]
    omega
  · have hes' : (s.es + 0x1000) % 65536 = 0x1000 * (k + 2) := by omega
    rw [advance, hcx, if_neg hfit, hes']
    refine ⟨?_, Nat.zero_lt_succ _, .inr ⟨rfl, rfl⟩⟩
    dsimp only [address]
    omega

namespace Inv

theorem init (d : Disk) (syssize : ℕ) (mem : Mem) : (Loader.start mem).Inv d syssize mem where
  segment := ⟨0, by decide, rfl⟩
  bx_lt := Nat.zero_lt_succ _
  bx_dvd := dvd_zero _
  sread := lt_of_lt_of_le (by decide : 1 < 8) d.le_sectors
  head := (by decide : 0 < 2)
  position := by
    dsimp only [Loader.start, address, SYSSEG]
    omega
  done _ := rfl
  loaded i hi := by
    dsimp only [Loader.start, address, SYSSEG] at hi
    omega
  kept _ _ := rfl

/-- A read that fails. -/
theorem failed (h : s.Inv d syssize mem) (hsize : syssize ≤ 0x8000) (hd : ¬s.Done syssize)
    (garbage : ℕ → UInt8) : Loader.Inv d syssize { s with
      mem := overlay s.mem (s.request d).buffer (s.request d).size garbage } mem := by
  have hvalid := h.request_valid hsize hd
  have hbuffer : (s.request d).buffer = s.address := rfl
  have hlow := hvalid.low
  have hhigh := hvalid.high
  refine ⟨h.segment, h.bx_lt, h.bx_dvd, h.sread, h.head, h.position, h.done, fun i hi => ?_,
    fun a ha => ?_⟩
  · have hi' : 0x10000 + i < s.address := hi
    exact (overlay_of_notMem (by omega)).trans (h.loaded i hi)
  · exact (overlay_of_notMem (by omega)).trans (h.kept a ha)

/-- A read. -/
theorem next (h : s.Inv d syssize mem) (hsize : syssize ≤ 0x8000) (hd : ¬s.Done syssize) :
    (s.next d).Inv d syssize mem ∧ (s.next d).address = s.address + s.count d * 512 := by
  have hvalid := h.request_valid hsize hd
  have hreq := h.request_eq hsize hd
  obtain ⟨hpos, htrack, hpage⟩ := h.count_spec
  obtain ⟨k, hk, hes⟩ := h.es_le hsize hd
  obtain ⟨c, hc⟩ := h.bx_dvd
  have hle := d.sectors_le
  set n := s.count d with hn
  set mem' := (s.request d).perform d s.mem with hmem'
  set s₁ : Loader := { s with mem := mem' } with hs₁
  obtain ⟨hes₂, hbx₂, hmem₂⟩ := turn_es s₁ d n
  set s₂ := s₁.turn d n with hs₂
  have hturn : s₂.sread < d.sectors ∧ s₂.head < 2 ∧
      (s₂.track * 2 + s₂.head) * d.sectors + s₂.sread =
        (s.track * 2 + s.head) * d.sectors + s.sread + n :=
    turn_position (s := s₁) h.head htrack (h.track_lt hsize hd)
  obtain ⟨hsread, hhead, hposition⟩ := hturn
  obtain ⟨hsread₃, hhead₃, htrack₃, hmem₃⟩ := advance_position s₂ n
  have haddress₂ : s₂.address = s.address := by
    rw [address, hes₂, hbx₂, address]
  have hadvance : (s₂.advance n).address = s₂.address + n * 512 ∧ (s₂.advance n).bx < 65536 ∧
      ((s₂.advance n).bx = s₂.bx + n * 512 ∧ (s₂.advance n).es = s₂.es ∨
        (s₂.advance n).bx = 0 ∧ (s₂.advance n).es = 0x1000 * (k + 2)) :=
    advance_address hk (hes₂.trans hes) (by omega) (hbx₂ ▸ h.bx_lt) (hbx₂ ▸ hpage)
  obtain ⟨haddress₃, hbx₃, hwhere⟩ := hadvance
  rw [haddress₂] at haddress₃
  have hnext : s.next d = s₂.advance n := rfl
  have hmem : (s.next d).mem = mem' := hnext ▸ hmem₃.trans hmem₂
  have hold := h.position
  rw [hnext] at hmem ⊢
  refine ⟨⟨?_, hbx₃, ?_, hsread₃ ▸ hsread, hhead₃ ▸ hhead, ?_, fun hdone => ?_, fun i hi => ?_,
    fun a ha => ?_⟩, haddress₃⟩
  · rcases hwhere with ⟨-, hes₃⟩ | ⟨-, hes₃⟩
    · exact ⟨k, by omega, hes₃.trans (hes₂.trans hes)⟩
    · exact ⟨k + 1, by omega, hes₃⟩
  · rcases hwhere with ⟨hbx, -⟩ | ⟨hbx, -⟩
    · rw [hbx, hbx₂]
      exact (Nat.dvd_add_right h.bx_dvd).mpr (Dvd.intro_left n rfl)
    · exact hbx ▸ dvd_zero _
  · rw [htrack₃, hhead₃, hsread₃, hposition, haddress₃, add_mul, Nat.add_right_comm, hold,
      Nat.add_assoc]
  · rcases hwhere with ⟨-, hes₃⟩ | ⟨hbx, -⟩
    · rw [Done, hes₃, hes₂] at hdone
      exact absurd hdone hd
    · exact hbx
  · rw [haddress₃] at hi
    rw [hmem, hmem', Request.perform, hreq]
    dsimp only [Request.size, Disk.offset]
    have haddress : s.address = s.es * 16 + s.bx := rfl
    rw [← haddress]
    by_cases hread : 0x10000 + i < s.address
    · rw [overlay_of_notMem (.inl hread)]
      exact h.loaded i hread
    · rw [overlay_of_mem (not_lt.mp hread) hi, Nat.add_sub_cancel]
      exact congrArg d.byte (by omega)
  · have hlow := hvalid.low
    have hhigh := hvalid.high
    rw [hmem, hmem', Request.perform, overlay_of_notMem (by omega)]
    exact h.kept a ha

/-- **Step lemma.** -/
theorem step (h : s.Inv d syssize mem) (hsize : syssize ≤ 0x8000) {e : Request × Bool}
    (hstep : Step d syssize s e s') : s'.Inv d syssize mem ∧ e.1.Valid d ∧
      s'.address = s.address + if e.2 then e.1.size else 0 := by
  cases hstep with
  | read hd =>
    obtain ⟨hnext, haddress⟩ := h.next hsize hd
    refine ⟨hnext, h.request_valid hsize hd, ?_⟩
    rw [haddress, if_pos rfl, h.request_eq hsize hd]
    rfl
  | failed hd garbage => exact ⟨h.failed hsize hd garbage, h.request_valid hsize hd, rfl⟩

end Inv

variable {mem : Mem} {es : List (Request × Bool)}

/-- A run keeps the invariant, and its reads add up. -/
theorem Inv.run (hsize : syssize ≤ 0x8000) (h : Runs (Step d syssize) (start mem) es s) :
    s.Inv d syssize mem ∧ (∀ e ∈ es, e.1.Valid d) ∧
      0x10000 + 512 * es.countP (·.2) ≤ s.address := by
  induction h with
  | nil =>
    refine ⟨.init d syssize mem, nofun, ?_⟩
    rw [List.countP_nil]
    dsimp only [start, address, SYSSEG]
    omega
  | @cons es e s s' _ hstep ih =>
    obtain ⟨hinv, hvalid, hcount⟩ := ih
    obtain ⟨hinv', hvalid', haddress⟩ := hinv.step hsize hstep
    refine ⟨hinv', fun e' he' => ?_, ?_⟩
    · rcases List.mem_cons.mp he' with rfl | he'
      · exact hvalid'
      · exact hvalid e' he'
    · have hpos := hvalid'.pos
      rw [haddress, List.countP_cons, Request.size]
      split_ifs <;> omega

/-- **Every read is valid.** In every run of the loader, whichever reads fail, each read is of
sectors of one track into one 64 kB page between 0x10000 and 0x90000. There are at most 1024 reads
without an error. -/
theorem requests_valid (hsize : syssize ≤ 0x8000)
    (h : Runs (Step d syssize) (start mem) es s) :
    (∀ e ∈ es, e.1.Valid d) ∧ es.countP (·.2) ≤ 1024 := by
  obtain ⟨hinv, hvalid, hcount⟩ := Inv.run hsize h
  refine ⟨hvalid, ?_⟩
  obtain ⟨k, hk, hes⟩ := hinv.segment
  have hbx := hinv.bx_lt
  have haddress : s.address = s.es * 16 + s.bx := rfl
  by_cases hd : s.Done syssize
  · rw [hinv.done hd] at haddress
    omega
  · obtain ⟨k, hk, hes⟩ := hinv.es_le hsize hd
    omega

/-- Unless reads fail for ever, the loader arrives. -/
theorem Inv.exists_done (h : s.Inv d syssize mem) (hsize : syssize ≤ 0x8000) :
    ∃ es s', Runs (Step d syssize) s es s' ∧ s'.Done syssize := by
  have hturns (n : ℕ) : ∀ s, s.Inv d syssize mem → 0x90000 ≤ s.address + 512 * n →
      ∃ es s', Runs (Step d syssize) s es s' ∧ s'.Done syssize := by
    induction n with
    | zero =>
      intro s h hn
      refine ⟨[], s, .nil, ?_⟩
      by_contra hd
      have hvalid := h.request_valid hsize hd
      have hhigh := hvalid.high
      have hpos := hvalid.pos
      have hbuffer : (s.request d).buffer = s.address := rfl
      rw [Request.size] at hhigh
      omega
    | succ n ih =>
      intro s h hn
      by_cases hd : s.Done syssize
      · exact ⟨[], s, .nil, hd⟩
      · obtain ⟨hnext, haddress⟩ := h.next hsize hd
        have hpos := h.count_spec.1
        obtain ⟨es, s', hrun, hdone⟩ := ih (s.next d) hnext (by omega)
        exact ⟨_, s', (Runs.nil.cons (.read hd)).append hrun, hdone⟩
  exact hturns 0x90000 s h (by omega)

/-- A diskette with zeros. -/
def blank : Disk := ⟨18, fun _ => 0, by decide, by decide⟩

/-- The first read takes the rest of the first track. -/
theorem requests_valid_first : ∃ s, Runs (Step blank 0x3000) (start fun _ => 0)
      [((start fun _ => 0).request blank, true)] s ∧
    ((start fun _ => 0).request blank).Valid blank := by
  have hd : ¬(start fun _ => 0).Done 0x3000 := by
    dsimp only [Done, start, SYSSEG]
    omega
  have hrun : Runs (Step blank 0x3000) _ _ _ := Runs.nil.cons (.read hd)
  have hsize : 0x3000 ≤ 0x8000 := by omega
  obtain ⟨hvalid, -⟩ := requests_valid hsize hrun
  exact ⟨_, hrun, hvalid ((start fun _ => 0).request blank, true) List.mem_cons_self⟩

end Loader

/-! ### Moving -/

/-- `rep movsw` with `n` words, upwards. -/
def movsw (mem : Mem) (src dst : ℕ) : ℕ → Mem
  | 0 => mem
  | n + 1 =>
    let m := movsw mem src dst n
    Function.update (Function.update m (dst + 2 * n) (m (src + 2 * n))) (dst + 2 * n + 1)
      (m (src + 2 * n + 1))

/-- A move to a place that does not overlap. -/
theorem movsw_eq {mem : Mem} {src dst n : ℕ} (h : dst + 2 * n ≤ src ∨ src + 2 * n ≤ dst) :
    movsw mem src dst n = overlay mem dst (2 * n) fun i => mem (src + i) := by
  induction n with
  | zero => exact (overlay_zero ..).symm
  | succ n ih =>
    have hlow : overlay mem dst (2 * n) (fun i => mem (src + i)) (src + 2 * n) =
        mem (src + 2 * n) := overlay_of_notMem (by omega)
    have hhigh : overlay mem dst (2 * n) (fun i => mem (src + i)) (src + 2 * n + 1) =
        mem (src + (2 * n + 1)) := overlay_of_notMem (by omega)
    rw [movsw, ih (by omega), hlow, hhigh, Nat.add_assoc dst]
    have hfirst := overlay_succ mem (fun i => mem (src + i)) dst (2 * n)
    have hsecond := overlay_succ mem (fun i => mem (src + i)) dst (2 * n + 1)
    rw [← hfirst] at hsecond
    exact hsecond

/-- The start of `boot.s`: the loader moves itself. -/
def moveLoader (mem : Mem) : Mem := movsw mem 0x7c00 0x90000 256

/-- `mov [510],dx`, with the column and the row of the cursor. -/
def saveCursor (mem : Mem) (column row : UInt8) : Mem :=
  Function.update (Function.update mem (0x90000 + 510) column) (0x90000 + 511) row

/-- The loop `do_move`, with `ax`. -/
def doMove : ℕ → ℕ → Mem → Option Mem
  | 0, _, _ => none
  | fuel + 1, es, mem =>
    let ax := (es + 0x1000) % 65536
    if ax = 0x9000 then some mem
    else doMove fuel ax (movsw mem (ax * 16) (es * 16) 0x8000)

/-- `do_move` has 8 turns and moves 512 kB. -/
theorem doMove_eq (mem : Mem) :
    doMove 9 0 mem = some (overlay mem 0 0x80000 fun i => mem (0x10000 + i)) := by
  have hturn (left : ℕ) : left ≤ 8 →
      doMove (left + 1) (0x1000 * (8 - left))
        (overlay mem 0 (0x10000 * (8 - left)) fun i => mem (0x10000 + i)) =
          some (overlay mem 0 0x80000 fun i => mem (0x10000 + i)) := by
    induction left with
    | zero => exact fun _ => rfl
    | succ left ih =>
      intro hleft
      set k := 8 - (left + 1) with hk
      have hnext : 8 - left = k + 1 := by omega
      have hax : (0x1000 * k + 0x1000) % 65536 = 0x1000 * (k + 1) := by omega
      have hlast : 0x1000 * (k + 1) ≠ 0x9000 := by omega
      rw [doMove, hax, if_neg hlast, ← ih (by omega), hnext, movsw_eq (by omega)]
      have hlen : 0x10000 * (k + 1) = 0x10000 * k + 2 * 0x8000 := by omega
      have hdst : 0x1000 * k * 16 = 0 + 0x10000 * k := by omega
      have hsource : (fun i => overlay mem 0 (0x10000 * k) (fun i => mem (0x10000 + i))
          (0x1000 * (k + 1) * 16 + i)) = fun i => mem (0x10000 + (0x10000 * k + i)) := by
        funext i
        rw [overlay_of_notMem (by omega)]
        exact congrArg mem (by omega)
      rw [hsource, hdst, hlen, overlay_add]
  have hall := hturn 8 le_rfl
  rw [Nat.sub_self, Nat.mul_zero, overlay_zero] at hall
  exact hall

/-! ### The image -/

/-- `((long *) buf)[k]`. -/
def long (buf : List UInt8) (k : ℕ) : ℕ :=
  ((List.range 4).map fun i => (buf.getD (4 * k + i) 0).toNat * 256 ^ i).sum

/-- The boot sector that `build` writes, from the file `boot`. The buffer has its text, and what is
left of the header and zeros behind it. -/
def bootSector (boot : List UInt8) : Option (List UInt8) :=
  let header := boot.take 32
  if header.length ≠ 32 ∨ long header 0 ≠ 0x04100301 ∨ long header 1 ≠ 32 ∨ long header 3 ≠ 0 ∨
      long header 4 ≠ 0 ∨ long header 5 ≠ 0 ∨ long header 7 ≠ 0 then none
  else
    let text := (boot.drop 32).take 1024
    let buf := text ++ (header ++ List.replicate (1024 - 32) 0).drop text.length
    if 510 < text.length then none else some (buf.take 510 ++ [0x55, 0xAA])

/-- `build boot system`: the image, unless it dies. -/
def build (boot system : List UInt8) : Option (List UInt8) :=
  (bootSector boot).bind fun sector =>
    let header := system.take 1024
    if header.length ≠ 1024 ∨ long header 5 ≠ 0 then none else some (sector ++ system.drop 1024)

/-- `SYSSIZE`, as the makefile computes it from the length of `tools/system`. -/
def syssizeOf (system : List UInt8) : ℕ := (system.length + 15) / 16

theorem length_bootSector {boot sector : List UInt8} (h : bootSector boot = some sector) :
    sector.length = 512 := by
  rw [bootSector] at h
  dsimp only at h
  split_ifs at h with hheader htext
  have hlen : (boot.take 32).length = 32 := by
    by_contra hne
    exact hheader (.inl hne)
  rw [← Option.some.inj h, List.length_append, List.length_take, List.length_append,
    List.length_drop, List.length_append, hlen, List.length_replicate]
  simp only [List.length_cons, List.length_nil]
  omega

/-- The image is the boot sector and the system without its header. -/
theorem build_eq {boot system image : List UInt8} (h : build boot system = some image) :
    ∃ sector, sector.length = 512 ∧ image = sector ++ system.drop 1024 := by
  obtain ⟨sector, hsector, h⟩ := Option.bind_eq_some_iff.mp h
  dsimp only at h
  split_ifs at h
  exact ⟨sector, length_bootSector hsector, (Option.some.inj h).symm⟩

/-! ### The kernel in memory -/

/-- The memory with the variables of `read_it`, which are in the sector of the loader from the
offset `vars` on. -/
def Loader.stored (vars : ℕ) (s : Loader) : Mem :=
  overlay s.mem (0x90000 + vars) 6 fun i =>
    UInt8.ofNat ([s.sread, s.head, s.track].getD (i / 2) 0 / 256 ^ (i % 2))

/-- The state when `boot.s` switches to protected mode, after the BIOS has loaded the first sector
of the diskette at 0x7c00: the loader has run to its end. -/
structure Booted (d : Disk) (syssize vars : ℕ) (mem : Mem) (column row : UInt8) (m : Mem) :
    Prop where
  first : ∀ i < 512, mem (0x7c00 + i) = d.byte i
  run : ∃ es s, Runs (Loader.Step d syssize) (Loader.start (moveLoader mem)) es s ∧
    s.Done syssize ∧ doMove 9 0 (saveCursor (s.stored vars) column row) = some m

/-- What has been read is at address 0, the loader is at 0x90000, except for its variables, and the
position of the cursor is behind it. -/
theorem Booted.spec {d : Disk} {syssize vars : ℕ} {mem m : Mem} {column row : UInt8}
    (h : Booted d syssize vars mem column row m) (hsize : syssize ≤ 0x8000) :
    (∀ i < syssize * 16, m i = d.byte (512 + i)) ∧
      (∀ i < 510, i < vars ∨ vars + 6 ≤ i → m (0x90000 + i) = d.byte i) ∧
      m (0x90000 + 510) = column ∧ m (0x90000 + 511) = row := by
  obtain ⟨es, s, hrun, hdone, hmove⟩ := h.run
  obtain ⟨hinv, -, -⟩ := Loader.Inv.run hsize hrun
  rw [doMove_eq] at hmove
  obtain rfl := Option.some.inj hmove
  have hcursor (a : ℕ) (ha : a < 0x90000 + 510)
      (hvars : a < 0x90000 + vars ∨ 0x90000 + vars + 6 ≤ a) :
      saveCursor (s.stored vars) column row a = s.mem a := by
    rw [saveCursor, Function.update_of_ne (by omega), Function.update_of_ne (by omega),
      Loader.stored, overlay_of_notMem hvars]
  have hend : 0x10000 + syssize * 16 ≤ s.address := by
    have haddress : s.address = s.es * 16 + s.bx := rfl
    rw [Loader.Done, Loader.SYSSEG] at hdone
    omega
  refine ⟨fun i hi => ?_, fun i hi hvars => ?_, ?_, ?_⟩
  · rw [overlay_of_mem (by omega) (by omega), Nat.sub_zero, hcursor _ (by omega) (by omega)]
    exact hinv.loaded i (by omega)
  · rw [overlay_of_notMem (by omega), hcursor _ (by omega) (by omega), hinv.kept _ (by omega),
      moveLoader, movsw_eq (by omega), overlay_of_mem (by omega) (by omega),
      Nat.add_sub_cancel_left]
    exact h.first i (by omega)
  · rw [overlay_of_notMem (by omega), saveCursor, Function.update_of_ne (by omega),
      Function.update_self]
  · rw [overlay_of_notMem (by omega), saveCursor, Function.update_self]

/-- **The kernel is in place.** A diskette starts with an image that `build` has made of a linked
kernel of up to 512 kB. Whichever reads fail on the way, when the loader switches to protected mode
the kernel without its header is in memory from address 0 on, and of the loader only the variables
have been overwritten. -/
theorem kernel_in_place {d : Disk} {boot system image : List UInt8} {mem m : Mem} {vars : ℕ}
    {column row : UInt8} (hbuild : build boot system = some image)
    (hdisk : ∀ i (hi : i < image.length), d.byte i = image[i])
    (hsize : system.length ≤ 0x80000) (h : Booted d (syssizeOf system) vars mem column row m) :
    (∀ i (hi : 1024 + i < system.length), m i = system[1024 + i]) ∧
      ∀ i < 510, i < vars ∨ vars + 6 ≤ i → m (0x90000 + i) = d.byte i := by
  have hle : syssizeOf system ≤ 0x8000 := by
    rw [syssizeOf]
    omega
  obtain ⟨hkernel, hloader, -⟩ := h.spec hle
  obtain ⟨sector, hlen, rfl⟩ := build_eq hbuild
  refine ⟨fun i hi => ?_, hloader⟩
  have hlt : 512 + i < (sector ++ system.drop 1024).length := by
    rw [List.length_append, List.length_drop, hlen]
    omega
  have hin : i < syssizeOf system * 16 := by
    rw [syssizeOf]
    omega
  rw [hkernel i hin, hdisk _ hlt, List.getElem_append_right (by omega), List.getElem_drop]
  congr 1
  omega

/-- The BIOS loads the first sector, and the loader arrives. -/
theorem exists_booted (d : Disk) {syssize : ℕ} (hsize : syssize ≤ 0x8000) (vars : ℕ)
    (column row : UInt8) :
    ∃ m, Booted d syssize vars (fun a => d.byte (a - 0x7c00)) column row m := by
  obtain ⟨es, s, hrun, hdone⟩ := (Loader.Inv.init d syssize
    (moveLoader fun a => d.byte (a - 0x7c00))).exists_done hsize
  refine ⟨_, fun i _ => ?_, es, s, hrun, hdone, doMove_eq _⟩
  rw [Nat.add_sub_cancel_left]

/-- A loader of one instruction, with the three variables behind it. -/
def smallBoot : List UInt8 :=
  [0x01, 0x03, 0x10, 0x04, 32, 0, 0, 0] ++ List.replicate 24 0 ++ [0xeb, 0xfe, 1, 0, 0, 0, 0, 0]

/-- A kernel of two instructions. -/
def smallSystem : List UInt8 := List.replicate 1024 0 ++ [0xfa, 0xeb, 0xfd]

/-- The small kernel is loaded. -/
theorem kernel_in_place_small : ∃ (image : List UInt8) (m : Mem),
    build smallBoot smallSystem = some image ∧
    (∀ i (hi : 1024 + i < smallSystem.length), m i = smallSystem[1024 + i]) ∧
      ∀ i < 510, i < 2 ∨ 2 + 6 ≤ i → m (0x90000 + i) = image.getD i 0 := by
  have hsome : (build smallBoot smallSystem).isSome = true := by decide +kernel
  obtain ⟨image, hbuild⟩ := Option.isSome_iff_exists.mp hsome
  have hlen : smallSystem.length = 1027 := by
    rw [smallSystem, List.length_append, List.length_replicate]
    rfl
  obtain ⟨m, hm⟩ := exists_booted ⟨18, fun i => image.getD i 0, by decide, by decide⟩
    (by rw [syssizeOf, hlen]; omega : syssizeOf smallSystem ≤ 0x8000) 2 0 0
  exact ⟨image, m, hbuild, kernel_in_place hbuild
    (fun i hi => (List.getElem_eq_getD 0).symm) (by omega) hm⟩

end Linux001.Boot
