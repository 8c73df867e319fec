import Linux001.Fs.ZoneTree
import Linux001.Lib.Runs
import Mathlib.Data.Fintype.Basic

/-!
# Processes that write to one file

The model of `file_write` for any number of processes that write to one regular file at the same
time, with the parts of `_bmap` and `new_block` that it runs. A process is interrupted where the
code sleeps: in `bread` of a table, in `bread` of a block of the file, and in `getblk` of
`new_block`, which has marked the zone in the bitmap before and stores nothing yet. The number of
the zone is stored when `getblk` is done, without another test of the place.

Every process makes one call of `file_write`, with any flags, position and bytes. Blocks are
addressed by their numbers as in `Linux001.Fs`. Two fields record the past: `got` has the zones that
`new_block` has returned to a call, and `last` the call that has written to an offset last.

## Main definitions

* `State`, `State.next`: the file, the calls and their steps.
* `State.fileRead`: `file_read`.
* `SlotAt`, `Leads`: how the steps of `_bmap` follow the tree of the zones.
* `Trans`: what one step of a call can do.

## Main results

* `State.fileRead_eq`: `file_read` returns the bytes of the file.
* `State.trans`: a step of a call is one of the six cases of `Trans`.
-/

namespace Linux001.Files

open Fs

/-- The place of a zone number that `_bmap` tests: `i_zone[k]`, or the entry `k` of the table in
block `t`. -/
inductive Slot
  | inode (k : ℕ)
  | entry (t k : ℕ)
  deriving DecidableEq

/-- Where a call is. `rest` are the indices of the tables that `_bmap` has still to look into. -/
inductive Pc
  | idle
  /-- At the test of the loop. -/
  | loop
  /-- In `bread` of the table `t`. -/
  | table (t k : ℕ) (rest : List ℕ)
  /-- In `getblk` of `new_block`, which will return `z`; its caller stores it in `c`. -/
  | newBlock (c : Slot) (z : ℕ) (rest : List ℕ)
  /-- In `bread` of the block that `create_block` has returned. -/
  | data (z : ℕ)
  | done (value : ℤ)
  deriving DecidableEq

/-- A call of `file_write`. `start` is the first value of `pos`. -/
structure Proc where
  append : Bool
  fpos : ℕ
  buf : List UInt8
  start : ℕ
  pos : ℕ
  i : ℕ
  pc : Pc

/-- The file and its writers. -/
structure State (n : ℕ) where
  /-- `i_zone`. -/
  zone : ℕ → ℕ
  /-- `i_size`. -/
  size : ℕ
  data : ℕ → Block
  zmap : ℕ → Bool
  proc : Fin n → Proc
  got : Fin n → List ℕ
  last : ℕ → Option (Fin n)

/-- What can happen. -/
inductive Event (n : ℕ)
  | call (p : Fin n) (append : Bool) (fpos : ℕ) (buf : List UInt8)
  /-- A process goes on. -/
  | run (p : Fin n)
  /-- The transfer of the block that a process reads fails. -/
  | fail (p : Fin n)
  deriving DecidableEq

/-- The indices that `_bmap` looks up for block `block`: in `i_zone`, then in tables. There are none
where it panics. -/
def route (block : ℕ) : Option (ℕ × List ℕ) :=
  if 7 + 512 + 512 * 512 ≤ block then none
  else if block < 7 then some (block, [])
  else if block - 7 < 512 then some (7, [block - 7])
  else some (8, [(block - 7 - 512) / 512, (block - 7 - 512) % 512])

namespace State

variable {n : ℕ} (sb : Super) (s : State n) (p : Fin n)

/-- The number at a place. -/
def slot : Slot → ℕ
  | .inode k => s.zone k
  | .entry t k => word (s.data t) k

/-- Stores a number at a place. -/
def setSlot (c : Slot) (z : ℕ) : State n :=
  match c with
  | .inode k => { s with zone := Function.update s.zone k z }
  | .entry t k => { s with data := Function.update s.data t (setWord (s.data t) k z) }

def setPc (pc : Pc) : State n :=
  { s with proc := Function.update s.proc p { s.proc p with pc := pc } }

/-- The end of `file_write`, after its loop. -/
def finish : State n :=
  let q := s.proc p
  { s with proc := Function.update s.proc p { q with
      fpos := if q.append then q.fpos else q.pos
      pc := .done (if q.i = 0 then -1 else q.i) } }

/-- `_bmap` after it has got the number `z` of a table or of the block. -/
def follow (z : ℕ) : List ℕ → Pc
  | [] => .data z
  | k :: rest => .table z k rest

/-- `new_block` up to `getblk`: the zone that it will return, if there is one left. -/
def newBlock : Option ℕ × State n :=
  match newBit s.zmap sb.zmapBlocks 8 with
  | none => (none, s)
  | some j =>
    let s := { s with zmap := Function.update s.zmap j true }
    let z := j + (sb.firstdatazone - 1)
    if sb.nzones ≤ z then (none, s) else (some z, s)

/-- The test of a place in `_bmap`, and `new_block` up to `getblk`. A call for which no zone is left
writes no more. -/
def test (c : Slot) (rest : List ℕ) : State n :=
  if s.slot c ≠ 0 then s.setPc p (follow (s.slot c) rest)
  else
    match s.newBlock sb with
    | (none, s) => s.finish p
    | (some z, s) => s.setPc p (.newBlock c z rest)

/-- The end of `new_block`, and the store of what it returns. -/
def store (c : Slot) (z : ℕ) (rest : List ℕ) : State n :=
  ({ s with
      data := Function.update s.data z zeroBlock
      got := Function.update s.got p (z :: s.got p) }.setSlot c z).setPc p (follow z rest)

/-- The rest of a turn of the loop, in which bytes are copied to the block `z`. -/
def copy (z : ℕ) : State n :=
  let q := s.proc p
  let o := q.pos % 1024
  let c := min (1024 - o) (q.buf.length - q.i)
  { s with
    size := max s.size (q.pos + c)
    data := Function.update s.data z fun x =>
      if o ≤ x ∧ x < o + c then q.buf.getD (q.i + (x - o)) 0 else s.data z x
    last := fun x => if q.pos ≤ x ∧ x < q.pos + c then some p else s.last x
    proc := Function.update s.proc p { q with pos := q.pos + c, i := q.i + c, pc := .loop } }

/-- The place that a process is about to test, and the indices after it. -/
def target : Option (Slot × List ℕ) :=
  let q := s.proc p
  match q.pc with
  | .loop =>
    if q.buf.length ≤ q.i then none
    else (route (q.pos / 1024)).map fun r => (.inode r.1, r.2)
  | .table t k rest => some (.entry t k, rest)
  | _ => none

/-- The state after an event. There is none after a panic. -/
def next : Event n → Option (State n)
  | .call p append fpos buf =>
    if (s.proc p).pc = .idle then
      let pos := if append then s.size else fpos
      some { s with proc := Function.update s.proc p ⟨append, fpos, buf, pos, pos, 0, .loop⟩ }
    else none
  | .run p =>
    match (s.proc p).pc with
    | .idle | .done _ => none
    | .loop =>
      if (s.proc p).buf.length ≤ (s.proc p).i then some (s.finish p)
      else (s.target p).map fun r => s.test sb p r.1 r.2
    | .table _ _ _ => (s.target p).map fun r => s.test sb p r.1 r.2
    | .newBlock c z rest => some (s.store p c z rest)
    | .data z => some (s.copy p z)
  | .fail p =>
    match (s.proc p).pc with
    | .table _ _ _ | .data _ => some (s.finish p)
    | _ => none

/-- `bmap(inode, block)`. -/
def bmap (block : ℕ) : Option ℕ :=
  (route block).map fun r => r.2.foldl (tableAt s.data) (s.zone r.1)

/-- `file_read`, from the position `pos` on, with `left` bytes to go: the bytes that it stores. -/
def fileRead (pos left : ℕ) : Option (List UInt8) :=
  if left = 0 then some []
  else
    match s.bmap (pos / 1024) with
    | none => none
    | some nr =>
      let o := pos % 1024
      let chars := min (1024 - o) left
      (fileRead (pos + chars) (left - chars)).map fun bytes =>
        ((List.range chars).map fun i => if nr ≠ 0 then s.data nr (o + i) else 0) ++ bytes
termination_by left
decreasing_by omega

/-- The tree of the zones of the file. -/
def tree : Path → ℕ := zoneAt s.data s.zone

/-- The byte of the file at an offset. -/
def byte (x : ℕ) : UInt8 :=
  if s.tree (leafPath (x / 1024)) = 0 then 0 else s.data (s.tree (leafPath (x / 1024))) (x % 1024)

end State

/-! ### The places that `_bmap` looks up -/

/-- A place that `_bmap` tests is the place `a` of the tree. -/
def SlotAt (tree : Path → ℕ) : Slot → Path → Prop
  | .inode k, a => ∃ l : Fin 9, l = k ∧ a = .zone l
  | .entry t k, a => t ≠ 0 ∧ ∃ (T : Table) (i : Fin 512), tree T.path = t ∧ i = k ∧ a = T.entry i

/-- From the place `a`, the indices `rest` lead to block `b`. -/
def Leads (b : ℕ) : Path → List ℕ → Prop
  | a, [] => b < maxBlocks ∧ a = leafPath b
  | a, k :: rest => ∃ (T : Table) (i : Fin 512), T.path = a ∧ i = k ∧ Leads b (T.entry i) rest

/-- The indices of a block lead to it. -/
theorem leads_of_route {b k : ℕ} {rest : List ℕ} (h : route b = some (k, rest)) :
    ∃ l : Fin 9, l = k ∧ Leads b (.zone l) rest := by
  unfold route at h
  split_ifs at h with hbig hdirect hind <;> obtain ⟨rfl, rfl⟩ := Prod.mk.inj (Option.some.inj h)
  · refine ⟨⟨b, by omega⟩, rfl, by unfold maxBlocks; omega, ?_⟩
    rw [leafPath, dif_pos hdirect]
  · refine ⟨7, rfl, .ind, ⟨b - 7, hind⟩, rfl, rfl, by unfold maxBlocks; omega, ?_⟩
    rw [leafPath, dif_neg hdirect, dif_pos hind]
    rfl
  · have hi : (b - 7 - 512) / 512 < 512 := by omega
    have hj : (b - 7 - 512) % 512 < 512 := by omega
    refine ⟨8, rfl, .dind, ⟨_, hi⟩, rfl, rfl, .two ⟨_, hi⟩, ⟨_, hj⟩, rfl, rfl,
      by unfold maxBlocks; omega, ?_⟩
    rw [leafPath, dif_neg hdirect, dif_neg hind]
    simp only [Table.entry, Path.two.injEq, Fin.ext_iff, Fin.val_ofNat, Nat.mod_eq_of_lt hi,
      Nat.mod_eq_of_lt hj, and_self]

theorem route_isSome {b : ℕ} (hb : b < maxBlocks) : ∃ k rest, route b = some (k, rest) := by
  unfold maxBlocks at hb
  unfold route
  rw [if_neg (by omega)]
  split_ifs <;> exact ⟨_, _, rfl⟩

/-- Following the tables from a place gives the zone of the block to which it leads. -/
theorem Leads.foldl {data : ℕ → Block} {zone : ℕ → ℕ} {b : ℕ} {rest : List ℕ} {a : Path}
    (h : Leads b a rest) :
    rest.foldl (tableAt data) (zoneAt data zone a) = zoneAt data zone (leafPath b) := by
  induction rest generalizing a with
  | nil => rw [h.2, List.foldl_nil]
  | cons k rest ih =>
    obtain ⟨T, i, rfl, rfl, h⟩ := h
    rw [List.foldl_cons, ← zoneAt_entry]
    exact ih h

namespace State

variable {n : ℕ} {sb : Super} {s s' : State n} {p : Fin n}

/-- A number is read where the tree has it. -/
theorem slot_eq {c : Slot} {a : Path} (h : SlotAt s.tree c a) : s.slot c = s.tree a := by
  cases c with
  | inode k =>
    obtain ⟨l, rfl, rfl⟩ := h
    rfl
  | entry t k =>
    obtain ⟨ht, T, i, rfl, rfl, rfl⟩ := h
    exact ((zoneAt_entry s.data s.zone T i).trans (if_neg ht)).symm

theorem bmap_eq {b : ℕ} (hb : b < maxBlocks) : s.bmap b = some (s.tree (leafPath b)) := by
  obtain ⟨k, rest, hr⟩ := route_isSome hb
  obtain ⟨l, rfl, hl⟩ := leads_of_route hr
  rw [bmap, hr]
  exact congrArg some hl.foldl

/-- `file_read` returns the bytes of the file. -/
theorem fileRead_eq {pos left : ℕ} (h : pos + left ≤ maxBlocks * 1024) :
    s.fileRead pos left = some ((List.range left).map fun i => s.byte (pos + i)) := by
  induction left using Nat.strong_induction_on generalizing pos with
  | _ left ih =>
    rw [fileRead]
    split_ifs with hleft
    · rw [hleft]
      rfl
    · have hb : pos / 1024 < maxBlocks := by omega
      obtain ⟨rest, hrest⟩ := Nat.exists_eq_add_of_le (min_le_right (1024 - pos % 1024) left)
      have hchars : 0 < min (1024 - pos % 1024) left := by omega
      rw [bmap_eq hb]
      dsimp only
      rw [ih _ (by omega) (by omega), Option.map_some, Option.some.injEq]
      conv_rhs => rw [hrest, List.range_add, List.map_append, List.map_map]
      rw [show left - min (1024 - pos % 1024) left = rest by omega]
      refine congrArg₂ _ (List.map_congr_left fun i hi => ?_) (List.map_congr_left fun i hi => ?_)
      · have hi := List.mem_range.mp hi
        rw [byte, show (pos + i) / 1024 = pos / 1024 by omega,
          show (pos + i) % 1024 = pos % 1024 + i by omega, ite_not]
      · rw [Function.comp_apply, Nat.add_assoc]

end State

/-! ### The steps of a call -/

section Steps

variable {n : ℕ} {sb : Super} {s s' : State n} {p : Fin n}

/-- What a step of the call `p` can do to the file and to the call. `zmap` is the zone bitmap after
a step that goes through `new_block`, in which a bit may have been set. -/
inductive Trans (sb : Super) (s : State n) (e : Event n) (p : Fin n) : State n → Prop
  | start (append : Bool) (fpos : ℕ) (buf : List UInt8) (pos : ℕ) (hpc : (s.proc p).pc = .idle) :
      Trans sb s e p
        { s with proc := Function.update s.proc p ⟨append, fpos, buf, pos, pos, 0, .loop⟩ }
  | finish (zmap : ℕ → Bool) (hzmap : ∀ j, s.zmap j = true → zmap j = true) :
      Trans sb s e p ({ s with zmap := zmap }.finish p)
  | follow (c : Slot) (rest : List ℕ) (ht : s.target p = some (c, rest)) (hc : s.slot c ≠ 0) :
      Trans sb s e p (s.setPc p (State.follow (s.slot c) rest))
  | enter (c : Slot) (rest : List ℕ) (j : ℕ) (he : e = .run p) (ht : s.target p = some (c, rest))
      (hc : s.slot c = 0) (hj : s.zmap j = false) (hlt : j + (sb.firstdatazone - 1) < sb.nzones)
      (hz : (s.newBlock sb).1 = some (j + (sb.firstdatazone - 1))) :
      Trans sb s e p ({ s with zmap := Function.update s.zmap j true }.setPc p
        (.newBlock c (j + (sb.firstdatazone - 1)) rest))
  | store (c : Slot) (z : ℕ) (rest : List ℕ) (hpc : (s.proc p).pc = .newBlock c z rest) :
      Trans sb s e p (s.store p c z rest)
  | copy (z : ℕ) (hpc : (s.proc p).pc = .data z) : Trans sb s e p (s.copy p z)

/-- The call that an event is about. -/
def Event.proc : Event n → Fin n
  | .call p _ _ _ | .run p | .fail p => p

namespace State

theorem test_trans {c : Slot} {rest : List ℕ} (ht : s.target p = some (c, rest)) :
    Trans sb s (.run p) p (s.test sb p c rest) := by
  unfold test
  split_ifs with hc
  · exact .follow c rest ht hc
  · have hc : s.slot c = 0 := not_not.mp hc
    rcases hnew : s.newBlock sb with ⟨z, s₁⟩
    have hz : (s.newBlock sb).1 = z := by rw [hnew]
    unfold newBlock at hnew
    split at hnew
    · cases hnew
      exact .finish s.zmap fun _ => id
    · rename_i j hj
      have hkeep : ∀ i, s.zmap i = true → Function.update s.zmap j true i = true := by
        intro i hi
        rw [Function.update_apply]
        split_ifs
        · rfl
        · exact hi
      dsimp only at hnew
      split_ifs at hnew with hfull <;> cases hnew
      · exact .finish _ hkeep
      · exact .enter c rest j rfl ht hc (newBit_clear hj) (not_le.mp hfull) hz

/-- A step is one of the six cases of `Trans`. -/
theorem trans {e : Event n} (h : s.next sb e = some s') : Trans sb s e e.proc s' := by
  cases e with
  | call p append fpos buf =>
    unfold next at h
    dsimp only at h
    by_cases hpc : (s.proc p).pc = .idle
    · rw [if_pos hpc] at h
      obtain rfl := Option.some.inj h
      exact .start append fpos buf _ hpc
    · rw [if_neg hpc] at h
      cases h
  | run p =>
    unfold next at h
    dsimp only at h
    split at h
    · cases h
    · cases h
    · split_ifs at h
      · obtain rfl := Option.some.inj h
        exact .finish s.zmap fun _ => id
      · obtain ⟨r, hr, rfl⟩ := Option.map_eq_some_iff.mp h
        exact test_trans hr
    · obtain ⟨r, hr, rfl⟩ := Option.map_eq_some_iff.mp h
      exact test_trans hr
    · obtain rfl := Option.some.inj h
      exact .store _ _ _ ‹_›
    · obtain rfl := Option.some.inj h
      exact .copy _ ‹_›
  | fail p =>
    unfold next at h
    dsimp only at h
    split at h
    · obtain rfl := Option.some.inj h
      exact .finish s.zmap fun _ => id
    · obtain rfl := Option.some.inj h
      exact .finish s.zmap fun _ => id
    · cases h

end State

end Steps

end Linux001.Files
