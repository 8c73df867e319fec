import Linux001.BufferCache.Quiescent
import Linux001.Fs.DiskInode

/-!
# `sys_sync`

The first pass of `sys_sync`, `sync_inodes`, writes every dirty inode into the buffer of its block
of the inode table; the second one writes the dirty buffers. The first pass reads blocks, and so it
takes buffers away from other blocks, writes them, and makes new dirty ones. What it keeps are the
contents of every block, up to the slots of the inodes that it writes, so that the second pass,
which goes over all buffers, leaves on the disk all that was in core.

No other process runs, every transfer succeeds, and more buffers exist than are held. That the cache
is then sound holds in all runs of processes without wrapping counters. Inodes in core need not be
different ones: the race between `namei` and `sys_unlink` leaves an inode in one slot while a new
inode with its number is in another. `sync_inodes` then writes both into the same place.

## Main definitions

* `MInode`, `State`: the inode table and the buffer cache.
* `writeInode`, `syncInodes`, `sysSync`: the functions.
* `State.Valid`: what holds of the tables whenever no call is under way.
* `State.Agree`: dirty slots with the same inode have the same fields.
* `Durable`: everything that was in core is on the disk.

## Main results

* `Progress.turn`: a turn of the loop of `sync_inodes`.
* `sysSync_durable_iff`: `sys_sync` makes everything durable exactly if dirty slots agree and the
  counters of their blocks can be raised.
* `not_sysSync_durable`: of two dirty slots with the same inode only the last one is on the disk.
-/

namespace Linux001.Fs.Sync

open BufferCache (Label)

/-- The fields of `struct m_inode` that `sync_inodes` uses. The first part of the structure is a
`struct d_inode`. -/
structure MInode where
  d : DInode
  dev : ℕ
  num : ℕ
  dirt : Bool
  pipe : Bool

/-- The fields of `struct super_block` that tell where the inode table is. -/
structure SuperBlock where
  imapBlocks : ℕ
  zmapBlocks : ℕ

/-- The block of the inode table with the inode `num`. -/
def SuperBlock.block (sb : SuperBlock) (num : ℕ) : ℕ :=
  2 + sb.imapBlocks + sb.zmapBlocks + (num - 1) / 32

/-- `inode_table`, the result of `get_super` for every device, and the buffer cache. -/
structure State (N : ℕ) where
  table : Fin 32 → MInode
  super : ℕ → Option SuperBlock
  cache : BufferCache.Cache Block N

variable {N : ℕ}

/-- `write_inode(inode)`. -/
def writeInode (fuel : ℕ) (s : State N) (k : Fin 32) : Option (State N) :=
  let i := s.table k
  (s.super i.dev).bind fun sb =>
    (s.cache.modify ⟨i.dev, sb.block i.num⟩ (setSlot ((i.num - 1) % 32) i.d) fuel).map fun c =>
      { s with table := Function.update s.table k { i with dirt := false }, cache := c }

/-- A turn of the loop of `sync_inodes`. -/
def syncInode (fuel : ℕ) (s : State N) (k : Fin 32) : Option (State N) :=
  if (s.table k).dirt ∧ (s.table k).pipe = false then writeInode fuel s k else some s

/-- `sync_inodes()`. -/
def syncInodes (fuel : ℕ) (s : State N) : Option (State N) :=
  (List.finRange 32).foldlM (syncInode fuel) s

/-- `sys_sync()`. -/
def sysSync (fuel : ℕ) (s : State N) : Option (State N) :=
  (syncInodes fuel s).map fun s => { s with cache := s.cache.syncDev none }

namespace State

variable (s : State N) (k : Fin 32)

/-- An inode that `sync_inodes` writes. -/
def Dirty : Prop := (s.table k).dirt = true ∧ (s.table k).pipe = false

/-- The block of the inode table for the inode in a slot of `inode_table`. -/
def home : Label :=
  ⟨(s.table k).dev, (s.super (s.table k).dev).elim 0 fun sb => sb.block (s.table k).num⟩

/-- The slot of that block. -/
def place : ℕ := ((s.table k).num - 1) % 32

/-- What holds of the tables whenever no call is under way: the cache is sound, its counters are
bytes, and dirty inodes are inodes of mounted devices, whose blocks have numbers for the cache. -/
structure Valid (s : State N) : Prop where
  sound : s.cache.Sound
  count : ∀ b, (s.cache.buf b).count < 256
  mounted : ∀ k, s.Dirty k → (s.table k).dev ≠ 0 ∧ (s.super (s.table k).dev).isSome
  num : ∀ k, s.Dirty k → 1 ≤ (s.table k).num
  block : ∀ k, s.Dirty k → (s.home k).block < 65536

/-- Dirty slots with the same inode have the same fields. -/
def Agree (s : State N) : Prop :=
  ∀ k k', s.Dirty k → s.Dirty k' → (s.table k).dev = (s.table k').dev →
    (s.table k).num = (s.table k').num → (s.table k).d = (s.table k').d

variable {s} {k k' : Fin 32}

theorem Valid.exists_home (h : s.Valid) (hk : s.Dirty k) : (s.table k).dev ≠ 0 ∧ ∃ sb,
    s.super (s.table k).dev = some sb ∧ s.home k = ⟨(s.table k).dev, sb.block (s.table k).num⟩ := by
  obtain ⟨hdev, hsome⟩ := h.mounted k hk
  obtain ⟨sb, hsb⟩ := Option.isSome_iff_exists.mp hsome
  refine ⟨hdev, sb, hsb, ?_⟩
  rw [home, hsb]
  rfl

/-- Two dirty inodes in one slot of one block are the same inode. -/
theorem Valid.num_eq (h : s.Valid) (hk : s.Dirty k) (hk' : s.Dirty k')
    (hhome : s.home k = s.home k') (hplace : s.place k = s.place k') :
    (s.table k).dev = (s.table k').dev ∧ (s.table k).num = (s.table k').num := by
  obtain ⟨hdev, hblock⟩ := Label.mk.injEq .. ▸ hhome
  obtain ⟨sb, hsb⟩ := Option.isSome_iff_exists.mp (h.mounted k hk).2
  refine ⟨hdev, ?_⟩
  have hnum := h.num k hk
  have hnum' := h.num k' hk'
  rw [← hdev, hsb] at hblock
  simp only [Option.elim_some, SuperBlock.block] at hblock
  unfold place at hplace
  omega

/-- A slot with the inode is in the place of the inode. -/
theorem home_congr (hdev : (s.table k).dev = (s.table k').dev)
    (hnum : (s.table k).num = (s.table k').num) :
    s.home k = s.home k' ∧ s.place k = s.place k' := by
  rw [home, home, place, place, hdev, hnum]
  exact ⟨rfl, rfl⟩

end State

/-! ### The first pass -/

/-- What `sync_inodes` has done when the slots `ks` are still to come: the inodes of the other slots
are clean and their blocks have them, and every block has its contents outside of the slots of
dirty inodes. -/
structure Progress (s₀ s : State N) (ks : List (Fin 32)) : Prop where
  sound : s.cache.Sound
  super : s.super = s₀.super
  count : ∀ b, (s.cache.buf b).count = (s₀.cache.buf b).count
  room : ∀ l, s.cache.Room l ↔ s₀.cache.Room l
  todo : ∀ k ∈ ks, s.table k = s₀.table k
  clean : ∀ k, k ∉ ks → ¬ s.Dirty k
  stored : ∀ k, k ∉ ks → s₀.Dirty k → ∃ d, s.cache.Current (s₀.home k) d ∧
    slot d (s₀.place k) = (s₀.table k).d
  kept : ∀ l d, s₀.cache.Current l d → ∃ d', s.cache.Current l d' ∧
    ∀ j, (∀ k, s₀.Dirty k → s₀.home k = l → j / 32 ≠ s₀.place k) → d' j = d j

namespace Progress

variable {s₀ s : State N} {k : Fin 32} {ks : List (Fin 32)}

theorem init (h : s₀.Valid) : Progress s₀ s₀ (List.finRange 32) where
  sound := h.sound
  super := rfl
  count _ := rfl
  room _ := Iff.rfl
  todo _ _ := rfl
  clean k hk := absurd (List.mem_finRange k) hk
  stored k hk := absurd (List.mem_finRange k) hk
  kept _ d hc := ⟨d, hc, fun _ _ => rfl⟩

/-- A slot without a dirty inode is passed over. -/
private theorem skip (h : Progress s₀ s (k :: ks)) (hk : ¬ s₀.Dirty k) : Progress s₀ s ks where
  sound := h.sound
  super := h.super
  count := h.count
  room := h.room
  todo k' hk' := h.todo k' (List.mem_cons_of_mem _ hk')
  clean k' hk' hdirty := by
    by_cases heq : k' = k
    · rw [heq, State.Dirty, h.todo k List.mem_cons_self] at hdirty
      exact hk hdirty
    · exact h.clean k' (by simp [heq, hk']) hdirty
  stored k' hk' hdirty := by
    by_cases heq : k' = k
    · exact absurd (heq ▸ hdirty) hk
    · exact h.stored k' (by simp [heq, hk']) hdirty
  kept := h.kept

/-- `write_inode` of a dirty inode. -/
private theorem written (h : Progress s₀ s (k :: ks)) (hnodup : (k :: ks).Nodup) (hvalid : s₀.Valid)
    (hagree : s₀.Agree) (hfree : ∃ b, (s₀.cache.buf b).count = 0) (hk : s₀.Dirty k)
    (hroom : s₀.cache.Room (s₀.home k)) (fuel : ℕ) :
    ∃ s', writeInode (fuel + 1) s k = some s' ∧ Progress s₀ s' ks := by
  have htable := h.todo k List.mem_cons_self
  obtain ⟨hdev, sb, hsb, hhome⟩ := hvalid.exists_home hk
  have hfree' : ∃ b, (s.cache.buf b).count = 0 := by
    obtain ⟨b, hb⟩ := hfree
    exact ⟨b, (h.count b).trans hb⟩
  have hldev : (s₀.home k).dev ≠ 0 := hdev
  obtain ⟨c, hmodify, hmod⟩ := BufferCache.Cache.modify_modified h.sound hfree' hldev
      ((h.room _).mpr hroom)
    (setSlot (s₀.place k) (s₀.table k).d) fuel
  set s' : State N :=
    { s with table := Function.update s.table k { s.table k with dirt := false }, cache := c }
    with hs'
  have hwrite : writeInode (fuel + 1) s k = some s' := by
    unfold writeInode
    dsimp only
    rw [hhome] at hmodify
    rw [h.super, htable, hsb, Option.bind_some]
    change ((s.cache.modify _ (setSlot (s₀.place k) _) _).map _) = _
    rw [hmodify, hs', htable, h.super]
    rfl
  have hother : ∀ k', k' ≠ k → s'.table k' = s.table k' := fun k' hne =>
    Function.update_of_ne hne _ _
  refine ⟨s', hwrite, hmod.sound, h.super, fun b => (hmod.count b).trans (h.count b),
    fun l => (hmod.room l).trans (h.room l), fun k' hk' => ?_, fun k' hk' hdirty => ?_,
    fun k' hk' hdirty => ?_, fun l d hc => ?_⟩
  · have hne : k' ≠ k := fun heq => (List.nodup_cons.mp hnodup).1 (heq ▸ hk')
    exact (hother k' hne).trans (h.todo k' (List.mem_cons_of_mem _ hk'))
  · by_cases hne : k' = k
    · have hself : s'.table k = { s.table k with dirt := false } := Function.update_self _ _ _
      rw [hne, State.Dirty, hself] at hdirty
      cases hdirty.1
    · rw [State.Dirty, hother k' hne] at hdirty
      exact h.clean k' (by simp [hne, hk']) hdirty
  · by_cases hne : k' = k
    · obtain ⟨d, hd⟩ := hmod.changed
      subst hne
      exact ⟨_, hd, slot_setSlot⟩
    · obtain ⟨d, hd, hslot⟩ := h.stored k' (by simp [hne, hk']) hdirty
      by_cases hl : s₀.home k' = s₀.home k
      · refine ⟨_, hl ▸ hmod.self d (hl ▸ hd), ?_⟩
        by_cases hplace : s₀.place k' = s₀.place k
        · -- The other slot of the table has the same inode with the same fields.
          obtain ⟨hdev', hnum'⟩ := hvalid.num_eq hdirty hk hl hplace
          rw [hplace, slot_setSlot, hagree k' k hdirty hk hdev' hnum']
        · rw [slot_setSlot_of_ne hplace, hslot]
      · exact ⟨d, hmod.other _ d hl hd, hslot⟩
  · obtain ⟨d', hd', hbytes⟩ := h.kept l d hc
    by_cases hl : l = s₀.home k
    · subst hl
      refine ⟨_, hmod.self d' hd', fun j hj => ?_⟩
      rw [setSlot_of_ne (hj k hk rfl)]
      exact hbytes j hj
    · exact ⟨d', hmod.other l d' hl hd', hbytes⟩

/-- A turn of the loop of `sync_inodes`. -/
theorem turn (h : Progress s₀ s (k :: ks)) (hnodup : (k :: ks).Nodup) (hvalid : s₀.Valid)
    (hagree : s₀.Agree) (hfree : ∃ b, (s₀.cache.buf b).count = 0)
    (hroom : s₀.Dirty k → s₀.cache.Room (s₀.home k)) (fuel : ℕ) :
    ∃ s', syncInode (fuel + 1) s k = some s' ∧ Progress s₀ s' ks := by
  have htable := h.todo k List.mem_cons_self
  unfold syncInode
  rw [htable]
  split_ifs with hk
  · exact h.written hnodup hvalid hagree hfree hk (hroom hk) fuel
  · exact ⟨s, rfl, h.skip hk⟩

/-- The loop of `sync_inodes`, from the slots `ks` on. -/
theorem loop (h : Progress s₀ s ks) (hnodup : ks.Nodup) (hvalid : s₀.Valid) (hagree : s₀.Agree)
    (hfree : ∃ b, (s₀.cache.buf b).count = 0)
    (hroom : ∀ k, s₀.Dirty k → s₀.cache.Room (s₀.home k)) (fuel : ℕ) :
    ∃ s', ks.foldlM (syncInode (fuel + 1)) s = some s' ∧ Progress s₀ s' [] := by
  induction ks generalizing s with
  | nil => exact ⟨s, rfl, h⟩
  | cons k ks ih =>
    obtain ⟨s₁, hs₁, h₁⟩ := h.turn hnodup hvalid hagree hfree (hroom k) fuel
    obtain ⟨s', hs', h'⟩ := ih h₁ (List.nodup_cons.mp hnodup).2
    refine ⟨s', ?_, h'⟩
    rw [List.foldlM_cons, hs₁]
    exact hs'

/-- The counter of the block of an inode that a turn of the loop has written could be raised. -/
theorem room_of_turn (h : Progress s₀ s (k :: ks)) (hvalid : s₀.Valid) (hk : s₀.Dirty k)
    {fuel : ℕ} {s' : State N} (hs' : syncInode (fuel + 1) s k = some s') :
    s₀.cache.Room (s₀.home k) := by
  have htable := h.todo k List.mem_cons_self
  obtain ⟨hdev, sb, hsb, hhome⟩ := hvalid.exists_home hk
  have hldev : (s₀.home k).dev ≠ 0 := hdev
  unfold syncInode at hs'
  rw [htable] at hs'
  simp only [hk.1, hk.2, and_self, if_true, writeInode] at hs'
  rw [h.super, htable, hsb, Option.bind_some, ← hhome] at hs'
  obtain ⟨c, hc, -⟩ := Option.map_eq_some_iff.mp hs'
  refine (h.room _).mp (BufferCache.Cache.room_of_modify h.sound (fun b => ?_) hldev hc)
  rw [h.count]
  exact hvalid.count b

/-- When the loop comes to its end, all counters could be raised. -/
theorem room_of_loop (h : Progress s₀ s ks) (hnodup : ks.Nodup) (hvalid : s₀.Valid)
    (hagree : s₀.Agree) (hfree : ∃ b, (s₀.cache.buf b).count = 0) {fuel : ℕ} {s' : State N}
    (hs' : ks.foldlM (syncInode (fuel + 1)) s = some s') :
    ∀ k ∈ ks, s₀.Dirty k → s₀.cache.Room (s₀.home k) := by
  induction ks generalizing s with
  | nil => exact fun k hk => absurd hk List.not_mem_nil
  | cons k ks ih =>
    rw [List.foldlM_cons] at hs'
    obtain ⟨s₁, hs₁, hs'⟩ := Option.bind_eq_some_iff.mp hs'
    have hroom : s₀.Dirty k → s₀.cache.Room (s₀.home k) := fun hk => h.room_of_turn hvalid hk hs₁
    obtain ⟨s₂, hs₂, h₂⟩ := h.turn hnodup hvalid hagree hfree hroom fuel
    obtain rfl := Option.some.inj (hs₁.symm.trans hs₂)
    intro k' hk'
    rcases List.mem_cons.mp hk' with rfl | hk'
    · exact hroom
    · exact ih h₂ (List.nodup_cons.mp hnodup).2 hs' k' hk'

end Progress

/-! ### Both passes -/

variable {s s' : State N}

/-- After the second pass the contents of a block are on the disk. -/
theorem disk_syncDev {c : BufferCache.Cache Block N} (h : c.Sound) {l : Label} {d : Block}
    (hc : c.Current l d) : (c.syncDev none).disk l = d :=
  ((BufferCache.Cache.flushed_syncDev h.toMarked none).current l d hc).disk fun _ _ =>
    BufferCache.Cache.clean_syncDev h.toMarked fun _ hd => by cases hd

/-- Everything that was in core in `s` is on the disk in `s'`: no inode is dirty, unless it is a
pipe, and no buffer; the block of every buffer that was dirty has its data on the disk, outside of
the slots of dirty inodes; and these slots have the inodes. -/
structure Durable (s s' : State N) : Prop where
  clean : ∀ k, (s'.table k).pipe = false → (s'.table k).dirt = false
  flushed : ∀ b, (s'.cache.buf b).dirt = false
  block : ∀ b, (s.cache.buf b).dirt = true →
    ∀ j, (∀ k, s.Dirty k → s.home k = (s.cache.buf b).label → j / 32 ≠ s.place k) →
      s'.cache.disk (s.cache.buf b).label j = (s.cache.buf b).data j
  inode : ∀ k, s.Dirty k → slot (s'.cache.disk (s.home k)) (s.place k) = (s.table k).d

/-- What is on the disk for two dirty slots with the same inode are the fields of both. -/
theorem Durable.agree (h : Durable s s') : s.Agree := fun k k' hk hk' hdev hnum => by
  obtain ⟨hhome, hplace⟩ := State.home_congr hdev hnum
  rw [← h.inode k hk, ← h.inode k' hk', hhome, hplace]

/-- The second pass writes what the first one has left in the buffers. -/
theorem Progress.durable (h : Progress s s' []) (hvalid : s.Valid) :
    Durable s { s' with cache := s'.cache.syncDev none } where
  clean k hpipe := Bool.eq_false_iff.mpr fun hdirt => h.clean k (by simp) ⟨hdirt, hpipe⟩
  flushed b := BufferCache.Cache.clean_syncDev h.sound.toMarked fun _ hd => by cases hd
  block b hdirt j hj := by
    obtain ⟨d, hd, hbytes⟩ := h.kept _ _ (hvalid.sound.toMarked.current hdirt)
    exact (congrFun (disk_syncDev h.sound hd) j).trans (hbytes j hj)
  inode k hk := by
    obtain ⟨d, hd, hslot⟩ := h.stored k (by simp) hk
    exact (congrArg (slot · _) (disk_syncDev h.sound hd)).trans hslot

/-- From a valid state with a free buffer, `sys_sync` makes everything durable exactly if dirty
slots agree and the counters of their blocks can be raised. -/
theorem durable_iff (h : s.Valid) (hfree : ∃ b, (s.cache.buf b).count = 0) (fuel : ℕ) :
    (∃ s', sysSync (fuel + 1) s = some s' ∧ Durable s s') ↔
      s.Agree ∧ ∀ k, s.Dirty k → s.cache.Room (s.home k) := by
  have hnodup := List.nodup_finRange 32
  constructor
  · rintro ⟨s', hs', hdurable⟩
    obtain ⟨s₁, hs₁, -⟩ := Option.map_eq_some_iff.mp hs'
    exact ⟨hdurable.agree, fun k => (Progress.init h).room_of_loop hnodup h hdurable.agree hfree hs₁
      k (List.mem_finRange k)⟩
  · rintro ⟨hagree, hroom⟩
    obtain ⟨s₁, hs₁, h₁⟩ := (Progress.init h).loop hnodup h hagree hfree hroom fuel
    exact ⟨_, by rw [sysSync, syncInodes, hs₁]; rfl, h₁.durable h⟩

open BufferCache in
/-- **Everything is durable after `sys_sync`.** Take a cache in which processes have run, more
buffers than processes, without a counter that has wrapped around and reading what they change, and
in which all of them are outside of its functions and a buffer is free; and any inode table whose
dirty inodes are on mounted devices. Then `sys_sync` returns with everything on the disk if and only
if dirty slots with the same inode have the same fields, and the counters of the blocks of dirty
inodes can be raised. -/
theorem sysSync_durable_iff [NeZero N] {n : ℕ} {disk : Label → Block} {data : Fin N → Block}
    {es : List (Event Block N n)} {c : BufferCache.State Block N n} (hn : n < N)
    (hruns : Runs (fun c e c' => c.next e = some c' ∧ c.NoWrap e ∧ c.Reads e)
      (BufferCache.State.init disk data) es c)
    (hidle : ∀ p, (c.proc p).pc = .idle) (hfree : ∃ b, (c.buf b).count = 0)
    (hcache : s.cache = c.toCache)
    (hmounted : ∀ k, s.Dirty k → (s.table k).dev ≠ 0 ∧ (s.super (s.table k).dev).isSome ∧
      1 ≤ (s.table k).num ∧ (s.home k).block < 65536) (fuel : ℕ) :
    (∃ s', sysSync (fuel + 1) s = some s' ∧ Durable s s') ↔
      s.Agree ∧ ∀ k, s.Dirty k → s.cache.Room (s.home k) := by
  obtain ⟨hsound, hcount⟩ := sound_of_runs hn hruns fun p => by rw [hidle p]; rfl
  refine durable_iff ⟨hcache ▸ hsound, hcache ▸ hcount, fun k hk => ?_, fun k hk => ?_,
    fun k hk => ?_⟩ (hcache ▸ hfree) fuel
  · exact ⟨(hmounted k hk).1, (hmounted k hk).2.1⟩
  · exact (hmounted k hk).2.2.1
  · exact (hmounted k hk).2.2.2

/-- A file with so many links. -/
def file (nlinks : UInt8) : DInode := ⟨0o100644, 0, 0, 0, 0, nlinks, fun _ => 0⟩

/-- The inode 1 of a device with one block for each bitmap, as it is in the slots that have a number
of links for it. All of them are dirty. -/
def firstInode (links : Fin 32 → Option UInt8) (cache : BufferCache.Cache Block N) : State N where
  table k := match links k with
    | some nlinks => ⟨file nlinks, 769, 1, true, false⟩
    | none => ⟨file 0, 0, 0, false, false⟩
  super dev := if dev = 769 then some ⟨1, 1⟩ else none
  cache := cache

/-- A process gets a buffer for the block 9 of the device, fills it and releases it. -/
def filledZone : List (BufferCache.Event Block 2 1) :=
  [.call 0 ⟨769, 9⟩ (.get false), .run 0, .run 0, .run 0, .run 0, .fill 0 0 fun _ => 7,
    .brelse 0 0, .run 0]

/-- After `sys_sync` the inode and the zone are on the disk. -/
theorem sysSync_durable_iff_filledZone : ∃ c s',
    Runs (fun (c : BufferCache.State Block 2 1) e c' => c.next e = some c' ∧ c.NoWrap e ∧ c.Reads e)
      (BufferCache.State.init (fun _ => zeroBlock) fun _ => zeroBlock) filledZone.reverse c ∧
    sysSync 1 (firstInode (fun k => if k = 0 then some 1 else none) c.toCache) = some s' ∧
    slot (s'.cache.disk ⟨769, 4⟩) 0 = file 1 ∧ s'.cache.disk ⟨769, 9⟩ 5 = 7 := by
  have hexec : ∃ c, exec (fun c e => (BufferCache.State.next c e).filter fun _ =>
        c.NoWrap e ∧ c.Reads e) (BufferCache.State.init (fun _ => zeroBlock) fun _ => zeroBlock :
          BufferCache.State Block 2 1) filledZone = some c ∧
      (c.proc 0).pc = .idle ∧ (c.buf 0) = ⟨⟨769, 9⟩, true, true, 0, none, fun _ => 7⟩ ∧
        (c.buf 1).count = 0 := ⟨_, rfl, rfl, rfl, rfl⟩
  obtain ⟨c, hc, hidle, hzone, hcount⟩ := hexec
  set s := firstInode (fun k => if k = 0 then some 1 else none) c.toCache with hs
  have hdirty : ∀ k, s.Dirty k → k = 0 := fun k hk => by
    by_contra hne
    simp [State.Dirty, hs, firstInode, hne] at hk
  have hhome : s.home 0 = ⟨769, 4⟩ := by
    simp [State.home, hs, firstInode, SuperBlock.block]
  have hplace : s.place 0 = 0 := by
    simp [State.place, hs, firstInode]
  have hroom : ∀ b, (c.buf b).count = 0 := fun b => by
    match b with
    | 0 => exact congrArg BufferCache.Buf.count hzone
    | 1 => exact hcount
  have hrun := runs_of_exec_guarded hc
  obtain ⟨s', hs', hdurable⟩ := (sysSync_durable_iff (s := s) (c := c) (by decide) hrun
    (fun p => by rw [Subsingleton.elim p 0, hidle]) ⟨1, hcount⟩ rfl (fun k hk => by
      rw [hdirty k hk, hhome]
      exact ⟨Nat.succ_ne_zero _, rfl, le_rfl, by decide⟩) 0).mpr
    ⟨fun k k' hk hk' _ _ => by rw [hdirty k hk, hdirty k' hk'],
      fun k hk b _ => (hroom b).trans_lt (by decide)⟩
  have hbyte := hdurable.block 0 (congrArg BufferCache.Buf.dirt hzone) 5 fun k hk hblock => ?_
  · have hbuf : s.cache.buf 0 = _ := hzone
    rw [hbuf] at hbyte
    have hinode := hdurable.inode 0 ⟨rfl, rfl⟩
    rw [hhome, hplace] at hinode
    exact ⟨c, s', hrun, hs', hinode, hbyte⟩
  · rw [hdirty k hk, hhome, show s.cache.buf 0 = _ from hzone] at hblock
    exact absurd hblock (by decide)

/-- Two slots have the inode 1, with other numbers of links. -/
def twoSlots (cache : BufferCache.Cache Block 2) : State 2 :=
  firstInode (fun k => if k = 0 then some 1 else if k = 1 then some 2 else none) cache

/-- `sys_sync` loses one of two slots with the same inode. -/
theorem not_sysSync_durable : ¬ ∀ (es : List (BufferCache.Event Block 2 1))
    (c : BufferCache.State Block 2 1),
    Runs (fun c e c' => c.next e = some c' ∧ c.NoWrap e ∧ c.Reads e)
      (BufferCache.State.init (fun _ => zeroBlock) fun _ => zeroBlock) es c →
    (∀ p, (c.proc p).pc = .idle) → (∃ b, (c.buf b).count = 0) →
    ∀ s : State 2, s.cache = c.toCache →
      (∀ k, s.Dirty k → (s.table k).dev ≠ 0 ∧ (s.super (s.table k).dev).isSome ∧
        1 ≤ (s.table k).num ∧ (s.home k).block < 65536) →
      ∀ s', sysSync 1 s = some s' → Durable s s' := by
  intro h
  obtain ⟨s', hs'⟩ : ∃ s', sysSync 1 (twoSlots (BufferCache.State.init (fun _ => zeroBlock)
    fun _ => zeroBlock : BufferCache.State Block 2 1).toCache) = some s' := ⟨_, rfl⟩
  have hdurable := h [] _ .nil (fun _ => rfl) ⟨0, rfl⟩ _ rfl (fun k hk => by
    have hlt : k = 0 ∨ k = 1 := by
      by_contra hne
      rw [not_or] at hne
      simp [State.Dirty, twoSlots, firstInode, hne] at hk
    rcases hlt with rfl | rfl <;> exact ⟨by decide, rfl, by decide, by decide⟩) s' hs'
  have hlinks := congrArg DInode.nlinks (hdurable.agree 0 1 ⟨rfl, rfl⟩ ⟨rfl, rfl⟩ rfl rfl)
  exact absurd hlinks (by decide)

end Linux001.Fs.Sync
