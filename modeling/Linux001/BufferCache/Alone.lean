import Linux001.BufferCache.Processes
import Mathlib.Data.List.FinRange

/-!
# The buffer cache with one running process

The functions `sync_dev`, `getblk`, `bread` and `brelse` of `fs/buffer.c` as they run from beginning
to end while no other process runs. No buffer is locked between two of their transfers, which all
succeed, so nothing that happens in `wait_on_buffer` shows. A `getblk` that finds every buffer in
use sleeps for ever, and a `brelse` of a free buffer panics; both have no result.

Every function keeps what the cache holds for every block: the contents of the buffer of the block,
if there is one, which are on the disk already unless the buffer is dirty.

## Main definitions

* `Cache`: the buffer heads, their queues and the disk.
* `Cache.syncDev`, `Cache.getblk`, `Cache.bread`, `Cache.brelse`: the functions.
* `Cache.Sound`: what holds whenever no function of the cache is running.
* `Cache.Current`: the contents of a block, as the cache has them.

## Main results

* `Cache.flushed_syncDev`, `Cache.clean_syncDev`: writing all dirty buffers.
* `Cache.getblk_got`, `Cache.bread_got`: a buffer is found or made, and no contents are lost.
* `Cache.modify_modified`, `Cache.room_of_modify`: reading, changing and releasing a block.
-/

namespace Linux001.BufferCache

/-- The buffer heads, their queues, and the disk. -/
structure Cache (D : Type*) (N : ℕ) where
  queues : Queues N
  buf : Fin N → Buf D
  disk : Label → D

namespace Cache

variable {D : Type*} {N : ℕ}

section Functions

variable (c : Cache D N)

/-- The labels of the buffer heads. -/
def labels (b : Fin N) : Label := (c.buf b).label

/-- Store a buffer head. -/
def setBuf (b : Fin N) (x : Buf D) : Cache D N := { c with buf := Function.update c.buf b x }

/-- `find_buffer`. -/
def find (l : Label) : Option (Fin N) := c.queues.find c.labels l

/-- `ll_rw_block(WRITE, bh)`, until the transfer has ended. -/
def write (b : Fin N) : Cache D N :=
  { c.setBuf b { c.buf b with uptodate := true, dirt := false } with
    disk := Function.update c.disk (c.buf b).label (c.buf b).data }

/-- `ll_rw_block(READ, bh)`, until the transfer has ended. -/
def read (b : Fin N) : Cache D N :=
  c.setBuf b { c.buf b with data := c.disk (c.buf b).label, uptodate := true, dirt := false }

/-- A turn of the loop of `sync_dev(dev)`, or of that of `sys_sync`, which has no device. -/
def syncBuf (dev : Option ℕ) (c : Cache D N) (b : Fin N) : Cache D N :=
  if (∀ d ∈ dev, (c.buf b).label.dev = d) ∧ (c.buf b).dirt then c.write b else c

/-- `sync_dev(dev)`, or the loop of `sys_sync`. -/
def syncDev (dev : Option ℕ) : Cache D N := (List.finRange N).foldl (syncBuf dev) c

/-- The loop of `getblk` over the free list, from the buffer head `t` on and through at most `fuel`
buffer heads: the first one that is not in use. -/
def scan : ℕ → Fin N → Option (Fin N)
  | 0, _ => none
  | fuel + 1, t =>
    if (c.buf t).count = 0 then some t
    else if c.queues.nextFree t = c.queues.freeList then none
    else scan fuel (c.queues.nextFree t)

/-- `getblk` takes a free buffer head out of the queues, and has its device written if it is
dirty. -/
def take (t : Fin N) : Cache D N :=
  let c' := { c.setBuf t { c.buf t with count := 1 } with
    queues := c.queues.remove (c.buf t).label t }
  if (c.buf t).dirt then c'.syncDev (some (c.buf t).label.dev) else c'

/-- `getblk(dev, block)`, with at most `fuel` jumps to `repeat`. -/
def getblk (l : Label) : ℕ → Cache D N → Option (Cache D N × Fin N)
  | 0, _ => none
  | fuel + 1, c =>
    match c.find l with
    | some b => some (c.setBuf b { c.buf b with count := ((c.buf b).count + 1) % 256 }, b)
    | none =>
      match c.scan N c.queues.freeList with
      | none => none
      | some t =>
        let c := c.take t
        let c := c.setBuf t ((c.buf t).renew l)
        match c.find l with
        | some _ => getblk l fuel
            { c.setBuf t { c.buf t with label := ⟨0, 0⟩, count := 0 } with
              queues := c.queues.insert ⟨0, 0⟩ t }
        | none => some ({ c with queues := c.queues.insert l t }, t)

/-- `bread(dev, block)`. -/
def bread (l : Label) (fuel : ℕ) : Option (Cache D N × Fin N) :=
  (getblk l fuel c).map fun r => if (r.1.buf r.2).uptodate then r else (r.1.read r.2, r.2)

/-- `brelse(buf)`. -/
def brelse (b : Fin N) : Option (Cache D N) :=
  if (c.buf b).count = 0 then none
  else some (c.setBuf b { c.buf b with count := (c.buf b).count - 1 })

/-- Stores to the data of a buffer, and `b_dirt = 1`. -/
def store (b : Fin N) (f : D → D) : Cache D N :=
  c.setBuf b { c.buf b with data := f (c.buf b).data, dirt := true }

/-- `bread`, stores to the data of the buffer, and `brelse`. -/
def modify (l : Label) (f : D → D) (fuel : ℕ) : Option (Cache D N) :=
  (c.bread l fuel).bind fun r => (r.1.store r.2 f).brelse r.2

end Functions

/-! ### Invariants -/

/-- No two buffers have the same label, and a dirty buffer has a block and its contents. -/
structure Marked (c : Cache D N) : Prop where
  unique : ∀ b b', (c.buf b).label = (c.buf b').label → (c.buf b).label.dev ≠ 0 → b = b'
  uptodate : ∀ b, (c.buf b).dirt = true → (c.buf b).uptodate = true
  device : ∀ b, (c.buf b).dirt = true → (c.buf b).label.dev ≠ 0

/-- What holds whenever no function of the cache is running. -/
structure Sound (c : Cache D N) : Prop extends Marked c where
  formed : c.queues.Formed c.labels fun _ => False

/-- The contents of the block `l` are `d`: its buffer has them, and the disk as well if the buffer
is not dirty or there is none. -/
structure Current (c : Cache D N) (l : Label) (d : D) : Prop where
  cached : ∀ b, (c.buf b).label = l → (c.buf b).uptodate = true → (c.buf b).data = d
  disk : (∀ b, (c.buf b).label = l → (c.buf b).dirt = false) → c.disk l = d

/-- The counter of a buffer of the block `l` can be raised. -/
def Room (c : Cache D N) (l : Label) : Prop :=
  ∀ b, (c.buf b).label = l → (c.buf b).count < 255

variable {c c' c'' : Cache D N} {b t : Fin N} {l l' : Label} {d : D}

@[simp]
theorem setBuf_self {x : Buf D} : (c.setBuf b x).buf b = x := Function.update_self _ _ _

theorem setBuf_of_ne {x : Buf D} {b' : Fin N} (hb : b' ≠ b) : (c.setBuf b x).buf b' = c.buf b' :=
  Function.update_of_ne hb _ _

/-- A field that the new buffer head shares with the old one is kept everywhere. -/
theorem field_setBuf {β : Type*} (g : Buf D → β) {x : Buf D} (hx : g x = g (c.buf b))
    (b' : Fin N) : g ((c.setBuf b x).buf b') = g (c.buf b') := by
  by_cases hb : b' = b
  · rw [hb, setBuf_self, hx]
  · rw [setBuf_of_ne hb]

theorem write_self : (c.write b).buf b = { c.buf b with uptodate := true, dirt := false } :=
  setBuf_self

theorem write_of_ne {b' : Fin N} (hb : b' ≠ b) : (c.write b).buf b' = c.buf b' := setBuf_of_ne hb

/-- A dirty buffer has the contents of its block. -/
theorem Marked.current (h : c.Marked) (hdirt : (c.buf b).dirt = true) :
    c.Current (c.buf b).label (c.buf b).data where
  cached b' hl _ := by rw [h.unique b b' hl.symm (h.device b hdirt)]
  disk hclean := absurd (hdirt.symm.trans (hclean b rfl)) (by simp)

/-! ### Writing -/

/-- What the writing of buffers leaves: every buffer head has its label, counter and data, no other
buffers are dirty, and every block has its contents. -/
structure Flushed (c c' : Cache D N) : Prop where
  queues : c'.queues = c.queues
  label : ∀ b, (c'.buf b).label = (c.buf b).label
  count : ∀ b, (c'.buf b).count = (c.buf b).count
  uptodate : ∀ b, (c.buf b).uptodate = true → (c'.buf b).uptodate = true
  dirt : ∀ b, (c'.buf b).dirt = true → (c.buf b).dirt = true
  current : ∀ l d, c.Current l d → c'.Current l d

namespace Flushed

theorem refl (c : Cache D N) : Flushed c c :=
  ⟨rfl, fun _ => rfl, fun _ => rfl, fun _ h => h, fun _ h => h, fun _ _ h => h⟩

theorem trans (h : Flushed c c') (h' : Flushed c' c'') : Flushed c c'' where
  queues := h'.queues.trans h.queues
  label b := (h'.label b).trans (h.label b)
  count b := (h'.count b).trans (h.count b)
  uptodate b hb := h'.uptodate b (h.uptodate b hb)
  dirt b hb := h.dirt b (h'.dirt b hb)
  current l d hc := h'.current l d (h.current l d hc)

theorem marked (h : Flushed c c') (hc : c.Marked) : c'.Marked where
  unique b b' heq hdev := by
    rw [h.label, h.label] at heq
    rw [h.label] at hdev
    exact hc.unique b b' heq hdev
  uptodate b hb := h.uptodate b (hc.uptodate b (h.dirt b hb))
  device b hb := by
    rw [h.label]
    exact hc.device b (h.dirt b hb)

end Flushed

/-- Writing a dirty buffer keeps the contents of every block. -/
theorem flushed_write (h : c.Marked) (hdirt : (c.buf b).dirt = true) : Flushed c (c.write b) where
  queues := rfl
  label := field_setBuf Buf.label rfl
  count := field_setBuf Buf.count rfl
  uptodate b' hup := by
    by_cases hb : b' = b
    · rw [hb, write_self]
    · rwa [write_of_ne hb]
  dirt b' hd := by
    by_cases hb : b' = b
    · rwa [hb]
    · rwa [write_of_ne hb] at hd
  current l d hc := by
    have hlabel : ∀ b', ((c.write b).buf b').label = (c.buf b').label := field_setBuf Buf.label rfl
    have hdata : ∀ b', ((c.write b).buf b').data = (c.buf b').data := field_setBuf Buf.data rfl
    refine ⟨fun b' hl hup => ?_, fun hclean => ?_⟩
    · rw [hlabel] at hl
      rw [hdata]
      by_cases hb : b' = b
      · subst hb
        exact hc.cached b' hl (h.uptodate b' hdirt)
      · rw [write_of_ne hb] at hup
        exact hc.cached b' hl hup
    · change Function.update c.disk (c.buf b).label (c.buf b).data l = d
      by_cases hl : l = (c.buf b).label
      · rw [hl, Function.update_self]
        exact hc.cached b hl.symm (h.uptodate b hdirt)
      · rw [Function.update_of_ne hl]
        refine hc.disk fun b' hl' => ?_
        have hb : b' ≠ b := fun heq => hl (heq ▸ hl'.symm)
        have hclean' := hclean b' ((hlabel b').trans hl')
        rwa [write_of_ne hb] at hclean'

theorem flushed_syncBuf (h : c.Marked) (dev : Option ℕ) (b : Fin N) :
    Flushed c (c.syncBuf dev b) := by
  unfold syncBuf
  split_ifs with hb
  · exact flushed_write h hb.2
  · exact .refl c

/-- A buffer that a turn of the loop is for is clean afterwards. -/
theorem clean_syncBuf {dev : Option ℕ} (hdev : ∀ d ∈ dev, (c.buf b).label.dev = d) :
    ((c.syncBuf dev b).buf b).dirt = false := by
  unfold syncBuf
  split_ifs with hb
  · rw [write_self]
  · exact Bool.eq_false_iff.mpr fun hdirt => hb ⟨hdev, hdirt⟩

/-- The loop over some of the buffers: those of the device are clean afterwards. -/
private theorem flushed_foldl (dev : Option ℕ) (bs : List (Fin N)) (h : c.Marked) :
    Flushed c (bs.foldl (syncBuf dev) c) ∧ ∀ b ∈ bs, (∀ d ∈ dev, (c.buf b).label.dev = d) →
      ((bs.foldl (syncBuf dev) c).buf b).dirt = false := by
  induction bs generalizing c with
  | nil => exact ⟨.refl c, fun b hb => by cases hb⟩
  | cons b bs ih =>
    have hfirst := flushed_syncBuf h dev b
    obtain ⟨hrest, hclean⟩ := ih (hfirst.marked h)
    refine ⟨hfirst.trans hrest, fun b' hb' hdev => ?_⟩
    rcases List.mem_cons.mp hb' with rfl | hb'
    · -- A buffer that is clean after its turn stays clean.
      refine Bool.eq_false_iff.mpr fun hdirt => ?_
      exact absurd ((hrest.dirt _ hdirt).symm.trans (clean_syncBuf hdev)) (by simp)
    · refine hclean b' hb' fun d hd => ?_
      rw [hfirst.label]
      exact hdev d hd

theorem flushed_syncDev (h : c.Marked) (dev : Option ℕ) : Flushed c (c.syncDev dev) :=
  (flushed_foldl dev _ h).1

/-- `sync_dev` leaves no dirty buffer of its device, and `sys_sync` none at all. -/
theorem clean_syncDev (h : c.Marked) {dev : Option ℕ}
    (hdev : ∀ d ∈ dev, (c.buf b).label.dev = d) : ((c.syncDev dev).buf b).dirt = false :=
  (flushed_foldl dev _ h).2 b (List.mem_finRange b) hdev

/-! ### Finding a buffer -/

theorem scan_count {fuel : ℕ} {s : Fin N} (h : c.scan fuel s = some t) : (c.buf t).count = 0 := by
  induction fuel generalizing s with
  | zero => cases h
  | succ fuel ih =>
    rw [scan] at h
    split_ifs at h with hcount
    · exact Option.some.inj h ▸ hcount
    · exact ih h

/-- The search fails only if all buffers of the rest of the free list are in use. -/
private theorem scan_eq_none {fuel : ℕ} {s : Fin N} {r : List (Fin N)}
    (hlinked : Linked c.queues.nextFree c.queues.prevFree s r c.queues.freeList)
    (hr : c.queues.freeList ∉ r) (hfuel : r.length < fuel) (h : c.scan fuel s = none) :
    ∀ b ∈ s :: r, (c.buf b).count ≠ 0 := by
  induction r generalizing s fuel with
  | nil =>
    obtain ⟨fuel, rfl⟩ := Nat.exists_eq_add_of_lt hfuel
    rw [scan] at h
    split_ifs at h with hcount
    · exact fun b hb => List.mem_singleton.mp hb ▸ hcount
    · exact absurd hlinked.1 ‹_›
  | cons x r ih =>
    obtain ⟨⟨hnext, -⟩, hrest⟩ := hlinked
    obtain ⟨fuel, rfl⟩ := Nat.exists_eq_add_of_lt (Nat.zero_lt_of_lt hfuel)
    rw [Nat.zero_add, scan, hnext] at h
    rw [Nat.zero_add, List.length_cons, Nat.succ_lt_succ_iff] at hfuel
    rw [List.mem_cons, not_or] at hr
    split_ifs at h with hcount hlast
    · exact absurd hlast.symm hr.1
    · intro b hb
      rcases List.mem_cons.mp hb with rfl | hb
      · exact hcount
      · exact ih hrest hr.2 hfuel h b hb

/-- If a buffer is free then the search finds one. -/
theorem exists_scan (h : c.Sound) (hfree : ∃ b, (c.buf b).count = 0) :
    ∃ t, c.scan N c.queues.freeList = some t := by
  obtain ⟨b, hb⟩ := hfree
  obtain ⟨r, ⟨hnodup, hlinked⟩, hmem⟩ := h.formed.ring
  refine Option.ne_none_iff_exists'.mp fun hnone => ?_
  have hlength : (c.queues.freeList :: r).length ≤ N := by
    simpa using hnodup.length_le_card
  have hr := (List.nodup_cons.mp hnodup).1
  exact scan_eq_none hlinked hr hlength hnone b ((hmem b).mpr fun hf => hf) hb

theorem Marked.congr (h : c.Marked) (hlabel : ∀ b, (c'.buf b).label = (c.buf b).label)
    (hup : ∀ b, (c'.buf b).uptodate = (c.buf b).uptodate)
    (hdirt : ∀ b, (c'.buf b).dirt = (c.buf b).dirt) : c'.Marked where
  unique b b' heq hdev := by
    rw [hlabel, hlabel] at heq
    rw [hlabel] at hdev
    exact h.unique b b' heq hdev
  uptodate b hb := by
    rw [hdirt] at hb
    rw [hup]
    exact h.uptodate b hb
  device b hb := by
    rw [hdirt] at hb
    rw [hlabel]
    exact h.device b hb

/-- The contents of a block do not depend on queues and counters. -/
theorem Current.congr (h : c.Current l d) (hlabel : ∀ b, (c'.buf b).label = (c.buf b).label)
    (hup : ∀ b, (c'.buf b).uptodate = (c.buf b).uptodate)
    (hdirt : ∀ b, (c'.buf b).dirt = (c.buf b).dirt) (hdata : ∀ b, (c'.buf b).data = (c.buf b).data)
    (hdisk : c'.disk = c.disk) : c'.Current l d where
  cached b hl hb := by
    rw [hlabel] at hl
    rw [hup] at hb
    rw [hdata]
    exact h.cached b hl hb
  disk hclean := by
    rw [hdisk]
    refine h.disk fun b hl => ?_
    rw [← hdirt]
    exact hclean b ((hlabel b).trans hl)

/-- What `getblk` and `bread` leave: the buffer `b` has the label `l` and one reference more, only
a free buffer may have lost its label, and every block has its contents. -/
structure Got (c c' : Cache D N) (l : Label) (b : Fin N) : Prop where
  sound : c'.Sound
  label_self : (c'.buf b).label = l
  label : ∀ b', (c'.buf b').label = (c.buf b').label ∨ b' = b ∧ (c.buf b').count = 0
  count_self : (c'.buf b).count = ((c.buf b).count + 1) % 256
  count : ∀ b', b' ≠ b → (c'.buf b').count = (c.buf b').count
  current : ∀ l' d, c.Current l' d → c'.Current l' d

/-- The buffer head that `getblk` takes is clean, and otherwise only its counter and the queues
have changed. -/
theorem take_spec (h : c.Marked) (t : Fin N) :
    (c.take t).queues = c.queues.remove (c.buf t).label t ∧
      (∀ b, ((c.take t).buf b).label = (c.buf b).label) ∧
      ((c.take t).buf t).count = 1 ∧
      (∀ b, b ≠ t → ((c.take t).buf b).count = (c.buf b).count) ∧
      ((c.take t).buf t).dirt = false ∧ (c.take t).Marked ∧
      ∀ l d, c.Current l d → (c.take t).Current l d := by
  set c₁ : Cache D N := { c.setBuf t { c.buf t with count := 1 } with
    queues := c.queues.remove (c.buf t).label t } with hc₁
  have hlabel : ∀ b, (c₁.buf b).label = (c.buf b).label := field_setBuf Buf.label rfl
  have hup : ∀ b, (c₁.buf b).uptodate = (c.buf b).uptodate := field_setBuf Buf.uptodate rfl
  have hdirt : ∀ b, (c₁.buf b).dirt = (c.buf b).dirt := field_setBuf Buf.dirt rfl
  have hself : (c₁.buf t).count = 1 := congrArg Buf.count (c.setBuf_self (b := t))
  have hcount : ∀ b, b ≠ t → (c₁.buf b).count = (c.buf b).count := fun b hb =>
    congrArg Buf.count (c.setBuf_of_ne hb)
  have hmarked : c₁.Marked := h.congr hlabel hup hdirt
  have hcurrent : ∀ l d, c.Current l d → c₁.Current l d := fun l d hc =>
    hc.congr hlabel hup hdirt (field_setBuf Buf.data rfl) rfl
  -- `sync_dev` is called for a dirty buffer only.
  by_cases hd : (c.buf t).dirt = true
  · have htake : c.take t = c₁.syncDev (some (c.buf t).label.dev) := if_pos hd
    have hf := flushed_syncDev hmarked (some (c.buf t).label.dev)
    rw [htake]
    refine ⟨hf.queues, fun b => (hf.label b).trans (hlabel b), (hf.count t).trans hself,
      fun b hb => (hf.count b).trans (hcount b hb), clean_syncDev hmarked fun d hdev => ?_,
      hf.marked hmarked, fun l d hc => hf.current l d (hcurrent l d hc)⟩
    rw [hlabel]
    exact Option.some.inj hdev
  · have htake : c.take t = c₁ := if_neg hd
    rw [htake]
    exact ⟨rfl, hlabel, hself, hcount, (hdirt t).trans (by simpa using hd), hmarked, hcurrent⟩

/-- A clean buffer loses its label without loss of contents. -/
theorem Current.renew (h : c.Current l d) (hclean : (c.buf t).dirt = false) :
    (c.setBuf t ((c.buf t).renew l')).Current l d where
  cached b hl hb := by
    by_cases hbt : b = t
    · rw [hbt, setBuf_self] at hb
      cases hb
    · rw [setBuf_of_ne hbt] at hl hb ⊢
      exact h.cached b hl hb
  disk hclean' := by
    refine h.disk fun b hl => ?_
    by_cases hbt : b = t
    · rw [hbt, hclean]
    · have hb := hclean' b (by rwa [setBuf_of_ne hbt])
      rwa [setBuf_of_ne hbt] at hb

/-! ### `getblk` and `bread` -/

/-- `getblk` finds the buffer of the block. -/
private theorem got_found (h : c.Sound) (hfind : c.find l = some b) :
    Got c (c.setBuf b { c.buf b with count := ((c.buf b).count + 1) % 256 }) l b := by
  set x : Buf D := { c.buf b with count := ((c.buf b).count + 1) % 256 } with hx
  have hlabel : ∀ b', ((c.setBuf b x).buf b').label = (c.buf b').label := field_setBuf Buf.label rfl
  have hup : ∀ b', ((c.setBuf b x).buf b').uptodate = (c.buf b').uptodate :=
    field_setBuf Buf.uptodate rfl
  have hdirt : ∀ b', ((c.setBuf b x).buf b').dirt = (c.buf b').dirt := field_setBuf Buf.dirt rfl
  obtain ⟨-, hl, -⟩ := h.formed.toHashed.find_eq_some hfind
  refine ⟨⟨h.toMarked.congr hlabel hup hdirt, ?_⟩, (hlabel b).trans hl, fun b' => .inl (hlabel b'),
    ?_, fun b' hb' => ?_, fun l' d hc => hc.congr hlabel hup hdirt (field_setBuf Buf.data rfl) rfl⟩
  · exact h.formed.congr (fun b' _ => hlabel b') fun _ => Iff.rfl
  · rw [setBuf_self]
  · rw [setBuf_of_ne hb']

/-- `getblk` gives the block to a buffer that is free. -/
private theorem got_taken (h : c.Sound) (hfind : c.find l = none) (hl : l.dev ≠ 0)
    (hcount : (c.buf t).count = 0) :
    let c₁ := (c.take t).setBuf t (((c.take t).buf t).renew l)
    c₁.find l = none ∧ Got c { c₁ with queues := c₁.queues.insert l t } l t := by
  intro c₁
  obtain ⟨hqueues, htlabel, htcount, hcounts, hclean, hmarked, hcurrent⟩ :=
    take_spec h.toMarked t
  have hself : c₁.buf t = ((c.take t).buf t).renew l := setBuf_self
  have hother : ∀ b, b ≠ t → c₁.buf b = (c.take t).buf b := fun b hb => setBuf_of_ne hb
  have hlabels : c₁.labels = Function.update c.labels t l := by
    funext b
    by_cases hb : b = t
    · rw [hb, Function.update_self]
      exact congrArg Buf.label hself
    · rw [Function.update_of_ne hb]
      exact (congrArg Buf.label (hother b hb)).trans (htlabel b)
  have hnew : ∀ b, b ≠ t → c.labels b ≠ l := fun b _ =>
    h.formed.toHashed.find_eq_none hl hfind b fun hf => hf
  have hformed : (c₁.queues.insert l t).Formed c₁.labels fun _ => False := by
    rw [hlabels]
    change ((c.take t).queues.insert l t).Formed _ _
    rw [hqueues]
    exact h.formed.recycle fun _ => hnew
  have hdirty : ∀ b, (c₁.buf b).dirt = true → b ≠ t ∧ ((c.take t).buf b).dirt = true := by
    intro b hb
    by_cases hbt : b = t
    · rw [hbt, hself] at hb
      cases hb
    · rw [hother b hbt] at hb
      exact ⟨hbt, hb⟩
  refine ⟨?_, ⟨⟨fun b b' heq hdev => ?_, fun b hb => ?_, fun b hb => ?_⟩, hformed⟩,
    congrArg Buf.label hself, fun b => ?_, ?_, fun b hb => ?_, fun l' d hc => ?_⟩
  · -- The buffer head itself is not in the queues.
    have hhashed : (c₁.queues).Hashed c₁.labels fun b => False ∨ b = t := by
      change ((c.take t).queues).Hashed _ _
      rw [hqueues, hlabels]
      refine (h.formed.toHashed.remove (b := t) fun hf => hf).congr (fun b hb => ?_)
        fun _ => Iff.rfl
      exact Function.update_of_ne (fun hbt => hb (.inr hbt)) _ _
    refine Option.eq_none_iff_forall_ne_some.mpr fun b hb => ?_
    obtain ⟨hbt, hbl, -⟩ := hhashed.find_eq_some hb
    rw [hlabels, Function.update_of_ne fun heq => hbt (.inr heq)] at hbl
    exact hnew b (fun heq => hbt (.inr heq)) hbl
  · exact hformed.unique b b' (fun hf => hf) (fun hf => hf) hdev heq
  · obtain ⟨hbt, hb⟩ := hdirty b hb
    exact (congrArg Buf.uptodate (hother b hbt)).trans (hmarked.uptodate b hb)
  · obtain ⟨hbt, hb⟩ := hdirty b hb
    change (c₁.buf b).label.dev ≠ 0
    rw [hother b hbt]
    exact hmarked.device b hb
  · by_cases hbt : b = t
    · exact .inr ⟨hbt, hbt ▸ hcount⟩
    · exact .inl ((congrArg Buf.label (hother b hbt)).trans (htlabel b))
  · rw [hcount]
    exact (congrArg Buf.count hself).trans htcount
  · exact (congrArg Buf.count (hother b hb)).trans (hcounts b hb)
  · have hrenew : c₁.Current l' d := (hcurrent l' d hc).renew hclean
    exact ⟨hrenew.cached, hrenew.disk⟩

/-- When a buffer is free, `getblk` returns a buffer for the block at the first attempt. -/
theorem getblk_got (h : c.Sound) (hfree : ∃ b, (c.buf b).count = 0) (hl : l.dev ≠ 0) (fuel : ℕ) :
    ∃ c' b, getblk l (fuel + 1) c = some (c', b) ∧ Got c c' l b := by
  rw [getblk]
  cases hfind : c.find l with
  | some b => exact ⟨_, b, rfl, got_found h hfind⟩
  | none =>
    obtain ⟨t, ht⟩ := exists_scan h hfree
    obtain ⟨hnone, hgot⟩ := got_taken h hfind hl (scan_count ht)
    simp only [ht, hnone]
    exact ⟨_, t, rfl, hgot⟩

/-- Reading a buffer that is not up to date keeps the contents of every block. -/
private theorem got_read (h : Got c c' l b) (hup : (c'.buf b).uptodate = false) :
    Got c (c'.read b) l b := by
  have hlabel : ∀ b', ((c'.read b).buf b').label = (c'.buf b').label := field_setBuf Buf.label rfl
  have hcount : ∀ b', ((c'.read b).buf b').count = (c'.buf b').count := field_setBuf Buf.count rfl
  have hself : (c'.read b).buf b =
      { c'.buf b with data := c'.disk (c'.buf b).label, uptodate := true, dirt := false } :=
    setBuf_self
  have hother : ∀ b', b' ≠ b → (c'.read b).buf b' = c'.buf b' := fun b' hb' => setBuf_of_ne hb'
  have hdirt : ∀ b', ((c'.read b).buf b').dirt = true → b' ≠ b ∧ (c'.buf b').dirt = true := by
    intro b' hb'
    by_cases hbb : b' = b
    · rw [hbb, hself] at hb'
      cases hb'
    · rw [hother b' hbb] at hb'
      exact ⟨hbb, hb'⟩
  refine ⟨⟨⟨fun b₁ b₂ heq hdev => ?_, fun b' hb' => ?_, fun b' hb' => ?_⟩, ?_⟩,
    (hlabel b).trans h.label_self, fun b' => ?_, (hcount b).trans h.count_self,
    fun b' hb' => (hcount b').trans (h.count b' hb'), fun l' d hc => ?_⟩
  · rw [hlabel, hlabel] at heq
    rw [hlabel] at hdev
    exact h.sound.unique b₁ b₂ heq hdev
  · obtain ⟨hbb, hb'⟩ := hdirt b' hb'
    rw [hother b' hbb]
    exact h.sound.uptodate b' hb'
  · rw [hlabel]
    exact h.sound.device b' (hdirt b' hb').2
  · exact h.sound.formed.congr (fun b' _ => hlabel b') fun _ => Iff.rfl
  · rw [hlabel]
    exact h.label b'
  · have hc' := h.current l' d hc
    refine ⟨fun b' hl' hb' => ?_, fun hclean => ?_⟩
    · rw [hlabel] at hl'
      by_cases hbb : b' = b
      · -- No other buffer has the label, and this one is not dirty, so the disk has the contents.
        subst hbb
        rw [hself]
        dsimp only
        rw [hl']
        refine hc'.disk fun b₁ hl₁ => Bool.eq_false_iff.mpr fun hb₁ => ?_
        have heq := h.sound.unique b₁ b' (hl₁.trans hl'.symm) (h.sound.device b₁ hb₁)
        rw [heq] at hb₁
        exact absurd (hup.symm.trans (h.sound.uptodate b' hb₁)) (by simp)
      · rw [hother b' hbb] at hb' ⊢
        exact hc'.cached b' hl' hb'
    · refine hc'.disk fun b' hl' => ?_
      by_cases hbb : b' = b
      · rw [hbb]
        refine Bool.eq_false_iff.mpr fun hb₁ => ?_
        exact absurd (hup.symm.trans (h.sound.uptodate b hb₁)) (by simp)
      · have hb' := hclean b' ((hlabel b').trans hl')
        rwa [hother b' hbb] at hb'

/-- When a buffer is free, `bread` returns a buffer that is up to date. -/
theorem bread_got (h : c.Sound) (hfree : ∃ b, (c.buf b).count = 0) (hl : l.dev ≠ 0) (fuel : ℕ) :
    ∃ c' b, c.bread l (fuel + 1) = some (c', b) ∧ Got c c' l b ∧ (c'.buf b).uptodate = true := by
  obtain ⟨c', b, hget, hgot⟩ := getblk_got h hfree hl fuel
  rw [bread, hget, Option.map_some]
  dsimp only
  cases hup : (c'.buf b).uptodate with
  | true => exact ⟨c', b, rfl, hgot, hup⟩
  | false =>
    exact ⟨c'.read b, b, rfl, got_read hgot hup, congrArg Buf.uptodate (c'.setBuf_self (b := b))⟩

/-! ### Changing a block -/

/-- What a change of the block `l` by `f` leaves: every block but `l` has its contents, and the
references are what they were. -/
structure Modified (c c' : Cache D N) (l : Label) (f : D → D) : Prop where
  sound : c'.Sound
  count : ∀ b, (c'.buf b).count = (c.buf b).count
  room : ∀ l', c'.Room l' ↔ c.Room l'
  changed : ∃ d, c'.Current l (f d)
  self : ∀ d, c.Current l d → c'.Current l (f d)
  other : ∀ l' d, l' ≠ l → c.Current l' d → c'.Current l' d

/-- When a buffer is free and the counter of the block can be raised, a block is changed, and only
this one. -/
theorem modify_modified (h : c.Sound) (hfree : ∃ b, (c.buf b).count = 0) (hl : l.dev ≠ 0)
    (hroom : c.Room l) (f : D → D) (fuel : ℕ) :
    ∃ c', c.modify l f (fuel + 1) = some c' ∧ Modified c c' l f := by
  obtain ⟨c₁, b, hbread, hgot, hup⟩ := bread_got h hfree hl fuel
  have hcount : (c₁.buf b).count = (c.buf b).count + 1 := by
    have hlt : (c.buf b).count < 255 := by
      rcases hgot.label b with hb | ⟨-, hb⟩
      · exact hroom b (hb.symm.trans hgot.label_self)
      · omega
    rw [hgot.count_self, Nat.mod_eq_of_lt (by omega)]
  set x : Buf D :=
    { c₁.buf b with data := f (c₁.buf b).data, dirt := true, count := (c.buf b).count } with hx
  have hself : (c₁.setBuf b x).buf b = x := setBuf_self
  have hother : ∀ b', b' ≠ b → (c₁.setBuf b x).buf b' = c₁.buf b' := fun b' hb' => setBuf_of_ne hb'
  have hmodify : c.modify l f (fuel + 1) = some (c₁.setBuf b x) := by
    rw [modify, hbread]
    change (c₁.store b f).brelse b = _
    have hstore : (c₁.store b f).buf b =
        { c₁.buf b with data := f (c₁.buf b).data, dirt := true } := setBuf_self
    rw [brelse, hstore, if_neg (by simp [hcount])]
    simp only [hcount, Nat.add_sub_cancel]
    rw [store, setBuf, setBuf, setBuf, Function.update_idem]
  have hlabel : ∀ b', ((c₁.setBuf b x).buf b').label = (c₁.buf b').label :=
    field_setBuf Buf.label rfl
  have huptodate : ∀ b', ((c₁.setBuf b x).buf b').uptodate = (c₁.buf b').uptodate :=
    field_setBuf Buf.uptodate rfl
  have hmarked : (c₁.setBuf b x).Marked := by
    refine ⟨fun b₁ b₂ heq hdev => ?_, fun b' hb' => ?_, fun b' hb' => ?_⟩
    · rw [hlabel, hlabel] at heq
      rw [hlabel] at hdev
      exact hgot.sound.unique b₁ b₂ heq hdev
    · rw [huptodate]
      by_cases hbb : b' = b
      · rwa [hbb]
      · rw [hother b' hbb] at hb'
        exact hgot.sound.uptodate b' hb'
    · rw [hlabel]
      by_cases hbb : b' = b
      · rwa [hbb, hgot.label_self]
      · rw [hother b' hbb] at hb'
        exact hgot.sound.device b' hb'
  have hcurrent : (c₁.setBuf b x).Current l (f (c₁.buf b).data) := by
    have hdirt := hmarked.current (b := b) (congrArg Buf.dirt hself)
    rw [hlabel, hgot.label_self, hself] at hdirt
    exact hdirt
  have hcounts : ∀ b', ((c₁.setBuf b x).buf b').count = (c.buf b').count := fun b' => by
    by_cases hbb : b' = b
    · rw [hbb, hself]
    · rw [hother b' hbb]
      exact hgot.count b' hbb
  refine ⟨_, hmodify, ⟨hmarked, hgot.sound.formed.congr (fun b' _ => hlabel b') fun _ => Iff.rfl⟩,
    hcounts, fun l' => ⟨fun hroom' b' hl' => ?_, fun hroom' b' hl' => ?_⟩, ⟨_, hcurrent⟩,
    fun d hc => ?_, fun l' d hne hc => ?_⟩
  · rcases hgot.label b' with hb' | ⟨-, hb'⟩
    · rw [← hcounts]
      exact hroom' b' ((hlabel b').trans (hb'.trans hl'))
    · omega
  · rw [hcounts]
    rw [hlabel] at hl'
    rcases hgot.label b' with hb' | ⟨-, hb'⟩
    · exact hroom' b' (hb'.symm.trans hl')
    · omega
  · rw [← (hgot.current l d hc).cached b hgot.label_self hup]
    exact hcurrent
  · have hc₁ := hgot.current l' d hc
    have hne' : ∀ b', (c₁.buf b').label = l' → b' ≠ b := fun b' hl' hbb =>
      hne (hl'.symm.trans (hbb ▸ hgot.label_self))
    refine ⟨fun b' hl' hb' => ?_, fun hclean => hc₁.disk fun b' hl' => ?_⟩
    · rw [hlabel] at hl'
      rw [hother b' (hne' b' hl')] at hb' ⊢
      exact hc₁.cached b' hl' hb'
    · have hb' := hclean b' ((hlabel b').trans hl')
      rwa [hother b' (hne' b' hl')] at hb'

/-- A block is changed only if its counter can be raised: otherwise `brelse` panics. -/
theorem room_of_modify (h : c.Sound) (hcount : ∀ b, (c.buf b).count < 256) (hl : l.dev ≠ 0)
    {f : D → D} {fuel : ℕ} (hmodify : c.modify l f (fuel + 1) = some c') : c.Room l := by
  intro b hb
  by_contra hfull
  cases hfind : c.find l with
  | none => exact h.formed.toHashed.find_eq_none hl hfind b (fun hf => hf) hb
  | some b' =>
    obtain ⟨-, hb', -⟩ := h.formed.toHashed.find_eq_some hfind
    obtain rfl : b' = b := h.unique b' b (hb'.trans hb.symm) fun hdev =>
      hl (congrArg Label.dev hb' ▸ hdev)
    have hlt := hcount b'
    have hzero : ((c.buf b').count + 1) % 256 = 0 := by omega
    rw [modify, bread, getblk, hfind] at hmodify
    simp only [Option.map_some, Option.bind_some, hzero] at hmodify
    split_ifs at hmodify <;> simp [brelse, store, read] at hmodify

end Cache

end Linux001.BufferCache
