import Linux001.Fs.Access
import Linux001.Fs.NewBlocks
import Linux001.Lib.Overlay

/-!
# The contents of files

A file is a sequence of bytes with a length. The bytes of a block that is missing are zero, and what
is read and written of a file does not depend on where its blocks are, on the tables that name them
and on what is in the cache. `file_read` and `file_write` are the operations on such a sequence, and
leave all other files of the device as they are.

## Main definitions

* `Contents`: a length and bytes, with `Contents.read` and `Contents.write`.
* `View.file`: the contents of a file of the device.
* `Live`: a file in core, on a device whose zones have one owner each.
* `Wrote`: one file has new contents, and nothing else has changed.

## Main results

* `succeeds_fileWriteFrom`: `file_write` writes all bytes, or as many as there are blocks for.
* `succeeds_fileReadFrom`: `file_read` reads the bytes and changes nothing.
-/

namespace Linux001.Fs

/-! ### Contents -/

/-- A file as its users see it. The bytes from the length on are not part of it, but become so when
the file is written beyond them. -/
@[ext]
structure Contents where
  size : ℕ
  byte : ℕ → UInt8

namespace Contents

/-- `k` bytes are written at `pos`. -/
def write (c : Contents) (pos k : ℕ) (f : ℕ → UInt8) : Contents :=
  if k = 0 then c else ⟨max c.size (pos + k), overlay c.byte pos k f⟩

/-- At most `k` bytes are read at `pos`. -/
def read (c : Contents) (pos k : ℕ) : List UInt8 :=
  (List.range (min k (c.size - pos))).map fun i => c.byte (pos + i)

/-- There are only zeros past the end. -/
def Clean (c : Contents) : Prop := ∀ i, c.size ≤ i → c.byte i = 0

variable {c : Contents} {pos k k' : ℕ} {f : ℕ → UInt8}

theorem write_zero (c : Contents) (pos : ℕ) (f : ℕ → UInt8) : c.write pos 0 f = c := if_pos rfl

/-- Writing in two parts. -/
theorem write_write (c : Contents) (pos k k' : ℕ) (f : ℕ → UInt8) :
    (c.write pos k f).write (pos + k) k' (fun i => f (k + i)) = c.write pos (k + k') f := by
  rcases Nat.eq_zero_or_pos k with rfl | hk
  · simp only [write_zero, Nat.add_zero, Nat.zero_add]
  · rcases Nat.eq_zero_or_pos k' with rfl | hk'
    · rw [write_zero, Nat.add_zero]
    · rw [write, if_neg hk'.ne', write, if_neg hk.ne', write, if_neg (by omega)]
      ext1
      · dsimp only
        omega
      · exact overlay_add ..

/-- What has been skipped reads as zeros. -/
theorem Clean.write (h : c.Clean) (pos k : ℕ) (f : ℕ → UInt8) : (c.write pos k f).Clean := by
  unfold Contents.write
  split_ifs with hk
  · exact h
  · intro i hi
    dsimp only at hi ⊢
    rw [overlay_of_notMem (.inr (by omega))]
    exact h i (by omega)

end Contents

/-! ### Files of the device -/

/-- `i_size = size`. -/
def Inode.setSize (i : Inode) (size : ℕ) : Inode := { i with size := size }

namespace View

variable {sb : Super} {V : View} {n k z : ℕ}

/-- The contents of a file. -/
def file (V : View) (n : ℕ) : Contents :=
  ⟨(V.ino n).size, fun i => V.content n (i / 1024) (i % 1024)⟩

/-- The bytes of a block are replaced. -/
def setBlock (V : View) (z : ℕ) (b : Block) : View := { V with data := Function.update V.data z b }

def setSize (V : View) (n size : ℕ) : View :=
  { V with ino := Function.update V.ino n ((V.ino n).setSize size) }

theorem ino_setSize (V : View) (n size m : ℕ) : (V.setSize n size).ino m =
    if m = n then (V.ino n).setSize size else V.ino m :=
  Function.update_apply ..

theorem zone_setSize (V : View) (n size m : ℕ) :
    ((V.setSize n size).ino m).zone = (V.ino m).zone := by
  rw [ino_setSize]
  split_ifs with hm
  · rw [hm]
    rfl
  · rfl

theorem mode_setSize (V : View) (n size m : ℕ) :
    ((V.setSize n size).ino m).mode = (V.ino m).mode := by
  rw [ino_setSize]
  split_ifs with hm
  · rw [hm]
    rfl
  · rfl

theorem hasZones_setSize {size m : ℕ} : (V.setSize n size).HasZones sb m ↔ V.HasZones sb m :=
  hasZones_congr rfl (mode_setSize V n size m)

theorem zoneAt_setSize (size m : ℕ) (p : Path) : (V.setSize n size).zoneAt m p = V.zoneAt m p :=
  zoneAt_congr (zone_setSize V n size m) (fun _ _ => rfl) p

/-- Changing the bytes of a block of a file keeps all places and the other blocks. -/
theorem zoneAt_setBlock (h : V.Owned sb none) (hn : V.HasZones sb n) (hz : V.leaf n k ≠ 0)
    (b : Block) {m : ℕ} (hm : V.HasZones sb m) (p : Path) :
    (V.setBlock (V.leaf n k) b).zoneAt m p = V.zoneAt m p := by
  have hino : ((V.setBlock (V.leaf n k) b).ino m).zone = (V.ino m).zone := rfl
  refine zoneAt_congr hino (fun T hT => Function.update_of_ne ?_ ..) p
  exact h.leaf_ne_table hn hm hz T

/-- The zones are owned as before when no place and no bit has changed. -/
theorem owned_congr {V' : View} (hzones : ∀ m, V'.HasZones sb m ↔ V.HasZones sb m)
    (hzmap : V'.zmap = V.zmap)
    (hplace : ∀ m, V.HasZones sb m → ∀ p, V'.zoneAt m p = V.zoneAt m p) :
    (V.Owned sb none → V'.Owned sb none) ∧ (V.Exact sb → V'.Exact sb) := by
  have hused (w : ℕ) : V'.Used sb w ↔ V.Used sb w := by
    unfold Used
    rw [hzmap]
  have howns (a : ℕ × Path) (w : ℕ) : V'.Owns sb a w ↔ V.Owns sb a w := by
    unfold Owns
    rw [hzones]
    exact and_congr_right fun hm => by rw [hplace a.1 hm]
  refine ⟨fun h => ⟨?_, hzmap ▸ h.reserved⟩, fun he w hw => ?_⟩
  · exact h.exclusive.mono (fun a w => (howns a w).mp) fun w => (hused w).mpr
  · obtain ⟨a, ha⟩ := he w ((hused w).mp hw)
    exact ⟨a, (howns a w).mpr ha⟩

theorem content_setBlock (h : V.Owned sb none) (hn : V.HasZones sb n) (hz : V.leaf n k ≠ 0)
    (b : Block) {m : ℕ} (hm : V.HasZones sb m) (j : ℕ) :
    (V.setBlock (V.leaf n k) b).content m j = if m = n ∧ j = k then b else V.content m j := by
  have hleaf : (V.setBlock (V.leaf n k) b).leaf m j = V.leaf m j :=
    leaf_congr (zoneAt_setBlock h hn hz b hm _)
  split_ifs with hmj
  · obtain ⟨rfl, rfl⟩ := hmj
    rw [content, hleaf, if_neg hz]
    exact Function.update_self ..
  · refine content_congr hleaf fun h0 => Function.update_of_ne (fun heq => hmj ?_) ..
    exact h.leaf_inj hm hn h0 heq

/-- An inode apart from its length and its zones. -/
def attrs (V : View) (n : ℕ) : Inode := { (V.ino n).bare with size := 0 }

/-- The file `n` has the contents `c` now. -/
structure Wrote (sb : Super) (V : View) (n : ℕ) (c : Contents) (V' : View) : Prop where
  imap : V'.imap = V.imap
  attrs : ∀ m, V'.attrs m = V.attrs m
  file : V'.file n = c
  others : ∀ m, m ≠ n → V.HasZones sb m → V'.file m = V.file m

namespace Wrote

variable {V' V'' : View} {c c' : Contents}

theorem mode (h : V.Wrote sb n c V') (m : ℕ) : (V'.ino m).mode = (V.ino m).mode := by
  have hmode := congrArg Inode.mode (h.attrs m)
  exact hmode

theorem hasZones (h : V.Wrote sb n c V') {m : ℕ} : V'.HasZones sb m ↔ V.HasZones sb m :=
  hasZones_congr h.imap (h.mode m)

theorem trans (h : V.Wrote sb n c V') (h' : V'.Wrote sb n c' V'') : V.Wrote sb n c' V'' :=
  ⟨h'.imap.trans h.imap, fun m => (h'.attrs m).trans (h.attrs m), h'.file, fun m hm hzones =>
    (h'.others m hm (h.hasZones.mpr hzones)).trans (h.others m hm hzones)⟩

end Wrote

/-- Adding blocks changes no file. -/
theorem Extends.file {V' : View} (h : V.Extends sb V') {m : ℕ} (hm : V.HasZones sb m) :
    V'.file m = V.file m := by
  rw [View.file, View.file, h.size, funext fun j => h.content m j hm]

theorem Extends.wrote {V' : View} (h : V.Extends sb V') (hn : V.HasZones sb n) :
    V.Wrote sb n (V.file n) V' :=
  ⟨h.imap, fun m => congrArg (fun i : Inode => { i with size := 0 }) (h.bare m), h.file hn,
    fun _ _ hm => h.file hm⟩

/-- A turn of `file_write`: bytes are copied into a block of the file, and the length is set. -/
theorem wrote_setBlock (h : V.Owned sb none) (hn : V.HasZones sb n) {pos len : ℕ}
    (hz : V.leaf n (pos / 1024) ≠ 0) (hlen : 0 < len) (hle : pos % 1024 + len ≤ 1024)
    (f : ℕ → UInt8) :
    let V' := (V.setSize n (max (V.ino n).size (pos + len))).setBlock (V.leaf n (pos / 1024))
      (overlay (V.data (V.leaf n (pos / 1024))) (pos % 1024) len f)
    (V'.Owned sb none ∧ (V.Exact sb → V'.Exact sb)) ∧
      V.Wrote sb n ((V.file n).write pos len f) V' := by
  set z := V.leaf n (pos / 1024) with hz'
  set V₁ := V.setSize n (max (V.ino n).size (pos + len)) with hV₁
  intro V'
  have hleaf (m j : ℕ) : V₁.leaf m j = V.leaf m j := leaf_congr (zoneAt_setSize _ _ _)
  have hn₁ : V₁.HasZones sb n := hasZones_setSize.mpr hn
  have hsized : (V.Owned sb none → V₁.Owned sb none) ∧ (V.Exact sb → V₁.Exact sb) :=
    owned_congr (fun _ => hasZones_setSize) rfl fun m _ => zoneAt_setSize _ m
  have h₁ : V₁.Owned sb none := hsized.1 h
  have hz₁ : V₁.leaf n (pos / 1024) ≠ 0 := by rwa [hleaf]
  have hV' : V' = V₁.setBlock (V₁.leaf n (pos / 1024)) (overlay (V.data z) (pos % 1024) len f) := by
    rw [hleaf]
  have hcontent (m j : ℕ) (hm : V.HasZones sb m) : V'.content m j =
      if m = n ∧ j = pos / 1024 then overlay (V.data z) (pos % 1024) len f else V.content m j := by
    rw [hV', content_setBlock h₁ hn₁ hz₁ _ (hasZones_setSize.mpr hm)]
    refine if_congr Iff.rfl rfl ?_
    exact content_congr (hleaf m j) fun _ => rfl
  refine ⟨?_, rfl, fun m => ?_, ?_, fun m hmn hm => ?_⟩
  · have hset : (V₁.Owned sb none → V'.Owned sb none) ∧ (V₁.Exact sb → V'.Exact sb) := by
      rw [hV']
      exact owned_congr (fun _ => Iff.rfl) rfl fun m hm p => zoneAt_setBlock h₁ hn₁ hz₁ _ hm p
    exact ⟨hset.1 h₁, fun he => hset.2 (hsized.2 he)⟩
  · change { (V₁.ino m).bare with size := 0 } = { (V.ino m).bare with size := 0 }
    rw [hV₁, ino_setSize]
    split_ifs with hm
    · rw [hm]
      rfl
    · rfl
  · rw [Contents.write, if_neg hlen.ne']
    have hsize : (V'.ino n).size = max (V.ino n).size (pos + len) := by
      change (V₁.ino n).size = _
      rw [hV₁, ino_setSize, if_pos rfl]
      rfl
    ext1
    · exact hsize
    · funext i
      dsimp only [View.file]
      rw [hcontent n _ hn, overlay]
      have hold : V.content n (pos / 1024) = V.data z := if_neg hz
      by_cases hi : i / 1024 = pos / 1024
      · rw [if_pos ⟨rfl, hi⟩, overlay, hi, hold]
        split_ifs <;> first | rfl | omega | exact congrArg f (by omega)
      · rw [if_neg fun hc => hi hc.2, if_neg (by omega)]
  · have hsize : (V'.ino m).size = (V.ino m).size := by
      change (V₁.ino m).size = _
      rw [hV₁, ino_setSize, if_neg hmn]
    have hbytes (j : ℕ) : V'.content m j = V.content m j := by
      rw [hcontent m j hm, if_neg fun hc => hmn hc.1]
    rw [View.file, View.file, hsize, funext hbytes]

end View

/-! ### `file_write` -/

/-- The file `n` is in core and has zones, every zone has at most one owner, and no buffer is
held. -/
structure Live (sb : Super) (n : ℕ) (s : State) : Prop where
  owned : s.view.Owned sb none
  held : s.cache.Held []
  zones : s.view.HasZones sb n
  core : s.count n ≠ 0

variable {sb : Super} {s s' : State} {n k z pos i count : ℕ} {buf : ℕ → UInt8}

theorem view_of_cached {l : List ℕ} (h : Cached s s' l) : s'.view = s.view := by
  obtain ⟨c, rfl, hdata, -⟩ := h
  exact congrArg (fun d => { s.view with data := d }) hdata

theorem count_of_cached {l : List ℕ} (h : Cached s s' l) : s'.count = s.count := by
  obtain ⟨c, rfl, -⟩ := h
  rfl

/-- What `file_write` leaves after it has written `k` bytes of `f` at `pos`. -/
structure Writing (sb : Super) (n pos k : ℕ) (f : ℕ → UInt8) (s s' : State) : Prop where
  live : Live sb n s'
  count : s'.count = s.count
  exact : s.view.Exact sb → s'.view.Exact sb
  wrote : s.view.Wrote sb n ((s.view.file n).write pos k f) s'.view

/-- Adding blocks writes nothing. -/
theorem Live.writing (h : Live sb n s') (hn : s.view.HasZones sb n) (hcount : s'.count = s.count)
    (henlarged : s.view.Enlarged sb s'.view) (pos : ℕ) (f : ℕ → UInt8) :
    Writing sb n pos 0 f s s' := by
  refine ⟨h, hcount, henlarged.exact, ?_⟩
  rw [Contents.write_zero]
  exact henlarged.extended.wrote hn

theorem Writing.trans {s'' : State} {k' : ℕ} {f : ℕ → UInt8} (h : Writing sb n pos k f s s')
    (h' : Writing sb n (pos + k) k' (fun j => f (k + j)) s' s'') :
    Writing sb n pos (k + k') f s s'' := by
  refine ⟨h'.live, h'.count.trans h.count, fun he => h'.exact (h.exact he), ?_⟩
  have hwrote := h.wrote.trans h'.wrote
  rwa [h.wrote.file, Contents.write_write] at hwrote

theorem copyIn_eq (buf : ℕ → UInt8) (i o len : ℕ) (b : Block) :
    copyIn buf i o len b = overlay b o len fun j => buf (i + j) := rfl

/-- The rest of a turn, once the block has been read: bytes are stored and the buffer is
released. -/
theorem succeeds_storeBlock {s₁ s₂ : State} {d : ℕ → Bool} {len : ℕ} (h : Live sb n s₁)
    (hz : s₁.view.leaf n (pos / 1024) = z) (hz0 : z ≠ 0) (hlen : 0 < len)
    (hle : pos % 1024 + len ≤ 1024) (hread : Cached s₁ s₂ [z]) :
    Succeeds (store z (copyIn buf i (pos % 1024) len) >>= fun _ => brelse z)
      { s₂ with
        dirt := d
        ino := Function.update s₂.ino n
          ((s₂.ino n).setSize (max (s₂.ino n).size (pos + len))) } fun _ s' =>
      Writing sb n pos len (fun j => buf (i + j)) s₁ s' := by
  set f : ℕ → UInt8 := fun j => buf (i + j) with hf
  obtain ⟨c, rfl, hdata, hheld⟩ := hread
  have hcore : s₁.count n ≠ 0 := h.core
  have hino : s₁.view.ino n = s₁.ino n := State.cur_of_count hcore
  have hready : c.Ready z := hheld.sound.held z (by rw [hheld.count]; simp)
  have hstored : (c.store z (copyIn buf i (pos % 1024) len)).Held [z] := by
    refine ⟨hheld.sound.store _, fun x => ?_, hheld.two_le⟩
    rw [Cache.count_store]
    exact hheld.count x
  rw [store, succeeds_modify_bind]
  refine (succeeds_brelse hstored List.mem_cons_self).mono fun _ s' hs' => ?_
  rw [List.erase_cons_head] at hs'
  -- The state in which the buffer has been released.
  have hview : s'.view = ((s₁.view.setSize n (max (s₁.view.ino n).size (pos + len))).setBlock z
      (overlay (s₁.view.data z) (pos % 1024) len f)) := by
    have hedit := view_edit hcore d fun v => v.setSize (max (s₁.ino n).size (pos + len))
    have hbytes : (c.store z (copyIn buf i (pos % 1024) len)).data =
        Function.update s₁.data z (overlay (s₁.data z) (pos % 1024) len f) := by
      rw [Cache.data_store hready, hdata, copyIn_eq]
    rw [view_of_cached hs', hino]
    refine (congrArg (fun V : View => { V with
      data := (c.store z (copyIn buf i (pos % 1024) len)).data }) hedit).trans ?_
    rw [hbytes]
    rfl
  obtain ⟨⟨howned, hexact⟩, hwrote⟩ := View.wrote_setBlock h.owned h.zones (hz ▸ hz0) hlen hle f
  rw [hz, ← hview] at howned hexact hwrote
  have hcount : s'.count = s₁.count := (count_of_cached hs').trans rfl
  exact ⟨⟨howned, hs'.held, hwrote.hasZones.mpr h.zones, by rwa [hcount]⟩, hcount, hexact, hwrote⟩

/-- The loop of `file_write`. -/
theorem succeeds_fileWriteFrom {fuel : ℕ} (h : Live sb n s) (hi : i ≤ count)
    (hfuel : count - i ≤ fuel) (hfits : pos + (count - i) ≤ maxBlocks * 1024) :
    Succeeds (fileWriteFrom sb n buf count fuel pos i) s fun r s' => ∃ k, r = (pos + k, i + k) ∧
      i + k ≤ count ∧ (i + k < count → s'.Full sb) ∧
        Writing sb n pos k (fun j => buf (i + j)) s s' := by
  induction fuel generalizing s pos i with
  | zero =>
    exact succeeds_pure ⟨0, rfl, hi, fun hlt => absurd hlt (by omega),
      h.writing h.zones rfl (.refl h.owned) pos _⟩
  | succ fuel ih =>
    rw [fileWriteFrom]
    split_ifs with hlt
    · have hk : pos / 1024 < maxBlocks := Nat.div_lt_of_lt_mul (by omega)
      refine (succeeds_createBlock_created h.owned h.held h.zones h.core hk).bind
        fun z s₁ hs₁ => ?_
      have hcount₁ : s₁.count = s.count := congrArg (·.1) hs₁.aside
      have hlive₁ : Live sb n s₁ := ⟨hs₁.enlarged.owned, hs₁.held,
        hs₁.enlarged.extended.hasZones.mpr h.zones, by
        rw [hcount₁]
        exact h.core⟩
      have hnone := hlive₁.writing h.zones hcount₁ hs₁.enlarged pos fun j => buf (i + j)
      split_ifs with hz
      · exact succeeds_pure ⟨0, rfl, hi, fun _ => hs₁.full hz, hnone⟩
      · set len := min (1024 - pos % 1024) (count - i) with hlen
        refine (succeeds_bread hs₁.held (Nat.zero_le 1) z).bind fun _ s₂ hs₂ => ?_
        have hrest (d : ℕ → Bool) : Succeeds (do
            store z (copyIn buf i (pos % 1024) len)
            brelse z
            fileWriteFrom sb n buf count fuel (pos + len) (i + len))
            { s₂ with
              dirt := d
              ino := Function.update s₂.ino n
                ((s₂.ino n).setSize (max (s₂.ino n).size (pos + len))) } fun r s' =>
            ∃ k, r = (pos + k, i + k) ∧ i + k ≤ count ∧ (i + k < count → s'.Full sb) ∧
              Writing sb n pos k (fun j => buf (i + j)) s s' := by
          rw [← bind_assoc]
          refine (succeeds_storeBlock hlive₁ hs₁.leaf hz (by omega) (by omega) hs₂).bind
            fun _ s₃ hs₃ => ?_
          have hs₃ : Writing sb n pos len (fun j => buf (i + j)) s s₃ := by
            rw [← Nat.zero_add len]
            exact hnone.trans (by simpa only [Nat.add_zero, Nat.zero_add] using hs₃)
          refine (ih hs₃.live (by omega) (by omega) (by omega)).mono fun r s' hs' => ?_
          obtain ⟨k, rfl, hle, hfull, hwriting⟩ := hs'
          refine ⟨len + k, ?_, by omega, fun hlt' => hfull (by omega), hs₃.trans ?_⟩
          · rw [Nat.add_assoc, Nat.add_assoc]
          · simpa only [Nat.add_assoc] using hwriting
        rw [succeeds_get_bind]
        split_ifs with hsize
        · rw [edit, succeeds_modify_bind, markDirty, succeeds_modify_bind]
          have hmax : max (s₂.ino n).size (pos + len) = pos + len := by omega
          have hrest' := hrest (Function.update s₂.dirt n true)
          rw [hmax] at hrest'
          exact hrest'
        · have hmax : max (s₂.ino n).size (pos + len) = (s₂.ino n).size := by omega
          have hsame : Function.update s₂.ino n ((s₂.ino n).setSize (s₂.ino n).size) = s₂.ino :=
            Function.update_eq_self ..
          have hrest' := hrest s₂.dirt
          rw [hmax, hsame] at hrest'
          exact hrest'
    · exact succeeds_pure ⟨0, rfl, hi, fun hlt' => absurd hlt' hlt,
        h.writing h.zones rfl (.refl h.owned) pos _⟩

/-! ### `file_read` -/

theorem block_eq_leaf (hcore : s.count n ≠ 0) (hk : k < maxBlocks) :
    (s.ino n).block s.data k = s.view.leaf n k := by
  rw [View.leaf, if_pos hk, zoneAt_view hcore]
  rfl

/-- The bytes of a file up to the end of a block. -/
theorem file_bytes (V : View) (n pos : ℕ) {len : ℕ} (hle : pos % 1024 + len ≤ 1024) :
    ((List.range len).map fun i => (V.file n).byte (pos + i)) =
      (List.range len).map fun i => V.content n (pos / 1024) (pos % 1024 + i) := by
  refine List.map_congr_left fun i hi => ?_
  have hlt := List.mem_range.mp hi
  have hdiv : (pos + i) / 1024 = pos / 1024 := by omega
  have hmod : (pos + i) % 1024 = pos % 1024 + i := by omega
  dsimp only [View.file]
  rw [hdiv, hmod]

theorem file_bytes_add (V : View) (n pos len left : ℕ) (bytes : List UInt8) :
    bytes ++ ((List.range len).map fun i => (V.file n).byte (pos + i)) ++
      ((List.range left).map fun i => (V.file n).byte (pos + len + i)) =
        bytes ++ (List.range (len + left)).map fun i => (V.file n).byte (pos + i) := by
  rw [List.append_assoc, List.range_add, List.map_append, List.map_map]
  simp only [Function.comp_def, Nat.add_assoc]

/-- The loop of `file_read`. -/
theorem succeeds_fileReadFrom {fuel left : ℕ} {bytes : List UInt8} (h : Live sb n s)
    (hfuel : left ≤ fuel) (hfits : pos + left ≤ maxBlocks * 1024) :
    Succeeds (fileReadFrom sb n fuel pos left bytes) s fun r s' =>
      r = (pos + left, bytes ++ (List.range left).map fun i => (s.view.file n).byte (pos + i)) ∧
        Cached s s' [] := by
  induction fuel generalizing s pos left bytes with
  | zero =>
    obtain rfl := Nat.le_zero.mp hfuel
    exact succeeds_pure ⟨by simp, .refl h.held⟩
  | succ fuel ih =>
    rw [fileReadFrom]
    split_ifs with h0
    · rw [h0]
      exact succeeds_pure ⟨by simp, .refl h.held⟩
    · have hk : pos / 1024 < maxBlocks := Nat.div_lt_of_lt_mul (by omega)
      set len := min (1024 - pos % 1024) left with hlen
      refine (succeeds_bmap h.held (Nat.zero_le 1) hk).bind fun z s₁ hs₁ => ?_
      obtain ⟨hz, hs₁⟩ := hs₁
      rw [block_eq_leaf h.core hk] at hz
      have hblock : pos % 1024 + len ≤ 1024 := by omega
      have hbytes := file_bytes s.view n pos hblock
      -- The rest of the loop.
      have hrest {s₂ : State} (hs₂ : Cached s s₂ []) {new : List UInt8}
          (hnew : new = (List.range len).map fun i => (s.view.file n).byte (pos + i)) :
          Succeeds (fileReadFrom sb n fuel (pos + len) (left - len) (bytes ++ new)) s₂ fun r s' =>
            r = (pos + left, bytes ++ (List.range left).map fun i =>
              (s.view.file n).byte (pos + i)) ∧ Cached s s' [] := by
        have hview := view_of_cached hs₂
        have hlive : Live sb n s₂ := ⟨hview ▸ h.owned, hs₂.held, hview ▸ h.zones, by
          rw [count_of_cached hs₂]
          exact h.core⟩
        refine (ih hlive (by omega) (by omega)).mono fun r s' hs' => ?_
        obtain ⟨rfl, hs'⟩ := hs'
        have hleft : len + (left - len) = left := by omega
        refine ⟨?_, hs₂.trans hs'⟩
        rw [hview, hnew, file_bytes_add, Nat.add_assoc, hleft]
      split_ifs with hz0
      · refine hrest hs₁ ?_
        rw [hbytes, View.content, if_pos (hz ▸ hz0)]
        simp [zeroBlock]
      · refine (succeeds_bread hs₁.held (Nat.zero_le 1) z).bind fun _ s₂ hs₂ => ?_
        rw [succeeds_get_bind]
        refine (succeeds_brelse hs₂.held List.mem_cons_self).bind fun _ s₃ hs₃ => ?_
        rw [List.erase_cons_head] at hs₃
        refine hrest (hs₁.trans (hs₂.trans hs₃)) ?_
        rw [hbytes, View.content, if_neg (hz ▸ hz0), hs₂.data, hs₁.data, hz]
        rfl

end Linux001.Fs
