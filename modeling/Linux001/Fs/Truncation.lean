import Linux001.Fs.ZoneTree
import Mathlib.Data.Set.Lattice
import Mathlib.Order.CompletePartialOrder

/-!
# Truncation while buffers are held

What `truncate` of `fs/truncate.c` leaves, when other processes may hold buffers of some of the
blocks. `free_block` frees a zone if nobody holds its buffer; otherwise it keeps the reference that
`get_hash_table` has taken, and the zone stays marked. `truncate` clears the zone numbers of the
inode in either case.

## Main definitions

* `Freed`: the effect on the bitmap and the buffers, for a set of zones.
* `tableZones`, `fileZones`: the zones of a table and of an inode.
* `Frees`: every zone of the inode is marked free, and no counter has changed.

## Main results

* `ensures_truncate`: the effect of `truncate`.
* `frees_iff`: every zone is freed if and only if no buffer of one is held.
-/

namespace Linux001.Fs

/-- The effect of freeing the zones of a set: those whose buffers are not held are marked free, and
the buffers of the others are held once more. -/
structure Freed (sb : Super) (F : Set ℕ) (s s' : State) : Prop where
  zmap : ∀ j, s.zmap j = false → s'.zmap j = false
  cleared : ∀ z ∈ F, s.bcount z = 0 → s'.zmap (sb.bit z) = false
  kept : ∀ z, (z ∈ F → s.bcount z = 0) → s'.bcount z = s.bcount z
  leaked : ∀ z ∈ F, s.bcount z ≠ 0 → s'.bcount z = (s.bcount z + 1) % 256
  data : ∀ z, z ∉ F → s'.data z = s.data z

/-- `b_count` is an `unsigned char`. -/
def State.Counters (s : State) : Prop := ∀ z, s.bcount z < 256

variable {sb : Super} {F F' : Set ℕ} {s s' s'' : State} {n t z : ℕ} {c : Cache}

namespace Freed

theorem refl (s : State) : Freed sb ∅ s s :=
  ⟨fun _ h => h, fun _ h => h.elim, fun _ _ => rfl, fun _ h => h.elim, fun _ _ => rfl⟩

/-- Freeing the zones of two sets one after the other. -/
theorem trans (h : Freed sb F s s') (h' : Freed sb F' s' s'') (hd : Disjoint F F') :
    Freed sb (F ∪ F') s s'' := by
  have hfirst : ∀ z ∈ F', s'.bcount z = s.bcount z := fun z hz =>
    h.kept z fun hzF => (Set.disjoint_left.mp hd hzF hz).elim
  refine ⟨fun j hj => h'.zmap j (h.zmap j hj), fun z hz h0 => ?_, fun z h0 => ?_,
    fun z hz hne => ?_,
    fun z hz => ?_⟩
  · rcases hz with hz | hz
    · exact h'.zmap _ (h.cleared z hz h0)
    · exact h'.cleared z hz ((hfirst z hz).trans h0)
  · have hs' := h.kept z fun hz => h0 (.inl hz)
    rw [← hs']
    refine h'.kept z fun hz => hs'.trans (h0 (.inr hz))
  · rcases hz with hz | hz
    · rw [← h.leaked z hz hne]
      exact h'.kept z fun hz' => (Set.disjoint_left.mp hd hz hz').elim
    · rw [← hfirst z hz]
      exact h'.leaked z hz (by rwa [hfirst z hz])
  · rw [Set.mem_union, not_or] at hz
    exact (h'.data z hz.2).trans (h.data z hz.1)

theorem counters (h : Freed sb F s s') (hs : s.Counters) : s'.Counters := fun z => by
  by_cases hz : z ∈ F → s.bcount z = 0
  · rw [h.kept z hz]
    exact hs z
  · push Not at hz
    rw [h.leaked z hz.1 hz.2]
    exact Nat.mod_lt _ (by omega)

/-- A buffer that is read before and released afterwards, and is not one of those that are freed. -/
theorem around (h : Freed sb F s s') (ht : t ∉ F) {s₀ : State} {c₀ : Cache}
    (hread : Cache.Read s₀.cache t c₀) (hs : s = { s₀ with cache := c₀ })
    (hrel : Cache.Released s'.cache t c) (hlt : s₀.Counters) :
    Freed sb F s₀ { s' with cache := c } := by
  subst hs
  have hcount₀ : ∀ z, c₀.count z = if z = t then (s₀.bcount t + 1) % 256 else s₀.bcount z :=
    fun z => by rw [hread.count, Function.update_apply]; rfl
  have hcount : ∀ z, c.count z = if z = t then s'.bcount t - 1 else s'.bcount z :=
    fun z => by rw [hrel.count, Function.update_apply]; rfl
  have hne : ∀ z ∈ F, z ≠ t := fun z hz heq => ht (heq ▸ hz)
  have hself : s'.bcount t = c₀.count t := h.kept t fun hF => (ht hF).elim
  have hpos : s'.bcount t ≠ 0 := hrel.pos
  have hstart : ∀ z, z ≠ t → State.bcount { s₀ with cache := c₀ } z = s₀.bcount z := fun z hz =>
    (hcount₀ z).trans (if_neg hz)
  refine ⟨h.zmap, fun z hz h0 => ?_, fun z h0 => ?_, fun z hz hne' => ?_, fun z hz => ?_⟩
  · exact h.cleared z hz ((hstart z (hne z hz)).trans h0)
  · refine (hcount z).trans ?_
    split_ifs with hzt
    · rw [hzt, hself, hcount₀, if_pos rfl]
      rw [hself, hcount₀, if_pos rfl] at hpos
      have := hlt t
      omega
    · rw [← hstart z hzt]
      exact h.kept z fun hz => (hstart z hzt).trans (h0 hz)
  · refine (hcount z).trans ((if_neg (hne z hz)).trans ?_)
    rw [← hstart z (hne z hz)]
    exact h.leaked z hz (by rwa [hstart z (hne z hz)])
  · have hdata : c.data z = s'.data z := congrFun hrel.data z
    exact hdata.trans ((h.data z hz).trans (congrFun hread.data z))

end Freed

/-! ### `free_block` -/

theorem ensures_onCache {f : Cache → Option Cache} {e : Fault} : Ensures (onCache f e) s fun _ s' =>
    ∃ c, f s.cache = some c ∧ s' = { s with cache := c } := fun _ s' h => by
  rw [onCache] at h
  split at h
  · cases h
  · rename_i c hc
    exact ⟨c, hc, (Prod.mk.inj (Except.ok.inj h)).2.symm⟩

theorem ensures_freeBlock (sb : Super) (z : ℕ) (hs : s.Counters) :
    Ensures (freeBlock sb z) s fun _ s' => Freed sb {z} s s' ∧ s'.ino = s.ino := by
  have hlt := hs z
  rw [freeBlock, ensures_get_bind]
  refine ensures_ite (fun _ => ensures_throw) fun _ => ensures_ite (fun hheld => ?_) fun hfree =>
    ensures_ite (fun _ => ensures_throw) fun _ => ?_
  · -- The buffer is held.
    rw [ensures_modify]
    have hne : s.bcount z ≠ 0 := fun h0 => by rw [h0] at hheld; exact hheld rfl
    obtain ⟨b, hb⟩ := Cache.exists_buf_of_count (c := s.cache) hne
    have hcount : ∀ x, State.bcount
        { s with cache := s.cache.setCount z ((s.bcount z + 1) % 256) } x =
          if x = z then (s.bcount z + 1) % 256 else s.bcount x := fun x =>
      (congrFun (Cache.count_setCount hb _) x).trans (Function.update_apply ..)
    refine ⟨⟨fun _ h => h, fun x hx h0 => absurd (hx ▸ h0) hne, fun x h0 => ?_, fun x hx _ => ?_,
      fun x _ => congrFun (Cache.data_setCount _) x⟩, rfl⟩
    · rw [hcount, if_neg]
      rintro rfl
      exact hne (h0 rfl)
    · obtain rfl : x = z := hx
      rw [hcount, if_pos rfl]
  · rw [ensures_modify]
    have h0 : s.bcount z = 0 := by omega
    refine ⟨⟨fun j hj => ?_, fun x hx _ => ?_, fun x _ => congrFun Cache.count_forget x,
      fun x hx hne => absurd (hx ▸ h0) hne, fun x hx => Cache.data_forget_of_ne hx⟩, rfl⟩
    · change Function.update s.zmap (sb.bit z) false j = false
      rw [Function.update_apply]
      split_ifs
      · rfl
      · exact hj
    · obtain rfl : x = z := hx
      exact Function.update_self ..

/-! ### Tables -/

/-- The zones of a table in block `t`, when those of an entry `w` are `Z w`. -/
def tableZones (Z : ℕ → Set ℕ) (data : ℕ → Block) (t : ℕ) : Set ℕ :=
  {z | z = t ∨ ∃ i < 512, word (data t) i ≠ 0 ∧ z ∈ Z (word (data t) i)}

/-- The loop of `free_ind` and `free_dind`, between the `bread` of the table and the freeing of its
block. -/
def freeTable (sb : Super) (body : ℕ → M Unit) (t : ℕ) : M Unit := do
  bread t
  (List.range 512).forM fun i => do
    let s ← get
    if word (s.data t) i ≠ 0 then body (word (s.data t) i) else pure ()
  brelse t
  freeBlock sb t

theorem freeInd_eq (sb : Super) (t : ℕ) :
    freeInd sb t = if t = 0 then pure () else freeTable sb (freeBlock sb) t := rfl

theorem freeDind_eq (sb : Super) (t : ℕ) :
    freeDind sb t = if t = 0 then pure () else freeTable sb (freeInd sb) t := rfl

/-- The zones of a table are freed, when those of each entry are and no zone is at two places. -/
theorem ensures_freeTable {Z : ℕ → Set ℕ} {body : ℕ → M Unit} (hs : s.Counters)
    (hbody : ∀ i < 512, ∀ w, w = word (s.data t) i → w ≠ 0 → ∀ s', s'.Counters →
      (∀ z ∈ Z w, s'.data z = s.data z) →
        Ensures (body w) s' fun _ s'' => Freed sb (Z w) s' s'' ∧ s''.ino = s'.ino)
    (hself : ∀ i < 512, word (s.data t) i ≠ 0 → t ∉ Z (word (s.data t) i))
    (hdisjoint : ∀ i < 512, ∀ j < i, word (s.data t) i ≠ 0 → word (s.data t) j ≠ 0 →
      Disjoint (Z (word (s.data t) j)) (Z (word (s.data t) i))) :
    Ensures (freeTable sb body t) s fun _ s' =>
      Freed sb (tableZones Z s.data t) s s' ∧ s'.ino = s.ino := by
  -- The zones of the first `k` entries.
  set F : ℕ → Set ℕ := fun k => {z | ∃ i < k, word (s.data t) i ≠ 0 ∧ z ∈ Z (word (s.data t) i)}
    with hF
  refine ensures_onCache.bind fun _ s₁ ⟨c₁, hc₁, hs₁⟩ => ?_
  have hread := Cache.read_bread hc₁
  have hdata₁ : s₁.data = s.data := by
    rw [hs₁]
    exact hread.data
  have hino₁ : s₁.ino = s.ino := by rw [hs₁]
  have hcounters₁ : s₁.Counters := fun z => by
    have hcount : s₁.bcount z = Function.update s.bcount t ((s.bcount t + 1) % 256) z := by
      rw [hs₁]
      exact congrFun hread.count z
    rw [hcount, Function.update_apply]
    split_ifs
    · exact Nat.mod_lt _ (by omega)
    · exact hs z
  have hloop := ensures_forM_range (f := fun i => do
      let s ← get
      if word (s.data t) i ≠ 0 then body (word (s.data t) i) else pure ()) (n := 512)
    (fun k s' => Freed sb (F k) s₁ s' ∧ s'.ino = s₁.ino) (s := s₁) ?_ ?_
  · refine hloop.bind fun _ s₂ ⟨hfreed, hino⟩ => ensures_onCache.bind fun _ s₃ ⟨c₃, hc₃, hs₃⟩ => ?_
    have ht : t ∉ F 512 := fun ⟨i, hi, hne, hmem⟩ => hself i hi hne hmem
    have haround := hfreed.around ht hread hs₁ (Cache.released_brelse hc₃) hs
    rw [← hs₃] at haround
    refine (ensures_freeBlock sb t (haround.counters hs)).mono fun _ s₄ ⟨hlast, hino₄⟩ => ⟨?_, ?_⟩
    · have hset : tableZones Z s.data t = F 512 ∪ {t} := by
        ext z
        exact or_comm
      rw [hset]
      exact haround.trans hlast (Set.disjoint_singleton_right.mpr ht)
    · rw [hino₄, hs₃]
      exact hino.trans hino₁
  · have hempty : F 0 = ∅ := Set.eq_empty_of_forall_notMem fun z ⟨i, hi, _⟩ => Nat.not_lt_zero i hi
    rw [hempty]
    exact ⟨.refl s₁, rfl⟩
  · intro k hk s' ⟨hfreed, hino⟩
    have hword : word (s'.data t) k = word (s.data t) k := by
      have ht : t ∉ F k := fun ⟨i, hi, hne, hmem⟩ => hself i (hi.trans hk) hne hmem
      rw [hfreed.data t ht, hdata₁]
    rw [ensures_get_bind, hword]
    refine ensures_ite (fun hne => ?_) fun h0 => ensures_pure.mpr ?_
    · have hdisj : Disjoint (F k) (Z (word (s.data t) k)) :=
        Set.disjoint_left.mpr fun z ⟨i, hi, hne', hmem⟩ =>
          Set.disjoint_left.mp (hdisjoint k hk i hi hne hne') hmem
      refine (hbody k hk _ rfl hne s' (hfreed.counters hcounters₁) fun z hz => ?_).mono
        fun _ s'' ⟨hnext, hino'⟩ => ⟨?_, hino'.trans hino⟩
      · rw [hfreed.data z (Set.disjoint_right.mp hdisj hz), hdata₁]
      · have hset : F (k + 1) = F k ∪ Z (word (s.data t) k) := by
          ext z
          refine ⟨fun ⟨i, hi, hne', hmem⟩ => ?_, fun h => ?_⟩
          · rcases Nat.lt_succ_iff_lt_or_eq.mp hi with hi | rfl
            · exact .inl ⟨i, hi, hne', hmem⟩
            · exact .inr hmem
          · rcases h with ⟨i, hi, hne', hmem⟩ | hmem
            · exact ⟨i, by omega, hne', hmem⟩
            · exact ⟨k, Nat.lt_succ_self k, hne, hmem⟩
        rw [hset]
        exact hfreed.trans hnext hdisj
    · rw [not_not] at h0
      have hset : F (k + 1) = F k := by
        ext z
        refine ⟨fun ⟨i, hi, hne', hmem⟩ => ⟨i, ?_, hne', hmem⟩, fun ⟨i, hi, h⟩ => ⟨i, by omega, h⟩⟩
        rcases Nat.lt_succ_iff_lt_or_eq.mp hi with hi | rfl
        · exact hi
        · exact absurd h0 hne'
      rw [hset]
      exact ⟨hfreed, hino⟩

/-! ### The zones of an inode -/

/-- The zones at some places of the tree of an inode. -/
def zonesOn (data : ℕ → Block) (zone : ℕ → ℕ) (P : Set Path) : Set ℕ :=
  {z | z ≠ 0 ∧ ∃ p ∈ P, zoneAt data zone p = z}

/-- No zone is at two places of the tree. -/
def Distinct (data : ℕ → Block) (zone : ℕ → ℕ) : Prop :=
  ∀ p q, zoneAt data zone p = zoneAt data zone q → zoneAt data zone p ≠ 0 → p = q

/-- A table and its entries. -/
def Table.places (T : Table) : Set Path := {p | p = T.path ∨ ∃ i, p = T.entry i}

/-- The table in `i_zone[8]`, the tables that it names, and their entries. -/
def dindPlaces : Set Path := {p | p = .zone 8 ∨ ∃ i, p ∈ (Table.two i).places}

variable {data : ℕ → Block} {zone : ℕ → ℕ} {P Q : Set Path} {T : Table}

theorem Distinct.disjoint (h : Distinct data zone) (hd : Disjoint P Q) :
    Disjoint (zonesOn data zone P) (zonesOn data zone Q) := by
  refine Set.disjoint_left.mpr fun z ⟨hz, p, hp, hpz⟩ ⟨_, q, hq, hqz⟩ => ?_
  have hpq := h p q (hpz.trans hqz.symm) (by rwa [hpz])
  exact Set.disjoint_left.mp hd hp (hpq ▸ hq)

theorem Table.entry_ne_path (T : Table) (hT : T ≠ .dind) (T' : Table) (i : Fin 512) :
    T.entry i ≠ T'.path := by
  cases T <;> cases T' <;> first | exact absurd rfl hT | exact (nomatch ·)

theorem word_table (ht : zoneAt data zone T.path ≠ 0) {i : ℕ} (hi : i < 512) :
    word (data (zoneAt data zone T.path)) i = zoneAt data zone (T.entry ⟨i, hi⟩) := by
  rw [zoneAt_entry, tableAt, if_neg ht]

/-- A table that is missing has no entries. -/
theorem zoneAt_entry_of_zero (ht : zoneAt data zone T.path = 0) (i : Fin 512) :
    zoneAt data zone (T.entry i) = 0 := by
  rw [zoneAt_entry, tableAt, if_pos ht]

theorem zonesOn_places_of_zero (ht : zoneAt data zone T.path = 0) :
    zonesOn data zone T.places = ∅ := by
  refine Set.eq_empty_of_forall_notMem fun z ⟨hz, p, hp, hpz⟩ => hz ?_
  rcases hp with rfl | ⟨i, rfl⟩
  · rw [← hpz, ht]
  · rw [← hpz, zoneAt_entry_of_zero ht]

theorem tableZones_places (ht : zoneAt data zone T.path ≠ 0) :
    tableZones (fun w => {w}) data (zoneAt data zone T.path) = zonesOn data zone T.places := by
  ext z
  constructor
  · rintro (rfl | ⟨i, hi, hne, rfl⟩)
    · exact ⟨ht, T.path, .inl rfl, rfl⟩
    · exact ⟨hne, T.entry ⟨i, hi⟩, .inr ⟨_, rfl⟩, (word_table ht hi).symm⟩
  · rintro ⟨hz, p, rfl | ⟨i, rfl⟩, rfl⟩
    · exact .inl rfl
    · refine .inr ⟨i, i.isLt, ?_, ?_⟩
      · rwa [word_table ht i.isLt]
      · exact (word_table ht i.isLt).symm

/-- `free_ind` frees a table and the zones of its entries. -/
theorem ensures_freeInd (h : Distinct data zone) (hT : T ≠ .dind) (hs : s.Counters)
    (hdata : ∀ z ∈ zonesOn data zone T.places, s.data z = data z) :
    Ensures (freeInd sb (zoneAt data zone T.path)) s fun _ s' =>
      Freed sb (zonesOn data zone T.places) s s' ∧ s'.ino = s.ino := by
  rw [freeInd_eq]
  refine ensures_ite (fun h0 => ensures_pure.mpr ?_) fun ht => ?_
  · rw [zonesOn_places_of_zero h0]
    exact ⟨.refl s, rfl⟩
  · have htable : s.data (zoneAt data zone T.path) = data (zoneAt data zone T.path) :=
      hdata _ ⟨ht, T.path, .inl rfl, rfl⟩
    have hset : tableZones (fun w => {w}) s.data (zoneAt data zone T.path) =
        zonesOn data zone T.places := by
      rw [← tableZones_places ht, tableZones, htable]
      rfl
    rw [← hset]
    refine ensures_freeTable hs (fun _ _ w _ _ s' hs' _ => ensures_freeBlock sb w hs')
      (fun i hi hne hmem => ?_) fun i hi j hj hne hne' => Set.disjoint_singleton.mpr fun heq => ?_
    · rw [htable, word_table ht hi] at hne hmem
      exact T.entry_ne_path hT T ⟨i, hi⟩ (h _ _ hmem.symm hne)
    · rw [htable, word_table ht hi] at hne
      rw [htable, word_table ht hi, word_table ht (hj.trans hi)] at heq
      have hpath := h _ _ heq.symm hne
      have := congrArg Fin.val (Table.entry_inj hpath).2
      dsimp only at this
      omega

theorem zonesOn_dindPlaces_of_zero (ht : zone 8 = 0) : zonesOn data zone dindPlaces = ∅ := by
  have hdind : ∀ i, zoneAt data zone (Table.two i).path = 0 :=
    zoneAt_entry_of_zero (T := .dind) ht
  refine Set.eq_empty_of_forall_notMem fun z ⟨hz, p, hp, hpz⟩ => hz ?_
  rcases hp with rfl | ⟨i, hp⟩
  · exact hpz.symm.trans ht
  · have hempty := zonesOn_places_of_zero (hdind i)
    have hmem : z ∈ zonesOn data zone (Table.two i).places := ⟨hz, p, hp, hpz⟩
    rw [hempty] at hmem
    exact hmem.elim

theorem disjoint_places {i j : Fin 512} (hij : i ≠ j) :
    Disjoint (Table.two i).places (Table.two j).places := by
  refine Set.disjoint_left.mpr fun p hp hq => ?_
  rcases hp with rfl | ⟨k, rfl⟩ <;> rcases hq with hq | ⟨l, hq⟩
  · exact hij (Path.dind.inj hq)
  · cases hq
  · cases hq
  · exact hij (Path.two.inj hq).1

/-- `free_dind` frees a table, the tables that it names and the zones of their entries. -/
theorem ensures_freeDind (h : Distinct data zone) (hs : s.Counters)
    (hdata : ∀ z ∈ zonesOn data zone dindPlaces, s.data z = data z) :
    Ensures (freeDind sb (zone 8)) s fun _ s' =>
      Freed sb (zonesOn data zone dindPlaces) s s' ∧ s'.ino = s.ino := by
  rw [freeDind_eq]
  refine ensures_ite (fun h0 => ensures_pure.mpr ?_) fun ht => ?_
  · rw [zonesOn_dindPlaces_of_zero h0]
    exact ⟨.refl s, rfl⟩
  · have htable : s.data (zone 8) = data (zone 8) := hdata _ ⟨ht, .zone 8, .inl rfl, rfl⟩
    have hword : ∀ i (hi : i < 512), word (s.data (zone 8)) i =
        zoneAt data zone (Table.two ⟨i, hi⟩).path := fun i hi => by
      rw [htable]
      exact word_table (T := .dind) ht hi
    have hsub : ∀ i, (Table.two i).places ⊆ dindPlaces := fun i p hp => .inr ⟨i, hp⟩
    -- The zones of a table that is named, as the state has them.
    have hZ : ∀ i, zoneAt data zone (Table.two i).path ≠ 0 →
        tableZones (fun w => {w}) data (zoneAt data zone (Table.two i).path) =
          zonesOn data zone (Table.two i).places := fun i hi => tableZones_places hi
    have hset : tableZones (tableZones (fun w => {w}) data) s.data (zone 8) =
        zonesOn data zone dindPlaces := by
      ext z
      constructor
      · rintro (rfl | ⟨i, hi, hne, hmem⟩)
        · exact ⟨ht, .zone 8, .inl rfl, rfl⟩
        · rw [hword i hi] at hne hmem
          rw [hZ _ hne] at hmem
          obtain ⟨hz, p, hp, hpz⟩ := hmem
          exact ⟨hz, p, hsub _ hp, hpz⟩
      · rintro ⟨hz, p, rfl | ⟨i, hp⟩, hpz⟩
        · exact .inl hpz.symm
        · have hmem : z ∈ zonesOn data zone (Table.two i).places := ⟨hz, p, hp, hpz⟩
          have hne : zoneAt data zone (Table.two i).path ≠ 0 := fun h0 => by
            rw [zonesOn_places_of_zero h0] at hmem
            exact hmem
          refine .inr ⟨i, i.isLt, ?_, ?_⟩
          · rwa [hword i i.isLt]
          · rw [hword i i.isLt, hZ _ hne]
            exact hmem
    rw [← hset]
    refine ensures_freeTable hs (fun i hi w hw hne s' hs' hkeep => ?_) (fun i hi hne hmem => ?_)
      fun i hi j hj hne hne' => ?_
    · rw [hword i hi] at hw
      subst hw
      rw [hZ _ hne] at hkeep ⊢
      refine ensures_freeInd h (nomatch ·) hs' fun z hz => (hkeep z hz).trans (hdata z ?_)
      exact ⟨hz.1, hz.2.imp fun p hp => ⟨hsub _ hp.1, hp.2⟩⟩
    · rw [hword i hi] at hne hmem
      rw [hZ _ hne] at hmem
      obtain ⟨-, p, hp, hpz⟩ := hmem
      obtain rfl := h p (.zone 8) hpz (by rw [hpz]; exact ht)
      rcases hp with hp | ⟨k, hp⟩ <;> cases hp
    · rw [hword i hi] at hne
      rw [hword j (hj.trans hi)] at hne'
      rw [hword i hi, hword j (hj.trans hi), hZ _ hne, hZ _ hne']
      refine h.disjoint (disjoint_places fun heq => ?_)
      exact absurd (congrArg Fin.val heq) (Nat.ne_of_lt hj)

/-! ### `truncate` -/

/-- A regular file in core, of which no zone is at two places. -/
structure RegularFile (s : State) (n : ℕ) : Prop where
  regular : sIsreg (s.ino n).mode = true
  distinct : Distinct s.data (s.ino n).zone
  counters : s.Counters

/-- Every zone of the file is marked free, the inode has no zones, and the counters are what they
were. -/
structure Frees (sb : Super) (n : ℕ) (s s' : State) : Prop where
  marked : ∀ p, zoneAt s.data (s.ino n).zone p ≠ 0 →
    s'.zmap (sb.bit (zoneAt s.data (s.ino n).zone p)) = false
  zones : ∀ k < 9, (s'.ino n).zone k = 0
  counts : s'.bcount = s.bcount

/-- The first `k` zones of the inode. -/
def directPlaces (k : ℕ) : Set Path := {p | ∃ i : Fin 9, i.val < k ∧ p = .zone i}

theorem zonesOn_union : zonesOn data zone (P ∪ Q) = zonesOn data zone P ∪ zonesOn data zone Q := by
  ext z
  constructor
  · rintro ⟨hz, p, hp | hp, hpz⟩
    · exact .inl ⟨hz, p, hp, hpz⟩
    · exact .inr ⟨hz, p, hp, hpz⟩
  · rintro (⟨hz, p, hp, hpz⟩ | ⟨hz, p, hp, hpz⟩)
    · exact ⟨hz, p, .inl hp, hpz⟩
    · exact ⟨hz, p, .inr hp, hpz⟩

theorem directPlaces_succ {k : ℕ} (hk : k < 9) :
    directPlaces (k + 1) = directPlaces k ∪ {.zone ⟨k, hk⟩} := by
  ext p
  constructor
  · rintro ⟨i, hi, rfl⟩
    rcases Nat.lt_succ_iff_lt_or_eq.mp hi with hi | hi
    · exact .inl ⟨i, hi, rfl⟩
    · exact .inr (congrArg Path.zone (Fin.ext hi))
  · rintro (⟨i, hi, rfl⟩ | rfl)
    · exact ⟨i, Nat.lt_succ_of_lt hi, rfl⟩
    · exact ⟨_, Nat.lt_succ_self k, rfl⟩

theorem zonesOn_zone {k : ℕ} (hk : k < 9) (hne : zone k ≠ 0) :
    zonesOn data zone {.zone ⟨k, hk⟩} = {zone k} := by
  ext z
  constructor
  · rintro ⟨-, p, rfl, hpz⟩
    exact hpz.symm
  · rintro rfl
    exact ⟨hne, _, rfl, rfl⟩

theorem zonesOn_zone_of_zero {k : ℕ} (hk : k < 9) (h0 : zone k = 0) :
    zonesOn data zone {.zone ⟨k, hk⟩} = ∅ :=
  Set.eq_empty_of_forall_notMem fun _ ⟨hz, _, hp, hpz⟩ => hz (by rw [← hpz, hp]; exact h0)

theorem disjoint_directPlaces {k : ℕ} (hk : k < 9) :
    Disjoint (directPlaces k) {.zone ⟨k, hk⟩} := by
  refine Set.disjoint_singleton_right.mpr fun ⟨i, hi, hp⟩ => ?_
  have := congrArg Fin.val (Path.zone.inj hp)
  dsimp only at this
  omega

theorem disjoint_directPlaces_ind : Disjoint (directPlaces 7) Table.ind.places := by
  refine Set.disjoint_left.mpr fun p ⟨i, hi, hp⟩ hq => ?_
  subst hp
  rcases hq with hq | ⟨j, hq⟩
  · have : i.val = 7 := congrArg Fin.val (Path.zone.inj hq)
    omega
  · cases hq

theorem disjoint_dindPlaces : Disjoint (directPlaces 7 ∪ Table.ind.places) dindPlaces := by
  refine Set.disjoint_left.mpr fun p hp hq => ?_
  rcases hq with rfl | ⟨j, rfl | ⟨k, rfl⟩⟩
  · rcases hp with ⟨i, hi, hp⟩ | hp | ⟨i, hp⟩
    · have : 8 = i.val := congrArg Fin.val (Path.zone.inj hp)
      omega
    · cases hp
    · cases hp
  all_goals rcases hp with ⟨i, hi, hp⟩ | hp | ⟨i, hp⟩ <;> cases hp

theorem places_univ : directPlaces 7 ∪ Table.ind.places ∪ dindPlaces = Set.univ := by
  refine Set.eq_univ_of_forall fun p => ?_
  cases p with
  | zone k =>
    rcases Nat.lt_or_ge k.val 7 with hk | hk
    · exact .inl (.inl ⟨k, hk, rfl⟩)
    · rcases Nat.eq_or_lt_of_le hk with hk | hk
      · exact .inl (.inr (.inl (congrArg Path.zone (Fin.ext hk.symm))))
      · exact .inr (.inl (congrArg Path.zone
          (Fin.ext (Nat.le_antisymm (Nat.le_of_lt_succ k.isLt) hk))))
  | ind i => exact .inl (.inr (.inr ⟨i, rfl⟩))
  | dind i => exact .inr (.inr ⟨i, .inl rfl⟩)
  | two i j => exact .inr (.inr ⟨i, .inr ⟨j, rfl⟩⟩)

/-- The loop of `truncate` over the first seven zones. -/
theorem ensures_direct (h : RegularFile s n) :
    Ensures ((List.range 7).forM fun i => do
      let s ← get
      if (s.ino n).zone i ≠ 0 then do
        freeBlock sb ((s.ino n).zone i)
        edit n fun v => { v with zone := Function.update v.zone i 0 }
      else pure ()) s fun _ s' =>
        Freed sb (zonesOn s.data (s.ino n).zone (directPlaces 7)) s s' ∧
          ∀ j, (s'.ino n).zone j = if j < 7 then 0 else (s.ino n).zone j := by
  refine ensures_forM_range (fun k s' =>
    Freed sb (zonesOn s.data (s.ino n).zone (directPlaces k)) s s' ∧
      ∀ j, (s'.ino n).zone j = if j < k then 0 else (s.ino n).zone j) ?_ ?_
  · have hempty : zonesOn s.data (s.ino n).zone (directPlaces 0) = ∅ :=
      Set.eq_empty_of_forall_notMem fun _ ⟨_, _, ⟨_, hi, _⟩, _⟩ => Nat.not_lt_zero _ hi
    rw [hempty]
    exact ⟨.refl s, fun j => (if_neg (Nat.not_lt_zero j)).symm⟩
  · intro k hk s' ⟨hfreed, hzone⟩
    have hself : (s'.ino n).zone k = (s.ino n).zone k := (hzone k).trans (if_neg (lt_irrefl k))
    have hk9 : k < 9 := by omega
    rw [ensures_get_bind, hself, directPlaces_succ hk9, zonesOn_union]
    refine ensures_ite (fun hne => ?_) fun h0 => ensures_pure.mpr ⟨?_, fun j => ?_⟩
    · rw [zonesOn_zone hk9 hne]
      refine (ensures_freeBlock sb _ (hfreed.counters h.counters)).bind fun _ s₁ ⟨hlast, hino⟩ => ?_
      refine ensures_modify.mpr ⟨?_, fun j => ?_⟩
      · have hdisj := h.distinct.disjoint (disjoint_directPlaces hk9)
        rw [zonesOn_zone hk9 hne] at hdisj
        have htrans := hfreed.trans hlast hdisj
        exact ⟨htrans.zmap, htrans.cleared, htrans.kept, htrans.leaked, htrans.data⟩
      · change (Function.update s₁.ino n _ n).zone j = _
        rw [Function.update_self, hino]
        dsimp only
        rw [Function.update_apply, hzone]
        split_ifs <;> first | rfl | omega
    · rw [not_not] at h0
      rw [zonesOn_zone_of_zero hk9 h0, Set.union_empty]
      exact hfreed
    · rw [not_not] at h0
      rw [hzone]
      split_ifs with h₁ h₂ h₂
      · rfl
      · omega
      · rw [show j = k by omega, h0]
      · rfl

/-- The effect of `truncate` on the bitmap, on the buffers and on the zones of the inode. -/
theorem ensures_truncate (h : RegularFile s n) : Ensures (truncate sb n) s fun _ s' =>
    Freed sb (zonesOn s.data (s.ino n).zone Set.univ) s s' ∧ ∀ k < 9, (s'.ino n).zone k = 0 := by
  rw [truncate, ensures_get_bind, if_pos (.inl h.regular)]
  refine (ensures_direct h).bind fun _ s₁ ⟨hdirect, hzone⟩ => ?_
  rw [ensures_get_bind, hzone, hzone, if_neg (by omega), if_neg (by omega)]
  have hdisj := h.distinct.disjoint disjoint_directPlaces_ind
  refine (ensures_freeInd h.distinct (T := .ind) (nomatch ·) (hdirect.counters h.counters)
    fun z hz => hdirect.data z (Set.disjoint_right.mp hdisj hz)).bind fun _ s₂ ⟨hind, hino₂⟩ => ?_
  have hboth := hdirect.trans hind hdisj
  rw [← zonesOn_union] at hboth
  have hdisj' := h.distinct.disjoint disjoint_dindPlaces
  refine (ensures_freeDind h.distinct (hboth.counters h.counters)
    fun z hz => hboth.data z (Set.disjoint_right.mp hdisj' hz)).bind fun _ s₃ ⟨hdind, hino₃⟩ => ?_
  have hall := hboth.trans hdind hdisj'
  rw [← zonesOn_union, places_univ] at hall
  refine ensures_modify_bind.mpr (ensures_modify.mpr ⟨?_, fun k hk => ?_⟩)
  · exact ⟨hall.zmap, hall.cleared, hall.kept, hall.leaked, hall.data⟩
  · change (Function.update s₃.ino n _ n).zone k = 0
    rw [Function.update_self, hino₃, hino₂]
    dsimp only
    rw [Function.update_apply, Function.update_apply, hzone]
    split_ifs <;> first | rfl | omega

/-- The files of a consistent device. -/
theorem RegularFile.of_owned {hand : Option ℕ} (h : s.view.Owned sb hand)
    (hn : s.view.HasZones sb n)
    (hcore : s.count n ≠ 0) (hreg : sIsreg (s.ino n).mode = true) (hs : s.Counters) :
    RegularFile s n := by
  have hcur : s.view.ino n = s.ino n := if_neg hcore
  refine ⟨hreg, fun p q heq hne => ?_, hs⟩
  rw [← hcur] at heq hne
  have hp : s.view.Owns sb (n, p) (s.view.zoneAt n p) := View.owns_path hn hne
  have hq : s.view.Owns sb (n, q) (s.view.zoneAt n p) := ⟨hn, heq.symm, hne⟩
  exact (Prod.mk.inj (h.unique hp hq)).2

/-- When `truncate` returns, it has freed all zones of the file if and only if nobody holds a buffer
of one of them. -/
theorem frees_iff (h : RegularFile s n) (hrun : truncate sb n s = .ok ((), s')) :
    Frees sb n s s' ↔ ∀ p, zoneAt s.data (s.ino n).zone p ≠ 0 →
      s.bcount (zoneAt s.data (s.ino n).zone p) = 0 := by
  obtain ⟨hfreed, hzones⟩ := ensures_truncate h () s' hrun
  refine ⟨fun hfrees p hp => ?_, fun hfree => ⟨fun p hp => ?_, hzones, funext fun z => ?_⟩⟩
  · by_contra hheld
    have hleak := hfreed.leaked _ ⟨hp, p, trivial, rfl⟩ hheld
    rw [hfrees.counts] at hleak
    have := h.counters (zoneAt s.data (s.ino n).zone p)
    omega
  · exact hfreed.cleared _ ⟨hp, p, trivial, rfl⟩ (hfree p hp)
  · refine hfreed.kept z ?_
    rintro ⟨hz, p, -, rfl⟩
    exact hfree p hz

/-! ### A file of one block -/

/-- A small device. -/
def smallSuper : Super where
  __ := Super.small
  nzones := 100
  nzones_lt := by decide
  zmap_covers := by decide

/-- The buffer of block 5 is held `k` times. -/
def cacheHeld (k : ℕ) : Cache where
  buf x := if x = 5 then some ⟨zeroBlock, .clean, k⟩ else none
  free := [none, some 5]
  disk _ := zeroBlock
  clean x b hb _ := by
    split_ifs at hb
    rw [← Option.some.inj hb]

/-- Inode 2 is a file with block 5, and the buffer of that block is held `k` times. -/
def oneBlock (k : ℕ) : State where
  ino _ := ⟨0o100644, 0, 1024, 0, 1, fun i => if i = 0 then 5 else 0⟩
  count n := if n = 2 then 1 else 0
  dirt _ := false
  diskIno _ := Inode.zero
  imap _ := true
  zmap _ := true
  cache := cacheHeld k
  overflow := false
  destroyed := []

theorem bcount_oneBlock (k z : ℕ) : (oneBlock k).bcount z = if z = 5 then k else 0 := by
  by_cases hz : z = 5
  · have hbuf : (cacheHeld k).buf z = some ⟨zeroBlock, .clean, k⟩ := if_pos hz
    rw [if_pos hz]
    exact Cache.count_of_some hbuf
  · have hbuf : (cacheHeld k).buf z = none := if_neg hz
    rw [if_neg hz]
    exact Cache.count_of_none hbuf

theorem file_oneBlock {k : ℕ} (hk : k < 256) : RegularFile (oneBlock k) 2 := by
  -- The file has no other zone.
  have honly : ∀ p, zoneAt (oneBlock k).data ((oneBlock k).ino 2).zone p ≠ 0 → p = .zone 0 :=
    fun _ hp => eq_zone_zero (fun _ hi => if_neg hi) hp
  have hreg : sIsreg 0o100644 = true := by decide
  refine ⟨hreg, fun p q heq hne => (honly p hne).trans (honly q (heq ▸ hne)).symm, fun z => ?_⟩
  rw [bcount_oneBlock]
  split_ifs <;> omega

/-- The zone of a file whose buffer is not held is freed. -/
theorem frees_iff_oneBlock : ∃ s', truncate smallSuper 2 (oneBlock 0) = .ok ((), s') ∧
    Frees smallSuper 2 (oneBlock 0) s' :=
  ⟨_, rfl, (frees_iff (file_oneBlock (by omega)) rfl).mpr fun p _ => by
    rw [bcount_oneBlock, ite_self]⟩

/-- A reader holds the buffer of the only block: `truncate` takes a reference for ever. -/
theorem not_frees_oneBlock : ∃ s', truncate smallSuper 2 (oneBlock 1) = .ok ((), s') ∧
    ¬Frees smallSuper 2 (oneBlock 1) s' := by
  refine ⟨_, rfl, fun h => ?_⟩
  have hcount := congrFun h.counts 5
  exact absurd hcount (by decide)

end Linux001.Fs
