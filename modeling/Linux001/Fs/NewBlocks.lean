import Linux001.Fs.BlockMap
import Linux001.Fs.Walks

/-!
# New blocks and the other files

What `create_block` does to the files of the device as a whole. A new zone is one that no file has,
so storing its number at a vacant place of one inode changes the blocks of no file: the block that
has been missing is empty before and after.

## Main definitions

* `State.aside`: what the functions on the blocks of an inode leave alone.

## Main results

* `ensures_createBlock_extends`: the zones of all files are owned exclusively after `create_block`,
  and no file has changed.
* `succeeds_createBlock_created`: `create_block` returns the zone of the block, or 0 if the device
  is full.
-/

namespace Linux001.Fs

variable {sb : Super} {s s' : State} {n k t z : ℕ}

/-! ### What is left alone -/

/-- The inodes, apart from the zone numbers of the inode `n`, and the inode bitmap. -/
def State.aside (n : ℕ) (s : State) : (ℕ → ℕ) × (ℕ → Inode) × (ℕ → Bool) × (ℕ → Inode) :=
  (s.count, s.diskIno, s.imap, Function.update s.ino n (s.ino n).bare)

theorem leaves_onCache (f : Cache → Option Cache) (e : Fault) :
    Leaves (State.aside n) (onCache f e) := fun s => by
  refine ensures_onCache.mono fun _ s' hs' => ?_
  obtain ⟨c, -, rfl⟩ := hs'
  rfl

theorem leaves_store (t : ℕ) (f : Block → Block) : Leaves (State.aside n) (store t f) :=
  leaves_modify fun _ => rfl

theorem leaves_newBlock : Leaves (State.aside n) (newBlock sb) := by
  rw [newBlock]
  refine Leaves.bind (leaves_get _) fun s => ?_
  split
  · exact leaves_pure _ _
  · refine Leaves.bind (leaves_modify fun _ => rfl) fun _ => ?_
    refine leaves_ite (leaves_pure _ _) ?_
    refine (leaves_onCache _ _).bind fun _ => (leaves_get _).bind fun _ =>
      leaves_ite (leaves_throw _ _) ?_
    exact (leaves_store _ _).bind fun _ => (leaves_onCache _ _).bind fun _ => leaves_pure _ _

theorem leaves_bmapZone (k : ℕ) (create : Bool) :
    Leaves (State.aside n) (bmapZone sb n k create) := by
  rw [bmapZone]
  refine (leaves_get _).bind fun s => leaves_ite ?_ (leaves_pure _ _)
  refine leaves_newBlock.bind fun z => Leaves.bind (leaves_modify fun s => ?_) fun _ =>
    leaves_ite (leaves_modify fun _ => rfl) (leaves_pure _ _)
  simp only [State.aside, Function.update_self, Function.update_idem]
  rfl

theorem leaves_bmapTable (t k : ℕ) (create : Bool) :
    Leaves (State.aside n) (bmapTable sb t k create) := by
  rw [bmapTable]
  refine (leaves_onCache _ _).bind fun _ => (leaves_get _).bind fun s => leaves_ite ?_ ?_
  · have hrelease (z : ℕ) : Leaves (State.aside n) (brelse t >>= fun _ => pure z) :=
      (leaves_onCache _ _).bind fun _ => leaves_pure _ _
    exact leaves_newBlock.bind fun z =>
      leaves_ite ((leaves_store _ _).bind fun _ => hrelease z) (hrelease z)
  · exact (leaves_onCache _ _).bind fun _ => leaves_pure _ _

theorem leaves_bmapAux (k : ℕ) (create : Bool) :
    Leaves (State.aside n) (bmapAux sb n k create) := by
  rw [bmapAux]
  refine leaves_ite (leaves_throw _ _) (leaves_ite ?_ (leaves_ite ?_ ?_))
  · exact (leaves_bmapZone _ _).bind fun _ => (leaves_get _).bind fun _ => leaves_pure _ _
  · exact (leaves_bmapZone _ _).bind fun _ => (leaves_get _).bind fun _ =>
      leaves_ite (leaves_pure _ _) (leaves_bmapTable _ _ _)
  · refine (leaves_bmapZone _ _).bind fun _ => (leaves_get _).bind fun _ =>
      leaves_ite (leaves_pure _ _) ((leaves_bmapTable _ _ _).bind fun i => ?_)
    exact leaves_ite (leaves_pure _ _) (leaves_bmapTable _ _ _)

/-! ### Views -/

/-- Stores to fields of an inode in core. -/
theorem view_edit (hcore : s.count n ≠ 0) (d : ℕ → Bool) (f : Inode → Inode) :
    State.view { s with dirt := d, ino := Function.update s.ino n (f (s.ino n)) } =
      { s.view with ino := Function.update s.view.ino n (f (s.view.ino n)) } := by
  have hino : s.cur n = s.ino n := State.cur_of_count hcore
  have hcur : State.cur { s with dirt := d, ino := Function.update s.ino n (f (s.ino n)) } =
      Function.update s.cur n (f (s.cur n)) := by
    funext m
    rw [State.cur, hino, Function.update_apply]
    dsimp only
    rw [Function.update_apply]
    split_ifs with h0 hm hm
    · exact absurd (hm ▸ h0) hcore
    · exact (if_pos h0).symm
    · rfl
    · exact (if_neg h0).symm
  exact congrArg (fun g => { s.view with ino := g }) hcur

theorem zoneAt_view (hcore : s.count n ≠ 0) (p : Path) : s.view.zoneAt n p = s.place n p := by
  have hcur : s.view.ino n = s.ino n := State.cur_of_count hcore
  rw [View.zoneAt, hcur]
  rfl

/-- A zone that an inode has is one that is marked. -/
theorem View.Used.marked (h : s.view.Used sb z) : s.Marked sb z :=
  ⟨h.1.trans (Nat.le_succ z), h.2⟩

/-- The zones of an inode in core are a tree. -/
theorem View.Owned.tree {hand : Option ℕ} (h : s.view.Owned sb hand) (hn : s.view.HasZones sb n)
    (hcore : s.count n ≠ 0) : s.Tree sb n where
  marked p hp := by
    rw [← zoneAt_view hcore] at hp ⊢
    exact (h.exclusive.used_of_own (View.owns_path hn hp)).marked
  inj p q hp hpq := by
    rw [← zoneAt_view hcore, ← zoneAt_view hcore] at hpq
    rw [← zoneAt_view hcore] at hp
    exact (Prod.mk.inj (h.unique (View.owns_path hn hp) (hpq ▸ View.owns_path hn (hpq ▸ hp)))).2

namespace View

variable {V V' V'' : View}

/-- Every zone in use is one of an inode. -/
def Exact (sb : Super) (V : View) : Prop := ∀ z, V.Used sb z → ∃ a, V.Owns sb a z

/-- Blocks may have been added to files, with zones that nobody had. -/
structure Enlarged (sb : Super) (V V' : View) : Prop where
  owned : V'.Owned sb none
  extended : V.Extends sb V'
  exact : V.Exact sb → V'.Exact sb

theorem Enlarged.refl (h : V.Owned sb none) : V.Enlarged sb V := ⟨h, .refl, id⟩

theorem Enlarged.trans (h : V.Enlarged sb V') (h' : V'.Enlarged sb V'') : V.Enlarged sb V'' :=
  ⟨h'.owned, h.extended.trans h'.extended, fun he => h'.exact (h.exact he)⟩

/-- All zones in use have owners again when the one in hand has been stored. -/
theorem Attached.exact {a : ℕ × Path} (h : V.Attached sb V' a z) (hz : z ≠ 0)
    (he : ∀ w, V.Used sb w → w = z ∨ ∃ b, V.Owns sb b w) : V'.Exact sb := by
  have hown : V'.Owns sb a z :=
    ⟨h.hasZones.mpr h.place, (h.zoneAt a.1 a.2 h.place).trans (if_pos rfl), hz⟩
  intro w hw
  unfold Used at hw
  rw [h.zmap] at hw
  rcases he w hw with rfl | ⟨b, hb⟩
  · exact ⟨a, hown⟩
  · refine ⟨b, h.hasZones.mpr hb.1, ?_, hb.2.2⟩
    rw [h.zoneAt b.1 b.2 hb.1, if_neg]
    · exact hb.2.1
    · rintro rfl
      exact hb.2.2 (hb.2.1.symm.trans h.vacant)

end View

/-! ### A new zone -/

/-- The state after `new_block`, which has returned `z`. -/
structure Taken (sb : Super) (s : State) (z : ℕ) (s' : State) : Prop where
  extended : s.view.Extends sb s'.view
  zoneAt : ∀ m, s.view.HasZones sb m → ∀ p, s'.view.zoneAt m p = s.view.zoneAt m p
  full : z = 0 → s'.view.Owned sb none
  owned : z ≠ 0 → s'.view.Owned sb (some z)
  empty : z ≠ 0 → s'.data z = zeroBlock
  used : ∀ w, s'.view.Used sb w → w = z ∨ s.view.Used sb w

/-- The zones have the owners that they had, apart from the one in hand. -/
theorem Taken.owners (h : Taken sb s z s') (he : s.view.Exact sb) (w : ℕ)
    (hw : s'.view.Used sb w) : w = z ∨ ∃ b, s'.view.Owns sb b w := by
  refine (h.used w hw).imp_right fun hw => ?_
  obtain ⟨b, hb⟩ := he w hw
  exact ⟨b, h.extended.hasZones.mpr hb.1, (h.zoneAt b.1 hb.1 b.2).trans hb.2.1, hb.2.2⟩

theorem Taken.enlarged_of_zero (h : Taken sb s z s') (hz : z = 0) :
    s.view.Enlarged sb s'.view := by
  refine ⟨h.full hz, h.extended, fun he w hw => (h.owners he w hw).resolve_left fun h0 => ?_⟩
  have hpos := View.firstdatazone_pos sb
  have hle := hw.1
  omega

theorem Taken.enlarged {V' : View} {a : ℕ × Path} (h : Taken sb s z s') (hz : z ≠ 0)
    (hattached : s'.view.Attached sb V' a z) : s.view.Enlarged sb V' :=
  ⟨hattached.owned (h.owned hz), h.extended.trans hattached.extended, fun he =>
    hattached.exact hz (h.owners he)⟩

/-- `new_block` marks the zone that it returns only. -/
theorem ensures_newBlock_used :
    Ensures (newBlock sb) s fun z s' => ∀ w, s'.view.Used sb w → w = z ∨ s.view.Used sb w := by
  rw [newBlock, ensures_get_bind]
  cases newBit s.zmap sb.zmapBlocks 8 with
  | none => exact ensures_pure.mpr fun w => .inr
  | some j =>
    dsimp only
    rw [ensures_modify_bind]
    have hused {s' : State} (hzmap : s'.zmap = Function.update s.zmap j true) (w : ℕ)
        (hw : s'.view.Used sb w) : w = j + (sb.firstdatazone - 1) ∨ s.view.Used sb w := by
      obtain ⟨hle, hlt, hset⟩ := hw
      have hset : s'.zmap (sb.bit w) = true := hset
      rw [hzmap, Function.update_apply] at hset
      split_ifs at hset with hj
      · rw [Super.bit] at hj
        exact .inl (by omega)
      · exact .inr ⟨hle, hlt, hset⟩
    refine ensures_ite (fun hlarge => ?_) fun _ => ?_
    · refine ensures_pure.mpr fun w hw => .inr ((hused rfl w hw).resolve_left fun heq => ?_)
      exact absurd hw.2.1 (by omega)
    · refine Ensures.bind ensures_onCache fun _ s₁ h₁ => ?_
      obtain ⟨c₁, -, rfl⟩ := h₁
      rw [ensures_get_bind]
      refine ensures_ite (fun _ => ensures_throw) fun _ => ?_
      rw [store, ensures_modify_bind]
      refine Ensures.bind ensures_onCache fun _ s₂ h₂ => ensures_pure.mpr ?_
      obtain ⟨c₂, -, rfl⟩ := h₂
      exact hused rfl

/-- Code that changes at most a block that no file has, and marks zones. -/
theorem View.Owned.extends (h : s.view.Owned sb none) (hcur : s'.cur = s.cur)
    (himap : s'.imap = s.imap) (hdata : ∀ x, s.view.Used sb x → s'.data x = s.data x) :
    s.view.Extends sb s'.view ∧
      (∀ m, s.view.HasZones sb m → ∀ p, s'.view.zoneAt m p = s.view.zoneAt m p) ∧
        ∀ a x, s'.view.Owns sb a x → s.view.Owns sb a x := by
  have hzones (m : ℕ) : s'.view.HasZones sb m ↔ s.view.HasZones sb m :=
    View.hasZones_congr himap (congrArg (fun f => (f m).mode) hcur)
  have hzone (m : ℕ) (hm : s.view.HasZones sb m) (p : Path) :
      s'.view.zoneAt m p = s.view.zoneAt m p :=
    View.zoneAt_congr (congrArg (fun f => (f m).zone) hcur)
      (fun T hT => hdata _ (h.exclusive.used_of_own (View.owns_path hm hT))) p
  have hleaf (m j : ℕ) (hm : s.view.HasZones sb m) : s'.view.leaf m j = s.view.leaf m j :=
    View.leaf_congr (hzone m hm _)
  refine ⟨⟨himap, fun m => congrArg (fun f => (f m).bare) hcur, fun m j hm _ => hleaf m j hm,
    fun m j hm => View.content_congr (hleaf m j hm) fun h0 => ?_⟩, hzone, fun a x hx => ?_⟩
  · exact hdata _ (h.exclusive.used_of_own (View.owns_leaf hm h0))
  · have hm := (hzones a.1).mp hx.1
    exact ⟨hm, (hzone a.1 hm a.2).symm.trans hx.2.1, hx.2.2⟩

theorem ensures_newBlock_taken (h : s.view.Owned sb none) (hb : s.Buffered) :
    Ensures (newBlock sb) s (Taken sb s) := by
  refine (((ensures_newBlock hb).and (leaves_newBlock (n := 0) s)).and
    ensures_newBlock_used).mono fun z s' hs' => ?_
  obtain ⟨⟨hfresh, haside⟩, hmarks⟩ := hs'
  have hcur : s'.cur = s.cur := by
    have hcount : s'.count = s.count := congrArg (·.1) haside
    have hdisk : s'.diskIno = s.diskIno := congrArg (·.2.1) haside
    funext m
    rw [State.cur, State.cur, hcount, hdisk, hfresh.ino]
  have himap : s'.imap = s.imap := congrArg (·.2.2.1) haside
  have hused (x : ℕ) (hx : s.view.Used sb x) : s'.view.Used sb x :=
    ⟨hx.1, hx.2.1, hfresh.marks _ hx.2.2⟩
  have hdata (x : ℕ) (hx : s.view.Used sb x) : s'.data x = s.data x := by
    rw [hfresh.data]
    split_ifs with hz
    · rfl
    · exact Function.update_of_ne (hx.marked.fresh hfresh hz) ..
  obtain ⟨hextends, hzone, howns⟩ := h.extends hcur himap hdata
  have hreserved : s'.zmap 0 = true := hfresh.marks 0 h.reserved
  have howned : s'.view.Owned sb none := ⟨h.exclusive.mono howns hused, hreserved⟩
  refine ⟨hextends, hzone, fun _ => howned, fun hz => ⟨?_, hreserved⟩, fun hz => ?_, hmarks⟩
  · obtain ⟨hmarked, hfree⟩ := hfresh.marked hz
    refine (h.exclusive.mono howns fun _ => id).take (fun hz' => hfree hz'.marked) fun w hw => ?_
    rcases hw with hw | rfl
    · exact hused w hw
    · -- Bit 0 of the bitmap is no zone.
      refine ⟨?_, hmarked.2.1, hmarked.2.2⟩
      by_contra hlt
      refine hfree ⟨hmarked.1, hmarked.2.1, ?_⟩
      rw [Super.bit, Nat.sub_eq_zero_of_le (by omega)]
      exact h.reserved
  · rw [hfresh.data, if_neg hz, Function.update_self]

/-! ### Filling in a place -/

/-- `i_zone[k] = z`. -/
def Inode.setZone (i : Inode) (k z : ℕ) : Inode := { i with zone := Function.update i.zone k z }

namespace View

/-- The number is stored in an inode. -/
def setZone (V : View) (n k z : ℕ) : View :=
  { V with ino := Function.update V.ino n ((V.ino n).setZone k z) }

/-- The number is stored in a table. -/
def setEntry (V : View) (t k z : ℕ) : View :=
  { V with data := Function.update V.data t (setWord (V.data t) k z) }

variable {V : View}

theorem setZone_zero (h : (V.ino n).zone k = 0) : V.setZone n k 0 = V := by
  have hzone : (V.ino n).setZone k 0 = V.ino n := by
    rw [Inode.setZone, Function.update_eq_self_iff.mpr h.symm]
  rw [setZone, hzone, Function.update_eq_self]

theorem attached_setZone (hn : V.HasZones sb n) {k : Fin 9} (hvacant : (V.ino n).zone k = 0)
    (hempty : V.data z = zeroBlock) : V.Attached sb (V.setZone n k z) (n, .zone k) z := by
  refine ⟨rfl, rfl, fun m => ?_, hn, hvacant, fun m p _ => ?_, fun _ _ _ _ => rfl, hempty⟩
  · rw [setZone]
    dsimp only
    rw [Function.update_apply]
    split_ifs with hm
    · rw [hm]
      rfl
    · rfl
  · rw [zoneAt, setZone]
    dsimp only
    rw [Function.update_apply]
    by_cases hm : m = n
    · rw [if_pos hm, hm]
      refine (zoneAt_set_zone hvacant hempty (fun _ _ => rfl) p).trans ?_
      exact if_congr (by simp) rfl rfl
    · rw [if_neg hm, if_neg fun heq => hm (congrArg Prod.fst heq)]
      rfl

theorem attached_setEntry (h : V.Owned sb (some z)) (hn : V.HasZones sb n) {T : Table}
    (ht : V.zoneAt n T.path ≠ 0) {i : Fin 512} (hvacant : V.zoneAt n (T.entry i) = 0)
    (hempty : V.data z = zeroBlock) :
    V.Attached sb (V.setEntry (V.zoneAt n T.path) i z) (n, T.entry i) z := by
  set t := V.zoneAt n T.path with ht'
  have hdata (x : ℕ) (hx : x ≠ t) : (V.setEntry t i z).data x = V.data x :=
    Function.update_of_ne hx ..
  have howns : V.Owns sb (n, T.path) t := ⟨hn, rfl, ht⟩
  have hne : z ≠ t := fun heq => h.exclusive.not_own_of_hand rfl (heq ▸ howns)
  have hlt : z < 65536 := (h.exclusive.used_of_hand rfl).2.1.trans sb.nzones_lt
  -- The table is the only one of its number.
  have htable (m : ℕ) (hm : V.HasZones sb m) (T' : Table) (hT' : V.zoneAt m T'.path ≠ 0)
      (hne' : ¬ (m = n ∧ T' = T)) : V.zoneAt m T'.path ≠ t := fun heq => by
    obtain ⟨hmn, hpath⟩ := Prod.mk.inj (h.unique (owns_path hm hT') (heq ▸ howns))
    exact hne' ⟨hmn, Table.path_inj hpath⟩
  refine ⟨rfl, rfl, fun _ => rfl, hn, hvacant, fun m p hm => ?_, fun m j hm h0 => ?_, ?_⟩
  · by_cases hmn : m = n
    · subst hmn
      refine (zoneAt_set_entry ht hvacant ((hdata z hne).trans hempty) hlt
        (Function.update_self ..) (fun T' hT' h0 => hdata _ ?_) p).trans ?_
      · exact htable m hm T' h0 fun hc => hT' hc.2
      · exact if_congr (by simp) rfl rfl
    · rw [if_neg fun heq => hmn (congrArg Prod.fst heq)]
      have hino : ((V.setEntry t i z).ino m).zone = (V.ino m).zone := rfl
      exact zoneAt_congr hino (fun T' h0 => hdata _ (htable m hm T' h0 fun hc => hmn hc.1)) p
  · exact hdata _ fun heq => h.leaf_ne_table hm hn h0 T heq.symm
  · exact (hdata z hne).trans hempty

end View

/-- The zone that `new_block` has returned is stored in the inode. -/
theorem Taken.setZone {s₁ : State} (h : Taken sb s z s₁) (hn : s.view.HasZones sb n) {k : Fin 9}
    (hvacant : (s₁.cur n).zone k = 0) (hs' : s'.view = s₁.view.setZone n k z) :
    s.view.Enlarged sb s'.view := by
  rw [hs']
  by_cases hz : z = 0
  · rw [hz, View.setZone_zero hvacant]
    exact h.enlarged_of_zero hz
  · exact h.enlarged hz (View.attached_setZone (h.extended.hasZones.mpr hn) hvacant (h.empty hz))

/-- `bmapZone` fills in a place in the inode, if it is vacant. -/
theorem ensures_bmapZone_extends (h : s.view.Owned sb none) (hb : s.Buffered)
    (hn : s.view.HasZones sb n) (hcore : s.count n ≠ 0) (k : Fin 9) :
    Ensures (bmapZone sb n k true) s fun _ s' => s.view.Enlarged sb s'.view := by
  rw [bmapZone, ensures_get_bind]
  refine ensures_ite (fun hvacant => ?_) fun _ => ensures_pure.mpr (.refl h)
  refine ((ensures_newBlock_taken h hb).and ((ensures_newBlock hb).and
    (leaves_newBlock (n := n) s))).bind fun z s₁ hs₁ => ?_
  obtain ⟨htaken, hfresh, haside⟩ := hs₁
  have hcount : s₁.count = s.count := congrArg (·.1) haside
  have hcore₁ : s₁.count n ≠ 0 := by rwa [hcount]
  have hino₁ : s₁.cur n = s₁.ino n := State.cur_of_count hcore₁
  have hvacant₁ : (s₁.cur n).zone k = 0 := by
    rw [hino₁, hfresh.ino]
    exact hvacant.2
  have hstored (d : ℕ → Bool) : State.view { s₁ with
      dirt := d
      ino := Function.update s₁.ino n ((s₁.ino n).setZone k z) } = s₁.view.setZone n k z :=
    view_edit hcore₁ d fun i => i.setZone k z
  rw [edit, ensures_modify_bind]
  refine ensures_ite (fun _ => ?_) fun _ => ensures_pure.mpr ?_
  · exact ensures_modify.mpr (htaken.setZone hn hvacant₁ (hstored _))
  · exact htaken.setZone hn hvacant₁ (hstored _)

/-- The zone that `new_block` has returned is stored in a table. -/
theorem Taken.setEntry {s₁ : State} (h : Taken sb s z s₁) (hn : s.view.HasZones sb n) {T : Table}
    (ht : s₁.view.zoneAt n T.path ≠ 0) {i : Fin 512} (hvacant : s₁.view.zoneAt n (T.entry i) = 0)
    (hs' : s'.view = if z = 0 then s₁.view
      else s₁.view.setEntry (s₁.view.zoneAt n T.path) i z) :
    s.view.Enlarged sb s'.view := by
  rw [hs']
  split_ifs with hz
  · exact h.enlarged_of_zero hz
  · exact h.enlarged hz (View.attached_setEntry (h.owned hz) (h.extended.hasZones.mpr hn) ht hvacant
      (h.empty hz))

/-- `bmapTable` fills in an entry of a table of the inode, if it is vacant. -/
theorem ensures_bmapTable_extends (h : s.view.Owned sb none) (hb : s.Buffered)
    (hn : s.view.HasZones sb n) (T : Table)
    (ht : s.view.zoneAt n T.path ≠ 0) (hk : k < 512) :
    Ensures (bmapTable sb (s.view.zoneAt n T.path) k true) s fun _ s' =>
      s.view.Enlarged sb s'.view := by
  set t := s.view.zoneAt n T.path with ht'
  have hview (c : Cache) (hc : c.data = s.data) : State.view { s with cache := c } = s.view :=
    congrArg (fun d => { s.view with data := d }) hc
  rw [bmapTable]
  refine Ensures.bind ensures_onCache fun _ s₁ h₁ => ?_
  obtain ⟨c₁, hc₁, rfl⟩ := h₁
  have hread := Cache.read_bread hc₁
  have hview₁ := hview c₁ hread.data
  rw [ensures_get_bind]
  refine ensures_ite (fun hvacant => ?_) fun _ => ?_
  · have h₁ : View.Owned sb (State.view { s with cache := c₁ }) none := by rwa [hview₁]
    have hb₁ := hb.bread hread
    have hn₁ : View.HasZones sb (State.view { s with cache := c₁ }) n := by rwa [hview₁]
    refine ((ensures_newBlock_taken h₁ hb₁).and ((ensures_newBlock hb₁).and
      (leaves_newBlock (n := n) _))).bind fun z s₂ hs₂ => ?_
    obtain ⟨htaken, hfresh, haside⟩ := hs₂
    -- The places of the inode are those that they were.
    have hplace (p : Path) : s₂.view.zoneAt n p = s.view.zoneAt n p :=
      (htaken.zoneAt n hn₁ p).trans (congrArg (View.zoneAt · n p) hview₁)
    have hvacant₂ : s₂.view.zoneAt n (T.entry ⟨k, hk⟩) = 0 := by
      have hdata₁ : State.data { s with cache := c₁ } = s.data := hread.data
      have hword : word (s.data t) k = 0 := hdata₁ ▸ hvacant.2
      rw [hplace, ← hword]
      exact (word_table ht hk).symm
    have hfilled (c₂ c₃ : Cache) (hrel : Cache.Released c₂ t c₃)
        (hdata : c₂.data = if z = 0 then s₂.data
          else Function.update s₂.data t (setWord (s₂.data t) k z)) :
        s.view.Enlarged sb (State.view { s₂ with cache := c₃ }) := by
      rw [← hview₁]
      refine htaken.setEntry hn₁ (by rwa [hplace]) hvacant₂ ?_
      rw [hplace]
      have hdata₃ := hrel.data.trans hdata
      split_ifs at hdata₃ ⊢ with hz
      · exact congrArg (fun d => { s₂.view with data := d }) hdata₃
      · exact congrArg (fun d => { s₂.view with data := d }) hdata₃
    refine ensures_ite (fun hz => ?_) fun hz => ?_
    · rw [store, ensures_modify_bind]
      refine Ensures.bind ensures_onCache fun _ s₃ h₃ => ensures_pure.mpr ?_
      obtain ⟨c₃, hc₃, rfl⟩ := h₃
      have hrel := Cache.released_brelse hc₃
      have hheld : s₂.cache.count t ≠ 0 := by
        rw [← Cache.count_store fun b => setWord b k z]
        exact hrel.pos
      have hdata : (s₂.cache.store t fun b => setWord b k z).data =
          Function.update s₂.data t (setWord (s₂.data t) k z) :=
        Cache.data_store (hfresh.buffered.1.held t hheld) _
      exact hfilled _ _ hrel (hdata.trans (if_neg hz).symm)
    · refine Ensures.bind ensures_onCache fun _ s₃ h₃ => ensures_pure.mpr ?_
      obtain ⟨c₃, hc₃, rfl⟩ := h₃
      exact hfilled _ _ (Cache.released_brelse hc₃) (if_pos (not_not.mp hz)).symm
  · refine Ensures.bind ensures_onCache fun _ s₂ h₂ => ensures_pure.mpr ?_
    obtain ⟨c₂, hc₂, rfl⟩ := h₂
    have hrel := Cache.released_brelse hc₂
    have hview₂ := hview c₂ (hrel.data.trans hread.data)
    rw [hview₂]
    exact .refl h

/-! ### `create_block` -/

/-- What one step of `create_block` leaves, together with what it knows of the tree. -/
structure Deepened (sb : Super) (n : ℕ) (p : Path) (s s' : State) : Prop where
  enlarged : s.view.Enlarged sb s'.view
  aside : s'.aside n = s.aside n
  grown : Grown sb n p s s'

theorem Deepened.zones {p : Path} (h : Deepened sb n p s s') (hn : s.view.HasZones sb n)
    (hcore : s.count n ≠ 0) : s'.view.HasZones sb n ∧ s'.count n ≠ 0 := by
  have hcount : s'.count = s.count := congrArg (·.1) h.aside
  exact ⟨h.enlarged.extended.hasZones.mpr hn, by rwa [hcount]⟩

theorem ensures_bmapZone_deepened (h : s.view.Owned sb none) (hb : s.Buffered)
    (hn : s.view.HasZones sb n) (hcore : s.count n ≠ 0) (k : Fin 9) :
    Ensures (bmapZone sb n k true) s fun _ s' => Deepened sb n (.zone k) s s' :=
  (((ensures_bmapZone_extends h hb hn hcore k).and (leaves_bmapZone k true s)).and
    (ensures_bmapZone (h.tree hn hcore) hb k)).mono
      fun _ _ ⟨⟨hs', haside⟩, hgrown⟩ => ⟨hs', haside, hgrown⟩

theorem ensures_bmapTable_deepened (h : s.view.Owned sb none) (hb : s.Buffered)
    (hn : s.view.HasZones sb n) (hcore : s.count n ≠ 0) (T : Table) (ht : s.place n T.path ≠ 0)
    (hk : k < 512) :
    Ensures (bmapTable sb (s.place n T.path) k true) s fun w s' =>
      Deepened sb n (T.entry ⟨k, hk⟩) s s' ∧ w = s'.place n (T.entry ⟨k, hk⟩) := by
  have hextends := ensures_bmapTable_extends h hb hn T (by rwa [zoneAt_view hcore]) hk
  rw [zoneAt_view hcore] at hextends
  exact ((hextends.and (leaves_bmapTable _ k true s)).and
    (ensures_bmapTable (h.tree hn hcore) hb T ht hk)).mono
      fun _ _ ⟨⟨hs', haside⟩, hgrown, hw⟩ => ⟨⟨hs', haside, hgrown⟩, hw⟩

/-- No file changes when a block is added to one, and its zones are not those of another. -/
theorem ensures_createBlock_extends (h : s.view.Owned sb none) (hb : s.Buffered)
    (hn : s.view.HasZones sb n) (hcore : s.count n ≠ 0) (hk : k < maxBlocks) :
    Ensures (createBlock sb n k) s fun _ s' => s.view.Enlarged sb s'.view := by
  have hbig : ¬7 + 512 + 512 * 512 ≤ k := Nat.not_le.mpr hk
  have hzone (j : Fin 9) := ensures_bmapZone_deepened h hb hn hcore j
  rw [createBlock, bmapAux, if_neg hbig]
  split_ifs with h7 h512
  · exact (hzone ⟨k, lt_nine h7⟩).bind fun _ s₁ hs₁ => ensures_pure.mpr hs₁.enlarged
  · refine (hzone 7).bind fun _ s₁ hs₁ => ?_
    obtain ⟨hn₁, hcore₁⟩ := hs₁.zones hn hcore
    rw [ensures_get_bind]
    refine ensures_ite (fun _ => ensures_pure.mpr hs₁.enlarged) fun h0 => ?_
    have htable := ensures_bmapTable_deepened hs₁.enlarged.owned hs₁.grown.buffered hn₁ hcore₁ .ind
      h0 h512
    exact htable.mono fun _ s₂ hs₂ => hs₁.enlarged.trans hs₂.1.enlarged
  · have hlt : (k - 7 - 512) / 512 < 512 := row_lt hk
    refine (hzone 8).bind fun _ s₁ hs₁ => ?_
    obtain ⟨hn₁, hcore₁⟩ := hs₁.zones hn hcore
    rw [ensures_get_bind]
    refine ensures_ite (fun _ => ensures_pure.mpr hs₁.enlarged) fun h0 => ?_
    have htable := ensures_bmapTable_deepened hs₁.enlarged.owned hs₁.grown.buffered hn₁ hcore₁ .dind
      h0 hlt
    refine htable.bind fun i s₂ hs₂ => ?_
    obtain ⟨hs₂, rfl⟩ := hs₂
    obtain ⟨hn₂, hcore₂⟩ := hs₂.zones hn₁ hcore₁
    have hextends := hs₁.enlarged.trans hs₂.enlarged
    refine ensures_ite (fun _ => ensures_pure.mpr hextends) fun hentry => ?_
    have hmod : (k - 7 - 512) % 512 < 512 := Nat.mod_lt _ (by omega)
    have hentries := ensures_bmapTable_deepened hs₂.enlarged.owned hs₂.grown.buffered hn₂ hcore₂
      (.two ⟨_, hlt⟩) hentry hmod
    exact hentries.mono fun _ s₃ hs₃ => hextends.trans hs₃.1.enlarged

/-! ### A full device -/

/-- All zones are in use. -/
def State.Full (sb : Super) (s : State) : Prop :=
  ∀ z, sb.firstdatazone ≤ z → z < sb.nzones → s.zmap (sb.bit z) = true

theorem findFirstZero_set {bits : ℕ → Bool} {fuel i j : ℕ} (hj : j ≤ i)
    (hi : i < findFirstZero bits fuel j) : bits i = true := by
  induction fuel generalizing j with
  | zero => exact absurd hi (Nat.not_lt.mpr hj)
  | succ fuel ih =>
    unfold findFirstZero at hi
    split_ifs at hi with hbit
    · rcases Nat.eq_or_lt_of_le hj with rfl | hj
      · exact hbit
      · exact ih hj hi
    · exact absurd hi (Nat.not_lt.mpr hj)

theorem findFirstZero_le (bits : ℕ → Bool) (fuel j : ℕ) : findFirstZero bits fuel j ≤ j + fuel := by
  induction fuel generalizing j with
  | zero => exact le_rfl
  | succ fuel ih =>
    unfold findFirstZero
    split_ifs
    · exact (ih (j + 1)).trans (by omega)
    · omega

/-- The bits before the one that is found are set, from the map block on at which the search
begins. -/
theorem newBit_set {map : ℕ → Bool} {blocks left i : ℕ} (hleft : left ≤ 8)
    (hfirst : 8192 * (8 - left) ≤ i) (hi : i < 8192 * blocks) (hblocks : blocks ≤ 8)
    (hnew : ∀ j, newBit map blocks left = some j → i < j) : map i = true := by
  induction left with
  | zero => omega
  | succ left ih =>
    unfold newBit at hnew
    dsimp only at hnew
    set j := findFirstZero (fun j => map (8192 * (7 - left) + j)) 8192 0 with hj
    have hle : j ≤ 8192 := (findFirstZero_le _ _ _).trans (by omega)
    have hbits (k : ℕ) (hk : k < j) : map (8192 * (7 - left) + k) = true :=
      @findFirstZero_set (fun j => map (8192 * (7 - left) + j)) 8192 k 0 (Nat.zero_le k) hk
    by_cases hlt : i < 8192 * (7 - left) + j
    · have hset := hbits (i - 8192 * (7 - left)) (by omega)
      rwa [Nat.add_sub_cancel' (by omega)] at hset
    · split_ifs at hnew with hfound
      · exact absurd (hnew _ rfl) (by omega)
      · exact ih (by omega) (by omega) hnew

theorem ensures_newBlock_full : Ensures (newBlock sb) s fun z s' => z = 0 → s'.Full sb := by
  have hfull {map : ℕ → Bool} (hmap : ∀ j, newBit map sb.zmapBlocks 8 = some j →
      sb.nzones ≤ j + (sb.firstdatazone - 1)) (z : ℕ) (hz : sb.firstdatazone ≤ z)
      (hlt : z < sb.nzones) : map (sb.bit z) = true := by
    have hcovers := sb.zmap_covers
    have hpos := View.firstdatazone_pos sb
    refine newBit_set le_rfl (by omega) ?_ sb.zmapBlocks_le fun j hj => ?_
    · rw [Super.bit]
      omega
    · have := hmap j hj
      rw [Super.bit]
      omega
  rw [newBlock, ensures_get_bind]
  cases hbit : newBit s.zmap sb.zmapBlocks 8 with
  | none => exact ensures_pure.mpr fun _ => hfull fun j hj => by rw [hbit] at hj; cases hj
  | some j =>
    dsimp only
    rw [ensures_modify_bind]
    refine ensures_ite (fun hlarge => ?_) fun hlt => ?_
    · refine ensures_pure.mpr fun _ z hz hz' => ?_
      dsimp only
      rw [Function.update_apply]
      split_ifs
      · rfl
      · refine hfull (fun i hi => ?_) z hz hz'
        obtain rfl := Option.some.inj (hbit.symm.trans hi)
        exact hlarge
    · refine Ensures.bind ensures_onCache fun _ s₁ _ => ?_
      rw [ensures_get_bind]
      refine ensures_ite (fun _ => ensures_throw) fun _ => ?_
      rw [store, ensures_modify_bind]
      refine Ensures.bind ensures_onCache fun _ s₂ _ => ensures_pure.mpr fun hz => ?_
      have hpos := View.firstdatazone_pos sb
      omega

theorem ensures_bmapZone_full (k : ℕ) :
    Ensures (bmapZone sb n k true) s fun _ s' => (s'.ino n).zone k = 0 → s'.Full sb := by
  rw [bmapZone, ensures_get_bind]
  refine ensures_ite (fun _ => ?_) fun hkeep => ensures_pure.mpr fun h0 => absurd ⟨rfl, h0⟩ hkeep
  refine ensures_newBlock_full.bind fun z s₁ hs₁ => ?_
  rw [edit, ensures_modify_bind]
  refine ensures_ite (fun hz => ?_) fun hz => ?_
  · refine ensures_modify.mpr fun h0 => absurd ?_ hz
    simpa only [Function.update_self] using h0
  · exact ensures_pure.mpr fun _ => hs₁ (not_not.mp hz)

theorem ensures_bmapTable_full (t k : ℕ) :
    Ensures (bmapTable sb t k true) s fun w s' => w = 0 → s'.Full sb := by
  have hrelease {s₁ : State} (z : ℕ) (hs₁ : z = 0 → s₁.Full sb) :
      Ensures (brelse t >>= fun _ => pure z) s₁ fun w s' => w = 0 → s'.Full sb := by
    refine Ensures.bind ensures_onCache fun _ s₂ h₂ => ensures_pure.mpr ?_
    obtain ⟨c, -, rfl⟩ := h₂
    exact hs₁
  rw [bmapTable]
  refine Ensures.bind ensures_onCache fun _ s₁ _ => ?_
  rw [ensures_get_bind]
  refine ensures_ite (fun _ => ?_) fun hkeep => hrelease _ fun h0 => absurd ⟨rfl, h0⟩ hkeep
  refine ensures_newBlock_full.bind fun z s₂ hs₂ => ensures_ite (fun hz => ?_) fun _ => ?_
  · rw [store, ensures_modify_bind]
    exact hrelease z fun h0 => absurd h0 hz
  · exact hrelease z hs₂

/-- `create_block` returns 0 only if no zone is left. -/
theorem ensures_createBlock_full (hk : k < maxBlocks) :
    Ensures (createBlock sb n k) s fun z s' => z = 0 → s'.Full sb := by
  have hbig : ¬7 + 512 + 512 * 512 ≤ k := Nat.not_le.mpr hk
  rw [createBlock, bmapAux, if_neg hbig]
  split_ifs with h7 h512
  · exact (ensures_bmapZone_full k).bind fun _ s₁ hs₁ => ensures_pure.mpr hs₁
  · refine (ensures_bmapZone_full 7).bind fun _ s₁ hs₁ => ?_
    rw [ensures_get_bind]
    exact ensures_ite (fun h0 => ensures_pure.mpr fun _ => hs₁ h0) fun _ =>
      ensures_bmapTable_full _ _
  · refine (ensures_bmapZone_full 8).bind fun _ s₁ hs₁ => ?_
    rw [ensures_get_bind]
    refine ensures_ite (fun h0 => ensures_pure.mpr fun _ => hs₁ h0) fun _ => ?_
    refine (ensures_bmapTable_full _ _).bind fun i s₂ hs₂ => ?_
    exact ensures_ite (fun h0 => ensures_pure.mpr fun _ => hs₂ h0) fun _ =>
      ensures_bmapTable_full _ _

/-- What `create_block` leaves, when it returns `z` for the block `k` of the inode `n`. -/
structure Created (sb : Super) (n k : ℕ) (s : State) (z : ℕ) (s' : State) : Prop where
  enlarged : s.view.Enlarged sb s'.view
  aside : s'.aside n = s.aside n
  held : s'.cache.Held []
  leaf : s'.view.leaf n k = z
  full : z = 0 → s'.Full sb

/-- `create_block` returns the zone of the block, or 0 if the device is full. -/
theorem succeeds_createBlock_created (h : s.view.Owned sb none) (hheld : s.cache.Held [])
    (hn : s.view.HasZones sb n) (hcore : s.count n ≠ 0) (hk : k < maxBlocks) :
    Succeeds (createBlock sb n k) s (Created sb n k s) := by
  have hb := hheld.buffered (Nat.zero_le 1)
  have htree := h.tree hn hcore
  have haside : Ensures (createBlock sb n k) s fun _ s' => s'.aside n = s.aside n :=
    leaves_bmapAux k true s
  refine ((((((succeeds_createBlock htree hheld hk).and (ensures_createBlock htree hb hk)).and
    (ensures_createBlock_extends h hb hn hcore hk)).and haside).and
      (ensures_createBlock_full hk))).mono fun z s' hs' => ?_
  obtain ⟨⟨⟨⟨hheld', -, -, hz, -⟩, henlarged⟩, haside⟩, hfull⟩ := hs'
  have hcount : s'.count = s.count := congrArg (·.1) haside
  refine ⟨henlarged, haside, hheld', ?_, hfull⟩
  rw [View.leaf, if_pos hk, zoneAt_view (by rwa [hcount])]
  exact hz.symm

end Linux001.Fs
