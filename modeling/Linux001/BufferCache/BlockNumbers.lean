import Linux001.BufferCache.Alone

/-!
# Block numbers in the buffer cache

A caller of `getblk` and `get_hash_table` asks for a block with an `int`, and a buffer head has an
`unsigned short` for it. The functions are modelled with their sleeps, in which the other processes
and the disk may change everything, as a relation between a state in which a function is called and
one in which it returns.

## Main definitions

* `stored`: what a buffer head keeps of a device and a block.
* `Cache.GetHashTable`, `Cache.Getblk`: the functions.
* `AsAsked`: the functions return the block that was asked for.

## Main results

* `asAsked_iff`: they do if and only if the numbers fit into an `unsigned short`.
-/

namespace Linux001.BufferCache

/-- The values of `b_dev` and `b_blocknr` after they have been set to a device and a block. -/
def stored (l : Label) : Label := ⟨l.dev % 65536, l.block % 65536⟩

/-- The device of a buffer and its first sector there, as `rw_hd` finds them. -/
def Buf.place {D : Type*} (x : Buf D) : ℕ × ℕ := (x.label.dev, x.label.block <<< 1)

namespace Cache

variable {D : Type*} {N : ℕ} (env : Cache D N → Cache D N → Prop)

/-- `b_count++`. -/
def raise (c : Cache D N) (b : Fin N) : Cache D N :=
  c.setBuf b { c.buf b with count := ((c.buf b).count + 1) % 256 }

/-- `wait_on_buffer(bh)`: while the buffer is locked, the process sleeps. -/
def Wait (b : Fin N) (c c' : Cache D N) : Prop :=
  if (c.buf b).lock = none then c' = c else env c c' ∧ (c'.buf b).lock = none

/-- `get_hash_table(dev, block)`. -/
inductive GetHashTable (l : Label) : Cache D N → Cache D N → Option (Fin N) → Prop
  | null {c : Cache D N} (hfind : c.find l = none) : GetHashTable l c c none
  | hit {c c' : Cache D N} {b : Fin N} (hfind : c.find l = some b)
      (hwait : Wait env b (c.raise b) c') (hl : (c'.buf b).label = l) :
      GetHashTable l c c' (some b)
  | retry {c c₁ c₂ c₃ c' : Cache D N} {b : Fin N} {r : Option (Fin N)}
      (hfind : c.find l = some b) (hwait : Wait env b (c.raise b) c₁)
      (hl : (c₁.buf b).label ≠ l) (hwait' : Wait env b c₁ c₂) (hbrelse : c₂.brelse b = some c₃)
      (hrest : GetHashTable l c₃ c' r) : GetHashTable l c c' r

/-- A turn of the loop of `getblk` over the free list, and whether it ends the loop with the buffer
head. -/
def Looks (t : Fin N) (c c' : Cache D N) (found : Prop) : Prop :=
  if (c.buf t).count = 0 then Wait env t c c' ∧ (found ↔ (c'.buf t).count = 0)
  else c' = c ∧ ¬found

/-- The loop of `getblk` over the free list. -/
inductive Scan : Fin N → Cache D N → Cache D N → Option (Fin N) → Prop
  | found {t : Fin N} {c c' : Cache D N} (h : Looks env t c c' True) : Scan t c c' (some t)
  | next {t : Fin N} {c c₁ c' : Cache D N} {r : Option (Fin N)} (h : Looks env t c c₁ False)
      (hnext : c₁.queues.nextFree t ≠ c₁.queues.freeList)
      (hrest : Scan (c₁.queues.nextFree t) c₁ c' r) : Scan t c c' r
  | last {t : Fin N} {c c' : Cache D N} (h : Looks env t c c' False)
      (hnext : c'.queues.nextFree t = c'.queues.freeList) : Scan t c c' none

/-- `ll_rw_block(WRITE, bh)` locks the buffer and waits for the end of the transfer, or does nothing
for a block outside of the partition. -/
def Write (b : Fin N) (c c' : Cache D N) : Prop :=
  c' = c ∨
    Wait env b (c.setBuf b { c.buf b with lock := some ⟨true, (c.buf b).label, false⟩ }) c'

/-- The loop of `sync_dev(dev)`, over the rest of the buffer heads. -/
inductive SyncDev (dev : ℕ) : List (Fin N) → Cache D N → Cache D N → Prop
  | nil {c : Cache D N} : SyncDev dev [] c c
  | skip {b : Fin N} {bs : List (Fin N)} {c c' : Cache D N} (hdev : (c.buf b).label.dev ≠ dev)
      (hrest : SyncDev dev bs c c') : SyncDev dev (b :: bs) c c'
  | clean {b : Fin N} {bs : List (Fin N)} {c c₁ c' : Cache D N} (hdev : (c.buf b).label.dev = dev)
      (hwait : Wait env b c c₁) (hdirt : (c₁.buf b).dirt = false) (hrest : SyncDev dev bs c₁ c') :
      SyncDev dev (b :: bs) c c'
  | write {b : Fin N} {bs : List (Fin N)} {c c₁ c₂ c' : Cache D N}
      (hdev : (c.buf b).label.dev = dev) (hwait : Wait env b c c₁) (hdirt : (c₁.buf b).dirt = true)
      (hwrite : Write env b c₁ c₂) (hrest : SyncDev dev bs c₂ c') : SyncDev dev (b :: bs) c c'

/-- `getblk` takes a free buffer head out of the queues, and calls `sync_dev` if it is dirty. -/
def TakeOut (t : Fin N) (c c' : Cache D N) : Prop :=
  let c₁ : Cache D N := { c.raise t with queues := c.queues.remove (c.buf t).label t }
  if (c₁.buf t).dirt then SyncDev env (c₁.buf t).label.dev (List.finRange N) c₁ c' else c' = c₁

/-- `getblk` gives its new label to a buffer head. -/
def relabel (l : Label) (t : Fin N) (c : Cache D N) : Cache D N :=
  c.setBuf t ((c.buf t).renew (stored l))

/-- Somebody else has been faster, and `getblk` puts the buffer head back without a label. -/
def putBack (t : Fin N) (c : Cache D N) : Cache D N :=
  { c.setBuf t { c.buf t with label := ⟨0, 0⟩, count := 0 } with
    queues := c.queues.insert ⟨0, 0⟩ t }

/-- `getblk(dev, block)`. -/
inductive Getblk (l : Label) : Cache D N → Cache D N → Fin N → Prop
  | hash {c c' : Cache D N} {b : Fin N} (h : GetHashTable env l c c' (some b)) : Getblk l c c' b
  | sleep {c c₁ c₂ c₃ c' : Cache D N} {b : Fin N} (h : GetHashTable env l c c₁ none)
      (hscan : Scan env c₁.queues.freeList c₁ c₂ none) (hsleep : env c₂ c₃)
      (hrest : Getblk l c₃ c' b) : Getblk l c c' b
  | lost {c c₁ c₂ c₃ c' : Cache D N} {t b b' : Fin N} (h : GetHashTable env l c c₁ none)
      (hscan : Scan env c₁.queues.freeList c₁ c₂ (some t)) (htake : TakeOut env t c₂ c₃)
      (hfind : (c₃.relabel l t).find l = some b')
      (hrest : Getblk l ((c₃.relabel l t).putBack t) c' b) : Getblk l c c' b
  | made {c c₁ c₂ c₃ : Cache D N} {t : Fin N} (h : GetHashTable env l c c₁ none)
      (hscan : Scan env c₁.queues.freeList c₁ c₂ (some t)) (htake : TakeOut env t c₂ c₃)
      (hfind : (c₃.relabel l t).find l = none) :
      Getblk l c { c₃.relabel l t with queues := (c₃.relabel l t).queues.insert (stored l) t } t

/-- The buffer has not been evicted between two states, in the second of which the queues are well
formed. -/
structure Kept (b : Fin N) (c c' : Cache D N) : Prop where
  label : (c'.buf b).label = (c.buf b).label
  queued : ∃ out, c'.queues.Formed c'.labels out ∧ ¬out b

end Cache

/-- The functions return buffers that are transferred to and from the block that was asked for, and
`getblk` returns the same one again as long as it is not evicted. -/
structure AsAsked (l : Label) : Prop where
  getHashTable : ∀ {D : Type} {N : ℕ} (env : Cache D N → Cache D N → Prop) (c c' : Cache D N)
    (b : Fin N), Cache.GetHashTable env l c c' (some b) → (c'.buf b).place = (l.dev, 2 * l.block)
  getblk : ∀ {D : Type} {N : ℕ} (env : Cache D N → Cache D N → Prop) (c c' : Cache D N)
    (b : Fin N), Cache.Getblk env l c c' b → (c'.buf b).place = (l.dev, 2 * l.block)
  same : ∀ {D : Type} {N : ℕ} (env env' : Cache D N → Cache D N → Prop) (c c₁ c₂ c₃ : Cache D N)
    (b b' : Fin N), Cache.Getblk env l c c₁ b → Cache.Kept b c₁ c₂ →
      (∀ x y, env' x y → (y.buf b).label = (x.buf b).label) → Cache.Getblk env' l c₂ c₃ b' → b' = b

/-! ### Labels -/

variable {l : Label}

theorem stored_eq_self_iff : stored l = l ↔ l.dev < 65536 ∧ l.block < 65536 := by
  obtain ⟨dev, block⟩ := l
  rw [stored, Label.mk.injEq]
  dsimp only
  omega

theorem place_eq_iff {D : Type*} {x : Buf D} : x.place = (l.dev, 2 * l.block) ↔ x.label = l := by
  obtain ⟨dev, block⟩ := l
  rcases hl : x.label with ⟨dev', block'⟩
  rw [Buf.place, hl, Prod.mk.injEq, Label.mk.injEq, Nat.shiftLeft_eq]
  dsimp only
  omega

namespace Cache

variable {D : Type*} {N : ℕ} {env : Cache D N → Cache D N → Prop} {c c' c₁ c₂ : Cache D N}
  {b b' t : Fin N} {r : Option (Fin N)}

/-- `get_hash_table` looks at the label again after it has slept. -/
theorem GetHashTable.label_eq (h : GetHashTable env l c c' r) (hr : r = some b) :
    (c'.buf b).label = l := by
  induction h with
  | null => cases hr
  | hit _ _ hl =>
    cases hr
    exact hl
  | retry _ _ _ _ _ _ ih => exact ih hr

/-- The label of the buffer that `getblk` returns. -/
theorem Getblk.label_eq (h : Getblk env l c c' b) :
    (c'.buf b).label = l ∨ (c'.buf b).label = stored l := by
  induction h with
  | hash h => exact .inl (h.label_eq rfl)
  | sleep _ _ _ _ ih => exact ih
  | lost _ _ _ _ _ ih => exact ih
  | made => exact .inr (congrArg Buf.label setBuf_self)

/-- A buffer in the queues is found under its label. -/
theorem find_of_kept (hkept : Kept b c c') (hl : (c.buf b).label = l) (hdev : l.dev ≠ 0) :
    c'.find l = some b := by
  obtain ⟨out, hformed, hout⟩ := hkept.queued
  have hlabel : c'.labels b = l := hkept.label.trans hl
  cases hfind : c'.find l with
  | none => exact absurd hlabel (hformed.toHashed.find_eq_none hdev hfind b hout)
  | some b' =>
    obtain ⟨hout', hlabel', -⟩ := hformed.toHashed.find_eq_some hfind
    exact congrArg some
      (hformed.unique b' b hout' hout (by rwa [hlabel']) (hlabel'.trans hlabel.symm))

theorem Wait.label_eq (henv : ∀ x y, env x y → (y.buf b).label = (x.buf b).label)
    (h : Wait env t c c') : (c'.buf b).label = (c.buf b).label := by
  rw [Wait] at h
  split_ifs at h with hlock
  · rw [h]
  · exact henv _ _ h.1

theorem raise_label (c : Cache D N) (t b : Fin N) :
    ((c.raise t).buf b).label = (c.buf b).label := by
  refine field_setBuf Buf.label ?_ b
  rfl

/-- `get_hash_table` finds a buffer that is not evicted while it waits for it. -/
theorem GetHashTable.eq_some (h : GetHashTable env l c c' r) (hfind : c.find l = some b)
    (hl : (c.buf b).label = l) (henv : ∀ x y, env x y → (y.buf b).label = (x.buf b).label) :
    r = some b := by
  cases h with
  | null hnone =>
    rw [hfind] at hnone
    cases hnone
  | hit hfind' => exact hfind'.symm.trans hfind
  | retry hfind' hwait hne =>
    rw [Option.some.inj (hfind'.symm.trans hfind)] at hwait hne
    exact absurd ((hwait.label_eq henv).trans ((raise_label c b b).trans hl)) hne

theorem Getblk.eq_of_find (h : Getblk env l c c' b') (hfind : c.find l = some b)
    (hl : (c.buf b).label = l) (henv : ∀ x y, env x y → (y.buf b).label = (x.buf b).label) :
    b' = b := by
  cases h with
  | hash h => exact Option.some.inj (h.eq_some hfind hl henv)
  | sleep h => cases h.eq_some hfind hl henv
  | lost h => cases h.eq_some hfind hl henv
  | made h => cases h.eq_some hfind hl henv

/-! ### A cache of two buffers -/

theorem find_of_hash (hhash : c.queues.hash (hashfn l) = none) : c.find l = none := by
  rw [find, Queues.find, hhash]
  cases N <;> rfl

/-- A block that is not in the cache, while the first buffer head of the free list has no use. -/
theorem getblk_unused (env : Cache D N → Cache D N → Prop)
    (hhash : c.queues.hash (hashfn l) = none) (hfree : c.queues.freeList = t)
    (hcount : (c.buf t).count = 0) (hlock : (c.buf t).lock = none) (hdirt : (c.buf t).dirt = false)
    (hremove : (c.queues.remove (c.buf t).label t).hash (hashfn l) = none) :
    ∃ c', Getblk env l c c' t ∧ (c'.buf t).label = stored l ∧
      c'.buf = Function.update c.buf t (Buf.renew { c.buf t with count := 1 } (stored l)) ∧
      c'.queues = (c.queues.remove (c.buf t).label t).insert (stored l) t := by
  set c₁ : Cache D N := { c.raise t with queues := c.queues.remove (c.buf t).label t } with hc₁
  have hself : c₁.buf t = { c.buf t with count := 1 } := by
    have hraise : (c.raise t).buf t = { c.buf t with count := ((c.buf t).count + 1) % 256 } :=
      setBuf_self
    rw [hcount] at hraise
    exact hraise
  have hlooks : Looks env t c c True := by
    rw [Looks, if_pos hcount, Wait, if_pos hlock]
    exact ⟨rfl, fun _ => hcount, fun _ => trivial⟩
  have htake : TakeOut env t c c₁ := by
    have hclean : ¬(c₁.buf t).dirt = true := by
      rw [hself]
      exact fun h => Bool.false_ne_true (hdirt.symm.trans h)
    change if (c₁.buf t).dirt = true then _ else c₁ = c₁
    rw [if_neg hclean]
  have hscan : Scan env c.queues.freeList c c (some t) := by
    rw [hfree]
    exact .found hlooks
  refine ⟨_, .made (.null (find_of_hash hhash)) hscan htake (find_of_hash hremove),
    congrArg Buf.label setBuf_self, ?_, rfl⟩
  have hbuf : c₁.buf = Function.update c.buf t { c.buf t with count := 1 } := by
    funext b
    by_cases hb : b = t
    · rw [hb, hself, Function.update_self]
    · rw [Function.update_of_ne hb]
      exact setBuf_of_ne hb
  change Function.update c₁.buf t ((c₁.buf t).renew (stored l)) = _
  rw [hself, hbuf, Function.update_idem]

/-- Two buffers, as `buffer_init` leaves them. -/
def fresh : Cache Unit 2 where
  queues := .init
  buf _ := ⟨⟨0, 0⟩, false, false, 0, none, ()⟩
  disk _ := ()

/-- The first `getblk` takes the first buffer. -/
theorem getblk_fresh (l : Label) : ∃ c', Getblk (fun _ _ => False) l fresh c' 0 ∧
    (c'.buf 0).label = stored l ∧
      c'.buf = Function.update fresh.buf 0 (Buf.renew { fresh.buf 0 with count := 1 } (stored l)) ∧
      c'.queues = (fresh.queues.remove ⟨0, 0⟩ 0).insert (stored l) 0 :=
  getblk_unused _ rfl rfl rfl rfl rfl rfl

/-- A second `getblk` for a block of no device takes the second buffer. -/
theorem getblk_noDevice (block : ℕ) : ∃ c₁ c₂ : Cache Unit 2,
    Getblk (fun _ _ => False) ⟨0, block⟩ fresh c₁ 0 ∧ Kept 0 c₁ c₁ ∧
      Getblk (fun _ _ => False) ⟨0, block⟩ c₁ c₂ 1 := by
  obtain ⟨c₁, hget, -, hbuf, hqueues⟩ := getblk_fresh ⟨0, block⟩
  have hone : c₁.buf 1 = fresh.buf 1 := by
    rw [hbuf]
    exact Function.update_of_ne (by decide) ..
  obtain ⟨c₂, hget', -⟩ := getblk_unused (c := c₁) (t := 1) (l := ⟨0, block⟩)
    (fun _ _ => False) (by rw [hqueues]; rfl) (by rw [hqueues]; rfl) (by rw [hone]; rfl)
    (by rw [hone]; rfl) (by rw [hone]; rfl) (by rw [hqueues, hone]; rfl)
  refine ⟨c₁, c₂, hget, ⟨rfl, fun _ => False, ?_, fun hf => hf⟩, hget'⟩
  have hlabels : c₁.labels = Function.update (fun _ => ⟨0, 0⟩) 0 (stored ⟨0, block⟩) := by
    funext b
    rw [labels, hbuf]
    by_cases hb : b = 0
    · rw [hb, Function.update_self, Function.update_self]
      rfl
    · rw [Function.update_of_ne hb, Function.update_of_ne hb]
      rfl
  rw [hlabels, hqueues]
  exact (Queues.Formed.of_init fun _ => rfl).recycle fun hdev => absurd rfl hdev

end Cache

/-- The functions return the blocks that are asked for if and only if the device is one and the
numbers fit into the fields of a buffer head. -/
theorem asAsked_iff (l : Label) : AsAsked l ↔ l.dev ≠ 0 ∧ l.dev < 65536 ∧ l.block < 65536 := by
  refine ⟨fun h => ⟨fun hdev => ?_, ?_⟩, fun ⟨hdev, hfits⟩ => ⟨?_, ?_, ?_⟩⟩
  · obtain ⟨dev, block⟩ := l
    obtain rfl : dev = 0 := hdev
    obtain ⟨c₁, c₂, hget, hkept, hget'⟩ := Cache.getblk_noDevice block
    exact absurd (h.same _ _ _ _ _ _ _ _ hget hkept (fun _ _ hf => hf.elim) hget') (by decide)
  · obtain ⟨c', hget, hlabel, -⟩ := Cache.getblk_fresh l
    rw [← stored_eq_self_iff, ← hlabel, ← place_eq_iff]
    exact h.getblk _ _ _ _ hget
  · exact fun env c c' b hget => place_eq_iff.mpr (hget.label_eq rfl)
  · refine fun env c c' b hget => place_eq_iff.mpr ?_
    exact hget.label_eq.elim id fun hl => hl.trans (stored_eq_self_iff.mpr hfits)
  · intro D N env env' c c₁ c₂ c₃ b b' hget hkept henv hget'
    have hl : (c₁.buf b).label = l :=
      hget.label_eq.elim id fun hl => hl.trans (stored_eq_self_iff.mpr hfits)
    exact hget'.eq_of_find (Cache.find_of_kept hkept hl hdev) (hkept.label.trans hl) henv

/-- The first block beyond 64 megabytes of the first partition is block 0 in the cache. -/
theorem not_asAsked_block : ¬AsAsked ⟨0x301, 65536⟩ := by
  intro h
  obtain ⟨c', hget, hlabel, -⟩ := Cache.getblk_fresh ⟨0x301, 65536⟩
  have hplace := place_eq_iff.mp (h.getblk _ _ _ _ hget)
  rw [hlabel] at hplace
  exact absurd hplace (by decide)

end Linux001.BufferCache
