import Linux001.Lib.Linked
import Linux001.Lib.Sizes
import Mathlib.Algebra.Group.Fin.Basic
import Mathlib.Data.Fintype.Card

/-!
# The queues of the buffer cache

Every buffer head is in a circular list, the free list, and the ones with a device are also in a
hash chain. The functions `remove_from_queues` and `insert_into_queues` of `fs/buffer.c` take a
buffer head out of both and put it back, at the end of the free list and at the front of the chain
of its new label.

## Main definitions

* `Queues`: the pointers, with `Queues.remove` and `Queues.insert`.
* `Queues.find`: the search of `find_buffer` through a chain.
* `Queues.Formed`: the queues are well formed and contain the right buffers.

## Main results

* `Queues.Formed.remove`, `Queues.Formed.insert`: the functions keep the queues well formed.
* `Queues.Formed.find_eq_some`, `Queues.Formed.find_eq_none`: the search is exact.
-/

namespace Linux001.BufferCache

/-- A device and a block number, which is below 65536. -/
structure Label where
  dev : ℕ
  block : ℕ
  deriving DecidableEq, Repr

/-- `_hashfn`, with `NR_HASH` chains. -/
def hashfn (l : Label) : ℕ := (l.dev ^^^ l.block) % 307

/-- The pointers `b_next`, `b_prev`, `b_next_free` and `b_prev_free` of the buffer heads, the array
`hash_table`, and `free_list`. -/
structure Queues (N : ℕ) where
  next : Fin N → Option (Fin N)
  prev : Fin N → Option (Fin N)
  nextFree : Fin N → Fin N
  prevFree : Fin N → Fin N
  hash : ℕ → Option (Fin N)
  freeList : Fin N

namespace Queues

variable {N : ℕ} (q : Queues N)

/-- A store through a pointer that may be null, which then changes no buffer head. -/
def setAt {β : Type*} (f : Fin N → β) (x : Option (Fin N)) (v : β) : Fin N → β :=
  match x with
  | none => f
  | some x => Function.update f x v

/-- The first half of `remove_from_queues`: out of the hash chain `h`. -/
def unhash (h : ℕ) (b : Fin N) : Queues N :=
  let q := { q with prev := setAt q.prev (q.next b) (q.prev b) }
  let q := { q with next := setAt q.next (q.prev b) (q.next b) }
  { q with hash := if q.hash h = some b then Function.update q.hash h (q.next b) else q.hash }

/-- The second half of `remove_from_queues`: out of the free list. -/
def unlink (b : Fin N) : Queues N :=
  let q := { q with nextFree := Function.update q.nextFree (q.prevFree b) (q.nextFree b) }
  let q := { q with prevFree := Function.update q.prevFree (q.nextFree b) (q.prevFree b) }
  { q with freeList := if q.freeList = b then q.nextFree b else q.freeList }

/-- `remove_from_queues` of a buffer head with the label `l`. -/
def remove (l : Label) (b : Fin N) : Queues N := (q.unhash (hashfn l) b).unlink b

/-- The first half of `insert_into_queues`: to the end of the free list. -/
def link (b : Fin N) : Queues N :=
  let q := { q with nextFree := Function.update q.nextFree b q.freeList }
  let q := { q with prevFree := Function.update q.prevFree b (q.prevFree q.freeList) }
  let q := { q with nextFree := Function.update q.nextFree (q.prevFree q.freeList) b }
  { q with prevFree := Function.update q.prevFree q.freeList b }

/-- The second half of `insert_into_queues`: to the front of the hash chain of its label, if it has
a device. -/
def rehash (l : Label) (b : Fin N) : Queues N :=
  let q := { q with prev := Function.update q.prev b none, next := Function.update q.next b none }
  if l.dev = 0 then q
  else
    let q := { q with next := Function.update q.next b (q.hash (hashfn l)) }
    let q := { q with hash := Function.update q.hash (hashfn l) (some b) }
    { q with prev := setAt q.prev (q.next b) (some b) }

/-- `insert_into_queues` of a buffer head with the label `l`. -/
def insert (l : Label) (b : Fin N) : Queues N := (q.link b).rehash l b

/-- The loop of `find_buffer` from a pointer on, through at most `fuel` buffer heads. -/
def findFrom (label : Fin N → Label) (l : Label) : ℕ → Option (Fin N) → Option (Fin N)
  | 0, _ => none
  | _ + 1, none => none
  | fuel + 1, some b => if label b = l then some b else findFrom label l fuel (q.next b)

/-- `find_buffer`. A well formed chain has no more buffer heads than there are. -/
def find (label : Fin N → Label) (l : Label) : Option (Fin N) :=
  q.findFrom label l N (q.hash (hashfn l))

/-- The queues that `buffer_init` sets up. -/
def init [NeZero N] : Queues N where
  next _ := none
  prev _ := none
  nextFree b := b + 1
  prevFree b := b - 1
  hash _ := none
  freeList := 0

/-! ### Well formed queues -/

/-- Every hash chain has the buffer heads of its labels except the ones in `out`, and no two of them
have the same label. -/
structure Hashed (q : Queues N) (label : Fin N → Label) (out : Fin N → Prop) : Prop where
  chain : ∀ h, ∃ l, l.Nodup ∧ Chained q.next q.prev none (q.hash h) l ∧
    ∀ b, b ∈ l ↔ ¬ out b ∧ (label b).dev ≠ 0 ∧ hashfn (label b) = h
  plain : ∀ b, ¬ out b → (label b).dev = 0 → q.next b = none ∧ q.prev b = none
  unique : ∀ b b', ¬ out b → ¬ out b' → (label b).dev ≠ 0 → label b = label b' → b = b'

/-- The free list has all buffer heads except the ones in `out`, and the hash chains are well
formed. -/
structure Formed (q : Queues N) (label : Fin N → Label) (out : Fin N → Prop) : Prop
    extends Hashed q label out where
  ring : ∃ r, Ring q.nextFree q.prevFree q.freeList r ∧ ∀ b, b ∈ q.freeList :: r ↔ ¬ out b

variable {q} {label label' : Fin N → Label} {out out' : Fin N → Prop} {b : Fin N} {l : Label}

theorem setAt_of_ne {β : Type*} {f : Fin N → β} {x : Option (Fin N)} {v : β} {y : Fin N}
    (h : x ≠ some y) : setAt f x v y = f y := by
  cases x with
  | none => rfl
  | some x => exact Function.update_of_ne (fun hc => h (by rw [hc])) _ _

theorem setAt_self {β : Type*} {f : Fin N → β} {x : Option (Fin N)} {v : β} {y : Fin N}
    (h : x = some y) : setAt f x v y = v := by
  rw [h]
  exact Function.update_self _ _ _

namespace Hashed

/-- Labels of buffer heads outside of the queues do not matter. -/
theorem congr (h : Hashed q label out) (hlabel : ∀ b, ¬ out b → label' b = label b)
    (hout : ∀ b, out' b ↔ out b) : Hashed q label' out' := by
  obtain rfl : out' = out := funext fun b => propext (hout b)
  refine ⟨fun k => ?_, fun b hb hdev => ?_, fun b b' hb hb' hdev heq => ?_⟩
  · obtain ⟨l, hl, hchain, hmem⟩ := h.chain k
    refine ⟨l, hl, hchain, fun b => (hmem b).trans (and_congr_right fun hb => ?_)⟩
    rw [hlabel b hb]
  · rw [hlabel b hb] at hdev
    exact h.plain b hb hdev
  · rw [hlabel b hb] at hdev heq
    rw [hlabel b' hb'] at heq
    exact h.unique b b' hb hb' hdev heq

/-- A buffer head is not its own neighbour in a chain. -/
theorem next_ne (h : Hashed q label out) (hb : ¬ out b) :
    q.next b ≠ some b ∧ q.prev b ≠ some b := by
  by_cases hdev : (label b).dev = 0
  · obtain ⟨hn, hp⟩ := h.plain b hb hdev
    rw [hn, hp]
    simp
  · obtain ⟨l, hl, hchain, hmem⟩ := h.chain (hashfn (label b))
    have hbl := (hmem b).mpr ⟨hb, hdev, rfl⟩
    exact ⟨hchain.next_ne hl hbl, hchain.prev_ne hl hbl (by simp)⟩

/-- The neighbours of a buffer head are in its chain. -/
theorem neighbours (h : Hashed q label out) (hb : ¬ out b) {y : Fin N}
    (hy : q.next b = some y ∨ q.prev b = some y) :
    ¬ out y ∧ (label b).dev ≠ 0 ∧ (label y).dev ≠ 0 ∧ hashfn (label y) = hashfn (label b) := by
  by_cases hdev : (label b).dev = 0
  · obtain ⟨hn, hp⟩ := h.plain b hb hdev
    rw [hn, hp] at hy
    simp at hy
  · obtain ⟨l, hl, hchain, hmem⟩ := h.chain (hashfn (label b))
    have hbl := (hmem b).mpr ⟨hb, hdev, rfl⟩
    have hyl : y ∈ l := by
      rcases hy with hy | hy
      · exact hchain.next_mem hbl hy
      · rcases hchain.prev_mem hbl with ⟨-, hnone⟩ | ⟨z, hz, hz'⟩
        · exact absurd (hnone.symm.trans hy) (by simp)
        · obtain rfl := Option.some.inj (hz'.symm.trans hy)
          exact hz
    obtain ⟨hout, hdev', hhash⟩ := (hmem y).mp hyl
    exact ⟨hout, hdev, hdev', hhash⟩

/-! ### Hash chains -/

section Remove

private theorem unhash_prev (q : Queues N) (b : Fin N) (k : ℕ) :
    (q.unhash k b).prev = setAt q.prev (q.next b) (q.prev b) := rfl

variable (h : Hashed q label out) (hb : ¬ out b)

include h hb

private theorem unhash_next (k : ℕ) :
    (q.unhash k b).next = setAt q.next (q.prev b) (q.next b) := by
  change setAt q.next (setAt q.prev (q.next b) (q.prev b) b) (q.next b) = _
  rw [setAt_of_ne (h.next_ne hb).1]

private theorem unhash_hash (k : ℕ) : (q.unhash k b).hash =
    if q.hash k = some b then Function.update q.hash k (q.next b) else q.hash := by
  have hself : setAt q.next (q.prev b) (q.next b) b = q.next b := setAt_of_ne (h.next_ne hb).2
  have hnext := h.unhash_next hb k
  change (if q.hash k = some b then Function.update q.hash k ((q.unhash k b).next b)
    else q.hash) = _
  rw [hnext, hself]

/-- The chains without a buffer head. -/
private theorem unhash_chain (k : ℕ) : ∃ l, l.Nodup ∧
    Chained (q.unhash (hashfn (label b)) b).next (q.unhash (hashfn (label b)) b).prev none
      ((q.unhash (hashfn (label b)) b).hash k) l ∧
    ∀ c, c ∈ l ↔ ¬ (out c ∨ c = b) ∧ (label c).dev ≠ 0 ∧ hashfn (label c) = k := by
  obtain ⟨l, hl, hchain, hmem⟩ := h.chain k
  rw [h.unhash_next hb, unhash_prev q b, h.unhash_hash hb]
  by_cases hbl : b ∈ l
  · -- The chain of the buffer head itself.
    obtain ⟨-, -, hk⟩ := (hmem b).mp hbl
    subst hk
    refine ⟨l.erase b, hl.erase b, ?_, fun c => ?_⟩
    · have hhead : (if q.hash (hashfn (label b)) = some b then
          Function.update q.hash (hashfn (label b)) (q.next b) else q.hash) (hashfn (label b)) =
          if q.hash (hashfn (label b)) = some b then q.next b else q.hash (hashfn (label b)) := by
        split_ifs
        · rw [Function.update_self]
        · rfl
      rw [hhead]
      exact hchain.remove hl hbl (by simp) (fun y _ hy => setAt_of_ne hy)
        (fun y hy => setAt_self hy) (fun y _ hy => setAt_of_ne hy) fun y hy => setAt_self hy
    · rw [hl.mem_erase_iff, hmem]
      tauto
  · have hne : ∀ c ∈ l, q.next b ≠ some c ∧ q.prev b ≠ some c := fun c hc => by
      obtain ⟨hcout, hcdev, hck⟩ := (hmem c).mp hc
      refine ⟨fun hy => ?_, fun hy => ?_⟩
      · obtain ⟨-, hbdev, -, hhash⟩ := h.neighbours hb (.inl hy)
        exact hbl ((hmem b).mpr ⟨hb, hbdev, hhash.symm.trans hck⟩)
      · obtain ⟨-, hbdev, -, hhash⟩ := h.neighbours hb (.inr hy)
        exact hbl ((hmem b).mpr ⟨hb, hbdev, hhash.symm.trans hck⟩)
    have hhead : (if q.hash (hashfn (label b)) = some b then
        Function.update q.hash (hashfn (label b)) (q.next b) else q.hash) k = q.hash k := by
      split_ifs with hfirst
      · by_cases hk : k = hashfn (label b)
        · subst hk
          exact absurd (hchain.head_mem hfirst) hbl
        · rw [Function.update_of_ne hk]
      · rfl
    rw [hhead]
    refine ⟨l, hl, hchain.congr (fun c hc => setAt_of_ne (hne c hc).2)
      (fun c hc => setAt_of_ne (hne c hc).1), fun c => ?_⟩
    rw [hmem]
    constructor
    · rintro ⟨hout, hrest⟩
      exact ⟨fun hc => hc.elim hout fun hcb => hbl (hcb ▸ (hmem c).mpr ⟨hout, hrest⟩), hrest⟩
    · rintro ⟨hout, hrest⟩
      exact ⟨fun hc => hout (.inl hc), hrest⟩

/-- `remove_from_queues` takes a buffer head out of the hash chains. -/
theorem remove :
    Hashed (q.remove (label b) b) label fun c => out c ∨ c = b where
  chain k := h.unhash_chain hb k
  plain c hc hdev := by
    rw [not_or] at hc
    obtain ⟨hn, hp⟩ := h.plain c hc.1 hdev
    have hne : q.next b ≠ some c ∧ q.prev b ≠ some c :=
      ⟨fun hy => (h.neighbours hb (.inl hy)).2.2.1 hdev,
        fun hy => (h.neighbours hb (.inr hy)).2.2.1 hdev⟩
    refine ⟨?_, ?_⟩
    · change (q.unhash (hashfn (label b)) b).next c = none
      rw [h.unhash_next hb, setAt_of_ne hne.2, hn]
    · change (q.unhash (hashfn (label b)) b).prev c = none
      rw [unhash_prev q b, setAt_of_ne hne.1, hp]
  unique c c' hc hc' hdev heq :=
    h.unique c c' (fun ho => hc (.inl ho)) (fun ho => hc' (.inl ho)) hdev heq

end Remove

section Insert

variable (h : Hashed q label out) (hb : out b)

include h hb

/-- The chains with one more buffer head. -/
private theorem rehash_chain (k : ℕ) :
    ∃ ch, ch.Nodup ∧ Chained (q.rehash l b).next (q.rehash l b).prev none
      ((q.rehash l b).hash k) ch ∧
    ∀ c, c ∈ ch ↔ ¬ (out c ∧ c ≠ b) ∧ (Function.update label b l c).dev ≠ 0 ∧
      hashfn (Function.update label b l c) = k := by
  obtain ⟨ch, hnodup, hchain, hmem⟩ := h.chain k
  have hnot : b ∉ ch := fun hc => ((hmem b).mp hc).1 hb
  have hne : ∀ c ∈ ch, c ≠ b := fun c hc hcb => hnot (hcb ▸ hc)
  -- The other members of a chain are those it had.
  have hold : ∀ c, c ≠ b → (c ∈ ch ↔ ¬ (out c ∧ c ≠ b) ∧ (Function.update label b l c).dev ≠ 0 ∧
      hashfn (Function.update label b l c) = k) := fun c hcb => by
    rw [Function.update_of_ne hcb, hmem]
    simp [hcb]
  rw [rehash]
  by_cases hdev : l.dev = 0
  · rw [if_pos hdev]
    refine ⟨ch, hnodup, hchain.congr (fun c hc => Function.update_of_ne (hne c hc) _ _)
      (fun c hc => Function.update_of_ne (hne c hc) _ _), fun c => ?_⟩
    by_cases hcb : c = b
    · subst hcb
      simp [hdev, hnot]
    · exact hold c hcb
  · rw [if_neg hdev]
    dsimp only
    rw [Function.update_self, Function.update_idem]
    by_cases hk : k = hashfn l
    · subst hk
      refine ⟨b :: ch, List.nodup_cons.mpr ⟨hnot, hnodup⟩, ?_, fun c => ?_⟩
      · rw [Function.update_self]
        have hbhead : q.hash (hashfn l) ≠ some b := fun hc => hnot (hchain.head_mem hc)
        refine hchain.insert (Function.update_self _ _ _) ?_
          (fun y hy => Function.update_of_ne (hne y hy) _ _) (fun y hy ho => ?_)
          (fun y ho => setAt_self ho) hnodup
        · rw [setAt_of_ne hbhead, Function.update_self]
        · rw [setAt_of_ne ho, Function.update_of_ne (hne y hy)]
      · by_cases hcb : c = b
        · subst hcb
          simp [hdev]
        · rw [List.mem_cons, or_iff_right hcb]
          exact hold c hcb
    · refine ⟨ch, hnodup, ?_, fun c => ?_⟩
      · rw [Function.update_of_ne hk]
        refine hchain.congr (fun c hc => Function.update_of_ne (hne c hc) _ _) fun c hc => ?_
        rw [setAt_of_ne, Function.update_of_ne (hne c hc)]
        intro hhead
        -- The head of the chain of `l` is in that chain alone.
        obtain ⟨ch', -, hchain', hmem'⟩ := h.chain (hashfn l)
        have h₁ := ((hmem' c).mp (hchain'.head_mem hhead)).2.2
        have h₂ := ((hmem c).mp hc).2.2
        exact hk (h₂.symm.trans h₁)
      · by_cases hcb : c = b
        · subst hcb
          simp only [hnot, Function.update_self, false_iff, not_and]
          exact fun _ _ hc => hk hc.symm
        · exact hold c hcb

/-- The links of the other buffer heads without a device are left as they are. -/
private theorem rehash_plain {c : Fin N} (hc : ¬ (out c ∧ c ≠ b))
    (hdev : (Function.update label b l c).dev = 0) :
    (q.rehash l b).next c = none ∧ (q.rehash l b).prev c = none := by
  by_cases hcb : c = b
  · subst hcb
    rw [Function.update_self] at hdev
    rw [rehash, if_pos hdev]
    exact ⟨Function.update_self _ _ _, Function.update_self _ _ _⟩
  · rw [Function.update_of_ne hcb] at hdev
    have hout : ¬ out c := fun ho => hc ⟨ho, hcb⟩
    obtain ⟨hn, hp⟩ := h.plain c hout hdev
    rw [rehash]
    split_ifs with hl
    · exact ⟨(Function.update_of_ne hcb _ _).trans hn, (Function.update_of_ne hcb _ _).trans hp⟩
    · dsimp only
      have hhead : q.hash (hashfn l) ≠ some c := fun hf => by
        obtain ⟨ch, -, hchain, hmem⟩ := h.chain (hashfn l)
        exact ((hmem c).mp (hchain.head_mem hf)).2.1 hdev
      rw [Function.update_self, setAt_of_ne hhead, Function.update_idem,
        Function.update_of_ne hcb, Function.update_of_ne hcb]
      exact ⟨hn, hp⟩

/-- `insert_into_queues` puts a buffer head into the hash chain of its label, which no buffer head
there has yet. -/
theorem insert (hnew : l.dev ≠ 0 → ∀ c, ¬ out c → label c ≠ l) :
    Hashed (q.insert l b) (Function.update label b l) fun c => out c ∧ c ≠ b := by
  have hlink : Hashed (q.link b) label out := ⟨h.chain, h.plain, h.unique⟩
  refine ⟨hlink.rehash_chain hb, fun c => hlink.rehash_plain hb, fun c c' hc hc' hdev heq => ?_⟩
  have hin : ∀ c, ¬ (out c ∧ c ≠ b) → c ≠ b → ¬ out c := fun c hc hcb ho => hc ⟨ho, hcb⟩
  by_cases hcb : c = b <;> by_cases hcb' : c' = b
  · rw [hcb, hcb']
  · subst hcb
    rw [Function.update_self] at hdev heq
    rw [Function.update_of_ne hcb'] at heq
    exact absurd heq.symm (hnew hdev c' (hin c' hc' hcb'))
  · subst hcb'
    rw [Function.update_self] at heq
    rw [Function.update_of_ne hcb] at hdev heq
    exact absurd heq (hnew (heq ▸ hdev) c (hin c hc hcb))
  · rw [Function.update_of_ne hcb] at hdev heq
    rw [Function.update_of_ne hcb'] at heq
    exact h.unique c c' (hin c hc hcb) (hin c' hc' hcb') hdev heq

end Insert

/-! ### The search -/

/-- The loop of `find_buffer` over a chain finds its first buffer head with the label. -/
private theorem findFrom_eq {ch : List (Fin N)} {p o : Option (Fin N)} {fuel : ℕ}
    (hchain : Chained q.next q.prev p o ch) (hfuel : ch.length ≤ fuel) :
    q.findFrom label l fuel o = ch.find? fun b => label b = l := by
  induction fuel generalizing p o ch with
  | zero =>
    obtain rfl := List.length_eq_zero_iff.mp (Nat.le_zero.mp hfuel)
    rfl
  | succ fuel ih =>
    cases ch with
    | nil =>
      obtain rfl : o = none := hchain
      rfl
    | cons b ch =>
      obtain ⟨⟨rfl, -⟩, hrest⟩ := hchain
      rw [findFrom, List.find?_cons, ih hrest (by simpa using hfuel)]
      by_cases hb : label b = l <;> simp [hb]

private theorem find_eq (h : Hashed q label out) : ∃ ch : List (Fin N),
    q.find label l = ch.find? (fun b => label b = l) ∧
      ∀ b, b ∈ ch ↔ ¬ out b ∧ (label b).dev ≠ 0 ∧ hashfn (label b) = hashfn l := by
  obtain ⟨ch, hnodup, hchain, hmem⟩ := h.chain (hashfn l)
  have hlength : ch.length ≤ N := by
    simpa using hnodup.length_le_card
  exact ⟨ch, findFrom_eq hchain hlength, hmem⟩

/-- A buffer head that `find_buffer` finds is in the queues and has the label. -/
theorem find_eq_some (h : Hashed q label out) (hf : q.find label l = some b) :
    ¬ out b ∧ label b = l ∧ l.dev ≠ 0 := by
  obtain ⟨ch, hfind, hmem⟩ := h.find_eq (l := l)
  rw [hfind] at hf
  obtain ⟨hout, hdev, -⟩ := (hmem b).mp (List.mem_of_find?_eq_some hf)
  have hlabel : label b = l := by simpa using List.find?_some hf
  exact ⟨hout, hlabel, hlabel ▸ hdev⟩

/-- If `find_buffer` finds nothing then no buffer head in the queues has the label. -/
theorem find_eq_none (h : Hashed q label out) (hl : l.dev ≠ 0) (hf : q.find label l = none)
    (b : Fin N) (hb : ¬ out b) : label b ≠ l := by
  obtain ⟨ch, hfind, hmem⟩ := h.find_eq (l := l)
  rw [hfind] at hf
  intro hlabel
  have hbl := (hmem b).mpr ⟨hb, hlabel ▸ hl, by rw [hlabel]⟩
  exact absurd hlabel (by simpa using List.find?_eq_none.mp hf b hbl)

end Hashed

/-! ### The free list -/

namespace Formed

/-- Labels of buffer heads outside of the queues do not matter. -/
theorem congr (h : Formed q label out) (hlabel : ∀ b, ¬ out b → label' b = label b)
    (hout : ∀ b, out' b ↔ out b) : Formed q label' out' := by
  obtain rfl : out' = out := funext fun b => propext (hout b)
  exact ⟨h.toHashed.congr hlabel hout, h.ring⟩

section Remove

variable (h : Formed q label out) (hb : ¬ out b)

include h hb

/-- The free list without a buffer head, when there are others. -/
private theorem unlink_ring (hother : ∃ c, c ≠ b ∧ ¬ out c) :
    ∃ r, Ring (q.unlink b).nextFree (q.unlink b).prevFree (q.unlink b).freeList r ∧
      ∀ c, c ∈ (q.unlink b).freeList :: r ↔ ¬ (out c ∨ c = b) := by
  obtain ⟨r, hring, hmem⟩ := h.ring
  obtain ⟨r', hring', hperm⟩ := hring.rotate ((hmem b).mpr hb)
  obtain ⟨c, hcb, hc⟩ := hother
  have hcr : c ∈ r' := by
    have hc' : c ∈ b :: r' := hperm.mem_iff.mpr ((hmem c).mpr hc)
    exact (List.mem_cons.mp hc').resolve_left hcb
  obtain ⟨x, r'', rfl⟩ := List.exists_cons_of_ne_nil (List.ne_nil_of_mem hcr)
  have hself : Function.update q.nextFree (q.prevFree b) (q.nextFree b) b = q.nextFree b := by
    rw [Function.update_apply]
    split_ifs <;> rfl
  have hnext : (q.unlink b).nextFree =
      Function.update q.nextFree (q.prevFree b) (q.nextFree b) := rfl
  have hprev : (q.unlink b).prevFree =
      Function.update q.prevFree (q.nextFree b) (q.prevFree b) := by
    change Function.update q.prevFree
      (Function.update q.nextFree (q.prevFree b) (q.nextFree b) b) (q.prevFree b) = _
    rw [hself]
  have hfree : (q.unlink b).freeList = if q.freeList = b then x else q.freeList := by
    change (if q.freeList = b then Function.update q.nextFree (q.prevFree b) (q.nextFree b) b
      else q.freeList) = _
    rw [hself, hring'.2.1.1]
  have hmem' : ∀ c, c ∈ x :: r'' ↔ ¬ (out c ∨ c = b) := fun c => by
    have hnot := (List.nodup_cons.mp hring'.1).1
    have hcons : c ∈ b :: x :: r'' ↔ ¬ out c := hperm.mem_iff.trans (hmem c)
    rw [List.mem_cons] at hcons
    constructor
    · exact fun hcx hc => hc.elim (hcons.mp (.inr hcx)) fun hcb => hnot (hcb ▸ hcx)
    · exact fun hc => (hcons.mpr fun ho => hc (.inl ho)).resolve_left fun hcb => hc (.inr hcb)
  have hstart : (q.unlink b).freeList ∈ x :: r'' := by
    rw [hfree]
    split_ifs with hf
    · exact List.mem_cons_self
    · exact (hmem' _).mpr fun hc => hc.elim ((hmem _).mp List.mem_cons_self) hf
  obtain ⟨r₁, hring₁, hperm₁⟩ := hring'.remove.rotate hstart
  rw [hnext, hprev]
  exact ⟨r₁, hring₁, fun c => hperm₁.mem_iff.trans (hmem' c)⟩

/-- `remove_from_queues` takes a buffer head out of the queues, when the free list has others. -/
theorem remove (hother : ∃ c, c ≠ b ∧ ¬ out c) :
    Formed (q.remove (label b) b) label fun c => out c ∨ c = b :=
  ⟨h.toHashed.remove hb, h.unlink_ring hb hother⟩

end Remove

section Insert

variable (h : Formed q label out) (hb : out b)

include h hb

/-- The free list with one more buffer head. -/
private theorem link_ring : ∃ r,
    Ring (q.link b).nextFree (q.link b).prevFree (q.link b).freeList r ∧
      ∀ c, c ∈ (q.link b).freeList :: r ↔ ¬ (out c ∧ c ≠ b) := by
  obtain ⟨r, hring, hmem⟩ := h.ring
  have hnot : b ∉ q.freeList :: r := fun hc => (hmem b).mp hc hb
  have hne : ∀ c ∈ q.freeList :: r, c ≠ b := fun c hc hcb => hnot (hcb ▸ hc)
  have hstart := hne q.freeList List.mem_cons_self
  have hlast := hring.2.prev_mem
  have hprev₁ : Function.update q.prevFree b (q.prevFree q.freeList) q.freeList =
      q.prevFree q.freeList := Function.update_of_ne hstart _ _
  have hnext : (q.link b).nextFree = Function.update (Function.update q.nextFree b q.freeList)
      (q.prevFree q.freeList) b := by
    change Function.update (Function.update q.nextFree b q.freeList)
      (Function.update q.prevFree b (q.prevFree q.freeList) q.freeList) b = _
    rw [hprev₁]
  have hprev : (q.link b).prevFree = Function.update
      (Function.update q.prevFree b (q.prevFree q.freeList)) q.freeList b := rfl
  have hfree : (q.link b).freeList = q.freeList := rfl
  refine ⟨r ++ [b], ?_, fun c => ?_⟩
  · rw [hnext, hprev, hfree]
    refine hring.insert hnot (fun y hy hyl => ?_) ?_ ?_ (fun y hy => ?_) ?_ ?_
    · rw [Function.update_of_ne hyl, Function.update_of_ne (hne y hy)]
    · rw [Function.update_self]
    · rw [Function.update_of_ne (hne _ hlast).symm, Function.update_self]
    · have hyf : y ≠ q.freeList := fun hc => (List.nodup_cons.mp hring.1).1 (hc ▸ hy)
      rw [Function.update_of_ne hyf, Function.update_of_ne (hne y (List.mem_cons_of_mem _ hy))]
    · rw [Function.update_of_ne hstart.symm, Function.update_self]
    · rw [Function.update_self]
  · have hcons := hmem c
    rw [hfree, List.mem_cons, List.mem_append, List.mem_singleton]
    rw [List.mem_cons] at hcons
    by_cases hcb : c = b
    · simp [hcb]
    · simp only [hcb, or_false, ne_eq, not_false_eq_true, and_true]
      exact hcons

/-- `insert_into_queues` puts a buffer head into the queues, under a label that no buffer head there
has yet. -/
theorem insert (hnew : l.dev ≠ 0 → ∀ c, ¬ out c → label c ≠ l) :
    Formed (q.insert l b) (Function.update label b l) fun c => out c ∧ c ≠ b := by
  refine ⟨h.toHashed.insert hb hnew, ?_⟩
  have hsame : (q.insert l b).nextFree = (q.link b).nextFree ∧
      (q.insert l b).prevFree = (q.link b).prevFree ∧
      (q.insert l b).freeList = (q.link b).freeList := by
    rw [Queues.insert, rehash]
    split_ifs <;> exact ⟨rfl, rfl, rfl⟩
  rw [hsame.1, hsame.2.1, hsame.2.2]
  exact h.link_ring hb

end Insert

/-- A buffer head is taken out of the queues and put back under another label. -/
theorem recycle (h : Formed q label fun _ => False)
    (hnew : l.dev ≠ 0 → ∀ c, c ≠ b → label c ≠ l) :
    Formed ((q.remove (label b) b).insert l b) (Function.update label b l) fun _ => False := by
  have hnew' : l.dev ≠ 0 → ∀ c, ¬ (False ∨ c = b) → label c ≠ l := fun hdev c hc =>
    hnew hdev c fun heq => hc (.inr heq)
  by_cases hother : ∃ c, c ≠ b
  · obtain ⟨c, hc⟩ := hother
    refine ((h.remove (fun hf => hf) ⟨c, hc, fun hf => hf⟩).insert (.inr rfl) hnew').congr
      (fun _ _ => rfl) fun c => ?_
    simp
  · -- The only buffer head is all of the free list.
    have hone : ∀ c c' : Fin N, c = c' := fun c c' =>
      (not_not.mp (not_exists.mp hother c)).trans (not_not.mp (not_exists.mp hother c')).symm
    have hhashed := (h.toHashed.remove (fun hf => hf)).insert (.inr rfl) hnew'
    refine ⟨hhashed.congr (fun _ _ => rfl) fun c => by simp, [], ⟨?_, hone _ _, hone _ _⟩, ?_⟩
    · exact List.nodup_singleton _
    · exact fun c => ⟨fun _ hf => hf, fun _ => List.mem_singleton.mpr (hone _ _)⟩

/-! ### The initial queues -/

private theorem linked_init [NeZero N] (a k : ℕ) :
    Linked (init (N := N)).nextFree (init (N := N)).prevFree (Fin.ofNat N a)
      ((List.range' (a + 1) k).map (Fin.ofNat N)) (Fin.ofNat N (a + k + 1)) := by
  have hstep : ∀ a : ℕ, Fin.ofNat N a + 1 = Fin.ofNat N (a + 1) := fun a => by
    ext
    simp [Fin.val_add]
  have hback : ∀ a : ℕ, Fin.ofNat N (a + 1) - 1 = Fin.ofNat N a := fun a => by
    rw [← hstep, add_sub_cancel_right]
  exact linked_range' (fun j _ _ => ⟨hstep j, hback j⟩) (hstep _) (hback _)

/-- The free list of `buffer_init` has all buffer heads in the order of their addresses. -/
private theorem ring_init [NeZero N] : ∃ r,
    Ring (init (N := N)).nextFree (init (N := N)).prevFree 0 r ∧ ∀ b : Fin N, b ∈ 0 :: r := by
  have hpos := Nat.pos_of_neZero N
  have hcons : (0 : Fin N) :: (List.range' 1 (N - 1)).map (Fin.ofNat N) =
      (List.range' 0 N).map (Fin.ofNat N) := by
    have hrange : List.range' 0 N = 0 :: List.range' 1 (N - 1) := by
      conv_lhs => rw [← Nat.sub_add_cancel hpos, List.range'_succ]
    rw [hrange, List.map_cons]
    rfl
  refine ⟨(List.range' 1 (N - 1)).map (Fin.ofNat N), ⟨?_, ?_⟩, fun b => ?_⟩
  · rw [hcons]
    refine (List.nodup_range').map_on fun x hx y hy hxy => ?_
    rw [List.mem_range'_1] at hx hy
    have hval := congrArg Fin.val hxy
    simp only [Fin.val_ofNat] at hval
    rwa [Nat.mod_eq_of_lt (by omega), Nat.mod_eq_of_lt (by omega)] at hval
  · have hlinked := linked_init (N := N) 0 (N - 1)
    rw [show 0 + (N - 1) + 1 = N by omega] at hlinked
    have hlast : Fin.ofNat N N = 0 := by
      ext
      simp
    rw [hlast] at hlinked
    exact hlinked
  · rw [hcons, List.mem_map]
    refine ⟨b, by simp [List.mem_range'_1], ?_⟩
    ext
    simp

/-- The queues of `buffer_init` are well formed. -/
theorem of_init [NeZero N] (hlabel : ∀ b, (label b).dev = 0) :
    Formed (init (N := N)) label fun _ => False := by
  obtain ⟨r, hring, hmem⟩ := ring_init (N := N)
  refine ⟨⟨fun k => ⟨[], List.nodup_nil, rfl, fun b => ?_⟩, fun b _ _ => ⟨rfl, rfl⟩, ?_⟩,
    r, hring, fun b => ?_⟩
  · simp [hlabel b]
  · exact fun b b' _ _ hdev _ => absurd (hlabel b) hdev
  · simp only [not_false_eq_true, iff_true]
    exact hmem b

end Formed

end Queues

end Linux001.BufferCache
