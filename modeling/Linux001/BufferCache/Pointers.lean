import Linux001.BufferCache.Layout
import Linux001.BufferCache.Processes

/-!
# The pointers of the queues

The functions `remove_from_queues` and `insert_into_queues` of `fs/buffer.c` on the memory that
`buffer_init` leaves, with all the pointers that they dereference. Memory has a value at every
address, at 0 too: the page directory is there. A buffer head that is inserted into an empty hash
chain has the null pointer in `b_next`, and the last assignment, `bh->b_next->b_prev = bh`, stores
through it. All the other pointers are those of buffer heads, in every state of the buffer cache.

## Main definitions

* `Access`: memory, and the pointers that have been dereferenced.
* `Access.remove`, `Access.insert`: the functions.
* `Simulates`: the memory has the pointers of `Queues`.
* `Surgery`: what a step of a process does to the queues.

## Main results

* `Simulates.remove`, `Simulates.insert`: the functions on memory do what those on `Queues` do.
* `State.next_queues`: only `getblk` changes the queues.
* `heads_iff`: the pointers are those of buffer heads unless the chain is empty.
-/

namespace Linux001.BufferCache

/-- Memory, and the pointers that have been dereferenced. -/
structure Access where
  mem : Memory
  used : List ℕ

namespace Access

variable (a : Access)

/-- A load through `p`. -/
def deref (p : ℕ) : Access := { a with used := a.used ++ [p] }

/-- `p->b_next = v`. -/
def setNext (p v : ℕ) : Access :=
  ⟨{ a.mem with next := Function.update a.mem.next p v }, a.used ++ [p]⟩

/-- `p->b_prev = v`. -/
def setPrev (p v : ℕ) : Access :=
  ⟨{ a.mem with prev := Function.update a.mem.prev p v }, a.used ++ [p]⟩

/-- `p->b_next_free = v`. -/
def setNextFree (p v : ℕ) : Access :=
  ⟨{ a.mem with nextFree := Function.update a.mem.nextFree p v }, a.used ++ [p]⟩

/-- `p->b_prev_free = v`. -/
def setPrevFree (p v : ℕ) : Access :=
  ⟨{ a.mem with prevFree := Function.update a.mem.prevFree p v }, a.used ++ [p]⟩

/-- `hash_table[i] = v`. -/
def setHash (i v : ℕ) : Access := { a with
    mem := { a.mem with hash := Function.update a.mem.hash i v } }

/-- `free_list = v`. -/
def setFreeList (v : ℕ) : Access := { a with mem := { a.mem with freeList := v } }

/-- The first half of `remove_from_queues`: out of the hash chain `i`. -/
def unhash (i bh : ℕ) : Access :=
  let a := a.deref bh
  let a := if a.mem.next bh ≠ 0 then a.setPrev (a.mem.next bh) (a.mem.prev bh) else a
  let a := if a.mem.prev bh ≠ 0 then a.setNext (a.mem.prev bh) (a.mem.next bh) else a
  if a.mem.hash i = bh then a.setHash i (a.mem.next bh) else a

/-- The second half of `remove_from_queues`: out of the free list. -/
def unlink (bh : ℕ) : Except String Access :=
  let a := a.deref bh
  if a.mem.prevFree bh = 0 ∨ a.mem.nextFree bh = 0 then .error "Free block list corrupted"
  else
    let a := a.setNextFree (a.mem.prevFree bh) (a.mem.nextFree bh)
    let a := a.setPrevFree (a.mem.nextFree bh) (a.mem.prevFree bh)
    .ok (if a.mem.freeList = bh then a.setFreeList (a.mem.nextFree bh) else a)

/-- `remove_from_queues` of a buffer head with the label `l`. -/
def remove (l : Label) (bh : ℕ) : Except String Access := (a.unhash (hashfn l) bh).unlink bh

/-- The first half of `insert_into_queues`: to the end of the free list. -/
def link (bh : ℕ) : Access :=
  let a := a.setNextFree bh a.mem.freeList
  let a := (a.deref a.mem.freeList).setPrevFree bh (a.mem.prevFree a.mem.freeList)
  let a := (a.deref a.mem.freeList).setNextFree (a.mem.prevFree a.mem.freeList) bh
  a.setPrevFree a.mem.freeList bh

/-- The second half of `insert_into_queues`: to the front of the hash chain of its label, if it has
a device. -/
def rehash (l : Label) (bh : ℕ) : Access :=
  let a := (a.setPrev bh 0).setNext bh 0
  if l.dev = 0 then a
  else
    let a := a.setNext bh (a.mem.hash (hashfn l))
    let a := a.setHash (hashfn l) bh
    a.setPrev (a.mem.next bh) bh

/-- `insert_into_queues` of a buffer head with the label `l`. -/
def insert (l : Label) (bh : ℕ) : Access := (a.link bh).rehash l bh

end Access

/-! ### Memory and queues -/

section Simulates

variable (e : ℕ) {N : ℕ}

/-- A pointer that may be null. -/
def ptr : Option (Fin N) → ℕ
  | none => 0
  | some b => headAt e b

/-- A pointer to a buffer head. -/
def IsHead (N p : ℕ) : Prop := ∃ b : Fin N, p = headAt e b

/-- The pointers in memory are those of the queues. -/
structure Represents (m : Memory) (q : Queues N) : Prop where
  next : ∀ b : Fin N, m.next (headAt e b) = ptr e (q.next b)
  prev : ∀ b : Fin N, m.prev (headAt e b) = ptr e (q.prev b)
  nextFree : ∀ b : Fin N, m.nextFree (headAt e b) = headAt e (q.nextFree b)
  prevFree : ∀ b : Fin N, m.prevFree (headAt e b) = headAt e (q.prevFree b)
  hash : ∀ i < 307, m.hash i = ptr e (q.hash i)
  freeList : m.freeList = headAt e q.freeList

/-- The pointers in memory are those of the queues, and buffer heads only have been used. -/
structure Simulates (a : Access) (q : Queues N) : Prop where
  mem : Represents e a.mem q
  used : ∀ p ∈ a.used, IsHead e N p

variable {e} (he : 0 < e) {a : Access} {m : Memory} {q : Queues N} {b : Fin N} {l : Label}
  {i p v : ℕ}

theorem headAt_fin_inj {b c : Fin N} (h : headAt e b = headAt e c) : b = c := Fin.ext (headAt_inj h)

include he in
theorem headAt_ne_zero (i : ℕ) : headAt e i ≠ 0 := by
  unfold headAt
  omega

include he in

include he in
theorem ptr_eq_headAt {x : Option (Fin N)} : ptr e x = headAt e b ↔ x = some b := by
  cases x with
  | none => exact ⟨fun h => absurd h.symm (headAt_ne_zero he b), fun h => by cases h⟩
  | some c => exact ⟨fun h => congrArg some (headAt_fin_inj h),
      fun h => by rw [Option.some.inj h]; rfl⟩

/-- A store to a pointer of the free list. -/
theorem update_headAt {f : ℕ → ℕ} {g : Fin N → Fin N}
    (h : ∀ b : Fin N, f (headAt e b) = headAt e (g b))
    (x y b : Fin N) : Function.update f (headAt e x) (headAt e y) (headAt e b) =
      headAt e (Function.update g x y b) := by
  rw [Function.update_apply, Function.update_apply]
  by_cases hb : b = x
  · rw [if_pos hb, if_pos (congrArg (fun b : Fin N => headAt e b) hb)]
  · rw [if_neg hb, if_neg fun heq => hb (headAt_fin_inj heq), h]

include he in
/-- A store to a pointer of a hash chain. What is stored through a null pointer is in no buffer
head. -/
theorem update_ptr {f : ℕ → ℕ} {g : Fin N → Option (Fin N)}
    (h : ∀ b : Fin N, f (headAt e b) = ptr e (g b)) (x y : Option (Fin N)) (b : Fin N) :
    Function.update f (ptr e x) (ptr e y) (headAt e b) = ptr e (Queues.setAt g x y b) := by
  by_cases hx : x = some b
  · rw [hx]
    exact (Function.update_self ..).trans (congrArg _ (Queues.setAt_self rfl).symm)
  · rw [Queues.setAt_of_ne hx, ← h]
    exact Function.update_of_ne (fun heq => hx ((ptr_eq_headAt he).mp heq.symm)) _ _

namespace Represents

variable (h : Represents e a.mem q) (x y : Option (Fin N)) (f g : Fin N)

include h

include he in
theorem setNext : Represents e (a.setNext (ptr e x) (ptr e y)).mem
    { q with next := Queues.setAt q.next x y } :=
  { h with next := update_ptr he h.next x y }

include he in
theorem setPrev : Represents e (a.setPrev (ptr e x) (ptr e y)).mem
    { q with prev := Queues.setAt q.prev x y } :=
  { h with prev := update_ptr he h.prev x y }

theorem setNextFree : Represents e (a.setNextFree (headAt e f) (headAt e g)).mem
    { q with nextFree := Function.update q.nextFree f g } :=
  { h with nextFree := update_headAt h.nextFree f g }

theorem setPrevFree : Represents e (a.setPrevFree (headAt e f) (headAt e g)).mem
    { q with prevFree := Function.update q.prevFree f g } :=
  { h with prevFree := update_headAt h.prevFree f g }

theorem setHash (i : ℕ) : Represents e (a.setHash i (ptr e x)).mem
    { q with hash := Function.update q.hash i x } where
  __ := h
  hash j hj := by
    change Function.update a.mem.hash i (ptr e x) j = ptr e (Function.update q.hash i x j)
    rw [Function.update_apply, Function.update_apply, h.hash j hj]
    split_ifs <;> rfl

theorem setFreeList : Represents e (a.setFreeList (headAt e f)).mem { q with freeList := f } :=
  { h with freeList := rfl }

end Represents

namespace Simulates

variable (h : Simulates e a q)

include h

theorem use (hp : IsHead e N p) : ∀ x ∈ a.used ++ [p], IsHead e N x := by
  intro x hx
  rcases List.mem_append.mp hx with hx | hx
  · exact h.used x hx
  · rwa [List.mem_singleton.mp hx]

theorem deref (hp : IsHead e N p) : Simulates e (a.deref p) q := ⟨h.mem, h.use hp⟩

include he in
/-- A store through a pointer of a hash chain that is looked at before. -/
theorem storeNext {x y : Option (Fin N)} (hp : p = ptr e x) (hv : v = ptr e y) :
    Simulates e (if p ≠ 0 then a.setNext p v else a)
      { q with next := Queues.setAt q.next x y } := by
  rw [hp, hv]
  cases x with
  | none => exact if_neg (not_not.mpr rfl) ▸ h
  | some c =>
    have hne : ptr e (some c) ≠ 0 := headAt_ne_zero he c
    rw [if_pos hne]
    exact ⟨h.mem.setNext he (some c) y, h.use ⟨c, rfl⟩⟩

include he in
theorem storePrev {x y : Option (Fin N)} (hp : p = ptr e x) (hv : v = ptr e y) :
    Simulates e (if p ≠ 0 then a.setPrev p v else a)
      { q with prev := Queues.setAt q.prev x y } := by
  rw [hp, hv]
  cases x with
  | none => exact if_neg (not_not.mpr rfl) ▸ h
  | some c =>
    have hne : ptr e (some c) ≠ 0 := headAt_ne_zero he c
    rw [if_pos hne]
    exact ⟨h.mem.setPrev he (some c) y, h.use ⟨c, rfl⟩⟩

theorem storeNextFree {f g : Fin N} (hp : p = headAt e f) (hv : v = headAt e g) :
    Simulates e (a.setNextFree p v) { q with nextFree := Function.update q.nextFree f g } := by
  rw [hp, hv]
  exact ⟨h.mem.setNextFree f g, h.use ⟨f, rfl⟩⟩

theorem storePrevFree {f g : Fin N} (hp : p = headAt e f) (hv : v = headAt e g) :
    Simulates e (a.setPrevFree p v) { q with prevFree := Function.update q.prevFree f g } := by
  rw [hp, hv]
  exact ⟨h.mem.setPrevFree f g, h.use ⟨f, rfl⟩⟩

include he in
/-- The head of a hash chain is replaced if it is the buffer head. -/
theorem storeHash (hi : i < 307) (b : Fin N) : Simulates e
    (if a.mem.hash i = headAt e b then a.setHash i (a.mem.next (headAt e b)) else a)
      { q with
        hash := if q.hash i = some b then Function.update q.hash i (q.next b) else q.hash } := by
  rw [h.mem.hash i hi, h.mem.next b]
  by_cases hb : q.hash i = some b
  · rw [if_pos hb, if_pos ((ptr_eq_headAt he).mpr hb)]
    exact ⟨h.mem.setHash (q.next b) i, h.used⟩
  · rw [if_neg hb, if_neg fun heq => hb ((ptr_eq_headAt he).mp heq)]
    exact h

/-- The head of the free list is replaced if it is the buffer head. -/
theorem storeFreeList (b : Fin N) : Simulates e
    (if a.mem.freeList = headAt e b then a.setFreeList (a.mem.nextFree (headAt e b)) else a)
      { q with freeList := if q.freeList = b then q.nextFree b else q.freeList } := by
  rw [h.mem.freeList, h.mem.nextFree b]
  by_cases hb : q.freeList = b
  · rw [if_pos hb, if_pos (congrArg (fun b : Fin N => headAt e b) hb)]
    exact ⟨h.mem.setFreeList (q.nextFree b), h.used⟩
  · rw [if_neg hb, if_neg fun heq => hb (headAt_fin_inj heq)]
    exact h

include he in
theorem unhash (hi : i < 307) (b : Fin N) :
    Simulates e (a.unhash i (headAt e b)) (q.unhash i b) := by
  have h₁ := h.deref ⟨b, rfl⟩
  have h₂ := h₁.storePrev he (h₁.mem.next b) (h₁.mem.prev b)
  have h₃ := h₂.storeNext he (h₂.mem.prev b) (h₂.mem.next b)
  exact h₃.storeHash he hi b

include he in
theorem unlink (b : Fin N) : ∃ a', a.unlink (headAt e b) = .ok a' ∧
    Simulates e a' (q.unlink b) := by
  have h₁ := h.deref ⟨b, rfl⟩
  have hlinked : ¬((a.deref (headAt e b)).mem.prevFree (headAt e b) = 0 ∨
      (a.deref (headAt e b)).mem.nextFree (headAt e b) = 0) := by
    rw [h₁.mem.prevFree, h₁.mem.nextFree]
    exact fun hc => hc.elim (headAt_ne_zero he _) (headAt_ne_zero he _)
  have h₂ := h₁.storeNextFree (h₁.mem.prevFree b) (h₁.mem.nextFree b)
  have h₃ := h₂.storePrevFree (h₂.mem.nextFree b) (h₂.mem.prevFree b)
  exact ⟨_, if_neg hlinked, h₃.storeFreeList b⟩

include he in
theorem remove (l : Label) (b : Fin N) :
    ∃ a', a.remove l (headAt e b) = .ok a' ∧ Simulates e a' (q.remove l b) :=
  (h.unhash he (Nat.mod_lt _ (by decide)) b).unlink he b

theorem link (b : Fin N) : Simulates e (a.link (headAt e b)) (q.link b) := by
  have h₁ := h.storeNextFree (f := b) rfl h.mem.freeList
  have h₂ := (h₁.deref ⟨_, h₁.mem.freeList⟩).storePrevFree (f := b) rfl
    ((congrArg _ h₁.mem.freeList).trans (h₁.mem.prevFree _))
  have h₃ := (h₂.deref ⟨_, h₂.mem.freeList⟩).storeNextFree (g := b)
    ((congrArg _ h₂.mem.freeList).trans (h₂.mem.prevFree _)) rfl
  exact h₃.storePrevFree h₃.mem.freeList rfl

include he in
/-- The last store of `insert_into_queues` goes through the first pointer of the chain, which is
null if the chain is empty. -/
theorem rehash (l : Label) (b : Fin N) :
    Represents e (a.rehash l (headAt e b)).mem (q.rehash l b) ∧
      (¬(l.dev ≠ 0 ∧ a.mem.hash (hashfn l) = 0) → ∀ p ∈ (a.rehash l (headAt e b)).used,
        IsHead e N p) ∧
      (l.dev ≠ 0 ∧ a.mem.hash (hashfn l) = 0 → 0 ∈ (a.rehash l (headAt e b)).used) := by
  have h₁ : Simulates e ((a.setPrev (headAt e b) 0).setNext (headAt e b) 0)
      { q with prev := Function.update q.prev b none, next := Function.update q.next b none } := by
    have hprev : Simulates e (a.setPrev (headAt e b) 0)
        { q with prev := Function.update q.prev b none } :=
      ⟨h.mem.setPrev he (some b) none, h.use ⟨b, rfl⟩⟩
    exact ⟨hprev.mem.setNext he (some b) none, hprev.use ⟨b, rfl⟩⟩
  rw [Access.rehash, Queues.rehash]
  dsimp only
  split_ifs with hdev
  · exact ⟨h₁.mem, fun _ => h₁.used, fun hc => absurd hdev hc.1⟩
  · have hhash : a.mem.hash (hashfn l) = ptr e (q.hash (hashfn l)) :=
      h.mem.hash (hashfn l) (Nat.mod_lt _ (by decide))
    have h₂ : Simulates e (((a.setPrev (headAt e b) 0).setNext (headAt e b) 0).setNext (headAt e b)
        (a.mem.hash (hashfn l))) { q with
          prev := Function.update q.prev b none
          next := Function.update (Function.update q.next b none) b (q.hash (hashfn l)) } := by
      rw [hhash]
      exact ⟨h₁.mem.setNext he (some b) _, h₁.use ⟨b, rfl⟩⟩
    have h₃ : Simulates e _ _ := ⟨h₂.mem.setHash (some b) (hashfn l), h₂.used⟩
    have hself : Function.update (Function.update q.next b none) b (q.hash (hashfn l)) b =
        q.hash (hashfn l) := Function.update_self ..
    have hnext := h₃.mem.next b
    have h₄ := h₃.mem.setPrev he (Function.update (Function.update q.next b none) b
      (q.hash (hashfn l)) b) (some b)
    rw [← hnext] at h₄
    -- the pointer that the last store goes through is the old first pointer of the chain
    have hlast := hnext.trans ((congrArg (ptr e) hself).trans hhash.symm)
    refine ⟨h₄, fun hc => h₃.use ?_, fun hc => List.mem_append_right _ ?_⟩
    · cases hx : q.hash (hashfn l) with
      | none =>
        rw [hx] at hhash
        exact absurd ⟨hdev, hhash⟩ hc
      | some c => exact ⟨c, hlast.trans (hhash.trans (congrArg (ptr e) hx))⟩
    · exact List.mem_singleton.mpr (hlast.trans hc.2).symm

include he in
theorem insert (l : Label) (b : Fin N) :
    Represents e (a.insert l (headAt e b)).mem (q.insert l b) ∧
      (¬(l.dev ≠ 0 ∧ a.mem.hash (hashfn l) = 0) → ∀ p ∈ (a.insert l (headAt e b)).used,
        IsHead e N p) ∧
      (l.dev ≠ 0 ∧ a.mem.hash (hashfn l) = 0 → 0 ∈ (a.insert l (headAt e b)).used) :=
  (h.link b).rehash he l b

end Simulates

end Simulates

/-! ### Steps of processes -/

/-- What a step does to the queues. -/
inductive Surgery (N : ℕ)
  | none
  | remove (l : Label) (b : Fin N)
  | insert (l : Label) (b : Fin N)

namespace Surgery

variable {N : ℕ}

def queues (q : Queues N) : Surgery N → Queues N
  | none => q
  | remove l b => q.remove l b
  | insert l b => q.insert l b

/-- The same on memory, where the buffer heads are behind the kernel. -/
def run (e : ℕ) (m : Memory) : Surgery N → Except String Access
  | none => .ok ⟨m, []⟩
  | remove l b => Access.remove ⟨m, []⟩ l (headAt e b)
  | insert l b => .ok (Access.insert ⟨m, []⟩ l (headAt e b))

/-- A buffer head is put into a hash chain that is empty. -/
def IntoEmpty (m : Memory) : Surgery N → Prop
  | none => False
  | remove _ _ => False
  | insert l _ => l.dev ≠ 0 ∧ m.hash (hashfn l) = 0

end Surgery

namespace State

variable {D : Type*} {N n : ℕ}

/-- What `getblk` does to the queues in a step: it takes a free buffer head out, and puts it back
under its new label, or under none if there is a buffer for that label. -/
def surgery (s : State D N n) : Event D N n → Surgery N
  | .run p =>
    match (s.proc p).pc with
    | .freeWait t _ _ => if (s.buf t).count = 0 then .remove (s.buf t).label t else .none
    | .relabel r =>
      if (s.setBuf r.tmp ((s.buf r.tmp).renew r.label)).find r.label = none then
        .insert r.label r.tmp
      else .insert ⟨0, 0⟩ r.tmp
    | _ => .none
  | _ => .none

/-- A step of the buffer cache with its memory. There is none if `remove_from_queues` panics. -/
def nextMem (e : ℕ) (x : State D N n × Memory) (ev : Event D N n) : Option (State D N n × Memory) :=
  (x.1.next ev).bind fun s' =>
    match (x.1.surgery ev).run e x.2 with
    | .ok a => some (s', a.mem)
    | .error _ => none

variable {s s' : State D N n} {p : Fin n} {b : Fin N} {l : Label} {read : Bool}

theorem queues_got : (s.got p b l read).queues = s.queues := by
  rw [got]
  split_ifs <;> rfl

theorem queues_advance : (s.advance p b l read).queues = s.queues := by
  rw [advance]
  split_ifs <;> rfl

theorem queues_lookUp {u : Use} : (s.lookUp p l u).queues = s.queues := by
  unfold lookUp
  cases s.find l with
  | some b => rfl
  | none => cases u <;> rfl

theorem queues_hashCheck {u : Use} : (s.hashCheck p b l u).queues = s.queues := by
  unfold hashCheck
  by_cases hl : (s.buf b).label ≠ l
  · rw [if_pos hl]
    rfl
  · rw [if_neg hl]
    cases u with
    | hash => rfl
    | get read => exact queues_got
    | free =>
      dsimp only
      split_ifs <;> rfl

theorem queues_syncNext {r : Option (Recycle N)} {i : ℕ} :
    (s.syncNext p r i).queues = s.queues := by
  unfold syncNext
  split_ifs <;> cases r <;> dsimp only <;> try split_ifs
  all_goals rfl

theorem queues_brelse {r : Option (Label × Use)} : (s.brelse p b r).queues = s.queues := by
  rw [brelse]
  split_ifs <;> rfl

theorem queues_relabel {r : Recycle N} (hpc : (s.proc p).pc = .relabel r) :
    (s.relabel p r).queues = (s.surgery (.run p)).queues s.queues := by
  rw [relabel, surgery, hpc]
  dsimp only
  cases hf : (s.setBuf r.tmp ((s.buf r.tmp).renew r.label)).find r.label with
  | some b => rfl
  | none =>
    rw [if_pos rfl]
    exact queues_got

theorem queues_run : (s.run p).queues = (s.surgery (.run p)).queues s.queues := by
  rw [run]
  cases hpc : (s.proc p).pc with
  | relabel r => exact queues_relabel hpc
  | freeWait t l read =>
    rw [surgery, hpc]
    dsimp only
    split_ifs
    · rfl
    · exact queues_advance
  | _ =>
    rw [surgery, hpc]
    first
      | rfl
      | exact queues_lookUp
      | exact queues_hashCheck
      | exact queues_syncNext
      | exact queues_brelse
      | dsimp only; split_ifs <;> first | rfl | exact queues_advance

theorem queues_act {ev : Event D N n} (h : s.act ev = some s') :
    s'.queues = (s.surgery ev).queues s.queues := by
  cases ev with
  | run p =>
    obtain ⟨-, h⟩ := Option.ite_none_left_eq_some.mp h
    exact Option.some.inj h ▸ queues_run
  | call p l u | sync p =>
    obtain ⟨-, h⟩ := Option.ite_none_right_eq_some.mp h
    exact Option.some.inj h ▸ rfl
  | brelse p j | change p q j d | fill p j d =>
    obtain ⟨-, h⟩ := Option.ite_none_right_eq_some.mp h
    obtain ⟨x, -, rfl⟩ := Option.map_eq_some_iff.mp h
    rfl
  | disk b =>
    obtain ⟨t, -, h⟩ := Option.bind_eq_some_iff.mp h
    obtain ⟨-, h⟩ := Option.ite_none_left_eq_some.mp h
    split_ifs at h <;> exact Option.some.inj h ▸ rfl
  | intr b =>
    obtain ⟨t, -, h⟩ := Option.bind_eq_some_iff.mp h
    obtain ⟨-, h⟩ := Option.ite_none_right_eq_some.mp h
    exact Option.some.inj h ▸ rfl

/-- Only `getblk` changes the queues. -/
theorem next_queues {ev : Event D N n} (h : s.next ev = some s') :
    s'.queues = (s.surgery ev).queues s.queues := by
  obtain ⟨-, h⟩ := Option.ite_none_right_eq_some.mp h
  cases hp : ev.proc with
  | none =>
    rw [hp] at h
    exact queues_act h
  | some p =>
    rw [hp] at h
    obtain ⟨-, h⟩ := Option.ite_none_right_eq_some.mp h
    obtain ⟨s₁, hs₁, rfl⟩ := Option.map_eq_some_iff.mp h
    have hq := queues_act hs₁
    exact hq

end State

section Init

variable {e B fuel : ℕ} {N : ℕ} [NeZero N] {m m₀ m₁ : Memory}

private theorem val_succ (b : Fin N) : (b + 1).val = if b.val + 1 = N then 0 else b.val + 1 := by
  have hlt := b.isLt
  rw [Fin.val_add, Fin.val_one', Nat.add_mod_mod]
  split_ifs with hb
  · rw [hb, Nat.mod_self]
  · exact Nat.mod_eq_of_lt (by omega)

/-- The pointers of `buffer_init`. -/
theorem Prepared.represents (hm : Prepared e B N m)
    (hsub : ∀ i < N, ptrSub (headAt e (i + 1)) headSize = headAt e i) :
    Represents e (m.close e (headAt e (N - 1))) (Queues.init : Queues N) := by
  have hpos := Nat.pos_of_neZero N
  refine ⟨fun b => hm.next b b.isLt, fun b => hm.prev b b.isLt, fun b => ?_, fun b => ?_,
    fun i hi => if_pos hi, rfl⟩
  · change Function.update m.nextFree (headAt e (N - 1)) e (headAt e b) = headAt e (b + 1 : Fin N)
    rw [val_succ, Function.update_apply]
    split_ifs with hlast hb hb
    · rfl
    · exact absurd (headAt_inj hlast) (by omega)
    · exact absurd (congrArg (headAt e) (show b.val = N - 1 by omega)) hlast
    · exact hm.nextFree b b.isLt
  · change Function.update m.prevFree e (headAt e (N - 1)) (headAt e b) = headAt e (b - 1 : Fin N)
    have hback {c : Fin N} (hc : (c + 1).val = b.val) : b - 1 = c :=
      sub_eq_of_eq_add (Fin.ext hc.symm)
    rw [Function.update_apply]
    split_ifs with hfirst
    · have hzero : b.val = 0 := headAt_inj hfirst
      rw [hback (c := ⟨N - 1, Nat.sub_lt hpos Nat.one_pos⟩)]
      rw [val_succ, if_pos (Nat.sub_add_cancel hpos), hzero]
    · have hne : b.val ≠ 0 := fun hzero => hfirst (congrArg (headAt e) hzero)
      have hlt := b.isLt
      have hsucc : b.val - 1 + 1 = b.val := Nat.sub_add_cancel (Nat.pos_of_ne_zero hne)
      rw [hback (c := ⟨b.val - 1, by omega⟩)]
      · rw [hm.prevFree b hlt, ← hsub (b.val - 1) (by omega), hsucc]
      · rw [val_succ, if_neg (show b.val - 1 + 1 ≠ N by omega), hsucc]

/-- The memory that `buffer_init` leaves has the pointers of the first queues. -/
theorem represents_of_bufferInit (h : Bounds e B) (hinit : bufferInit e B fuel m₁ = some m₀)
    (hN : m₀.nrBuffers = N) : Represents e m₀ (Queues.init : Queues N) := by
  obtain ⟨m, hm, hrun⟩ := bufferInit_eq h m₁
  have heq := (hrun (fuel + room e B + 1) (by omega)).symm.trans (bufferInit_mono hinit (by omega))
  obtain rfl := Option.some.inj heq
  obtain rfl : room e B = N := hm.nrBuffers.symm.trans hN
  exact hm.represents fun i hi => ptrSub_headAt h hi

end Init

section Runs

variable {D : Type*} {N n : ℕ} {e : ℕ} {m : Memory} {q : Queues N}

/-- What a step does to the queues it does to the memory. It uses pointers to buffer heads, or the
null pointer if it puts one into an empty chain. -/
theorem Represents.surgery (h : Represents e m q) (he : 0 < e) (c : Surgery N) :
    ∃ a, c.run e m = .ok a ∧ Represents e a.mem (c.queues q) ∧
      (¬c.IntoEmpty m → ∀ p ∈ a.used, IsHead e N p) ∧ (c.IntoEmpty m → 0 ∈ a.used) := by
  have hstart : Simulates e ⟨m, []⟩ q := ⟨h, fun p hp => absurd hp List.not_mem_nil⟩
  cases c with
  | none => exact ⟨_, rfl, h, fun _ => hstart.used, fun hc => absurd hc id⟩
  | remove l b =>
    obtain ⟨a, ha, hsim⟩ := hstart.remove he l b
    exact ⟨a, ha, hsim.mem, fun _ => hsim.used, fun hc => absurd hc id⟩
  | insert l b => exact ⟨_, rfl, hstart.insert he l b⟩

variable {x x' : State D N n × Memory} {ev : Event D N n} {s' : State D N n}

/-- Every step of the buffer cache is one with its memory. -/
theorem State.exists_nextMem (h : Represents e x.2 x.1.queues) (he : 0 < e)
    (hnext : x.1.next ev = some s') :
    ∃ m', State.nextMem e x ev = some (s', m') ∧ Represents e m' s'.queues := by
  obtain ⟨a, ha, hmem, -⟩ := h.surgery he (x.1.surgery ev)
  refine ⟨a.mem, ?_, next_queues hnext ▸ hmem⟩
  rw [nextMem, hnext, Option.bind_some, ha]

/-- The memory has the pointers of the queues after every step. -/
theorem Represents.nextMem (h : Represents e x.2 x.1.queues) (he : 0 < e)
    (hnext : State.nextMem e x ev = some x') : Represents e x'.2 x'.1.queues := by
  obtain ⟨s', hs', -⟩ := Option.bind_eq_some_iff.mp hnext
  obtain ⟨m', hm', hrep⟩ := State.exists_nextMem h he hs'
  obtain rfl := Option.some.inj (hm'.symm.trans hnext)
  exact hrep

/-- Every run of the buffer cache is one with its memory. -/
theorem State.exists_runs_nextMem {s₀ s : State D N n} {m₀ : Memory} {es : List (Event D N n)}
    (h₀ : Represents e m₀ s₀.queues) (he : 0 < e)
    (h : Runs (fun s ev s' => State.next s ev = some s') s₀ es s) :
    ∃ m, Runs (fun x ev x' => State.nextMem e x ev = some x') (s₀, m₀) es (s, m) ∧
      Represents e m s.queues := by
  induction h with
  | nil => exact ⟨m₀, .nil, h₀⟩
  | cons _ hs ih =>
    obtain ⟨m, hruns, hrep⟩ := ih
    obtain ⟨m', hm', hrep'⟩ := State.exists_nextMem (x := (_, m)) hrep he hs
    exact ⟨m', hruns.cons hm', hrep'⟩

end Runs

/-! ### The first miss -/

/-- A kernel that leaves room for 31 buffers. -/
theorem bounds_small : Bounds 0x98000 0xA0000 := ⟨by decide, .inl rfl⟩

theorem exists_bufferInit_small :
    ∃ fuel m₀, bufferInit 0x98000 0xA0000 fuel .zero = some m₀ ∧ m₀.nrBuffers = 31 := by
  obtain ⟨m, hm, hrun⟩ := bufferInit_eq bounds_small .zero
  exact ⟨_, _, hrun _ (Nat.lt_succ_self _), hm.nrBuffers⟩

/-- The first `getblk`, up to where it takes a buffer head out of the queues. -/
def firstMiss : List (Event Unit 31 1) := [.call 0 ⟨0x306, 1⟩ (.get true), .run 0, .run 0]

/-- It takes the first buffer head, and puts it back into an empty chain. -/
theorem exec_firstMiss : ∃ s₁ s₂ s₃ : State Unit 31 1,
    exec State.next (.init (fun _ => ()) fun _ => ()) firstMiss = some s₁ ∧
      s₁.surgery (.run 0) = .remove ⟨0, 0⟩ 0 ∧ s₁.next (.run 0) = some s₂ ∧
      s₂.surgery (.run 0) = .insert ⟨0x306, 1⟩ 0 ∧ s₂.queues.hash (hashfn ⟨0x306, 1⟩) = none ∧
      s₂.next (.run 0) = some s₃ :=
  ⟨_, _, _, by rfl, by rfl, by rfl, by rfl, by rfl, by rfl⟩

/-! ### Main theorem -/

section Main

variable {D : Type*} {N n : ℕ} [NeZero N] {kernelEnd bufferEnd fuel : ℕ} {m₁ m₀ m : Memory}
  {disk : Label → D} {data : Fin N → D} {es : List (Event D N n)} {s s' : State D N n}
  {ev : Event D N n}

/-- **The queues are changed through pointers to buffer heads unless a chain is empty.** Whatever
`remove_from_queues` and `insert_into_queues` dereference in a step is a buffer head, but for the
last store when a buffer head with a device is put into an empty hash chain. They do not panic. -/
theorem heads_iff (hbounds : Bounds kernelEnd bufferEnd) (hpos : 0 < kernelEnd)
    (hinit : bufferInit kernelEnd bufferEnd fuel m₁ = some m₀) (hN : m₀.nrBuffers = N)
    (h : Runs (fun x ev x' => State.nextMem kernelEnd x ev = some x')
      (.init disk data, m₀) es (s, m))
    (hnext : s.next ev = some s') : ∃ a, (s.surgery ev).run kernelEnd m = .ok a ∧
      State.nextMem kernelEnd (s, m) ev = some (s', a.mem) ∧
      ((∀ p ∈ a.used, IsHead kernelEnd N p) ↔ ¬(s.surgery ev).IntoEmpty m) := by
  have hrep : Represents kernelEnd m s.queues :=
    h.invariant (I := fun x => Represents kernelEnd x.2 x.1.queues)
      (fun x ev x' hx hs => hx.nextMem hpos hs) (represents_of_bufferInit hbounds hinit hN)
  obtain ⟨a, ha, -, hheads, hnull⟩ := hrep.surgery hpos (s.surgery ev)
  refine ⟨a, ha, ?_, fun hused hc => ?_, hheads⟩
  · rw [State.nextMem, hnext, Option.bind_some, ha]
  · obtain ⟨b, hb⟩ := hused 0 (hnull hc)
    exact headAt_ne_zero hpos b hb.symm

end Main

/-- The first buffer head is taken out of the queues through pointers to buffer heads. -/
theorem heads_iff_firstMiss : ∃ (m : Memory) (s s' : State Unit 31 1) (a : Access),
    (s.surgery (.run 0)).run 0x98000 m = .ok a ∧
      State.nextMem 0x98000 (s, m) (.run 0) = some (s', a.mem) ∧
      ∀ p ∈ a.used, IsHead 0x98000 31 p := by
  obtain ⟨fuel, m₀, hinit, hN⟩ := exists_bufferInit_small
  obtain ⟨s₁, s₂, s₃, hexec, hremove, hnext, -⟩ := exec_firstMiss
  obtain ⟨m, hruns, -⟩ := State.exists_runs_nextMem
    (represents_of_bufferInit bounds_small hinit hN) (by decide) (runs_of_exec hexec)
  obtain ⟨a, ha, hmem, hused⟩ := heads_iff bounds_small (by decide) hinit hN hruns hnext
  refine ⟨m, s₁, s₂, a, ha, hmem, hused.mpr ?_⟩
  rw [hremove]
  exact id

/-- The first buffer head is put back with a store through the null pointer. -/
theorem not_heads_firstMiss : ∃ (fuel : ℕ) (m₀ m : Memory) (es : List (Event Unit 31 1))
    (s s' : State Unit 31 1) (a : Access),
    bufferInit 0x98000 0xA0000 fuel .zero = some m₀ ∧ m₀.nrBuffers = 31 ∧
      Runs (fun x ev x' => State.nextMem 0x98000 x ev = some x')
        (.init (fun _ => ()) fun _ => (), m₀) es (s, m) ∧
      s.next (.run 0) = some s' ∧ (s.surgery (.run 0)).run 0x98000 m = .ok a ∧ 0 ∈ a.used ∧
      ¬IsHead 0x98000 31 0 := by
  obtain ⟨fuel, m₀, hinit, hN⟩ := exists_bufferInit_small
  obtain ⟨s₁, s₂, s₃, hexec, -, hnext, hinsert, hempty, hnext'⟩ := exec_firstMiss
  have hpos : 0 < 0x98000 := by decide
  obtain ⟨m, hruns, hrep⟩ := State.exists_runs_nextMem
    (represents_of_bufferInit bounds_small hinit hN) hpos ((runs_of_exec hexec).cons hnext)
  obtain ⟨a, ha, -, -, hnull⟩ := hrep.surgery hpos (s₂.surgery (.run 0))
  refine ⟨fuel, m₀, m, _, s₂, s₃, a, hinit, hN, hruns, hnext', ha, hnull ?_, ?_⟩
  · rw [hinsert]
    exact ⟨by decide, (hrep.hash _ (Nat.mod_lt _ (by decide))).trans
      (congrArg (ptr 0x98000) hempty)⟩
  · rintro ⟨b, hb⟩
    exact headAt_ne_zero hpos b hb.symm

end Linux001.BufferCache
