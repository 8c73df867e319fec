import Linux001.Mm.VerifyArea

/-!
# Stores of the kernel to the memory of a process

The processor looks at the write protection of a page only when a user program stores to it. When
the kernel stores to a page that is write-protected because it is shared, all that share it see the
store. Nothing but a `fork` protects pages, and it protects those of the process that forks, so what
`verify_area` has made writable stays so until the process forks itself.

## Main definitions

* `Memory.kernelWrites`: the kernel stores bytes to the memory of a process.

## Main results

* `Inv.step`: what happens to other processes does not protect pages.
* `Inv.verifyPages`: `verify_area` protects nothing, and opens the pages that it looks at.
* `Inv.kernelWrites`: stores to pages that are not protected.
-/

namespace Linux001.Mm

namespace Memory

/-- An access of the kernel to `address` up to the end of the fault it meets, if any. The write
protection is not looked at. -/
def kernelTouch (s : Memory) (address : Word) : Except Halt Memory :=
  if s.mapped (dirOf address) (indexOf address) then .ok s else s.doNoPage address

/-- A store of the byte `b` to `address` by the kernel. -/
def kernelWrite (s : Memory) (address : Word) (b : BitVec 8) : Except Halt Memory := do
  let s' ← s.kernelTouch address
  return s'.store (s'.wordOf address)
    (setByte (s'.word (s'.wordOf address)) (address.toNat % 4) b)

/-- The kernel stores bytes from the offset `off` of the segment `n` on. -/
def kernelWrites (n : ℕ) : ℕ → List (BitVec 8) → Memory → Except Halt Memory
  | _, [], s => .ok s
  | off, b :: bs, s => do kernelWrites n (off + 1) bs (← s.kernelWrite (linear n off) b)

variable {s : Memory} {a : Word}

theorem readOnly_iff : s.readOnly a = true ↔ s.Protected (dirOf a, indexOf a) := by
  rw [readOnly, Bool.and_eq_true, Bool.not_eq_true']
  exact Iff.rfl

/-- The kernel stores to a page that is not protected as a user program does. -/
theorem kernelWrite_eq (hf : Flagged s) (hd : dirOf a ∈ userDirs) (hro : s.readOnly a = false)
    (b : BitVec 8) : s.kernelWrite a b = s.userWrite a b := by
  have htouch : s.touch true a = s.kernelTouch a := by
    rw [touch, kernelTouch]
    split_ifs with hm hprot
    · rw [readOnly, hm, Bool.true_and, Bool.not_eq_false'] at hro
      have hx : (dirOf a, indexOf a) ∈ userEntries := mem_userEntries.mpr ⟨hd, indexOf_lt a⟩
      rw [protection, hf.user _ hx hm, hro, hf.dir _ hd ((mapped_iff s).mp hm).1,
        userBit_entryFor, writable_entryFor] at hprot
      exact absurd hprot (by decide)
    · rfl
    · rfl
  rw [kernelWrite, userWrite, htouch]

end Memory

/-- The event is a `fork` from the slot or to it, which may protect pages of the slot. -/
def Event.Protects (e : Event) (n : ℕ) : Prop :=
  ∃ parent child, e = .fork parent child ∧ (n = parent ∨ n = child)

namespace Tasks

variable {other : ℕ → Word} {s s' : Tasks} {n off : ℕ} {m : Memory}

theorem Inv.kernelMap (h : Inv other s) : KernelMap s.mem := fun a ha hor => by
  rw [← KernelMap.boot other a ha hor]
  rcases hor with hlo | hhi
  · exact h.kernel a hlo
  · exact h.low a hhi (by omega)

/-- What is write-protected is an entry of a segment. -/
theorem Inv.mem_of_readOnly (h : Inv other s) {a : Word} (ha : s.mem.readOnly a = true) :
    (dirOf a, indexOf a) ∈ userEntries := by
  have hd := h.kernelMap.sixteen_le_of_readOnly ha
  have halt := a.isLt
  refine mem_userEntries.mpr ⟨mem_userDirs.mpr ⟨hd, ?_⟩, indexOf_lt a⟩
  rw [dirOf_eq]
  omega

theorem slot_slotEntry (hoff : off < 0x4000000) : (slotEntry n off).1 / 16 = n := by
  rw [slotEntry]
  dsimp only
  omega

/-- **What happens to other processes does not protect pages.** Nor does what happens to a process
itself, unless it forks. -/
theorem Inv.step (h : Inv other s) {e : Event} (hs : Step s e s') :
    Inv other s' ∧ ∀ y ∈ userEntries, ¬ e.Protects (y.1 / 16) → s'.mem.Protected y →
      s.mem.Protected y := by
  cases e with
  | fork parent child =>
    obtain ⟨hparent, hpos, hchild, hne, hempty, hok, hlimit⟩ := hs
    obtain ⟨m, lim⟩ := s'
    dsimp only at hok hlimit
    subst hlimit
    obtain ⟨hinv, -, -, hkept⟩ := h.fork hparent hpos hchild hne hempty hok
    exact ⟨hinv, fun y hy hp => (hkept y hy (fun hc => hp ⟨_, _, rfl, .inr hc⟩)
      fun hc => hp ⟨_, _, rfl, .inl hc⟩).isProtected⟩
  | write n off b =>
    obtain ⟨hpos, hn, hoff, hok, hlimit⟩ := hs
    obtain ⟨m, lim⟩ := s'
    dsimp only at hok hlimit
    subst hlimit
    have hlim := h.limit_le n
    obtain ⟨m₁, hinv, -, hmap, hwr, hprotected, rfl⟩ := h.write hpos hn hoff hok
    obtain ⟨hinv', -, -, hkept⟩ := hinv.store (slotEntry_mem hn (by omega : off < 0x4000000) hpos)
      hmap hwr (k := off % 4096 / 4) (by omega) _
    exact ⟨hinv', fun y hy _ hp => hprotected y hy ((hkept y hy).isProtected hp)⟩
  | access n off =>
    obtain ⟨hpos, hn, hoff, hok, hlimit⟩ := hs
    obtain ⟨m, lim⟩ := s'
    dsimp only at hok hlimit
    subst hlimit
    obtain ⟨hinv, -, -, -, hprotected⟩ := h.touch hpos hn hoff hok
    exact ⟨hinv, fun y hy _ => hprotected y hy⟩
  | release n limit =>
    obtain ⟨hpos, hn, hlimit, hok, hupd⟩ := hs
    obtain ⟨m, lim⟩ := s'
    dsimp only at hok hupd
    subst hupd
    obtain ⟨hinv, hgone, -, hkept⟩ := h.release hpos hn hlimit hok
    refine ⟨hinv, fun y hy _ hp => ?_⟩
    by_cases hyn : y.1 / 16 = n
    · -- The pages of the slot are gone.
      have hyi := (mem_userEntries.mp hy).2
      have hentry : slotEntry n (y.1 % 16 * 0x400000 + y.2 * 4096) = y := by
        rw [slotEntry]
        exact Prod.ext (by dsimp only; omega) (by dsimp only; omega)
      have hno := hgone (y.1 % 16 * 0x400000 + y.2 * 4096) (by omega)
      rw [hentry] at hno
      exact absurd (hno.symm.trans hp.1) Bool.false_ne_true
    · exact (hkept y hy hyn).isProtected hp

/-- A turn of the loop of `verify_area` opens a page and protects none. -/
theorem Inv.writeVerify (h : Inv other s) {a : Word} (hok : s.mem.writeVerify a = .ok m) :
    Inv other ⟨m, s.limit⟩ ∧ (∀ b, m.readOnly b = true → s.mem.readOnly b = true) ∧
      m.readOnly a = false := by
  have hentry : s.mem.word (s.mem.entryOf a) = s.mem.pte (dirOf a) (indexOf a) := by
    rw [Memory.entryOf_eq, Memory.pte]
  by_cases hro : s.mem.readOnly a = true
  · have hx := h.mem_of_readOnly hro
    obtain ⟨hm, hw⟩ := Memory.readOnly_iff.mp hro
    obtain ⟨hdir, hpres⟩ := (Memory.mapped_iff s.mem).mp hm
    rw [Memory.writeVerify, if_pos hdir, hentry, if_pos ((three_and_eq_one _).mpr ⟨hpres, hw⟩),
      Memory.entryOf_eq] at hok
    obtain ⟨hex, ht, hwr⟩ := h.exact.unWpPage_touched (x := (dirOf a, indexOf a)) h.flagged hx hdir
      hpres hok
    have hxd := mem_userDirs.mp (mem_userEntries.mp hx).1
    have hinv := h.of_touched hex ht hx fun k j hj hkj =>
      h.within k (by omega) (by omega) j hj (hkj ▸ hdir)
    refine ⟨hinv, fun b hb => ?_, ?_⟩
    · exact Memory.readOnly_iff.mpr
        (ht.isProtected hwr _ (hinv.mem_of_readOnly hb) (Memory.readOnly_iff.mp hb))
    · rw [Memory.readOnly, hwr, Bool.not_true, Bool.and_false]
  · have hm : m = s.mem := by
      rw [Memory.writeVerify, hentry] at hok
      split_ifs at hok with hdir hprot
      · obtain ⟨hpres, hw⟩ := (three_and_eq_one _).mp hprot
        exact absurd (Memory.readOnly_iff.mpr ⟨(Memory.mapped_iff _).mpr ⟨hdir, hpres⟩, hw⟩) hro
      · exact (Except.ok.inj hok).symm
      · exact (Except.ok.inj hok).symm
    subst hm
    exact ⟨h, fun _ hb => hb, Bool.eq_false_of_not_eq_true hro⟩

/-- The loop of `verify_area` opens the pages that it looks at and protects none. -/
theorem Inv.verifyPages {lim : ℕ → ℕ} : ∀ {count : ℕ} {start : Word} {m₀ : Memory},
    Inv other ⟨m₀, lim⟩ → System.verifyPages count start m₀ = .ok m →
    Inv other ⟨m, lim⟩ ∧ (∀ b, m.readOnly b = true → m₀.readOnly b = true) ∧
      ∀ k < count, m.readOnly (start + BitVec.ofNat 32 (4096 * k)) = false
  | 0, _, _, h, hok => by
    obtain rfl := Except.ok.inj hok
    exact ⟨h, fun _ hb => hb, fun _ hk => absurd hk (Nat.not_lt_zero _)⟩
  | count + 1, start, m₀, h, hok => by
    rw [System.verifyPages] at hok
    cases hturn : m₀.writeVerify start with
    | error e => simp [hturn] at hok
    | ok m₁ =>
      simp only [hturn] at hok
      obtain ⟨h₁, hprotected₁, hopen₁⟩ := h.writeVerify hturn
      obtain ⟨h', hprotected, hopen⟩ := Inv.verifyPages h₁ hok
      refine ⟨h', fun b hb => hprotected₁ b (hprotected b hb), fun k hk => ?_⟩
      cases k with
      | zero =>
        refine Bool.eq_false_of_not_eq_true fun hb => Bool.false_ne_true (hopen₁.symm.trans ?_)
        have hzero : start + BitVec.ofNat 32 (4096 * 0) = start := BitVec.add_zero start
        exact hprotected _ (hzero ▸ hb)
      | succ k =>
        have hnext : start + 4096 + BitVec.ofNat 32 (4096 * k) =
            start + BitVec.ofNat 32 (4096 * (k + 1)) := by
          rw [Nat.mul_succ, Nat.add_comm, BitVec.ofNat_add, BitVec.add_assoc]
          rfl
        exact hnext ▸ hopen k (by omega)

/-- Stores of the kernel to pages that are not protected keep the invariant, and protect none. -/
theorem Inv.kernelWrites (hpos : 1 ≤ n) (hn : n < 64) : ∀ {bs : List (BitVec 8)} {off : ℕ}
    {s : Tasks}, Inv other s → off + bs.length ≤ s.limit n →
    (∀ k < bs.length, s.mem.readOnly (linear n (off + k)) = false) →
    Memory.kernelWrites n off bs s.mem = .ok m →
    Inv other ⟨m, s.limit⟩ ∧ ∀ b, m.readOnly b = true → s.mem.readOnly b = true
  | [], _, _, h, _, _, hok => by
    obtain rfl := Except.ok.inj hok
    exact ⟨h, fun _ hb => hb⟩
  | b :: bs, off, s, h, hlim, hopen, hok => by
    rw [List.length_cons] at hlim hopen
    have hle := h.limit_le n
    have hopen₀ := hopen 0 (by omega)
    rw [Nat.add_zero] at hopen₀
    rw [Memory.kernelWrites, Memory.kernelWrite_eq h.flagged
      (dirOf_linear_mem hn (by omega : off < 0x4000000) hpos) hopen₀] at hok
    cases hwrite : s.mem.userWrite (linear n off) b with
    | error e => simp [hwrite, bind, Except.bind] at hok
    | ok m₁ =>
      simp only [hwrite, bind, Except.bind] at hok
      have hstep : Step s (.write n off b) ⟨m₁, s.limit⟩ := ⟨hpos, hn, by omega, hwrite, rfl⟩
      obtain ⟨h₁, hprotected₁⟩ := h.step hstep
      have hback (b : Word) (hb : m₁.readOnly b = true) : s.mem.readOnly b = true :=
        Memory.readOnly_iff.mpr (hprotected₁ _ (h₁.mem_of_readOnly hb)
          (fun ⟨_, _, hfork, _⟩ => nomatch hfork) (Memory.readOnly_iff.mp hb))
      have hlim₁ : off + 1 + bs.length ≤ s.limit n := by omega
      have hopen₁ : ∀ k < bs.length, m₁.readOnly (linear n (off + 1 + k)) = false := fun k hk => by
        have hk' := hopen (k + 1) (by omega)
        rw [Nat.add_comm k 1, ← Nat.add_assoc] at hk'
        exact Bool.eq_false_of_not_eq_true fun hb =>
          Bool.false_ne_true (hk'.symm.trans (hback _ hb))
      obtain ⟨h', hprotected⟩ := Inv.kernelWrites hpos hn h₁ hlim₁ hopen₁ hok
      exact ⟨h', fun b hb => hback b (hprotected b hb)⟩

end Tasks

end Linux001.Mm
