import Linux001.Mm.Confinement
import Linux001.Mm.FreeFrames

/-!
# What is left when memory runs out

`copy_page_tables` may run out of memory after some of the tables of the parent have been copied.
`copy_mem` then frees the directory entries of the new slot, and `copy_process` the page of the task
structure; what remains of the attempt is that the pages it has shared are write-protected in the
parent. A page fault needs a page and, where the table is missing, a second one for the table.
When there is only one, `do_no_page` leaves it allocated.

## Main definitions

* `Faded D s s'`: outside the directory entries of `D` all addresses are mapped as before, except
  for write bits of counted pages.
* `ForkState`, `ForkState.copyProcess`: `copy_process` with the counters of files and inodes.
* `Unharmed`: what a failed fork leaves as it was.
* `NoLeak`: what a fault has allocated is free in the end.

## Main results

* `ForkState.copyProcess_sys`: without the counters this is `System.copyProcess`.
* `ForkState.failed_fork`: a failed fork leaks nothing.
* `System.noLeak_iff`: a fault that finds one frame but needs two leaks it, and no other does.
-/

namespace Linux001.Mm

/-! ### Mappings up to write bits -/

/-- Outside the directory entries of `D` all addresses are mapped as before, except that pages which
`mem_map` counts may have lost their write bits. -/
structure Faded (D : Set ℕ) (s s' : Memory) : Prop where
  dir : ∀ d < 1024, d ∉ D → s'.word d = s.word d
  entry : ∀ d < 1024, d ∉ D → present (s.word d) = true → ∀ i < 1024,
    s'.pte d i = s.pte d i ∨ present (s.pte d i) = true ∧ 512 ≤ frameOf (s.pte d i) ∧
      s'.pte d i = s.pte d i &&& ~~~2

namespace Faded

variable {D D' : Set ℕ} {s s' s'' : Memory}

theorem refl (D : Set ℕ) (s : Memory) : Faded D s s :=
  ⟨fun _ _ _ => rfl, fun _ _ _ _ _ _ => .inl rfl⟩

theorem mono (h : Faded D s s') (hD : D ⊆ D') : Faded D' s s' :=
  ⟨fun d hd hn => h.dir d hd fun hm => hn (hD hm), fun d hd hn => h.entry d hd fun hm => hn (hD hm)⟩

theorem trans (h : Faded D s s') (h' : Faded D s' s'') : Faded D s s'' where
  dir d hd hn := (h'.dir d hd hn).trans (h.dir d hd hn)
  entry d hd hn hp i hi := by
    have hp' : present (s'.word d) = true := by
      rw [h.dir d hd hn]
      exact hp
    rcases h.entry d hd hn hp i hi with heq | ⟨hpres, hlo, heq⟩
    · have h₂ := h'.entry d hd hn hp' i hi
      rwa [heq] at h₂
    · refine .inr ⟨hpres, hlo, ?_⟩
      rcases h'.entry d hd hn hp' i hi with heq' | ⟨-, -, heq'⟩
      · rw [heq', heq]
      · rw [heq', heq, BitVec.and_assoc, BitVec.and_self]

theorem of_eq (hword : s'.word = s.word) : Faded D s s' :=
  ⟨fun d _ _ => by rw [hword], fun d _ _ _ i _ => .inl (by rw [Memory.pte, Memory.pte, hword])⟩

/-- The words of memory other than those of `D` and of the frames of `F` are the same, where no
table outside `D` lies in a frame of `F`. -/
theorem of_word {F : Set ℕ} (hF : ∀ f ∈ F, 1 ≤ f)
    (htab : ∀ d < 1024, d ∉ D → present (s.word d) = true → frameOf (s.word d) ∉ F ∧
      1 ≤ frameOf (s.word d))
    (hword : ∀ a, a ∉ D → a / 1024 ∉ F → s'.word a = s.word a) (hD : D ⊆ Set.Iio 1024) :
    Faded D s s' := by
  have hdir : ∀ d < 1024, d ∉ D → s'.word d = s.word d := fun d hd hn =>
    hword d hn fun hf => by have := hF _ hf; omega
  refine ⟨hdir, fun d hd hn hp i hi => .inl ?_⟩
  obtain ⟨hnf, hpos⟩ := htab d hd hn hp
  rw [Memory.pte, Memory.pte, hdir d hd hn]
  refine hword _ (fun hm => ?_) ?_
  · have := Set.mem_Iio.mp (hD hm)
    omega
  · rwa [entry_div hi]

end Faded

namespace Exact

variable {s s' : Memory} {held : Finset ℕ} {d p : ℕ}

/-- The table of a directory entry is one of the two of the kernel, or one that is counted. -/
theorem table_cases (h : Exact s held) (hk : KernelMap s) (hd : d < 1024)
    (hp : present (s.word d) = true) :
    1 ≤ frameOf (s.word d) ∧ frameOf (s.word d) ≤ 2 ∨
      d ∈ userDirs ∧ 512 ≤ frameOf (s.word d) := by
  by_cases hlo : 16 ≤ d
  · have hmem := mem_userDirs.mpr ⟨hlo, hd⟩
    exact .inr ⟨hmem, (h.table_mem d hmem hp).1⟩
  refine .inl ?_
  by_cases h₀ : d = 0
  · rw [h₀, hk.dir_zero]
    decide
  by_cases h₁ : d = 1
  · rw [h₁, hk.dir_one]
    decide
  · rw [hk.dir_absent (by omega) (by omega)] at hp
    exact absurd hp Bool.false_ne_true

theorem one_le_table (h : Exact s held) (hk : KernelMap s) (hd : d < 1024)
    (hp : present (s.word d) = true) : 1 ≤ frameOf (s.word d) := by
  rcases h.table_cases hk hd hp with h | h <;> omega

/-- A frame without users is no table. -/
theorem table_ne_of_refs (h : Exact s held) (hk : KernelMap s) (hlo : 512 ≤ p)
    (hrefs : s.refs held p = 0) (hd : d < 1024) (hp : present (s.word d) = true) :
    frameOf (s.word d) ≠ p := by
  rcases h.table_cases hk hd hp with hlow | ⟨hmem, -⟩
  · omega
  · exact fun hc => not_usesTable_of_refs hrefs hmem ⟨hp, hc⟩

/-- The table of an entry of a user slot is not that of another entry. -/
theorem table_ne (h : Exact s held) (hk : KernelMap s) {d' : ℕ} (hd : d < 1024)
    (hp : present (s.word d) = true) (hd' : d' ∈ userDirs) (hp' : present (s.word d') = true)
    (hne : d ≠ d') : frameOf (s.word d) ≠ frameOf (s.word d') := by
  rcases h.table_cases hk hd hp with hlow | ⟨hmem, -⟩
  · have := (h.table_mem d' hd' hp').1
    omega
  · exact fun hc => hne (h.table_inj hmem hp hd' hp' hc)

/-! ### What the functions do to mappings -/

theorem getFreePage_faded (h : Exact s held) (hk : KernelMap s) {page : ℕ}
    (hg : s.getFreePage = some (page, s')) : Faded ∅ s s' := by
  obtain ⟨p, -, hlo, -, hrefs, -, -, hword⟩ := h.getFreePage hg
  refine Faded.of_word (F := {p}) (fun f hf => by rw [Set.mem_singleton_iff.mp hf]; omega)
    (fun d hd _ hp => ⟨fun hc => h.table_ne_of_refs hk hlo hrefs hd hp hc,
      h.one_le_table hk hd hp⟩) (fun a _ ha => ?_) (Set.empty_subset _)
  rw [hword, if_neg fun hc => ha (Set.mem_singleton_iff.mpr hc)]

/-- One turn of `copy_page_tables`. -/
theorem copyDir_faded (h : Exact s held) (hk : KernelMap s) {nr fromDir toDir : ℕ}
    (hto : toDir ∈ userDirs) (hrange : CopyRange nr fromDir)
    (hc : s.copyDir nr fromDir toDir = .ok (some s')) : Faded {toDir} s s' := by
  obtain ⟨-, -, hsame, hcopy⟩ := h.copyDir hto hrange hc
  by_cases hpres : present (s.word fromDir) = true
  swap
  · rw [hsame (by simpa using hpres)]
    exact Faded.refl _ _
  obtain ⟨t, hlo, -, hrefs, hword⟩ := hcopy hpres
  have hfrom : fromDir < 1024 := by
    rcases hrange with ⟨hd, -⟩ | ⟨rfl, -⟩
    · exact (mem_userDirs.mp hd).2
    · norm_num
  have hf := h.one_le_table hk hfrom hpres
  have hdir : ∀ d < 1024, d ∉ ({toDir} : Set ℕ) → s'.word d = s.word d := fun d hd hn => by
    rw [Set.mem_singleton_iff] at hn
    rw [hword, copiedWord, if_neg hn, if_neg (by omega), if_neg (by omega)]
  refine ⟨hdir, fun d hd hn hp i hi => ?_⟩
  have htab := h.one_le_table hk hd hp
  have hto' := (mem_userDirs.mp hto).2
  rw [Memory.pte, Memory.pte, hdir d hd hn, hword, copiedWord, if_neg (by omega),
    entry_div hi, if_neg (h.table_ne_of_refs hk hlo hrefs hd hp)]
  split_ifs with hc
  · exact .inr ⟨hc.2.2.1, hc.2.2.2, rfl⟩
  · exact .inl rfl

theorem copyDirs_faded {nr : ℕ} : ∀ (size fromDir toDir : ℕ) {s s' : Memory} {r : ℤ},
    Exact s held → KernelMap s → (∀ j < size, toDir + j ∈ userDirs) →
    (∀ j < size, CopyRange nr (fromDir + j)) →
    Memory.copyDirs nr size fromDir toDir s = .ok (r, s') →
      Faded (Set.Ico toDir (toDir + size)) s s'
  | 0, _, _, s, s', r, _, _, _, _, hc => by
    obtain ⟨-, rfl⟩ := Prod.mk.inj (Except.ok.inj hc)
    exact Faded.refl _ _
  | size + 1, fromDir, toDir, s, s', r, h, hk, hto, hfrom, hc => by
    rw [Memory.copyDirs] at hc
    cases hd : s.copyDir nr fromDir toDir with
    | error e =>
      rw [hd] at hc
      cases hc
    | ok o =>
      rw [hd] at hc
      cases o with
      | none =>
        obtain ⟨-, rfl⟩ := Prod.mk.inj (Except.ok.inj hc)
        exact Faded.refl _ _
      | some s₁ =>
        have hto₀ := hto 0 (by omega)
        have hfrom₀ := hfrom 0 (by omega)
        rw [add_zero] at hto₀ hfrom₀
        have hex := (h.copyDir hto₀ hfrom₀ hd).1
        have hfade := h.copyDir_faded hk hto₀ hfrom₀ hd
        have hk₁ : KernelMap s₁ := by
          rcases h.copyDir_kept hto₀ hfrom₀ (h.copyDir hto₀ hfrom₀ hd).2.1 with
            hn | ⟨m, hm, -, hkept⟩
          · cases hn.symm.trans hd
          · obtain rfl := Option.some.inj (Except.ok.inj (hm.symm.trans hd))
            refine hk.of_kept hkept fun a ha => ?_
            rw [Set.mem_singleton_iff.mp ha]
            exact mem_userDirs.mp hto₀
        have hrest := copyDirs_faded size (fromDir + 1) (toDir + 1) hex hk₁
          (fun j hj => by rw [add_right_comm]; exact hto (j + 1) (by omega))
          (fun j hj => by rw [add_right_comm]; exact hfrom (j + 1) (by omega)) hc
        refine (hfade.mono fun a ha => ?_).trans (hrest.mono fun a ha => ?_)
        · rw [Set.mem_singleton_iff] at ha
          exact Set.mem_Ico.mpr ⟨by omega, by omega⟩
        · obtain ⟨h₁, h₂⟩ := Set.mem_Ico.mp ha
          exact Set.mem_Ico.mpr ⟨by omega, by omega⟩

theorem freePageTables_faded (h : Exact s held) (hk : KernelMap s) {from' size : Word}
    (halign : from'.toNat % 2 ^ 22 = 0) (hlo : 16 ≤ dirOf from')
    (hhi : dirOf from' + Memory.dirCount size ≤ 1024)
    (hc : Memory.freePageTables from' size s = .ok s') :
    Faded (Set.Ico (dirOf from') (dirOf from' + Memory.dirCount size)) s s' := by
  obtain ⟨m, hok, -, -, hword⟩ := h.freePageTables_ok halign hlo hhi
  obtain rfl := Except.ok.inj (hok.symm.trans hc)
  have hmem : ∀ j < Memory.dirCount size, dirOf from' + j ∈ userDirs := fun j hj =>
    mem_userDirs.mpr ⟨by omega, by omega⟩
  refine Faded.of_word (F := {f | ∃ j < Memory.dirCount size,
      present (s.word (dirOf from' + j)) = true ∧ frameOf (s.word (dirOf from' + j)) = f})
    (fun f hf => ?_) (fun d hd hn hp => ⟨fun hf => ?_, h.one_le_table hk hd hp⟩)
    (fun a ha hf => hword a fun j hj => ⟨fun hc => ?_, fun hp hc => hf ⟨j, hj, hp, hc.symm⟩⟩)
    fun a ha => ?_
  · obtain ⟨j, hj, hp, rfl⟩ := hf
    have := (h.table_mem _ (hmem j hj) hp).1
    omega
  · obtain ⟨j, hj, hpj, heq⟩ := hf
    refine h.table_ne hk hd hp (hmem j hj) hpj (fun hc => hn ?_) heq.symm
    exact Set.mem_Ico.mpr ⟨by omega, by omega⟩
  · exact ha (Set.mem_Ico.mpr ⟨by omega, by omega⟩)
  · have := (Set.mem_Ico.mp ha).2
    exact Set.mem_Iio.mpr (by omega)

/-- Exact counts are determined by the mappings: they are the same when the mappings of the slots
are the same up to write bits, and the slots of `D` are empty. -/
theorem memMap_eq {D : Set ℕ} (h : Exact s held) (h' : Exact s' held) (hf : Faded D s s')
    (habs : ∀ d ∈ D, d ∈ userDirs → present (s.word d) = false)
    (habs' : ∀ d ∈ D, d ∈ userDirs → present (s'.word d) = false) :
    ∀ k < pagingPages, s'.memMap k = s.memMap k := fun k hk => by
  have hlt : k < 1536 := hk
  have hdir : ∀ d ∈ userDirs, ∀ p, s'.UsesTable p d ↔ s.UsesTable p d := fun d hd p => by
    rw [Memory.UsesTable, Memory.UsesTable]
    by_cases hD : d ∈ D
    · rw [habs d hD hd, habs' d hD hd]
      simp
    · rw [hf.dir d (mem_userDirs.mp hd).2 hD]
  have hmaps : ∀ y ∈ userEntries, ∀ p, s'.MapsPage p y ↔ s.MapsPage p y := fun y hy p => by
    obtain ⟨hyd, hyi⟩ := mem_userEntries.mp hy
    rw [Memory.MapsPage, Memory.MapsPage]
    by_cases hD : y.1 ∈ D
    · rw [habs y.1 hD hyd, habs' y.1 hD hyd]
      simp
    · have hlt := (mem_userDirs.mp hyd).2
      rw [hf.dir y.1 hlt hD]
      refine and_congr_right fun hp => ?_
      rcases hf.entry y.1 hlt hD hp y.2 hyi with heq | ⟨-, -, heq⟩
      · rw [heq]
      · rw [heq, present_clear, frameOf_clear]
  have hrefs : s'.refs held (k + 512) = s.refs held (k + 512) := by
    rw [Memory.refs, Memory.refs, card_filter_agree fun y hy => hmaps y hy _,
      card_filter_agree fun d hd => hdir d hd _]
  have hc := h.count (k + 512) (by omega) (by omega)
  have hc' := h'.count (k + 512) (by omega) (by omega)
  rw [Nat.add_sub_cancel] at hc hc'
  rw [hc, hc', hrefs]

end Exact

/-! ### `copy_process` -/

/-- `EAGAIN`. -/
def EAGAIN : ℤ := 11

/-- The open files of a task: entries of `file_table`, and `pwd` and `root` in `inode_table`. -/
structure OpenFiles where
  filp : Fin 20 → Option (Fin 64)
  pwd : Option (Fin 32)
  root : Option (Fin 32)

/-- What `copy_process` works on: the tasks with their open files, `f_count` of the files and
`i_count` of the inodes. -/
structure ForkState where
  sys : System
  opened : ℕ → OpenFiles
  fCount : Fin 64 → ℕ
  iCount : Fin 32 → ℕ

namespace ForkState

/-- Adds one to an `unsigned short` counter, if there is one. -/
def bump {α : Type} [DecidableEq α] (c : α → ℕ) : Option α → α → ℕ
  | none => c
  | some k => Function.update c k ((c k + 1) % 65536)

/-- The end of `copy_process`: the child `p` in the slot `nr` shares the files of its parent. -/
def share (nr n : ℕ) (p : Task) (m : Memory) (s : ForkState) : ForkState :=
  let f := s.opened n
  { sys := System.setTask { s.sys with mem := m } nr (some p)
    opened := Function.update s.opened nr f
    fCount := (List.finRange 20).foldl (fun c i => bump c (f.filp i)) s.fCount
    iCount := bump (bump s.iCount f.pwd) f.root }

/-- `copy_process`, of the task in the slot `n` into the slot `nr`, with its result. -/
def copyProcess (nr n : ℕ) (current : Task) (s : ForkState) : Except Stop (ℤ × ForkState) :=
  match s.sys.mem.getFreePage with
  | none => .ok (-EAGAIN, s)
  | some (page, m) =>
    let p := { current with
      page := page, zombie := false, pid := s.sys.lastPid, father := current.pid, args := none }
    System.copyMem nr current p m >>= fun r =>
    if r.1 then .ok (s.sys.lastPid, share nr n r.2.1 r.2.2 s)
    else mm (r.2.2.freePage page) >>= fun m =>
      .ok (-EAGAIN, { s with sys := { s.sys with mem := m } })

/-- Without files and results this is the `copy_process` of the address spaces. -/
theorem copyProcess_sys (nr n : ℕ) (current : Task) (s : ForkState) :
    (copyProcess nr n current s).map (fun r => r.2.sys) =
      System.copyProcess nr current s.sys := by
  rw [copyProcess, System.copyProcess]
  cases s.sys.mem.getFreePage with
  | none => rfl
  | some r =>
    dsimp only
    cases System.copyMem nr current _ r.2 with
    | error e => rfl
    | ok q =>
      rw [ok_bind, ok_bind]
      split_ifs
      · rfl
      · cases q.2.2.freePage r.1 <;> rfl

/-- The slot `nr` is empty as before, and nothing else has changed but write bits. -/
structure Unharmed (nr : ℕ) (s s' : ForkState) : Prop where
  memMap : ∀ k < pagingPages, s'.sys.mem.memMap k = s.sys.mem.memMap k
  slot : ∀ j < 16, present (s'.sys.mem.word (16 * nr + j)) = false
  task : s'.sys.task = s.sys.task
  fCount : s'.fCount = s.fCount
  iCount : s'.iCount = s.iCount
  mapped : Faded (Set.Ico (16 * nr) (16 * nr + 16)) s.sys.mem s'.sys.mem

end ForkState

namespace System.Inv

variable {s : System} {held held' : Finset ℕ} {n nr : ℕ} {t : Task}

/-- The directory entries of an empty slot are absent. -/
theorem slot_absent (h : Inv held s) (hpos : 1 ≤ nr) (hnr : nr < 64) (hempty : s.task nr = none) :
    ∀ j < 16, present (s.mem.word (16 * nr + j)) = false := fun j hj => by
  rw [← Bool.not_eq_true]
  intro hp
  obtain ⟨u, hu, -⟩ := h.owned nr hpos hnr j hj hp
  cases hempty.symm.trans hu

/-- `copy_mem` changes nothing outside the new slot but write bits. -/
theorem copyMem_faded (h : Inv held s) (ht : s.task n = some t) (hpos : 1 ≤ nr) (hnr : nr < 64)
    {m m' : Memory} {p p' : Task} {b : Bool} (hex : Exact m held') (hk : KernelMap m)
    (habs : ∀ j < 16, present (m.word (16 * nr + j)) = false)
    (hc : System.copyMem nr t p m = .ok (b, p', m')) :
    Faded (Set.Ico (16 * nr) (16 * nr + 16)) m m' := by
  have hslot := h.slot n t ht
  have hn : n < 64 := hslot.lt
  have hdata := hslot.data_le
  have hcount := hslot.dirCount_limit
  have hdir : ∀ k < 64, dirOf (linear k 0) = 16 * k := fun k hk => by
    rw [dirOf_linear hk (by norm_num), Nat.zero_div, add_zero]
  have hto : ∀ j < Memory.dirCount t.data.getLimit, 16 * nr + j ∈ userDirs := fun j hj =>
    mem_userDirs.mpr ⟨by omega, by omega⟩
  have hsub : Set.Ico (16 * nr) (16 * nr + Memory.dirCount t.data.getLimit) ⊆
      Set.Ico (16 * nr) (16 * nr + 16) := Set.Ico_subset_Ico_right (by omega)
  rw [System.copyMem] at hc
  split_ifs at hc
  dsimp only at hc
  rw [hslot.dataBase, show BitVec.ofNat 32 (nr * 0x4000000) = linear nr 0 by rw [linear, add_zero]]
    at hc
  obtain ⟨r, hcopy, hc⟩ := bind_eq_ok.mp hc
  have hcopy := mm_eq_ok.mp hcopy
  rw [Memory.copyPageTables] at hcopy
  have hcond : ¬ (linear n 0 &&& 0x3fffff ≠ 0 ∨ linear nr 0 &&& 0x3fffff ≠ 0) := fun hc => by
    rw [if_pos hc] at hcopy
    cases hcopy
  rw [if_neg hcond, hdir n hn, hdir nr hnr] at hcopy
  have hfade := (hex.copyDirs_faded _ _ _ hk hto hslot.copyRange hcopy).mono hsub
  split_ifs at hc with hr
  · obtain ⟨m₂, hfree, hc⟩ := bind_eq_ok.mp hc
    obtain rfl : m₂ = m' := congrArg (fun q => q.2.2) (Except.ok.inj hc)
    have hex₁ := hex.copyDirs hto hslot.copyRange hcopy
    have hk₁ : KernelMap r.2 := by
      obtain ⟨r', m₁, hok, -, hkept⟩ := hex.copyDirs_ok _ _ _ hto hslot.copyRange
        fun j hj => habs j (by omega)
      obtain rfl : m₁ = r.2 := congrArg Prod.snd (Except.ok.inj (hok.symm.trans hcopy))
      exact hk.of_kept hkept fun a ha => by
        have := Set.mem_Ico.mp ha
        exact Set.mem_Ico.mpr ⟨by omega, by omega⟩
    have hfree' := hex₁.freePageTables_faded hk₁ (by rw [toNat_linear hnr (by norm_num)]; omega)
      (by rw [hdir nr hnr]; omega) (by rw [hdir nr hnr]; omega) (mm_eq_ok.mp hfree)
    rw [hdir nr hnr] at hfree'
    exact hfade.trans (hfree'.mono hsub)
  · obtain rfl : r.2 = m' := congrArg (fun q => q.2.2) (Except.ok.inj hc)
    exact hfade

/-- `copy_process` into an empty slot returns, and what it leaves when it fails. -/
theorem failedFork (h : Inv held s) (ht : s.task n = some t) (hpos : 1 ≤ nr) (hnr : nr < 64)
    (hempty : s.task nr = none) {page : ℕ} {m : Memory} (hg : s.mem.getFreePage = some (page, m))
    {p p' : Task} {m' : Memory} (hc : System.copyMem nr t p m = .ok (false, p', m')) :
    ∃ m₂, m'.freePage page = .ok m₂ ∧ Exact m₂ held ∧
      (∀ j < 16, present (m₂.word (16 * nr + j)) = false) ∧
      Faded (Set.Ico (16 * nr) (16 * nr + 16)) s.mem m₂ := by
  obtain ⟨q, rfl, -, hq, hex, hk⟩ := h.exact.getFreePage_kept hg
  obtain ⟨b, m₁, hok, hex', -, hown⟩ := h.copyMem ht hpos hnr hempty hex hk p
  obtain ⟨rfl, rfl⟩ : b = false ∧ m₁ = m' := by
    have heq := Except.ok.inj (hok.symm.trans hc)
    exact ⟨congrArg Prod.fst heq, congrArg (fun r => r.2.2) heq⟩
  obtain ⟨hfree, hex₂⟩ := hex'.unhold (Finset.mem_insert_self q held)
  rw [Finset.erase_insert hq] at hex₂
  refine ⟨_, hfree, hex₂, fun j hj => ?_, ?_⟩
  · rw [← Bool.not_eq_true]
    exact fun hp => absurd (hown j hj hp).1 Bool.false_ne_true
  · have hkernel : KernelMap m := h.kernel.of_kept hk (Set.empty_subset _)
    have habs : ∀ j < 16, present (m.word (16 * nr + j)) = false := fun j hj => by
      rw [hk _ (by omega) (Set.notMem_empty _)]
      exact h.slot_absent hpos hnr hempty j hj
    have hcopy := h.copyMem_faded ht hpos hnr hex hkernel habs hc
    exact (((h.exact.getFreePage_faded h.kernel hg).mono (Set.empty_subset _)).trans hcopy).trans
      (Faded.of_eq rfl)

end System.Inv

namespace ForkState

variable {s : ForkState} {held : Finset ℕ} {n nr : ℕ} {t : Task}

/-- **A failed fork leaks nothing.** `copy_process` into the slot that `find_empty_process` has
found returns. If the result is `-EAGAIN`, all counters are what they were before, the slot is
empty, and other mappings differ at most in write bits of pages that `mem_map` counts. -/
theorem failed_fork (h : System.Inv held s.sys) (ht : s.sys.task n = some t)
    (hnr : s.sys.findEmpty = some nr) :
    ∃ r s', copyProcess nr n t s = .ok (r, s') ∧ (r = -EAGAIN → Unharmed nr s s') := by
  obtain ⟨hpos, hlt, hempty⟩ := System.mem_of_findEmpty hnr
  have hlt : nr < 64 := hlt
  have habs := h.slot_absent hpos hlt hempty
  rw [copyProcess]
  cases hg : s.sys.mem.getFreePage with
  | none =>
    exact ⟨_, s, rfl, fun _ => ⟨fun _ _ => rfl, habs, rfl, rfl, rfl, Faded.refl _ _⟩⟩
  | some g =>
    obtain ⟨page, m⟩ := g
    obtain ⟨q, rfl, -, -, hex, hk⟩ := h.exact.getFreePage_kept hg
    dsimp only
    obtain ⟨b, m', hok, -⟩ := h.copyMem ht hpos hlt hempty hex hk
      { t with
        page := q * 4096, zombie := false, pid := s.sys.lastPid, father := t.pid, args := none }
    rw [hok, ok_bind]
    cases b with
    | true =>
      refine ⟨_, _, rfl, fun hr => ?_⟩
      have hlast := h.lastPid.1
      rw [EAGAIN] at hr
      omega
    | false =>
      obtain ⟨m₂, hfree, hex₂, habs₂, hfade⟩ := h.failedFork ht hpos hlt hempty hg hok
      dsimp only
      rw [if_neg Bool.false_ne_true, hfree]
      refine ⟨-EAGAIN, _, rfl, fun _ => ⟨?_, habs₂, rfl, rfl, rfl, hfade⟩⟩
      have hslot : ∀ {m : Memory}, (∀ j < 16, present (m.word (16 * nr + j)) = false) →
          ∀ d ∈ Set.Ico (16 * nr) (16 * nr + 16), d ∈ userDirs → present (m.word d) = false :=
        fun hm d hd _ => by
          obtain ⟨h₁, h₂⟩ := Set.mem_Ico.mp hd
          have hj := hm (d - 16 * nr) (by omega)
          rwa [Nat.add_sub_cancel' h₁] at hj
      exact h.exact.memMap_eq hex₂ hfade (hslot habs) (hslot habs₂)

end ForkState

/-! ### Faults -/

/-- Exactly one frame is free. -/
def Memory.OneFree (s : Memory) : Prop :=
  ∃ k < pagingPages, s.memMap k = 0 ∧ ∀ j < pagingPages, s.memMap j = 0 → j = k

/-- A frame that was free in the memory `s`, and has been allocated in `s'`, is free in `m`. -/
def NoLeak (s s' m : Memory) : Prop :=
  ∀ k < pagingPages, s.memMap k = 0 → s'.memMap k ≠ 0 → m.memMap k = 0

namespace Exact

variable {s s' : Memory} {held : Finset ℕ}

/-- `do_no_page` fails when there is no frame for the page, or none for the table. -/
theorem doNoPage_error {address : Word} (he : s.doNoPage address = .error .doExit) :
    s.getFreePage = none ∨ ∃ page s₁, s.getFreePage = some (page, s₁) ∧ s₁.getFreePage = none ∧
      present (s₁.word (dirOf address)) = false := by
  rw [Memory.doNoPage] at he
  cases hg : s.getFreePage with
  | none => exact .inl rfl
  | some r =>
    obtain ⟨page, s₁⟩ := r
    refine .inr ⟨page, s₁, rfl, ?_⟩
    rw [hg] at he
    dsimp only at he
    rw [Memory.putPage] at he
    by_cases hp : present (s₁.word (dirOf address)) = true
    · rw [if_pos hp] at he
      cases he
    · rw [if_neg hp] at he
      cases hg₁ : s₁.getFreePage with
      | none => exact ⟨rfl, by simpa using hp⟩
      | some r =>
        rw [hg₁] at he
        cases he

/-- The frame is the only free one when there is none after it has been allocated. -/
theorem oneFree (h : Exact s held) {page : ℕ} (hg : s.getFreePage = some (page, s'))
    (hg' : s'.getFreePage = none) : s.OneFree := by
  obtain ⟨p, -, hlo, hhi, hrefs, -, hmap, -⟩ := h.getFreePage hg
  have hbound : pagingPages = 1536 := rfl
  refine ⟨p - 512, by omega, (h.count p hlo hhi).trans hrefs, fun j hj hfree => ?_⟩
  by_contra hne
  refine Memory.memMap_ne_zero hg' j hj ?_
  rw [hmap, Function.update_of_ne hne, hfree]

end Exact

namespace System

/-- A task is torn down: it exits, and if it becomes a zombie its structure is released. -/
def tearDown (n : ℕ) (current : Task) (s : System) : Except Stop System :=
  doExit n current s >>= fun s =>
  match s.task n with
  | none => .ok s
  | some z => release z.page s

variable {s : System} {held : Finset ℕ} {n : ℕ} {t : Task}

@[simp] theorem setTask_self (s : System) (n : ℕ) (o : Option Task) :
    (s.setTask n o).task n = o := by
  rw [setTask]
  exact Function.update_self n o s.task

/-- All that the kernel holds no more in the end is the structure of the task. -/
theorem Inv.tearDown (h : Inv held s) (ht : s.task n = some t) (hpos : 1 ≤ n) :
    ∃ s' p, System.tearDown n t s = .ok s' ∧ t.page = p * 4096 ∧ p ∈ held ∧
      Inv (held.erase p) s' := by
  obtain ⟨m, f, hok, h₂, hf, habs⟩ := h.exitTables ht hpos
  rw [System.tearDown, System.doExit, hok, ok_bind]
  dsimp only
  by_cases hfather : (if t.father = t.pid then 0 else t.father) ≠ 0
  · rw [if_pos hfather, ok_bind]
    have h₃ := h₂.becomeZombie hf habs (if t.father = t.pid then 0 else t.father)
    obtain ⟨s', p, hrelease, hpage, hp, hinv, -⟩ := h₃.release (setTask_self _ n _) hpos habs
    refine ⟨s', p, ?_, hpage, hp, hinv⟩
    rw [setTask_self]
    exact hrelease
  · rw [if_neg hfather]
    obtain ⟨s', p, hrelease, hpage, hp, hinv, hnone⟩ := h₂.release hf hpos habs
    refine ⟨s', p, ?_, hpage, hp, hinv⟩
    rw [hrelease, ok_bind, hnone]

/-- A fault that has allocated nothing leaks nothing. -/
theorem Inv.noLeak (h : Inv held s) (ht : s.task n = some t) (hpos : 1 ≤ n)
    (hg : s.mem.getFreePage = none) :
    ∃ s', System.tearDown n t { s with mem := s.mem.exhausted } = .ok s' ∧
      NoLeak s.mem s.mem.exhausted s'.mem := by
  have hsame : s.mem.exhausted = s.mem := by rw [Memory.exhausted, hg]
  obtain ⟨s', -, hok, -⟩ := h.tearDown ht hpos
  refine ⟨s', by rw [hsame]; exact hok, fun k hk hfree => ?_⟩
  exact absurd hfree (Memory.memMap_ne_zero hg k hk)

/-- The page that `do_no_page` has got remains allocated. -/
theorem Inv.leak (h : Inv held s) (ht : s.task n = some t) (hpos : 1 ≤ n) {page : ℕ} {m : Memory}
    (hg : s.mem.getFreePage = some (page, m)) :
    ∃ s', System.tearDown n t { s with mem := s.mem.exhausted } = .ok s' ∧
      ¬ NoLeak s.mem s.mem.exhausted s'.mem := by
  have hbound : pagingPages = 1536 := rfl
  have hex : s.mem.exhausted = m := by rw [Memory.exhausted, hg]
  obtain ⟨p, -, hlo, hhi, hrefs, hexact, hmap, hword⟩ := h.exact.getFreePage hg
  have hp : p ∉ held := Exact.not_mem_of_refs hrefs
  have hkept : Kept ∅ s.mem m := fun a ha _ => by rw [hword, if_neg (by omega)]
  have h' : Inv (insert p held) { s with mem := m } :=
    h.quiet hexact hkept (h.holds.mono (Finset.subset_insert p held) fun _ => .inr rfl)
  obtain ⟨s', q, hok, hpage, -, hinv⟩ := h'.tearDown ht hpos
  -- The page of the task structure is another one.
  have haddr : s.addr (n, 0) = t.page := addr_of_task ht 0
  obtain ⟨q', hq', hpage'⟩ := h.holds.frame (x := (n, 0))
    (by rw [haddr]; exact (h.slot n t ht).page hpos)
  have hne : p ≠ q := fun hc => hp <| by
    have heq : q' = q := by omega
    rwa [hc, ← heq]
  have hmem : p ∈ (insert p held).erase q :=
    Finset.mem_erase.mpr ⟨hne, Finset.mem_insert_self p held⟩
  have hcount := (hinv.exact.count p hlo hhi).trans (hinv.exact.held_sole p hmem)
  rw [hex]
  refine ⟨s', hok, fun hno => absurd (hno (p - 512) (by omega) ?_ ?_) ?_⟩
  · rw [h.exact.count p hlo hhi, hrefs]
  · rw [hmap, Function.update_self]
    exact one_ne_zero
  · rw [hcount]
    exact one_ne_zero

/-- **Out of memory in a page fault.** When `do_no_page` ends in `do_exit`, the task can be torn
down, and then no frame that the fault has allocated is still counted, if and only if it was not the
case that exactly one frame was free and the table was missing. -/
theorem noLeak_iff (h : Inv held s) (ht : s.task n = some t) (hpos : 1 ≤ n) {address : Word}
    (hfault : s.mem.doNoPage address = .error .doExit) :
    ∃ s', tearDown n t { s with mem := s.mem.exhausted } = .ok s' ∧
      (NoLeak s.mem s.mem.exhausted s'.mem ↔
        ¬ (s.mem.OneFree ∧ present (s.mem.word (dirOf address)) = false)) := by
  rcases Exact.doNoPage_error hfault with hg | ⟨page, m, hg, hg', hdir⟩
  · obtain ⟨s', hok, hno⟩ := h.noLeak ht hpos hg
    refine ⟨s', hok, fun _ hone => ?_, fun _ => hno⟩
    obtain ⟨⟨k, hk, hfree, -⟩, -⟩ := hone
    exact Memory.memMap_ne_zero hg k hk hfree
  · obtain ⟨s', hok, hleak⟩ := h.leak ht hpos hg
    refine ⟨s', hok, fun hno => absurd hno hleak, fun hcond =>
      absurd ⟨h.exact.oneFree hg hg', ?_⟩ hcond⟩
    have hlt : dirOf address < 1024 := by
      have := address.isLt
      rw [dirOf_eq]
      omega
    obtain ⟨p, -, hlo, -, -, -, -, hword⟩ := h.exact.getFreePage hg
    rw [hword, if_neg (by omega)] at hdir
    exact hdir

end System

/-! ### Memory with few free frames -/

/-- The memory at the start, when the kernel holds the frames of `held`. -/
def Memory.bootHolding (held : Finset ℕ) : Memory :=
  { Memory.boot fun _ => 0 with memMap := fun k => if k + 512 ∈ held then 1 else 0 }

theorem Memory.bootHolding_memMap (held : Finset ℕ) (k : ℕ) :
    (Memory.bootHolding held).memMap k = if k + 512 ∈ held then 1 else 0 :=
  rfl

/-- A child of task 0, with an empty address space. -/
def firstTask : Task where
  page := 513 * 4096
  zombie := false
  pid := 1
  father := 0
  pgrp := 0
  code := System.initTask.code.setBase (linear 1 0)
  data := System.initTask.data.setBase (linear 1 0)
  args := none

/-- Task 0 and a child, when the kernel holds the frames of `held`. -/
def System.tight (held : Finset ℕ) : System where
  mem := Memory.bootHolding held
  task n := if n = 0 then some initTask else if n = 1 then some firstTask else none
  lastPid := 1

section Tight

variable {held : Finset ℕ}

theorem Exact.bootHolding (hheld : ∀ p ∈ held, 512 ≤ p ∧ p < 2048) :
    Exact (Memory.bootHolding held) held := by
  have hboot := Exact.boot fun _ => 0
  have hdir : ∀ d ∈ userDirs, ¬ present ((Memory.bootHolding held).word d) = true :=
      fun d hd hp => by
    obtain ⟨h₁, h₂⟩ := mem_userDirs.mp hd
    have hword : (Memory.bootHolding held).word d = 0 := by
      change (Memory.boot fun _ => 0).word d = 0
      simp only [Memory.boot]
      rw [if_neg (by omega), if_neg (by omega), if_pos (by omega)]
    rw [hword] at hp
    exact absurd hp (by decide)
  have hrefs (p : ℕ) : (Memory.bootHolding held).refs held p = if p ∈ held then 1 else 0 := by
    rw [Memory.refs, Finset.filter_false_of_mem fun x hx hm =>
        hdir x.1 (mem_userEntries.mp hx).1 hm.1, Finset.filter_false_of_mem fun d hd hu =>
        hdir d hd hu.1]
    simp
  refine ⟨fun d hd hp => absurd hp (hdir d hd), fun x hx hp => absurd hp
    (hdir x.1 (mem_userEntries.mp hx).1), hheld, fun p hlo hhi => ?_, fun d hd hp =>
    absurd hp (hdir d hd), fun p hp => ?_, fun x hx y _ p _ hm => absurd hm.1
    (hdir x.1 (mem_userEntries.mp hx).1), hboot.kernel_dir, hboot.kernel_table⟩
  · rw [hrefs, Memory.bootHolding_memMap, Nat.sub_add_cancel hlo]
  · rw [hrefs, if_pos hp]

theorem System.Inv.tight (hheld : ∀ p ∈ held, 512 ≤ p ∧ p < 2048) (hpage : 513 ∈ held) :
    Inv held (System.tight held) where
  exact := Exact.bootHolding hheld
  kernel := KernelMap.boot fun _ => 0
  slot n t ht := by
    simp only [System.tight] at ht
    split_ifs at ht with h₀ h₁
    · obtain rfl := Option.some.inj ht
      subst h₀
      exact (Inv.boot fun _ => 0).slot 0 _ rfl
    · obtain rfl := Option.some.inj ht
      subst h₁
      exact ⟨by decide, by decide, by decide, by decide, by decide, by decide, by decide,
        fun hc => absurd hc one_ne_zero, fun _ => by decide, fun _ ha => nomatch ha⟩
  owned n hn hn' j hj hp := by
    have hempty : (System.boot fun _ => 0).task n = none := if_neg (Nat.one_le_iff_ne_zero.mp hn)
    have habs := (Inv.boot fun _ => 0).slot_absent hn hn' hempty j hj
    exact absurd (habs.symm.trans hp) Bool.false_ne_true
  holds := by
    have hother (y : ℕ × ℕ) (hy : y ≠ (1, 0)) : (System.tight held).addr y = 0 := by
      obtain ⟨k, i⟩ := y
      rw [addr, System.tight]
      dsimp only
      split_ifs with h₀ h₁
      · cases i <;> rfl
      · cases i with
        | zero => exact absurd (by rw [h₁]) hy
        | succ i => rfl
      · rfl
    have haddr : (System.tight held).addr (1, 0) = 513 * 4096 := rfl
    have hstore := (Inv.boot fun _ => 0).holds.store (Finset.notMem_empty 513) haddr
      fun y hy => .inl (hother y hy)
    exact hstore.mono (by simpa using hpage) fun _ => .inr rfl
  lastPid := ⟨by norm_num [System.tight], by norm_num [System.tight]⟩

/-- Only the first frame is free. -/
def lastFrame : Finset ℕ := Finset.Ico 513 2048

theorem mem_lastFrame {p : ℕ} (hp : p ∈ lastFrame) : 512 ≤ p ∧ p < 2048 := by
  have := Finset.mem_Ico.mp hp
  omega

theorem System.Inv.lastFrame : Inv Mm.lastFrame (System.tight Mm.lastFrame) :=
  .tight (fun _ => mem_lastFrame) (by rw [Mm.lastFrame, Finset.mem_Ico]; omega)

/-- After one frame has been allocated there is no other. -/
theorem getFreePage_lastFrame : ∃ m, (System.tight lastFrame).mem.getFreePage =
    some (512 * 4096, m) ∧
    m.getFreePage = none := by
  have hbound : pagingPages = 1536 := rfl
  have hmap (k : ℕ) (hk : k < 1536) : (System.tight lastFrame).mem.memMap k = 0 ↔ k = 0 := by
    have hmem : k + 512 ∈ lastFrame ↔ k ≠ 0 := by
      rw [lastFrame, Finset.mem_Ico]
      omega
    rw [System.tight, Memory.bootHolding_memMap]
    by_cases hz : k + 512 ∈ Mm.lastFrame
    · rw [if_pos hz]
      exact ⟨fun hc => absurd hc one_ne_zero, fun hc => absurd hc (hmem.mp hz)⟩
    · rw [if_neg hz]
      exact ⟨fun _ => not_not.mp fun hc => hz (hmem.mpr hc), fun _ => rfl⟩
  obtain ⟨r, hr⟩ : ∃ r, (System.tight lastFrame).mem.getFreePage = some r := by
    cases hg : (System.tight lastFrame).mem.getFreePage with
    | some r => exact ⟨r, rfl⟩
    | none => exact absurd ((hmap 0 (by omega)).mpr rfl) (Memory.memMap_ne_zero hg 0 (by omega))
  obtain ⟨page, m⟩ := r
  obtain ⟨p, rfl, hlo, hhi, hrefs, -, hmap', -⟩ := System.Inv.lastFrame.exact.getFreePage hr
  have hp := (hmap (p - 512) (by omega)).mp
    ((System.Inv.lastFrame.exact.count p hlo hhi).trans hrefs)
  obtain rfl : p = 512 := by omega
  refine ⟨m, hr, ?_⟩
  cases hg : m.getFreePage with
  | none => rfl
  | some r =>
    obtain ⟨nr, hscan, -⟩ := Option.map_eq_some_iff.mp hg
    obtain ⟨hlt, hfree⟩ := Exact.scanFree_eq_some hscan
    rw [hmap', Function.update_apply] at hfree
    split_ifs at hfree with hz
    exact absurd ((hmap nr (by omega)).mp hfree) hz

/-- The child of task 0 touches its first page, for which there is no table. -/
theorem doNoPage_lastFrame :
    (System.tight lastFrame).mem.doNoPage 0x4000000 = .error .doExit := by
  obtain ⟨m, hg, hg'⟩ := getFreePage_lastFrame
  obtain ⟨p, -, hlo, -, -, -, -, hword⟩ := System.Inv.lastFrame.exact.getFreePage hg
  have hdir : dirOf 0x4000000 = 16 := by decide
  have habs : present (m.word (dirOf 0x4000000)) = false := by
    rw [hdir, hword, if_neg (by omega)]
    rfl
  rw [Memory.doNoPage, hg]
  dsimp only
  rw [Memory.putPage, habs, if_neg Bool.false_ne_true, hg']

/-- The table of the first directory entry of a child takes the last frame but one. -/
theorem copyDirs_lastFrame {m : Memory} (hg : m.getFreePage = none) {size : ℕ} {r : ℤ × Memory}
    (hsize : size ≠ 0) (hfrom : present (m.word 0) = true)
    (hc : Memory.copyDirs 0xA0 size 0 32 m = .ok r) : r.1 = -1 := by
  obtain ⟨k, rfl⟩ := Nat.exists_eq_succ_of_ne_zero hsize
  rw [Memory.copyDirs, Memory.copyDir] at hc
  by_cases hto : present (m.word 32) = true
  · rw [if_pos hto] at hc
    cases hc
  · rw [if_neg hto, if_pos hfrom, hg] at hc
    rw [← Except.ok.inj hc]

end Tight

/-- Task 0, with `pwd` and `root`, when one frame is free. -/
def ForkState.tight : ForkState where
  sys := System.tight lastFrame
  opened _ := ⟨fun _ => none, some 0, some 0⟩
  fCount _ := 0
  iCount k := if k = 0 then 4 else 0

theorem ForkState.tight_findEmpty : ForkState.tight.sys.findEmpty = some 2 :=
  rfl

/-- Task 0 forks when there is one free frame: it becomes the structure of the child, and there is
none for a table. -/
theorem ForkState.failed_fork_tight :
    ∃ s', ForkState.copyProcess 2 0 System.initTask ForkState.tight = .ok (-EAGAIN, s') ∧
      ForkState.Unharmed 2 ForkState.tight s' := by
  obtain ⟨r, s', hok, hfail⟩ := ForkState.failed_fork (s := ForkState.tight)
    System.Inv.lastFrame (n := 0) rfl ForkState.tight_findEmpty
  obtain ⟨m, hg, hg'⟩ := getFreePage_lastFrame
  obtain ⟨p, -, hlo, -, -, -, -, hword⟩ := System.Inv.lastFrame.exact.getFreePage hg
  suffices hr : r = -EAGAIN from ⟨s', hr ▸ hok, hfail hr⟩
  have hsys : ForkState.tight.sys.mem.getFreePage = some (512 * 4096, m) := hg
  rw [ForkState.copyProcess, hsys] at hok
  obtain ⟨q, hmem, hok⟩ := bind_eq_ok.mp hok
  have hq : q.1 = false := by
    rw [System.copyMem, if_neg (by decide), if_neg (by decide)] at hmem
    obtain ⟨v, hcopy, hmem⟩ := bind_eq_ok.mp hmem
    have hcopy := mm_eq_ok.mp hcopy
    rw [Memory.copyPageTables, if_neg (by decide)] at hcopy
    have hv := copyDirs_lastFrame hg' (by decide) (by rw [hword, if_neg (by omega)]; decide) hcopy
    rw [if_pos (by rw [hv]; decide)] at hmem
    obtain ⟨m', -, hmem⟩ := bind_eq_ok.mp hmem
    rw [← Except.ok.inj hmem]
  rw [hq, if_neg Bool.false_ne_true] at hok
  obtain ⟨m', -, hok⟩ := bind_eq_ok.mp hok
  exact (congrArg Prod.fst (Except.ok.inj hok)).symm

namespace System

/-- **A page fault can leak a frame.** One frame is free, and a process touches a page whose table
is missing. -/
theorem not_noLeak : (tight lastFrame).mem.doNoPage 0x4000000 = .error .doExit ∧
    ∃ s', tearDown 1 firstTask { tight lastFrame with mem := (tight lastFrame).mem.exhausted } =
        .ok s' ∧
      ¬ NoLeak (tight lastFrame).mem (tight lastFrame).mem.exhausted s'.mem := by
  obtain ⟨m, hg, -⟩ := getFreePage_lastFrame
  exact ⟨doNoPage_lastFrame, Inv.lastFrame.leak (n := 1) rfl le_rfl hg⟩

theorem noLeak_iff_lastFrame :
    ∃ s', tearDown 1 firstTask { tight lastFrame with mem := (tight lastFrame).mem.exhausted } =
        .ok s' ∧
      (NoLeak (tight lastFrame).mem (tight lastFrame).mem.exhausted s'.mem ↔
        ¬ ((tight lastFrame).mem.OneFree ∧
          present ((tight lastFrame).mem.word (dirOf 0x4000000)) = false)) :=
  noLeak_iff Inv.lastFrame (n := 1) rfl le_rfl doNoPage_lastFrame

end System

end Linux001.Mm
