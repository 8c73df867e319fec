import Linux001.Mm.RefCountOps

/-!
# Exact reference counts over whole runs

The functions of `mm/memory.c` that map pages, `copy_page_tables`, `put_page`, `un_wp_page` and the
two fault handlers, keep the counts exact, and so does every run of them from the memory that
`setup_paging` leaves behind.

## Main definitions

* `Exact.copiedWord`: the memory after some entries of a table have been copied to a new one.
* `Kernel`, `Op`, `Kernel.Admissible`, `Kernel.perform`: the operations of a run.

## Main results

* `Exact.copyDir`, `Exact.putPage`, `Exact.unWpPage`: the specifications of the functions.
* `memMap_exact`: in every state of every run the counts are exact, allocated frames are unused,
  and no operation panics over a free page.
-/

namespace Linux001.Mm

variable {s s' : Memory} {held : Finset ℕ} {x : ℕ × ℕ} {d p : ℕ}

namespace Exact

/-! ### Copying a table -/

/-- The words of memory when the first `k` entries of the table in the frame `f` have been copied
to the new table in the frame `t`, which the directory entry `toDir` uses: the copies and the
originals of counted frames are read-only. -/
def copiedWord (s : Memory) (f t toDir k a : ℕ) : Word :=
  if a = toDir then entryFor t
  else if a / 1024 = t then
    if a % 1024 < k ∧ present (s.word (f * 1024 + a % 1024)) = true then
      s.word (f * 1024 + a % 1024) &&& ~~~2
    else 0
  else if a / 1024 = f ∧ a % 1024 < k ∧ present (s.word a) = true ∧ 512 ≤ frameOf (s.word a) then
    s.word a &&& ~~~2
  else s.word a

/-- The new table of `copy_page_tables` before the first entry is copied. -/
private theorem exact_newTable (h : Exact s held) {toDir toPage : ℕ} (hto : toDir ∈ userDirs)
    (habs : present (s.word toDir) = false) (hg : s.getFreePage = some (toPage, s')) :
    ∃ t, toPage = t * 4096 ∧ 512 ≤ t ∧ t < 2048 ∧ s.refs held t = 0 ∧
      Exact (s'.store toDir (BitVec.ofNat 32 toPage ||| 7)) held ∧
      ∀ f a, (s'.store toDir (BitVec.ofNat 32 toPage ||| 7)).word a =
        copiedWord s f t toDir 0 a := by
  obtain ⟨t, rfl, hlo, hhi, hrefs, hex, -, hword⟩ := h.getFreePage hg
  have hdir := mem_userDirs.mp hto
  have hnew := hex.mapTable hto (by rw [hword, if_neg (by omega)]; exact habs)
    (Finset.mem_insert_self t held) fun i hi => by rw [hword, if_pos (by omega)]
  rw [Finset.erase_insert (not_mem_of_refs hrefs)] at hnew
  refine ⟨t, rfl, hlo, hhi, hrefs, hnew, fun f a => ?_⟩
  rw [ofNat_or_seven, Memory.store_word, copiedWord, hword]
  simp

/-- One turn of the copying loop. -/
private theorem copyEntry_copied {s₂ : Memory} {f t toDir k nr : ℕ} (hto : toDir ∈ userDirs)
    (hk : k < nr) (hnr : nr ≤ 1024) (hlo : 512 ≤ t) (hhi : t < 2048)
    (hft : f ≠ t) (hf : 1 ≤ f) (hex : Exact s₂ held)
    (hsrc : Source s₂ f k) (hword : ∀ a, s₂.word a = copiedWord s f t toDir k a) :
    Exact (Memory.copyEntry (f * 1024 + k) (t * 1024 + k) s₂) held ∧
      ∀ a, (Memory.copyEntry (f * 1024 + k) (t * 1024 + k) s₂).word a =
        copiedWord s f t toDir (k + 1) a := by
  have hdir := mem_userDirs.mp hto
  have hdirword : s₂.word toDir = entryFor t := by rw [hword, copiedWord, if_pos rfl]
  have hframe : frameOf (s₂.word toDir) = t := by rw [hdirword, frameOf_entryFor (by omega)]
  have hsrcword : s₂.word (f * 1024 + k) = s.word (f * 1024 + k) := by
    rw [hword, copiedWord, if_neg (by omega), if_neg (by omega), if_neg (by omega)]
  have hdstword : s₂.word (t * 1024 + k) = 0 := by
    rw [hword, copiedWord, if_neg (by omega), if_pos (by omega), if_neg (by omega)]
  have hx : ((toDir, k) : ℕ × ℕ) ∈ userEntries := mem_userEntries.mpr ⟨hto, by omega⟩
  obtain ⟨hex', hword'⟩ := hex.copyEntry hx (by rw [hdirword, present_entryFor])
    (by rw [Memory.pte, hframe, hdstword]; rfl) (f := f) hsrc
  dsimp only at hex' hword'
  rw [hframe] at hex' hword'
  refine ⟨hex', fun a => ?_⟩
  rw [hword' a, hsrcword]
  by_cases hpres : present (s.word (f * 1024 + k)) = true
  swap
  · rw [if_neg hpres, hword a]
    have hne : ∀ b, b < k + 1 → present (s.word (f * 1024 + b)) = true → b < k := fun b hb hp => by
      rcases Nat.lt_succ_iff_lt_or_eq.mp hb with hb | rfl
      · exact hb
      · exact absurd hp hpres
    have htab : (a % 1024 < k ∧ present (s.word (f * 1024 + a % 1024)) = true) ↔
        (a % 1024 < k + 1 ∧ present (s.word (f * 1024 + a % 1024)) = true) :=
      ⟨fun hc => ⟨by omega, hc.2⟩, fun hc => ⟨hne _ hc.1 hc.2, hc.2⟩⟩
    have hsrcs : (a / 1024 = f ∧ a % 1024 < k ∧ present (s.word a) = true ∧
        512 ≤ frameOf (s.word a)) ↔ (a / 1024 = f ∧ a % 1024 < k + 1 ∧ present (s.word a) = true ∧
        512 ≤ frameOf (s.word a)) := by
      refine and_congr_right fun hfa => ⟨fun hc => ⟨by omega, hc.2⟩, fun hc => ⟨?_, hc.2⟩⟩
      have ha : f * 1024 + a % 1024 = a := by omega
      exact hne _ hc.1 (by rw [ha]; exact hc.2.1)
    simp only [copiedWord, htab, hsrcs]
  · rw [if_pos hpres]
    by_cases hs : a = f * 1024 + k
    · subst hs
      have h1 : ¬ (f * 1024 + k = toDir) := by omega
      have h2 : ¬ ((f * 1024 + k) / 1024 = t) := by omega
      have h3 : ¬ (f * 1024 + k = t * 1024 + k) := by omega
      have h4 : (f * 1024 + k) / 1024 = f ∧ (f * 1024 + k) % 1024 < k + 1 := by omega
      simp only [copiedWord, hsrcword, h1, h3, h4, hft, hpres, if_false, or_false, true_and]
    · by_cases ht : a = t * 1024 + k
      · subst ht
        have h1 : ¬ (t * 1024 + k = toDir) := by omega
        have h2 : (t * 1024 + k) / 1024 = t := by omega
        have h3 : (t * 1024 + k) % 1024 = k := by omega
        simp only [copiedWord, h1, h2, h3, hpres, or_true, if_true, if_false, Nat.lt_succ_self,
          and_self]
      · have hcond : ¬ (a = f * 1024 + k ∧ 512 ≤ frameOf (s₂.word a) ∨ a = t * 1024 + k) := by
          rintro (hc | hc)
          · exact hs hc.1
          · exact ht hc
        rw [if_neg hcond, hword a]
        by_cases hta : a / 1024 = t ∨ a / 1024 = f
        · have hlt : a % 1024 < k ↔ a % 1024 < k + 1 := by omega
          simp only [copiedWord, hlt]
        · obtain ⟨hta, hfa⟩ := not_or.mp hta
          simp only [copiedWord, hta, hfa, false_and, if_false]

/-- The pairs of directory entries that `copy_page_tables` works on, with the number of entries it
copies: user slots, or the first table of the kernel. -/
def CopyRange (nr fromDir : ℕ) : Prop := fromDir ∈ userDirs ∧ nr = 1024 ∨ fromDir = 0 ∧ nr = 160

private theorem fromTable_ne (h : Exact s held) {nr fromDir t : ℕ} (hrange : CopyRange nr fromDir)
    (hpres : present (s.word fromDir) = true) (ht : 512 ≤ t) (hrefs : s.refs held t = 0) :
    frameOf (s.word fromDir) ≠ t ∧ 1 ≤ frameOf (s.word fromDir) := by
  rcases hrange with ⟨hd, -⟩ | ⟨rfl, -⟩
  · have := (h.table_mem fromDir hd hpres).1
    exact ⟨fun hc => not_usesTable_of_refs hrefs hd ⟨hpres, hc⟩, by omega⟩
  · rw [h.kernel_dir]
    omega

/-- One turn of `copy_page_tables` keeps the counts exact. An absent table is not copied; a present
one is copied to a frame that had no users. -/
theorem copyDir (h : Exact s held) {nr fromDir toDir : ℕ} (hto : toDir ∈ userDirs)
    (hrange : CopyRange nr fromDir) (hc : s.copyDir nr fromDir toDir = .ok (some s')) :
    Exact s' held ∧ present (s.word toDir) = false ∧
      (present (s.word fromDir) = false → s' = s) ∧
      (present (s.word fromDir) = true → ∃ t, 512 ≤ t ∧ t < 2048 ∧ s.refs held t = 0 ∧
        ∀ a, s'.word a = copiedWord s (frameOf (s.word fromDir)) t toDir nr a) := by
  rw [Memory.copyDir] at hc
  split_ifs at hc with habs hpres
  swap
  · obtain rfl := Option.some.inj (Except.ok.inj hc)
    exact ⟨h, by simpa using habs, fun _ => rfl, fun hp => absurd hp hpres⟩
  have habs : present (s.word toDir) = false := by simpa using habs
  cases hg : s.getFreePage with
  | none => simp [hg] at hc
  | some r =>
    obtain ⟨toPage, s₀⟩ := r
    simp only [hg] at hc
    obtain rfl := Option.some.inj (Except.ok.inj hc)
    obtain ⟨t, rfl, hlo, hhi, hrefs, hex, hword⟩ := h.exact_newTable hto habs hg
    obtain ⟨hft, hf⟩ := h.fromTable_ne hrange hpres hlo hrefs
    set f := frameOf (s.word fromDir) with hfdef
    have hnr : nr ≤ 1024 := by rcases hrange with ⟨-, rfl⟩ | ⟨-, rfl⟩ <;> norm_num
    have hpage : t * 4096 / 4 = t * 1024 := by omega
    have hloop := foldl_range (f := fun s i => Memory.copyEntry (f * 1024 + i) (t * 1024 + i) s)
      (n := nr) (fun k s₂ => Exact s₂ held ∧ ∀ a, s₂.word a = copiedWord s f t toDir k a)
      ⟨hex, hword f⟩ <| by
        rintro k hk s₂ ⟨hex₂, hword₂⟩
        refine copyEntry_copied hto hk hnr hlo hhi hft hf hex₂ ?_ hword₂
        rcases hrange with ⟨hd, -⟩ | ⟨rfl, rfl⟩
        · have hd' := mem_userDirs.mp hd
          have hne : fromDir ≠ toDir := fun hc => by
            rw [hc] at hpres
            exact absurd (hpres.symm.trans habs) (by decide)
          have hsame : s₂.word fromDir = s.word fromDir := by
            rw [hword₂, copiedWord, if_neg hne, if_neg (by omega), if_neg (by omega)]
          exact .inl ⟨fromDir, hd, by rw [hsame]; exact hpres, by rw [hsame]⟩
        · exact .inr ⟨by rw [hfdef, h.kernel_dir], hk⟩
    rw [Memory.pageTable_eq, hpage]
    exact ⟨hloop.1, habs, fun hp => absurd hpres (by rw [hp]; decide),
      fun _ => ⟨t, hlo, hhi, hrefs, hloop.2⟩⟩

/-- The outer loop of `copy_page_tables` keeps the counts exact, whether memory runs out or not. -/
theorem copyDirs {nr : ℕ} {r : ℤ} : ∀ {size fromDir toDir : ℕ} {s : Memory},
    Exact s held → (∀ j < size, toDir + j ∈ userDirs) → (∀ j < size, CopyRange nr (fromDir + j)) →
      Memory.copyDirs nr size fromDir toDir s = .ok (r, s') → Exact s' held
  | 0, _, _, s, h, _, _, hc => by
    obtain ⟨-, rfl⟩ := Prod.mk.inj (Except.ok.inj hc)
    exact h
  | size + 1, fromDir, toDir, s, h, hto, hfrom, hc => by
    rw [Memory.copyDirs] at hc
    cases hd : s.copyDir nr fromDir toDir with
    | error e => simp [hd] at hc
    | ok o =>
      cases o with
      | none =>
        simp only [hd] at hc
        obtain ⟨-, rfl⟩ := Prod.mk.inj (Except.ok.inj hc)
        exact h
      | some s₁ =>
        simp only [hd] at hc
        have h₁ := (h.copyDir (by simpa using hto 0 (by omega)) (by simpa using hfrom 0 (by omega))
          hd).1
        refine copyDirs h₁ (fun j hj => ?_) (fun j hj => ?_) hc
        · rw [add_right_comm]
          exact hto (j + 1) (by omega)
        · rw [add_right_comm]
          exact hfrom (j + 1) (by omega)

/-! ### Mapping a page -/

/-- Words outside directories and tables may change freely. -/
theorem of_agree (h : Exact s held) (hmap : s'.memMap = s.memMap)
    (hlow : ∀ k < 2048, s'.word k = s.word k)
    (hpte : ∀ x ∈ userEntries, present (s.word x.1) = true → s'.pte x.1 x.2 = s.pte x.1 x.2) :
    Exact s' held :=
  of_agree_count hlow hpte h
    (fun p hp => ⟨(h.held_mem p hp).1, (h.held_mem p hp).2, h.held_sole p hp⟩)
    (fun p hlo hhi => by rw [hmap, h.count p hlo hhi]) h.sole

theorem copyPage_word (s : Memory) (old q a : ℕ) : (s.copyPage old (q * 4096)).word a =
    if a / 1024 = q then s.word (old / 4 + a % 1024) else s.word a := by
  rw [Memory.copyPage, Nat.mul_div_cancel q (by norm_num : 0 < 4096)]

/-- Words of a mapped page may change freely. -/
theorem of_page (h : Exact s held) (hx : x ∈ userEntries) (hmaps : s.MapsPage p x) (hp : 2 ≤ p)
    (hmap : s'.memMap = s.memMap) (hword : ∀ a, a / 1024 ≠ p → s'.word a = s.word a) :
    Exact s' held := by
  have hlow : ∀ k < 2048, s'.word k = s.word k := fun k hk => hword k (by omega)
  refine h.of_agree hmap hlow fun y hy hpres => ?_
  obtain ⟨hyd, hyi⟩ := mem_userEntries.mp hy
  have hyd' := (mem_userDirs.mp hyd).2
  rw [Memory.pte, Memory.pte, hlow y.1 (by omega)]
  refine hword _ fun hc => ?_
  rw [entry_div hyi] at hc
  exact h.table_not_mapped hyd hpres hx (hc ▸ hmaps)

/-- `put_page` on a page the kernel holds and an address that is not mapped: the page is mapped and
no longer held, or memory for the table runs out and nothing changes. -/
theorem putPage (h : Exact s held) (hp : p ∈ held) {address : Word}
    (hd : dirOf address ∈ userDirs)
    (habs : present (s.word (dirOf address)) = true →
      present (s.pte (dirOf address) (indexOf address)) = false) :
    s.putPage (p * 4096) address = (false, s) ∧ s.getFreePage = none ∨
    ∃ s', s.putPage (p * 4096) address = (true, s') ∧ Exact s' (held.erase p) ∧
      ((present (s.word (dirOf address)) = true ∧ s'.word = (s.store
          (frameOf (s.word (dirOf address)) * 1024 + indexOf address) (entryFor p)).word) ∨
        present (s.word (dirOf address)) = false ∧ ∃ t, 512 ≤ t ∧ t < 2048 ∧ s.refs held t = 0 ∧
          ∀ a, s'.word a = if a = t * 1024 + indexOf address then entryFor p
            else if a = dirOf address then entryFor t
            else if a / 1024 = t then 0 else s.word a) := by
  have hidx := indexOf_lt address
  have hx : ((dirOf address, indexOf address) : ℕ × ℕ) ∈ userEntries :=
    mem_userEntries.mpr ⟨hd, hidx⟩
  rw [Memory.putPage, toNat_index]
  by_cases hpres : present (s.word (dirOf address)) = true
  · simp only [if_pos hpres, Memory.pageTable_eq, ofNat_or_seven]
    have hmap := h.mapPage hx hpres (habs hpres) hp
    dsimp only at hmap
    exact .inr ⟨_, rfl, hmap, .inl ⟨hpres, rfl⟩⟩
  · simp only [if_neg hpres]
    cases hg : s.getFreePage with
    | none => exact .inl ⟨rfl, rfl⟩
    | some r =>
      obtain ⟨tmp, s₀⟩ := r
      have hpres' : present (s.word (dirOf address)) = false := by simpa using hpres
      obtain ⟨t, rfl, hlo, hhi, hrefs, hex, hword⟩ := h.exact_newTable hd hpres' hg
      have hpage : t * 4096 / 4 = t * 1024 := by omega
      have hdir' := mem_userDirs.mp hd
      have hdirword := hword 0 (dirOf address)
      rw [copiedWord, if_pos rfl] at hdirword
      have hframe : frameOf (entryFor t) = t := frameOf_entryFor (by omega)
      have hzero : copiedWord s 0 t (dirOf address) 0 (t * 1024 + indexOf address) = 0 := by
        have hne : t * 1024 + indexOf address ≠ dirOf address := by omega
        rw [copiedWord, if_neg hne, if_pos (entry_div hidx t)]
        simp
      have hmap := hex.mapPage (x := (dirOf address, indexOf address)) (p := p) hx
        (by rw [hdirword, present_entryFor])
        (by dsimp only; rw [Memory.pte, hdirword, hframe, hword 0, hzero]; rfl) hp
      dsimp only at hmap
      rw [hdirword, hframe] at hmap
      simp only [hpage, ofNat_or_seven] at hword hmap ⊢
      refine .inr ⟨_, rfl, hmap, .inr ⟨hpres', t, hlo, hhi, hrefs, fun a => ?_⟩⟩
      rw [Memory.store_word]
      simp only [hword 0, copiedWord, Nat.not_lt_zero, false_and, and_false, if_false]

/-- `un_wp_page` on a present entry: the entry becomes writable in place when its page has no other
user, and otherwise maps a copy of the page in a frame that had no users. -/
theorem unWpPage (h : Exact s held) (hx : x ∈ userEntries) (hdir : present (s.word x.1) = true)
    (hpres : present (s.pte x.1 x.2) = true) :
    Memory.unWpPage (frameOf (s.word x.1) * 1024 + x.2) s = .error .doExit ∧ s.getFreePage = none ∨
    ∃ s', Memory.unWpPage (frameOf (s.word x.1) * 1024 + x.2) s = .ok s' ∧ Exact s' held ∧
      (512 ≤ frameOf (s.pte x.1 x.2) ∧ s.memMap (frameOf (s.pte x.1 x.2) - 512) = 1 ∧
          s'.word = (s.store (frameOf (s.word x.1) * 1024 + x.2) (s.pte x.1 x.2 ||| 2)).word ∨
        ∃ q, 512 ≤ q ∧ q < 2048 ∧ s.refs held q = 0 ∧
          ∀ a, s'.word a = if a = frameOf (s.word x.1) * 1024 + x.2 then entryFor q
            else if a / 1024 = q then s.word (frameOf (s.pte x.1 x.2) * 1024 + a % 1024)
            else s.word a) := by
  obtain ⟨hxd, hxi⟩ := mem_userEntries.mp hx
  have htab := h.table_mem x.1 hxd hdir
  have hpte : s.word (frameOf (s.word x.1) * 1024 + x.2) = s.pte x.1 x.2 := rfl
  rw [Memory.unWpPage, hpte]
  simp only [lowMem_le_pageOf_iff, mapNr_pageOf]
  set old := frameOf (s.pte x.1 x.2) with hold
  by_cases hone : 512 ≤ old ∧ s.memMap (old - 512) = 1
  · rw [if_pos hone]
    exact .inr ⟨_, rfl, h.reflagPage hx hdir hpres (by rw [present_set]; exact hpres)
      (frameOf_set _), .inl ⟨hone.1, hone.2, rfl⟩⟩
  rw [if_neg hone]
  cases hg : s.getFreePage with
  | none => exact .inl ⟨rfl, rfl⟩
  | some r =>
    obtain ⟨newPage, s₁⟩ := r
    obtain ⟨q, rfl, hlo, hhi, hrefs, hex, hmap, hword⟩ := h.getFreePage hg
    have hqold : old ≠ q := fun hc => not_mapsPage_of_refs hrefs hx ⟨hdir, hpres, hc⟩
    have hqtab : ∀ d ∈ userDirs, present (s.word d) = true → frameOf (s.word d) ≠ q :=
      fun d hd hp hc => not_usesTable_of_refs hrefs hd ⟨hp, hc⟩
    have hdirword : s₁.word x.1 = s.word x.1 := by
      have := (mem_userDirs.mp hxd).2
      rw [hword, if_neg (by omega)]
    have hpte₁ : s₁.pte x.1 x.2 = s.pte x.1 x.2 := by
      have := hqtab x.1 hxd hdir
      rw [Memory.pte, hdirword, hword, if_neg (by omega)]
      rfl
    have hframe : frameOf (entryFor q) = q := frameOf_entryFor (by omega)
    have hmove := hex.movePage (v := entryFor q) hx (by rw [hdirword]; exact hdir)
      (by rw [hpte₁]; exact hpres) (Finset.subset_insert q held)
      (fun _ => by rw [hframe]; exact ⟨hlo, Finset.mem_insert_self q held⟩) fun r => by
        rw [hframe, present_entryFor, Finset.mem_insert]
        have hq := not_mem_of_refs hrefs
        constructor
        · exact fun hr => ⟨.inr hr, fun hc => hq (hc.2 ▸ hr)⟩
        · exact fun hr => hr.1.resolve_left fun hc => hr.2 ⟨rfl, hc.symm⟩
    rw [hpte₁, hdirword, ← hold] at hmove
    -- The decrement of an `unsigned short` that is at least one.
    have hdec : 512 ≤ old → (s₁.memMap (old - 512) + 65535) % 65536 =
        s₁.memMap (old - 512) - 1 := by
      intro hlo'
      have hpos := h.one_le_memMap hx hdir hpres hlo'
      have hlt := h.refs_lt hlo'
      rw [← h.count old hlo' (h.page_lt x hx hdir hpres)] at hlt
      rw [← hold] at hpos
      rw [hmap, Function.update_of_ne (by omega)]
      omega
    have hstate : (if 512 ≤ old then s₁.setMap (old - 512) ((s₁.memMap (old - 512) + 65535) % 65536)
        else s₁) = if 512 ≤ old then s₁.setMap (old - 512) (s₁.memMap (old - 512) - 1) else s₁ := by
      by_cases hlo' : 512 ≤ old
      · rw [if_pos hlo', if_pos hlo', hdec hlo']
      · rw [if_neg hlo', if_neg hlo']
    simp only [hstate, ofNat_or_seven]
    refine .inr ⟨_, rfl, ?_, .inr ⟨q, hlo, hhi, hrefs, fun a => ?_⟩⟩
    · have hdirword' : ((if 512 ≤ old then s₁.setMap (old - 512) (s₁.memMap (old - 512) - 1)
          else s₁).store (frameOf (s.word x.1) * 1024 + x.2) (entryFor q)).word x.1 =
            s.word x.1 := by
        have hne : x.1 ≠ frameOf (s.word x.1) * 1024 + x.2 := by
          have := (mem_userDirs.mp hxd).2
          omega
        rw [Memory.store_word_of_ne _ hne, ← hdirword]
        split_ifs <;> rfl
      refine hmove.of_page (p := q) hx ⟨?_, ?_, ?_⟩ (by omega) rfl fun b hb => ?_
      · rw [hdirword']
        exact hdir
      · rw [Memory.pte, hdirword', Memory.store_word_self, present_entryFor]
      · rw [Memory.pte, hdirword', Memory.store_word_self, hframe]
      · rw [copyPage_word, if_neg hb]
    · have hword' : (if 512 ≤ old then s₁.setMap (old - 512) (s₁.memMap (old - 512) - 1)
          else s₁).word = s₁.word := by split_ifs <;> rfl
      have hdst : (frameOf (s.word x.1) * 1024 + x.2) / 1024 ≠ q := by
        rw [entry_div hxi]
        exact hqtab x.1 hxd hdir
      have hsrc : old * 1024 + a % 1024 ≠ frameOf (s.word x.1) * 1024 + x.2 := fun hc => by
        have hmod : a % 1024 < 1024 := Nat.mod_lt _ (by norm_num)
        have hdiv := congrArg (· / 1024) hc
        rw [entry_div hmod, entry_div hxi] at hdiv
        exact h.table_not_mapped hxd hdir hx ⟨hdir, hpres, hdiv⟩
      have hold' : (old * 1024 + a % 1024) / 1024 ≠ q := by
        rw [entry_div (Nat.mod_lt _ (by norm_num))]
        exact hqold
      rw [copyPage_word, Memory.pageTable_eq, ← hold, Memory.store_word, Memory.store_word, hword',
        if_neg hsrc, hword, if_neg hold']
      by_cases hq : a / 1024 = q
      · have hne : a ≠ frameOf (s.word x.1) * 1024 + x.2 := fun hc => hdst (hc ▸ hq)
        rw [if_pos hq, if_neg hne, if_pos hq]
      · rw [if_neg hq, if_neg hq, hword, if_neg hq]

end Exact

/-! ### Runs -/

/-- Physical memory together with the frames that the kernel holds for its own use. -/
structure Kernel where
  mem : Memory
  held : Finset ℕ

/-- The operations of a run: the calls of the functions of `mm/memory.c`. Frames held by the kernel
are given by their numbers, and `unWpPage` takes the position of a table entry. -/
inductive Op
  | getFreePage
  | freePage (p : ℕ)
  | putPage (p : ℕ) (address : Word)
  | copyPageTables (from' to' size : Word)
  | freePageTables (from' size : Word)
  | unWpPage (d i : ℕ)
  | doWpPage (address : Word)
  | doNoPage (address : Word)

namespace Kernel

variable (k : Kernel)

/-- The entry of a linear address is present in its directory and table. -/
def Mapped (address : Word) : Prop :=
  present (k.mem.word (dirOf address)) = true ∧
    present (k.mem.pte (dirOf address) (indexOf address)) = true

/-- When an operation may be called. Pages are given back, or mapped, by the kernel that holds
them; a page is mapped at, and the missing-page handler runs for, an address of a user slot that is
not mapped; the write-protection handlers run for a mapped one; and tables are copied and released
for ranges of user slots, or copied from the first table of the kernel. -/
def Admissible : Op → Prop
  | .getFreePage => True
  | .freePage p => p ∈ k.held
  | .putPage p address => p ∈ k.held ∧ 16 ≤ dirOf address ∧ ¬ k.Mapped address
  | .copyPageTables from' to' size =>
    16 ≤ dirOf to' ∧ dirOf to' + Memory.dirCount size ≤ 1024 ∧
      (16 ≤ dirOf from' ∧ dirOf from' + Memory.dirCount size ≤ 1024 ∨
        from' = 0 ∧ Memory.dirCount size ≤ 1)
  | .freePageTables from' size => 16 ≤ dirOf from' ∧ dirOf from' + Memory.dirCount size ≤ 1024
  | .unWpPage d i => d ∈ userDirs ∧ i < 1024 ∧ present (k.mem.word d) = true ∧
      present (k.mem.pte d i) = true
  | .doWpPage address => 16 ≤ dirOf address ∧ k.Mapped address
  | .doNoPage address => 16 ≤ dirOf address ∧ ¬ k.Mapped address

/-- The effect of an operation. A page that `get_free_page` returns to the kernel is held by it
until it is given back or mapped. -/
def perform : Op → Except Halt Kernel
  | .getFreePage =>
    match k.mem.getFreePage with
    | none => .ok k
    | some (page, m) => .ok ⟨m, insert (page / 4096) k.held⟩
  | .freePage p => (k.mem.freePage (p * 4096)).map fun m => ⟨m, k.held.erase p⟩
  | .putPage p address =>
    match k.mem.putPage (p * 4096) address with
    | (true, m) => .ok ⟨m, k.held.erase p⟩
    | (false, m) => .ok ⟨m, k.held⟩
  | .copyPageTables from' to' size =>
    (k.mem.copyPageTables from' to' size).map fun r => ⟨r.2, k.held⟩
  | .freePageTables from' size => (k.mem.freePageTables from' size).map fun m => ⟨m, k.held⟩
  | .unWpPage d i =>
    (k.mem.unWpPage (frameOf (k.mem.word d) * 1024 + i)).map fun m => ⟨m, k.held⟩
  | .doWpPage address => (k.mem.doWpPage address).map fun m => ⟨m, k.held⟩
  | .doNoPage address => (k.mem.doNoPage address).map fun m => ⟨m, k.held⟩

/-- An operation that may be called and returns. -/
def Step (k : Kernel) (op : Op) (k' : Kernel) : Prop := k.Admissible op ∧ k.perform op = .ok k'

/-- The kernel after `setup_paging`, holding no page yet. -/
def boot (other : ℕ → Word) : Kernel := ⟨Memory.boot other, ∅⟩

end Kernel

theorem Exact.boot (other : ℕ → Word) : Exact (Memory.boot other) ∅ := by
  have hdir : ∀ d ∈ userDirs, (Memory.boot other).word d = 0 := fun d hd => by
    have := mem_userDirs.mp hd
    simp only [Memory.boot]
    rw [if_neg (by omega), if_neg (by omega), if_pos (by omega)]
  have habs : ∀ d ∈ userDirs, present ((Memory.boot other).word d) = false := fun d hd => by
    rw [hdir d hd]
    rfl
  have hnot : ∀ d ∈ userDirs, ¬ present ((Memory.boot other).word d) = true := fun d hd => by
    simp [habs d hd]
  refine ⟨fun d hd hp => absurd hp (hnot d hd),
    fun x hx hp => absurd hp (hnot x.1 (mem_userEntries.mp hx).1), fun p hp => by simp at hp,
    fun p _ _ => ?_, fun d hd hp => absurd hp (hnot d hd), fun p hp => by simp at hp,
    fun x hx y _ p _ hm => absurd hm.1 (hnot x.1 (mem_userEntries.mp hx).1), ?_, fun i hi => ?_⟩
  · have hpages : userEntries.filter ((Memory.boot other).MapsPage p) = ∅ :=
      Finset.filter_eq_empty_iff.mpr fun x hx hm => hnot x.1 (mem_userEntries.mp hx).1 hm.1
    have htables : userDirs.filter ((Memory.boot other).UsesTable p) = ∅ :=
      Finset.filter_eq_empty_iff.mpr fun d hd hm => hnot d hd hm.1
    rw [Memory.refs, hpages, htables]
    simp [Memory.boot]
  · simp [Memory.boot, frameOf]
  · simp only [Memory.boot]
    rw [if_neg (by omega), if_neg (by omega), if_neg (by omega), if_pos (by omega), frameOf,
      BitVec.toNat_ofNat, Nat.mod_eq_of_lt (by omega)]
    omega

/-- The kernel gives back a page it holds. -/
theorem Exact.unhold (h : Exact s held) (hp : p ∈ held) :
    Memory.freePage (p * 4096) s = .ok (s.setMap (p - 512) 0) ∧
      Exact (s.setMap (p - 512) 0) (held.erase p) := by
  obtain ⟨hlo, hhi⟩ := h.held_mem p hp
  have hone : s.memMap (p - 512) = 1 := by rw [h.count p hlo hhi, h.held_sole p hp]
  have hframe : frameOf (entryFor p) = p := frameOf_entryFor (by omega)
  have hrefs (q : ℕ) : (s.setMap (p - 512) 0).refs (held.erase p) q + (if q = p then 1 else 0) =
      s.refs held q := by
    change (userEntries.filter (s.MapsPage q)).card + (userDirs.filter (s.UsesTable q)).card +
      (if q ∈ held.erase p then 1 else 0) + _ = _
    rw [Memory.refs]
    by_cases hq : q = p
    · subst hq
      simp [hp]
    · simp [hq, Finset.mem_erase]
  refine ⟨?_, h.table_mem, h.page_lt, fun q hq => h.held_mem q (Finset.mem_of_mem_erase hq),
    fun q hqlo hqhi => ?_, fun d hd hpres => ?_, fun q hq => ?_, h.index, h.kernel_dir,
    h.kernel_table⟩
  · have hpage : pageOf (entryFor p) = p * 4096 := by rw [pageOf_eq, hframe]
    rw [← hpage, Exact.freePage_pageOf (by omega) fun _ => by rw [hframe, hone], hframe,
      if_pos hlo, hone]
  · have hq := hrefs q
    rw [← h.count q hqlo hqhi] at hq
    rw [Memory.setMap_memMap]
    by_cases hqp : q = p
    · rw [if_pos (by rw [hqp])]
      rw [if_pos hqp, hqp, hone] at hq
      rw [hqp]
      exact (Nat.succ.inj hq).symm
    · rw [if_neg hqp, add_zero] at hq
      have hne : q - 512 ≠ p - 512 := by omega
      rw [if_neg hne, hq]
  · have hq := hrefs (frameOf (s.word d))
    have hne : frameOf (s.word d) ≠ p := fun hc => h.table_not_held hd hpres (hc ▸ hp)
    rw [if_neg hne, h.sole d hd hpres] at hq
    exact hq
  · have hq' := hrefs q
    rw [if_neg (Finset.ne_of_mem_erase hq), h.held_sole q (Finset.mem_of_mem_erase hq)] at hq'
    exact hq'

/-- The loop of `copy_page_tables` panics in one way only. -/
theorem Memory.copyDirs_error {nr : ℕ} {e : Halt} : ∀ {size fromDir toDir : ℕ} {s : Memory},
    Memory.copyDirs nr size fromDir toDir s = .error e → e = .alreadyExist
  | 0, _, _, _, hc => by simp [Memory.copyDirs] at hc
  | size + 1, fromDir, toDir, s, hc => by
    rw [Memory.copyDirs] at hc
    cases hd : s.copyDir nr fromDir toDir with
    | error e' =>
      simp only [hd, Except.error.injEq] at hc
      rw [Memory.copyDir] at hd
      split_ifs at hd
      · rw [← hc]
        exact (Except.error.inj hd).symm
      · cases hg : s.getFreePage <;> simp [hg] at hd
    | ok o =>
      cases o with
      | none => simp [hd] at hc
      | some s₁ =>
        simp only [hd] at hc
        exact copyDirs_error hc

namespace Kernel

variable {k : Kernel}

private theorem copyPageTables_spec (h : Exact k.mem k.held) {from' to' size : Word}
    (ha : k.Admissible (.copyPageTables from' to' size)) :
    (∃ k', k.perform (.copyPageTables from' to' size) = .ok k' ∧ Exact k'.mem k'.held) ∨
      ∃ e, k.perform (.copyPageTables from' to' size) = .error e ∧ e ≠ .freeFree := by
  obtain ⟨hto, htolt, hfrom⟩ := ha
  rw [perform, Memory.copyPageTables]
  split_ifs with halign hzero
  · exact .inr ⟨_, rfl, by decide⟩
  all_goals
    have htodirs : ∀ j < Memory.dirCount size, dirOf to' + j ∈ userDirs := fun j hj =>
      mem_userDirs.mpr ⟨by omega, by omega⟩
  · cases hc : Memory.copyDirs 0xA0 (Memory.dirCount size) (dirOf from') (dirOf to') k.mem with
    | error e => exact .inr ⟨e, rfl, by rw [Memory.copyDirs_error hc]; decide⟩
    | ok r =>
      refine .inl ⟨_, rfl, Exact.copyDirs h htodirs (fun j hj => ?_) hc⟩
      have hdir : dirOf from' = 0 := by rw [hzero]; rfl
      rcases hfrom with hf | ⟨-, hle⟩
      · omega
      · exact .inr ⟨by omega, rfl⟩
  · cases hc : Memory.copyDirs 1024 (Memory.dirCount size) (dirOf from') (dirOf to') k.mem with
    | error e => exact .inr ⟨e, rfl, by rw [Memory.copyDirs_error hc]; decide⟩
    | ok r =>
      refine .inl ⟨_, rfl, Exact.copyDirs h htodirs (fun j hj => ?_) hc⟩
      rcases hfrom with hf | ⟨hf, -⟩
      · exact .inl ⟨mem_userDirs.mpr ⟨by omega, by omega⟩, rfl⟩
      · exact absurd hf hzero

private theorem unWpPage_spec (h : Exact k.mem k.held) {x : ℕ × ℕ} (hx : x ∈ userEntries)
    (hdir : present (k.mem.word x.1) = true) (hpres : present (k.mem.pte x.1 x.2) = true) :
    (∃ m, k.mem.unWpPage (frameOf (k.mem.word x.1) * 1024 + x.2) = .ok m ∧ Exact m k.held) ∨
      ∃ e, k.mem.unWpPage (frameOf (k.mem.word x.1) * 1024 + x.2) = .error e ∧ e ≠ .freeFree := by
  rcases h.unWpPage hx hdir hpres with ⟨he, -⟩ | ⟨m, hm, hex, -⟩
  · exact .inr ⟨_, he, by decide⟩
  · exact .inl ⟨m, hm, hex⟩

private theorem dirOf_mem {address : Word} (h : 16 ≤ dirOf address) : dirOf address ∈ userDirs := by
  have := address.isLt
  rw [mem_userDirs, dirOf_eq] at *
  omega

private theorem absent_of_not_mapped {address : Word} (h : ¬ k.Mapped address)
    (hp : present (k.mem.word (dirOf address)) = true) :
    present (k.mem.pte (dirOf address) (indexOf address)) = false := by
  rw [Mapped, not_and] at h
  simpa using h hp

/-- Every operation keeps the counts exact, or does not return for another reason than a free page
being freed. -/
theorem perform_spec (h : Exact k.mem k.held) : ∀ {op : Op}, k.Admissible op →
    (∃ k', k.perform op = .ok k' ∧ Exact k'.mem k'.held) ∨
      ∃ e, k.perform op = .error e ∧ e ≠ .freeFree
  | .getFreePage, _ => by
    rw [perform]
    cases hg : k.mem.getFreePage with
    | none => exact .inl ⟨k, rfl, h⟩
    | some r =>
      obtain ⟨page, m⟩ := r
      obtain ⟨p, rfl, -, -, -, hex, -⟩ := h.getFreePage hg
      refine .inl ⟨_, rfl, ?_⟩
      rw [Nat.mul_div_cancel p (by norm_num : 0 < 4096)]
      exact hex
  | .freePage p, hp => by
    obtain ⟨hfree, hex⟩ := h.unhold hp
    rw [perform, hfree]
    exact .inl ⟨_, rfl, hex⟩
  | .putPage p address, ⟨hp, hd, hnot⟩ => by
    rw [perform]
    rcases h.putPage hp (dirOf_mem hd) (absent_of_not_mapped hnot) with
      ⟨hput, -⟩ | ⟨m, hput, hex, -⟩
    · rw [hput]
      exact .inl ⟨_, rfl, h⟩
    · rw [hput]
      exact .inl ⟨_, rfl, hex⟩
  | .copyPageTables from' to' size, ha => copyPageTables_spec h ha
  | .freePageTables from' size, ⟨hlo, hhi⟩ => by
    rw [perform]
    by_cases halign : from'.toNat % 2 ^ 22 = 0
    · obtain ⟨m, hm, hex, -⟩ := h.freePageTables_ok halign hlo hhi
      rw [hm]
      exact .inl ⟨_, rfl, hex⟩
    · have hand : from' &&& 0x3fffff ≠ 0 := fun hc => halign ((toNat_and_align from').mp hc)
      rw [Memory.freePageTables, if_pos hand]
      exact .inr ⟨_, rfl, by decide⟩
  | .unWpPage d i, ⟨hd, hi, hdir, hpres⟩ => by
    rw [perform]
    rcases unWpPage_spec h (x := (d, i)) (mem_userEntries.mpr ⟨hd, hi⟩) hdir hpres with
      ⟨m, hm, hex⟩ | ⟨e, he, hne⟩
    · dsimp only at hm
      rw [hm]
      exact .inl ⟨_, rfl, hex⟩
    · dsimp only at he
      rw [he]
      exact .inr ⟨e, rfl, hne⟩
  | .doWpPage address, ⟨hd, hdir, hpres⟩ => by
    rw [perform, Memory.doWpPage, Memory.entryOf_eq]
    rcases unWpPage_spec h (x := (dirOf address, indexOf address))
      (mem_userEntries.mpr ⟨dirOf_mem hd, indexOf_lt address⟩) hdir hpres with
      ⟨m, hm, hex⟩ | ⟨e, he, hne⟩
    · dsimp only at hm
      rw [hm]
      exact .inl ⟨_, rfl, hex⟩
    · dsimp only at he
      rw [he]
      exact .inr ⟨e, rfl, hne⟩
  | .doNoPage address, ⟨hd, hnot⟩ => by
    rw [perform, Memory.doNoPage]
    cases hg : k.mem.getFreePage with
    | none => exact .inr ⟨_, rfl, by decide⟩
    | some r =>
      obtain ⟨page, m⟩ := r
      obtain ⟨p, rfl, hlo, -, hrefs, hex, -, hword⟩ := h.getFreePage hg
      have hdirs := dirOf_mem hd
      have hdirword : m.word (dirOf address) = k.mem.word (dirOf address) := by
        have hlt := (mem_userDirs.mp hdirs).2
        rw [hword, if_neg (by omega)]
      have habs : present (m.word (dirOf address)) = true →
          present (m.pte (dirOf address) (indexOf address)) = false := fun hp => by
        rw [hdirword] at hp
        have htab : frameOf (k.mem.word (dirOf address)) ≠ p := fun hc =>
          Exact.not_usesTable_of_refs hrefs hdirs ⟨hp, hc⟩
        rw [Memory.pte, hdirword, hword, entry_div (indexOf_lt address), if_neg htab]
        exact absent_of_not_mapped hnot hp
      dsimp only
      rcases hex.putPage (Finset.mem_insert_self p k.held) hdirs habs with
        ⟨hput, -⟩ | ⟨m', hput, hex', -⟩
      · rw [hput]
        exact .inr ⟨_, rfl, by decide⟩
      · rw [hput]
        refine .inl ⟨_, rfl, ?_⟩
        rw [Finset.erase_insert (Exact.not_mem_of_refs hrefs)] at hex'
        exact hex'

/-- The counts are exact in every state of every run from the start of paging. -/
theorem exact_of_runs {other : ℕ → Word} {ops : List Op} (h : Runs Step (boot other) ops k) :
    Exact k.mem k.held := by
  refine h.invariant (I := fun k => Exact k.mem k.held) (fun k op k' hk hstep => ?_)
    (Exact.boot other)
  rcases perform_spec hk hstep.1 with ⟨k₁, hk₁, hex⟩ | ⟨e, he, -⟩
  · obtain rfl := Except.ok.inj (hk₁.symm.trans hstep.2)
    exact hex
  · exact absurd (he.symm.trans hstep.2) (by simp)

end Kernel

/-- **Exact page reference counts.** After every run of the functions of `mm/memory.c` from the
start of paging, the counter of every frame between `LOW_MEM` and `HIGH_MEMORY` is the number of its
users; `get_free_page` returns only frames without users; and no operation that may be called next
ends in the panic over a free page. -/
theorem memMap_exact {other : ℕ → Word} {ops : List Op} {k : Kernel}
    (h : Runs Kernel.Step (Kernel.boot other) ops k) :
    (∀ p, lowMem ≤ p * 4096 → p * 4096 < highMemory →
      k.mem.memMap (mapNr (p * 4096)) =
        (userEntries.filter (k.mem.MapsPage p)).card +
          (userDirs.filter (k.mem.UsesTable p)).card + if p ∈ k.held then 1 else 0) ∧
    (∀ page m, k.mem.getFreePage = some (page, m) →
      k.mem.memMap (mapNr page) = 0 ∧ k.mem.refs k.held (page / 4096) = 0) ∧
    ∀ op, k.Admissible op → k.perform op ≠ .error .freeFree := by
  have hex := Kernel.exact_of_runs h
  have hnr (p : ℕ) : mapNr (p * 4096) = p - 512 := by
    rw [mapNr, lowMem, Nat.shiftRight_eq_div_pow]
    omega
  refine ⟨fun p hlo hhi => ?_, fun page m hg => ?_, fun op hop => ?_⟩
  · rw [lowMem] at hlo
    rw [highMemory] at hhi
    rw [hnr]
    exact hex.count p (by omega) (by omega)
  · obtain ⟨p, rfl, hlo, hhi, hrefs, -⟩ := hex.getFreePage hg
    rw [hnr, hex.count p hlo hhi, Nat.mul_div_cancel p (by norm_num : 0 < 4096)]
    exact ⟨hrefs, hrefs⟩
  · rcases Kernel.perform_spec hex hop with ⟨k', hk', -⟩ | ⟨e, he, hne⟩
    · rw [hk']
      simp
    · rw [he]
      simpa using hne

/-- The kernel allocates a page and task 1 then touches the first page of its slot: the counter of
the last frame is one, for the kernel. -/
theorem memMap_exact_two_allocations :
    ∃ k, Runs Kernel.Step (Kernel.boot fun _ => 0) [.doNoPage 0x4000000, .getFreePage] k ∧
      k.mem.memMap (mapNr (2047 * 4096)) =
        (userEntries.filter (k.mem.MapsPage 2047)).card +
          (userDirs.filter (k.mem.UsesTable 2047)).card + if 2047 ∈ k.held then 1 else 0 := by
  have hrun : ∃ k, Runs Kernel.Step (Kernel.boot fun _ => 0)
      [.doNoPage 0x4000000, .getFreePage] k := by
    refine ⟨_, .cons (.cons .nil ⟨trivial, rfl⟩) ⟨⟨by decide, fun hm => ?_⟩, rfl⟩⟩
    exact absurd hm.1 (by decide)
  obtain ⟨k, hk⟩ := hrun
  exact ⟨k, hk, (memMap_exact hk).1 2047 (by decide) (by decide)⟩

end Linux001.Mm
