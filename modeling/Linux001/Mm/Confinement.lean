import Linux001.Lib.Runs
import Linux001.Mm.Slots
import Linux001.Mm.Transitions

/-!
# Processes stay inside their slot

What a process can reach through its segment registers is decided by the bases and the limits of its
two descriptors. The bases are those of its slot in every run. The limit of the code segment is
computed from the size of the text in the header of the program, by rounding up, subtracting one and
shifting, and the checks of `do_execve` are on sums that wrap.

## Main definitions

* `Desc.size`, `Desc.address`: the bytes of a segment, and their linear addresses.
* `Desc.Confined`, `Task.Confined`: the segments lie in the slot.
* `Task.Placed`: what holds of the descriptors of every task.

## Main results

* `System.confined_iff`: after `change_ldt` a process is confined to its slot if and only if the
  text of its program is not empty and not larger than the slot.
* `System.runs_load`: every accepted header is that of a program which some process loads.
* `System.not_confined`: a header without text is accepted, and gives a code segment of 4 GB.
-/

namespace Linux001.Mm

/-! ### Segments in a slot -/

namespace Desc

/-- The number of bytes of a segment. -/
def size (d : Desc) : ℕ :=
  if d.granular then d.limitField.toNat * 4096 + 4096 else d.limitField.toNat + 1

/-- The linear address of an offset. -/
def address (d : Desc) (off : ℕ) : Word := d.getBase + BitVec.ofNat 32 off

/-- A segment begins where the slot `n` does and is not larger, and all that is reached through it
lies in the slot. -/
structure Confined (d : Desc) (n : ℕ) : Prop where
  base : d.getBase.toNat = n * 0x4000000
  size_le : d.size ≤ 0x4000000
  reach : ∀ off < d.size,
    n * 0x4000000 ≤ (d.address off).toNat ∧ (d.address off).toNat < (n + 1) * 0x4000000

variable {d : Desc} {n : ℕ}

/-- A segment with the base of a slot is confined to it if it is not too large. -/
theorem confined_iff_size_le (hn : n < 64) (hbase : d.getBase = linear n 0) :
    d.Confined n ↔ d.size ≤ 0x4000000 := by
  have hnat : d.getBase.toNat = n * 0x4000000 := by
    rw [hbase, toNat_linear hn (by norm_num), add_zero]
  refine ⟨Confined.size_le, fun hsize => ⟨hnat, hsize, fun off hoff => ?_⟩⟩
  have haddress : (d.address off).toNat = n * 0x4000000 + off := by
    rw [address, BitVec.toNat_add, hnat, BitVec.toNat_ofNat]
    omega
  omega

/-- The size that `set_limit` gives a segment; a limit of 0 gives it all of the address space. -/
theorem size_setLimit (hd : d.granular = true) (limit : Word) :
    (d.setLimit limit).size = (limit - 1).toNat / 4096 * 4096 + 4096 := by
  rw [size, granular_setLimit, if_pos hd, setLimit,
    limitField_setLimitField _ _ (getLsbD_pages limit), BitVec.toNat_ushiftRight,
    Nat.shiftRight_eq_div_pow]

end Desc

/-- The code limit of `change_ldt` is at most the size of a slot for these sizes of a text, and no
others: it is 0 for an empty text, and for one in the last page of the address space. -/
theorem codeLimit_le_iff (text : Word) :
    (((text + 4096 - 1) &&& 0xfffff000) - 1).toNat / 4096 * 4096 + 4096 ≤ 0x4000000 ↔
      0 < text.toNat ∧ text.toNat ≤ 0x4000000 := by
  have hlt := text.isLt
  have hpage : ((text + 4096 - 1) &&& 0xfffff000).toNat =
      (text.toNat + 4095) % 2 ^ 32 / 4096 * 4096 := by
    have hsum : text + 4096 - 1 = text + 4095 := by bv_omega
    have hpage := pageOf_eq (text + 4095)
    rw [pageOf, BitVec.and_comm, frameOf, BitVec.toNat_add] at hpage
    rw [hsum, hpage]
    rfl
  rw [BitVec.toNat_sub, hpage, show (1 : Word).toNat = 1 from rfl]
  omega

/-- What is reached through `cs`, and through `ds`, `es` and `ss`, lies in the slot. -/
def Task.Confined (t : Task) (n : ℕ) : Prop := t.code.Confined n ∧ t.data.Confined n

/-! ### Every run -/

/-- The descriptors of a task in the slot `n`, and the header of the program that it is about to
load. -/
structure Task.Placed (t : Task) (n : ℕ) : Prop where
  lt : n < nrTasks
  codeBase : t.code.getBase = linear n 0
  dataBase : t.data.getBase = linear n 0
  codeGranular : t.code.granular = true
  dataGranular : t.data.granular = true
  header : ∀ args, t.args = some args → ∃ ex size, Exec.refused ex size = false ∧
    ex.text = args.text

namespace Task.Placed

variable {t : Task} {n : ℕ}

/-- Process numbers, state and page do not matter. -/
theorem of_eq {u : Task} (h : t.Placed n) (hcode : u.code = t.code) (hdata : u.data = t.data)
    (hargs : u.args = t.args ∨ u.args = none) : u.Placed n where
  lt := h.lt
  codeBase := hcode ▸ h.codeBase
  dataBase := hdata ▸ h.dataBase
  codeGranular := hcode ▸ h.codeGranular
  dataGranular := hdata ▸ h.dataGranular
  header args hu := by
    rcases hargs with hargs | hargs
    · exact h.header args (hargs ▸ hu)
    · rw [hargs] at hu
      cases hu

theorem child (h : t.Placed n) {nr : ℕ} (hnr : nr < nrTasks) (page : ℕ) (pid : ℤ) :
    (t.child nr page pid).Placed nr where
  lt := hnr
  codeBase := (Desc.getBase_setBase _ _).trans (by rw [linear, add_zero])
  dataBase := (Desc.getBase_setBase _ _).trans (by rw [linear, add_zero])
  codeGranular := (Desc.granular_setBase _ _).trans h.codeGranular
  dataGranular := (Desc.granular_setBase _ _).trans h.dataGranular
  header _ hu := nomatch hu

theorem newSegments (h : t.Placed n) (text : Word) : (System.newSegments t text).Placed n where
  lt := h.lt
  codeBase := by simp [System.newSegments, h.codeBase]
  dataBase := by simp [System.newSegments, h.codeBase]
  codeGranular := by simp [System.newSegments, h.codeGranular]
  dataGranular := by simp [System.newSegments, h.dataGranular]
  header _ hu := nomatch hu

/-- A program is confined to the slot if its text is. -/
theorem confined_newSegments (h : t.Placed n) (text : Word) :
    (System.newSegments t text).Confined n ↔ 0 < text.toNat ∧ text.toNat ≤ 0x4000000 := by
  have hnew := h.newSegments text
  have hdata : (System.newSegments t text).data.size ≤ 0x4000000 := by
    rw [System.newSegments, Desc.size_setLimit (by simpa using h.dataGranular)]
    decide
  rw [Task.Confined, Desc.confined_iff_size_le h.lt hnew.codeBase, Desc.confined_iff_size_le h.lt
    hnew.dataBase,
    and_iff_left hdata, System.newSegments, Desc.size_setLimit (by simpa using h.codeGranular),
    codeLimit_le_iff]

end Task.Placed

namespace System

/-- A call that returns. No process is trusted to have a well-formed header, or to keep to its
address space. -/
def Returns (s : System) (e : Event) (s' : System) : Prop := s.perform e = .ok s'

/-- Every task has the segments of its slot. -/
def Placed (s : System) : Prop := ∀ n t, s.task n = some t → t.Placed n

variable {s s' : System}

/-- The empty slot that is found is one of the 63. -/
theorem mem_of_findEmpty {nr : ℕ} (h : s.findEmpty = some nr) :
    1 ≤ nr ∧ nr < nrTasks ∧ s.task nr = none := by
  have hmem := List.mem_range'_1.mp (List.mem_of_find?_eq_some h)
  exact ⟨hmem.1, by simpa [nrTasks] using hmem.2, by simpa using List.find?_some h⟩

namespace Placed

theorem update (h : Placed s) {n : ℕ} {o : Option Task} (ho : ∀ u, o = some u → u.Placed n)
    (htask : s'.task = Function.update s.task n o) : Placed s' := fun k u hu => by
  rw [htask, Function.update_apply] at hu
  split_ifs at hu with hk
  · exact hk ▸ ho u hu
  · exact h k u hu

theorem orphans (h : Placed s) (pid : ℤ) : Placed { s with task := System.orphans pid s } :=
  fun n u hu => by
    obtain ⟨v, hv, rfl⟩ := Option.map_eq_some_iff.mp hu
    rw [Task.orphaned]
    split_ifs
    · exact (h n v hv).of_eq rfl rfl (.inl rfl)
    · exact h n v hv

theorem change (h : Placed s) {n : ℕ} {t : Task} (ht : s.task n = some t)
    {c : Call} (hc : Change n t c s s') : Placed s' := by
  cases hc with
  | keep htask | search _ htask => exact fun k u hu => h k u (htask ▸ hu)
  | fork nr page _ hnr htask =>
    refine h.update (fun u hu => ?_) htask
    rw [← Option.some.inj hu]
    exact (h n t ht).child (mem_of_findEmpty hnr).2.1 page _
  | arguments page ex size _ _ _ hex htask =>
    refine h.update (fun u hu => ?_) htask
    obtain rfl := Option.some.inj hu
    have hp := h n t ht
    exact ⟨hp.lt, hp.codeBase, hp.dataBase, hp.codeGranular, hp.dataGranular,
      fun args hargs => ⟨ex, size, hex, congrArg Args.text (Option.some.inj hargs)⟩⟩
  | load args _ _ htask =>
    refine h.update (fun u hu => ?_) htask
    rw [← Option.some.inj hu]
    exact (h n t ht).newSegments args.text
  | exit _ _ _ _ htask =>
    refine (h.orphans t.pid).update (fun u hu => ?_) htask
    rw [← Option.some.inj hu]
    exact (h n t ht).of_eq rfl rfl (.inr rfl)
  | leave _ i _ _ _ htask =>
    exact (h.orphans t.pid).update (o := none) (fun _ hu => nomatch hu) htask
  | reap i j p pid _ _ _ _ _ _ htask =>
    exact h.update (n := j) (o := none) (fun _ hu => nomatch hu) htask

/-- The segments are those of the slots in every state of every run. -/
theorem of_runs {other : ℕ → Word} {es : List Event} (h : Runs Returns (boot other) es s) :
    Placed s := by
  refine h.invariant (I := Placed) (fun s e s' hs hstep => ?_) fun n t ht => ?_
  · cases ht : s.task e.slot with
    | none =>
      rw [Returns, perform, ht] at hstep
      exact Except.ok.inj hstep ▸ hs
    | some t => exact hs.change ht (perform_change ht hstep)
  · have hslot := (Inv.boot other).slot n t ht
    refine ⟨hslot.lt, hslot.codeBase, hslot.dataBase, hslot.codeGranular, hslot.dataGranular,
      fun args hargs => ?_⟩
    rw [boot] at ht
    dsimp only at ht
    split_ifs at ht
    rw [← Option.some.inj ht] at hargs
    cases hargs

end Placed

/-- The task that has loaded its program. -/
theorem perform_load {n : ℕ} {t : Task} {args : Args} (ht : s.task n = some t)
    (hargs : t.args = some args) (hload : s.perform ⟨n, .load⟩ = .ok s') :
    s'.task n = some (newSegments t args.text) := by
  rw [perform_eq ht] at hload
  dsimp only [call] at hload
  rw [hargs] at hload
  obtain ⟨m, -, hload⟩ := bind_eq_ok.mp hload
  rw [← Except.ok.inj hload]
  exact Function.update_self _ _ _

/-- **Confinement to the slot.** In any run, let a process load the program whose header `do_execve`
has accepted. Its segments lie in its slot if and only if the size of the text is neither 0 nor more
than that of a slot. -/
theorem confined_iff {other : ℕ → Word} {es : List Event} {n : ℕ} {t : Task} {args : Args}
    (h : Runs Returns (boot other) es s) (ht : s.task n = some t) (hargs : t.args = some args)
    (hload : s.perform ⟨n, .load⟩ = .ok s') :
    ∃ ex size u, Exec.refused ex size = false ∧ ex.text = args.text ∧ s'.task n = some u ∧
      (u.Confined n ↔ 0 < ex.text.toNat ∧ ex.text.toNat ≤ 0x4000000) := by
  have hplaced := Placed.of_runs h n t ht
  obtain ⟨ex, size, hex, htext⟩ := hplaced.header args hargs
  refine ⟨ex, size, newSegments t args.text, hex, htext, perform_load ht hargs hload, ?_⟩
  rw [htext]
  exact hplaced.confined_newSegments args.text

/-- Every accepted header can be that of the program that the child of task 0 loads. -/
theorem runs_load {ex : Exec} {size : Word} (hex : ex.refused size = false) : ∃ s t s',
    Runs Returns (boot fun _ => 0) [⟨1, .execve (some (ex, size)) [] []⟩, ⟨0, .fork⟩] s ∧
      s.task 1 = some t ∧ t.args = some ⟨fun _ => 0, ex.text⟩ ∧
      s.perform ⟨1, .load⟩ = .ok s' := by
  have hfork : ∃ s t, Runs Step (boot fun _ => 0) [⟨0, .fork⟩] s ∧ s.task 1 = some t :=
    ⟨_, _, .cons .nil ⟨⟨by decide, _, rfl, rfl, rfl⟩, rfl⟩, rfl⟩
  obtain ⟨s, t, hs, ht⟩ := hfork
  obtain ⟨held, hinv⟩ := Inv.of_runs hs
  obtain ⟨m, hm, -⟩ := hinv.freeTables ht le_rfl
  set args : Args := ⟨fun _ => 0, ex.text⟩ with hargs
  set u : Task := { t with args := some args } with hu
  have hexec : s.perform ⟨1, .execve (some (ex, size)) [] []⟩ = .ok (setTask s 1 (some u)) := by
    rw [perform_eq ht]
    dsimp only [call, System.execve]
    rw [hex]
    rfl
  have hself : (setTask s 1 (some u)).task 1 = some u := Function.update_self 1 _ s.task
  have hload : (setTask s 1 (some u)).perform ⟨1, .load⟩ =
      load 1 u args (setTask s 1 (some u)) := perform_eq (e := ⟨1, .load⟩) hself
  have hfree : freeTables u s.mem = .ok m := hm
  obtain ⟨s', hs'⟩ : ∃ s', load 1 u args (setTask s 1 (some u)) = .ok s' :=
    ⟨_, congrArg (· >>= _) hfree⟩
  exact ⟨setTask s 1 (some u), u, s', .cons (hs.mono fun _ _ _ h => h.2) hexec, hself, rfl,
    hload.trans hs'⟩

/-- The header of a program with the given size of its text, and nothing else. -/
def textHeader (text : Word) : Exec := ⟨zMagic, text, 0, 0, 0, 0, 0⟩

/-- The child of task 0 loads a program with one page of text. -/
theorem confined_iff_page : ∃ s t s' ex size u,
    Runs Returns (boot fun _ => 0)
      [⟨1, .execve (some (textHeader 4096, 5120)) [] []⟩, ⟨0, .fork⟩] s ∧
    s.task 1 = some t ∧ s.perform ⟨1, .load⟩ = .ok s' ∧ Exec.refused ex size = false ∧
    ex.text = 4096 ∧ s'.task 1 = some u ∧
    (u.Confined 1 ↔ 0 < ex.text.toNat ∧ ex.text.toNat ≤ 0x4000000) := by
  obtain ⟨s, t, s', hs, ht, hargs, hload⟩ :=
    runs_load (show (textHeader 4096).refused 5120 = false by decide)
  obtain ⟨ex, size, u, hex, htext, hu, hiff⟩ := confined_iff hs ht hargs hload
  exact ⟨s, t, s', ex, size, u, hs, ht, hload, hex, htext, hu, hiff⟩

/-- **A program without text is not confined.** Its header is accepted, and when it is loaded the
code segment is as large as the address space. -/
theorem not_confined : Exec.refused (textHeader 0) 1024 = false ∧ ∃ s t s' u,
    Runs Returns (boot fun _ => 0)
      [⟨1, .execve (some (textHeader 0, 1024)) [] []⟩, ⟨0, .fork⟩] s ∧
    s.task 1 = some t ∧ t.args = some ⟨fun _ => 0, (textHeader 0).text⟩ ∧
    s.perform ⟨1, .load⟩ = .ok s' ∧ s'.task 1 = some u ∧ u.code.size = 2 ^ 32 ∧
    ¬ u.Confined 1 := by
  refine ⟨by decide, ?_⟩
  obtain ⟨s, t, s', hs, ht, hargs, hload⟩ :=
    runs_load (show (textHeader 0).refused 1024 = false by decide)
  have hplaced := Placed.of_runs hs 1 t ht
  refine ⟨s, t, s', _, hs, ht, hargs, hload, perform_load ht hargs hload, ?_, fun hc => ?_⟩
  · rw [newSegments, Desc.size_setLimit (by simpa using hplaced.codeGranular)]
    decide
  · rw [hplaced.confined_newSegments] at hc
    exact absurd hc.1 (by decide)

end System

end Linux001.Mm
