import Linux001.Fs.FileContents
import Mathlib.Data.Fin.Tuple.Basic

/-!
# Files as byte arrays

Processes read, write and position open files, and duplicate descriptors. For them, the device is a
collection of byte arrays: `ByteFiles` has the contents of the files and what the entries of the
file table say, and its steps are a few lines each. Every run of the kernel is a run of `ByteFiles`,
with the same calls, the same results and the same bytes.

## Main definitions

* `ByteFiles`, `ByteFiles.Step`: byte arrays, and what calls do to them.
* `readBytes`: `sys_read`, with the bytes that are put into the buffer.
* `Volume`: the invariant of the calls.
* `System.Shows`: the byte arrays of a state.

## Main results

* `files_refined`: runs of the kernel are runs of `ByteFiles`, and no call panics.
* `zones_exact`: the zones in use are always those of files, each of one file.
* `short_write_full`: a write that returns less than it was asked for leaves a full device.
-/

namespace Linux001.Fs

/-! ### Byte arrays -/

/-- An open file. -/
structure OpenFile where
  inode : ℕ
  append : Bool
  pos : ℕ

/-- The files of a device, the entries of the file table, and the descriptors of the tasks. -/
structure ByteFiles where
  file : ℕ → Contents
  regular : ℕ → Bool
  entry : Fin 64 → OpenFile
  handle : Fin 64 → ℕ → Option (Fin 64)

/-- A call of a task, with its result. A read returns the bytes. -/
inductive FileEvent
  | read (t : Fin 64) (fd : ℕ) (count : ℤ) (r : Except Errno (List UInt8))
  | write (t : Fin 64) (fd : ℕ) (buf : ℕ → UInt8) (count : ℤ) (r : Result)
  | lseek (t : Fin 64) (fd : ℕ) (offset : ℤ) (origin : ℕ) (r : Result)
  | dup (t : Fin 64) (fildes : ℕ) (r : Result)

namespace ByteFiles

variable (B : ByteFiles)

/-- The contents of an open file. -/
def contents (f : Fin 64) : Contents := B.file (B.entry f).inode

/-- Where a write goes. -/
def start (f : Fin 64) : ℕ := if (B.entry f).append then (B.contents f).size else (B.entry f).pos

def seek (f : Fin 64) (pos : ℕ) : ByteFiles :=
  { B with entry := Function.update B.entry f { B.entry f with pos := pos } }

/-- `k` bytes are written. -/
def put (f : Fin 64) (k : ℕ) (buf : ℕ → UInt8) : ByteFiles :=
  { B with
    file := Function.update B.file (B.entry f).inode ((B.contents f).write (B.start f) k buf) }

/-- The position moves with the bytes that are written, unless they go to the end. -/
def advance (f : Fin 64) (k : ℕ) : ByteFiles :=
  if (B.entry f).append then B else B.seek f ((B.entry f).pos + k)

/-- A descriptor is set to an entry. -/
def assign (t : Fin 64) (fd : ℕ) (f : Fin 64) : ByteFiles :=
  { B with handle := Function.update B.handle t (Function.update (B.handle t) fd (some f)) }

/-- The effect of a call, and its result. -/
def Step (B : ByteFiles) (e : FileEvent) (B' : ByteFiles) : Prop :=
  match e with
  | .read t fd count r => match B.handle t fd with
    | none => r = .error .EINVAL ∧ B' = B
    | some f =>
      if count < 0 then r = .error .EINVAL ∧ B' = B
      else ∃ bytes, bytes = (B.contents f).read (B.entry f).pos count.toNat ∧ r = .ok bytes ∧
        B' = B.seek f ((B.entry f).pos + bytes.length)
  | .write t fd buf count r => match B.handle t fd with
    | none => r = .error .EINVAL ∧ B' = B
    | some f =>
      if count < 0 then r = .error .EINVAL ∧ B' = B
      else if count = 0 then r = .ok 0 ∧ B' = B
      else if B.regular (B.entry f).inode then
        ∃ k ≤ count.toNat, r = (if k = 0 then .error .EPERM else .ok k) ∧
          B' = (B.put f k buf).advance f k
      else r = .error .EINVAL ∧ B' = B
  | .lseek t fd offset origin r => match B.handle t fd with
    | none => r = .error .EBADF ∧ B' = B
    | some f =>
      if 2 < origin then r = .error .EINVAL ∧ B' = B
      else
        let pos : ℤ := [0, (B.entry f).pos, (B.contents f).size].getD origin 0 + offset
        if pos < 0 ∨ 2 ^ 31 ≤ pos then r = .error .EINVAL ∧ B' = B
        else r = .ok pos.toNat ∧ B' = B.seek f pos.toNat
  | .dup t fildes r => match B.handle t fildes with
    | none => r = .error .EBADF ∧ B' = B
    | some f =>
      (r = .error .EMFILE ∧ B' = B ∧ ∀ fd < 20, B.handle t fd ≠ none) ∨
      ∃ fd < 20, B.handle t fd = none ∧ (∀ i < fd, B.handle t i ≠ none) ∧ r = .ok fd ∧
        B' = B.assign t fd f

end ByteFiles

/-! ### The calls -/

variable {sb : Super}

/-- `sys_read` of a regular file or a directory, with the bytes. -/
def readBytes (sb : Super) (t : Fin 64) (fd : ℕ) (count : ℤ) : K (Except Errno (List UInt8)) := do
  let S ← get
  match S.handle t fd with
  | none => pure (.error .EINVAL)
  | some f =>
    if count < 0 then pure (.error .EINVAL)
    else if count = 0 then pure (.ok [])
    else
      let n := (S.files f).inode
      let i := S.fs.ino n
      let left : ℤ := if (i.size : ℤ) < count + (S.files f).pos then
        i.size - (S.files f).pos else count
      if left ≤ 0 then pure (.ok [])
      else fileRead sb n f left.toNat

/-- The calls are on files of the device, which are in core. -/
structure Volume (sb : Super) (S : System) : Prop where
  owned : S.fs.view.Owned sb none
  held : S.fs.cache.Held []
  zones : ∀ t fd f, S.handle t fd = some f → S.fs.view.HasZones sb (S.files f).inode
  core : ∀ t fd f, S.handle t fd = some f → S.fs.count (S.files f).inode ≠ 0
  size : ∀ t fd f, S.handle t fd = some f →
    (S.fs.view.ino (S.files f).inode).size ≤ maxBlocks * 1024

/-- The write does not reach beyond the largest file. -/
def System.Fits (S : System) (t : Fin 64) (fd : ℕ) (count : ℤ) : Prop :=
  ∀ f, S.handle t fd = some f → (if (S.files f).flags &&& O_APPEND ≠ 0 then
    (S.fs.ino (S.files f).inode).size else (S.files f).pos) + count ≤ maxBlocks * 1024

/-- A call and its return. What `sys_read` returns is the number of the bytes. -/
def CallStep (sb : Super) (dev : Devices) (S : System) (e : FileEvent) (S' : System) : Prop :=
  match e with
  | .read t fd count r => readBytes sb t fd count S = .ok (r, S') ∧
    sysRead sb dev t fd count S = .ok (r.map List.length, S')
  | .write t fd buf count r => S.Fits t fd count ∧ sysWriteTo sb dev t fd buf count S = .ok (r, S')
  | .lseek t fd offset origin r => sysLseek t fd offset origin S = .ok (r, S')
  | .dup t fildes r => sysDup t fildes S = .ok (r, S')

/-- What an entry of the file table says. -/
def File.opened (v : File) : OpenFile := ⟨v.inode, v.flags &&& O_APPEND ≠ 0, v.pos⟩

/-- The byte arrays of a state. -/
structure System.Shows (sb : Super) (S : System) (B : ByteFiles) : Prop where
  file : ∀ n, S.fs.view.HasZones sb n → B.file n = S.fs.view.file n
  regular : ∀ n, S.fs.view.HasZones sb n → B.regular n = sIsreg (S.fs.view.ino n).mode
  entry : ∀ f, B.entry f = (S.files f).opened
  handle : B.handle = S.handle

variable {S S' : System} {B : ByteFiles} {t f : Fin 64} {fd : ℕ}

theorem System.handle_eq_none : S.handle t fd = none ↔
    ∀ h : fd < 20, (S.tasks t).filp ⟨fd, h⟩ = none := by
  unfold handle
  split_ifs with h
  · exact ⟨fun hf _ => hf, fun hf => hf h⟩
  · exact ⟨fun _ hc => absurd hc h, fun _ => rfl⟩

theorem succeeds_onFs {α : Type} {m : M α} {Q : α → System → Prop}
    (h : Succeeds m S.fs fun a s => Q a { S with fs := s }) : Succeeds (onFs m) S Q := by
  obtain ⟨a, s, hm, hq⟩ := h
  exact ⟨a, _, by rw [onFs, hm], hq⟩

/-- Files do not have two types. -/
theorem sIsreg_types {mode : UInt16} (h : sIsreg mode = true) :
    sIschr mode = false ∧ sIsblk mode = false ∧ sIsdir mode = false := by
  have hmode : mode &&& 0o170000 = 0o100000 := beq_iff_eq.mp h
  simp [sIschr, sIsblk, sIsdir, hmode]

theorem sIsdir_types {mode : UInt16} (h : sIsdir mode = true) :
    sIschr mode = false ∧ sIsblk mode = false ∧ sIsreg mode = false := by
  have hmode : mode &&& 0o170000 = 0o040000 := beq_iff_eq.mp h
  simp [sIschr, sIsblk, sIsreg, hmode]

namespace Volume

/-- What the calls have to keep. -/
theorem next (h : Volume sb S) (howned : S'.fs.view.Owned sb none) (hheld : S'.fs.cache.Held [])
    (hhandle : ∀ t fd f, S'.handle t fd = some f → ∃ t fd, S.handle t fd = some f)
    (hinode : ∀ f, (S'.files f).inode = (S.files f).inode) (hcount : S'.fs.count = S.fs.count)
    (hzones : ∀ m, S.fs.view.HasZones sb m → S'.fs.view.HasZones sb m)
    (hsize : ∀ m, S.fs.view.HasZones sb m → (S.fs.view.ino m).size ≤ maxBlocks * 1024 →
      (S'.fs.view.ino m).size ≤ maxBlocks * 1024) : Volume sb S' := by
  refine ⟨howned, hheld, fun t fd f hf => ?_, fun t fd f hf => ?_, fun t fd f hf => ?_⟩
  all_goals obtain ⟨t', fd', hf'⟩ := hhandle t fd f hf
  · exact hinode f ▸ hzones _ (h.zones t' fd' f hf')
  · rw [hinode, hcount]
    exact h.core t' fd' f hf'
  · exact hinode f ▸ hsize _ (h.zones t' fd' f hf') (h.size t' fd' f hf')

/-- The contents of the files have not changed. -/
theorem of_view (h : Volume sb S) (hview : S'.fs.view = S.fs.view) (hheld : S'.fs.cache.Held [])
    (hhandle : ∀ t fd f, S'.handle t fd = some f → ∃ t fd, S.handle t fd = some f)
    (hinode : ∀ f, (S'.files f).inode = (S.files f).inode) (hcount : S'.fs.count = S.fs.count) :
    Volume sb S' :=
  h.next (hview ▸ h.owned) hheld hhandle hinode hcount (fun _ => hview ▸ id) fun _ _ => hview ▸ id

theorem ino (h : Volume sb S) (hf : S.handle t fd = some f) :
    S.fs.ino (S.files f).inode = S.fs.view.ino (S.files f).inode :=
  (State.cur_of_count (h.core t fd f hf)).symm

theorem live (h : Volume sb S) (hf : S.handle t fd = some f) :
    Live sb (S.files f).inode S.fs :=
  ⟨h.owned, h.held, h.zones t fd f hf, h.core t fd f hf⟩

end Volume

/-- The inode and the flags of the entries are kept, and the position of `f` is set. -/
def System.setPos (S : System) (f : Fin 64) (pos : ℕ) : System :=
  { S with files := Function.update S.files f { S.files f with pos := pos } }

theorem System.setPos_inode (f f' : Fin 64) (pos : ℕ) :
    ((S.setPos f pos).files f').inode = (S.files f').inode := by
  rw [setPos]
  dsimp only
  rw [Function.update_apply]
  split_ifs with hf
  · rw [hf]
  · rfl

theorem Volume.setPos (h : Volume sb S) (f : Fin 64) (pos : ℕ) : Volume sb (S.setPos f pos) :=
  h.of_view rfl h.held (fun t fd _ hf => ⟨t, fd, hf⟩) (fun f' => S.setPos_inode f f' pos) rfl

theorem System.Shows.setPos (h : S.Shows sb B) (f : Fin 64) (pos : ℕ) :
    (S.setPos f pos).Shows sb (B.seek f pos) := by
  refine ⟨h.file, h.regular, fun f' => ?_, h.handle⟩
  rw [ByteFiles.seek, System.setPos]
  dsimp only
  rw [Function.update_apply, Function.update_apply]
  split_ifs
  · rw [h.entry]
    rfl
  · exact h.entry f'

theorem ByteFiles.seek_self (B : ByteFiles) (f : Fin 64) : B.seek f (B.entry f).pos = B := by
  rw [seek]
  have hentry : Function.update B.entry f { B.entry f with pos := (B.entry f).pos } = B.entry :=
    Function.update_eq_self ..
  rw [hentry]

/-- The contents of an open file. -/
theorem System.Shows.contents (hB : S.Shows sb B) (h : Volume sb S)
    (hf : S.handle t fd = some f) : B.contents f = S.fs.view.file (S.files f).inode := by
  rw [ByteFiles.contents, hB.entry]
  exact hB.file _ (h.zones t fd f hf)

/-- What a call does is a step of the byte arrays, and keeps the invariant. -/
structure Simulated (sb : Super) (S : System) (e : FileEvent) (S' : System) : Prop where
  volume : Volume sb S'
  exact : S.fs.view.Exact sb → S'.fs.view.Exact sb
  step : ∀ B, S.Shows sb B → ∃ B', B.Step e B' ∧ S'.Shows sb B'

/-- Calls that change nothing. -/
theorem Volume.simulated {e : FileEvent} (h : Volume sb S)
    (hstep : ∀ B, S.Shows sb B → B.Step e B) : Simulated sb S e S :=
  ⟨h, id, fun B hB => ⟨B, hstep B hB, hB⟩⟩

/-- Only the cache has changed. -/
theorem Volume.cached (h : Volume sb S) {s : State} (hs : Cached S.fs s []) :
    Volume sb { S with fs := s } :=
  h.of_view (view_of_cached hs) hs.held (fun t fd _ hf => ⟨t, fd, hf⟩) (fun _ => rfl)
    (count_of_cached hs)

theorem System.Shows.cached (h : S.Shows sb B) {s : State} (hs : Cached S.fs s []) :
    System.Shows sb { S with fs := s } B := by
  have hview := view_of_cached hs
  refine ⟨fun n hn => ?_, fun n hn => ?_, h.entry, h.handle⟩
  all_goals
    dsimp only at hn ⊢
    rw [hview] at hn ⊢
  · exact h.file n hn
  · exact h.regular n hn

/-- `file_read` of an open file. -/
theorem succeeds_fileRead (h : Volume sb S) (hf : S.handle t fd = some f) {left : ℕ}
    (h0 : left ≠ 0)
    (hle : (S.files f).pos + left ≤ (S.fs.view.file (S.files f).inode).size) :
    Succeeds (fileRead sb (S.files f).inode f left) S fun r S' =>
      r = .ok ((List.range left).map fun i =>
        (S.fs.view.file (S.files f).inode).byte ((S.files f).pos + i)) ∧
      ∃ s, Cached S.fs s [] ∧
        S' = System.setPos { S with fs := s } f ((S.files f).pos + left) := by
  have hfits := hle.trans (h.size t fd f hf)
  rw [fileRead, succeeds_get_bind]
  refine (succeeds_onFs (Q := fun r S' => r = ((S.files f).pos + left, (List.range left).map
    fun i => (S.fs.view.file (S.files f).inode).byte ((S.files f).pos + i)) ∧
      ∃ s, Cached S.fs s [] ∧ S' = { S with fs := s })
    ((succeeds_fileReadFrom (h.live hf) le_rfl hfits).mono
      fun r s hs => ⟨hs.1, s, hs.2, rfl⟩)).bind fun r S₁ hS₁ => ?_
  obtain ⟨rfl, s, hs, rfl⟩ := hS₁
  rw [setFile, succeeds_modify_bind, if_neg]
  · exact succeeds_pure ⟨rfl, s, hs, rfl⟩
  · intro hnil
    have hlen := congrArg List.length hnil
    rw [List.length_map, List.length_range] at hlen
    exact h0 hlen

theorem succeeds_readBytes (h : Volume sb S) (t : Fin 64) (fd : ℕ) (count : ℤ) :
    Succeeds (readBytes sb t fd count) S fun r S' => Simulated sb S (.read t fd count r) S' := by
  rw [readBytes, succeeds_get_bind]
  cases hf : S.handle t fd with
  | none => exact succeeds_pure (h.simulated fun B hB => by simp [ByteFiles.Step, hB.handle, hf])
  | some f =>
    dsimp only
    set n := (S.files f).inode with hn
    set pos := (S.files f).pos with hpos
    by_cases hneg : count < 0
    · rw [if_pos hneg]
      refine succeeds_pure (h.simulated fun B hB => ?_)
      simp [ByteFiles.Step, hB.handle, hf, hneg]
    rw [if_neg hneg]
    have hsize : (S.fs.ino n).size = (S.fs.view.file n).size := congrArg Inode.size (h.ino hf)
    have hstep {B : ByteFiles} (hB : S.Shows sb B) {bytes : List UInt8} {B' : ByteFiles}
        (hbytes : bytes = (S.fs.view.file n).read pos count.toNat)
        (hB' : B' = B.seek f (pos + bytes.length)) : B.Step (.read t fd count (.ok bytes)) B' := by
      have hentry : (B.entry f).pos = pos := congrArg OpenFile.pos (hB.entry f)
      unfold ByteFiles.Step
      dsimp only
      rw [hB.handle, hf]
      dsimp only
      rw [if_neg hneg, hB.contents h hf, hentry]
      exact ⟨bytes, hbytes, rfl, hB'⟩
    have hnothing (hmin : min count.toNat ((S.fs.view.file n).size - pos) = 0) :
        Simulated sb S (.read t fd count (.ok [])) S := by
      refine h.simulated fun B hB => hstep hB ?_ ?_
      · rw [Contents.read, hmin]
        rfl
      · have hentry : (B.entry f).pos = pos := congrArg OpenFile.pos (hB.entry f)
        rw [List.length_nil, Nat.add_zero, ← hentry, B.seek_self]
    by_cases h0 : count = 0
    · rw [if_pos h0]
      exact succeeds_pure (hnothing (by omega))
    rw [if_neg h0]
    generalize hleft : (if ((S.fs.ino n).size : ℤ) < count + pos then
      ((S.fs.ino n).size : ℤ) - pos else count) = left
    have hmin : left.toNat = min count.toNat ((S.fs.view.file n).size - pos) := by
      rw [← hleft, hsize]
      split_ifs <;> omega
    by_cases hle : left ≤ 0
    · rw [if_pos hle]
      exact succeeds_pure (hnothing (by omega))
    rw [if_neg hle]
    have hend : pos + left.toNat ≤ (S.fs.view.file n).size := by omega
    refine (succeeds_fileRead h hf (by omega) hend).mono fun r S' hS' => ?_
    obtain ⟨rfl, s, hs, rfl⟩ := hS'
    have hview := view_of_cached hs
    refine ⟨(h.cached hs).setPos f _, fun he => hview ▸ he, fun B hB => ?_⟩
    refine ⟨_, hstep hB ?_ rfl, ?_⟩
    · rw [hmin]
      rfl
    · rw [List.length_map, List.length_range]
      exact (hB.cached hs).setPos f _

/-- A file has been written. -/
theorem Volume.wrote (h : Volume sb S) (hf : S.handle t fd = some f) {pos k : ℕ}
    {buf : ℕ → UInt8} (hfits : pos + k ≤ maxBlocks * 1024) {s : State}
    (hs : Writing sb (S.files f).inode pos k buf S.fs s) : Volume sb { S with fs := s } := by
  refine h.next hs.live.owned hs.live.held (fun t fd _ hf => ⟨t, fd, hf⟩) (fun _ => rfl) hs.count
    (fun m => hs.wrote.hasZones.mpr) fun m hm hsize => ?_
  by_cases hmn : m = (S.files f).inode
  · have hwrite : (s.view.ino m).size =
        ((S.fs.view.file (S.files f).inode).write pos k buf).size := by
      rw [hmn, ← hs.wrote.file]
      rfl
    dsimp only
    rw [hwrite, Contents.write]
    split_ifs
    · exact h.size t fd f hf
    · exact max_le (h.size t fd f hf) hfits
  · have hother : (s.view.ino m).size = (S.fs.view.ino m).size :=
      congrArg Contents.size (hs.wrote.others m hmn hm)
    dsimp only
    rwa [hother]

/-- The file of an entry has new contents. -/
theorem System.Shows.wrote (hB : S.Shows sb B) (h : Volume sb S) (hf : S.handle t fd = some f)
    {k : ℕ} {buf : ℕ → UInt8} {s : State}
    (hs : Writing sb (S.files f).inode (B.start f) k buf S.fs s) :
    System.Shows sb { S with fs := s } (B.put f k buf) := by
  have hinode : (B.entry f).inode = (S.files f).inode := congrArg OpenFile.inode (hB.entry f)
  refine ⟨fun m hm => ?_, fun m hm => ?_, hB.entry, hB.handle⟩
  · rw [ByteFiles.put]
    dsimp only at hm ⊢
    rw [Function.update_apply, hinode, hB.contents h hf]
    split_ifs with hmn
    · rw [hmn]
      exact hs.wrote.file.symm
    · have hm := hs.wrote.hasZones.mp hm
      rw [hs.wrote.others m hmn hm]
      exact hB.file m hm
  · dsimp only at hm ⊢
    rw [hs.wrote.mode]
    exact hB.regular m (hs.wrote.hasZones.mp hm)

/-- The state when `file_write` has left the file system in `s`. -/
def System.afterWrite (S : System) (f : Fin 64) (s : State) (pos : ℕ) : System :=
  if (S.files f).flags &&& O_APPEND ≠ 0 then { S with fs := s }
  else System.setPos { S with fs := s } f pos

theorem System.fs_afterWrite (S : System) (f : Fin 64) (s : State) (pos : ℕ) :
    (S.afterWrite f s pos).fs = s := by
  rw [afterWrite]
  split_ifs <;> rfl

/-- A write through the entry `f`, at `start`, has returned `r`. -/
def Written (sb : Super) (S : System) (f : Fin 64) (start count : ℕ) (buf : ℕ → UInt8)
    (r : Result) (S' : System) : Prop :=
  ∃ k s, k ≤ count ∧ r = (if k = 0 then .error .EPERM else .ok k) ∧ (k < count → s.Full sb) ∧
    Writing sb (S.files f).inode start k buf S.fs s ∧ S' = S.afterWrite f s (start + k)

/-- `file_write` through an entry. -/
theorem succeeds_fileWrite (h : Volume sb S) (hf : S.handle t fd = some f) (buf : ℕ → UInt8)
    {count start : ℕ} (hstart : (if (S.files f).flags &&& O_APPEND ≠ 0 then
      (S.fs.ino (S.files f).inode).size else (S.files f).pos) = start)
    (hfits : start + count ≤ maxBlocks * 1024) :
    Succeeds (fileWrite sb (S.files f).inode f buf count) S
      (Written sb S f start count buf) := by
  rw [fileWrite, succeeds_get_bind]
  dsimp only
  have hwrite : Succeeds (fileWriteFrom sb (S.files f).inode buf count count start 0) S.fs _ :=
    succeeds_fileWriteFrom (h.live hf) (Nat.zero_le count) le_rfl hfits
  refine (succeeds_onFs (Q := fun r S' => ∃ k s, k ≤ count ∧ r = (start + k, k) ∧
    (k < count → s.Full sb) ∧ Writing sb (S.files f).inode start k buf S.fs s ∧
      S' = { S with fs := s }) ?_).bind fun r S₁ hS₁ => ?_
  · rw [hstart]
    refine hwrite.mono fun r s hs => ?_
    obtain ⟨k, rfl, hle, hfull, hs⟩ := hs
    simp only [Nat.zero_add] at hle hfull hs ⊢
    exact ⟨k, s, hle, rfl, hfull, hs, rfl⟩
  · obtain ⟨k, s, hle, rfl, hfull, hs, rfl⟩ := hS₁
    have hend : Succeeds (if k = 0 then pure (.error .EPERM) else pure (.ok k) : K Result)
        (S.afterWrite f s (start + k)) (Written sb S f start count buf) := by
      by_cases h0 : k = 0
      · rw [if_pos h0]
        exact succeeds_pure ⟨k, s, hle, (if_pos h0).symm, hfull, hs, rfl⟩
      · rw [if_neg h0]
        exact succeeds_pure ⟨k, s, hle, (if_neg h0).symm, hfull, hs, rfl⟩
    by_cases happend : (S.files f).flags &&& O_APPEND ≠ 0
    · rw [System.afterWrite, if_pos happend] at hend
      rw [if_pos happend]
      exact hend
    · rw [System.afterWrite, if_neg happend] at hend
      rw [if_neg happend, setFile, succeeds_modify_bind]
      exact hend

theorem Volume.afterWrite (h : Volume sb S) (hf : S.handle t fd = some f) {pos k : ℕ}
    {buf : ℕ → UInt8} (hfits : pos + k ≤ maxBlocks * 1024) {s : State}
    (hs : Writing sb (S.files f).inode pos k buf S.fs s) :
    Volume sb (S.afterWrite f s (pos + k)) := by
  have hvolume := h.wrote hf hfits hs
  rw [System.afterWrite]
  split_ifs
  · exact hvolume
  · exact hvolume.setPos f _

theorem System.Shows.append (hB : S.Shows sb B) (f : Fin 64) :
    (B.entry f).append = decide ((S.files f).flags &&& O_APPEND ≠ 0) :=
  congrArg OpenFile.append (hB.entry f)

/-- Where a write goes. -/
theorem System.Shows.start (hB : S.Shows sb B) (h : Volume sb S) (hf : S.handle t fd = some f) :
    B.start f = if (S.files f).flags &&& O_APPEND ≠ 0 then
      (S.fs.ino (S.files f).inode).size else (S.files f).pos := by
  have hpos : (B.entry f).pos = (S.files f).pos := congrArg OpenFile.pos (hB.entry f)
  have hsize : (B.contents f).size = (S.fs.ino (S.files f).inode).size := by
    rw [hB.contents h hf, h.ino hf]
    rfl
  rw [ByteFiles.start, hB.append, hpos, hsize]
  exact if_congr decide_eq_true_iff rfl rfl

theorem System.Shows.afterWrite (hB : S.Shows sb B) (h : Volume sb S)
    (hf : S.handle t fd = some f) {k : ℕ} {buf : ℕ → UInt8} {s : State}
    (hs : Writing sb (S.files f).inode (B.start f) k buf S.fs s) :
    (S.afterWrite f s (B.start f + k)).Shows sb ((B.put f k buf).advance f k) := by
  have hwrote := hB.wrote h hf hs
  have hpos : (B.entry f).pos = (S.files f).pos := congrArg OpenFile.pos (hB.entry f)
  have happend : ((B.put f k buf).entry f).append = _ := hB.append f
  rw [ByteFiles.advance, happend, System.afterWrite]
  by_cases hc : (S.files f).flags &&& O_APPEND ≠ 0
  · rw [if_pos hc, if_pos (decide_eq_true hc)]
    exact hwrote
  · have hstart : B.start f = (B.entry f).pos := by
      rw [hB.start h hf, if_neg hc, hpos]
    rw [if_neg hc, if_neg (by simpa using hc), hstart]
    exact hwrote.setPos f _

/-- A write of fewer bytes than asked for has found no more zones. -/
def Short (sb : Super) (S : System) (t : Fin 64) (fd : ℕ) (count : ℤ) (r : Result)
    (S' : System) : Prop :=
  ∀ f, S.handle t fd = some f → sIsreg (S.fs.ino (S.files f).inode).mode = true → 0 ≤ count →
    r ≠ .ok count.toNat → S'.fs.Full sb

theorem succeeds_sysWriteTo (h : Volume sb S) (dev : Devices) {count : ℤ}
    (hfits : S.Fits t fd count) (buf : ℕ → UInt8) :
    Succeeds (sysWriteTo sb dev t fd buf count) S fun r S' =>
      Simulated sb S (.write t fd buf count r) S' ∧ Short sb S t fd count r S' := by
  rw [sysWriteTo, succeeds_get_bind]
  cases hf : S.handle t fd with
  | none =>
    have hnone (r : Result) (S' : System) : Short sb S t fd count r S' := fun f hf' => by
      rw [hf] at hf'
      cases hf'
    have hclosed : Simulated sb S (.write t fd buf count (.error .EINVAL)) S :=
      h.simulated fun B hB => by simp [ByteFiles.Step, hB.handle, hf]
    by_cases hlt : fd < 20
    · rw [dif_pos hlt, System.handle_eq_none.mp hf hlt]
      exact succeeds_pure ⟨hclosed, hnone _ _⟩
    · rw [dif_neg hlt]
      exact succeeds_pure ⟨hclosed, hnone _ _⟩
  | some f =>
    obtain ⟨hlt, hfilp⟩ := System.handle_eq_some.mp hf
    have hshort {r : Result} {S' : System} (hr : sIsreg (S.fs.ino (S.files f).inode).mode = true →
        0 ≤ count → r ≠ .ok count.toNat → S'.fs.Full sb) : Short sb S t fd count r S' :=
      fun f' hf' => by
        obtain rfl := Option.some.inj (hf.symm.trans hf')
        exact hr
    rw [dif_pos hlt, hfilp]
    dsimp only
    by_cases hneg : count < 0
    · rw [if_pos hneg]
      refine succeeds_pure ⟨h.simulated fun B hB => ?_, hshort fun _ hc => absurd hneg hc.not_gt⟩
      simp [ByteFiles.Step, hB.handle, hf, hneg]
    rw [if_neg hneg]
    by_cases h0 : count = 0
    · rw [if_pos h0]
      refine succeeds_pure ⟨h.simulated fun B hB => ?_, hshort fun _ _ hr => absurd ?_ hr⟩
      · simp [ByteFiles.Step, hB.handle, hf, h0]
      · rw [h0]
        rfl
    rw [if_neg h0]
    have hzones := h.zones t fd f hf
    have hino := h.ino hf
    -- The step of the byte arrays depends on whether the file is a regular one.
    have hstep {B : ByteFiles} (hB : S.Shows sb B) (r : Result) (B' : ByteFiles) :
        B.Step (.write t fd buf count r) B' ↔
          if sIsreg (S.fs.ino (S.files f).inode).mode = true then
            ∃ k ≤ count.toNat, r = (if k = 0 then .error .EPERM else .ok k) ∧
              B' = (B.put f k buf).advance f k
          else r = .error .EINVAL ∧ B' = B := by
      have hregular : B.regular (B.entry f).inode = sIsreg (S.fs.ino (S.files f).inode).mode := by
        rw [hB.entry, hino]
        exact hB.regular _ hzones
      unfold ByteFiles.Step
      dsimp only
      rw [hB.handle, hf]
      dsimp only
      rw [if_neg hneg, if_neg h0, hregular]
    have htype := hzones.2
    rw [← hino] at htype
    rcases htype with hreg | hdir
    · obtain ⟨hchr, hblk, -⟩ := sIsreg_types hreg
      rw [if_neg (by simp [hchr]), if_neg (by simp [hblk]), if_pos hreg]
      have hend := hfits f hf
      have hcount : (count.toNat : ℤ) = count := Int.toNat_of_nonneg (not_lt.mp hneg)
      have hwrite : Succeeds (fileWrite sb (S.files f).inode f buf count.toNat) S _ :=
        succeeds_fileWrite h hf buf rfl (by omega)
      refine hwrite.mono fun r S' hS' => ?_
      obtain ⟨k, s, hle, rfl, hfull, hs, rfl⟩ := hS'
      refine ⟨⟨h.afterWrite hf (by omega) hs, fun he => ?_, fun B hB => ?_⟩,
        hshort fun _ _ hr => ?_⟩
      · rw [System.fs_afterWrite]
        exact hs.exact he
      · rw [← hB.start h hf] at hs ⊢
        refine ⟨_, (hstep hB _ _).mpr ?_, hB.afterWrite h hf hs⟩
        rw [if_pos hreg]
        exact ⟨k, hle, rfl, rfl⟩
      · rw [System.fs_afterWrite]
        refine hfull (lt_of_le_of_ne hle fun heq => hr ?_)
        rw [heq, if_neg (by omega)]
    · obtain ⟨hchr, hblk, hreg⟩ := sIsdir_types hdir
      rw [if_neg (by simp [hchr]), if_neg (by simp [hblk]), if_neg (by simp [hreg])]
      refine succeeds_pure ⟨h.simulated fun B hB => (hstep hB _ _).mpr ?_, hshort fun hc => ?_⟩
      · rw [if_neg (by simp [hreg])]
        exact ⟨rfl, rfl⟩
      · rw [hreg] at hc
        cases hc

theorem succeeds_sysLseek (h : Volume sb S) (t : Fin 64) (fd : ℕ) (offset : ℤ) (origin : ℕ) :
    Succeeds (sysLseek t fd offset origin) S fun r S' =>
      Simulated sb S (.lseek t fd offset origin r) S' := by
  rw [sysLseek, succeeds_get_bind]
  cases hf : S.handle t fd with
  | none =>
    have hclosed : Simulated sb S (.lseek t fd offset origin (.error .EBADF)) S :=
      h.simulated fun B hB => by simp [ByteFiles.Step, hB.handle, hf]
    by_cases hlt : fd < 20
    · rw [dif_pos hlt, System.handle_eq_none.mp hf hlt]
      exact succeeds_pure hclosed
    · rw [dif_neg hlt]
      exact succeeds_pure hclosed
  | some f =>
    obtain ⟨hlt, hfilp⟩ := System.handle_eq_some.mp hf
    rw [dif_pos hlt, hfilp]
    dsimp only
    by_cases horigin : 2 < origin
    · rw [if_pos horigin]
      refine succeeds_pure (h.simulated fun B hB => ?_)
      simp [ByteFiles.Step, hB.handle, hf, horigin]
    rw [if_neg horigin]
    generalize hpos : (([0, (S.files f).pos, (S.fs.ino (S.files f).inode).size].getD origin 0 : ℕ)
      : ℤ) + offset = pos
    have hstep {B : ByteFiles} (hB : S.Shows sb B) (r : Result) (B' : ByteFiles) :
        B.Step (.lseek t fd offset origin r) B' ↔
          if pos < 0 ∨ 2 ^ 31 ≤ pos then r = .error .EINVAL ∧ B' = B
          else r = .ok pos.toNat ∧ B' = B.seek f pos.toNat := by
      have hsize : (B.contents f).size = (S.fs.ino (S.files f).inode).size := by
        rw [hB.contents h hf, h.ino hf]
        rfl
      have hentry : (B.entry f).pos = (S.files f).pos := congrArg OpenFile.pos (hB.entry f)
      unfold ByteFiles.Step
      dsimp only
      rw [hB.handle, hf]
      dsimp only
      rw [if_neg horigin, hsize, hentry, hpos]
    by_cases hout : pos < 0 ∨ 2 ^ 31 ≤ pos
    · rw [if_pos hout]
      refine succeeds_pure (h.simulated fun B hB => (hstep hB _ _).mpr ?_)
      rw [if_pos hout]
      exact ⟨rfl, rfl⟩
    · rw [if_neg hout, setFile, succeeds_modify_bind]
      refine succeeds_pure ⟨h.setPos f _, id, fun B hB => ⟨_, (hstep hB _ _).mpr ?_, hB.setPos f _⟩⟩
      rw [if_neg hout]
      exact ⟨rfl, rfl⟩

/-- The state after a `sys_dup` of the entry `f`. -/
def System.duplicate (S : System) (t : Fin 64) (fd : Fin 20) (f : Fin 64) : System :=
  { S with
    tasks := Function.update S.tasks t { S.tasks t with
      closeOnExec := Function.update (S.tasks t).closeOnExec fd false
      filp := Function.update (S.tasks t).filp fd (some f) }
    files := Function.update S.files f { S.files f with count := (S.files f).count + 1 } }

theorem System.handle_duplicate (S : System) (t : Fin 64) (fd : Fin 20) (f : Fin 64) :
    (S.duplicate t fd f).handle =
      Function.update S.handle t (Function.update (S.handle t) fd (some f)) := by
  funext t' i
  have htask : (S.duplicate t fd f).tasks t' = if t' = t then _ else S.tasks t' :=
    Function.update_apply ..
  rw [Function.update_apply, handle, htask]
  by_cases ht : t' = t
  · simp only [if_pos ht, Function.update_apply]
    by_cases hi : i < 20
    · have hfd : (⟨i, hi⟩ : Fin 20) = fd ↔ i = fd := Fin.ext_iff
      simp only [dif_pos hi, hfd, handle]
    · have hfd : i ≠ fd := fun hc => hi (hc ▸ fd.isLt)
      rw [dif_neg hi, if_neg hfd, handle, dif_neg hi]
  · simp only [if_neg ht]
    rfl

theorem System.opened_duplicate (S : System) (t : Fin 64) (fd : Fin 20) (f f' : Fin 64) :
    ((S.duplicate t fd f).files f').opened = (S.files f').opened := by
  rw [duplicate]
  dsimp only
  rw [Function.update_apply]
  split_ifs with hf
  · rw [hf]
    rfl
  · rfl

theorem Volume.duplicate (h : Volume sb S) {i : ℕ} (hf : S.handle t i = some f) (fd : Fin 20) :
    Volume sb (S.duplicate t fd f) := by
  refine h.of_view rfl h.held (fun t' fd' f' hf' => ?_)
    (fun f' => congrArg OpenFile.inode (S.opened_duplicate t fd f f')) rfl
  rw [System.handle_duplicate, Function.update_apply] at hf'
  split_ifs at hf'
  · rw [Function.update_apply] at hf'
    split_ifs at hf'
    · exact ⟨t, i, hf.trans hf'⟩
    · exact ⟨t, fd', hf'⟩
  · exact ⟨t', fd', hf'⟩

theorem System.Shows.duplicate (hB : S.Shows sb B) (t : Fin 64) (fd : Fin 20) (f : Fin 64) :
    (S.duplicate t fd f).Shows sb (B.assign t fd f) := by
  refine ⟨hB.file, hB.regular, fun f' => ?_, ?_⟩
  · exact (hB.entry f').trans (S.opened_duplicate t fd f f').symm
  · rw [S.handle_duplicate, ← hB.handle]
    rfl

theorem System.handle_of_lt (S : System) (t : Fin 64) {i : ℕ} (hi : i < 20) :
    S.handle t i = (S.tasks t).filp ⟨i, hi⟩ := dif_pos hi

/-- The search for a free descriptor finds the first one. -/
theorem System.first_free {i : Fin 20}
    (h : (List.finRange 20).find? (fun fd => (S.tasks t).filp fd = none) = some i) :
    S.handle t i = none ∧ ∀ j < i.val, S.handle t j ≠ none := by
  rw [← Fin.find?_eq_find?_finRange, Fin.find?_eq_some_iff] at h
  refine ⟨(S.handle_of_lt t i.isLt).trans (of_decide_eq_true h.1), fun j hj hnone => ?_⟩
  have hlt : j < 20 := hj.trans i.isLt
  rw [S.handle_of_lt t hlt] at hnone
  exact of_decide_eq_false (h.2 ⟨j, hlt⟩ hj) hnone

/-- The end of `sys_dup`. -/
theorem exec_duplicate (S : System) (t : Fin 64) (fd : Fin 20) (f : Fin 64) :
    (do
      setTask t fun c => { c with closeOnExec := Function.update c.closeOnExec fd false }
      setFilp t fd (some f)
      incFile f
      pure (.ok fd.val) : K Result) S = .ok (.ok fd.val, S.duplicate t fd f) := by
  have htasks (a b : Task → Task) : Function.update (Function.update S.tasks t (a (S.tasks t))) t
      (b (Function.update S.tasks t (a (S.tasks t)) t)) =
        Function.update S.tasks t (b (a (S.tasks t))) := by
    rw [Function.update_self, Function.update_idem]
  exact congrArg (fun T => Except.ok (Except.ok fd.val, { S.duplicate t fd f with tasks := T }))
    (htasks (fun c => { c with closeOnExec := Function.update c.closeOnExec fd false })
      fun c => { c with filp := Function.update c.filp fd (some f) })

theorem succeeds_sysDup (h : Volume sb S) (t : Fin 64) (fildes : ℕ) :
    Succeeds (sysDup t fildes) S fun r S' => Simulated sb S (.dup t fildes r) S' := by
  rw [sysDup, succeeds_get_bind]
  cases hf : S.handle t fildes with
  | none =>
    have hclosed : Simulated sb S (.dup t fildes (.error .EBADF)) S :=
      h.simulated fun B hB => by simp [ByteFiles.Step, hB.handle, hf]
    by_cases hlt : fildes < 20
    · rw [dif_pos hlt, System.handle_eq_none.mp hf hlt]
      exact succeeds_pure hclosed
    · rw [dif_neg hlt]
      exact succeeds_pure hclosed
  | some f =>
    obtain ⟨hlt, hfilp⟩ := System.handle_eq_some.mp hf
    rw [dif_pos hlt, hfilp]
    dsimp only
    have hstep {B : ByteFiles} (hB : S.Shows sb B) (r : Result) (B' : ByteFiles) :
        B.Step (.dup t fildes r) B' ↔
          (r = .error .EMFILE ∧ B' = B ∧ ∀ fd < 20, S.handle t fd ≠ none) ∨
          ∃ fd < 20, S.handle t fd = none ∧ (∀ i < fd, S.handle t i ≠ none) ∧ r = .ok fd ∧
            B' = B.assign t fd f := by
      unfold ByteFiles.Step
      dsimp only
      rw [hB.handle, hf]
    cases hfree : (List.finRange 20).find? fun fd => (S.tasks t).filp fd = none with
    | none =>
      refine succeeds_pure (h.simulated fun B hB => (hstep hB _ _).mpr (.inl ⟨rfl, rfl, ?_⟩))
      intro fd hfd hnone
      rw [S.handle_of_lt t hfd] at hnone
      exact List.find?_eq_none.mp hfree ⟨fd, hfd⟩ (List.mem_finRange _) (decide_eq_true hnone)
    | some fd =>
      obtain ⟨hnone, hfirst⟩ := System.first_free hfree
      dsimp only
      refine ⟨_, _, exec_duplicate S t fd f, h.duplicate hf fd, id, fun B hB => ?_⟩
      refine ⟨B.assign t fd f, (hstep hB _ _).mpr (.inr ?_), hB.duplicate t fd f⟩
      exact ⟨fd, fd.isLt, hnone, hfirst, rfl, rfl⟩

theorem get_bind_apply {σ ε α : Type} {f : σ → StateT σ (Except ε) α} (s : σ) :
    (get >>= f) s = f s s := rfl

/-- `sys_read` returns the number of bytes that it has put into the buffer. -/
theorem sysRead_eq (h : Volume sb S) (dev : Devices) (t : Fin 64) (fd : ℕ) (count : ℤ) :
    sysRead sb dev t fd count S =
      (readBytes sb t fd count >>= fun r => pure (r.map List.length)) S := by
  rw [sysRead, readBytes, bind_assoc, get_bind_apply, get_bind_apply]
  cases hf : S.handle t fd with
  | none =>
    by_cases hlt : fd < 20
    · rw [dif_pos hlt, System.handle_eq_none.mp hf hlt]
      rfl
    · rw [dif_neg hlt]
      rfl
  | some f =>
    obtain ⟨hlt, hfilp⟩ := System.handle_eq_some.mp hf
    obtain ⟨hchr, hblk, hany⟩ : sIschr (S.fs.ino (S.files f).inode).mode = false ∧
        sIsblk (S.fs.ino (S.files f).inode).mode = false ∧
        (sIsdir (S.fs.ino (S.files f).inode).mode || sIsreg (S.fs.ino (S.files f).inode).mode) := by
      have htype := (h.zones t fd f hf).2
      rw [← h.ino hf] at htype
      rcases htype with hreg | hdir
      · exact ⟨(sIsreg_types hreg).1, (sIsreg_types hreg).2.1, by simp [hreg]⟩
      · exact ⟨(sIsdir_types hdir).1, (sIsdir_types hdir).2.1, by simp [hdir]⟩
    rw [dif_pos hlt, hfilp]
    dsimp only
    by_cases hneg : count < 0
    · rw [if_pos hneg, if_pos hneg]
      rfl
    rw [if_neg hneg, if_neg hneg]
    by_cases h0 : count = 0
    · rw [if_pos h0, if_pos h0]
      rfl
    rw [if_neg h0, if_neg h0, if_neg (by simp [hchr]), if_neg (by simp [hblk]), if_pos hany]
    generalize (if ((S.fs.ino (S.files f).inode).size : ℤ) < count + (S.files f).pos then
      ((S.fs.ino (S.files f).inode).size : ℤ) - (S.files f).pos else count) = left
    split_ifs
    · rfl
    · rfl

/-! ### Runs -/

variable {dev : Devices} {S₀ : System} {es : List FileEvent} {e : FileEvent}

/-- The byte arrays of a state, with those of inodes that are not in use. -/
def System.bytes (S : System) : ByteFiles where
  file := S.fs.view.file
  regular n := sIsreg (S.fs.view.ino n).mode
  entry f := (S.files f).opened
  handle := S.handle

theorem System.shows_bytes (sb : Super) (S : System) : S.Shows sb S.bytes :=
  ⟨fun _ _ => rfl, fun _ _ => rfl, fun _ => rfl, rfl⟩

/-- **Step lemma.** -/
theorem Volume.step (h : Volume sb S) (hstep : CallStep sb dev S e S') :
    Simulated sb S e S' := by
  cases e with
  | read t fd count r => exact (succeeds_readBytes h t fd count).ensures _ _ hstep.1
  | write t fd buf count r =>
    exact ((succeeds_sysWriteTo h dev hstep.1 buf).ensures _ _ hstep.2).1
  | lseek t fd offset origin r => exact (succeeds_sysLseek h t fd offset origin).ensures _ _ hstep
  | dup t fildes r => exact (succeeds_sysDup h t fildes).ensures _ _ hstep

theorem Volume.run (h₀ : Volume sb S₀) (h : Runs (CallStep sb dev) S₀ es S) :
    Volume sb S ∧ (S₀.fs.view.Exact sb → S.fs.view.Exact sb) := by
  induction h with
  | nil => exact ⟨h₀, id⟩
  | cons _ hstep ih =>
    have hsim := ih.1.step hstep
    exact ⟨hsim.volume, fun he => hsim.exact (ih.2 he)⟩

theorem ByteFiles.Step.clean {B' : ByteFiles} (h : B.Step e B') {n : ℕ}
    (hn : (B.file n).Clean) : (B'.file n).Clean := by
  have hput (f : Fin 64) (k : ℕ) (buf : ℕ → UInt8) :
      (((B.put f k buf).advance f k).file n).Clean := by
    have hfile : ((B.put f k buf).advance f k).file = (B.put f k buf).file := by
      rw [advance]
      split_ifs <;> rfl
    rw [hfile, put]
    dsimp only
    rw [Function.update_apply]
    split_ifs with hnf
    · rw [hnf] at hn
      exact Contents.Clean.write (c := B.contents f) hn _ _ _
    · exact hn
  unfold Step at h
  cases e with
  | read t fd count r =>
    dsimp only at h
    split at h
    · exact h.2 ▸ hn
    · split_ifs at h
      · exact h.2 ▸ hn
      · obtain ⟨bytes, -, -, rfl⟩ := h
        exact hn
  | write t fd buf count r =>
    dsimp only at h
    split at h
    · exact h.2 ▸ hn
    · split_ifs at h
      · exact h.2 ▸ hn
      · exact h.2 ▸ hn
      · obtain ⟨k, -, -, rfl⟩ := h
        exact hput _ k buf
      · exact h.2 ▸ hn
  | lseek t fd offset origin r =>
    dsimp only at h
    split at h
    · exact h.2 ▸ hn
    · split_ifs at h
      · exact h.2 ▸ hn
      · exact h.2 ▸ hn
      · obtain ⟨-, rfl⟩ := h
        exact hn
  | dup t fildes r =>
    dsimp only at h
    split at h
    · exact h.2 ▸ hn
    · obtain ⟨-, rfl, -⟩ | ⟨fd, -, -, -, -, rfl⟩ := h
      · exact hn
      · exact hn

/-- **A file is a byte array.** Every run of the kernel is a run of the byte arrays, with the same
results and the same bytes. At its end no call panics, if it does not write beyond the largest file.
What has never been written is zero. -/
theorem files_refined (h₀ : Volume sb S₀) (h : Runs (CallStep sb dev) S₀ es S) :
    (∃ B, Runs ByteFiles.Step S₀.bytes es B ∧ S.Shows sb B ∧
      ∀ n, (S₀.fs.view.file n).Clean → (B.file n).Clean) ∧
    ∀ t fd, (∀ count, ∃ r S', CallStep sb dev S (.read t fd count r) S') ∧
      (∀ buf count, S.Fits t fd count → ∃ r S', CallStep sb dev S (.write t fd buf count r) S') ∧
      (∀ offset origin, ∃ r S', CallStep sb dev S (.lseek t fd offset origin r) S') ∧
      ∃ r S', CallStep sb dev S (.dup t fd r) S' := by
  have hvolume := (h₀.run h).1
  refine ⟨?_, fun t fd => ⟨fun count => ?_, fun buf count hfits => ?_, fun offset origin => ?_, ?_⟩⟩
  · clear hvolume
    induction h with
    | nil => exact ⟨_, .nil, S₀.shows_bytes sb, fun _ => id⟩
    | cons h hstep ih =>
      obtain ⟨B, hB, hshows, hclean⟩ := ih
      obtain ⟨B', hstep', hshows'⟩ := ((h₀.run h).1.step hstep).step B hshows
      exact ⟨B', hB.cons hstep', hshows', fun n hn => hstep'.clean (hclean n hn)⟩
  · obtain ⟨r, S', hr, -⟩ := succeeds_readBytes hvolume t fd count
    refine ⟨r, S', hr, ?_⟩
    rw [sysRead_eq hvolume]
    change (readBytes sb t fd count S >>= _) = _
    rw [hr]
    rfl
  · obtain ⟨r, S', hr, -⟩ := succeeds_sysWriteTo hvolume dev hfits buf
    exact ⟨r, S', hfits, hr⟩
  · obtain ⟨r, S', hr, -⟩ := succeeds_sysLseek hvolume t fd offset origin
    exact ⟨r, S', hr⟩
  · obtain ⟨r, S', hr, -⟩ := succeeds_sysDup hvolume t fd
    exact ⟨r, S', hr⟩

/-- **No zone is lost or shared.** In every run, the zones in use are those of files, and each is at
one place of one file. When a write returns less than it was asked for, all zones of the device
are. -/
theorem zones_exact (h₀ : Volume sb S₀) (he : S₀.fs.view.Exact sb)
    (h : Runs (CallStep sb dev) S₀ es S) :
    (∀ z, S.fs.view.Used sb z ↔ ∃! a, S.fs.view.Owns sb a z) ∧
    ∀ t fd buf count r S', CallStep sb dev S (.write t fd buf count r) S' →
      ∀ f, S.handle t fd = some f → sIsreg (S.fs.ino (S.files f).inode).mode = true →
        0 ≤ count → r ≠ .ok count.toNat →
          ∀ z, sb.firstdatazone ≤ z → z < sb.nzones → ∃! a, S'.fs.view.Owns sb a z := by
  have hused {S : System} (hvolume : Volume sb S) (he : S.fs.view.Exact sb) (z : ℕ) :
      S.fs.view.Used sb z ↔ ∃! a, S.fs.view.Owns sb a z := by
    refine ⟨fun hz => ?_, fun ⟨a, ha, _⟩ => hvolume.owned.exclusive.used_of_own ha⟩
    obtain ⟨a, ha⟩ := he z hz
    exact ⟨a, ha, fun b hb => hvolume.owned.unique hb ha⟩
  obtain ⟨hvolume, hexact⟩ := h₀.run h
  refine ⟨hused hvolume (hexact he), ?_⟩
  intro t fd buf count r S' hstep f hf hreg hcount hr z hz hz'
  have hsim := hvolume.step hstep
  have hfull := ((succeeds_sysWriteTo hvolume dev hstep.1 buf).ensures _ _ hstep.2).2 f hf hreg
    hcount hr
  exact (hused hsim.volume (hsim.exact (hexact he)) z).mp ⟨hz, hz', hfull z hz hz'⟩

/-! ### A device with one file -/

/-- The descriptor 0 of every process is the file of one block. -/
def oneFile : System where
  fs := oneMarked
  tasks _ := { Traced.userTask with filp := fun fd => if fd = 0 then some 0 else none }
  files _ := ⟨0o100644, 2, 64, 2, 0⟩
  ttyPgrp _ := 0

theorem oneMarked_cur {m : ℕ} (hm : m ≠ 2) : oneMarked.view.ino m = Inode.zero :=
  if_pos (if_neg hm)

/-- The only file is the inode 2. -/
theorem hasZones_oneMarked {m : ℕ} (h : oneMarked.view.HasZones smallSuper m) : m = 2 := by
  by_contra hm
  have htype := h.2
  rw [oneMarked_cur hm] at htype
  revert htype
  decide

theorem owns_oneMarked {a : ℕ × Path} {z : ℕ} (h : oneMarked.view.Owns smallSuper a z) :
    a = (2, .zone 0) ∧ z = 5 := by
  obtain ⟨hzones, hz, h0⟩ := h
  have hm := hasZones_oneMarked hzones
  rw [hm] at hz
  have hplace : oneMarked.place 2 a.2 ≠ 0 := by
    rw [← zoneAt_view (by decide), hz]
    exact h0
  have hpath : a.2 = .zone 0 := eq_zone_zero (fun _ hi => if_neg hi) hplace
  rw [hpath] at hz
  exact ⟨Prod.ext hm hpath, hz.symm⟩

theorem volume_oneFile : Volume smallSuper oneFile := by
  have hzones : oneMarked.view.HasZones smallSuper 2 := ⟨by decide, .inl (by decide)⟩
  have hopen {t f : Fin 64} {fd : ℕ} (_ : oneFile.handle t fd = some f) :
      (oneFile.files f).inode = 2 := rfl
  have hcount : oneMarked.bcount = fun _ => 0 := by
    funext z
    exact (bcount_oneBlock 0 z).trans (ite_self 0)
  refine ⟨⟨⟨fun ha hb => ?_, fun ha => ?_, nofun, nofun⟩, by decide⟩, ⟨?_, ?_, by decide⟩,
    fun t fd f hf => hopen hf ▸ hzones, fun t fd f hf => ?_, fun t fd f hf => ?_⟩
  · exact (owns_oneMarked ha).1.trans (owns_oneMarked hb).1.symm
  · rw [(owns_oneMarked ha).2]
    exact ⟨by decide, by decide, by decide⟩
  · exact buffered_oneMarked.1
  · exact fun z => (congrFun hcount z).trans (by simp)
  · rw [hopen hf]
    decide
  · rw [hopen hf]
    decide

theorem exact_oneFile : oneFile.fs.view.Exact smallSuper := by
  intro z hz
  obtain ⟨hle, -, hset⟩ := hz
  have hbit : smallSuper.bit z ≤ 1 := of_decide_eq_true hset
  have hz : z = 5 := by
    change 5 ≤ z at hle
    change z - 4 ≤ 1 at hbit
    omega
  exact ⟨(2, .zone 0), ⟨by decide, .inl (by decide)⟩, hz.symm, by omega⟩

theorem fits_oneFile : oneFile.Fits 1 0 2000 := fun f _ => by
  have hflags : (oneFile.files f).flags &&& O_APPEND = 0 :=
    (by decide : (2 : UInt16) &&& 0o2000 = 0)
  rw [if_neg (not_not.mpr hflags)]
  decide +revert

/-- A process writes 2000 bytes, for which the file gets a block. -/
theorem exists_write (dev : Devices) (buf : ℕ → UInt8) : ∃ r S,
    Runs (CallStep smallSuper dev) oneFile [.write 1 0 buf 2000 r] S := by
  obtain ⟨r, S, hrun, -⟩ := succeeds_sysWriteTo volume_oneFile dev fits_oneFile buf
  exact ⟨r, S, .cons .nil ⟨fits_oneFile, hrun⟩⟩

/-- The file of one block is written. -/
theorem files_refined_write : ∃ r S B,
    Runs (CallStep smallSuper Traced.noDevices) oneFile [.write 1 0 (fun _ => 98) 2000 r] S ∧
    Runs ByteFiles.Step oneFile.bytes [.write 1 0 (fun _ => 98) 2000 r] B ∧
    S.Shows smallSuper B := by
  obtain ⟨r, S, h⟩ := exists_write Traced.noDevices fun _ => 98
  obtain ⟨⟨B, hB, hshows, -⟩, -⟩ := files_refined volume_oneFile h
  exact ⟨r, S, B, h, hB, hshows⟩

theorem zones_exact_write : ∃ r S,
    Runs (CallStep smallSuper Traced.noDevices) oneFile [.write 1 0 (fun _ => 98) 2000 r] S ∧
    ∀ z, S.fs.view.Used smallSuper z ↔ ∃! a, S.fs.view.Owns smallSuper a z := by
  obtain ⟨r, S, h⟩ := exists_write Traced.noDevices fun _ => 98
  exact ⟨r, S, h, (zones_exact volume_oneFile exact_oneFile h).1⟩

end Linux001.Fs
