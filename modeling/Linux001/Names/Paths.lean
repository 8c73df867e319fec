import Linux001.Names.Quiet
import Mathlib.Data.List.GetD

/-!
# Entries of directories

A directory is read as a sequence of entries, and `find_entry` as a search of that sequence: `scan`
finds the first entry of a block that matches. The link count of an inode is the one in core or the
one on the device, and is kept by the steps that move an inode into core and out of it.

## Main definitions

* `State.entry`, `State.MatchAt`: the entries of a directory, and where a name matches.
* `Coherent`: inodes that are not dirty are as on the device.

## Main results

* `State.scan_some`, `State.scan_none`: what `find_entry` knows after it has read a block.
* `Quiet.nlinks`: most steps keep the link counts.
-/

namespace Linux001.Names

open Fs (Errno Result)

variable {n : ℕ} {s s' : State n} {p : Fin n}

/-! ### Entries -/

/-- The entry `i` of the directory `d`. -/
def State.entry (s : State n) (d i : ℕ) : Entry := s.de (s.zone d (i / 64)) (i % 64)

/-- The entry `i` of the directory `d` matches a name. -/
def State.MatchAt (s : State n) (d : ℕ) (name : Name) (i : ℕ) : Prop :=
  i < s.size d ∧ s.zone d (i / 64) ≠ 0 ∧ Matches (name.take 14) (s.entry d i)

/-- A name matches the entry that is stored for it. -/
theorem matches_pad {name : Name} {m : ℕ} (hm : m ≠ 0) (hlen : name.length ≤ 14) :
    Matches name ⟨m, pad name⟩ := by
  refine ⟨hm, hlen, fun i => ⟨fun hi => ?_, fun _ => rfl⟩⟩
  exact List.getD_eq_default _ _ hi.ge

theorem matches_take {e : Entry} {l : ℕ} (h : e.inode ≠ 0) (hl : l ≤ 14)
    (hzero : ∀ i : Fin 14, i = l → e.name i = 0) : Matches ((List.ofFn e.name).take l) e := by
  have hlen : ((List.ofFn e.name).take l).length = l := by
    rw [List.length_take, List.length_ofFn]
    omega
  refine ⟨h, hlen.le.trans hl, fun i => ⟨fun hi => hzero i (hi.trans hlen), fun hi => ?_⟩⟩
  rw [List.getD_eq_getElem _ _ hi, List.getElem_take, List.getElem_ofFn]

/-- Every entry in use is matched by a name. -/
theorem exists_matches {e : Entry} (h : e.inode ≠ 0) :
    ∃ name : Name, name.length ≤ 14 ∧ Matches name e := by
  by_cases hzero : ∃ i, e.name i = 0
  · obtain ⟨i, hi⟩ := hzero
    have hm := matches_take h (l := i) (by omega) fun j hj => by rwa [Fin.ext hj]
    exact ⟨_, hm.2.1, hm⟩
  · have hm := matches_take h (l := 14) le_rfl fun j hj => absurd hj (by omega)
    exact ⟨_, hm.2.1, hm⟩

/-- Whether a name matches depends on the name of the entry only. -/
theorem Matches.congr {name : Name} {e e' : Entry} (h : Matches name e) (hname : e'.name = e.name)
    (hinode : e'.inode ≠ 0) : Matches name e' :=
  ⟨hinode, h.2.1, fun i => hname ▸ h.2.2 i⟩

namespace State

variable {i entries z : ℕ}

/-- `find_entry` has found the first entry of the block that matches. -/
theorem scan_some {k : ℕ} (h : s.scan p i entries z = some k) :
    k < 64 ∧ i + k < entries ∧ Matches ((s.name p).take 14) (s.de z k) ∧
      ∀ j < k, ¬ Matches ((s.name p).take 14) (s.de z j) := by
  obtain ⟨hk, hmem, hfirst⟩ := List.find?_range_eq_some.mp h
  rw [List.mem_range] at hmem
  refine ⟨by omega, by omega, of_decide_eq_true hk, fun j hj => ?_⟩
  simpa using hfirst j hj

/-- `find_entry` has found no entry in the block. -/
theorem scan_none (h : s.scan p i entries z = none) {k : ℕ} (hk : k < 64) (hi : i + k < entries) :
    ¬ Matches ((s.name p).take 14) (s.de z k) := by
  simpa using List.find?_range_eq_none.mp h k (by omega)

/-- The entries of the block of a position that is the first one of its block. -/
theorem entry_add {d k : ℕ} (hi : i % 64 = 0) (hk : k < 64) :
    s.entry d (i + k) = s.de (s.zone d (i / 64)) k := by
  rw [entry, show (i + k) / 64 = i / 64 by omega, show (i + k) % 64 = k by omega]

end State

/-! ### Link counts -/

/-- An inode in core that is not dirty has the link count of the device. -/
def Coherent (s : State n) : Prop :=
  ∀ m c, s.core m = some c → c.dirt = false → c.nlinks = s.disk m

theorem CoreKept.nlinks {o o' : Option Core} {d d' : ℕ} (h : CoreKept o d o' d')
    (hco : ∀ c, o = some c → c.dirt = false → c.nlinks = d) :
    o'.elim d' Core.nlinks = o.elim d Core.nlinks ∧
      ∀ c, o' = some c → c.dirt = false → c.nlinks = d' := by
  cases h with
  | absent => exact ⟨rfl, fun _ => (nomatch ·)⟩
  | load h => exact ⟨h, fun c hc _ => Option.some.inj hc ▸ h⟩
  | @touch _ c c' h hd =>
    refine ⟨h, fun x hx hdirt => ?_⟩
    obtain rfl := Option.some.inj hx
    rw [h]
    refine hco c rfl (Bool.eq_false_iff.mpr fun hc => ?_)
    rw [hd hc] at hdirt
    cases hdirt
  | write h => exact ⟨h, fun x hx _ => Option.some.inj hx ▸ h⟩
  | evict h => exact ⟨(hco _ rfl h).symm, fun _ => (nomatch ·)⟩

theorem State.nlinks_eq (m : ℕ) : s.nlinks m = (s.core m).elim (s.disk m) Core.nlinks := by
  rw [State.nlinks]
  cases s.core m <;> rfl

/-- A quiet step keeps all link counts. -/
theorem Quiet.nlinks (h : Quiet s s') (hco : Coherent s) :
    Coherent s' ∧ ∀ m, s'.nlinks m = s.nlinks m := by
  refine ⟨fun m => ((h.core m).nlinks (hco m)).2, fun m => ?_⟩
  rw [State.nlinks_eq, State.nlinks_eq]
  exact ((h.core m).nlinks (hco m)).1

/-- Writing an inode to the device is quiet. -/
theorem quiet_flush {m : ℕ} (h : s.flush m = some s') : Quiet s s' ∧ s'.proc = s.proc := by
  obtain ⟨c, hcore, -, rfl⟩ := State.of_flush h
  refine ⟨⟨⟨rfl, rfl, rfl, rfl, rfl, rfl, rfl, rfl, rfl⟩, fun x => ?_⟩, rfl⟩
  simp only [State.setCore_core, Function.update_apply]
  split_ifs with hx
  · rw [hx, hcore]
    exact .write rfl
  · exact .refl ..

/-- Using the slot of an inode for another one is quiet. -/
theorem quiet_evict {m : ℕ} (h : s.evict m = some s') : Quiet s s' ∧ s'.proc = s.proc := by
  obtain ⟨c, hcore, hdirt, -, rfl⟩ := State.of_evict h
  refine ⟨⟨⟨rfl, rfl, rfl, rfl, rfl, rfl, rfl, rfl, rfl⟩, fun x => ?_⟩, rfl⟩
  rw [State.setCore_core, State.setCore_disk, Function.update_apply]
  split_ifs with hx
  · rw [hx, hcore]
    exact .evict hdirt
  · exact .refl ..

/-- The events of processes whose calls have begun. -/
def Event.isInside : Event n → Bool
  | .run _ | .flush _ | .evict _ => true
  | _ => false

end Linux001.Names
