import Mathlib.Logic.Function.Basic
import Mathlib.Order.Basic
import Linux001.Lib.Runs
import Linux001.Lib.Sizes

/-!
# Lazy switching of the FPU context

The model of what `math_state_restore`, the trap `_device_not_available`, `switch_to`,
`copy_process`, `do_execve` and `do_exit` do with the FPU. The FPU is one abstract state, and an FPU
instruction of a program is a function on it. `fnsave` stores the state and resets the unit,
`frstor` loads it, `fninit` resets it. The hardware sets `TS` at every task switch, and an FPU
instruction traps while `TS` is set.

`_device_not_available` compares `current` and `last_task_used_math` before it loads `ds`. In the
kernel these are the two variables. In a program they are two words of its own data segment, and
when they are equal, the trap returns with the FPU as it was. `copy_process` saves the FPU for the
child of the task that owns it, and the reset takes the context away from the parent. `do_execve`
makes the task give up the FPU without setting `TS`, so that the new program goes on with the state
of the old one, and what it computes is not saved.

## Main definitions

* `State`, `State.next`: the FPU and the tasks.
* `Contexts`, `contexts`: the FPU contexts as the programs expect them.
* `Kept`: the steps that lose no context.

## Main results

* `operand_eq_context`: every FPU instruction operates on the context of its task.
* `contexts_lost`: after a fork, after an `execve`, and when the two words are equal, it does not.
-/

namespace Linux001.Sched.Fpu

/-- A task structure: not in use, a task, or a task that has exited. -/
inductive Status
  | free
  | running
  | zombie
  deriving DecidableEq

/-- The FPU and the tasks `T`, with FPU states `F`. -/
structure State (T F : Type*) where
  /-- The state of the FPU. -/
  fpu : F
  /-- `TS` in `cr0`. -/
  ts : Bool
  /-- `last_task_used_math`. -/
  last : Option T
  current : T
  usedMath : T → Bool
  /-- `tss.i387`. -/
  i387 : T → F
  status : T → Status
  /-- The task has not run since it was forked. -/
  fresh : T → Bool

/-- What happens. -/
inductive Event (T F : Type*)
  /-- The current task executes an FPU instruction. The words of its data segment at the addresses
  of `current` and `last_task_used_math` are equal, or they are not. -/
  | instr (same : Bool) (f : F → F)
  /-- `switch_to`. -/
  | switchTo (next : T)
  /-- `copy_process` with the task structure `child`. The copy of the memory may fail. -/
  | fork (child : T) (copied : Bool)
  /-- `do_execve` goes past the point of no return. -/
  | execve
  /-- `do_exit`, which releases the task structure itself when there is no father. -/
  | exit (father : Bool)
  /-- `release`, called by `sys_waitpid`. -/
  | release (t : T)

namespace State

variable {T F : Type*} [DecidableEq T] (init : F) (s : State T F)

/-- The state after boot, in which task `idle` is running. -/
def boot (idle : T) : State T F :=
  { fpu := init
    ts := false
    last := none
    current := idle
    usedMath := fun _ => false
    i387 := fun _ => init
    status := fun t => if t = idle then .running else .free
    fresh := fun _ => false }

/-- `fnsave` into the `tss.i387` of `t`. -/
def fnsave (t : T) : State T F :=
  { s with i387 := Function.update s.i387 t s.fpu, fpu := init }

/-- `if (last_task_used_math) fnsave`. -/
def save : State T F :=
  match s.last with
  | none => s
  | some t => s.fnsave init t

/-- The FPU is loaded for the current task, or reset if the task has not used it before. -/
def load : State T F :=
  if s.usedMath s.current then { s with fpu := s.i387 s.current }
  else { s with fpu := init, usedMath := Function.update s.usedMath s.current true }

/-- `math_state_restore()`. -/
def mathStateRestore : State T F := { (s.save init).load init with last := some s.current }

/-- `_device_not_available`, which finds the words at the addresses of `current` and
`last_task_used_math` equal or not. -/
def deviceNotAvailable (same : Bool) : State T F :=
  let s := { s with ts := false }
  if same then s else s.mathStateRestore init

/-- The state in which an FPU instruction of the current task is executed. -/
def ready (same : Bool) : State T F := if s.ts then s.deviceNotAvailable init same else s

/-- `switch_to(next)`. A task that comes back compares itself to `last_task_used_math`. -/
def switchTo (next : T) : State T F :=
  if next = s.current then s
  else { s with
    current := next
    ts := if s.fresh next then true else decide (s.last ≠ some next)
    fresh := Function.update s.fresh next false }

/-- `copy_process`, as far as it deals with the FPU. -/
def fork (child : T) (copied : Bool) : State T F :=
  let s := { s with
    i387 := Function.update s.i387 child (s.i387 s.current)
    usedMath := Function.update s.usedMath child (s.usedMath s.current) }
  let same := decide (s.last = some s.current) -- `ds` is the kernel's.
  let s := if s.last = some s.current then (s.ready init same).fnsave init child else s
  if copied then { s with
    status := Function.update s.status child .running
    fresh := Function.update s.fresh child true }
  else s

/-- `if (last_task_used_math == current) last_task_used_math = NULL`. -/
def giveUp : State T F := { s with last := if s.last = some s.current then none else s.last }

/-- The state after an event. -/
def next : Event T F → Option (State T F)
  | .instr same f =>
    if s.status s.current = .running then
      let s := s.ready init same
      some { s with fpu := f s.fpu }
    else none
  | .switchTo t => if s.status t = .running then some (s.switchTo t) else none
  | .fork child copied =>
    if s.status s.current = .running ∧ s.status child = .free then some (s.fork init child copied)
    else none
  | .execve =>
    if s.status s.current = .running then
      some { s.giveUp with usedMath := Function.update s.usedMath s.current false }
    else none
  | .exit father =>
    if s.status s.current = .running then
      some { s.giveUp with
        status := Function.update s.status s.current (if father then .zombie else .free) }
    else none
  | .release t =>
    if s.status t = .zombie ∧ t ≠ s.current then
      some { s with status := Function.update s.status t .free }
    else none

end State

/-- The FPU contexts of the tasks as their programs expect them. -/
structure Contexts (T F : Type*) where
  current : T
  context : T → F

variable {T F : Type*} [DecidableEq T]

/-- An FPU instruction changes the context of its task, a child gets a copy of the context of its
parent, and a new program begins with the initial state. -/
def Contexts.next (init : F) (c : Contexts T F) : Event T F → Contexts T F
  | .instr _ f =>
    { c with context := Function.update c.context c.current (f (c.context c.current)) }
  | .switchTo t => { c with current := t }
  | .fork child copied =>
    if copied then { c with context := Function.update c.context child (c.context c.current) }
    else c
  | .execve => { c with context := Function.update c.context c.current init }
  | .exit _ | .release _ => c

/-- The contexts after the events, the most recent of which comes first. -/
def contexts (init : F) (idle : T) : List (Event T F) → Contexts T F
  | [] => ⟨idle, fun _ => init⟩
  | e :: es => (contexts init idle es).next init e

/-- A step that loses no context: an FPU instruction that does not trap, or whose trap finds the
two words equal, is one of the owner of the FPU, and a task that owns the FPU forks only while the
FPU is in its initial state. -/
def Kept (init : F) (s : State T F) : Event T F → Prop
  | .instr same _ => s.ts = false ∨ same = true → s.last = some s.current
  | .fork _ _ => s.last = some s.current → s.fpu = init
  | _ => True

instance [DecidableEq F] (init : F) (s : State T F) : DecidablePred (Kept init s)
  | .instr same _ =>
    inferInstanceAs (Decidable (s.ts = false ∨ same = true → s.last = some s.current))
  | .fork _ _ => inferInstanceAs (Decidable (s.last = some s.current → s.fpu = init))
  | .switchTo _ | .execve | .exit _ | .release _ => .isTrue trivial

/-! ### Where the contexts are -/

/-- The context of the owner is in the FPU, that of another task in its task structure. -/
structure Inv (init : F) (c : Contexts T F) (s : State T F) : Prop where
  current : c.current = s.current
  owner : ∀ t, s.last = some t →
    s.status t = .running ∧ s.fpu = c.context t ∧ s.usedMath t = true
  saved : ∀ t, s.status t = .running → s.last ≠ some t → s.usedMath t = true →
    s.i387 t = c.context t
  unused : ∀ t, s.status t = .running → s.usedMath t = false → c.context t = init

namespace Inv

variable {init : F} {c : Contexts T F} {s : State T F}

theorem boot (idle : T) : Inv init (contexts init idle []) (State.boot init idle) where
  current := rfl
  owner _ h := nomatch h
  saved _ _ _ h := nomatch h
  unused _ _ _ := rfl

omit [DecidableEq T] in
/-- The flag `TS` alone says nothing about the contexts. -/
theorem setTs (h : Inv init c s) (ts : Bool) : Inv init c { s with ts := ts } :=
  ⟨h.current, h.owner, h.saved, h.unused⟩

/-- When the context of the owner has been saved, all contexts are in the task structures. -/
theorem save (h : Inv init c s) : ∃ i387 fpu, s.save init = { s with i387 := i387, fpu := fpu } ∧
    ∀ t, s.status t = .running → s.usedMath t = true → i387 t = c.context t := by
  unfold State.save
  split
  · rename_i hl
    exact ⟨s.i387, s.fpu, rfl, fun t ht hused => h.saved t ht (by rw [hl]; exact (nomatch ·)) hused⟩
  · rename_i u hl
    refine ⟨_, _, rfl, fun t ht hused => ?_⟩
    rw [Function.update_apply]
    split_ifs with htu
    · rw [htu]
      exact (h.owner u hl).2.1
    · exact h.saved t ht (fun h' => htu (Option.some.inj (hl.symm.trans h')).symm) hused

/-- After the trap the FPU has the context of the current task, which owns it. -/
theorem deviceNotAvailable {same : Bool} (h : Inv init c s) (hrun : s.status s.current = .running)
    (hsame : same = true → s.last = some s.current) :
    ∃ s', s.deviceNotAvailable init same = s' ∧ Inv init c s' ∧ s'.last = some s.current ∧
      s'.current = s.current ∧ s'.status = s.status := by
  refine ⟨_, rfl, ?_⟩
  unfold State.deviceNotAvailable
  dsimp only
  split_ifs with heq
  · exact ⟨h.setTs false, hsame heq, rfl, rfl⟩
  · obtain ⟨i387, fpu, hsave, hsaved⟩ := (h.setTs false).save
    unfold State.mathStateRestore State.load
    rw [hsave]
    dsimp only
    split_ifs with hused
    · refine ⟨⟨h.current, ?_, fun t ht _ => hsaved t ht, h.unused⟩, rfl, rfl, rfl⟩
      rintro t ⟨⟩
      exact ⟨hrun, hsaved _ hrun hused, hused⟩
    · have hused : s.usedMath s.current = false := Bool.eq_false_iff.mpr hused
      refine ⟨⟨h.current, ?_, fun t ht htc hut => hsaved t ht ?_, fun t ht hut => h.unused t ht ?_⟩,
        rfl, rfl, rfl⟩
      · rintro t ⟨⟩
        exact ⟨hrun, (h.unused _ hrun hused).symm, Function.update_self ..⟩
      · exact (Function.update_of_ne (fun h => htc (congrArg some h.symm)) ..).symm.trans hut
      · change Function.update s.usedMath s.current true t = false at hut
        rw [Function.update_apply] at hut
        split_ifs at hut
        exact hut

/-- The state in which an FPU instruction is executed. -/
theorem ready {same : Bool} (h : Inv init c s) (hrun : s.status s.current = .running)
    (hkept : s.ts = false ∨ same = true → s.last = some s.current) :
    ∃ s', s.ready init same = s' ∧ Inv init c s' ∧ s'.last = some s.current ∧
      s'.current = s.current ∧ s'.status = s.status := by
  unfold State.ready
  split_ifs with h₁
  · exact h.deviceNotAvailable hrun fun heq => hkept (.inr heq)
  · exact ⟨s, rfl, h, hkept (.inl (Bool.eq_false_iff.mpr h₁)), rfl, rfl⟩

/-- The owner executes an FPU instruction. -/
theorem instr (h : Inv init c s) (hlast : s.last = some s.current) (same : Bool) (f : F → F) :
    Inv init (c.next init (.instr same f)) { s with fpu := f s.fpu } := by
  obtain ⟨hrun, hfpu, hused⟩ := h.owner _ hlast
  have hcur := h.current
  refine ⟨hcur, fun t ht => ?_, fun t ht htc hut => ?_, fun t ht hut => ?_⟩
  · obtain rfl := Option.some.inj (hlast.symm.trans ht)
    refine ⟨hrun, ?_, hused⟩
    change f s.fpu = Function.update c.context c.current _ _
    rw [hcur, Function.update_self, hfpu]
  · have hne : t ≠ c.current := fun h' => htc (by rw [h', hcur]; exact hlast)
    exact (h.saved t ht htc hut).trans (Function.update_of_ne hne ..).symm
  · have hne : t ≠ c.current := by
      rintro rfl
      rw [hcur] at hut
      exact absurd (hused.symm.trans hut) (by decide)
    exact (Function.update_of_ne hne ..).trans (h.unused t ht hut)

theorem switchTo (h : Inv init c s) (t : T) :
    Inv init (c.next init (.switchTo t)) (s.switchTo t) := by
  unfold State.switchTo
  split_ifs with ht
  · exact ⟨ht, h.owner, h.saved, h.unused⟩
  all_goals exact ⟨rfl, h.owner, h.saved, h.unused⟩

/-- A task forks. If it owns the FPU, the FPU is in its initial state. -/
theorem fork (h : Inv init c s) {child : T} (hrun : s.status s.current = .running)
    (hchild : s.status child = .free) (hfpu : s.last = some s.current → s.fpu = init)
    (copied : Bool) : Inv init (c.next init (.fork child copied)) (s.fork init child copied) := by
  have hcur := h.current
  have hne {t : T} (ht : s.status t = .running) : t ≠ child := by
    rintro rfl
    rw [hchild] at ht
    cases ht
  -- The part before the copy of the memory: only the fields of the child and `TS` change.
  obtain ⟨i387, ts, hbefore, hi387, hother⟩ : ∃ i387 ts,
      (let s' : State T F := { s with
          i387 := Function.update s.i387 child (s.i387 s.current)
          usedMath := Function.update s.usedMath child (s.usedMath s.current) }
        let same := decide (s'.last = some s'.current)
        if s'.last = some s'.current then (s'.ready init same).fnsave init child else s') =
        { s with
          i387 := i387
          usedMath := Function.update s.usedMath child (s.usedMath s.current)
          ts := ts } ∧
      (s.usedMath s.current = true → i387 child = c.context s.current) ∧
      ∀ t ≠ child, i387 t = s.i387 t := by
    dsimp only
    split_ifs with hlast
    · obtain ⟨-, hctx, -⟩ := h.owner _ hlast
      refine ⟨Function.update (Function.update s.i387 child (s.i387 s.current)) child s.fpu, false,
        ?_, fun _ => (Function.update_self ..).trans hctx, fun t ht => ?_⟩
      · unfold State.ready State.deviceNotAvailable State.fnsave
        dsimp only
        rw [if_pos (decide_eq_true hlast)]
        have hinit := hfpu hlast
        split_ifs with hts
        · rw [hinit]
        · rw [hinit, Bool.eq_false_iff.mpr hts]
      · rw [Function.update_of_ne ht, Function.update_of_ne ht]
    · refine ⟨_, s.ts, rfl, fun hused => ?_, fun t ht => Function.update_of_ne ht ..⟩
      rw [Function.update_self]
      exact h.saved _ hrun hlast hused
  unfold State.fork
  dsimp only at hbefore ⊢
  rw [hbefore]
  have hused {t : T} (ht : t ≠ child) :
      Function.update s.usedMath child (s.usedMath s.current) t = s.usedMath t :=
    Function.update_of_ne ht ..
  cases copied with
  | false =>
    refine ⟨hcur, fun t ht => ?_, fun t ht htl hut => ?_, fun t ht hut => h.unused t ht ?_⟩
    · obtain ⟨hr, hf, hu⟩ := h.owner t ht
      exact ⟨hr, hf, (hused (hne hr)).trans hu⟩
    · exact (hother t (hne ht)).trans (h.saved t ht htl ((hused (hne ht)).symm.trans hut))
    · exact (hused (hne ht)).symm.trans hut
  | true =>
    have hctx {t : T} (ht : t ≠ child) :
        (c.next init (.fork child true)).context t = c.context t := Function.update_of_ne ht ..
    have hself : (c.next init (.fork child true)).context child = c.context s.current :=
      (Function.update_self ..).trans (congrArg c.context hcur)
    have hstatus {t : T} (ht : t ≠ child) :
        Function.update s.status child .running t = s.status t := Function.update_of_ne ht ..
    refine ⟨hcur, fun t ht => ?_, fun t ht htl hut => ?_, fun t ht hut => ?_⟩
    · obtain ⟨hr, hf, hu⟩ := h.owner t ht
      have htc := hne hr
      exact ⟨(hstatus htc).trans hr, hf.trans (hctx htc).symm, (hused htc).trans hu⟩
    · by_cases htc : t = child
      · subst htc
        refine (hi387 ?_).trans hself.symm
        exact (Function.update_self ..).symm.trans hut
      · refine (hother t htc).trans ((h.saved t ?_ htl ?_).trans (hctx htc).symm)
        · exact (hstatus htc).symm.trans ht
        · exact (hused htc).symm.trans hut
    · by_cases htc : t = child
      · subst htc
        exact hself.trans (h.unused _ hrun ((Function.update_self ..).symm.trans hut))
      · refine (hctx htc).trans (h.unused t ?_ ?_)
        · exact (hstatus htc).symm.trans ht
        · exact (hused htc).symm.trans hut

/-- Whoever gives the FPU up is not the owner any more. -/
theorem last_giveUp {t : T} (h : s.giveUp.last = some t) : s.last = some t ∧ t ≠ s.current := by
  unfold State.giveUp at h
  dsimp only at h
  split_ifs at h with hlast
  refine ⟨h, ?_⟩
  rintro rfl
  exact hlast h

theorem giveUp_ne {t : T} (h : s.giveUp.last ≠ some t) (ht : t ≠ s.current) :
    s.last ≠ some t := by
  unfold State.giveUp at h
  dsimp only at h
  split_ifs at h with hlast
  · rw [hlast]
    exact fun h' => ht (Option.some.inj h').symm
  · exact h

theorem execve (h : Inv init c s) : Inv init (c.next init .execve)
    { s.giveUp with usedMath := Function.update s.usedMath s.current false } := by
  have hcur := h.current
  have hctx {t : T} (ht : t ≠ s.current) : (c.next init .execve).context t = c.context t :=
    Function.update_of_ne (hcur ▸ ht) ..
  have hused {t : T} (ht : t ≠ s.current) :
      Function.update s.usedMath s.current false t = s.usedMath t := Function.update_of_ne ht ..
  refine ⟨hcur, fun t ht => ?_, fun t ht htl hut => ?_, fun t ht hut => ?_⟩
  · obtain ⟨hlast, hne⟩ := last_giveUp ht
    obtain ⟨hr, hf, hu⟩ := h.owner t hlast
    exact ⟨hr, hf.trans (hctx hne).symm, (hused hne).trans hu⟩
  · have hne : t ≠ s.current := by
      rintro rfl
      exact absurd ((Function.update_self ..).symm.trans hut) (by decide)
    exact (h.saved t ht (giveUp_ne htl hne) ((hused hne).symm.trans hut)).trans (hctx hne).symm
  · by_cases hne : t = s.current
    · rw [hne, ← hcur]
      exact Function.update_self ..
    · exact (hctx hne).trans (h.unused t ht ((hused hne).symm.trans hut))

omit [DecidableEq T] in
/-- Tasks stop running. The owner of the FPU is not one of them. -/
theorem stop (h : Inv init c s) (last : Option T) {status : T → Status}
    (hstatus : ∀ t, status t = .running → s.status t = .running)
    (hlast : ∀ t, last = some t → s.last = some t ∧ status t = .running)
    (hgone : ∀ t, status t = .running → last ≠ some t → s.last ≠ some t) :
    Inv init c { s with last := last, status := status } where
  current := h.current
  owner t ht := ⟨(hlast t ht).2, (h.owner t (hlast t ht).1).2⟩
  saved t ht htl := h.saved t (hstatus t ht) (hgone t ht htl)
  unused t ht := h.unused t (hstatus t ht)

theorem step {e : Event T F} {s' : State T F} (h : Inv init c s) (hs : s.next init e = some s')
    (hk : Kept init s e) : Inv init (c.next init e) s' := by
  cases e with
  | instr same f =>
    obtain ⟨hrun, hs⟩ := Option.ite_none_right_eq_some.mp hs
    obtain ⟨s₁, hs₁, hI, hlast, hcur, -⟩ := h.ready hrun hk
    rw [hs₁] at hs
    rw [← Option.some.inj hs]
    exact hI.instr (hlast.trans (congrArg some hcur.symm)) same f
  | switchTo t =>
    obtain ⟨-, hs⟩ := Option.ite_none_right_eq_some.mp hs
    rw [← Option.some.inj hs]
    exact h.switchTo t
  | fork child copied =>
    obtain ⟨hrun, hs⟩ := Option.ite_none_right_eq_some.mp hs
    rw [← Option.some.inj hs]
    exact h.fork hrun.1 hrun.2 hk copied
  | execve =>
    obtain ⟨-, hs⟩ := Option.ite_none_right_eq_some.mp hs
    rw [← Option.some.inj hs]
    exact h.execve
  | exit father =>
    obtain ⟨-, hs⟩ := Option.ite_none_right_eq_some.mp hs
    rw [← Option.some.inj hs]
    have hdead : (if father then Status.zombie else .free) ≠ .running := by
      cases father <;> decide
    generalize (if father then Status.zombie else .free) = x at hdead
    have hother {t : T} (ht : Function.update s.status s.current x t = .running) :
        t ≠ s.current ∧ s.status t = .running := by
      rw [Function.update_apply] at ht
      split_ifs at ht with htc
      · exact absurd ht hdead
      · exact ⟨htc, ht⟩
    refine h.stop s.giveUp.last (fun t ht => (hother ht).2) (fun t ht => ?_)
      fun t ht htl => giveUp_ne htl (hother ht).1
    obtain ⟨hlast, hne⟩ := last_giveUp ht
    exact ⟨hlast, (Function.update_of_ne hne ..).trans (h.owner t hlast).1⟩
  | release t =>
    obtain ⟨ht, hs⟩ := Option.ite_none_right_eq_some.mp hs
    rw [← Option.some.inj hs]
    refine h.stop s.last (fun u hu => ?_) (fun u hu => ⟨hu, ?_⟩) fun u _ => id
    · rw [Function.update_apply] at hu
      split_ifs at hu
      exact hu
    · have hr := (h.owner u hu).1
      have hne : u ≠ t := by
        rintro rfl
        rw [ht.1] at hr
        cases hr
      exact (Function.update_of_ne hne ..).trans hr

end Inv

/-- In every run that loses no context, an FPU instruction operates on the state that the previous
FPU instruction of its task since the last `execve` has left, or else on the context of the parent
at the fork, or on the initial state. -/
theorem operand_eq_context {init : F} {idle : T} {es : List (Event T F)} {s : State T F}
    (hrun : Runs (fun s e s' => s.next init e = some s' ∧ Kept init s e)
      (State.boot init idle) es s)
    (hcur : s.status s.current = .running) {same : Bool}
    (hkept : s.ts = false ∨ same = true → s.last = some s.current) :
    (s.ready init same).fpu = (contexts init idle es).context s.current := by
  have hI : Inv init (contexts init idle es) s := hrun.simulation
    (R := fun es s => Inv init (contexts init idle es) s)
    (fun es s e s' h ⟨hs, hk⟩ => h.step hs hk) (.boot idle)
  obtain ⟨s₁, hs₁, hI₁, hlast, -, -⟩ := hI.ready hcur hkept
  rw [hs₁]
  exact (hI₁.owner _ hlast).2.1

/-- Two tasks use the FPU in turn. -/
theorem operand_eq_context_three : ∃ es s,
    Runs (fun s e s' => s.next 0 e = some s' ∧ Kept 0 s e) (State.boot 0 false) es s ∧
      (s.ready 0 false).fpu = (contexts 0 false es).context s.current := by
  have hexec : ∃ s, exec (fun s e => (s.next 0 e).filter fun _ => Kept 0 s e)
      (State.boot 0 false) [.fork true true, .switchTo true, .instr false (· + 5),
        .switchTo false, .instr false (· + 7), .switchTo true] = some s ∧
      s.status s.current = .running ∧ s.ts = true := ⟨_, rfl, rfl, rfl⟩
  obtain ⟨s, hs, hcur, hts⟩ := hexec
  have hrun := runs_of_exec_guarded hs
  refine ⟨_, s, hrun, operand_eq_context hrun hcur fun h => ?_⟩
  rcases h with h | h
  · exact absurd (hts.symm.trans h) (by decide)
  · cases h

/-- A task that has used the FPU forks and goes on: its FPU is in the initial state. A task that
has used the FPU executes a new program: the FPU has the state of the old one. A task uses the FPU
for the first time, and the two words of its data segment are equal: the FPU has the state of
another task. -/
theorem contexts_lost :
    (∃ es s, Runs (fun s e s' => s.next 0 e = some s') (State.boot 0 (0 : Fin 3)) es s ∧
      s.status s.current = .running ∧
      (s.ready 0 false).fpu = 0 ∧ (contexts 0 0 es).context s.current = 5) ∧
    (∃ es s, Runs (fun s e s' => s.next 0 e = some s') (State.boot 0 (0 : Fin 3)) es s ∧
      s.status s.current = .running ∧
      (s.ready 0 false).fpu = 5 ∧ (contexts 0 0 es).context s.current = 0) ∧
    ∃ es s, Runs (fun s e s' => s.next 0 e = some s') (State.boot 0 (0 : Fin 3)) es s ∧
      s.status s.current = .running ∧
      (s.ready 0 true).fpu = 5 ∧ (contexts 0 0 es).context s.current = 0 := by
  refine ⟨?_, ?_, ?_⟩
  · have hexec : ∃ s, exec (fun s e => s.next 0 e) (State.boot 0 (0 : Fin 3))
        [.fork 1 true, .switchTo 1, .instr false (fun _ => 5), .fork 2 true] = some s ∧
        s.status s.current = .running ∧ (s.ready 0 false).fpu = 0 ∧ s.current = 1 :=
      ⟨_, rfl, rfl, rfl, rfl⟩
    obtain ⟨s, hs, hrun, hfpu, hcur⟩ := hexec
    exact ⟨_, s, runs_of_exec hs, hrun, hfpu, by rw [hcur]; rfl⟩
  · have hexec : ∃ s, exec (fun s e => s.next 0 e) (State.boot 0 (0 : Fin 3))
        [.fork 1 true, .switchTo 1, .instr false (fun _ => 5), .execve] = some s ∧
        s.status s.current = .running ∧ (s.ready 0 false).fpu = 5 ∧ s.current = 1 :=
      ⟨_, rfl, rfl, rfl, rfl⟩
    obtain ⟨s, hs, hrun, hfpu, hcur⟩ := hexec
    exact ⟨_, s, runs_of_exec hs, hrun, hfpu, by rw [hcur]; rfl⟩
  · have hexec : ∃ s, exec (fun s e => s.next 0 e) (State.boot 0 (0 : Fin 3))
        [.fork 1 true, .fork 2 true, .switchTo 1, .instr false (fun _ => 5), .switchTo 2] = some s ∧
        s.status s.current = .running ∧ (s.ready 0 true).fpu = 5 ∧ s.current = 2 :=
      ⟨_, rfl, rfl, rfl, rfl⟩
    obtain ⟨s, hs, hrun, hfpu, hcur⟩ := hexec
    exact ⟨_, s, runs_of_exec hs, hrun, hfpu, by rw [hcur]; rfl⟩

end Linux001.Sched.Fpu
