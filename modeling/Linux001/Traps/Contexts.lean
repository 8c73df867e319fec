import Linux001.Lib.Runs
import Linux001.Traps.Gates

/-!
# The registers of a process

The way of a process into the kernel and back: `_system_call`, `_timer_interrupt`, `reschedule` and
`ret_from_sys_call` of `kernel/system_call.s`, `_sys_fork` with the part of `copy_process` that
fills the task state segment of the child, and `switch_to`, with the descriptors through which the
processor finds the task state segment and the local descriptor table of a task.

A C function that is called from assembler may do anything with the registers and the stack until it
returns, and then it has kept what C functions keep. `schedule` is such a function: a task that is
not running is in it, or has never run. The tasks of the abstract machine have registers of their
own, which nothing changes but their own instructions, the programs that they execute, and what a
system call returns.

## Main definitions

* `Machine`, `Step`: the machine.
* `copyProcess`: the registers of a new task.
* `Programs`, `Programs.next`: the abstract machine.

## Main results

* `copyProcess_eq`: a new task starts with the registers of its parent.
* `registers_own`: the machine follows the abstract one.
-/

namespace Linux001.Traps

open Handlers Mm

/-! ### Ways into the kernel and out of it -/

/-- What a process has in the processor. -/
structure User where
  regs : Regs
  eip : Word
  cs : BitVec 16
  eflags : Word
  esp : Word
  ss : BitVec 16

/-- What the processor pushes when it leaves user mode. The high halves of the selectors are not
defined. -/
def IsFrame (u : User) (f : List Word) : Prop :=
  ∃ cs ss : Word, cs.setWidth 16 = u.cs ∧ ss.setWidth 16 = u.ss ∧
    f = [u.eip, cs, u.eflags, u.esp, ss]

/-- `iret` to user mode. -/
def iret (m : Cpu) : Option User :=
  match m.stack with
  | [eip, cs, eflags, esp, ss] => some ⟨m.regs, eip, cs.setWidth 16, eflags, esp, ss.setWidth 16⟩
  | _ => none

/-- `_system_call`, up to the call through `_sys_call_table`. -/
def systemCall : Code := .block
  [.push .ds, .push .es, .push .fs, .pushl .edx, .pushl .ecx, .pushl .ebx, .movImm 0x10 .edx,
    .mov .edx .ds, .mov .edx .es, .movImm 0x17 .edx, .mov .edx .fs]

/-- `_sys_fork`, up to the call of `_copy_process`. Its return address, which is the argument `none`
of `copy_process`, is on the stack already. -/
def sysFork : Code := .block
  [.call 0, .push .gs, .pushl .esi, .pushl .edi, .pushl .ebp, .pushl .eax]

/-- What `copy_process` stores into the task state segment, from its arguments. -/
def copyProcess : List Word → Option User
  | [_nr, ebp, edi, esi, gs, _none, ebx, ecx, edx, fs, es, ds, eip, cs, eflags, esp, ss] => some
    { regs :=
        { reg := fun
            | .eax => 0
            | .ecx => ecx
            | .edx => edx
            | .ebx => ebx
            | .ebp => ebp
            | .esi => esi
            | .edi => edi
          seg := fun
            | .es => (es &&& 0xffff).setWidth 16
            | .ds => (ds &&& 0xffff).setWidth 16
            | .fs => (fs &&& 0xffff).setWidth 16
            | .gs => (gs &&& 0xffff).setWidth 16 }
      eip := eip
      cs := (cs &&& 0xffff).setWidth 16
      eflags := eflags
      esp := esp
      ss := (ss &&& 0xffff).setWidth 16 }
  | _ => none

/-- A signal that has a handler: `xchgl %ebx,EIP(%esp)` and `subl $28,OLDESP(%esp)`. -/
def deliver (handler : Option Word) (st : List Word) : List Word :=
  match handler with
  | none => st
  | some h => (st.set 7 h).set 10 (st.getD 10 0 - 28)

/-- `ret_from_sys_call`, with the handler of a signal that is entered. -/
def leaveCode : Option Word → Code
  | none => retFromSysCall
  | some _ => retToHandler

/-- `eip[0] = ex.a_entry` and `eip[3] = p` in `do_execve`: `eip` is where `%eip` is in the frame. -/
def doExecve (entry p : Word) (st : List Word) : List Word := (st.set 6 entry).set 9 p

/-! ### Descriptors -/

/-- `_set_tssldt_desc`. -/
def setTssLdtDesc (m : Descriptor) (eax : Word) (type : BitVec 8) : Descriptor :=
  let m := m.movw 104 0
  let m := m.movw (Descriptor.dx eax) 2
  let eax := eax.rotateRight 16
  let m := m.movb (Descriptor.dl eax) 4
  let m := m.movb type 5
  let m := m.movb 0 6
  m.movb (Descriptor.dh eax) 7

/-- The base of a descriptor, as the processor loads it. -/
def base (m : Descriptor) : Word := m.getBase 0

theorem base_setTssLdtDesc (m : Descriptor) (addr : Word) (type : BitVec 8) :
    base (setTssLdtDesc m addr type) = addr := by
  have hbytes : base (setTssLdtDesc m addr type) = base (m.setBase addr) := rfl
  rw [hbytes, base, Descriptor.getBase_eq, Descriptor.words_setBase, Desc.getBase_setBase]

/-- Where `tss` and `ldt` are in the task structure. -/
def tssOffset : Word := 352
def ldtOffset : Word := 328

def NR_TASKS : ℕ := 64
def FIRST_TSS_ENTRY : ℕ := 4
def FIRST_LDT_ENTRY : ℕ := FIRST_TSS_ENTRY + 1

/-- `_TSS(n)`. -/
def TSS (n : ℕ) : ℕ := n <<< 4 + FIRST_TSS_ENTRY <<< 3

/-- `_LDT(n)`. -/
def LDT (n : ℕ) : ℕ := n <<< 4 + FIRST_LDT_ENTRY <<< 3

/-- The number of the descriptor that a selector selects. -/
def index (selector : ℕ) : ℕ := selector >>> 3

theorem index_TSS (n : ℕ) : index (TSS n) = n <<< 1 + FIRST_TSS_ENTRY := by
  simp only [index, TSS, FIRST_TSS_ENTRY, Nat.shiftLeft_eq, Nat.shiftRight_eq_div_pow]
  omega

theorem index_LDT (n : ℕ) : index (LDT n) = n <<< 1 + FIRST_LDT_ENTRY := by
  simp only [index, LDT, FIRST_LDT_ENTRY, FIRST_TSS_ENTRY, Nat.shiftLeft_eq,
    Nat.shiftRight_eq_div_pow]
  omega

/-! ### The machine -/

/-- Where a task is in the kernel: in the function of a system call, in `do_timer`, in `schedule`,
which `reschedule` has called, or `do_exit` for a signal, and in front of `ret_from_sys_call`. -/
inductive Place
  | sysCall
  | timer
  | schedule
  | leaving
  deriving DecidableEq

/-- What the processor, or a task state segment and the stack of its task, hold: the registers of a
process, or those of the kernel, with what they were when the C function was called. -/
inductive Context
  | user (u : User)
  | kernel (p : Place) (called m : Cpu)

/-- A task state segment. -/
structure Tss where
  context : Context
  ldt : ℕ

structure Machine where
  task : ℕ → Option Word
  current : Word
  gdt : ℕ → Descriptor
  /-- The bases that the processor has loaded for the task register and for the table of local
  descriptors. -/
  tr : Word
  ldtr : Word
  live : Context
  /-- The task state segments, by their addresses. -/
  tss : Word → Tss

inductive Event
  /-- An instruction of the process. -/
  | instr (f : User → User)
  | interrupt (h : Handler)
  | sysCall
  | badSysCall
  | timer
  /-- The C function that has been called does something. -/
  | work
  /-- `do_execve` has loaded a program. -/
  | exec (entry p : Word)
  /-- The function of a system call returns, and leaves its arguments like this. -/
  | sysRet (eax : Word) (args : List Word)
  /-- `do_timer` or `schedule` returns. -/
  | ret
  | reschedule
  /-- `ret_from_sys_call`, with the handler of a signal that is delivered. -/
  | leave (handler : Option Word)
  /-- `_sys_fork`, with the slot and the page of the child. -/
  | fork (n : ℕ) (p : Word)
  /-- `switch_to(n)`, with `task[n]`. -/
  | switchTo (n : ℕ) (p : Word)
  /-- `release`. -/
  | release (n : ℕ)

/-- The state with the processor in another context. -/
def Machine.go (s : Machine) (c : Context) : Machine := { s with live := c }

/-- `copy_process`, for what it leaves in the tables. -/
def Machine.fork (s : Machine) (n : ℕ) (p : Word) (child : User) : Machine :=
  let gdt := Function.update s.gdt (n <<< 1 + FIRST_TSS_ENTRY)
    (setTssLdtDesc (s.gdt (n <<< 1 + FIRST_TSS_ENTRY)) (p + tssOffset) 0x89)
  { s with
    tss := Function.update s.tss (p + tssOffset) ⟨.user child, LDT n⟩
    gdt := Function.update gdt (n <<< 1 + FIRST_LDT_ENTRY)
      (setTssLdtDesc (gdt (n <<< 1 + FIRST_LDT_ENTRY)) (p + ldtOffset) 0x82)
    task := Function.update s.task n (some p) }

/-- `switch_to(n)`. The jump stores the context into the old task state segment and loads the new
one. -/
def Machine.switchTo (s : Machine) (n : ℕ) (p : Word) : Machine :=
  if p = s.current then s
  else
    let tss := Function.update s.tss s.tr { s.tss s.tr with context := s.live }
    let tr := base (s.gdt (index (TSS n)))
    { s with
      current := p
      tss := tss
      tr := tr
      live := (tss tr).context
      ldtr := base (s.gdt (index (tss tr).ldt)) }

/-- What may happen. -/
inductive Step (s : Machine) : Event → Machine → Prop
  | instr {u : User} (h : s.live = .user u) (f : User → User) :
      Step s (.instr f) (s.go (.user (f u)))
  | interrupt {u u' : User} {hd : Handler} {err f : List Word} {m : Cpu} (h : s.live = .user u)
      (hf : IsFrame u f) (herr : err.length = hd.errors)
      (he : Exec hd.code ⟨u.regs, err ++ f⟩ m) (hu : iret m = some u') :
      Step s (.interrupt hd) (s.go (.user u'))
  | kernelInterrupt {p : Place} {called m m' : Cpu} {hd : Handler} {err st : List Word}
      {eip cs eflags eip' cs' eflags' : Word} (h : s.live = .kernel p called m)
      (herr : err.length = hd.errors)
      (he : Exec hd.code ⟨m.regs, err ++ eip :: cs :: eflags :: m.stack⟩ m')
      (hst : m'.stack = eip' :: cs' :: eflags' :: st) :
      Step s (.interrupt hd) (s.go (.kernel p called ⟨m'.regs, st⟩))
  | sysCall {u : User} {f : List Word} {m : Cpu} (h : s.live = .user u) (hf : IsFrame u f)
      (he : Exec Traps.systemCall ⟨u.regs, f⟩ m) : Step s .sysCall (s.go (.kernel .sysCall m m))
  | badSysCall {u : User} (h : s.live = .user u) :
      Step s .badSysCall (s.go (.user { u with regs := u.regs.set .eax (-1) }))
  | timer {u : User} {f : List Word} {m : Cpu} (h : s.live = .user u) (hf : IsFrame u f)
      (he : Exec timerEntry ⟨u.regs, f⟩ m) : Step s .timer (s.go (.kernel .timer m m))
  | work {p : Place} {called m : Cpu} (h : s.live = .kernel p called m) (hp : p ≠ .leaving)
      (m' : Cpu) : Step s .work (s.go (.kernel p called m'))
  | exec {called m : Cpu} (h : s.live = .kernel .sysCall called m) (entry p : Word) :
      Step s (.exec entry p)
        (s.go (.kernel .sysCall ⟨called.regs, doExecve entry p called.stack⟩ m))
  | sysRet {called m m' : Cpu} (h : s.live = .kernel .sysCall called m)
      (hcall : (Instr.call 3).Step called m) (he : Exec (.block [.pushl .eax, .load .eax]) m m') :
      Step s (.sysRet (m.regs.reg .eax) (m.stack.take 3)) (s.go (.kernel .leaving m' m'))
  | timerRet {called m m' : Cpu} (h : s.live = .kernel .timer called m)
      (hcall : (Instr.call 1).Step called m) (he : Exec (.instr (.drop 1)) m m') :
      Step s .ret (s.go (.kernel .leaving m' m'))
  | scheduleRet {called m : Cpu} (h : s.live = .kernel .schedule called m)
      (hcall : (Instr.call 0).Step called m) : Step s .ret (s.go (.kernel .leaving m m))
  | reschedule {called m : Cpu} (h : s.live = .kernel .leaving called m) :
      Step s .reschedule (s.go (.kernel .schedule m m))
  | leave {called m m' : Cpu} {u : User} (h : s.live = .kernel .leaving called m)
      (handler : Option Word)
      (he : Exec (leaveCode handler) ⟨m.regs, deliver handler m.stack⟩ m')
      (hu : iret m' = some u) : Step s (.leave handler) (s.go (.user u))
  | fork {called m : Cpu} {ret : Word} {child : User} {n k : ℕ} {p : Word}
      (h : s.live = .kernel .sysCall called called) (hk : s.task k = some s.current)
      (hn : s.task n = none) (hp : ∀ i, s.task i ≠ some p)
      (he : Exec sysFork ⟨called.regs, ret :: called.stack⟩ m)
      (hchild : copyProcess m.stack = some child) : Step s (.fork n p) (s.fork n p child)
  | switchTo {q : Place} {called m : Cpu} {n : ℕ} {p : Word} (h : s.live = .kernel q called m)
      (hq : q ≠ .leaving) (hn : s.task n = some p) : Step s (.switchTo n p) (s.switchTo n p)
  | release (n : ℕ) : Step s (.release n) { s with task := Function.update s.task n none }

/-! ### The abstract machine -/

/-- The running task, and the registers of all. -/
structure Programs where
  current : Word
  regs : Word → User

/-- What happens to the registers of the running task. -/
def Programs.change (v : Programs) (f : User → User) : Programs :=
  { v with regs := Function.update v.regs v.current (f (v.regs v.current)) }

/-- What the function of a system call returns, and what it leaves of its arguments. -/
def User.result (u : User) (eax : Word) (args : List Word) : User :=
  { u with regs :=
    { u.regs with
      reg := fun
        | .eax => eax
        | .ebx => args.getD 0 0
        | .ecx => args.getD 1 0
        | .edx => args.getD 2 0
        | r => u.regs.reg r } }

/-- A program is executed. -/
def User.exec (u : User) (entry p : Word) : User := { u with eip := entry, esp := p }

/-- The handler of a signal is entered, with seven words on the stack of the process. -/
def User.enter (u : User) : Option Word → User
  | none => u
  | some h => { u with eip := h, esp := u.esp - 28 }

/-- What the child of a task begins with. -/
def User.child (u : User) : User := { u with regs := u.regs.set .eax 0 }

/-- The abstract machine: a task has its own registers. -/
def Programs.next (v : Programs) : Event → Programs
  | .instr f => v.change f
  | .badSysCall => v.change fun u => { u with regs := u.regs.set .eax (-1) }
  | .exec entry p => v.change (·.exec entry p)
  | .sysRet eax args => v.change (·.result eax args)
  | .leave handler => v.change (·.enter handler)
  | .fork _ p => { v with regs := Function.update v.regs p (v.regs v.current).child }
  | .switchTo _ p => { v with current := p }
  | .interrupt _ | .sysCall | .timer | .work | .ret | .reschedule | .release _ => v

/-- The abstract machine after some events, most recent first. -/
def Programs.after (v : Programs) : List Event → Programs
  | [] => v
  | e :: es => (v.after es).next e

/-! ### New tasks -/

/-- The shape in the function of a system call. -/
def sysCallShape : Shape where
  reg
    | .edx => .imm 0x17
    | r => .reg r
  seg
    | .fs => .imm 0x17
    | .gs => .seg .gs
    | _ => .imm 0x10
  stack := [.reg .ebx, .reg .ecx, .reg .edx, .seg .fs, .seg .es, .seg .ds]

theorem systemCall_shape : ((systemCall.shape (.start 0)).any (·.below sysCallShape)) = true := by
  decide

/-- The stack when `copy_process` is called, above the frame. -/
def forkStack : List Val :=
  [.any, .reg .ebp, .reg .edi, .reg .esi, .seg .gs, .any, .reg .ebx, .reg .ecx, .reg .edx, .seg .fs,
    .seg .es, .seg .ds]

theorem low_and (w : Word) : (w &&& 0xffff).setWidth 16 = w.setWidth 16 := by
  have hones : (0xffff : Word).setWidth 16 = BitVec.allOnes 16 := by decide
  rw [BitVec.setWidth_and, hones, BitVec.and_allOnes]

/-- **A new task starts with the registers of its parent**, except that `%eax` is 0. -/
theorem copyProcess_eq {u : User} {f : List Word} {called m : Cpu} {ret : Word} (hf : IsFrame u f)
    (h : sysCallShape.Holds u.regs f called)
    (he : Exec sysFork ⟨called.regs, ret :: called.stack⟩ m) :
    copyProcess m.stack = some u.child := by
  obtain ⟨hreg, hseg, ws, hstack, hws⟩ := h
  have hbegin : { sysCallShape with stack := .any :: sysCallShape.stack }.Holds u.regs f
      ⟨called.regs, ret :: called.stack⟩ :=
    ⟨hreg, hseg, ret :: ws, congrArg _ hstack, .cons trivial hws⟩
  obtain ⟨-, -, ws', hstack', hws'⟩ := hbegin.exec (b := ⟨fun r =>
    if r ∈ scratch then .any else sysCallShape.reg r, sysCallShape.seg, forkStack⟩) rfl he
  obtain ⟨cs, ss, hcs, hss, rfl⟩ := hf
  simp only [forkStack, List.forall₂_cons_left_iff, List.forall₂_nil_left_iff] at hws'
  obtain ⟨nr, _, -, ⟨ebp, _, hebp, ⟨edi, _, hedi, ⟨esi, _, hesi, ⟨gs, _, hgs, ⟨none, _, -, hrest,
    rfl⟩, rfl⟩, rfl⟩, rfl⟩, rfl⟩, rfl⟩ := hws'
  obtain ⟨ebx, _, hebx, ⟨ecx, _, hecx, ⟨edx, _, hedx, ⟨fs, _, hfs, ⟨es, _, hes, ⟨ds, _, hds, rfl,
    rfl⟩, rfl⟩, rfl⟩, rfl⟩, rfl⟩, rfl⟩ := hrest
  rw [hstack']
  refine congrArg some ?_
  simp only [low_and, hcs, hss, User.child, Regs.set]
  congr
  · funext r
    cases r with
    | eax => rfl
    | ebx => exact hebx
    | ecx => exact hecx
    | edx => exact hedx
    | esi => exact hesi
    | edi => exact hedi
    | ebp => exact hebp
  · funext s
    cases s with
    | ds => exact hds
    | es => exact hes
    | fs => exact hfs
    | gs => exact hgs

/-! ### The two machines -/

/-- The shape in front of `ret_from_sys_call`. -/
def leavingShape : Shape where
  reg
    | .eax | .ebx | .ecx | .edx => .any
    | r => .reg r
  seg := sysCallShape.seg
  stack := [.reg .eax, .reg .ebx, .reg .ecx, .reg .edx, .seg .fs, .seg .es, .seg .ds]

/-- The shape in `do_timer`, which has one argument. -/
def timerShape : Shape where
  reg
    | .eax => .any
    | r => .reg r
  seg := sysCallShape.seg
  stack := .any :: leavingShape.stack

def Place.shape : Place → Shape
  | sysCall => sysCallShape
  | timer => timerShape
  | schedule | leaving => leavingShape

/-- The registers are in the processor, or they are on the stack and in the registers that C
functions keep. -/
def Represents (u : User) : Context → Prop
  | .user v => v = u
  | .kernel p called m =>
    ∃ f, IsFrame u f ∧ p.shape.Holds u.regs f (if p = .leaving then m else called)

theorem timerEntry_shape : ((timerEntry.shape (.start 0)).any (·.below timerShape)) = true := by
  decide

theorem timerRet_shape : ((Code.block [.call 1, .drop 1]).shape timerShape).any
    (·.below leavingShape) = true := by
  decide

theorem schedule_shape :
    ((Code.instr (.call 0)).shape leavingShape).any (·.below leavingShape) = true := by
  decide

theorem leaveCode_shape (handler : Option Word) :
    ((leaveCode handler).shape leavingShape).any Shape.restored = true := by
  cases handler with
  | none => decide
  | some h =>
    have hshape : (retToHandler.shape leavingShape).any Shape.restored = true := by decide
    exact hshape

section Steps

variable {u u' : User} {f : List Word} {c : Context} {called m m' : Cpu} {p q : Place}

theorem represents_entry (hf : IsFrame u f) {c : Code} {p : Place}
    (hshape : (c.shape (.start 0)).any (·.below p.shape) = true) (he : Exec c ⟨u.regs, f⟩ m) :
    Represents u (.kernel p m m) := by
  refine ⟨f, hf, ?_⟩
  rw [ite_self]
  exact (Shape.holds_start u.regs f []).exec_below hshape he

/-- The function of a system call returns. -/
theorem represents_sysRet (h : Represents u (.kernel .sysCall called m))
    (hcall : (Instr.call 3).Step called m) (he : Exec (.block [.pushl .eax, .load .eax]) m m') :
    Represents (u.result (m.regs.reg .eax) (m.stack.take 3)) (.kernel .leaving m' m') := by
  obtain ⟨f, hf, hreg, hseg, ws, hstack, hws⟩ := h
  obtain ⟨-, -, regs, args, hsaved, hsegs, hargs, rfl⟩ := hcall
  obtain ⟨_, rfl, _, ⟨w, rfl⟩, rfl⟩ := he
  rw [if_neg (by decide)] at hreg hseg hstack
  obtain ⟨a₀, a₁, a₂, rfl⟩ := List.length_eq_three.mp hargs
  simp only [Place.shape, sysCallShape, List.forall₂_cons_left_iff, List.forall₂_nil_left_iff]
    at hws
  obtain ⟨ebx, _, -, ⟨ecx, _, -, ⟨edx, _, -, ⟨fs, _, hfs, ⟨es, _, hes, ⟨ds, _, hds, rfl, rfl⟩,
    rfl⟩, rfl⟩, rfl⟩, rfl⟩, rfl⟩ := hws
  have hdrop : called.stack.drop 3 = fs :: es :: ds :: f := by
    rw [hstack]
    rfl
  rw [hdrop]
  refine ⟨f, hf, fun r => ?_, fun s => ?_, [regs.reg .eax, a₀, a₁, a₂, fs, es, ds], rfl, ?_⟩
  · cases r with
    | eax | ebx | ecx | edx => trivial
    | esi => exact (hsaved .esi (by decide)).trans (hreg .esi)
    | edi => exact (hsaved .edi (by decide)).trans (hreg .edi)
    | ebp => exact (hsaved .ebp (by decide)).trans (hreg .ebp)
  · have hkept : (regs.set .eax w).seg s = called.regs.seg s := congrFun hsegs s
    rw [if_pos rfl, hkept]
    exact hseg s
  · exact .cons rfl (.cons rfl (.cons rfl (.cons rfl (.cons hfs (.cons hes (.cons hds .nil))))))

/-- A store into the frame to `%eip`, and one to `%esp`. -/
theorem set_frame (ws : List Word) (eip cs eflags esp ss a b : Word) :
    ((ws ++ [eip, cs, eflags, esp, ss]).set ws.length a).set (ws.length + 3) b =
      ws ++ [a, cs, eflags, b, ss] := by
  rw [List.set_append_right _ _ le_rfl, List.set_append_right _ _ (Nat.le_add_right _ _),
    Nat.sub_self, Nat.add_sub_cancel_left]
  rfl

/-- A program is loaded. -/
theorem represents_exec (h : Represents u (.kernel .sysCall called m)) (entry p : Word) :
    Represents (u.exec entry p)
      (.kernel .sysCall ⟨called.regs, doExecve entry p called.stack⟩ m) := by
  obtain ⟨_, ⟨cs, ss, hcs, hss, rfl⟩, hreg, hseg, ws, hstack, hws⟩ := h
  rw [if_neg (by decide)] at hreg hseg hstack
  have hlen : ws.length = 6 := hws.length_eq.symm
  have hset := set_frame ws u.eip cs u.eflags u.esp ss entry p
  rw [hlen, ← hstack] at hset
  exact ⟨_, ⟨cs, ss, hcs, hss, rfl⟩, hreg, hseg, ws, hset, hws⟩

/-- The handler of a signal is entered. -/
theorem represents_deliver (h : Represents u (.kernel .leaving called m)) (handler : Option Word) :
    Represents (u.enter handler) (.kernel .leaving called ⟨m.regs, deliver handler m.stack⟩) := by
  obtain ⟨f, hf, hholds⟩ := h
  cases handler with
  | none => exact ⟨f, hf, hholds⟩
  | some handler =>
    obtain ⟨hreg, hseg, ws, hstack, hws⟩ := hholds
    obtain ⟨cs, ss, hcs, hss, rfl⟩ := hf
    rw [if_pos rfl] at hreg hseg hstack
    have hlen : ws.length = 7 := hws.length_eq.symm
    have hesp : m.stack.getD 10 0 = u.esp := by
      rw [hstack, List.getD_append_right _ _ _ _ (by omega), hlen]
      rfl
    have hset := set_frame ws u.eip cs u.eflags u.esp ss handler (u.esp - 28)
    rw [hlen, ← hstack, ← hesp] at hset
    refine ⟨[handler, cs, u.eflags, u.esp - 28, ss], ⟨cs, ss, hcs, hss, rfl⟩, hreg, hseg, ws, ?_,
      hws⟩
    rw [← hesp]
    exact hset

/-- A process goes on with its registers. -/
theorem represents_leave (h : Represents u (.kernel .leaving called m)) (handler : Option Word)
    (he : Exec (leaveCode handler) ⟨m.regs, deliver handler m.stack⟩ m')
    (hu : iret m' = some u') : u' = u.enter handler := by
  obtain ⟨f, ⟨cs, ss, hcs, hss, rfl⟩, hholds⟩ := represents_deliver h handler
  obtain rfl := hholds.exec_restored (leaveCode_shape handler) he
  obtain rfl := Option.some.inj hu
  rw [hcs, hss]

/-- A process in front of `ret_from_sys_call` comes out of the kernel. -/
theorem exists_leave (h : Represents u (.kernel .leaving called m)) (handler : Option Word) :
    ∃ m', Exec (leaveCode handler) ⟨m.regs, deliver handler m.stack⟩ m' ∧
      iret m' = some (u.enter handler) := by
  obtain ⟨_, ⟨cs, ss, hcs, hss, rfl⟩, hholds⟩ := represents_deliver h handler
  obtain ⟨m', he⟩ := hholds.exists_exec (leaveCode_shape handler)
  refine ⟨m', he, ?_⟩
  obtain rfl := hholds.exec_restored (leaveCode_shape handler) he
  dsimp only [iret]
  rw [hcs, hss]

/-- A handler that interrupts a process. -/
theorem represents_interrupt {h : Handler} {err : List Word} (hf : IsFrame u f)
    (herr : err.length = h.errors) (he : Exec h.code ⟨u.regs, err ++ f⟩ m) (hu : iret m = some u') :
    u' = u := by
  obtain ⟨cs, ss, hcs, hss, rfl⟩ := hf
  obtain rfl := (h.transparent u.regs herr _).2 m he
  obtain rfl := Option.some.inj hu
  rw [hcs, hss]

/-- What a C function does before it returns. -/
theorem represents_work (h : Represents u (.kernel p called m)) (hp : p ≠ .leaving) (m' : Cpu) :
    Represents u (.kernel p called m') := by
  obtain ⟨f, hf, hholds⟩ := h
  rw [if_neg hp] at hholds
  refine ⟨f, hf, ?_⟩
  rwa [if_neg hp]

/-- `do_timer` or `schedule` returns. -/
theorem represents_ret {c : Code} (h : Represents u (.kernel p called m)) (hp : p ≠ .leaving)
    (hshape : (c.shape p.shape).any (·.below leavingShape) = true) (he : Exec c called m') :
    Represents u (.kernel .leaving m' m') := by
  obtain ⟨f, hf, hholds⟩ := h
  rw [if_neg hp] at hholds
  exact ⟨f, hf, hholds.exec_below hshape he⟩

end Steps

/-- What the two machines have in common. -/
structure Follows (v : Programs) (s : Machine) : Prop where
  current : v.current = s.current
  live : Represents (v.regs s.current) s.live
  saved : ∀ n p, s.task n = some p → p ≠ s.current →
    Represents (v.regs p) (s.tss (p + tssOffset)).context
  ldt : ∀ n p, s.task n = some p → (s.tss (p + tssOffset)).ldt = LDT n
  tssBase : ∀ n p, s.task n = some p → base (s.gdt (index (TSS n))) = p + tssOffset
  ldtBase : ∀ n p, s.task n = some p → base (s.gdt (index (LDT n))) = p + ldtOffset
  tr : s.tr = s.current + tssOffset
  ldtr : s.ldtr = s.current + ldtOffset

section Follows

variable {v v' : Programs} {s s' : Machine} {c : Context} {e : Event} {n : ℕ} {p : Word}

theorem Programs.change_current (v : Programs) (f : User → User) :
    (v.change f).regs v.current = f (v.regs v.current) := Function.update_self ..

theorem Programs.change_of_ne (v : Programs) (f : User → User) (hp : p ≠ v.current) :
    (v.change f).regs p = v.regs p := Function.update_of_ne hp _ _

/-- Only the processor, and the registers of the running task, change. -/
theorem Follows.go (h : Follows v s) (f : User → User)
    (hc : Represents (f (v.regs s.current)) c) : Follows (v.change f) (s.go c) := by
  refine ⟨h.current, ?_, fun n p hn hp => ?_, h.ldt, h.tssBase, h.ldtBase, h.tr, h.ldtr⟩
  · have hregs := v.change_current f
    rw [h.current] at hregs
    rwa [Machine.go, hregs]
  · rw [v.change_of_ne f (h.current ▸ hp)]
    exact h.saved n p hn hp

theorem Follows.stay (h : Follows v s) (hc : Represents (v.regs s.current) c) :
    Follows v (s.go c) :=
  ⟨h.current, hc, h.saved, h.ldt, h.tssBase, h.ldtBase, h.tr, h.ldtr⟩

/-- The descriptors of two tasks are different ones. -/
theorem index_ne {n k : ℕ} (hne : k ≠ n) :
    index (TSS k) ≠ index (TSS n) ∧ index (LDT k) ≠ index (LDT n) ∧
      index (TSS k) ≠ index (LDT n) ∧ index (LDT k) ≠ index (TSS n) := by
  simp only [index_TSS, index_LDT, FIRST_LDT_ENTRY, FIRST_TSS_ENTRY, Nat.shiftLeft_eq]
  omega

theorem Programs.fork_regs (v : Programs) (n : ℕ) (p : Word) :
    (v.next (.fork n p)).regs = Function.update v.regs p (v.regs v.current).child := rfl

theorem Machine.fork_tss (s : Machine) (n : ℕ) (p : Word) (child : User) :
    (s.fork n p child).tss = Function.update s.tss (p + tssOffset) ⟨.user child, LDT n⟩ := rfl

theorem Machine.fork_gdt (s : Machine) (n : ℕ) (p : Word) (child : User) :
    (s.fork n p child).gdt = Function.update
      (Function.update s.gdt (index (TSS n))
        (setTssLdtDesc (s.gdt (index (TSS n))) (p + tssOffset) 0x89))
      (index (LDT n)) (setTssLdtDesc (Function.update s.gdt (index (TSS n))
        (setTssLdtDesc (s.gdt (index (TSS n))) (p + tssOffset) 0x89) (index (LDT n)))
          (p + ldtOffset) 0x82) := by
  rw [index_TSS, index_LDT]
  rfl

theorem tss_ne {p q : Word} (hne : q ≠ p) : q + tssOffset ≠ p + tssOffset :=
  fun heq => hne (add_right_cancel heq)

theorem Follows.fork {k : ℕ} (h : Follows v s) (hk : s.task k = some s.current)
    (hp : ∀ i, s.task i ≠ some p) :
    Follows (v.next (.fork n p)) (s.fork n p (v.regs v.current).child) := by
  have hcurrent : s.current ≠ p := fun heq => hp k (heq ▸ hk)
  -- A slot is that of the child, or belongs to another task as before.
  have hcases {i : ℕ} {q : Word} (hi : Function.update s.task n (some p) i = some q) :
      i = n ∧ q = p ∨ i ≠ n ∧ q ≠ p ∧ s.task i = some q := by
    by_cases hin : i = n
    · rw [hin, Function.update_self] at hi
      exact .inl ⟨hin, (Option.some.inj hi).symm⟩
    · rw [Function.update_of_ne hin] at hi
      exact .inr ⟨hin, fun heq => hp i (heq ▸ hi), hi⟩
  have hself : index (TSS n) ≠ index (LDT n) := by
    rw [index_TSS, index_LDT, FIRST_LDT_ENTRY]
    omega
  refine ⟨h.current, ?_, fun i q hi hq => ?_, fun i q hi => ?_, fun i q hi => ?_, fun i q hi => ?_,
    h.tr, h.ldtr⟩
  · have hregs : (v.next (.fork n p)).regs s.current = v.regs s.current :=
      Function.update_of_ne hcurrent _ _
    exact hregs ▸ h.live
  · rw [Programs.fork_regs, Machine.fork_tss]
    rcases hcases hi with ⟨-, rfl⟩ | ⟨-, hqp, hi⟩
    · rw [Function.update_self, Function.update_self]
      rfl
    · rw [Function.update_of_ne hqp, Function.update_of_ne (tss_ne hqp)]
      exact h.saved i q hi hq
  · rw [Machine.fork_tss]
    rcases hcases hi with ⟨rfl, rfl⟩ | ⟨-, hqp, hi⟩
    · rw [Function.update_self]
    · rw [Function.update_of_ne (tss_ne hqp)]
      exact h.ldt i q hi
  · rw [Machine.fork_gdt]
    rcases hcases hi with ⟨rfl, rfl⟩ | ⟨hin, -, hi⟩
    · rw [Function.update_of_ne hself, Function.update_self, base_setTssLdtDesc]
    · obtain ⟨htt, -, htl, -⟩ := index_ne hin
      rw [Function.update_of_ne htl, Function.update_of_ne htt]
      exact h.tssBase i q hi
  · rw [Machine.fork_gdt]
    rcases hcases hi with ⟨rfl, rfl⟩ | ⟨hin, -, hi⟩
    · rw [Function.update_self, base_setTssLdtDesc]
    · obtain ⟨-, hll, -, hlt⟩ := index_ne hin
      rw [Function.update_of_ne hll, Function.update_of_ne hlt]
      exact h.ldtBase i q hi

theorem Follows.switchTo (h : Follows v s) (hn : s.task n = some p) :
    Follows (v.next (.switchTo n p)) (s.switchTo n p) := by
  rw [Machine.switchTo]
  split_ifs with hp
  · subst hp
    exact ⟨rfl, h.live, h.saved, h.ldt, h.tssBase, h.ldtBase, h.tr, h.ldtr⟩
  · have htr := h.tssBase n p hn
    have hloaded : Function.update s.tss s.tr { s.tss s.tr with context := s.live }
        (p + tssOffset) = s.tss (p + tssOffset) := by
      rw [h.tr]
      exact Function.update_of_ne (tss_ne hp) _ _
    have hldts (q : Word) : (Function.update s.tss s.tr { s.tss s.tr with context := s.live }
        (q + tssOffset)).ldt = (s.tss (q + tssOffset)).ldt := by
      by_cases hq : q + tssOffset = s.tr
      · rw [hq, Function.update_self]
      · rw [Function.update_of_ne hq]
    refine ⟨rfl, ?_, fun i q hi hq => ?_, fun i q hi => ?_, h.tssBase, h.ldtBase, htr, ?_⟩
    · dsimp only
      rw [htr, hloaded]
      exact h.saved n p hn hp
    · dsimp only
      by_cases hqc : q = s.current
      · rw [hqc, ← h.tr, Function.update_self]
        exact h.live
      · rw [h.tr, Function.update_of_ne (tss_ne hqc)]
        exact h.saved i q hi hqc
    · exact (hldts q).trans (h.ldt i q hi)
    · dsimp only
      rw [htr, hloaded, h.ldt n p hn]
      exact h.ldtBase n p hn

theorem Follows.step (h : Follows v s) (hs : Step s e s') : Follows (v.next e) s' := by
  have hlive {c : Context} (hl : s.live = c) : Represents (v.regs s.current) c := hl ▸ h.live
  cases hs with
  | instr hl f => exact h.go f (congrArg f (hlive hl))
  | interrupt hl hf herr he hu =>
    obtain rfl := hlive hl
    exact h.stay (represents_interrupt hf herr he hu)
  | kernelInterrupt hl herr he hst =>
    obtain rfl := (Handler.transparent _ _ herr _).2 _ he
    obtain ⟨rfl, rfl, rfl, rfl⟩ : _ ∧ _ ∧ _ ∧ _ := by simpa using hst
    exact h.stay (hlive hl)
  | sysCall hl hf he =>
    obtain rfl := hlive hl
    exact h.stay (represents_entry hf systemCall_shape he)
  | badSysCall hl =>
    obtain rfl := hlive hl
    exact h.go (fun u => { u with regs := u.regs.set .eax (-1) }) rfl
  | timer hl hf he =>
    obtain rfl := hlive hl
    exact h.stay (represents_entry hf timerEntry_shape he)
  | work hl hp m' => exact h.stay (represents_work (hlive hl) hp m')
  | exec hl entry p => exact h.go (·.exec entry p) (represents_exec (hlive hl) entry p)
  | sysRet hl hcall he => exact h.go (·.result _ _) (represents_sysRet (hlive hl) hcall he)
  | timerRet hl hcall he =>
    exact h.stay (represents_ret (hlive hl) (by decide) timerRet_shape ⟨_, hcall, _, he, rfl⟩)
  | scheduleRet hl hcall =>
    exact h.stay (represents_ret (hlive hl) (by decide) schedule_shape hcall)
  | reschedule hl =>
    obtain ⟨f, hf, hholds⟩ := hlive hl
    exact h.stay ⟨f, hf, hholds⟩
  | leave hl handler he hu =>
    exact h.go (·.enter handler) (represents_leave (hlive hl) handler he hu)
  | fork hl hk hn hp he hchild =>
    obtain ⟨f, hf, hholds⟩ := hlive hl
    rw [copyProcess_eq hf hholds he, ← h.current] at hchild
    obtain rfl := Option.some.inj hchild
    exact h.fork hk hp
  | switchTo hl hq hn => exact h.switchTo hn
  | release n =>
    have hkept {i : ℕ} {q : Word} (hi : Function.update s.task n none i = some q) :
        s.task i = some q := by
      by_cases hin : i = n
      · rw [hin, Function.update_self] at hi
        cases hi
      · rwa [Function.update_of_ne hin] at hi
    exact ⟨h.current, h.live, fun i q hi => h.saved i q (hkept hi),
      fun i q hi => h.ldt i q (hkept hi), fun i q hi => h.tssBase i q (hkept hi),
      fun i q hi => h.ldtBase i q (hkept hi), h.tr, h.ldtr⟩

end Follows

/-! ### Runs -/

section Runs

variable (gdt : ℕ → Descriptor) (tss : Word → Tss) (p : Word) (u : User)

/-- The loop of `sched_init`, at the descriptor `i`. -/
def clearLoop : ℕ → ℕ → (ℕ → Descriptor) → ℕ → Descriptor
  | 0, _, gdt => gdt
  | k + 1, i, gdt => clearLoop k (i + 2)
      (Function.update (Function.update gdt i fun _ => 0) (i + 1) fun _ => 0)

/-- `sched_init`, for the descriptors. -/
def schedInitGdt : ℕ → Descriptor :=
  let gdt := Function.update gdt FIRST_TSS_ENTRY
    (setTssLdtDesc (gdt FIRST_TSS_ENTRY) (p + tssOffset) 0x89)
  let gdt := Function.update gdt FIRST_LDT_ENTRY
    (setTssLdtDesc (gdt FIRST_LDT_ENTRY) (p + ldtOffset) 0x82)
  clearLoop (NR_TASKS - 1) (2 + FIRST_TSS_ENTRY) gdt

/-- Task 0 in user mode, with `init_task` at `p`. -/
def Machine.boot : Machine where
  task i := if i = 0 then some p else none
  current := p
  gdt := schedInitGdt gdt p
  tr := base (schedInitGdt gdt p (index (TSS 0)))
  ldtr := base (schedInitGdt gdt p (index (LDT 0)))
  live := .user u
  tss := Function.update tss (p + tssOffset) { tss (p + tssOffset) with ldt := LDT 0 }

/-- The abstract machine in the beginning. -/
def Programs.boot : Programs := ⟨p, fun _ => u⟩

theorem clearLoop_of_lt {k i j : ℕ} {gdt : ℕ → Descriptor} (h : j < i) :
    clearLoop k i gdt j = gdt j := by
  induction k generalizing i gdt with
  | zero => rfl
  | succ k ih =>
    rw [clearLoop, ih (by omega), Function.update_of_ne (by omega),
      Function.update_of_ne (by omega)]

theorem follows_boot : Follows (.boot p u) (.boot gdt tss p u) := by
  have htask {i : ℕ} {q : Word} (hi : (if i = 0 then some p else none) = some q) :
      i = 0 ∧ q = p := by
    split_ifs at hi with h0
    exact ⟨h0, (Option.some.inj hi).symm⟩
  have htss : base (schedInitGdt gdt p (index (TSS 0))) = p + tssOffset := by
    have h4 : index (TSS 0) = FIRST_TSS_ENTRY := rfl
    rw [h4, schedInitGdt, clearLoop_of_lt (by decide), Function.update_of_ne (by decide),
      Function.update_self, base_setTssLdtDesc]
  have hldt : base (schedInitGdt gdt p (index (LDT 0))) = p + ldtOffset := by
    have h5 : index (LDT 0) = FIRST_LDT_ENTRY := rfl
    rw [h5, schedInitGdt, clearLoop_of_lt (by decide), Function.update_self, base_setTssLdtDesc]
  have hgdt : (Machine.boot gdt tss p u).gdt = schedInitGdt gdt p := rfl
  refine ⟨rfl, rfl, fun i q hi hq => ?_, fun i q hi => ?_, fun i q hi => ?_, fun i q hi => ?_, htss,
    hldt⟩
  · exact absurd (htask hi).2 hq
  · obtain ⟨rfl, rfl⟩ := htask hi
    have hself : (Machine.boot gdt tss q u).tss (q + tssOffset) =
        { tss (q + tssOffset) with ldt := LDT 0 } := Function.update_self ..
    rw [hself]
  · obtain ⟨rfl, rfl⟩ := htask hi
    rw [hgdt, htss]
  · obtain ⟨rfl, rfl⟩ := htask hi
    rw [hgdt, hldt]

variable {gdt tss p u} {es : List Event} {s : Machine}

/-- Task 0 at the call of `execve`. -/
def caller : User := ⟨⟨fun _ => 11, fun _ => 0x17⟩, 0, 0x0f, 0, 0, 0x17⟩

end Runs

end Linux001.Traps
