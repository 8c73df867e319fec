import Linux001.Lib.Handlers

/-!
# The handlers of the kernel

The handlers of exceptions and interrupts: `kernel/asm.s`, `mm/page.s`, `kernel/keyboard.s`,
`kernel/rs_io.s`, `boot/head.s`, and those of `kernel/system_call.s`. An instruction that only
computes, or reads from memory or from a device, is a `load` of its register, and instructions that
only store to memory or to devices are left out. In a handler, `ret_from_sys_call` enters no handler
of a signal, which has the process go on elsewhere.

## Main definitions

* `Handler`, `Handler.code`: the handlers.
* `Handler.errors`: the words that the processor pushes for an exception, besides the frame.

## Main results

* `Handler.transparent`: what is interrupted does not notice it.
-/

namespace Linux001.Traps

open Handlers

/-- A routine in assembler: the return address is pushed, and `ret` takes it back. -/
def routine (c : Code) : Code := .seq (.instr .pushSym) (.seq c (.instr (.drop 1)))

/-! ### `kernel/asm.s` -/

/-- `no_error_code`. -/
def noErrorCode : Code := .block
  [.xchgl .eax 0, .pushl .ebx, .pushl .ecx, .pushl .edx, .pushl .edi, .pushl .esi, .pushl .ebp,
    .push .ds, .push .es, .push .fs, .pushImm 0, .load .edx, .pushl .edx, .movImm 0x10 .edx,
    .mov .edx .ds, .mov .edx .es, .mov .edx .fs, .call 2, .drop 2, .pop .fs, .pop .es, .pop .ds,
    .popl .ebp, .popl .esi, .popl .edi, .popl .edx, .popl .ecx, .popl .ebx, .popl .eax]

/-- `error_code`. -/
def errorCode : Code := .block
  [.xchgl .eax 1, .xchgl .ebx 0, .pushl .ecx, .pushl .edx, .pushl .edi, .pushl .esi, .pushl .ebp,
    .push .ds, .push .es, .push .fs, .pushl .eax, .load .eax, .pushl .eax, .movImm 0x10 .eax,
    .mov .eax .ds, .mov .eax .es, .mov .eax .fs, .call 2, .drop 2, .pop .fs, .pop .es, .pop .ds,
    .popl .ebp, .popl .esi, .popl .edi, .popl .edx, .popl .ecx, .popl .ebx, .popl .eax]

/-- `_divide_error`, and the others for exceptions without an error code. -/
def withoutCode : Code := .seq (.instr .pushSym) noErrorCode

/-- `_double_fault`, and the others for exceptions with one. -/
def withCode : Code := .seq (.instr .pushSym) errorCode

/-- `math_emulate`. -/
def mathEmulate : Code := .seq (.instr (.popl .eax)) withoutCode

/-- `_device_not_available`. -/
def deviceNotAvailable : Code :=
  .seq (.block [.pushl .eax, .load .eax])
    (.alt mathEmulate
      (.seq (.instr (.load .eax))
        (.seq
          (.alt .skip (.block
            [.pushl .ecx, .pushl .edx, .push .ds, .movImm 0x10 .eax, .mov .eax .ds, .call 0,
              .pop .ds, .popl .edx, .popl .ecx]))
          (.instr (.popl .eax)))))

/-! ### `mm/page.s` -/

/-- `_page_fault`. -/
def pageFault : Code :=
  .seq
    (.block [.xchgl .eax 0, .pushl .ecx, .pushl .edx, .push .ds, .push .es, .push .fs,
      .movImm 0x10 .edx, .mov .edx .ds, .mov .edx .es, .mov .edx .fs, .load .edx, .pushl .edx,
      .pushl .eax])
    (.seq (.alt (.instr (.call 2)) (.instr (.call 2)))
      (.block [.drop 2, .pop .fs, .pop .es, .pop .ds, .popl .edx, .popl .ecx, .popl .eax]))

/-! ### `kernel/keyboard.s` -/

/-- `kb_wait`. -/
def kbWait : Code :=
  routine (.seq (.instr (.pushl .eax)) (.seq (.loop (.instr (.load .eax))) (.instr (.popl .eax))))

/-- `set_leds`. -/
def setLeds : Code :=
  .seq kbWait (.seq (.instr (.load .eax)) (.seq kbWait (.instr (.load .eax))))

/-- `put_queue`. -/
def putQueue : Code :=
  .seq (.block [.pushl .ecx, .pushl .edx, .load .edx, .load .ecx])
    (.seq (.loop (.block [.load .ecx, .load .eax, .load .ebx]))
      (.block [.load .ecx, .popl .edx, .popl .ecx]))

/-- The routines in `key_table`: some only look at `mode`, some set the lamps, and some put
characters into the queue. -/
def keyRoutine : Code :=
  .seq (.block [.load .eax, .load .ebx]) (.alt .skip (.alt setLeds putQueue))

/-- `_keyboard_interrupt`. -/
def keyboardInterrupt : Code :=
  .seq
    (.block [.pushl .eax, .pushl .ebx, .pushl .ecx, .pushl .edx, .push .ds, .push .es,
      .movImm 0x10 .eax, .mov .eax .ds, .mov .eax .es, .load .eax])
    (.seq (.alt .skip (routine keyRoutine))
      (.block [.load .eax, .pushImm 0, .call 1, .drop 1, .pop .es, .pop .ds, .popl .edx, .popl .ecx,
        .popl .ebx, .popl .eax]))

/-! ### `kernel/rs_io.s` -/

/-- `modem_status` and `line_status`. -/
def lineStatus : Code := .block [.load .edx, .load .eax]

/-- `read_char`. -/
def readChar : Code :=
  .seq (.block [.load .eax, .load .edx, .load .ecx, .load .ebx])
    (.alt .skip (.block [.pushl .edx, .call 1, .drop 1]))

/-- `write_char`. -/
def writeChar : Code := .block [.load .ecx, .load .ebx, .load .eax, .load .edx]

/-- `rs_int`. -/
def rsInt : Code :=
  .seq
    (.block [.pushl .edx, .pushl .ecx, .pushl .ebx, .pushl .eax, .push .es, .push .ds,
      .pushImm 0x10, .pop .ds, .pushImm 0x10, .pop .es, .load .edx, .load .eax])
    (.seq
      (.loop (.seq (.block [.load .ecx, .pushl .edx, .load .edx])
        (.seq (routine (.alt lineStatus (.alt readChar writeChar)))
          (.block [.popl .edx, .load .eax]))))
      (.block [.load .eax, .pop .ds, .pop .es, .popl .eax, .popl .ebx, .popl .ecx, .popl .edx,
        .drop 1]))

/-- `_rs1_interrupt` and `_rs2_interrupt`, which push their entry of `table_list`. -/
def rsInterrupt : Code := .seq (.instr .pushSym) rsInt

/-! ### `kernel/system_call.s` -/

/-- The label `3:` of `ret_from_sys_call`. -/
def restoreAll : Code := .block
  [.popl .eax, .popl .ebx, .popl .ecx, .popl .edx, .pop .fs, .pop .es, .pop .ds]

/-- The label `2:`, up to the test that there is a signal. -/
def findSignal : Code := .block [.load .ebx, .load .ecx]

/-- The label `2:` for a signal that is ignored, or `SIGCHLD` without a handler. -/
def ignoreSignal : Code :=
  .seq findSignal (.seq (.block [.load .ebx, .load .ebx]) (.alt .skip (.instr (.load .ecx))))

/-- The label `2:` for a signal that ends the process. -/
def defaultSignal : Code := .block
  [.load .ebx, .load .ecx, .load .ebx, .load .ebx, .load .ecx, .pushl .ecx, .call 1, .drop 1]

/-- `ret_from_sys_call`, with what follows the search for a signal. -/
def retWith (c : Code) : Code :=
  .seq (.instr (.load .eax)) (.seq c restoreAll)

/-- `ret_from_sys_call`, when no handler of a signal is entered: signals are not looked for, there
is none left, or the process ends. -/
def retFromSysCall : Code :=
  retWith (.alt .skip (.seq (.instr (.load .ebx))
    (.alt .skip (.seq (.loop ignoreSignal) (.alt findSignal defaultSignal)))))

/-- `ret_from_sys_call`, when a handler of a signal is entered. -/
def retToHandler : Code :=
  retWith (.seq (.instr (.load .ebx)) (.seq (.loop ignoreSignal) (.block
    [.load .ebx, .load .ecx, .load .ebx, .load .ebx, .load .ecx, .load .ebx, .load .edx,
      .pushl .eax, .pushl .ecx, .pushImm 28, .pushl .edx, .call 2, .popl .edx, .drop 1, .popl .ecx,
      .popl .eax, .load .eax])))

/-- `_timer_interrupt`, up to the call of `do_timer`. -/
def timerEntry : Code := .block
  [.push .ds, .push .es, .push .fs, .pushl .edx, .pushl .ecx, .pushl .ebx, .pushl .eax,
    .movImm 0x10 .eax, .mov .eax .ds, .mov .eax .es, .movImm 0x17 .eax, .mov .eax .fs, .load .eax,
    .pushl .eax]

/-- `_timer_interrupt`. -/
def timerInterrupt : Code :=
  .seq timerEntry (.seq (.block [.call 1, .drop 1]) retFromSysCall)

/-- `_hd_interrupt`. -/
def hdInterrupt : Code := .block
  [.pushl .eax, .pushl .ecx, .pushl .edx, .push .ds, .push .es, .push .fs, .movImm 0x10 .eax,
    .mov .eax .ds, .mov .eax .es, .movImm 0x17 .eax, .mov .eax .fs, .load .eax, .call 0, .pop .fs,
    .pop .es, .pop .ds, .popl .edx, .popl .ecx, .popl .eax]

/-! ### All handlers -/

/-- The handlers, without that of system calls. -/
inductive Handler
  | divideError
  | debug
  | nmi
  | int3
  | overflow
  | bounds
  | invalidOp
  | deviceNotAvailable
  | doubleFault
  | coprocessorSegmentOverrun
  | invalidTSS
  | segmentNotPresent
  | stackSegment
  | generalProtection
  | pageFault
  | reserved
  | coprocessorError
  | timerInterrupt
  | keyboardInterrupt
  | rs1Interrupt
  | rs2Interrupt
  | hdInterrupt
  | ignoreInt
  deriving DecidableEq

def Handler.code : Handler → Code
  | divideError | debug | nmi | int3 | overflow | bounds | invalidOp | coprocessorSegmentOverrun
  | reserved | coprocessorError => withoutCode
  | doubleFault | invalidTSS | segmentNotPresent | stackSegment | generalProtection => withCode
  | deviceNotAvailable => Traps.deviceNotAvailable
  | pageFault => Traps.pageFault
  | timerInterrupt => Traps.timerInterrupt
  | keyboardInterrupt => Traps.keyboardInterrupt
  | rs1Interrupt | rs2Interrupt => rsInterrupt
  | hdInterrupt => Traps.hdInterrupt
  | ignoreInt => .skip

/-- The words that a handler finds on the stack besides the frame. -/
def Handler.errors : Handler → ℕ
  | doubleFault | invalidTSS | segmentNotPresent | stackSegment | generalProtection | pageFault => 1
  | _ => 0

theorem Handler.restores (h : Handler) : h.code.restores h.errors = true := by
  cases h <;> decide

/-- **A handler does not change what it interrupts.** It never gets stuck, and when it is left the
registers and the stack are as they were. -/
theorem Handler.transparent (h : Handler) (o : Regs) {err : List I386.Word}
    (herr : err.length = h.errors) (rest : List I386.Word) :
    Safe h.code ⟨o, err ++ rest⟩ ∧ ∀ m', Exec h.code ⟨o, err ++ rest⟩ m' → m' = ⟨o, rest⟩ :=
  ⟨safe_of_restores h.restores herr, fun _ => exec_of_restores h.restores herr⟩

end Linux001.Traps
