import Goldfish.Exceptions.Service
import Goldfish.Exceptions.Vectors
import Goldfish.Lib.Code

/-!
# Exceptions that end the program

`ARM_undef`, `ARM_pAbort` and `ARM_dAbort` go to `ARM_except`, which masks the
interrupts and calls `BSP_abort`. That does not return, and nothing of what it
executes can unmask an interrupt. `ARM_reset` and `ARM_reserved` do the same,
but no vector leads to them.
-/

namespace Goldfish.Exceptions

open Processor
open Arm (Word Memory wordAt align)
open StateTransition

/-- The addresses the linker gives; `csting` are those of the strings. -/
structure AbortSymbols where
  handler : Entry → Word
  armExcept : Word
  bspAbort : Word
  csting : Entry → Word

namespace AbortSymbols

variable (y : AbortSymbols)

/-- A handler that does not return. What it loads is not the address of its
string but the first word of it. -/
def trap (e : Entry) : List Instr := [.ldrAt .r0 (y.csting e), .b y.armExcept]

def armReset : List Instr := y.trap .reset

def armUndef : List Instr := y.trap .undef

def armPAbort : List Instr := y.trap .pAbort

def armDAbort : List Instr := y.trap .dAbort

def armReserved : List Instr := y.trap .reserved

def armExceptCode : List Instr :=
  [.alu .sub .r1 .lr (.imm 4), .msrControl (sysMode ||| noInt), .ldrLit .r12 y.bspAbort,
    .movPc .lr, .bx .r12, .b (y.armExcept + 20)]

/-- From a handler to `BSP_abort`. -/
def abortCode (e : Entry) : List Instr := y.trap e ++ y.armExceptCode.take 5

end AbortSymbols

/-- The handlers lie where the linker says. -/
structure Trapping (code : Code) (y : AbortSymbols) : Prop where
  reset : Lies code (y.handler .reset) y.armReset
  undef : Lies code (y.handler .undef) y.armUndef
  pAbort : Lies code (y.handler .pAbort) y.armPAbort
  dAbort : Lies code (y.handler .dAbort) y.armDAbort
  reserved : Lies code (y.handler .reserved) y.armReserved
  except : Lies code y.armExcept y.armExceptCode

/-- The exceptions of a program that cannot go on. The reserved one is never
taken. -/
def Fatal (e : Exception) : Prop := e = .undefined ∨ e = .prefetchAbort ∨ e = .dataAbort

/-- What brings `m` to a handler: from the machine `v` on the instructions `is`
lead there, and `r1` will say `cause`. For an exception that is the address of
its instruction, which `ARM_except` misses by a word at a data abort; who jumps
to a handler may have left anything in `lr`. -/
inductive Raised (code : Code) (y : AbortSymbols) (m : Machine) :
    Entry → List Instr → Machine → Word → Prop
  | exception {x : Exception} (hfatal : Fatal x) (hvector : code x.vector = some (.ldrPc 0x18))
      (hooked : wordAt m.mem (x.vector + 0x20) = y.handler (.of x)) :
      Raised code y m (.of x) [.ldrPc 0x18] ⟨x.enter m.core, m.mem⟩
        (m.core.pc + if x = .dataAbort then 4 else 0)
  | jump {e : Entry} (he : e = .reset ∨ e = .reserved) (hpc : m.core.pc = y.handler e)
      (hmode : m.core.mode ≠ userMode) (hbank : m.core.bank ≠ .fiq) :
      Raised code y m e [] m (m.core.get .lr - 4)

section Symbolic

variable (y : AbortSymbols) (e : Entry) {w : Machine} (hmode : w.core.mode ≠ userMode)

attribute [local simp] AbortSymbols.abortCode AbortSymbols.trap AbortSymbols.armExceptCode runCode
  Instr.exec Core.set Core.get Core.next Core.mode Core.bank Core.setControl Core.exchange
  Bank.ofMode Reg.home Core.put_regs Processor.irqMode Processor.fiqMode Processor.userMode
  supervisorMode abortMode undefinedMode systemMode withControl_sys Alu.apply Operand.value

include hmode

end Symbolic

section Raised

variable {code : Code} {y : AbortSymbols} {m v u : Machine} {e : Entry} {is : List Instr}
  {cause : Word}

theorem Trapping.executes (h : Trapping code y) (he : Lies code (y.handler e) (y.trap e))
    {w : Machine} (hpc : w.core.pc = y.handler e) : Executes code (y.abortCode e) w := by
  have hexcept : Lies code y.armExcept (y.armExceptCode.take 5) := by
    have hsplit := h.except
    rw [← List.take_append_drop 5 y.armExceptCode] at hsplit
    exact hsplit.left
  apply Executes.append
  · exact he.executes (by simp [AbortSymbols.trap, Instr.straight]) hpc
  · exact hexcept.executes (by simp [AbortSymbols.armExceptCode, Instr.straight]) rfl

theorem Trapping.lies (h : Trapping code y) (hraised : Raised code y m e is v cause) :
    Lies code (y.handler e) (y.trap e) := by
  cases hraised with
  | exception hfatal =>
      rcases hfatal with rfl | rfl | rfl
      · exact h.undef
      · exact h.pAbort
      · exact h.dAbort
  | jump he =>
      rcases he with rfl | rfl
      · exact h.reset
      · exact h.reserved

theorem Fatal.bank {x : Exception} (h : Fatal x) (c : Core) :
    (x.enter c).bank = .und ∨ (x.enter c).bank = .abt := by
  rcases h with rfl | rfl | rfl
  · exact .inl rfl
  · exact .inr rfl
  · exact .inr rfl

theorem Raised.executes (h : Raised code y m e is v cause) : Executes code is v := by
  cases h with
  | exception _ hvector => exact ⟨hvector, trivial⟩
  | jump => trivial

end Raised

/-! ## An undefined instruction -/

end Goldfish.Exceptions
