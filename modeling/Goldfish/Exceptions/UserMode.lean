import Goldfish.Exceptions.Service
import Goldfish.Lib.Code

/-!
# User mode and the interrupt locks

`EnterUserMode` leaves the interrupts masked or unmasked as they are. The
locks of `arm_exc.h` and `arm_exc.S` write the control field, so they need a
privileged mode; they return in system mode.
-/

namespace Goldfish.Exceptions

open Processor
open Arm (Word Memory)
open StateTransition

def usrMode : Word := 0x10

/-- The mode in a status register. -/
def modeMask : Word := 0x1f

def enterUserMode : List Instr :=
  [.mrs .r0, .alu .bic .r1 .r0 (.imm modeMask), .alu .orr .r1 .r1 (.imm usrMode), .msr .r1, .ret]

/-- `ARM_INT_LOCK`. -/
def armIntLock (key : Reg) : List Instr := [.mrs key, .msrControl (sysMode ||| noInt)]

/-- `ARM_INT_UNLOCK`. -/
def armIntUnlock (key : Reg) : List Instr := [.msrControlReg key]

def armIntLockSys : List Instr := armIntLock .r0 ++ [.bx .lr]

def armIntUnlockSys : List Instr := armIntUnlock .r0 ++ [.bx .lr]

theorem toUserMode (w : Word) : Psr.ofWord ((w &&& ~~~modeMask) ||| usrMode) =
    { Psr.ofWord w with mode := Processor.userMode } :=
  Psr.ofWord_mode w (by decide) (by decide)

/-! ## User mode -/

/-- Up to the write of the status register. -/
def userStatus : List Instr :=
  [.mrs .r0, .alu .bic .r1 .r0 (.imm modeMask), .alu .orr .r1 .r1 (.imm usrMode)]

theorem userStatus_word (m : Machine) : (runCode userStatus m).core.get .r1 =
    (m.core.cpsr.toWord &&& ~~~modeMask) ||| usrMode := by
  simp [userStatus, runCode, Instr.exec, Core.next, Core.get_set, Alu.apply, Operand.value]

theorem setStatus_user {c : Core} {w : Word}
    (hw : w = (c.cpsr.toWord &&& ~~~modeMask) ||| usrMode) :
    (c.setStatus (Psr.ofWord w)).cpsr = { c.cpsr with mode := Processor.userMode } := by
  rw [hw, toUserMode, Psr.ofWord_toWord, Core.setStatus]
  split
  · rename_i hmode
    rw [← hmode]
    rfl
  · rfl

/-- `EnterUserMode` changes the mode alone, and returns through the `lr` of
user mode. -/
theorem enterUserMode_status (m : Machine) :
    (runCode enterUserMode m).core.cpsr = { m.core.cpsr with mode := Processor.userMode } ∧
      (runCode enterUserMode m).core.pc = m.core.regs .usr .lr := by
  have hcpsr : (runCode userStatus m).core.cpsr = m.core.cpsr := rfl
  have hlr : (runCode userStatus m).core.regs .usr .lr = m.core.regs .usr .lr := by
    simp [userStatus, runCode, Instr.exec, Core.next, Core.set, Core.put_regs, Reg.home]
  have hword := userStatus_word m
  rw [← hcpsr] at hword
  have hstatus := setStatus_user hword
  refine ⟨hstatus.trans (by rw [hcpsr]), ?_⟩
  change ((runCode userStatus m).core.setStatus
    (.ofWord ((runCode userStatus m).core.get .r1))).get .lr = _
  have hbank : ((runCode userStatus m).core.setStatus
      (.ofWord ((runCode userStatus m).core.get .r1))).bank = .usr := by
    rw [Core.bank, Core.mode, hstatus]
    rfl
  rw [Core.get, hbank, setStatus_regs]
  exact hlr

/-- `EnterUserMode` changes the mode alone, and from then on all that code can
do, short of an exception, leaves the mode and the masks alone: `ARM_INT_LOCK`
too, so that an interrupt which is not masked now can be taken at every
instruction. -/
theorem enterUserMode_keeps {code : Code} (hcode : ∀ a i, code a = some i → i.leaves = false)
    {m t : Machine} (hreach : Reaches (step code) (runCode enterUserMode m) t) :
    (runCode enterUserMode m).core.cpsr = { m.core.cpsr with mode := Processor.userMode } ∧
      t.core.mode = Processor.userMode ∧ t.core.cpsr.irqMasked = m.core.cpsr.irqMasked ∧
      t.core.cpsr.fiqMasked = m.core.cpsr.fiqMasked := by
  obtain ⟨hstatus, -⟩ := enterUserMode_status m
  have hmode : (runCode enterUserMode m).core.mode = Processor.userMode := by
    rw [Core.mode, hstatus]
  have hsame := reaches_sameMasks (fun a i hi => .inr ⟨hmode, hcode a i hi⟩) hreach
  refine ⟨hstatus, hsame.mode.trans hmode, ?_, ?_⟩
  · rw [hsame.irqMasked, hstatus]
  · rw [hsame.fiqMasked, hstatus]

/-! ## The locks -/

theorem armIntLock_status {m : Machine} (hmode : m.core.mode ≠ Processor.userMode) (key : Reg) :
    (runCode (armIntLock key) m).core.cpsr = m.core.cpsr.withControl (sysMode ||| noInt) := by
  change ((m.core.set key m.core.cpsr.toWord).next.setControl _).cpsr = _
  rw [Core.setControl_of_ne (s := (m.core.set key m.core.cpsr.toWord).next) hmode]
  rfl

theorem armIntUnlock_status {m : Machine} (hmode : m.core.mode ≠ Processor.userMode) {key : Reg}
    {p : Psr} (hkey : m.core.get key = p.toWord) :
    (runCode (armIntUnlock key) m).core.cpsr = m.core.cpsr.withControl p.control := by
  change (m.core.setControl ((m.core.get key).setWidth 8)).cpsr = _
  rw [hkey, Psr.toWord_control, Core.setControl_of_ne hmode]

theorem armIntLock_key {key : Reg} (hkey : ∀ b, key.home b = .usr) (m : Machine) :
    (runCode (armIntLock key) m).core.get key = m.core.cpsr.toWord := by
  have hregs : (runCode (armIntLock key) m).core.regs = (m.core.set key m.core.cpsr.toWord).regs :=
    setControl_regs _ _
  rw [Core.get, hkey, hregs, Core.set, hkey, Core.put_regs, if_pos ⟨rfl, rfl⟩]

/-- Between the locks code that leaves the control field alone is executed in
system mode with both interrupts masked. The unlock gives back the mode and the
masks from before, if the key register then holds the status register as it was
before the lock. -/
theorem critical_section {code : Code}
    (hcode : ∀ a i, code a = some i → i.privileged = false) {m t : Machine}
    (hmode : m.core.mode ≠ Processor.userMode) {key : Reg}
    (hreach : Reaches (step code) (runCode (armIntLock key) m) t) :
    Masked t.core.cpsr ∧ t.core.mode = systemMode ∧
      (t.core.get key = m.core.cpsr.toWord →
        SameMasks m.core.cpsr (runCode (armIntUnlock key) t).core.cpsr) := by
  have hlocked : (runCode (armIntLock key) m).core.mode = systemMode := by
    rw [Core.mode, armIntLock_status hmode]
    rfl
  have huser : systemMode ≠ Processor.userMode := by decide
  have hsame := reaches_sameMasks
    (fun a i hi => .inl ⟨hlocked.trans_ne huser, hcode a i hi⟩) hreach
  have hsystem : t.core.mode = systemMode := hsame.mode.trans hlocked
  rw [armIntLock_status hmode] at hsame
  refine ⟨⟨hsame.irqMasked, hsame.fiqMasked⟩, hsystem, fun hkept => ?_⟩
  rw [armIntUnlock_status (hsystem.trans_ne huser) hkept]
  exact SameMasks.of_control m.core.cpsr t.core.cpsr

/-- In system mode `ARM_int_lock_SYS` returns to its caller with the key. -/
theorem armIntLockSys_returns {m : Machine} (hmode : m.core.mode ≠ Processor.userMode) :
    (runCode armIntLockSys m).core.pc = m.core.regs .usr .lr &&& ~~~1 ∧
      (runCode armIntLockSys m).core.get .r0 = m.core.cpsr.toWord ∧
      Masked (runCode armIntLockSys m).core.cpsr := by
  have hstatus := armIntLock_status hmode .r0
  have hhome : ∀ b, Reg.r0.home b = .usr := fun _ => rfl
  have hkey := armIntLock_key hhome m
  have hbank : (runCode (armIntLock .r0) m).core.bank = .usr := by
    rw [Core.bank, Core.mode, hstatus]
    rfl
  have hregs : (runCode (armIntLock .r0) m).core.regs = (m.core.set .r0 m.core.cpsr.toWord).regs :=
    setControl_regs _ _
  have hlr : (runCode (armIntLock .r0) m).core.get .lr = m.core.regs .usr .lr := by
    rw [Core.get, hbank, hregs]
    exact (Core.put_regs _ _ _ _ _ _).trans (if_neg fun h => Reg.noConfusion h.2)
  have hcall : runCode armIntLockSys m = (Instr.bx .lr).exec (runCode (armIntLock .r0) m) := rfl
  have hcpsr : Masked (runCode (armIntLock .r0) m).core.cpsr := by
    rw [hstatus]
    exact ⟨rfl, rfl⟩
  rw [hcall]
  refine ⟨?_, hkey, hcpsr⟩
  change (runCode (armIntLock .r0) m).core.get .lr &&& ~~~1 = _
  rw [hlr]

/-! ## A lock in both modes -/

/-- In system mode with no interrupt masked. -/
def unlocked : Machine where
  core :=
    { regs := fun _ r => if r = .lr then 0x30000 else 0
      pc := 0x40000
      cpsr := ⟨false, false, false, false, 0, false, false, false, systemMode⟩
      spsr := fun _ => ⟨false, false, false, false, 0, false, false, false, systemMode⟩ }
  mem := fun _ => 0

theorem enterUserMode_keeps_unlocked :
    ∃ t, Reaches (step (codeAt 0x30000 (armIntLock .r4))) (runCode enterUserMode unlocked) t ∧
      t.core.pc = 0x30008 ∧ t.core.cpsr.irqMasked = false := by
  obtain ⟨-, hpc⟩ := enterUserMode_status unlocked
  have hlies : Lies (codeAt 0x30000 (armIntLock .r4)) 0x30000 (armIntLock .r4) :=
    lies_codeAt 0x30000 (by decide)
  have hstraight : ∀ i ∈ armIntLock .r4, i.straight := by
    simp [armIntLock, Instr.straight]
  have hdrop : ∀ i ∈ (armIntLock .r4).dropLast, i.straight :=
    fun i hi => hstraight i (List.mem_of_mem_dropLast hi)
  have hreach := (hlies.executes hdrop hpc).reaches
  have hkeeps := enterUserMode_keeps (fun a i hi => ?_) hreach
  · refine ⟨_, hreach, ?_, hkeeps.2.2.1⟩
    rw [runCode_pc hstraight, hpc]
    rfl
  · have hnone : ∀ i ∈ armIntLock .r4, i.leaves = false := by
      simp [armIntLock, Instr.leaves]
    exact hnone i (mem_of_codeAt hi)

/-- Between the locks. -/
def criticalCode : List Instr := [.mov .r5 (.imm 1), .mov .r6 (.reg .r4)]

theorem critical_section_unlocked :
    ∃ t, Reaches (step (codeAt 0x40008 criticalCode)) (runCode (armIntLock .r4) unlocked) t ∧
      t.core.pc = 0x40010 ∧ t.core.get .r5 = 1 ∧ Masked t.core.cpsr ∧
      SameMasks unlocked.core.cpsr (runCode (armIntUnlock .r4) t).core.cpsr := by
  have hlies : Lies (codeAt 0x40008 criticalCode) 0x40008 criticalCode :=
    lies_codeAt 0x40008 (by decide)
  have hstraight : ∀ i ∈ criticalCode.dropLast, i.straight := by
    simp [criticalCode, Instr.straight]
  have hreach := (hlies.executes hstraight (m := runCode (armIntLock .r4) unlocked) rfl).reaches
  have hnone : ∀ i ∈ criticalCode, i.privileged = false := by
    simp [criticalCode, Instr.privileged, Instr.leaves]
  have hsection := critical_section (fun a i hi => hnone i (mem_of_codeAt hi))
    (show unlocked.core.mode ≠ _ by decide) hreach
  exact ⟨_, hreach, rfl, rfl, hsection.1, hsection.2.2 rfl⟩

end Goldfish.Exceptions
