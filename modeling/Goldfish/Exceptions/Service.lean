import Goldfish.Lib.Processor
import Mathlib.Tactic.IntervalCases

/-!
# ARM_irq and ARM_fiq

The interrupt entries of `arm_exc.S` save the interrupted context in a frame
of eight words on the stack of system mode, call the handler in C in system
mode, and restore the context from the frame. This module says where the
parts of the context are at every instruction.
-/

namespace Goldfish.Exceptions

open Processor
open Arm (Word Memory align)

def noIrq : BitVec 8 := 0x80
def noFiq : BitVec 8 := 0x40
def noInt : BitVec 8 := noIrq ||| noFiq
def fiqMode : BitVec 8 := 0x11
def irqMode : BitVec 8 := 0x12
def sysMode : BitVec 8 := 0x1f

/-- IRQ entry and FIQ entry up to the call, for the mode of the interrupt, what
it masks and its handler. -/
def entry (mode mask : BitVec 8) (handler : Word) : List Instr :=
  [.mov .sp (.reg .r0), .alu .sub .r0 .lr (.imm 4), .mov .lr (.reg .r1), .mrsSaved .r1,
    .msrControl (sysMode ||| mask), .stmfd .sp [.r0, .r1], .stmfd .sp [.r2, .r3, .r12, .lr],
    .mov .r0 (.reg .sp), .alu .sub .sp .sp (.imm 8),
    .msrControl (mode ||| mask), .stmfd .r0 [.sp, .lr],
    .msrControl (sysMode ||| mask), .ldrLit .r12 handler, .movPc .lr, .bx .r12]

/-- IRQ exit and FIQ exit, once both are masked. -/
def exit (mode : BitVec 8) : List Instr :=
  [.mov .r0 (.reg .sp), .alu .add .sp .sp (.imm 32),
    .msrControl (mode ||| noInt), .mov .sp (.reg .r0), .ldr .r0 .sp 28, .msrSaved .r0,
    .ldmUser .sp [.r0, .r1, .r2, .r3, .r12, .lr], .nop, .ldr .lr .sp 24, .movsPc]

theorem withControl_sys (p : Psr) : p.withControl (sysMode ||| noInt) =
    { p with irqMasked := true, fiqMasked := true, thumb := false, mode := systemMode } := rfl

def armIrq (bspIrq : Word) : List Instr :=
  entry irqMode noIrq bspIrq ++ .msrControl (sysMode ||| noInt) :: exit irqMode

def armFiq (bspFiq : Word) : List Instr := entry fiqMode noInt bspFiq ++ exit fiqMode

inductive Interrupt where
  | irq | fiq
  deriving DecidableEq

namespace Interrupt

def exception : Interrupt → Exception
  | irq => .irq
  | fiq => .fiq

def bank : Interrupt → Bank
  | irq => .irq
  | fiq => .fiq

def mode : Interrupt → BitVec 8
  | irq => irqMode
  | fiq => fiqMode

def mask : Interrupt → BitVec 8
  | irq => noIrq
  | fiq => noInt

def masked (e : Interrupt) (p : Psr) : Bool :=
  match e with
  | irq => p.irqMasked
  | fiq => p.fiqMasked

/-- An IRQ can itself be interrupted, by an FIQ that leaves its own bank changed. -/
def volatile (e : Interrupt) (b : Bank) : Prop := e = irq ∧ b = .fiq

/-- The banks that interrupts of this kind do not restore. -/
def lost (e : Interrupt) (b : Bank) : Prop := b = e.bank ∨ e.volatile b

end Interrupt

def entryCode (e : Interrupt) (handler : Word) : List Instr := entry e.mode e.mask handler

/-- The entry of `e` at `base` after `j` instructions, when `c` is what it has
interrupted. No instruction there looks at memory. -/
def entryMachine (e : Interrupt) (base handler : Word) (c : Core) (j : ℕ) : Machine :=
  runCode ((entryCode e handler).take j) ⟨(e.exception.enter c).setPc base, fun _ => 0⟩

def entryCore (e : Interrupt) (base handler : Word) (c : Core) (j : ℕ) : Core :=
  (entryMachine e base handler c j).core

/-! ## The frame -/

/-- The frame of an interrupted context, from its lowest word up. -/
def frame (c : Core) : List Word :=
  [c.regs .usr .r0, c.regs .usr .r1, c.regs .usr .r2, c.regs .usr .r3, c.regs .usr .r12,
    c.regs .usr .lr, c.pc, c.cpsr.toWord]

/-- The word `n` of the frame lies here. -/
def slot (c : Core) (n : ℕ) : Word := c.regs .usr .sp - BitVec.ofNat 32 (4 * (8 - n))

/-- The lowest word of the frame that is saved when `j` instructions of the
entry are done. -/
def firstSaved (j : ℕ) : ℕ := if j < 6 then 8 else if j < 7 then 6 else if j < 11 then 2 else 0

/-- The words of the frame that the stack pointer is below then. -/
def firstPushed (j : ℕ) : ℕ := if j < 6 then 8 else if j < 7 then 6 else if j < 9 then 2 else 0

variable (e : Interrupt) (base handler : Word) (c : Core)

/-! ## The registers through the entry -/

theorem entryCode_loads : ∀ i ∈ entryCode e handler, i.loads = false := by
  simp [entryCode, entry, Instr.loads]

theorem entryCode_straight {j : ℕ} (hj : j < 15) :
    ∀ i ∈ (entryCode e handler).take j, i.straight := by
  have hbefore : ∀ i ∈ (entryCode e handler).take 14, i.straight := by
    simp [entryCode, entry, Instr.straight]
  intro i hi
  exact hbefore i (List.take_subset_take_left _ (Nat.le_of_lt_succ hj) hi)

theorem entryCode_status : ∀ i ∈ entryCode e handler, i.status = false := by
  simp [entryCode, entry, Instr.status]

theorem entryCode_control {v : BitVec 8} (hv : .msrControl v ∈ entryCode e handler) :
    v = sysMode ||| e.mask ∨ v = e.mode ||| e.mask := by
  simpa [entryCode, entry, or_comm, or_left_comm] using hv

theorem entryCore_succ {i : Instr} {j : ℕ} (hi : (entryCode e handler)[j]? = some i) :
    entryCore e base handler c (j + 1) = (i.exec (entryMachine e base handler c j)).core := by
  rw [entryCore, entryMachine, runCode_take_succ hi, entryMachine]

theorem entryCore_pc {j : ℕ} (hj : j < 15) :
    (entryCore e base handler c j).pc = base + BitVec.ofNat 32 (4 * j) := by
  have hlength : ((entryCode e handler).take j).length = j :=
    List.length_take_of_le (show j ≤ 15 from hj.le)
  rw [entryCore, entryMachine, runCode_pc (entryCode_straight e handler hj), hlength]
  rfl

/-- What the status register says while an entry is executed. -/
structure Entering (p : Psr) : Prop where
  irqMasked : p.irqMasked = true
  fiqMasked : e = .fiq → p.fiqMasked = true
  mode : p.mode = e.exception.mode ∨ p.mode = systemMode

theorem entering_start : Entering e (e.exception.control c.cpsr) := by
  cases e with
  | irq => exact ⟨rfl, nofun, .inl rfl⟩
  | fiq => exact ⟨rfl, fun _ => rfl, .inl rfl⟩

theorem entering_control (p : Psr) {v : BitVec 8}
    (hv : v = sysMode ||| e.mask ∨ v = e.mode ||| e.mask) : Entering e (p.withControl v) := by
  rcases hv with rfl | rfl
  · cases e with
    | irq => exact ⟨rfl, nofun, .inr rfl⟩
    | fiq => exact ⟨rfl, fun _ => rfl, .inr rfl⟩
  · cases e with
    | irq => exact ⟨rfl, nofun, .inl rfl⟩
    | fiq => exact ⟨rfl, fun _ => rfl, .inl rfl⟩

theorem entryCore_entering {j : ℕ} (hj : j < 15) :
    Entering e (entryCore e base handler c j).cpsr :=
  runCode_cpsr (fun i hi => ⟨entryCode_straight e handler hj i hi,
      entryCode_status e handler i (List.mem_of_mem_take hi)⟩)
    (fun _ hv p => entering_control e p (entryCode_control e handler (List.mem_of_mem_take hv)))
    (entering_start e c)

/-- The registers of user mode and of the mode of the interrupt are not volatile. -/
theorem entryCore_bank {j : ℕ} (hj : j < 15) :
    ¬ e.volatile (entryCore e base handler c j).bank := by
  rintro ⟨rfl, hbank⟩
  rcases (entryCore_entering .irq base handler c hj).mode with hmode | hmode
  · rw [Core.bank, Core.mode, hmode] at hbank
    cases hbank
  · rw [Core.bank, Core.mode, hmode] at hbank
    cases hbank

section Symbolic

attribute [local simp] entryCore entryMachine entryCode entry runCode Instr.exec Core.set Core.get
  Core.next Core.setControl Core.mode Core.bank Exception.enter Interrupt.exception Exception.mode
  Bank.ofMode Reg.home Core.put_regs pushAddress userMode Processor.irqMode Processor.fiqMode
  systemMode supervisorMode abortMode undefinedMode Interrupt.mode Interrupt.mask Operand.value
  Core.exchange Psr.withControl Exception.control sysMode noIrq noInt noFiq irqMode fiqMode
  Exception.link Alu.apply exit Core.setSaved_spsr loadUser loadInto Interrupt.bank firstPushed
  firstSaved slot sub_sub

theorem entryCore_sp {j : ℕ} (hj : j ≤ 15) :
    (entryCore e base handler c j).regs .usr .sp = slot c (firstPushed j) := by
  interval_cases j <;> cases e <;> simp

/-- Every store of the entry puts the next words of the frame in their place. -/
theorem entryCore_store {i : Instr} {j : ℕ} (hi : (entryCode e handler)[j]? = some i)
    (halign : (c.regs .usr .sp).toNat % 4 = 0) (hroom : 32 ≤ (c.regs .usr .sp).toNat)
    (m : Memory) :
    (i.exec ⟨entryCore e base handler c j, m⟩).mem =
      storeWords m (slot c (firstSaved (j + 1)))
        (((frame c).take (firstSaved j)).drop (firstSaved (j + 1))) := by
  have hslot : ∀ n ≤ 8, align (c.regs .usr .sp - BitVec.ofNat 32 (4 * n)) =
      c.regs .usr .sp - BitVec.ofNat 32 (4 * n) := fun n hn => align_sub halign (by omega)
  have htwo := hslot 2 (by decide)
  have hsix := hslot 6 (by decide)
  have height := hslot 8 (by decide)
  have hj : j < 15 := (List.getElem?_eq_some_iff.mp hi).1
  interval_cases j <;> cases hi <;> cases e <;>
    simp [frame, storeWords, htwo, hsix, height]

/-- What a handler must leave as it is called with it, for the context `c` to
be restored, and the stack pointer that the entry calls it with. -/
structure Restorable (s : Core) : Prop where
  mode : s.mode = systemMode
  sp : s.regs .usr .sp = slot c 0
  saved : ∀ r ∈ [Reg.r4, .r5, .r6, .r7, .r8, .r9, .r10, .r11], s.regs .usr r = c.regs .usr r
  banks : ∀ b, b ≠ .usr → ¬ e.lost b → s.regs b = c.regs b
  spsr : ∀ b, ¬ e.lost b → s.spsr b = c.spsr b

theorem entryCore_restorable : Restorable e c (entryCore e base handler c 15) where
  mode := by cases e <;> simp
  sp := by cases e <;> simp
  saved := by cases e <;> simp
  banks b hb hlost := by
    funext r
    cases e <;> cases b <;> simp_all [Interrupt.lost, Interrupt.volatile]
  spsr b hlost := by
    cases e <;> cases b <;> simp_all [Interrupt.lost, Interrupt.volatile, Function.update]

theorem entryCore_masked : (entryCore e base handler c 15).cpsr.irqMasked = true ∧
    (e = .fiq → (entryCore e base handler c 15).cpsr.fiqMasked = true) := by
  cases e <;> simp

/-- The handler returns to the first instruction after the call. -/
theorem entryCore_lr : (entryCore e base handler c 15).regs .usr .lr = base + 60 := by
  cases e <;> simp [add_assoc]

theorem entryCore_call : (entryCore e base handler c 15).pc = handler &&& ~~~1 := by
  cases e <;> simp

/-! ## The exit -/

variable {e c}

theorem exit_restores {s : Core} (hs : Restorable e c s) {m : Memory}
    (hframe : Holds m (slot c 0) (frame c)) (halign : (c.regs .usr .sp).toNat % 4 = 0)
    (hroom : 32 ≤ (c.regs .usr .sp).toNat) :
    SameOff e.lost c (runCode (exit e.mode) ⟨s, m⟩).core := by
  obtain ⟨a, ha⟩ : ∃ a, a = slot c 0 := ⟨_, rfl⟩
  have hmode : s.cpsr.mode = 0x1f#5 := hs.mode
  have hsp : s.regs .usr .sp = a := hs.sp.trans ha.symm
  have htop : a + 32#32 = c.regs .usr .sp := by
    rw [ha]
    exact sub_add_cancel _ _
  have hlow : a.toNat = (c.regs .usr .sp).toNat - 32 := by
    rw [ha]
    exact sub_toNat hroom
  have hword : ∀ n ≤ 7, (a + BitVec.ofNat 32 (4 * n)).toNat % 4 = 0 := by
    intro n hn
    rw [Memory.add_ofNat_toNat (by omega)]
    omega
  have haligned : align a = a := Arm.align_eq (by omega)
  rw [← ha] at hframe
  have hr0 : Arm.wordAt m a = c.regs .usr .r0 :=
    (congrArg (Arm.wordAt m) (BitVec.add_zero a)).symm.trans (hframe 0 (show 0 < 8 by decide))
  have hr1 : Arm.wordAt m (a + 4#32) = c.regs .usr .r1 := hframe 1 (show 1 < 8 by decide)
  have hr2 : Arm.wordAt m (a + 8#32) = c.regs .usr .r2 := hframe 2 (show 2 < 8 by decide)
  have hr3 : Arm.wordAt m (a + 12#32) = c.regs .usr .r3 := hframe 3 (show 3 < 8 by decide)
  have hr12 : Arm.wordAt m (a + 16#32) = c.regs .usr .r12 := hframe 4 (show 4 < 8 by decide)
  have hlr : Arm.wordAt m (a + 20#32) = c.regs .usr .lr := hframe 5 (show 5 < 8 by decide)
  have hpc : loadWord m (a + 24#32) = c.pc :=
    (loadWord_of_aligned m (hword 6 (by decide))).trans (hframe 6 (show 6 < 8 by decide))
  have hcpsr : loadWord m (a + 28#32) = c.cpsr.toWord :=
    (loadWord_of_aligned m (hword 7 (by decide))).trans (hframe 7 (show 7 < 8 by decide))
  constructor
  · cases e <;> simp [hmode, hsp, hpc]
  · cases e <;> simp [hmode, hsp, hcpsr, Psr.ofWord_toWord]
  · intro b hb
    have hown : b ≠ e.bank := fun h => hb (.inl h)
    funext r
    by_cases husr : b = .usr
    · rw [husr]
      cases e <;> simp [hmode, hsp, haligned] <;> cases r <;>
        simp [htop, hr0, hr1, hr2, hr3, hr12, hlr, hs.saved, add_assoc]
    · rw [← hs.banks b husr hb]
      cases e <;> simp_all
  · intro b hb
    have hown : b ≠ e.bank := fun h => hb (.inl h)
    rw [← hs.spsr b hb]
    cases e <;> simp_all

end Symbolic

theorem exit_straight {mode : BitVec 8} {j : ℕ} (hj : j < 10) :
    ∀ i ∈ (exit mode).take j, i.straight := by
  have hnine : ∀ i ∈ (exit mode).take 9, i.straight := by
    simp [exit, Instr.straight]
  intro i hi
  exact hnine i (List.take_subset_take_left (exit mode) (Nat.le_of_lt_succ hj) hi)

theorem exit_status {mode : BitVec 8} : ∀ i ∈ exit mode, i.status = false := by
  simp [exit, Instr.status]

theorem exit_stores {mode : BitVec 8} : ∀ i ∈ exit mode, i.stores = false := by
  simp [exit, Instr.stores]

theorem exit_control {mode v : BitVec 8} (hv : .msrControl v ∈ exit mode) :
    v = mode ||| noInt := by
  simpa [exit] using hv

def Masked (p : Psr) : Prop := p.irqMasked = true ∧ p.fiqMasked = true

theorem masked_control (e : Interrupt) (p : Psr) : Masked (p.withControl (e.mode ||| noInt)) := by
  cases e with
  | irq => exact ⟨rfl, rfl⟩
  | fiq => exact ⟨rfl, rfl⟩

theorem exit_masked {e : Interrupt} {j : ℕ} (hj : j < 10) {m : Machine} (h : Masked m.core.cpsr) :
    Masked (runCode ((exit e.mode).take j) m).core.cpsr := by
  apply runCode_cpsr
    (fun i hi => ⟨exit_straight hj i hi, exit_status i (List.mem_of_mem_take hi)⟩) _ h
  intro v hv p
  rw [exit_control (List.mem_of_mem_take hv)]
  exact masked_control e p

end Goldfish.Exceptions
