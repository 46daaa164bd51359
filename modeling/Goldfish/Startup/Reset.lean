import Goldfish.Exceptions.Resume
import Goldfish.Exceptions.UserMode
import Goldfish.Exceptions.Vectors
import Goldfish.Lib.Copy

/-!
# From reset to the program

`__cs3_reset` hooks the exceptions, sets the stacks and goes to
`__cs3_start_c`. In `c07e1` it copies a table of vectors itself; later it calls
`low_level_init`. On its way it unmasks IRQ, for one instruction or for good.
-/

namespace Goldfish.Startup

open Processor
open Arm (Word Memory wordAt align)
open Exceptions
open StateTransition

def svcMode : BitVec 8 := 0x13

def irqModeBits : Word := 0x12

/-- `I_BIT`. -/
def irqBit : Word := 0x80

/-- The stack of IRQ mode, with IRQ not masked afterwards. -/
def irqStackCode (irqStack : Word) : List Instr :=
  [.mrs .r0, .alu .bic .r1 .r0 (.imm modeMask), .alu .orr .r1 .r1 (.imm irqModeBits), .msr .r1,
    .ldrLit .sp irqStack, .alu .bic .r0 .r0 (.imm irqBit), .msr .r0]

/-- The addresses the linker gives. -/
structure Cs3Symbols where
  reset : Word
  startC : Word
  stack : Word
  irqStack : Word
  svcStack : Word
  lowLevelInit : Word

namespace Cs3Symbols

variable (y : Cs3Symbols)

/-- `__cs3_start_asm` of `startup_c07e2.S`. -/
def startAsm : Word := y.reset + 72

/-- `__cs3_reset` of `startup_c07e2.S` up to the call. -/
def cs3Reset : List Instr :=
  [.ldrLit .r0 y.reset, .ldrLit .r1 y.startAsm, .mov .lr (.reg .r1), .ldrLit .sp y.stack,
    .bl y.lowLevelInit]

def svcStackCode : List Instr := [.msrControl (svcMode ||| noInt), .ldrLit .sp y.svcStack]

/-- The last two are `__cs3_start_asm`. -/
def programCode : List Instr :=
  [.msrControl (sysMode ||| noInt), .ldrLit .sp y.stack, .ldrLit .r0 y.startAsm, .bx .r0,
    .ldrLit .r0 y.startC, .bx .r0]

/-- Back from the call. -/
def cs3Start : List Instr := y.svcStackCode ++ irqStackCode y.irqStack ++ y.programCode

/-- `vectors_start` of `startup_c07e1.S`: `__cs3_reset` lies behind the table. -/
def vectorsStart : Word := y.reset - 60

/-- `__cs3_start_asm` of `startup_c07e1.S`. -/
def startAsm1 : Word := y.reset + 80

/-- `__cs3_reset` of `startup_c07e1.S` up to its loop. -/
def cs3Reset1 : List Instr :=
  [.ldrLit .r0 y.reset, .ldrLit .r1 y.startAsm1, .mov .lr (.reg .r1), .ldrLit .sp y.stack,
    .ldrLit .r0 0, .ldrLit .r1 y.vectorsStart, .ldrLit .r2 y.reset]

/-- Behind the loop and the stack of IRQ mode, with `__cs3_start_asm`. -/
def cs3Start1 : List Instr :=
  [.ldrLit .r0 y.startAsm1, .bx .r0, .ldrLit .r0 y.startC, .bx .r0]

end Cs3Symbols

/-! ## The stack of IRQ mode -/

theorem ofWord_irqMode (p : Psr) :
    Psr.ofWord ((p.toWord &&& ~~~modeMask) ||| irqModeBits) =
      { p with mode := Processor.irqMode } := by
  have hmode : Psr.ofWord ((p.toWord &&& ~~~modeMask) ||| irqModeBits) = _ :=
    Psr.ofWord_mode p.toWord (by decide) (by decide)
  rw [hmode, Psr.ofWord_toWord]
  rfl

theorem ofWord_unmasked (p : Psr) :
    Psr.ofWord (p.toWord &&& ~~~irqBit) = { p with irqMasked := false } := by
  have hmasks : Psr.ofWord (p.toWord &&& ~~~irqBit) = _ := Psr.ofWord_unmask p.toWord (by decide)
  rw [hmasks, Psr.ofWord_toWord]

section IrqStack

attribute [local simp] irqStackCode runCode Instr.exec Core.set Core.get Core.next Core.mode
  Core.bank Bank.ofMode Reg.home Core.put_regs Processor.irqMode Processor.fiqMode supervisorMode
  Processor.userMode Alu.apply Operand.value Core.setStatus ofWord_irqMode ofWord_unmasked

variable (irqStack : Word) {m : Machine} (hmode : m.core.mode = supervisorMode)

include hmode

theorem irqStackCode_cpsr {j : ℕ} (hj : j ≤ 7) :
    (runCode ((irqStackCode irqStack).take j) m).core.cpsr =
      if j < 4 then m.core.cpsr
      else if j < 7 then { m.core.cpsr with mode := Processor.irqMode }
      else { m.core.cpsr with irqMasked := false } := by
  rw [Core.mode] at hmode
  interval_cases j <;> simp [hmode]

theorem irqStackCode_regs {j : ℕ} (hj : j ≤ 7) (b : Bank) (hb : b ≠ .irq) (r : Reg)
    (hr : b = .usr → r ≠ .r0 ∧ r ≠ .r1) :
    (runCode ((irqStackCode irqStack).take j) m).core.regs b r = m.core.regs b r := by
  rw [Core.mode] at hmode
  have hr0 : ¬ (b = .usr ∧ r = .r0) := fun h => (hr h.1).1 h.2
  have hr1 : ¬ (b = .usr ∧ r = .r1) := fun h => (hr h.1).2 h.2
  interval_cases j <;> simp [hmode, hb, hr0, hr1]

theorem irqStackCode_sp : (runCode (irqStackCode irqStack) m).core.regs .irq .sp = irqStack := by
  rw [Core.mode] at hmode
  simp [hmode]

end IrqStack

/-! ## After low_level_init -/

theorem withControl_svc (p : Psr) : p.withControl (svcMode ||| noInt) =
    { p with irqMasked := true, fiqMasked := true, thumb := false, mode := supervisorMode } := rfl

section Start

variable (y : Cs3Symbols) {m : Machine}

attribute [local simp] runCode Instr.exec Core.set Core.get Core.next Core.mode Core.bank
  Bank.ofMode Reg.home Core.put_regs Processor.irqMode Processor.fiqMode supervisorMode
  Processor.userMode systemMode Core.setControl withControl_svc withControl_sys Core.exchange
  Cs3Symbols.svcStackCode Cs3Symbols.programCode

section Supervisor

variable (hmode : m.core.mode = supervisorMode)

include hmode

theorem svcStackCode_cpsr : (runCode y.svcStackCode m).core.cpsr =
    { m.core.cpsr with irqMasked := true, fiqMasked := true, thumb := false } := by
  rw [Core.mode] at hmode
  simp [hmode]

theorem svcStackCode_regs (b : Bank) (r : Reg) : (runCode y.svcStackCode m).core.regs b r =
    if b = .svc ∧ r = .sp then y.svcStack else m.core.regs b r := by
  rw [Core.mode] at hmode
  simp [hmode]

theorem svcStackCode_mode : (runCode y.svcStackCode m).core.mode = supervisorMode := by
  rw [Core.mode, svcStackCode_cpsr y hmode]
  exact hmode

theorem svcStackCode_masked (hmasked : Masked m.core.cpsr) (j : ℕ) :
    Masked (runCode (y.svcStackCode.take j) m).core.cpsr := by
  rw [Core.mode] at hmode
  rcases j with _ | _ | j
  · exact hmasked
  · simp [hmode, Masked]
  · simp [hmode, Masked]

end Supervisor

section Privileged

variable (hmode : m.core.mode ≠ Processor.userMode)

include hmode

theorem programCode_masked {j : ℕ} (hj : j ≤ 5) :
    Masked (runCode (y.programCode.take (j + 1)) m).core.cpsr := by
  change m.core.cpsr.mode ≠ 16#5 at hmode
  interval_cases j <;> simp [Masked, hmode]

theorem programCode_regs (b : Bank) (r : Reg) (hr : b = .usr → r ≠ .r0) :
    (runCode y.programCode m).core.regs b r =
      if b = .usr ∧ r = .sp then y.stack else m.core.regs b r := by
  change m.core.cpsr.mode ≠ 16#5 at hmode
  have hr0 : ¬ (b = .usr ∧ r = .r0) := fun h => hr h.1 h.2
  simp [hmode, hr0, abortMode, undefinedMode]

theorem programCode_mode : (runCode y.programCode m).core.mode = systemMode := by
  change m.core.cpsr.mode ≠ 16#5 at hmode
  simp [hmode]

theorem programCode_pc : (runCode y.programCode m).core.pc = y.startC &&& ~~~1 := by
  change m.core.cpsr.mode ≠ 16#5 at hmode
  simp [hmode]

end Privileged

/-! ### The instruction before which IRQ is not masked -/

def Cs3Symbols.window (y : Cs3Symbols) (m : Machine) : Machine :=
  runCode (irqStackCode y.irqStack) (runCode y.svcStackCode m)

theorem cs3Start_take (m : Machine) (j : ℕ) : runCode (y.cs3Start.take j) m =
    runCode (y.programCode.take (j - 9)) (runCode ((irqStackCode y.irqStack).take (j - 2))
      (runCode (y.svcStackCode.take j) m)) := by
  rw [Cs3Symbols.cs3Start, List.take_append, List.take_append, runCode_append, runCode_append]
  rfl

/-- The three parts of the way from `low_level_init` to the program. -/
theorem cs3Start_cases {motive : ℕ → Machine → Prop}
    (hfirst : ∀ j < 2, motive j (runCode (y.svcStackCode.take j) m))
    (hsecond : ∀ k ≤ 7, motive (2 + k)
      (runCode ((irqStackCode y.irqStack).take k) (runCode y.svcStackCode m)))
    (hthird : ∀ k ≤ 5, motive (10 + k) (runCode (y.programCode.take (k + 1)) (y.window m)))
    {j : ℕ} (hj : j ≤ 15) : motive j (runCode (y.cs3Start.take j) m) := by
  rw [cs3Start_take]
  rcases Nat.lt_or_ge j 2 with hlt | hge
  · have hirq : j - 2 = 0 := by omega
    have hrest : j - 9 = 0 := by omega
    rw [hirq, hrest]
    exact hfirst j hlt
  · have hall : y.svcStackCode.take j = y.svcStackCode := List.take_of_length_le hge
    rw [hall]
    rcases Nat.lt_or_ge 9 j with hlast | hwindow
    · obtain ⟨k, rfl⟩ : ∃ k, j = 10 + k := ⟨j - 10, by omega⟩
      have hirq : (irqStackCode y.irqStack).take (10 + k - 2) = irqStackCode y.irqStack :=
        List.take_of_length_le (by change 7 ≤ 10 + k - 2; omega)
      have hrest : 10 + k - 9 = k + 1 := by omega
      rw [hirq, hrest]
      exact hthird k (by omega)
    · obtain ⟨k, rfl⟩ : ∃ k, j = 2 + k := ⟨j - 2, by omega⟩
      have hirq : 2 + k - 2 = k := by omega
      have hrest : 2 + k - 9 = 0 := by omega
      rw [hirq, hrest]
      exact hsecond k (by omega)

variable (hmode : m.core.mode = supervisorMode)

include hmode

/-- Through the stacks of supervisor mode and IRQ mode. -/
theorem window_cpsr {k : ℕ} (hk : k ≤ 7) :
    (runCode ((irqStackCode y.irqStack).take k)
        (runCode y.svcStackCode m)).core.cpsr.fiqMasked = true ∧
      ((runCode ((irqStackCode y.irqStack).take k)
        (runCode y.svcStackCode m)).core.cpsr.irqMasked = false ↔ k = 7) := by
  rw [irqStackCode_cpsr y.irqStack (svcStackCode_mode y hmode) hk, svcStackCode_cpsr y hmode]
  split_ifs with hfirst hsecond
  · exact ⟨rfl, False.elim, fun h => by omega⟩
  · exact ⟨rfl, False.elim, fun h => by omega⟩
  · exact ⟨rfl, fun _ => by omega, fun _ => rfl⟩

theorem window_sp : (y.window m).core.regs .usr .sp = m.core.regs .usr .sp := by
  have hkept := irqStackCode_regs y.irqStack (svcStackCode_mode y hmode) (j := 7) le_rfl .usr
    (by decide) .sp (by decide)
  change (y.window m).core.regs .usr .sp = _ at hkept
  rw [hkept, svcStackCode_regs y hmode, if_neg (by decide)]

theorem window_mode : (y.window m).core.mode = supervisorMode := by
  have hfull := irqStackCode_cpsr y.irqStack (svcStackCode_mode y hmode) (j := 7) le_rfl
  rw [Core.mode, Cs3Symbols.window]
  change (runCode (irqStackCode y.irqStack) _).core.cpsr = _ at hfull
  rw [hfull]
  exact svcStackCode_mode y hmode

theorem window_svc : (y.window m).core.regs .svc .sp = y.svcStack := by
  have hkept := irqStackCode_regs y.irqStack (svcStackCode_mode y hmode) (j := 7) le_rfl .svc
    (by decide) .sp (by decide)
  change (y.window m).core.regs .svc .sp = _ at hkept
  rw [hkept, svcStackCode_regs y hmode, if_pos ⟨rfl, rfl⟩]

/-- On the way from `low_level_init` to the program IRQ is not masked before
one instruction, and FIQ is masked there too. -/
theorem cs3Start_masks (hmasked : Masked m.core.cpsr) {j : ℕ} (hj : j ≤ 15) :
    (runCode (y.cs3Start.take j) m).core.cpsr.fiqMasked = true ∧
      ((runCode (y.cs3Start.take j) m).core.cpsr.irqMasked = false ↔ j = 9) := by
  apply cs3Start_cases (motive := fun j s => s.core.cpsr.fiqMasked = true ∧
    (s.core.cpsr.irqMasked = false ↔ j = 9)) y _ _ _ hj
  · intro j hj
    obtain ⟨hirq, hfiq⟩ := svcStackCode_masked y hmode hmasked j
    rw [hirq]
    exact ⟨hfiq, ⟨Bool.noConfusion, fun h => by omega⟩⟩
  · intro k hk
    obtain ⟨hfiq, hirq⟩ := window_cpsr y hmode hk
    exact ⟨hfiq, hirq.trans (by omega)⟩
  · intro k hk
    have huser : (y.window m).core.mode ≠ Processor.userMode := by
      rw [window_mode y hmode]
      decide
    obtain ⟨hirq, hfiq⟩ := programCode_masked y huser hk
    rw [hirq]
    exact ⟨hfiq, ⟨Bool.noConfusion, fun h => by omega⟩⟩

end Start

/-! ## The whole way -/

/-- `low_level_init` is back: its stack lies above the vectors. -/
structure LowLevelInitReturned (h : Handlers) (c t : Machine) : Prop where
  pc : t.core.pc = c.core.get .lr
  masks : SameMasks c.core.cpsr t.core.cpsr
  vectors : ∀ a : Word, a.toNat < 0x40 → t.mem a = lowLevelInit h c.mem a

/-- What is linked together. -/
structure Linked (y : Cs3Symbols) (l : Image) (h : Handlers) : Prop where
  irq : h .irq = l.serviceAddress .irq
  fiq : h .fiq = l.serviceAddress .fiq
  outside : l.fetch (y.startC &&& ~~~1) = none
  aligned : y.stack.toNat % 4 = 0
  room : 0x40 ≤ y.stack.toNat

section Whole

variable {code : Code} {y : Cs3Symbols} {l : Image} {h : Handlers} {m t w : Machine}

theorem wordAt_vectors {m m' : Memory} (hkept : ∀ a : Word, a.toNat < 0x40 → m' a = m a) {a : Word}
    (ha : a.toNat ≤ 0x3c) : wordAt m' a = wordAt m a := by
  apply wordAt_congr
  intro j hj
  apply hkept
  rw [Memory.add_ofNat_toNat (by omega)]
  omega

theorem Linked.hooked (hlinked : Linked y l h) {m m' : Memory}
    (hvectors : ∀ a : Word, a.toNat < 0x40 → m' a = lowLevelInit h m a) : l.Hooked m' := by
  constructor
  · rw [← hlinked.irq]
    exact (wordAt_vectors hvectors (by decide)).trans (lowLevelInit_word h m .irq)
  · rw [← hlinked.fiq]
    exact (wordAt_vectors hvectors (by decide)).trans (lowLevelInit_word h m .fiq)

/-- The machine from which the program starts, when an IRQ has been served in between or not. -/
theorem program_starts (hlinked : Linked y l h) (hmode : w.core.mode ≠ Processor.userMode)
    (hvectors : ∀ a : Word, a.toNat < 0x40 → w.mem a = lowLevelInit h m.mem a) :
    Initial l ⟨runCode y.programCode w, []⟩ ∧
      ∀ e, e ≠ .reserved → Hooks (runCode y.programCode w).mem e (h e) := by
  have hmem : (runCode y.programCode w).mem = w.mem :=
    runCode_mem (by simp [Cs3Symbols.programCode, Instr.stores]) w
  have hword : ∀ a : Word, a.toNat ≤ 0x3c →
      wordAt (runCode y.programCode w).mem a = wordAt (lowLevelInit h m.mem) a := by
    intro a ha
    rw [hmem]
    exact wordAt_vectors hvectors ha
  have hmasked : Masked (runCode y.programCode w).core.cpsr :=
    programCode_masked y hmode (j := 5) le_rfl
  have hsp : (runCode y.programCode w).core.regs .usr .sp = y.stack := by
    rw [programCode_regs y hmode .usr .sp (by decide), if_pos ⟨rfl, rfl⟩]
  have hbank : (runCode y.programCode w).core.bank = .usr := by
    rw [Core.bank, programCode_mode y hmode]
    rfl
  refine ⟨⟨?_, ⟨?_, ?_, ⟨?_, ?_⟩⟩, rfl⟩, fun e he => ?_⟩
  · rw [hmem]
    exact hlinked.hooked hvectors
  · change l.fetch (runCode y.programCode w).core.pc = none
    rw [programCode_pc y hmode]
    exact hlinked.outside
  · change (runCode y.programCode w).core.bank ≠ .irq ∧ (runCode y.programCode w).core.bank ≠ .fiq
    rw [hbank]
    decide
  · change ((runCode y.programCode w).core.regs .usr .sp).toNat % 4 = 0
    rw [hsp]
    exact hlinked.aligned
  · change 0x40 + stackNeed (runCode y.programCode w).core.cpsr ≤
      ((runCode y.programCode w).core.regs .usr .sp).toNat
    rw [hsp, stackNeed, if_pos hmasked.1, if_pos hmasked.2]
    exact hlinked.room
  · apply hooks_secondary
    · rw [hword e.vector (by cases e <;> decide)]
      exact lowLevelInit_vector h m.mem he
    · rw [hword (e.vector + 0x20) (by cases e <;> decide)]
      exact lowLevelInit_word h m.mem e

theorem and_not_one {a : Word} (ha : a.toNat % 2 = 0) : a &&& ~~~1 = a := by
  apply BitVec.eq_of_getLsbD_eq
  intro k hk
  have hlow : a.getLsbD 0 = false := by
    rw [BitVec.getLsbD, Nat.testBit_zero, ha]
    rfl
  have hones : ∀ j < 32, j ≠ 0 → (~~~1 : Word).getLsbD j = true := by decide
  rcases k with _ | k
  · rw [BitVec.getLsbD_and, hlow, Bool.false_and]
  · rw [BitVec.getLsbD_and, hones (k + 1) hk (Nat.succ_ne_zero k), Bool.and_true]

theorem called_lr (y : Cs3Symbols) (m : Machine) :
    (runCode y.cs3Reset m).core.get .lr = m.core.pc + 20 := by
  have hsum : m.core.pc + 4 + 4 + 4 + 4 + 4 = m.core.pc + 20 := by
    rw [add_assoc, add_assoc, add_assoc, add_assoc]
    rfl
  simpa [Cs3Symbols.cs3Reset, runCode, Instr.exec, Core.next, Core.get_set] using hsum

/-- Code in two parts, the first of which ends with a jump to the second. -/
theorem executes_parts {a : Word} {is js : List Instr} (hlies : Lies code a (is ++ js))
    (his : ∀ i ∈ is.dropLast, i.straight) (hjs : ∀ i ∈ js.dropLast, i.straight)
    (hpc : w.core.pc = a)
    (hjump : (runCode is w).core.pc = a + BitVec.ofNat 32 (4 * is.length)) :
    Executes code (is ++ js) w :=
  (hlies.left.executes his hpc).append (hlies.right.executes hjs hjump)

theorem programCode_executes {a : Word} (hlies : Lies code a y.programCode)
    (hpc : w.core.pc = a) (hasm : a + 16 = y.startAsm) (ha : a.toNat % 4 = 0) :
    Executes code y.programCode w := by
  have hsum : (a + 16).toNat = (a.toNat + 16) % 2 ^ 32 := BitVec.toNat_add a 16
  have hsplit : y.programCode = y.programCode.take 4 ++ y.programCode.drop 4 :=
    (List.take_append_drop 4 _).symm
  rw [hsplit] at hlies ⊢
  apply executes_parts hlies _ _ hpc
  · change y.startAsm &&& ~~~1 = a + 16
    rw [← hasm]
    apply and_not_one
    omega
  · simp [Cs3Symbols.programCode, Instr.straight]
  · simp [Cs3Symbols.programCode, Instr.straight]

section Returned

variable (hlies : Lies code y.reset (y.cs3Reset ++ y.cs3Start)) (hpc : m.core.pc = y.reset)

include hlies hpc

theorem cs3Reset_executes : Executes code y.cs3Reset m :=
  hlies.left.executes (by simp [Cs3Symbols.cs3Reset, Instr.straight]) hpc

variable (haligned : y.reset.toNat % 4 = 0) (ht : t.core.pc = (runCode y.cs3Reset m).core.get .lr)

include ht

/-- Up to the instruction before which IRQ is not masked. -/
theorem window_executes : Executes code (y.svcStackCode ++ irqStackCode y.irqStack) t ∧
    (y.window t).core.pc = y.reset + 56 := by
  have hstraight : ∀ i ∈ y.svcStackCode ++ irqStackCode y.irqStack, i.straight := by
    simp [Cs3Symbols.svcStackCode, irqStackCode, Instr.straight]
  have hback : t.core.pc = y.reset + 20 := by
    rw [ht, ← hpc]
    exact called_lr y m
  have hstart : Lies code (y.reset + 20) y.cs3Start := hlies.right
  refine ⟨hstart.left.executes (fun i hi => hstraight i (List.mem_of_mem_dropLast hi)) hback, ?_⟩
  rw [Cs3Symbols.window, ← runCode_append, runCode_pc hstraight, hback, add_assoc]
  rfl

include haligned

/-- From there on, whatever has happened in between. -/
theorem window_leaves (hw : w.core.pc = (y.window t).core.pc) : Executes code y.programCode w := by
  have hwpc : w.core.pc = y.reset + 56 := hw.trans (window_executes hlies hpc ht).2
  have hstart : Lies code (y.reset + 20) y.cs3Start := hlies.right
  have hprogram : Lies code (y.reset + 56) y.programCode := by
    have hright := hstart.right
    rwa [add_assoc] at hright
  have hasm : y.reset + 56 + 16 = y.startAsm := by
    rw [Cs3Symbols.startAsm, add_assoc]
    rfl
  have hsum : (y.reset + 56).toNat = (y.reset.toNat + 56) % 2 ^ 32 := BitVec.toNat_add y.reset 56
  exact programCode_executes hprogram hwpc hasm (by omega)

theorem cs3Start_executes : Executes code y.cs3Start t := by
  apply (window_executes hlies hpc ht).1.append
  rw [runCode_append]
  exact window_leaves hlies hpc haligned ht rfl

end Returned

theorem window_mem (y : Cs3Symbols) (t : Machine) : (y.window t).mem = t.mem := by
  rw [Cs3Symbols.window, ← runCode_append]
  exact runCode_mem (by simp [Cs3Symbols.svcStackCode, irqStackCode, Instr.stores]) t

theorem cs3Reset_sp (hmode : m.core.mode = supervisorMode) :
    (runCode y.cs3Reset m).core.regs .usr .sp = m.core.regs .usr .sp := by
  rw [Core.mode] at hmode
  simp [Cs3Symbols.cs3Reset, Instr.exec, Core.next, Core.set, Core.bank, Core.mode, Bank.ofMode,
    Core.put_regs, Reg.home, hmode, supervisorMode, Processor.fiqMode, Processor.irqMode]

/-- On the way from `low_level_init` to the program IRQ is not masked before
one instruction, and FIQ is masked there too. An IRQ that is taken there comes
to `BSP_irq` on the stack pointer that system mode has had since the reset. -/
theorem reset_window (hlies : Lies code y.reset (y.cs3Reset ++ y.cs3Start))
    (haligned : y.reset.toNat % 4 = 0) (hlinked : Linked y l h) (hpc : m.core.pc = y.reset)
    (hmode : m.core.mode = supervisorMode) (hmasked : Masked m.core.cpsr)
    (ht : LowLevelInitReturned h (runCode y.cs3Reset m) t)
    (husr : t.core.regs .usr .sp = (runCode y.cs3Reset m).core.regs .usr .sp) :
    Executes code y.cs3Reset m ∧ Executes code y.cs3Start t ∧
      (∀ j ≤ 15, (runCode (y.cs3Start.take j) t).core.cpsr.fiqMasked = true ∧
        ((runCode (y.cs3Start.take j) t).core.cpsr.irqMasked = false ↔ j = 9)) ∧
      ∀ w, w = runCode (y.cs3Start.take 9) t →
        vectorCode w.mem Exception.irq.vector = l.fetch Exception.irq.vector ∧
        ∃ u, Reaches (step l.fetch) ⟨Exception.irq.enter w.core, w.mem⟩ u ∧
          u.core.pc = l.bspIrq &&& ~~~1 ∧ u.core.mode = systemMode ∧
          u.core.regs .usr .sp = m.core.regs .usr .sp - 32 := by
  have hmode' : t.core.mode = supervisorMode := ht.masks.mode.trans hmode
  have hmasked' : Masked t.core.cpsr :=
    ⟨ht.masks.irqMasked.trans hmasked.1, ht.masks.fiqMasked.trans hmasked.2⟩
  have hvectors : ∀ a : Word, a.toNat < 0x40 → (y.window t).mem a = lowLevelInit h m.mem a := by
    rw [window_mem]
    exact ht.vectors
  refine ⟨cs3Reset_executes hlies hpc, cs3Start_executes hlies hpc haligned ht.pc,
    fun j hj => cs3Start_masks y hmode' hmasked' hj, ?_⟩
  intro w hw
  have hwindow : w = y.window t := by
    rw [hw, Cs3Symbols.window, ← runCode_append]
    rfl
  rw [hwindow]
  refine ⟨?_, ?_⟩
  · have hword : wordAt (y.window t).mem 0x18 = ldrPcPc ||| 0x18 :=
      (wordAt_vectors hvectors (by decide)).trans (lowLevelInit_vector h m.mem (e := .irq) nofun)
    exact (congrArg (decode 0x18) hword).trans (decode_ldrPc _).1
  · obtain ⟨u, hreach, hhandler, hsystem, hsp⟩ :=
      entry_called l .irq (hlinked.hooked hvectors) (y.window t).core
    refine ⟨u, hreach, hhandler, hsystem, ?_⟩
    rw [hsp, slot, window_sp y hmode', husr, cs3Reset_sp hmode]
    rfl

/-- From reset to the program, whatever interrupts that leaves the vectors and
the registers of the other modes alone: the exceptions but for the reserved one
are hooked, IRQ and FIQ are masked, and the invariants of nested interrupts
hold. -/
theorem reset_initial (hlies : Lies code y.reset (y.cs3Reset ++ y.cs3Start))
    (haligned : y.reset.toNat % 4 = 0) (hlinked : Linked y l h) (hpc : m.core.pc = y.reset)
    (hmode : m.core.mode = supervisorMode) :
    ∃ c, Reaches (step code) m c ∧ c.core.pc = y.lowLevelInit ∧
      ∀ t, LowLevelInitReturned h c t → ∃ w, Reaches (step code) t w ∧
        w.core.cpsr.irqMasked = false ∧
        ∀ w', Alike (· = .irq) {a | a.toNat < 0x40} w w' → ∃ u, Reaches (step code) w' u ∧
          Initial l ⟨u, []⟩ ∧ (∀ e, e ≠ .reserved → Hooks u.mem e (h e)) ∧
          u.core.pc = y.startC &&& ~~~1 ∧ Masked u.core.cpsr ∧
          u.core.regs .usr .sp = y.stack ∧ u.core.regs .svc .sp = y.svcStack := by
  refine ⟨_, (cs3Reset_executes hlies hpc).reaches, rfl, fun t ht => ?_⟩
  have hmode' : t.core.mode = supervisorMode := ht.masks.mode.trans hmode
  have hwindow : Reaches (step code) t (y.window t) := by
    rw [Cs3Symbols.window, ← runCode_append]
    exact (window_executes hlies hpc ht.pc).1.reaches
  refine ⟨_, hwindow, ((window_cpsr y hmode' le_rfl).2).mpr rfl, fun w hw => ?_⟩
  have hwmode : w.core.mode ≠ Processor.userMode := by
    rw [hw.core.mode, window_mode y hmode']
    decide
  have hvectors : ∀ a : Word, a.toNat < 0x40 → w.mem a = lowLevelInit h m.mem a := by
    intro a ha
    rw [hw.mem a ha, window_mem, ht.vectors a ha]
    rfl
  obtain ⟨hinitial, hhooks⟩ := program_starts hlinked hwmode hvectors
  refine ⟨_, (window_leaves hlies hpc haligned ht.pc hw.core.pc).reaches, hinitial, hhooks,
    programCode_pc y hwmode, programCode_masked y hwmode (j := 5) le_rfl, ?_, ?_⟩
  · rw [programCode_regs y hwmode .usr .sp (by decide), if_pos ⟨rfl, rfl⟩]
  · rw [programCode_regs y hwmode .svc .sp (by decide), if_neg (by decide),
      hw.core.regs .svc (by decide), window_svc y hmode']

end Whole

/-! ## The reset of c07e1 -/

section Copy

variable {code : Code} {y : Cs3Symbols} {h : Handlers} {m : Machine}

/-- The memory that `__cs3_reset` of `c07e1` is started with. -/
structure TableLinked (y : Cs3Symbols) (h : Handlers) (m : Memory) : Prop where
  aligned : y.reset.toNat % 4 = 0
  behind : 60 ≤ y.reset.toNat
  low : y.reset.toNat + 80 < 2 ^ 31
  table : Holds m y.vectorsStart (vectorTable h)

def Cs3Symbols.cs3Copy (y : Cs3Symbols) : List Instr := copyLoop .r1 .r0 (y.reset + 28)

theorem TableLinked.copyable (hlinked : TableLinked y h m.mem) :
    Copyable .r1 .r0 (vectorTable h) (runCode y.cs3Reset1 m) := by
  have hbehind := hlinked.behind
  have hlow := hlinked.low
  have haligned := hlinked.aligned
  have hstart : y.vectorsStart.toNat = y.reset.toNat - 60 := sub_toNat hbehind
  have hr0 : (runCode y.cs3Reset1 m).core.get .r0 = 0 := by
    simp [Cs3Symbols.cs3Reset1, runCode, Instr.exec, Core.next, Core.get_set]
  have hr1 : (runCode y.cs3Reset1 m).core.get .r1 = y.vectorsStart := by
    simp [Cs3Symbols.cs3Reset1, runCode, Instr.exec, Core.next, Core.get_set]
  have hr2 : (runCode y.cs3Reset1 m).core.get .r2 = y.reset := by
    simp [Cs3Symbols.cs3Reset1, runCode, Instr.exec, Core.next, Core.get_set]
  constructor
  · exact .inl ⟨rfl, rfl⟩
  · rw [hr1, hr2, wordsTo, hstart]
    change 15 = _
    omega
  · rw [hr1]
    omega
  · rw [hr2]
    omega
  · rw [hr1]
    omega
  · rw [hr0]
    rfl
  · rw [hr1, hstart]
    change _ + 4 * 15 ≤ _
    omega
  · rw [hr0]
    exact Nat.le_of_ble_eq_true rfl
  · rw [hr1]
    exact hlinked.table
  · rw [hr0]
    exact .inl (Nat.zero_le _)

theorem cs3Start1_executes {a : Word} (hlies : Lies code a y.cs3Start1) (hpc : m.core.pc = a)
    (hasm : a + 8 = y.startAsm1) (ha : a.toNat % 4 = 0) : Executes code y.cs3Start1 m := by
  have hsum : (a + 8).toNat = (a.toNat + 8) % 2 ^ 32 := BitVec.toNat_add a 8
  have hsplit : y.cs3Start1 = y.cs3Start1.take 2 ++ y.cs3Start1.drop 2 :=
    (List.take_append_drop 2 _).symm
  rw [hsplit] at hlies ⊢
  apply executes_parts hlies _ _ hpc
  · change y.startAsm1 &&& ~~~1 = a + 8
    rw [← hasm]
    apply and_not_one
    omega
  · simp [Cs3Symbols.cs3Start1, Instr.straight]
  · simp [Cs3Symbols.cs3Start1, Instr.straight]

theorem cs3Start1_regs (b : Bank) (r : Reg) (hr : b = .usr → r ≠ .r0) :
    (runCode y.cs3Start1 m).core.regs b r = m.core.regs b r := by
  have hr0 : ¬ (b = .usr ∧ r = .r0) := fun h => hr h.1 h.2
  simp [Cs3Symbols.cs3Start1, Instr.exec, Core.next, Core.set, Core.exchange, Core.put_regs,
    Reg.home, hr0]

theorem cs3Start1_sameMasks : SameMasks m.core.cpsr (runCode y.cs3Start1 m).core.cpsr :=
  ⟨rfl, rfl, rfl⟩

theorem cs3Reset1_regs (hmode : m.core.mode = supervisorMode) :
    (runCode y.cs3Reset1 m).core.regs .svc .sp = y.stack ∧
      (runCode y.cs3Reset1 m).core.regs .usr .sp = m.core.regs .usr .sp := by
  rw [Core.mode] at hmode
  simp [Cs3Symbols.cs3Reset1, Instr.exec, Core.next, Core.set, Core.bank, Core.mode, Bank.ofMode,
    Core.put_regs, Reg.home, hmode, supervisorMode, Processor.fiqMode, Processor.irqMode]

/-- Without an interrupt the program starts in supervisor mode with the whole
table at `0`, and IRQ is not masked from then on. The stack pointer of system
mode is never set. -/
theorem reset_copies
    (hlies : Lies code y.reset (y.cs3Reset1 ++ y.cs3Copy ++ irqStackCode y.irqStack ++ y.cs3Start1))
    (hlinked : TableLinked y h m.mem) (hpc : m.core.pc = y.reset)
    (hmode : m.core.mode = supervisorMode) :
    ∃ u, Reaches (step code) m u ∧ u.core.pc = y.startC &&& ~~~1 ∧
      Holds u.mem 0 (vectorTable h) ∧ (∀ e, e ≠ .reserved → Hooks u.mem e (h e)) ∧
      (∀ a : Word, 60 ≤ a.toNat → u.mem a = m.mem a) ∧
      u.core.mode = supervisorMode ∧ u.core.cpsr.irqMasked = false ∧
      u.core.cpsr.fiqMasked = m.core.cpsr.fiqMasked ∧ u.core.regs .svc .sp = y.stack ∧
      u.core.regs .irq .sp = y.irqStack ∧ u.core.regs .usr .sp = m.core.regs .usr .sp := by
  have hreset : Reaches (step code) m (runCode y.cs3Reset1 m) :=
    (hlies.left.left.left.executes (by simp [Cs3Symbols.cs3Reset1, Instr.straight]) hpc).reaches
  have hpc1 : (runCode y.cs3Reset1 m).core.pc = y.reset + 28 := by
    rw [runCode_pc (by simp [Cs3Symbols.cs3Reset1, Instr.straight]), hpc]
    rfl
  have hloop : Lies code (y.reset + 28) y.cs3Copy := hlies.left.left.right
  obtain ⟨c, hcopy, hcpc, hsame, hmem⟩ := hlinked.copyable.copies hloop hpc1
  have hcmode : c.core.mode = supervisorMode := hsame.mode.trans hmode
  have hcpsr : (runCode (irqStackCode y.irqStack) c).core.cpsr =
      { c.core.cpsr with irqMasked := false } :=
    irqStackCode_cpsr y.irqStack hcmode (j := 7) le_rfl
  have hregs : ∀ b, b ≠ .irq → ∀ r, (b = .usr → r ≠ .r0 ∧ r ≠ .r1) →
      (runCode (irqStackCode y.irqStack) c).core.regs b r = c.core.regs b r :=
    irqStackCode_regs y.irqStack hcmode (j := 7) le_rfl
  have hirqLies : Lies code (y.reset + 44) (irqStackCode y.irqStack) := hlies.left.right
  have hcpc' : c.core.pc = y.reset + 44 := by
    rw [hcpc, add_assoc]
    rfl
  have hirq : Reaches (step code) c (runCode (irqStackCode y.irqStack) c) :=
    (hirqLies.executes (by simp [irqStackCode, Instr.straight]) hcpc').reaches
  have hstartLies : Lies code (y.reset + 72) y.cs3Start1 := hlies.right
  have hpc2 : (runCode (irqStackCode y.irqStack) c).core.pc = y.reset + 72 := by
    rw [runCode_pc (by simp [irqStackCode, Instr.straight]), hcpc', add_assoc]
    rfl
  have hasm : y.reset + 72 + 8 = y.startAsm1 := by
    rw [Cs3Symbols.startAsm1, add_assoc]
    rfl
  have haligned := hlinked.aligned
  have hsum : (y.reset + 72).toNat = (y.reset.toNat + 72) % 2 ^ 32 := BitVec.toNat_add y.reset 72
  have hstart := (cs3Start1_executes hstartLies hpc2 hasm (by omega)).reaches
  have hmasks := cs3Start1_sameMasks (y := y) (m := runCode (irqStackCode y.irqStack) c)
  have hmem' : (runCode y.cs3Start1 (runCode (irqStackCode y.irqStack) c)).mem =
      storeWords m.mem 0 (vectorTable h) := hmem
  obtain ⟨hsvc, husr⟩ := cs3Reset1_regs (y := y) hmode
  have htable : Holds (runCode y.cs3Start1 (runCode (irqStackCode y.irqStack) c)).mem 0
      (vectorTable h) := by
    rw [hmem']
    exact holds_storeWords m.mem 0 (Nat.le_of_ble_eq_true rfl)
  refine ⟨_, hreset.trans (hcopy.trans (hirq.trans hstart)), rfl, htable,
    fun e he => table_hooks htable he, fun a ha => ?_, ?_, ?_, ?_, ?_, ?_, ?_⟩
  · rw [hmem']
    apply storeWords_outside
    · exact Nat.le_of_ble_eq_true rfl
    · exact .inr ha
  · rw [Core.mode, hmasks.mode, hcpsr]
    exact hcmode
  · rw [hmasks.irqMasked, hcpsr]
  · obtain ⟨_, _, _, _, hflags⟩ := hsame.cpsr
    rw [hmasks.fiqMasked, hcpsr, hflags]
    rfl
  · rw [cs3Start1_regs .svc .sp (by decide), hregs .svc (by decide) .sp (by decide),
      hsame.regs .svc .sp (by decide), hsvc]
  · rw [cs3Start1_regs .irq .sp (by decide), irqStackCode_sp y.irqStack hcmode]
  · rw [cs3Start1_regs .usr .sp (by decide), hregs .usr (by decide) .sp (by decide),
      hsame.regs .usr .sp (by decide), husr]

end Copy

/-! ## A machine that is reset -/

def resetSymbols : Cs3Symbols where
  reset := 0x40000
  startC := 0x50000
  stack := 0x8000
  irqStack := 0x9000
  svcStack := 0xa000
  lowLevelInit := 0x60000

def resetHandlers : Handlers
  | .irq => smallImage.serviceAddress .irq
  | .fiq => smallImage.serviceAddress .fiq
  | _ => 0x70000

def atReset (m : Memory) : Machine where
  core :=
    { regs := fun _ _ => 0
      pc := 0x40000
      cpsr := ⟨false, false, false, false, 0, true, true, false, supervisorMode⟩
      spsr := fun _ => ⟨false, false, false, false, 0, true, true, false, supervisorMode⟩ }
  mem := m

theorem resetLinked : Linked resetSymbols smallImage resetHandlers where
  irq := rfl
  fiq := rfl
  outside := rfl
  aligned := rfl
  room := by decide

/-- `low_level_init` is back. -/
def hookedAt (c : Machine) : Machine :=
  ⟨c.core.setPc (c.core.get .lr), lowLevelInit resetHandlers c.mem⟩

theorem hookedAt_returned (c : Machine) : LowLevelInitReturned resetHandlers c (hookedAt c) :=
  ⟨rfl, SameMasks.refl _, fun _ _ => rfl⟩

/-- The frame of an IRQ lies at the top of memory then. -/
theorem reset_window_started : ∃ w u : Machine, w.core.cpsr.irqMasked = false ∧
    Reaches (step smallImage.fetch) ⟨Exception.irq.enter w.core, w.mem⟩ u ∧
    u.core.pc = 0x20000 ∧ u.core.regs .usr .sp = 0xffffffe0 := by
  have hlies : Lies (codeAt 0x40000 (resetSymbols.cs3Reset ++ resetSymbols.cs3Start)) 0x40000 _ :=
    lies_codeAt 0x40000 (by decide)
  obtain ⟨-, -, hmasks, htaken⟩ := reset_window (m := atReset fun _ => 0) hlies rfl resetLinked rfl
    rfl ⟨rfl, rfl⟩ (hookedAt_returned _) rfl
  obtain ⟨-, u, hreach, hpc, -, hsp⟩ := htaken _ rfl
  exact ⟨_, u, (hmasks 9 (by decide)).2.mpr rfl, hreach, hpc, hsp⟩

theorem reset_initial_started :
    ∃ u, Initial smallImage ⟨u, []⟩ ∧ Hooks u.mem .undef 0x70000 ∧ u.core.pc = 0x50000 := by
  have hlies : Lies (codeAt 0x40000 (resetSymbols.cs3Reset ++ resetSymbols.cs3Start)) 0x40000 _ :=
    lies_codeAt 0x40000 (by decide)
  obtain ⟨c, -, -, hrest⟩ :=
    reset_initial (m := atReset fun _ => 0) hlies rfl resetLinked rfl rfl
  obtain ⟨w, -, -, hstart⟩ := hrest (hookedAt c) (hookedAt_returned c)
  obtain ⟨u, -, hinitial, hhooks, hpc, -⟩ := hstart w (Alike.refl w)
  exact ⟨u, hinitial, hhooks .undef (by decide), hpc⟩

theorem reset_copies_started :
    ∃ u : Machine, u.core.pc = 0x50000 ∧ Holds u.mem 0 (vectorTable resetHandlers) ∧
      Hooks u.mem .irq (resetHandlers .irq) ∧ u.core.cpsr.irqMasked = false ∧ u.core.regs .usr .sp = 0 := by
  have hlies : Lies (codeAt 0x40000 (resetSymbols.cs3Reset1 ++ resetSymbols.cs3Copy ++
      irqStackCode resetSymbols.irqStack ++ resetSymbols.cs3Start1)) 0x40000 _ :=
    lies_codeAt 0x40000 (by decide)
  have hlinked : TableLinked resetSymbols resetHandlers (atReset (storeWords (fun _ => 0)
      resetSymbols.vectorsStart (vectorTable resetHandlers))).mem :=
    ⟨rfl, by decide, by decide, holds_storeWords _ _ (Nat.le_of_ble_eq_true rfl)⟩
  obtain ⟨u, -, hpc, htable, hhooks, -, -, hirq, -, -, -, hsp⟩ :=
    reset_copies hlies hlinked rfl rfl
  exact ⟨u, hpc, htable, hhooks .irq (by decide), hirq, hsp⟩

end Goldfish.Startup
