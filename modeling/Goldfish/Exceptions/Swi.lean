import Goldfish.Exceptions.Resume
import Goldfish.Lib.Code

/-!
# Software interrupts

`ARM_swi` takes the number of the call from the instruction that has made it
and calls `sw_handler` with it. IRQ is masked meanwhile, but an FIQ can come
between any two instructions; whatever does that may be served as long as it
leaves alone what `ARM_swi` uses.
-/

namespace Goldfish.Exceptions

open Processor
open Arm (Word Memory wordAt align)

def savedRegs : List Reg :=
  [.r0, .r1, .r2, .r3, .r4, .r5, .r6, .r7, .r8, .r9, .r10, .r11, .r12]

/-- All but the number of an `SWI`. -/
def opcodeMask : Word := 0xff000000

def swiEntry (swHandler : Word) : List Instr :=
  [.stmfd .sp (savedRegs ++ [.lr]), .ldrDown .r0 .lr 4, .alu .bic .r0 .r0 (.imm opcodeMask),
    .bl swHandler]

def armSwi (swHandler : Word) : List Instr := swiEntry swHandler ++ [.ldmReturn .sp savedRegs]

/-- `SWI n`. -/
def swiWord (n : BitVec 24) : Word := 0xef#8 ++ n

theorem swiWord_number (n : BitVec 24) : swiWord n &&& ~~~opcodeMask = n.setWidth 32 := by
  have hmask : ~~~opcodeMask = 0#8 ++ BitVec.allOnes 24 := by decide
  have hwidth : n.setWidth 32 = 0#8 ++ n := BitVec.setWidth_eq_append (by decide)
  rw [swiWord, hmask, BitVec.and_append, BitVec.and_zero, BitVec.and_allOnes, hwidth]

/-! ## The registers through the entry -/

/-- The words that `ARM_swi` saves. -/
def swiFrame (c : Core) : List Word := savedRegs.map (c.regs .usr) ++ [c.pc + 4]

def swiSlot (c : Core) : Word := c.regs .svc .sp - 56

/-- At the call of `sw_handler`. -/
def swiCalled (swHandler : Word) (m : Machine) : Machine :=
  runCode (.ldrPc 0x18 :: swiEntry swHandler) (Instr.swi.exec m)

section Symbolic

variable {base : Word} (handler : Word) (m : Machine)

attribute [local simp] swiCalled swiEntry savedRegs swiFrame swiSlot runCode Instr.exec Core.set
  Core.get Core.next Core.mode Core.bank Exception.enter Exception.mode Bank.ofMode Reg.home
  Core.put_regs pushAddress Processor.irqMode Processor.fiqMode systemMode supervisorMode
  Exception.control Exception.link Exception.vector Alu.apply Operand.value

theorem swiCalled_pc : (swiCalled handler m).core.pc = handler := by
  simp

theorem swiCalled_cpsr :
    (swiCalled handler m).core.cpsr = Exception.swi.control m.core.cpsr := by
  simp

theorem swiCalled_mem : (swiCalled handler m).mem =
    storeWords m.mem (align (swiSlot m.core)) (swiFrame m.core) := by
  simp

theorem swiCalled_sp : (swiCalled handler m).core.regs .svc .sp = swiSlot m.core := by
  simp

theorem swiCalled_usr {r : Reg} (hr : r ≠ .r0) :
    (swiCalled handler m).core.regs .usr r = m.core.regs .usr r := by
  simp [hr]

theorem swiCalled_regs {b : Bank} (husr : b ≠ .usr) (hsvc : b ≠ .svc) :
    (swiCalled handler m).core.regs b = m.core.regs b := by
  funext r
  simp [husr, hsvc]

theorem swiCalled_spsr (b : Bank) : (swiCalled handler m).core.spsr b =
    if b = .svc then m.core.cpsr else m.core.spsr b := by
  simp [Function.update_apply]

theorem swiCalled_lr (hooked : loadWord m.mem 0x28 = base) :
    (swiCalled handler m).core.regs .svc .lr = base + 16 := by
  have hsum : base + 4 + 4 + 4 + 4 = base + 16 := by
    rw [add_assoc, add_assoc, add_assoc]
    rfl
  subst hooked
  simpa using hsum

theorem swiCalled_r0 : (swiCalled handler m).core.regs .usr .r0 =
    loadWord (storeWords m.mem (align (swiSlot m.core)) (swiFrame m.core)) m.core.pc &&&
      ~~~opcodeMask := by
  simp

theorem swiCalled_confined {A : Set Word} (hvector : ∀ a, InWords 0x28 1 a → a ∈ A)
    (hinstruction : ∀ a, InWords (align m.core.pc) 1 a → a ∈ A) :
    Confined (· = .fiq) A (.ldrPc 0x18 :: swiEntry handler) (Instr.swi.exec m) := by
  have haddress : align 0x28 = 0x28 := by decide
  simpa [Confined, Instr.reads, haddress] using ⟨hvector, hinstruction⟩

end Symbolic

/-! ## The call and the return -/

/-- The words that nothing in between may change: the vector's, the `SWI` and
the frame. -/
def swiArea (c : Core) : Set Word :=
  {a | InWords 0x28 1 a ∨ InWords c.pc 1 a ∨ InWords (swiSlot c) 14 a}

/-- `m` is before an `SWI n`; the vector leads to `ARM_swi`, and the stack of
supervisor mode has room for its frame. -/
structure SwiCall (code : Code) (base handler : Word) (n : BitVec 24) (m : Machine) : Prop where
  vector : code 0x08 = some (.ldrPc 0x18)
  lies : Lies code base (armSwi handler)
  hooked : wordAt m.mem 0x28 = base
  instruction : wordAt m.mem m.core.pc = swiWord n
  word : m.core.pc.toNat % 4 = 0
  aligned : (m.core.regs .svc .sp).toNat % 4 = 0
  room : 56 ≤ (m.core.regs .svc .sp).toNat
  apart : m.core.pc.toNat + 60 ≤ (m.core.regs .svc .sp).toNat ∨
    (m.core.regs .svc .sp).toNat ≤ m.core.pc.toNat

/-- What `sw_handler` leaves alone; it runs in supervisor mode. -/
structure SwiHandled (c : Core) (h r : Machine) : Prop where
  pc : r.core.pc = h.core.regs .svc .lr
  mode : r.core.mode = supervisorMode
  sp : r.core.regs .svc .sp = h.core.regs .svc .sp
  usr : ∀ q ∈ [Reg.sp, .lr], r.core.regs .usr q = h.core.regs .usr q
  banks : ∀ b, b ≠ .usr → b ≠ .svc → b ≠ .fiq → r.core.regs b = h.core.regs b
  spsr : ∀ b, b ≠ .fiq → r.core.spsr b = h.core.spsr b
  frame : ∀ a, InWords (swiSlot c) 14 a → r.mem a = h.mem a

section Call

variable {code : Code} {base handler : Word} {n : BitVec 24} {m h r u : Machine}

theorem SwiCall.slot_aligned (hcall : SwiCall code base handler n m) :
    align (swiSlot m.core) = swiSlot m.core :=
  align_sub (n := 14) hcall.aligned hcall.room

theorem SwiCall.outside (hcall : SwiCall code base handler n m) {a : Word}
    (ha : InWords m.core.pc 1 a) : ¬ InWords (swiSlot m.core) 14 a := by
  have hpc := m.core.pc.isLt
  have hword := hcall.word
  have hroom := hcall.room
  have hslot : (swiSlot m.core).toNat = (m.core.regs .svc .sp).toNat - 56 :=
    sub_toNat (n := 56) hroom
  rw [InWords, BitVec.toNat_sub] at ha ⊢
  rcases hcall.apart with hbelow | habove
  · omega
  · omega

theorem SwiCall.called_mem (hcall : SwiCall code base handler n m) :
    (swiCalled handler m).mem = storeWords m.mem (swiSlot m.core) (swiFrame m.core) := by
  rw [swiCalled_mem, hcall.slot_aligned]

theorem SwiCall.called_frame (hcall : SwiCall code base handler n m) :
    Holds (swiCalled handler m).mem (swiSlot m.core) (swiFrame m.core) := by
  rw [hcall.called_mem]
  exact holds_storeWords m.mem (swiSlot m.core) (show 4 * 14 ≤ 2 ^ 32 by decide)

/-- The number is that of the instruction. -/
theorem SwiCall.called_number (hcall : SwiCall code base handler n m) :
    (swiCalled handler m).core.regs .usr .r0 = n.setWidth 32 := by
  have hkept : wordAt (storeWords m.mem (swiSlot m.core) (swiFrame m.core)) m.core.pc =
      wordAt m.mem m.core.pc := by
    apply wordAt_inWords (n := 1) _ Nat.one_pos
    intro a ha
    apply Memory.store_outside
    rw [flatMap_bytes_length]
    exact Nat.le_of_not_lt (hcall.outside ha)
  rw [swiCalled_r0, hcall.slot_aligned, loadWord_of_aligned _ hcall.word, hkept,
    hcall.instruction, swiWord_number]

theorem SwiCall.loads (hcall : SwiCall code base handler n m) : loadWord m.mem 0x28 = base :=
  (loadWord_of_aligned m.mem (show (0x28 : Word).toNat % 4 = 0 by decide)).trans hcall.hooked

theorem SwiCall.called_executes (hcall : SwiCall code base handler n m) :
    Executes code (.ldrPc 0x18 :: swiEntry handler) (Instr.swi.exec m) := by
  have hlies : Lies code base (swiEntry handler) := hcall.lies.left
  refine ⟨hcall.vector, hlies.executes (fun i hi => ?_) ?_⟩
  · simp [swiEntry] at hi
    rcases hi with rfl | rfl | rfl <;> rfl
  · exact hcall.loads

theorem SwiCall.called_alike (hcall : SwiCall code base handler n m)
    (hentered : Interrupted code (Alike (· = .fiq) (swiArea m.core)) 5 (Instr.swi.exec m) h) :
    Alike (· = .fiq) (swiArea m.core) (swiCalled handler m) h := by
  apply hentered.alike (by decide) (Alike.refl _) hcall.called_executes _ rfl
  apply swiCalled_confined
  · exact fun a ha => .inl ha
  · intro a ha
    rw [Arm.align_eq hcall.word] at ha
    exact .inr (.inl ha)

/-! ### The return -/

theorem swiReturn_confined {A : Set Word} (hmode : r.core.mode = supervisorMode)
    (hframe : ∀ a, InWords (align (r.core.regs .svc .sp)) 14 a → a ∈ A) :
    Confined (· = .fiq) A [.ldmReturn .sp savedRegs] r := by
  have hbank : r.core.bank = .svc := by
    rw [Core.bank, hmode]
    rfl
  have hsp : r.core.get .sp = r.core.regs .svc .sp := by
    rw [Core.get, hbank]
    rfl
  refine ⟨by simp [hbank], fun a ha => hframe a ?_, trivial⟩
  rwa [← hsp]

/-- The last instruction of `ARM_swi` takes every register from the frame. -/
theorem swiReturn_restores {c t : Core} (ht : t = ((Instr.ldmReturn .sp savedRegs).exec r).core)
    (hmode : r.core.mode = supervisorMode)
    (haligned : align (r.core.regs .svc .sp) = r.core.regs .svc .sp)
    (hframe : Holds r.mem (r.core.regs .svc .sp) (swiFrame c)) :
    t.pc = c.pc + 4 ∧ t.cpsr = r.core.spsr .svc ∧ t.spsr = r.core.spsr ∧
      t.regs .svc .sp = r.core.regs .svc .sp + 56 ∧
      ∀ b q, b ≠ .svc → t.regs b q =
        if b = .usr ∧ q ∈ savedRegs then c.regs .usr q else r.core.regs b q := by
  have hbank : r.core.bank = .svc := by
    rw [Core.bank, hmode]
    rfl
  have hsp : r.core.get .sp = r.core.regs .svc .sp := by
    rw [Core.get, hbank]
    rfl
  rw [← hsp] at haligned hframe
  rw [← haligned] at hframe
  obtain ⟨hpc, hcpsr, hspsr, hregs⟩ := ldmReturn_regs ht hframe
  rw [hbank] at hcpsr hregs
  refine ⟨hpc, hcpsr, hspsr, ?_, fun b q hb => ?_⟩
  · rw [hregs, if_pos ⟨rfl, rfl⟩, hsp]
    rfl
  · rw [hregs, if_neg fun h => hb h.1]
    by_cases hq : q ∈ savedRegs
    · have hhome : ∀ q ∈ savedRegs, q.home .svc = .usr := by decide
      rw [hhome q hq]
    · simp [hq]

theorem SwiCall.handled_frame (hcall : SwiCall code base handler n m)
    (hh : Alike (· = .fiq) (swiArea m.core) (swiCalled handler m) h)
    (hhandled : SwiHandled m.core h r) : Holds r.mem (swiSlot m.core) (swiFrame m.core) := by
  have hlength : (swiFrame m.core).length = 14 := rfl
  apply hcall.called_frame.of_inWords (by rw [hlength]; decide)
  intro a ha
  rw [hlength] at ha
  exact (hhandled.frame a ha).trans (hh.mem a (.inr (.inr ha)))

theorem SwiCall.handled_sp (hh : Alike (· = .fiq) (swiArea m.core) (swiCalled handler m) h)
    (hhandled : SwiHandled m.core h r) : r.core.regs .svc .sp = swiSlot m.core := by
  rw [hhandled.sp, hh.core.regs .svc (by decide), swiCalled_sp]

theorem SwiCall.return_alike (hcall : SwiCall code base handler n m)
    (hh : Alike (· = .fiq) (swiArea m.core) (swiCalled handler m) h)
    (hhandled : SwiHandled m.core h r)
    (hreturned : Interrupted code (Alike (· = .fiq) (swiArea m.core)) 1 r u) :
    Alike (· = .fiq) (swiArea m.core) ((Instr.ldmReturn .sp savedRegs).exec r) u := by
  have hpc : r.core.pc = base + 16 := by
    rw [hhandled.pc, hh.core.regs .svc (by decide), swiCalled_lr handler m hcall.loads]
  have hlies : Lies code (base + 16) [.ldmReturn .sp savedRegs] := hcall.lies.right
  have hcode : Executes code [.ldmReturn .sp savedRegs] r :=
    hlies.executes (fun _ hi => absurd hi List.not_mem_nil) hpc
  apply hreturned.alike (by decide) (Alike.refl r) hcode _ rfl
  apply swiReturn_confined hhandled.mode
  intro a ha
  rw [SwiCall.handled_sp hh hhandled, hcall.slot_aligned] at ha
  exact .inr (.inr ha)

/-- Behind the call every register is as it was before, those of the mode of
the caller and the flags among them. -/
theorem SwiCall.restores (hcall : SwiCall code base handler n m)
    (hh : Alike (· = .fiq) (swiArea m.core) (swiCalled handler m) h)
    (hhandled : SwiHandled m.core h r)
    (hu : Alike (· = .fiq) (swiArea m.core) ((Instr.ldmReturn .sp savedRegs).exec r) u) :
    SameOff (fun b => b = .fiq ∨ b = .svc) m.core.next u.core ∧
      u.core.regs .svc .sp = m.core.regs .svc .sp := by
  have hsp := SwiCall.handled_sp hh hhandled
  have hframe := hcall.handled_frame hh hhandled
  have haligned := hcall.slot_aligned
  rw [← hsp] at hframe haligned
  obtain ⟨hpc, hcpsr, hspsr, htop, hregs⟩ := swiReturn_restores rfl hhandled.mode haligned hframe
  have hspsr' : ∀ b, b ≠ .fiq →
      r.core.spsr b = if b = .svc then m.core.cpsr else m.core.spsr b := by
    intro b hb
    rw [hhandled.spsr b hb, hh.core.spsr b hb, swiCalled_spsr]
  refine ⟨⟨hu.core.pc.trans hpc, ?_, fun b hb => ?_, fun b hb => ?_⟩, ?_⟩
  · rw [hu.core.cpsr, hcpsr, hspsr' .svc (by decide), if_pos rfl]
    rfl
  · obtain ⟨hfiq, hsvc⟩ := not_or.mp hb
    rw [hu.core.regs b hfiq]
    funext q
    rw [hregs b q hsvc]
    by_cases husr : b = .usr
    · subst husr
      by_cases hq : q ∈ savedRegs
      · rw [if_pos ⟨rfl, hq⟩]
        rfl
      · have hrest : q ∈ [Reg.sp, .lr] := by
          revert hq
          cases q <;> decide
        have hne : q ≠ .r0 := by
          rintro rfl
          exact hq (by decide)
        rw [if_neg fun h => hq h.2, hhandled.usr q hrest, hh.core.regs .usr (by decide),
          swiCalled_usr handler m hne]
        rfl
    · rw [if_neg fun h => husr h.1, hhandled.banks b husr hsvc hfiq, hh.core.regs b hfiq,
        swiCalled_regs handler m husr hsvc]
      rfl
  · obtain ⟨hfiq, hsvc⟩ := not_or.mp hb
    rw [hu.core.spsr b hfiq, hspsr, hspsr' b hfiq, if_neg hsvc]
    rfl
  · rw [hu.core.regs .svc (by decide), htop, hsp, swiSlot, sub_add_cancel]

/-- A software interrupt calls `sw_handler` with its number, IRQ masked, and
returns behind the instruction with every register as it was, whatever
interrupts come in between. -/
theorem swi_returns (hcall : SwiCall code base handler n m)
    (hentered : Interrupted code (Alike (· = .fiq) (swiArea m.core)) 5 (Instr.swi.exec m) h) :
    (h.core.pc = handler ∧ h.core.regs .usr .r0 = n.setWidth 32 ∧
      h.core.cpsr = Exception.swi.control m.core.cpsr) ∧
    ∀ r u, SwiHandled m.core h r →
      Interrupted code (Alike (· = .fiq) (swiArea m.core)) 1 r u →
      SameOff (fun b => b = .fiq ∨ b = .svc) m.core.next u.core ∧
        u.core.regs .svc .sp = m.core.regs .svc .sp := by
  have hh := hcall.called_alike hentered
  refine ⟨⟨?_, ?_, ?_⟩, fun r u hhandled hreturned => ?_⟩
  · rw [hh.core.pc, swiCalled_pc]
  · rw [hh.core.regs .usr (by decide), hcall.called_number]
  · rw [hh.core.cpsr, swiCalled_cpsr]
  · exact hcall.restores hh hhandled (hcall.return_alike hh hhandled hreturned)

end Call

/-! ## A call -/

def swiCode (pc : Word) : Option Instr :=
  if pc = 0x08 then some (.ldrPc 0x18) else codeAt 0x10000 (armSwi 0x20000) pc

/-- `SystemCall` is about to make its call. -/
def calling : Machine where
  core :=
    { regs := fun _ r => if r = .sp then 0x8000 else 0
      pc := 0x30000
      cpsr := ⟨false, false, false, false, 0, false, false, false, Processor.userMode⟩
      spsr := fun _ => ⟨false, false, false, false, 0, false, false, false, systemMode⟩ }
  mem := storeWords (storeWords (fun _ => 0) 0x28 [0x10000]) 0x30000 [swiWord 8]

theorem calling_call : SwiCall swiCode 0x10000 0x20000 8 calling where
  vector := rfl
  lies := by
    intro j i hi
    have hlt : j < 5 := (List.getElem?_eq_some_iff.mp hi).1
    rw [← hi]
    interval_cases j <;> rfl
  hooked := by decide
  instruction := by decide
  word := rfl
  aligned := rfl
  room := by decide
  apart := .inr (by decide)

/-- `sw_handler` returns at once. -/
def swHandled (m : Machine) : Machine := { m with core := m.core.setPc (m.core.regs .svc .lr) }

theorem swi_returns_calling : ∃ h r u : Machine,
    (h.core.pc = 0x20000 ∧ h.core.regs .usr .r0 = 8) ∧ SwiHandled calling.core h r ∧
      SameOff (fun b => b = .fiq ∨ b = .svc) calling.core.next u.core := by
  have hhandled : SwiHandled calling.core (swiCalled 0x20000 calling)
      (swHandled (swiCalled 0x20000 calling)) :=
    ⟨rfl, rfl, rfl, fun _ _ => rfl, fun _ _ _ _ => rfl, fun _ _ => rfl, fun _ _ => rfl⟩
  obtain ⟨⟨hpc, hnumber, -⟩, hreturns⟩ :=
    swi_returns calling_call calling_call.called_executes.interrupted
  have hlies : Lies swiCode 0x10010 [.ldmReturn .sp savedRegs] := calling_call.lies.right
  have hlast := hlies.executes (m := swHandled (swiCalled 0x20000 calling))
    (fun _ hi => absurd hi List.not_mem_nil) (swiCalled_lr 0x20000 calling calling_call.loads)
  exact ⟨_, _, _, ⟨hpc, hnumber⟩, hhandled, (hreturns _ _ hhandled hlast.interrupted).1⟩

/-! ## An FIQ as an interruption -/

/-- Served to its end, an FIQ is one of the interruptions, if the code that is
interrupted does not use the eight words below the stack pointer of user mode. -/
theorem Inv.fiq_alike {l : Image} {t : State} (h : Inv l t)
    (hunmasked : t.machine.core.cpsr.fiqMasked = false) {A : Set Word}
    (hoff : ∀ a ∈ A, (t.machine.core.regs .usr .sp).toNat ≤ a.toNat ∨
      a.toNat + 32 < (t.machine.core.regs .usr .sp).toNat) :
    ∃ a v u, FiqServed l t a v u ∧ Alike (· = .fiq) A t.machine u.machine := by
  obtain ⟨a, v, u, hserved, hmem⟩ := fiq_served h hunmasked
  exact ⟨a, v, u, hserved, hserved.resumes h, fun b hb => hmem b (hoff b hb)⟩

end Goldfish.Exceptions
