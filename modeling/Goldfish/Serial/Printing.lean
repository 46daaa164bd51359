import Goldfish.Lib.Port
import Goldfish.Serial.Driver

/-!
# Printing without the driver

The debugging routines of `goldfish_uart.S` send characters straight to the
port of UART 2: a character, a string that ends with a zero, a number in
hexadecimal.
-/

namespace Goldfish.Serial

open Processor
open Arm (Word Memory align)
open StateTransition

/-- `GOLDFISH_TTY_PUT_CHAR_PHYS`. -/
def ttyPutCharPhys : Word := 0xff012000

/-- `GOLDFISH_TTY_PUT_CHAR_BASE`. -/
def ttyPutCharBase : Word := 0xfe012000

/-- Behind the `mrc`. -/
def selectPort (rx : Reg) : List Instr :=
  [.tst rx (.imm 1), .cond .eq (.ldrLit rx ttyPutCharPhys),
    .cond .ne (.ldrLit rx ttyPutCharBase)]

/-- `control` is the control register of the system, whose lowest bit says
whether the MMU is enabled. In user mode it cannot be read. -/
def addruart (control : Word) (rx : Reg) : List Instr := .mrc rx control :: selectPort rx

def uartPort (control : Word) : Word :=
  if control &&& 1 = 0 then ttyPutCharPhys else ttyPutCharBase

def senduart (rd rx : Reg) : List Instr := [.teq rx (.imm 0), .cond .ne (.str rd rx)]

/-- The addresses the linker gives, and the control register. -/
structure UartCode where
  control : Word
  printhex8 : Word
  printhex4 : Word
  printhex2 : Word
  printascii : Word
  printch : Word
  hexbuf : Word

namespace UartCode

variable (y : UartCode)

def port : Word := uartPort y.control

/-- The label `1`. -/
def charCode : List Instr :=
  senduart .r1 .r3 ++ [.teq .r1 (.imm 10), .cond .eq (.mov .r1 (.imm 13)),
    .cond .eq (.b (y.printascii + 20))]

/-- The label `2`. -/
def nextCode : List Instr :=
  [.teq .r0 (.imm 0), .cond .ne (.ldrb .r1 .r0 1), .cond .ne (.teq .r1 (.imm 0)),
    .cond .ne (.b (y.printascii + 20)), .ret]

def printasciiCode : List Instr :=
  addruart y.control .r3 ++ [.b (y.printascii + 40)] ++ y.charCode ++ y.nextCode

def printchCode : List Instr :=
  addruart y.control .r3 ++
    [.mov .r1 (.reg .r0), .mov .r0 (.imm 0), .b (y.printascii + 20)]

def getbaseaddrCode : List Instr := addruart y.control .r0 ++ [.ret]

end UartCode

/-! ## The port -/

theorem uartPort_ne_zero (control : Word) : uartPort control ≠ 0 := by
  unfold uartPort
  split_ifs <;> decide

section Addruart

variable (control : Word) (rx : Reg) {m : Machine} (hmode : m.core.mode ≠ userMode)

include hmode

theorem addruart_run : runCode (addruart control rx) m =
    runCode (.ldrLit rx control :: selectPort rx) m := by
  rw [addruart, runCode_cons, runCode_cons, exec_mrc hmode]

theorem addruart_port : (runCode (addruart control rx) m).core.get rx = uartPort control := by
  rw [addruart_run control rx hmode]
  by_cases hmmu : control &&& 1#32 = 0#32
  · simp [selectPort, Instr.exec, hmmu, Core.next, Core.get_set, Operand.value, uartPort]
  · simp [selectPort, Instr.exec, hmmu, Core.next, Core.get_set, Operand.value, uartPort]

theorem addruart_sameBut : SameBut [rx] m.core (runCode (addruart control rx) m).core := by
  rw [addruart_run control rx hmode]
  exact runCode_sameBut (by simp [selectPort, Instr.within]) m

end Addruart

theorem addruart_mem (control : Word) (rx : Reg) (m : Machine) :
    (runCode (addruart control rx) m).mem = m.mem :=
  runCode_mem (by simp [addruart, selectPort, Instr.stores]) m

/-- Without the MMU it is the address that the driver works with. -/
theorem getbaseaddrCode_run (y : UartCode) (hmmu : y.control &&& 1 = 0) {m : Machine}
    (hmode : m.core.mode ≠ userMode) :
    (runCode y.getbaseaddrCode m).core.get .r0 = getbaseaddr ∧
      (runCode y.getbaseaddrCode m).core.pc = m.core.get .lr ∧
      (runCode y.getbaseaddrCode m).mem = m.mem := by
  have hsame := addruart_sameBut y.control .r0 hmode
  rw [UartCode.getbaseaddrCode, runCode_append]
  refine ⟨?_, hsame.get (r := .lr) (by decide), addruart_mem y.control .r0 m⟩
  exact (addruart_port y.control .r0 hmode).trans (if_pos hmmu)

/-! ## One character -/

/-- What is sent for a character: a line feed is followed by a carriage return. -/
def sentFor (c : Word) : List Word := if c = 10 then [10, 13] else [c]

section Char

variable {y : UartCode} {m : Machine}

/-- One pass at the label `1`. -/
theorem charCode_run (hr3 : m.core.get .r3 = y.port) (hpc : m.core.pc = y.printascii + 20) :
    (runCode y.charCode m).mem = storeWords m.mem (align y.port) [m.core.get .r1] ∧
      sentBy y.port y.charCode m = [m.core.get .r1] ∧
      (m.core.get .r1 = 10 → (runCode y.charCode m).core.get .r1 = 13 ∧
        (runCode y.charCode m).core.pc = y.printascii + 20) ∧
      (m.core.get .r1 ≠ 10 → (runCode y.charCode m).core.pc = y.printascii + 40) := by
  have hport : y.port ≠ 0#32 := uartPort_ne_zero y.control
  have hsum : y.printascii + 20 + 4 + 4 + 4 + 4 + 4 = y.printascii + 40 := by
    rw [add_assoc, add_assoc, add_assoc, add_assoc, add_assoc]
    rfl
  by_cases hline : m.core.get .r1 = 10#32
  · simp [UartCode.charCode, senduart, Instr.exec, Instr.sends, Core.next, Core.get_set,
      Operand.value, hr3, hport, hline]
  · have hpc' : (runCode y.charCode m).core.pc = m.core.pc + 4 + 4 + 4 + 4 + 4 := by
      simp [UartCode.charCode, senduart, Instr.exec, Core.next, Operand.value, hr3, hport, hline]
    rw [hpc, hsum] at hpc'
    refine ⟨?_, ?_, fun h => absurd h hline, fun _ => hpc'⟩
    · simp [UartCode.charCode, senduart, Instr.exec, Core.next, Operand.value, hr3, hport, hline]
    · simp [UartCode.charCode, senduart, Instr.exec, Instr.sends, Core.next, Operand.value, hr3,
        hport, hline]

/-- The same memory apart from the register of the UART. -/
def OffPort (y : UartCode) (m m' : Memory) : Prop := ∀ a, ¬ InWords y.port 1 a → m' a = m a

theorem OffPort.trans {m₁ m₂ m₃ : Memory} (h : OffPort y m₁ m₂) (h' : OffPort y m₂ m₃) :
    OffPort y m₁ m₃ := fun a ha => (h' a ha).trans (h a ha)

theorem OffPort.store (m : Memory) (v : Word) : OffPort y m (storeWords m (align y.port) [v]) := by
  have haligned : align y.port = y.port := by
    rw [UartCode.port, uartPort]
    split_ifs <;> rfl
  intro a ha
  rw [haligned]
  apply Memory.store_outside
  exact Nat.le_of_not_lt ha

variable {code : Code} (hlies : Lies code y.printascii y.printasciiCode)

include hlies

theorem lies_charCode : Lies code (y.printascii + 20) y.charCode := hlies.left.right

theorem lies_nextCode : Lies code (y.printascii + 40) y.nextCode := hlies.right

/-- From the label `1` to the label `2`. -/
theorem char_sends (hr3 : m.core.get .r3 = y.port) (hpc : m.core.pc = y.printascii + 20)
    (l : List Word) :
    ∃ t, Reaches (send code y.port) ⟨m, l⟩ ⟨t, l ++ sentFor (m.core.get .r1)⟩ ∧
      t.core.pc = y.printascii + 40 ∧ SameBut [.r1] m.core t.core ∧ OffPort y m.mem t.mem := by
  have hstraight : ∀ i ∈ y.charCode.dropLast, i.straight := by
    simp [UartCode.charCode, senduart, Instr.straight]
  have hwithin : ∀ i ∈ y.charCode, i.within [.r1] := by
    simp [UartCode.charCode, senduart, Instr.within]
  obtain ⟨hmem, hsent, hline, hother⟩ := charCode_run hr3 hpc
  have hsame := runCode_sameBut hwithin m
  have hpass := ((lies_charCode hlies).executes hstraight hpc).sends y.port l
  have hoff : OffPort y m.mem (runCode y.charCode m).mem := by
    rw [hmem]
    exact OffPort.store m.mem _
  rw [hsent] at hpass
  by_cases hlf : m.core.get .r1 = 10
  · obtain ⟨hr1, hpc'⟩ := hline hlf
    have hr3' : (runCode y.charCode m).core.get .r3 = y.port := by
      rw [hsame.get (by decide), hr3]
    obtain ⟨hmem', hsent', -, hother'⟩ := charCode_run hr3' hpc'
    have hagain := ((lies_charCode hlies).executes hstraight hpc').sends y.port
      (l ++ [m.core.get .r1])
    have hne : (13 : Word) ≠ 10 := by decide
    rw [hsent', hr1, List.append_assoc, hlf] at hagain
    rw [hlf] at hpass
    refine ⟨_, ?_, hother' (by rw [hr1]; exact hne), hsame.trans (runCode_sameBut hwithin _),
      hoff.trans ?_⟩
    · rw [sentFor, if_pos hlf]
      exact hpass.trans hagain
    · rw [hmem']
      exact OffPort.store _ _
  · refine ⟨_, ?_, hother hlf, hsame, hoff⟩
    rw [sentFor, if_neg hlf]
    exact hpass

end Char

/-! ## Strings -/

/-- The bytes `cs` and a zero lie at `s`, not in the register of the UART. A
string ends where addresses do, too, and that at `0` is empty. -/
def Text (y : UartCode) (m : Memory) : Word → List (BitVec 8) → Prop
  | s, [] => s = 0 ∨ ¬ InWords y.port 1 s ∧ m s = 0
  | s, c :: cs => s ≠ 0 ∧ ¬ InWords y.port 1 s ∧ m s = c ∧ c ≠ 0 ∧ Text y m (s + 1) cs

/-- What is sent for a string. -/
def sentForText (cs : List (BitVec 8)) : List Word := cs.flatMap fun c => sentFor (c.setWidth 32)

section Text

variable {y : UartCode} {m : Machine}

theorem not_inWords_of_lt {s : Word} (h : s.toNat < y.port.toNat) : ¬ InWords y.port 1 s := by
  have hoff := Memory.sub_toNat_of_lt h
  have hhigh : y.port.toNat + 4 ≤ 2 ^ 32 := by
    rw [UartCode.port, uartPort]
    split_ifs <;> decide
  rw [InWords]
  omega

theorem Text.congr {m m' : Memory} {s : Word} {cs : List (BitVec 8)} (h : Text y m s cs)
    (hoff : OffPort y m m') : Text y m' s cs := by
  induction cs generalizing s with
  | nil => exact h.imp_right fun ⟨hs, hzero⟩ => ⟨hs, (hoff s hs).trans hzero⟩
  | cons c cs ih =>
      obtain ⟨hne, hs, hc, hzero, hrest⟩ := h
      exact ⟨hne, hs, (hoff s hs).trans hc, hzero, ih hrest⟩

/-- A string of C, up to its first zero. -/
theorem text_of_load {mem : Memory} {s : Word} {n : ℕ} (hpos : 0 < s.toNat)
    (hport : s.toNat + n < y.port.toNat)
    (hbefore : ∀ i < n, mem (s + BitVec.ofNat 32 i) ≠ 0)
    (hzero : mem (s + BitVec.ofNat 32 n) = 0) : Text y mem s (Memory.load mem s n) := by
  induction n generalizing s with
  | zero =>
      rw [BitVec.ofNat_eq_ofNat, BitVec.add_zero] at hzero
      exact .inr ⟨not_inWords_of_lt (by omega), hzero⟩
  | succ n ih =>
      have hnext : ∀ i, s + 1 + BitVec.ofNat 32 i = s + BitVec.ofNat 32 (i + 1) := by
        intro i
        rw [Nat.add_comm i 1, ← Words.add_ofNat_add]
        rfl
      have hlt := y.port.isLt
      have hsucc : (s + 1).toNat = s.toNat + 1 :=
        Memory.add_ofNat_toNat (i := 1) (by omega)
      have hne : s ≠ 0 := fun h => hpos.ne' (congrArg BitVec.toNat h)
      have hfirst := hbefore 0 n.succ_pos
      rw [BitVec.ofNat_eq_ofNat, BitVec.add_zero] at hfirst
      rw [Memory.load_cons]
      refine ⟨hne, not_inWords_of_lt (by omega), rfl, hfirst, ih (by omega) (by omega) ?_ ?_⟩
      · intro i hi
        rw [hnext]
        exact hbefore (i + 1) (Nat.succ_lt_succ hi)
      · rw [hnext]
        exact hzero

/-- At the label `2` with a string that is not empty. -/
theorem nextCode_more (hne : m.core.get .r0 ≠ 0) (hzero : m.mem (m.core.get .r0) ≠ 0) :
    (runCode (y.nextCode.take 4) m).core.pc = y.printascii + 20 ∧
      (runCode (y.nextCode.take 4) m).core.get .r0 = m.core.get .r0 + 1 ∧
      (runCode (y.nextCode.take 4) m).core.get .r1 = (m.mem (m.core.get .r0)).setWidth 32 := by
  have hne' : m.core.get .r0 ≠ 0#32 := hne
  have hzero' : (m.mem (m.core.get .r0)).setWidth 32 ≠ 0#32 := by
    intro h
    have hnat := congrArg BitVec.toNat h
    rw [BitVec.toNat_setWidth_of_le (by decide)] at hnat
    exact hzero (BitVec.eq_of_toNat_eq hnat)
  refine ⟨?_, ?_, ?_⟩
  all_goals
    simp [UartCode.nextCode, Instr.exec, Core.next, Core.get_set, Operand.value, hne', hzero']

theorem nextCode_end (hend : m.core.get .r0 = 0 ∨ m.mem (m.core.get .r0) = 0) :
    (runCode (y.nextCode.take 4) m).core.pc = m.core.pc + 16 := by
  have hsum : m.core.pc + 4 + 4 + 4 + 4 = m.core.pc + 16 := by
    rw [add_assoc, add_assoc, add_assoc]
    rfl
  by_cases hnull : m.core.get .r0 = 0#32
  · simpa [UartCode.nextCode, Instr.exec, Core.next, Operand.value, hnull] using hsum
  · have hzero : m.mem (m.core.get .r0) = 0#8 := hend.resolve_left hnull
    simpa [UartCode.nextCode, Instr.exec, Core.next, Core.get_set, Operand.value, hnull, hzero]
      using hsum

variable {code : Code} (hlies : Lies code y.printascii y.printasciiCode)

include hlies

/-- The test at the label `2`. -/
theorem next_sends (hpc : m.core.pc = y.printascii + 40) (l : List Word) :
    Reaches (send code y.port) ⟨m, l⟩ ⟨runCode (y.nextCode.take 4) m, l⟩ := by
  have hsplit := lies_nextCode hlies
  rw [← List.take_append_drop 4 y.nextCode] at hsplit
  have hstraight : ∀ i ∈ (y.nextCode.take 4).dropLast, i.straight := by
    simp [UartCode.nextCode, Instr.straight]
  have hnone : sentBy y.port (y.nextCode.take 4) m = [] := by
    simp [UartCode.nextCode, Instr.sends]
  have htest := (hsplit.left.executes hstraight hpc).sends y.port l
  rwa [hnone, List.append_nil] at htest

/-- From the label `2` with an empty string. -/
theorem end_sends (hpc : m.core.pc = y.printascii + 40)
    (hend : m.core.get .r0 = 0 ∨ m.mem (m.core.get .r0) = 0) (l : List Word) :
    ∃ t, Reaches (send code y.port) ⟨m, l⟩ ⟨t, l⟩ ∧ t.core.pc = m.core.get .lr ∧
      SameBut [.r0, .r1] m.core t.core ∧ t.mem = m.mem := by
  have hwithin : ∀ i ∈ y.nextCode, i.within [.r0, .r1] := by
    simp [UartCode.nextCode, Instr.within]
  have hsame : SameBut [.r0, .r1] m.core (runCode (y.nextCode.take 4) m).core :=
    runCode_sameBut (fun i hi => hwithin i (List.mem_of_mem_take hi)) m
  have hpc' : (runCode (y.nextCode.take 4) m).core.pc = y.printascii + 40 + 16 := by
    rw [nextCode_end hend, hpc]
  have hsplit := lies_nextCode hlies
  rw [← List.take_append_drop 4 y.nextCode] at hsplit
  have hret : code (runCode (y.nextCode.take 4) m).core.pc = some .ret := by
    rw [hpc']
    exact hsplit.right.head
  have hback : Executes code [.ret] (runCode (y.nextCode.take 4) m) := ⟨hret, trivial⟩
  have hsent := hback.sends y.port l
  have hnone : sentBy y.port [.ret] (runCode (y.nextCode.take 4) m) = [] := rfl
  rw [hnone, List.append_nil] at hsent
  refine ⟨_, (next_sends hlies hpc l).trans hsent, ?_, hsame.setPc _, ?_⟩
  · exact hsame.get (r := .lr) (by decide)
  · exact runCode_mem (by simp [UartCode.nextCode, Instr.stores]) m

/-- A string is sent, and the routine returns. -/
theorem text_sends {cs : List (BitVec 8)} (htext : Text y m.mem (m.core.get .r0) cs)
    (hr3 : m.core.get .r3 = y.port) (hpc : m.core.pc = y.printascii + 40) (l : List Word) :
    ∃ t, Reaches (send code y.port) ⟨m, l⟩ ⟨t, l ++ sentForText cs⟩ ∧
      t.core.pc = m.core.get .lr ∧ SameBut [.r0, .r1] m.core t.core ∧ OffPort y m.mem t.mem := by
  induction cs generalizing m l with
  | nil =>
      have hend : m.core.get .r0 = 0 ∨ m.mem (m.core.get .r0) = 0 := htext.imp_right And.right
      obtain ⟨t, hreach, hret, hsame, hmem⟩ := end_sends hlies hpc hend l
      refine ⟨t, ?_, hret, hsame, fun a _ => congrFun hmem a⟩
      rwa [sentForText, List.flatMap_nil, List.append_nil]
  | cons c cs ih =>
      obtain ⟨hne, -, hc, hzero, hrest⟩ := htext
      have hwithin : ∀ i ∈ y.nextCode, i.within [.r0, .r1] := by
        simp [UartCode.nextCode, Instr.within]
      have hsame : SameBut [.r0, .r1] m.core (runCode (y.nextCode.take 4) m).core :=
        runCode_sameBut (fun i hi => hwithin i (List.mem_of_mem_take hi)) m
      have hmem : (runCode (y.nextCode.take 4) m).mem = m.mem :=
        runCode_mem (by simp [UartCode.nextCode, Instr.stores]) m
      obtain ⟨hpc', hr0, hr1⟩ := nextCode_more hne (by rwa [hc])
      have hr3' : (runCode (y.nextCode.take 4) m).core.get .r3 = y.port := by
        rw [hsame.get (by decide), hr3]
      obtain ⟨u, hchar, hupc, husame, huoff⟩ := char_sends hlies hr3' hpc' l
      rw [hr1, hc] at hchar
      rw [hmem] at huoff
      have hutext : Text y u.mem (u.core.get .r0) cs := by
        rw [husame.get (by decide), hr0]
        exact hrest.congr huoff
      have hur3 : u.core.get .r3 = y.port := by
        rw [husame.get (by decide), hr3']
      have hall : SameBut [.r0, .r1] m.core u.core := hsame.trans (husame.mono (by simp))
      obtain ⟨t, hreach, hret, htsame, htoff⟩ := ih hutext hur3 hupc _
      refine ⟨t, (next_sends hlies hpc l).trans (hchar.trans ?_), ?_, hall.trans htsame,
        huoff.trans htoff⟩
      · rw [List.append_assoc] at hreach
        exact hreach
      · rw [hret, hall.get (by decide)]

theorem printascii_text {cs : List (BitVec 8)} (hmode : m.core.mode ≠ userMode)
    (htext : Text y m.mem (m.core.get .r0) cs) (hpc : m.core.pc = y.printascii) (l : List Word) :
    ∃ t, Reaches (send code y.port) ⟨m, l⟩ ⟨t, l ++ sentForText cs⟩ ∧
      t.core.pc = m.core.get .lr ∧ SameBut [.r0, .r1, .r3] m.core t.core ∧
      OffPort y m.mem t.mem := by
  have hstart : Lies code y.printascii (addruart y.control .r3 ++ [.b (y.printascii + 40)]) :=
    hlies.left.left
  have hstraight : ∀ i ∈ (selectPort .r3 ++ [Instr.b (y.printascii + 40)]).dropLast,
      i.straight := by
    simp [selectPort, Instr.straight]
  have hsame := addruart_sameBut y.control .r3 hmode
  have hmem := addruart_mem y.control .r3 m
  have hexecutes : Executes code (addruart y.control .r3 ++ [.b (y.printascii + 40)]) m :=
    hstart.executes_mrc hstraight hpc hmode
  have hfirst := hexecutes.sends y.port l
  have hnone : sentBy y.port (addruart y.control .r3 ++ [.b (y.printascii + 40)]) m = [] := by
    simp [addruart, selectPort, Instr.sends]
  rw [hnone, List.append_nil, runCode_append] at hfirst
  have htext' : Text y (runCode (addruart y.control .r3) m).mem
      ((runCode (addruart y.control .r3) m).core.get .r0) cs := by
    rwa [hmem, hsame.get (by decide)]
  have hport : (runCode (addruart y.control .r3) m).core.get .r3 = y.port :=
    addruart_port y.control .r3 hmode
  generalize runCode (addruart y.control .r3) m = u at hfirst htext' hport hsame hmem
  have hbranch : SameBut [.r0, .r1, .r3] u.core (u.core.setPc (y.printascii + 40)) :=
    (SameBut.refl u.core).setPc _
  obtain ⟨t, hreach, hret, htsame, hoff⟩ :=
    text_sends hlies (m := ⟨u.core.setPc (y.printascii + 40), u.mem⟩) htext' hport rfl l
  refine ⟨t, hfirst.trans hreach, ?_, ?_, ?_⟩
  · exact hret.trans (hsame.get (r := .lr) (by decide))
  · exact (hsame.mono (by simp)).trans (hbranch.trans (htsame.mono (by simp)))
  · exact fun a ha => (hoff a ha).trans (congrFun hmem a)

/-- In a privileged mode `printascii` sends the string that `r0` points to, and
returns. -/
theorem printascii_sends {n : ℕ} (hmode : m.core.mode ≠ userMode)
    (hpos : 0 < (m.core.get .r0).toNat)
    (hport : (m.core.get .r0).toNat + n < y.port.toNat)
    (hbefore : ∀ i < n, m.mem (m.core.get .r0 + BitVec.ofNat 32 i) ≠ 0)
    (hzero : m.mem (m.core.get .r0 + BitVec.ofNat 32 n) = 0) (hpc : m.core.pc = y.printascii)
    (l : List Word) :
    ∃ t, Reaches (send code y.port) ⟨m, l⟩
        ⟨t, l ++ sentForText (Memory.load m.mem (m.core.get .r0) n)⟩ ∧
      t.core.pc = m.core.get .lr ∧ SameBut [.r0, .r1, .r3] m.core t.core ∧
      OffPort y m.mem t.mem :=
  printascii_text hlies hmode (text_of_load hpos hport hbefore hzero) hpc l

/-- `printch` sends one character, and returns. -/
theorem printch_sends (hprintch : Lies code y.printch y.printchCode)
    (hmode : m.core.mode ≠ userMode) (hpc : m.core.pc = y.printch) (l : List Word) :
    ∃ t, Reaches (send code y.port) ⟨m, l⟩ ⟨t, l ++ sentFor (m.core.get .r0)⟩ ∧
      t.core.pc = m.core.get .lr ∧ SameBut [.r0, .r1, .r3] m.core t.core ∧
      OffPort y m.mem t.mem := by
  have hstraight : ∀ i ∈ (selectPort .r3 ++ [Instr.mov .r1 (.reg .r0), .mov .r0 (.imm 0),
      .b (y.printascii + 20)]).dropLast, i.straight := by
    simp [selectPort, Instr.straight]
  have hselect := addruart_sameBut y.control .r3 hmode
  have hport : (runCode (addruart y.control .r3) m).core.get .r3 = y.port :=
    addruart_port y.control .r3 hmode
  have hkept : (runCode (addruart y.control .r3) m).core.get .r0 = m.core.get .r0 :=
    hselect.get (by decide)
  have hsame : SameBut [.r0, .r1, .r3] m.core (runCode y.printchCode m).core := by
    rw [UartCode.printchCode, runCode_append]
    exact (hselect.mono (by simp)).trans (runCode_sameBut (by simp [Instr.within]) _)
  have hr0 : (runCode y.printchCode m).core.get .r0 = 0 := by
    simp [UartCode.printchCode, runCode_append, Instr.exec, Core.next, Core.get_set, Operand.value]
  have hr1 : (runCode y.printchCode m).core.get .r1 = m.core.get .r0 := by
    simp [UartCode.printchCode, runCode_append, Instr.exec, Core.next, Core.get_set, Operand.value,
      hkept]
  have hr3 : (runCode y.printchCode m).core.get .r3 = y.port := by
    simp [UartCode.printchCode, runCode_append, Instr.exec, Core.next, Core.get_set, Operand.value,
      hport]
  have hmem : (runCode y.printchCode m).mem = m.mem :=
    runCode_mem (by simp [UartCode.printchCode, addruart, selectPort, Instr.stores]) m
  have hpc' : (runCode y.printchCode m).core.pc = y.printascii + 20 := by
    simp [UartCode.printchCode, runCode_append, Instr.exec]
  have hnone : sentBy y.port y.printchCode m = [] := by
    simp [UartCode.printchCode, addruart, selectPort, Instr.sends]
  have hexecutes : Executes code y.printchCode m := hprintch.executes_mrc hstraight hpc hmode
  have hfirst := hexecutes.sends y.port l
  rw [hnone, List.append_nil] at hfirst
  obtain ⟨u, hchar, hupc, husame, huoff⟩ := char_sends hlies hr3 hpc' l
  have hend : u.core.get .r0 = 0 ∨ u.mem (u.core.get .r0) = 0 := by
    rw [husame.get (by decide), hr0]
    exact .inl rfl
  obtain ⟨t, hreach, hret, htsame, htmem⟩ :=
    end_sends hlies hupc hend (l ++ sentFor (m.core.get .r0))
  rw [hr1] at hchar
  have hall : SameBut [.r0, .r1, .r3] m.core u.core := hsame.trans (husame.mono (by simp))
  refine ⟨t, hfirst.trans (hchar.trans hreach), ?_, hall.trans (htsame.mono (by simp)), ?_⟩
  · rw [hret, hall.get (by decide)]
  · intro a ha
    rw [htmem, huoff a ha, hmem]

end Text

/-! ## A file of routines -/

def uartCode : UartCode where
  control := 0
  printhex8 := 0x1000
  printhex4 := 0x1010
  printhex2 := 0x1020
  printascii := 0x1060
  printch := 0x10c0
  hexbuf := 0x10dc

def printing (routine argument : Word) (mem : Memory) : Machine where
  core :=
    { regs := fun _ r => if r = .r0 then argument else if r = .lr then 0x2000 else 0
      pc := routine
      cpsr := ⟨false, false, false, false, 0, true, true, false, supervisorMode⟩
      spsr := fun _ => ⟨false, false, false, false, 0, true, true, false, supervisorMode⟩ }
  mem := mem

theorem printascii_sends_line : ∃ t,
    Reaches (send (codeAt 0x1060 uartCode.printasciiCode) 0xff012000)
      ⟨printing 0x1060 0x3000 (Memory.store (fun _ => 0) 0x3000 [72, 105, 10]), []⟩
      ⟨t, [72, 105, 10, 13]⟩ ∧ t.core.pc = 0x2000 := by
  have hlies : Lies (codeAt 0x1060 uartCode.printasciiCode) uartCode.printascii _ :=
    lies_codeAt 0x1060 (by decide)
  obtain ⟨t, hreach, hpc, -⟩ := printascii_sends
    (m := printing 0x1060 0x3000 (Memory.store (fun _ => 0) 0x3000 [72, 105, 10])) (n := 3)
    hlies (by decide) (by decide) (by decide) (by decide) (by decide) rfl []
  exact ⟨t, hreach, hpc⟩

end Goldfish.Serial
