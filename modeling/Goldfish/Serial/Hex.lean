import Goldfish.Serial.Printing
import Mathlib.Tactic.Ring

/-!
# Printing numbers

`printhex8`, `printhex4` and `printhex2` put the digits of a number into
`hexbuf`, the lowest one first and from the end down, and print them as a
string. What is printed reads back as the number.
-/

namespace Goldfish.Serial

open Processor
open Arm (Word Memory align)
open StateTransition

/-! ## Digits -/

/-- A digit below `16` as it is printed. -/
def hexDigit (d : Word) : Word := if d.toInt < 10 then d + 48 else d + 87

/-- The last `n` digits of `v`, the highest one first. -/
def hexDigits : ℕ → Word → List (BitVec 8)
  | 0, _ => []
  | n + 1, v => (hexDigit ((v >>> (4 * n)) &&& 15)).setWidth 8 :: hexDigits n v

/-- What a character stands for, if it is a digit. -/
def hexValue (c : BitVec 8) : Option ℕ :=
  if 48 ≤ c.toNat ∧ c.toNat < 58 then some (c.toNat - 48)
  else if 97 ≤ c.toNat ∧ c.toNat < 103 then some (c.toNat - 87)
  else none

def readHex (cs : List (BitVec 8)) : Option ℕ :=
  cs.foldlM (fun v c => (hexValue c).map fun d => 16 * v + d) 0

theorem hexDigit_value :
    ∀ d < 16, hexValue ((hexDigit (BitVec.ofNat 32 d)).setWidth 8) = some d := by
  decide

theorem hexDigit_printable : ∀ d < 16,
    (hexDigit (BitVec.ofNat 32 d)).setWidth 8 ≠ (0 : BitVec 8) ∧
      (hexDigit (BitVec.ofNat 32 d)).setWidth 8 ≠ (10 : BitVec 8) := by
  decide

theorem shifted_digit (v : Word) (n : ℕ) :
    (v >>> (4 * n)) &&& 15 = BitVec.ofNat 32 (v.toNat / 16 ^ n % 16) := by
  apply BitVec.eq_of_toNat_eq
  have hpow : 2 ^ (4 * n) = 16 ^ n := by rw [Nat.pow_mul]
  have hmask : ∀ a : ℕ, a &&& 15 = a % 16 := fun a => Nat.and_two_pow_sub_one_eq_mod a 4
  have hfifteen : (15 : Word).toNat = 15 := rfl
  have hlt : v.toNat / 16 ^ n % 16 < 2 ^ 32 := by
    have hmod := Nat.mod_lt (v.toNat / 16 ^ n) (show 0 < 16 by decide)
    omega
  rw [BitVec.toNat_and, BitVec.toNat_ushiftRight, Nat.shiftRight_eq_div_pow, hpow, hfifteen,
    hmask, BitVec.toNat_ofNat, Nat.mod_eq_of_lt hlt]

theorem hexDigits_length (n : ℕ) (v : Word) : (hexDigits n v).length = n := by
  induction n with
  | zero => rfl
  | succ n ih => rw [hexDigits, List.length_cons, ih]

theorem hexDigits_printable {n : ℕ} {v : Word} {c : BitVec 8} (hc : c ∈ hexDigits n v) :
    c ≠ 0 ∧ c ≠ 10 := by
  induction n with
  | zero => cases hc
  | succ n ih =>
      rw [hexDigits, shifted_digit] at hc
      rcases List.mem_cons.mp hc with rfl | hc
      · exact hexDigit_printable _ (Nat.mod_lt _ (by decide))
      · exact ih hc

/-- Without a line feed nothing is added. -/
theorem sentForText_plain {cs : List (BitVec 8)} (h : ∀ c ∈ cs, c ≠ 10) :
    sentForText cs = cs.map (BitVec.setWidth 32) := by
  induction cs with
  | nil => rfl
  | cons c cs ih =>
      have hne : c.setWidth 32 ≠ (10 : Word) := by
        intro heq
        have hnat := congrArg BitVec.toNat heq
        rw [BitVec.toNat_setWidth_of_le (by decide)] at hnat
        exact h c List.mem_cons_self (BitVec.eq_of_toNat_eq hnat)
      have hrest := ih fun d hd => h d (List.mem_cons_of_mem c hd)
      rw [sentForText] at hrest
      rw [sentForText, List.flatMap_cons, hrest, sentFor, if_neg hne, List.map_cons]
      rfl

theorem readHex_from (n a : ℕ) (v : Word) :
    (hexDigits n v).foldlM (fun v c => (hexValue c).map fun d => 16 * v + d) a =
      some (16 ^ n * a + v.toNat % 16 ^ n) := by
  induction n generalizing a with
  | zero => simp [hexDigits, Nat.mod_one]
  | succ n ih =>
      have hvalue := hexDigit_value (v.toNat / 16 ^ n % 16) (Nat.mod_lt _ (by decide))
      have hsplit : v.toNat % 16 ^ (n + 1) =
          v.toNat % 16 ^ n + 16 ^ n * (v.toNat / 16 ^ n % 16) := by
        rw [pow_succ, Nat.mod_mul]
      rw [hexDigits, shifted_digit, List.foldlM_cons, hvalue]
      change (hexDigits n v).foldlM _ (16 * a + v.toNat / 16 ^ n % 16) = _
      rw [ih, hsplit]
      congr 1
      ring

/-- The digits read back as the number, but for the digits that were left out. -/
theorem readHex_hexDigits (n : ℕ) (v : Word) :
    readHex (hexDigits n v) = some (v.toNat % 16 ^ n) := by
  rw [readHex, readHex_from, Nat.mul_zero, Nat.zero_add]

/-! ## The loop -/

/-- `#-1`. -/
def down : Word := 0xffffffff

namespace UartCode

variable (y : UartCode)

/-- It lies behind the first instruction of `printhex2`. -/
def printhex : Word := y.printhex2 + 4

def hexStart : List Instr :=
  [.ldrLit .r2 y.hexbuf, .alu .add .r3 .r2 (.reg .r1), .mov .r1 (.imm 0), .strb .r1 .r3 0]

/-- The label `1` of `printhex`. -/
def hexLoop : List Instr :=
  [.alu .and .r1 .r0 (.imm 15), .lsr .r0 .r0 4, .cmp .r1 (.imm 10),
    .cond .lt (.alu .add .r1 .r1 (.imm 48)), .cond .ge (.alu .add .r1 .r1 (.imm 87)),
    .strb .r1 .r3 down, .teq .r3 (.reg .r2), .cond .ne (.b (y.printhex + 16))]

def hexEnd : List Instr := [.mov .r0 (.reg .r2), .b y.printascii]

def printhexCode : List Instr := y.hexStart ++ y.hexLoop ++ y.hexEnd

def printhex8Code : List Instr := [.mov .r1 (.imm 8), .b y.printhex]

def printhex4Code : List Instr := [.mov .r1 (.imm 4), .b y.printhex]

def printhex2Code : List Instr := .mov .r1 (.imm 2) :: y.printhexCode

end UartCode

theorem add_down (a : Word) : a + down = a - 1 := by
  have hone : down = -1 := by decide
  rw [hone, ← sub_eq_add_neg]

section Loop

variable {y : UartCode} {m : Machine}

/-- The first half of a pass takes the last digit from `r0`. -/
theorem hexLoop_digit : (runCode (y.hexLoop.take 5) m).core.get .r1 =
      hexDigit (m.core.get .r0 &&& 15#32) ∧
    (runCode (y.hexLoop.take 5) m).core.get .r0 = m.core.get .r0 >>> 4 := by
  by_cases hlt : (m.core.get .r0 &&& 15#32).toInt < 10
  · have hnot : ¬ 10 ≤ (m.core.get .r0 &&& 15#32).toInt := not_le.mpr hlt
    simp [-BitVec.toInt_and, UartCode.hexLoop, Instr.exec, Core.next, Core.get_set, Operand.value,
      Alu.apply, hexDigit,
      hlt, hnot]
  · have hge : 10 ≤ (m.core.get .r0 &&& 15#32).toInt := not_lt.mp hlt
    simp [-BitVec.toInt_and, UartCode.hexLoop, Instr.exec, Core.next, Core.get_set, Operand.value,
      Alu.apply, hexDigit,
      hlt, hge]

/-- The second half stores it before those there are. -/
theorem hexLoop_store : (runCode (y.hexLoop.drop 5) m).mem =
      Memory.store m.mem (m.core.get .r3 - 1) [(m.core.get .r1).setWidth 8] ∧
    (runCode (y.hexLoop.drop 5) m).core.get .r3 = m.core.get .r3 - 1 ∧
    (runCode (y.hexLoop.drop 5) m).core.pc =
      if m.core.get .r3 - 1 = m.core.get .r2 then m.core.pc + 12 else y.printhex + 16 := by
  have hsum : m.core.pc + 4#32 + 4#32 + 4#32 = m.core.pc + 12#32 := by
    rw [add_assoc, add_assoc]
    rfl
  by_cases hlast : m.core.get .r3 - 1#32 = m.core.get .r2
  · simp [UartCode.hexLoop, Instr.exec, Core.next, Core.get_set, Operand.value, add_down, hlast,
      hsum]
  · simp [UartCode.hexLoop, Instr.exec, Core.next, Core.get_set, Operand.value, add_down, hlast]

end Loop

/-! ## The whole number -/

/-- The last digits of `v` lie at the end of the buffer, with a zero behind
them, and `k` of `n` are missing. -/
structure Converting (y : UartCode) (n : ℕ) (v : Word) (m₀ : Machine) (k : ℕ) (m : Machine) :
    Prop where
  le : k ≤ n
  pc : m.core.pc = if k = 0 then y.printhex + 48 else y.printhex + 16
  r0 : m.core.get .r0 = v >>> (4 * (n - k))
  r2 : m.core.get .r2 = y.hexbuf
  r3 : m.core.get .r3 = y.hexbuf + BitVec.ofNat 32 k
  same : SameBut [.r0, .r1, .r2, .r3] m₀.core m.core
  mem : m.mem = Memory.store m₀.mem (y.hexbuf + BitVec.ofNat 32 k) (hexDigits (n - k) v ++ [0])

section Whole

variable {y : UartCode} {m₀ m : Machine} {n k : ℕ} {v : Word}

theorem Converting.pass (h : Converting y n v m₀ (k + 1) m) (hn : n < 16) :
    Converting y n v m₀ k (runCode y.hexLoop m) := by
  have hle := h.le
  have hcount : n - k = n - (k + 1) + 1 := by omega
  have hsplit : runCode y.hexLoop m =
      runCode (y.hexLoop.drop 5) (runCode (y.hexLoop.take 5) m) := by
    rw [← runCode_append, List.take_append_drop]
  have hwithin : ∀ i ∈ y.hexLoop.take 5, i.within [.r0, .r1] := by
    simp [UartCode.hexLoop, Instr.within]
  have hwithin' : ∀ i ∈ y.hexLoop.drop 5, i.within [.r3] := by
    simp [UartCode.hexLoop, Instr.within]
  have hfirst := runCode_sameBut hwithin m
  have hsecond := runCode_sameBut hwithin' (runCode (y.hexLoop.take 5) m)
  have hmem : (runCode (y.hexLoop.take 5) m).mem = m.mem :=
    runCode_mem (by simp [UartCode.hexLoop, Instr.stores]) m
  have hpc : (runCode (y.hexLoop.take 5) m).core.pc = y.printhex + 36 := by
    rw [runCode_pc (by simp [UartCode.hexLoop, Instr.straight]), h.pc, if_neg (Nat.succ_ne_zero k),
      add_assoc]
    rfl
  have hr3 : (runCode (y.hexLoop.take 5) m).core.get .r3 - 1 = y.hexbuf + BitVec.ofNat 32 k := by
    rw [hfirst.get (by decide), h.r3, Words.ofNat_add, ← add_assoc]
    exact add_sub_cancel_right _ _
  have hr2 : (runCode (y.hexLoop.take 5) m).core.get .r2 = y.hexbuf := by
    rw [hfirst.get (by decide), h.r2]
  obtain ⟨hdigit, hr0⟩ := hexLoop_digit (y := y) (m := m)
  obtain ⟨hstore, hr3', hpc'⟩ := hexLoop_store (y := y) (m := runCode (y.hexLoop.take 5) m)
  rw [hr3] at hstore hr3' hpc'
  rw [hr2] at hpc'
  rw [hsplit]
  refine ⟨by omega, ?_, ?_, ?_, hr3', ?_, ?_⟩
  · have hfirstAddress : y.hexbuf + BitVec.ofNat 32 k = y.hexbuf ↔ k = 0 := by
      rw [add_eq_left, ← Words.ofNat_inj (w := 32) (by omega) (by decide)]
      rfl
    rw [hpc', hpc, add_assoc]
    simp only [hfirstAddress]
    rfl
  · rw [hsecond.get (by decide), hr0, h.r0, hcount, Nat.mul_succ, BitVec.shiftRight_add]
  · rw [hsecond.get (by decide), hr2]
  · exact (h.same.trans (hfirst.mono (by simp))).trans (hsecond.mono (by simp))
  · have hnext : y.hexbuf + BitVec.ofNat 32 (k + 1) = y.hexbuf + BitVec.ofNat 32 k + 1 := by
      rw [Words.ofNat_add, ← add_assoc]
      rfl
    rw [hstore, hmem, h.mem, hnext, Memory.store_before, hdigit, h.r0, hcount]
    rfl

variable {code : Code} {l : List Word}

/-- The last digits have been put into the buffer, and nothing was sent. -/
def Passing (y : UartCode) (n : ℕ) (v : Word) (m₀ : Machine) (l : List Word) (k : ℕ) (s : Sender) :
    Prop := Converting y n v m₀ k s.machine ∧ s.sent = l

theorem passing_leads (hlies : Lies code y.printhex y.printhexCode) (hn : n < 16) (k : ℕ) :
    Machine.Leads (send code y.port) (Passing y n v m₀ l (k + 1)) (Passing y n v m₀ l k) := by
  rintro ⟨m, _⟩ ⟨h, rfl⟩
  have hloop : Lies code (y.printhex + 16) y.hexLoop := hlies.left.right
  have hstraight : ∀ i ∈ y.hexLoop.dropLast, i.straight := by
    simp [UartCode.hexLoop, Instr.straight]
  have hnone : sentBy y.port y.hexLoop m = [] := by
    simp [UartCode.hexLoop, Instr.sends]
  have hpc : m.core.pc = y.printhex + 16 := h.pc.trans (if_neg (Nat.succ_ne_zero k))
  have hsends := (hloop.executes hstraight hpc).sends y.port
  refine ⟨_, hsends _, h.pass hn, ?_⟩
  rw [hnone, List.append_nil]

/-- Before the loop there is only the zero. -/
theorem converting_start (hr1 : m.core.get .r1 = BitVec.ofNat 32 n) (hn : n ≠ 0)
    (hpc : m.core.pc = y.printhex) :
    Converting y n (m.core.get .r0) m n (runCode y.hexStart m) := by
  have hwithin : ∀ i ∈ y.hexStart, i.within [.r1, .r2, .r3] := by
    simp [UartCode.hexStart, Instr.within]
  have hsame := runCode_sameBut hwithin m
  refine ⟨le_rfl, ?_, ?_, ?_, ?_, hsame.mono (by simp), ?_⟩
  · rw [runCode_pc (by simp [UartCode.hexStart, Instr.straight]), hpc, if_neg hn]
    rfl
  · rw [hsame.get (by decide), Nat.sub_self, Nat.mul_zero, BitVec.ushiftRight_zero]
  · simp [UartCode.hexStart, Instr.exec, Core.next, Core.get_set, Operand.value]
  · simp [UartCode.hexStart, Instr.exec, Core.next, Core.get_set, Operand.value, Alu.apply, hr1]
  · rw [Nat.sub_self]
    simp [UartCode.hexStart, Instr.exec, Core.next, Core.get_set, Operand.value, Alu.apply, hr1,
      hexDigits]

/-- After the loop the buffer holds a string. -/
theorem Converting.text (h : Converting y n v m₀ 0 m) (hpos : 0 < y.hexbuf.toNat)
    (hbelow : y.hexbuf.toNat + n < y.port.toNat) : Text y m.mem y.hexbuf (hexDigits n v) := by
  have hlength : (hexDigits n v ++ [(0 : BitVec 8)]).length = n + 1 := by
    rw [List.length_append, hexDigits_length, List.length_singleton]
  have hport := y.port.isLt
  have hmem : m.mem = Memory.store m₀.mem y.hexbuf (hexDigits n v ++ [0]) := by
    rw [h.mem, BitVec.ofNat_eq_ofNat, BitVec.add_zero, Nat.sub_zero]
  have hload : Memory.load (Memory.store m₀.mem y.hexbuf (hexDigits n v ++ [0])) y.hexbuf
      (hexDigits n v ++ [(0 : BitVec 8)]).length = hexDigits n v ++ [0] :=
    Memory.load_store _ _ (by omega)
  rw [← hmem, hlength, Memory.load_succ] at hload
  obtain ⟨hdigits, hzero⟩ := List.append_inj' hload rfl
  rw [← hdigits]
  apply text_of_load hpos hbelow
  · intro i hi
    have hin : m.mem (y.hexbuf + BitVec.ofNat 32 i) ∈ hexDigits n v := by
      rw [← hdigits]
      exact List.mem_map_of_mem (List.mem_range.mpr hi)
    exact (hexDigits_printable hin).1
  · exact List.singleton_injective hzero

/-- From the label `printhex` with the count in `r1`. -/
theorem converting_sends (hlies : Lies code y.printhex y.printhexCode)
    (hprint : Lies code y.printascii y.printasciiCode) (hmode : m.core.mode ≠ userMode)
    (hpos : 0 < y.hexbuf.toNat)
    (hbelow : y.hexbuf.toNat + 16 ≤ y.port.toNat) (hn : n < 16) (hzero : n ≠ 0)
    (hr1 : m.core.get .r1 = BitVec.ofNat 32 n) (hpc : m.core.pc = y.printhex) (l : List Word) :
    ∃ t, Reaches (send code y.port) ⟨m, l⟩
        ⟨t, l ++ (hexDigits n (m.core.get .r0)).map (BitVec.setWidth 32)⟩ ∧
      t.core.pc = m.core.get .lr ∧ SameBut [.r0, .r1, .r2, .r3] m.core t.core ∧
      ∀ a, n < (a - y.hexbuf).toNat → ¬ InWords y.port 1 a → t.mem a = m.mem a := by
  have hstart : Lies code y.printhex y.hexStart := hlies.left.left
  have hstraight : ∀ i ∈ y.hexStart.dropLast, i.straight := by
    simp [UartCode.hexStart, Instr.straight]
  have hnone : sentBy y.port y.hexStart m = [] := by
    simp [UartCode.hexStart, Instr.sends]
  have hfirst := (hstart.executes hstraight hpc).sends y.port l
  rw [hnone, List.append_nil] at hfirst
  obtain ⟨⟨u, l'⟩, hloop, hu, hsent⟩ := Machine.Leads.countdown (passing_leads hlies hn) n
    ⟨runCode y.hexStart m, l⟩ ⟨converting_start hr1 hzero hpc, rfl⟩
  have hkept : l = l' := hsent.symm
  subst hkept
  have hend : Executes code y.hexEnd u :=
    hlies.right.executes (by simp [UartCode.hexEnd, Instr.straight]) hu.pc
  have hcall := hend.sends y.port l
  have hnone' : sentBy y.port y.hexEnd u = [] := rfl
  rw [hnone', List.append_nil] at hcall
  have hr0 : (runCode y.hexEnd u).core.get .r0 = y.hexbuf :=
    (Core.get_set u.core .r0 .r0 _).trans ((if_pos rfl).trans hu.r2)
  have htext : Text y (runCode y.hexEnd u).mem ((runCode y.hexEnd u).core.get .r0)
      (hexDigits n (m.core.get .r0)) := by
    rw [hr0]
    exact hu.text hpos (by omega)
  have hendSame : SameBut [.r0, .r1, .r2, .r3] u.core (runCode y.hexEnd u).core :=
    runCode_sameBut (by simp [UartCode.hexEnd, Instr.within]) u
  have hall := hu.same.trans hendSame
  obtain ⟨t, hreach, hret, htsame, hoff⟩ :=
    printascii_text hprint (by rwa [hall.mode]) htext rfl l
  rw [sentForText_plain fun c hc => (hexDigits_printable hc).2] at hreach
  refine ⟨t, hfirst.trans (hloop.trans (hcall.trans hreach)), ?_,
    hall.trans (htsame.mono (by simp)), fun a ha haport => ?_⟩
  · rw [hret, hall.get (by decide)]
  · have hmem : (runCode y.hexEnd u).mem = u.mem := rfl
    rw [hoff a haport, hmem, hu.mem, BitVec.ofNat_eq_ofNat, BitVec.add_zero]
    apply Memory.store_outside
    rw [List.length_append, hexDigits_length, List.length_singleton]
    exact ha

end Whole

/-! ## The routines -/

inductive Printhex where
  | printhex8 | printhex4 | printhex2

def Printhex.entry (y : UartCode) : Printhex → Word
  | printhex8 => y.printhex8
  | printhex4 => y.printhex4
  | printhex2 => y.printhex2

def Printhex.digits : Printhex → ℕ
  | printhex8 => 8
  | printhex4 => 4
  | printhex2 => 2

/-- The code is where the linker says, and the buffer lies below the UART. -/
structure UartCode.Linked (y : UartCode) (code : Code) : Prop where
  printhex8 : Lies code y.printhex8 y.printhex8Code
  printhex4 : Lies code y.printhex4 y.printhex4Code
  printhex2 : Lies code y.printhex2 y.printhex2Code
  printascii : Lies code y.printascii y.printasciiCode
  hexbuf_pos : 0 < y.hexbuf.toNat
  hexbuf_below : y.hexbuf.toNat + 16 ≤ y.port.toNat

section Routines

variable {y : UartCode} {code : Code} {m : Machine}

/-- The longer numbers jump into the code of the shortest. -/
theorem entry_jumps {a n : Word} (hlies : Lies code a [.mov .r1 (.imm n), .b y.printhex])
    (hpc : m.core.pc = a) (l : List Word) :
    ∃ u, Reaches (send code y.port) ⟨m, l⟩ ⟨u, l⟩ ∧ u.core.pc = y.printhex ∧
      u.core.get .r1 = n ∧ SameBut [.r1] m.core u.core ∧ u.mem = m.mem := by
  have hstraight : ∀ i ∈ [Instr.mov .r1 (.imm n), .b y.printhex].dropLast, i.straight := by
    simp [Instr.straight]
  have hsame : SameBut [.r1] m.core (runCode [.mov .r1 (.imm n), .b y.printhex] m).core :=
    runCode_sameBut (by simp [Instr.within]) m
  have hr1 : (runCode [.mov .r1 (.imm n), .b y.printhex] m).core.get .r1 = n := by
    simp [Instr.exec, Core.next, Core.get_set, Operand.value]
  have hsends := (hlies.executes hstraight hpc).sends y.port l
  have hnone : sentBy y.port [.mov .r1 (.imm n), .b y.printhex] m = [] := rfl
  rw [hnone, List.append_nil] at hsends
  exact ⟨_, hsends, rfl, hr1, hsame, rfl⟩

theorem entry_sends (hlinked : y.Linked code) (p : Printhex) (hpc : m.core.pc = p.entry y)
    (l : List Word) :
    ∃ u, Reaches (send code y.port) ⟨m, l⟩ ⟨u, l⟩ ∧ u.core.pc = y.printhex ∧
      u.core.get .r1 = BitVec.ofNat 32 p.digits ∧ SameBut [.r1] m.core u.core ∧ u.mem = m.mem := by
  cases p with
  | printhex8 => exact entry_jumps hlinked.printhex8 hpc l
  | printhex4 => exact entry_jumps hlinked.printhex4 hpc l
  | printhex2 =>
      have hfirst : Executes code [.mov .r1 (.imm 2)] m :=
        ⟨(congrArg code hpc).trans hlinked.printhex2.head, trivial⟩
      have hsame : SameBut [.r1] m.core (runCode [.mov .r1 (.imm 2)] m).core :=
        runCode_sameBut (by simp [Instr.within]) m
      have hr1 : (runCode [.mov .r1 (.imm 2)] m).core.get .r1 = 2 := by
        simp [Instr.exec, Core.next, Core.get_set, Operand.value]
      have hsends := hfirst.sends y.port l
      have hnone : sentBy y.port [.mov .r1 (.imm 2)] m = [] := rfl
      rw [hnone, List.append_nil] at hsends
      exact ⟨_, hsends, congrArg (· + 4) hpc, hr1, hsame, rfl⟩

/-- What is printed, in a privileged mode, reads back as the lowest digits of `r0`. -/
theorem printhex_sends (hlinked : y.Linked code) (p : Printhex) (hmode : m.core.mode ≠ userMode)
    (hpc : m.core.pc = p.entry y) (l : List Word) :
    ∃ t cs, Reaches (send code y.port) ⟨m, l⟩ ⟨t, l ++ cs.map (BitVec.setWidth 32)⟩ ∧
      cs.length = p.digits ∧
      readHex cs = some ((m.core.get .r0).toNat % 16 ^ p.digits) ∧
      t.core.pc = m.core.get .lr ∧ SameBut [.r0, .r1, .r2, .r3] m.core t.core ∧
      ∀ a, p.digits < (a - y.hexbuf).toNat → ¬ InWords y.port 1 a → t.mem a = m.mem a := by
  obtain ⟨u, hentry, hupc, hr1, hsame, hmem⟩ := entry_sends hlinked p hpc l
  have hlies : Lies code y.printhex y.printhexCode := hlinked.printhex2.tail
  have hdigits : p.digits < 16 ∧ p.digits ≠ 0 := by
    cases p
    all_goals decide
  obtain ⟨t, hreach, hret, htsame, htmem⟩ := converting_sends hlies hlinked.printascii
    (by rwa [hsame.mode]) hlinked.hexbuf_pos hlinked.hexbuf_below hdigits.1 hdigits.2 hr1 hupc l
  have hr0 : u.core.get .r0 = m.core.get .r0 := hsame.get (by decide)
  refine ⟨t, hexDigits p.digits (m.core.get .r0), ?_, hexDigits_length _ _,
    readHex_hexDigits _ _, ?_, (hsame.mono (by simp)).trans htsame, fun a ha haport => ?_⟩
  · rw [hr0] at hreach
    exact hentry.trans hreach
  · rw [hret, hsame.get (by decide)]
  · rw [htmem a ha haport, hmem]

end Routines

def uartFile : List Instr :=
  uartCode.printhex8Code ++ [.nop, .nop] ++ (uartCode.printhex4Code ++ [.nop, .nop]) ++
    (uartCode.printhex2Code ++ [.nop]) ++ uartCode.printasciiCode

theorem uartLinked : uartCode.Linked (codeAt 0x1000 uartFile) := by
  have hfile : Lies (codeAt 0x1000 uartFile) 0x1000 uartFile := lies_codeAt 0x1000 (by decide)
  exact ⟨hfile.left.left.left.left, hfile.left.left.right.left, hfile.left.right.left,
    hfile.right, by decide, by decide⟩

theorem printhex_sends_half : ∃ t cs,
    Reaches (send (codeAt 0x1000 uartFile) 0xff012000)
      ⟨printing 0x1010 0xcafe (fun _ => 0), []⟩ ⟨t, cs.map (BitVec.setWidth 32)⟩ ∧
      cs.length = 4 ∧ readHex cs = some 0xcafe ∧ t.core.pc = 0x2000 := by
  obtain ⟨t, cs, hreach, hlength, hread, hpc, -⟩ := printhex_sends
    (m := printing 0x1010 0xcafe fun _ => 0) uartLinked .printhex4 (by decide) rfl []
  exact ⟨t, cs, hreach, hlength, hread, hpc⟩

end Goldfish.Serial
