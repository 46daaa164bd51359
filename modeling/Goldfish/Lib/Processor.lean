import Goldfish.Lib.Arm
import Goldfish.Lib.Words

/-!
# An ARM processor with all its modes

Registers are banked by mode, the status register is a word, and code lies in
memory: a machine executes the instruction that a code map gives for its
program counter. Literals are part of the instruction that loads them, and a
branch names its target.
-/

namespace Processor

open Arm (Word Memory bytes wordAt align)

inductive Reg where
  | r0 | r1 | r2 | r3 | r4 | r5 | r6 | r7 | r8 | r9 | r10 | r11 | r12 | sp | lr
  deriving DecidableEq

inductive Bank where
  | usr | fiq | irq | svc | abt | und
  deriving DecidableEq

def userMode : BitVec 5 := 0x10
def fiqMode : BitVec 5 := 0x11
def irqMode : BitVec 5 := 0x12
def supervisorMode : BitVec 5 := 0x13
def abortMode : BitVec 5 := 0x17
def undefinedMode : BitVec 5 := 0x1b
def systemMode : BitVec 5 := 0x1f

/-- System mode has the registers of user mode. -/
def Bank.ofMode (mode : BitVec 5) : Bank :=
  if mode = fiqMode then .fiq
  else if mode = irqMode then .irq
  else if mode = supervisorMode then .svc
  else if mode = abortMode then .abt
  else if mode = undefinedMode then .und
  else .usr

/-- Where a mode finds a register: `sp` and `lr` are its own, and FIQ mode
has `r8` to `r12` of its own as well. -/
def Reg.home (b : Bank) : Reg → Bank
  | sp | lr => b
  | r8 | r9 | r10 | r11 | r12 => if b = .fiq then .fiq else .usr
  | _ => .usr

/-! ## The status register -/

/-- A program status register, from its highest bit down. -/
structure Psr where
  n : Bool
  z : Bool
  c : Bool
  v : Bool
  reserved : BitVec 20
  irqMasked : Bool
  fiqMasked : Bool
  thumb : Bool
  mode : BitVec 5

namespace Psr

def flags (p : Psr) : BitVec 4 :=
  BitVec.ofBool p.n ++ BitVec.ofBool p.z ++ BitVec.ofBool p.c ++ BitVec.ofBool p.v

def control (p : Psr) : BitVec 8 :=
  BitVec.ofBool p.irqMasked ++ BitVec.ofBool p.fiqMasked ++ BitVec.ofBool p.thumb ++ p.mode

def toWord (p : Psr) : Word := p.flags ++ p.reserved ++ p.control

def withControl (p : Psr) (v : BitVec 8) : Psr :=
  { p with
    irqMasked := v.getLsbD 7
    fiqMasked := v.getLsbD 6
    thumb := v.getLsbD 5
    mode := v.setWidth 5 }

/-- What `cmp` leaves in the flags. -/
def compared (p : Psr) (a b : Word) : Psr :=
  { p with n := (a - b).msb, z := a - b == 0, c := decide (b ≤ a), v := BitVec.ssubOverflow a b }

/-- What `teq` and `tst` leave in the flags: C and V stay. -/
def tested (p : Psr) (a : Word) : Psr := { p with n := a.msb, z := a == 0 }

def ofWord (w : Word) : Psr where
  n := w.getLsbD 31
  z := w.getLsbD 30
  c := w.getLsbD 29
  v := w.getLsbD 28
  reserved := w.extractLsb' 8 20
  irqMasked := w.getLsbD 7
  fiqMasked := w.getLsbD 6
  thumb := w.getLsbD 5
  mode := w.setWidth 5

theorem toWord_control (p : Psr) : p.toWord.setWidth 8 = p.control :=
  BitVec.setWidth_append_eq_right

theorem toWord_reserved (p : Psr) : p.toWord.extractLsb' 8 20 = p.reserved := by
  apply BitVec.eq_of_getLsbD_eq
  intro i hi
  have hlow : ¬ 8 + i < 8 := by omega
  rw [BitVec.getLsbD_extractLsb', toWord, BitVec.getLsbD_append, if_neg hlow,
    Nat.add_sub_cancel_left, BitVec.getLsbD_append, if_pos hi]
  simp [hi]

theorem toWord_flags (p : Psr) (i : ℕ) : p.toWord.getLsbD (28 + i) = p.flags.getLsbD i := by
  have hlow : ¬ 28 + i < 8 := by omega
  have hmiddle : ¬ 28 + i - 8 < 20 := by omega
  have hrest : 28 + i - 8 - 20 = i := by omega
  rw [toWord, BitVec.getLsbD_append, if_neg hlow, BitVec.getLsbD_append, if_neg hmiddle, hrest]

theorem flags_bits : ∀ n z c v : Bool,
    let f := BitVec.ofBool n ++ BitVec.ofBool z ++ BitVec.ofBool c ++ BitVec.ofBool v
    f.getLsbD 3 = n ∧ f.getLsbD 2 = z ∧ f.getLsbD 1 = c ∧ f.getLsbD 0 = v := by
  decide

theorem mask_bits : ∀ i f t : Bool,
    let m := BitVec.ofBool i ++ BitVec.ofBool f ++ BitVec.ofBool t
    m.getLsbD 2 = i ∧ m.getLsbD 1 = f ∧ m.getLsbD 0 = t := by
  decide

theorem control_mode (p : Psr) : p.control.setWidth 5 = p.mode :=
  BitVec.setWidth_append_eq_right

theorem control_getLsbD (p : Psr) (i : ℕ) : p.control.getLsbD (5 + i) =
    (BitVec.ofBool p.irqMasked ++ BitVec.ofBool p.fiqMasked ++
      BitVec.ofBool p.thumb).getLsbD i := by
  have hlow : ¬ 5 + i < 5 := by omega
  rw [control, BitVec.getLsbD_append, if_neg hlow, Nat.add_sub_cancel_left]

/-- A status register written to memory and read back is the same. -/
theorem ofWord_toWord (p : Psr) : ofWord p.toWord = p := by
  have hlow : ∀ i < 8, p.toWord.getLsbD i = p.control.getLsbD i := by
    intro i hi
    rw [← toWord_control, BitVec.getLsbD_setWidth, decide_eq_true hi, Bool.true_and]
  have hmode : p.toWord.setWidth 5 = p.mode := by
    rw [← BitVec.setWidth_setWidth_of_le p.toWord (show 5 ≤ 8 by decide), toWord_control,
      control_mode]
  obtain ⟨hn, hz, hc, hv⟩ := flags_bits p.n p.z p.c p.v
  obtain ⟨hi, hf, ht⟩ := mask_bits p.irqMasked p.fiqMasked p.thumb
  rw [ofWord, hmode, toWord_reserved, hlow 7 (by decide), hlow 6 (by decide), hlow 5 (by decide),
    p.toWord_flags 3, p.toWord_flags 2, p.toWord_flags 1, p.toWord_flags 0, p.control_getLsbD 2,
    p.control_getLsbD 1, p.control_getLsbD 0, hi, hf, ht, flags, hn, hz, hc, hv]

section Masks

variable {mask v : Word} (w : Word)

/-- A word with another mode in its five lowest bits. -/
theorem ofWord_mode (hmask : ∀ k < 32, mask.getLsbD k = decide (k < 5))
    (hv : ∀ k < 32, 5 ≤ k → v.getLsbD k = false) :
    ofWord ((w &&& ~~~mask) ||| v) = { ofWord w with mode := v.setWidth 5 } := by
  have hbit : ∀ k, 5 ≤ k → k < 32 → ((w &&& ~~~mask) ||| v).getLsbD k = w.getLsbD k := by
    intro k hlow hhigh
    have hout : ¬ k < 5 := not_lt.mpr hlow
    rw [BitVec.getLsbD_or, BitVec.getLsbD_and, BitVec.getLsbD_not, hmask k hhigh,
      hv k hhigh hlow, decide_eq_true hhigh, decide_eq_false hout]
    simp
  have hreserved : ((w &&& ~~~mask) ||| v).extractLsb' 8 20 = w.extractLsb' 8 20 := by
    apply BitVec.eq_of_getLsbD_eq
    intro k hk
    rw [BitVec.getLsbD_extractLsb', BitVec.getLsbD_extractLsb', hbit (8 + k) (by omega) (by omega)]
  have hmode : ((w &&& ~~~mask) ||| v).setWidth 5 = v.setWidth 5 := by
    apply BitVec.eq_of_getLsbD_eq
    intro k hk
    rw [BitVec.getLsbD_setWidth, BitVec.getLsbD_setWidth, BitVec.getLsbD_or, BitVec.getLsbD_and,
      BitVec.getLsbD_not, hmask k (by omega), decide_eq_true hk]
    simp
  rw [ofWord, hmode, hreserved, hbit 31 (by decide) (by decide), hbit 30 (by decide) (by decide),
    hbit 29 (by decide) (by decide), hbit 28 (by decide) (by decide),
    hbit 7 (by decide) (by decide), hbit 6 (by decide) (by decide), hbit 5 (by decide) (by decide)]
  rfl

/-- A word with the bit cleared that masks IRQ. -/
theorem ofWord_unmask (hmask : ∀ k < 32, mask.getLsbD k = decide (k = 7)) :
    ofWord (w &&& ~~~mask) = { ofWord w with irqMasked := false } := by
  have hbit : ∀ k < 32, (w &&& ~~~mask).getLsbD k = (w.getLsbD k && !decide (k = 7)) := by
    intro k hk
    rw [BitVec.getLsbD_and, BitVec.getLsbD_not, hmask k hk, decide_eq_true hk, Bool.true_and]
  have hreserved : (w &&& ~~~mask).extractLsb' 8 20 = w.extractLsb' 8 20 := by
    apply BitVec.eq_of_getLsbD_eq
    intro k hk
    have hne : ¬ 8 + k = 7 := by omega
    rw [BitVec.getLsbD_extractLsb', BitVec.getLsbD_extractLsb', hbit (8 + k) (by omega),
      decide_eq_false hne]
    simp
  have hmode : (w &&& ~~~mask).setWidth 5 = w.setWidth 5 := by
    apply BitVec.eq_of_getLsbD_eq
    intro k hk
    have hne : ¬ k = 7 := by omega
    rw [BitVec.getLsbD_setWidth, BitVec.getLsbD_setWidth, hbit k (by omega), decide_eq_false hne]
    simp
  rw [ofWord, hmode, hreserved, hbit 31 (by decide), hbit 30 (by decide), hbit 29 (by decide),
    hbit 28 (by decide), hbit 7 (by decide), hbit 6 (by decide), hbit 5 (by decide)]
  simp [ofWord]

end Masks

end Psr

inductive Cond where
  | eq | ne | lt | ge

def Cond.holds (p : Psr) : Cond → Bool
  | eq => p.z
  | ne => !p.z
  | lt => p.n != p.v
  | ge => p.n == p.v

section Conditions

variable (p : Psr) (a b : Word)

@[simp] theorem Cond.eq_compared : Cond.eq.holds (p.compared a b) = decide (a = b) := by
  rw [Bool.eq_iff_iff, decide_eq_true_iff]
  exact Arm.Cond.eq_holds_iff a b

@[simp] theorem Cond.ne_compared : Cond.ne.holds (p.compared a b) = decide (a ≠ b) := by
  rw [Bool.eq_iff_iff, decide_eq_true_iff]
  exact Arm.Cond.ne_holds_iff a b

@[simp] theorem Cond.lt_compared : Cond.lt.holds (p.compared a b) = decide (a.toInt < b.toInt) := by
  rw [Bool.eq_iff_iff, decide_eq_true_iff]
  exact Arm.Cond.lt_holds_iff a b

@[simp] theorem Cond.ge_compared : Cond.ge.holds (p.compared a b) = decide (b.toInt ≤ a.toInt) := by
  have hnot : Cond.ge.holds (p.compared a b) = !Cond.lt.holds (p.compared a b) := by
    rw [Cond.holds, Cond.holds, bne, Bool.not_not]
  rw [hnot, Cond.lt_compared, Bool.eq_iff_iff, Bool.not_eq_true', decide_eq_false_iff_not,
    decide_eq_true_iff, not_lt]

@[simp] theorem Cond.eq_tested : Cond.eq.holds (p.tested a) = (a == 0) := rfl

@[simp] theorem Cond.ne_tested : Cond.ne.holds (p.tested a) = (a != 0) := rfl

end Conditions

/-! ## The registers -/

structure Core where
  regs : Bank → Reg → Word
  pc : Word
  cpsr : Psr
  spsr : Bank → Psr

namespace Core

def mode (s : Core) : BitVec 5 := s.cpsr.mode

def bank (s : Core) : Bank := .ofMode s.mode

def put (s : Core) (b : Bank) (r : Reg) (v : Word) : Core :=
  { s with regs := Function.update s.regs b (Function.update (s.regs b) r v) }

def get (s : Core) (r : Reg) : Word := s.regs (r.home s.bank) r

def set (s : Core) (r : Reg) (v : Word) : Core := s.put (r.home s.bank) r v

def setPc (s : Core) (a : Word) : Core := { s with pc := a }

def next (s : Core) : Core := s.setPc (s.pc + 4)

/-- User mode cannot write the control field. -/
def setControl (s : Core) (v : BitVec 8) : Core :=
  if s.mode = userMode then s else { s with cpsr := s.cpsr.withControl v }

def compare (s : Core) (a b : Word) : Core := { s with cpsr := s.cpsr.compared a b }

def test (s : Core) (a : Word) : Core := { s with cpsr := s.cpsr.tested a }

/-- Without a privilege only the flags are written. -/
def setStatus (s : Core) (p : Psr) : Core :=
  if s.mode = userMode then
    { s with cpsr := { s.cpsr with n := p.n, z := p.z, c := p.c, v := p.v } }
  else
    { s with cpsr := { p with reserved := s.cpsr.reserved } }

/-- The lowest bit of the target of `bx` selects the instruction set. -/
def exchange (s : Core) (a : Word) : Core :=
  { s with
    pc := a &&& ~~~1
    cpsr := { s.cpsr with thumb := a.getLsbD 0 } }

def setSaved (s : Core) (v : Psr) : Core :=
  { s with spsr := Function.update s.spsr s.bank v }

variable (s : Core) (b b' : Bank) (r r' : Reg) (v a : Word) (p : Psr)

theorem put_regs : (s.put b r v).regs b' r' = if b' = b ∧ r' = r then v else s.regs b' r' := by
  change Function.update s.regs b (Function.update (s.regs b) r v) b' r' = _
  by_cases hb : b' = b
  · rw [hb, Function.update_self, Function.update_apply]
    simp
  · rw [Function.update_of_ne hb, if_neg fun h => hb h.1]

@[simp] theorem put_pc : (s.put b r v).pc = s.pc := rfl

@[simp] theorem put_cpsr : (s.put b r v).cpsr = s.cpsr := rfl

@[simp] theorem put_spsr : (s.put b r v).spsr = s.spsr := rfl

@[simp] theorem put_mode : (s.put b r v).mode = s.mode := rfl

@[simp] theorem put_bank : (s.put b r v).bank = s.bank := rfl

theorem get_set : (s.set r v).get r' = if r' = r then v else s.get r' := by
  change (s.put (r.home s.bank) r v).regs (r'.home s.bank) r' = _
  rw [put_regs]
  by_cases h : r' = r
  · rw [if_pos h, if_pos ⟨congrArg (Reg.home s.bank) h, h⟩]
  · rw [if_neg h, if_neg fun hr => h hr.2, get]

@[simp] theorem set_pc : (s.set r v).pc = s.pc := rfl

@[simp] theorem set_cpsr : (s.set r v).cpsr = s.cpsr := rfl

@[simp] theorem set_spsr : (s.set r v).spsr = s.spsr := rfl

@[simp] theorem set_mode : (s.set r v).mode = s.mode := rfl

@[simp] theorem set_bank : (s.set r v).bank = s.bank := rfl

@[simp] theorem setPc_regs : (s.setPc a).regs = s.regs := rfl

@[simp] theorem setPc_pc : (s.setPc a).pc = a := rfl

@[simp] theorem setPc_cpsr : (s.setPc a).cpsr = s.cpsr := rfl

@[simp] theorem setPc_spsr : (s.setPc a).spsr = s.spsr := rfl

@[simp] theorem setPc_mode : (s.setPc a).mode = s.mode := rfl

@[simp] theorem setPc_bank : (s.setPc a).bank = s.bank := rfl

@[simp] theorem setPc_get : (s.setPc a).get r = s.get r := rfl

@[simp] theorem setSaved_regs : (s.setSaved p).regs = s.regs := rfl

@[simp] theorem setSaved_pc : (s.setSaved p).pc = s.pc := rfl

@[simp] theorem setSaved_cpsr : (s.setSaved p).cpsr = s.cpsr := rfl

@[simp] theorem setSaved_mode : (s.setSaved p).mode = s.mode := rfl

@[simp] theorem setSaved_bank : (s.setSaved p).bank = s.bank := rfl

theorem setSaved_spsr : (s.setSaved p).spsr b = if b = s.bank then p else s.spsr b := by
  change Function.update s.spsr s.bank p b = _
  rw [Function.update_apply]

@[simp] theorem compare_regs : (s.compare v a).regs = s.regs := rfl

@[simp] theorem compare_pc : (s.compare v a).pc = s.pc := rfl

@[simp] theorem compare_cpsr : (s.compare v a).cpsr = s.cpsr.compared v a := rfl

@[simp] theorem compare_get : (s.compare v a).get r = s.get r := rfl

@[simp] theorem compare_bank : (s.compare v a).bank = s.bank := rfl

@[simp] theorem test_regs : (s.test a).regs = s.regs := rfl

@[simp] theorem test_pc : (s.test a).pc = s.pc := rfl

@[simp] theorem test_cpsr : (s.test a).cpsr = s.cpsr.tested a := rfl

@[simp] theorem test_get : (s.test a).get r = s.get r := rfl

@[simp] theorem test_bank : (s.test a).bank = s.bank := rfl

theorem setControl_of_ne {s : Core} (h : s.mode ≠ userMode) (c : BitVec 8) :
    s.setControl c = { s with cpsr := s.cpsr.withControl c } := if_neg h

end Core

/-- The same registers except, possibly, in the banks of `P`. -/
structure SameOff (P : Bank → Prop) (s t : Core) : Prop where
  pc : t.pc = s.pc
  cpsr : t.cpsr = s.cpsr
  regs : ∀ b, ¬ P b → t.regs b = s.regs b
  spsr : ∀ b, ¬ P b → t.spsr b = s.spsr b

namespace SameOff

variable {P Q : Bank → Prop} {s t u : Core}

theorem refl (s : Core) : SameOff P s s := ⟨rfl, rfl, fun _ _ => rfl, fun _ _ => rfl⟩

theorem trans (hst : SameOff P s t) (htu : SameOff P t u) : SameOff P s u where
  pc := htu.pc.trans hst.pc
  cpsr := htu.cpsr.trans hst.cpsr
  regs b hb := (htu.regs b hb).trans (hst.regs b hb)
  spsr b hb := (htu.spsr b hb).trans (hst.spsr b hb)

theorem mono (h : SameOff P s t) (hPQ : ∀ b, P b → Q b) : SameOff Q s t where
  pc := h.pc
  cpsr := h.cpsr
  regs b hb := h.regs b fun hP => hb (hPQ b hP)
  spsr b hb := h.spsr b fun hP => hb (hPQ b hP)

theorem mode (h : SameOff P s t) : t.mode = s.mode := congrArg Psr.mode h.cpsr

theorem bank (h : SameOff P s t) : t.bank = s.bank := congrArg Bank.ofMode h.mode

theorem get (h : SameOff P s t) (husr : ¬ P .usr) (hbank : ¬ P s.bank) (r : Reg) :
    t.get r = s.get r := by
  have hhome : ¬ P (r.home s.bank) := by
    cases r with
    | sp | lr => exact hbank
    | r8 | r9 | r10 | r11 | r12 =>
        rw [Reg.home]
        split
        · rename_i hfiq
          rwa [hfiq] at hbank
        · exact husr
    | _ => exact husr
  rw [Core.get, Core.get, h.bank, h.regs _ hhome]

theorem put (h : SameOff P s t) (b : Bank) (r : Reg) (v : Word) :
    SameOff P (s.put b r v) (t.put b r v) where
  pc := h.pc
  cpsr := h.cpsr
  regs b' hb' := by
    funext r'
    rw [Core.put_regs, Core.put_regs, h.regs b' hb']
  spsr := h.spsr

theorem set (h : SameOff P s t) (r : Reg) {v v' : Word} (hv : v' = v) :
    SameOff P (s.set r v) (t.set r v') := by
  rw [hv, Core.set, Core.set, h.bank]
  exact h.put _ r v

theorem setPc (h : SameOff P s t) {a a' : Word} (ha : a' = a) :
    SameOff P (s.setPc a) (t.setPc a') where
  pc := ha
  cpsr := h.cpsr
  regs := h.regs
  spsr := h.spsr

theorem next (h : SameOff P s t) : SameOff P s.next t.next := h.setPc (by rw [h.pc])

theorem setControl (h : SameOff P s t) (v : BitVec 8) :
    SameOff P (s.setControl v) (t.setControl v) := by
  unfold Core.setControl
  rw [h.mode, h.cpsr]
  split
  · exact h
  · exact ⟨h.pc, rfl, h.regs, h.spsr⟩

theorem compare (h : SameOff P s t) {a a' b b' : Word} (ha : a' = a) (hb : b' = b) :
    SameOff P (s.compare a b) (t.compare a' b') where
  pc := h.pc
  cpsr := by rw [Core.compare_cpsr, Core.compare_cpsr, h.cpsr, ha, hb]
  regs := h.regs
  spsr := h.spsr

theorem test (h : SameOff P s t) {a a' : Word} (ha : a' = a) :
    SameOff P (s.test a) (t.test a') where
  pc := h.pc
  cpsr := by rw [Core.test_cpsr, Core.test_cpsr, h.cpsr, ha]
  regs := h.regs
  spsr := h.spsr

theorem setStatus (h : SameOff P s t) {p p' : Psr} (hp : p' = p) :
    SameOff P (s.setStatus p) (t.setStatus p') := by
  unfold Core.setStatus
  rw [h.mode, h.cpsr, hp]
  split
  · exact ⟨h.pc, rfl, h.regs, h.spsr⟩
  · exact ⟨h.pc, rfl, h.regs, h.spsr⟩

theorem exchange (h : SameOff P s t) {a a' : Word} (ha : a' = a) :
    SameOff P (s.exchange a) (t.exchange a') where
  pc := by rw [ha]; rfl
  cpsr := by rw [ha, Core.exchange, Core.exchange, h.cpsr]
  regs := h.regs
  spsr := h.spsr

theorem setSaved (h : SameOff P s t) {v v' : Psr} (hv : v' = v) :
    SameOff P (s.setSaved v) (t.setSaved v') where
  pc := h.pc
  cpsr := h.cpsr
  regs := h.regs
  spsr b hb := by rw [Core.setSaved_spsr, Core.setSaved_spsr, h.bank, hv, h.spsr b hb]

/-- As an exception leaves its mode. -/
theorem leave (h : SameOff P s t) {a a' : Word} (ha : a' = a) {p p' : Psr} (hp : p' = p) :
    SameOff P { s with pc := a, cpsr := p } { t with pc := a', cpsr := p' } :=
  ⟨ha, hp, h.regs, h.spsr⟩

end SameOff

/-! ## Exceptions -/

inductive Exception where
  | undefined | swi | prefetchAbort | dataAbort | irq | fiq
  deriving DecidableEq

namespace Exception

def mode : Exception → BitVec 5
  | undefined => undefinedMode
  | swi => supervisorMode
  | prefetchAbort | dataAbort => abortMode
  | irq => irqMode
  | fiq => fiqMode

def vector : Exception → Word
  | undefined => 0x04
  | swi => 0x08
  | prefetchAbort => 0x0c
  | dataAbort => 0x10
  | irq => 0x18
  | fiq => 0x1c

/-- Every exception masks IRQ, and FIQ masks itself too. -/
def control (e : Exception) (p : Psr) : Psr :=
  { p with
    irqMasked := true
    fiqMasked := decide (e = fiq) || p.fiqMasked
    thumb := false
    mode := e.mode }

/-- What an exception adds to the address of the instruction it comes before
or, for the first four, comes with. -/
def link : Exception → Word
  | undefined | swi | prefetchAbort | irq | fiq => 4
  | dataAbort => 8

def enter (e : Exception) (s : Core) : Core where
  regs := (s.put (.ofMode e.mode) .lr (s.pc + e.link)).regs
  pc := e.vector
  cpsr := e.control s.cpsr
  spsr := Function.update s.spsr (.ofMode e.mode) s.cpsr

end Exception

theorem SameOff.enter {P : Bank → Prop} {s t : Core} (h : SameOff P s t) (e : Exception) :
    SameOff P (e.enter s) (e.enter t) where
  pc := rfl
  cpsr := congrArg e.control h.cpsr
  regs := by
    rw [Exception.enter, Exception.enter, h.pc]
    exact (h.put _ .lr _).regs
  spsr b hb := by
    change Function.update t.spsr _ t.cpsr b = Function.update s.spsr _ s.cpsr b
    rw [Function.update_apply, Function.update_apply, h.cpsr, h.spsr b hb]

/-! ## Words in memory -/

def storeWords (m : Memory) (a : Word) (vs : List Word) : Memory :=
  Memory.store m a (vs.flatMap bytes)

/-- The words from the address `a` upwards. -/
def Holds (m : Memory) (a : Word) (vs : List Word) : Prop :=
  ∀ i (h : i < vs.length), wordAt m (a + BitVec.ofNat 32 (4 * i)) = vs[i]

theorem flatMap_bytes_length (vs : List Word) : (vs.flatMap bytes).length = 4 * vs.length := by
  induction vs with
  | nil => rfl
  | cons v vs ih =>
      rw [List.flatMap_cons, List.length_append, ih, List.length_cons, Arm.bytes_length]
      omega

theorem flatMap_bytes_getElem (vs : List Word) {i j : ℕ} (hi : i < vs.length) (hj : j < 4)
    (h : 4 * i + j < (vs.flatMap bytes).length) :
    (vs.flatMap bytes)[4 * i + j] = (bytes vs[i])[j] := by
  induction vs generalizing i with
  | nil => cases hi
  | cons v vs ih =>
      cases i with
      | zero =>
          have hfirst : j < (bytes v).length := hj
          simp only [List.flatMap_cons, Nat.mul_zero, Nat.zero_add, List.getElem_cons_zero,
            List.getElem_append_left hfirst]
      | succ i =>
          have hlater : (bytes v).length ≤ 4 * (i + 1) + j := by
            rw [Arm.bytes_length]
            omega
          have hrest : 4 * (i + 1) + j - (bytes v).length = 4 * i + j := by
            rw [Arm.bytes_length]
            omega
          have hi' : i < vs.length := Nat.lt_of_succ_lt_succ hi
          have hlt : 4 * i + j < (vs.flatMap bytes).length := by
            rw [flatMap_bytes_length]
            omega
          simp only [List.flatMap_cons, List.getElem_append_right hlater, hrest,
            List.getElem_cons_succ]
          exact ih hi' hlt

theorem holds_storeWords (m : Memory) (a : Word) {vs : List Word} (hlen : 4 * vs.length ≤ 2 ^ 32) :
    Holds (storeWords m a vs) a vs := by
  intro i hi
  apply Arm.wordAt_eq
  intro j hj
  have hfour : j < 4 := hj
  have hlt : 4 * i + j < (vs.flatMap bytes).length := by
    rw [flatMap_bytes_length]
    omega
  rw [Words.add_ofNat_add, storeWords,
    Memory.store_getElem m a (by rw [flatMap_bytes_length]; omega) hlt]
  exact flatMap_bytes_getElem vs hi hfour hlt

theorem Holds.append {m : Memory} {a : Word} {vs ws : List Word} (hvs : Holds m a vs)
    (hws : Holds m (a + BitVec.ofNat 32 (4 * vs.length)) ws) : Holds m a (vs ++ ws) := by
  intro i hi
  rcases Nat.lt_or_ge i vs.length with hlt | hge
  · rw [List.getElem_append_left hlt]
    exact hvs i hlt
  · rw [List.length_append] at hi
    have hword := hws (i - vs.length) (by omega)
    rw [Words.add_ofNat_add, ← Nat.mul_add, Nat.add_sub_cancel' hge] at hword
    rw [List.getElem_append_right hge]
    exact hword

theorem Holds.left {m : Memory} {a : Word} {vs ws : List Word} (h : Holds m a (vs ++ ws)) :
    Holds m a vs := by
  intro i hi
  have hword := h i (by rw [List.length_append]; omega)
  rwa [List.getElem_append_left hi] at hword

theorem Holds.right {m : Memory} {a : Word} {vs ws : List Word} (h : Holds m a (vs ++ ws)) :
    Holds m (a + BitVec.ofNat 32 (4 * vs.length)) ws := by
  intro i hi
  have hword := h (vs.length + i) (by rw [List.length_append]; omega)
  rw [List.getElem_append_right (Nat.le_add_right _ _), Nat.mul_add, ← Words.add_ofNat_add] at hword
  simp only [Nat.add_sub_cancel_left] at hword
  exact hword

theorem wordAt_congr {m m' : Memory} {a : Word} (h : ∀ j < 4,
    m' (a + BitVec.ofNat 32 j) = m (a + BitVec.ofNat 32 j)) : wordAt m' a = wordAt m a := by
  have hzero : m' a = m a := by
    have hcell := h 0 (by decide)
    rwa [BitVec.add_zero] at hcell
  have hone : m' (a + 1) = m (a + 1) := h 1 (by decide)
  have htwo : m' (a + 2) = m (a + 2) := h 2 (by decide)
  have hthree : m' (a + 3) = m (a + 3) := h 3 (by decide)
  rw [wordAt, wordAt, hzero, hone, htwo, hthree]

theorem sub_toNat {a : Word} {n : ℕ} (h : n ≤ a.toNat) :
    (a - BitVec.ofNat 32 n).toNat = a.toNat - n := by
  have hlt := a.isLt
  have hn : (BitVec.ofNat 32 n).toNat = n := by
    rw [BitVec.toNat_ofNat]
    exact Nat.mod_eq_of_lt (by omega)
  rw [BitVec.toNat_sub_of_le (by rw [BitVec.le_def, hn]; exact h), hn]

/-- Words are kept when the bytes they lie in are. -/
theorem Holds.congr {m m' : Memory} {a : Word} {vs : List Word} (h : Holds m a vs)
    (hfit : a.toNat + 4 * vs.length ≤ 2 ^ 32)
    (hkept : ∀ b : Word, a.toNat ≤ b.toNat → b.toNat < a.toNat + 4 * vs.length → m' b = m b) :
    Holds m' a vs := by
  intro i hi
  rw [← h i hi]
  apply wordAt_congr
  intro j hj
  have haddr : (a + BitVec.ofNat 32 (4 * i) + BitVec.ofNat 32 j).toNat = a.toNat + (4 * i + j) := by
    rw [Words.add_ofNat_add]
    exact Memory.add_ofNat_toNat (by omega)
  apply hkept
  · omega
  · omega

theorem align_sub {a : Word} {n : ℕ} (h : a.toNat % 4 = 0) (hn : 4 * n ≤ a.toNat) :
    align (a - BitVec.ofNat 32 (4 * n)) = a - BitVec.ofNat 32 (4 * n) := by
  have hlt := a.isLt
  apply Arm.align_eq
  rw [sub_toNat hn]
  omega

theorem storeWords_outside (m : Memory) {a b : Word} {vs : List Word}
    (hfit : a.toNat + 4 * vs.length ≤ 2 ^ 32)
    (hb : b.toNat < a.toNat ∨ a.toNat + 4 * vs.length ≤ b.toNat) : storeWords m a vs b = m b := by
  apply Memory.store_of_notMem m (flatMap_bytes_length vs).le hfit
  rw [Set.mem_Ico]
  omega

/-! ## Instructions -/

inductive Operand where
  | imm (v : Word)
  | reg (r : Reg)

def Operand.value (s : Core) : Operand → Word
  | imm v => v
  | reg r => s.get r

inductive Alu where
  | and | bic | orr | add | sub

def Alu.apply : Alu → Word → Word → Word
  | and, a, b => a &&& b
  | bic, a, b => a &&& ~~~b
  | orr, a, b => a ||| b
  | add, a, b => a + b
  | sub, a, b => a - b

/-- `movPc rd` is `mov rd, pc`, `lsr rd rm k` is `mov rd, rm, lsr #k`,
`ldrLit rd v` is `ldr rd, =v`, `ldrAt rd a` loads the word at `a`, `ldr rd rn k`
is `ldr rd, [rn, #k]`, `ldrDown rd rn k` is `ldr rd, [rn, #-k]`, `ldrPc k` is
`ldr pc, [pc, #k]`, `ldrb rd rn k` is `ldrb rd, [rn], #k`, `strb rd rn k` is
`strb rd, [rn, #k]!` and `str rd rn` is `str rd, [rn]`; `ldmia`, `stmia` and
`stmfd` write their base back. `ldmUser` is `ldmfd rn, rs^`, `ldmReturn` is
`ldmfd rn!, {rs, pc}^`, `mrs` and `msr` are about `cpsr` as `mrsSaved` and
`msrSaved` are about `spsr`, `mrc rd v` reads the control register of the
system, which is `v`, `ret` is `mov pc, lr` and `movsPc` is `movs pc, lr`. -/
inductive Instr where
  | mov (rd : Reg) (o : Operand)
  | movPc (rd : Reg)
  | lsr (rd rm : Reg) (k : ℕ)
  | alu (f : Alu) (rd rn : Reg) (o : Operand)
  | cmp (rn : Reg) (o : Operand)
  | teq (rn : Reg) (o : Operand)
  | tst (rn : Reg) (o : Operand)
  | ldrLit (rd : Reg) (v : Word)
  | ldrAt (rd : Reg) (a : Word)
  | ldr (rd rn : Reg) (k : Word)
  | ldrDown (rd rn : Reg) (k : Word)
  | ldrPc (k : Word)
  | ldrb (rd rn : Reg) (k : Word)
  | strb (rd rn : Reg) (k : Word)
  | str (rd rn : Reg)
  | ldmia (rn rd : Reg)
  | stmia (rn rd : Reg)
  | stmfd (rn : Reg) (rs : List Reg)
  | ldmUser (rn : Reg) (rs : List Reg)
  | ldmReturn (rn : Reg) (rs : List Reg)
  | mrs (rd : Reg)
  | mrsSaved (rd : Reg)
  | msr (rm : Reg)
  | msrControl (v : BitVec 8)
  | msrControlReg (rm : Reg)
  | msrSaved (rm : Reg)
  | mrc (rd : Reg) (v : Word)
  | b (a : Word)
  | bl (a : Word)
  | bx (rm : Reg)
  | ret
  | swi
  | movsPc
  | nop
  | cond (c : Cond) (i : Instr)

def Instr.stores : Instr → Bool
  | strb _ _ _ | str _ _ | stmia _ _ | stmfd _ _ => true
  | cond _ i => i.stores
  | _ => false

/-- Whether the status register is written otherwise than by `msrControl`. -/
def Instr.status : Instr → Bool
  | cmp _ _ | teq _ _ | tst _ _ | msr _ | msrControlReg _ | mrc _ _ | cond _ _ => true
  | _ => false

structure Machine where
  core : Core
  mem : Memory

def Instr.straight : Instr → Bool
  | ldrPc _ | ldmReturn _ _ | mrc _ _ | b _ | bl _ | bx _ | ret | swi | movsPc => false
  | cond _ i => i.straight
  | _ => true

def Instr.loads : Instr → Bool
  | ldrAt _ _ | ldr _ _ _ | ldrDown _ _ _ | ldrPc _ | ldrb _ _ _ => true
  | ldmia _ _ | ldmUser _ _ | ldmReturn _ _ => true
  | cond _ i => i.loads
  | _ => false

/-- A word load from an address that is not a word address turns the word
around. -/
def loadWord (m : Memory) (a : Word) : Word := (wordAt m (align a)).rotateRight (8 * (a.toNat % 4))

def pushAddress (s : Core) (rn : Reg) (rs : List Reg) : Word :=
  s.get rn - BitVec.ofNat 32 (4 * rs.length)

theorem loadWord_of_aligned (m : Memory) {a : Word} (h : a.toNat % 4 = 0) :
    loadWord m a = wordAt m a := by
  rw [loadWord, Arm.align_eq h, h]
  apply BitVec.eq_of_getLsbD_eq
  intro i hi
  rw [BitVec.getLsbD_rotateRight]
  simp [hi]

/-- Registers from the words at `a` upwards. -/
def loadInto (f : Core → Reg → Word → Core) (m : Memory) : Word → List Reg → Core → Core
  | _, [], s => s
  | a, r :: rs, s => loadInto f m (a + 4) rs (f s r (wordAt m a))

/-- The registers of user mode. -/
def loadUser : Memory → Word → List Reg → Core → Core := loadInto fun s r v => s.put .usr r v

/-- The registers of the mode. -/
def loadRegs : Memory → Word → List Reg → Core → Core := loadInto Core.set

def Instr.exec (m : Machine) : Instr → Machine
  | mov rd o => { m with core := (m.core.set rd (o.value m.core)).next }
  | movPc rd => { m with core := (m.core.set rd (m.core.pc + 8)).next }
  | lsr rd rm k => { m with core := (m.core.set rd (m.core.get rm >>> k)).next }
  | alu f rd rn o =>
      { m with core := (m.core.set rd (f.apply (m.core.get rn) (o.value m.core))).next }
  | cmp rn o => { m with core := (m.core.compare (m.core.get rn) (o.value m.core)).next }
  | teq rn o => { m with core := (m.core.test (m.core.get rn ^^^ o.value m.core)).next }
  | tst rn o => { m with core := (m.core.test (m.core.get rn &&& o.value m.core)).next }
  | ldrLit rd v => { m with core := (m.core.set rd v).next }
  | ldrAt rd a => { m with core := (m.core.set rd (loadWord m.mem a)).next }
  | ldr rd rn k => { m with core := (m.core.set rd (loadWord m.mem (m.core.get rn + k))).next }
  | ldrDown rd rn k =>
      { m with core := (m.core.set rd (loadWord m.mem (m.core.get rn - k))).next }
  | ldrPc k => { m with core := m.core.setPc (loadWord m.mem (m.core.pc + 8 + k)) }
  | ldrb rd rn k =>
      { m with core := ((m.core.set rd ((m.mem (m.core.get rn)).setWidth 32)).set rn
          (m.core.get rn + k)).next }
  | strb rd rn k =>
      { core := (m.core.set rn (m.core.get rn + k)).next
        mem := Memory.store m.mem (m.core.get rn + k) [(m.core.get rd).setWidth 8] }
  | str rd rn =>
      { core := m.core.next
        mem := storeWords m.mem (align (m.core.get rn)) [m.core.get rd] }
  | ldmia rn rd =>
      { m with core := ((m.core.set rd (wordAt m.mem (align (m.core.get rn)))).set rn
          (m.core.get rn + 4)).next }
  | stmia rn rd =>
      { core := (m.core.set rn (m.core.get rn + 4)).next
        mem := storeWords m.mem (align (m.core.get rn)) [m.core.get rd] }
  | stmfd rn rs =>
      { core := (m.core.set rn (pushAddress m.core rn rs)).next
        mem := storeWords m.mem (align (pushAddress m.core rn rs)) (rs.map m.core.get) }
  | ldmUser rn rs => { m with core := (loadUser m.mem (align (m.core.get rn)) rs m.core).next }
  | ldmReturn rn rs =>
      { m with core :=
          { (loadRegs m.mem (align (m.core.get rn)) rs m.core).set rn
              (m.core.get rn + BitVec.ofNat 32 (4 * (rs.length + 1))) with
            pc := wordAt m.mem (align (m.core.get rn) + BitVec.ofNat 32 (4 * rs.length))
            cpsr := m.core.spsr m.core.bank } }
  | mrs rd => { m with core := (m.core.set rd m.core.cpsr.toWord).next }
  | mrsSaved rd => { m with core := (m.core.set rd (m.core.spsr m.core.bank).toWord).next }
  | msr rm => { m with core := (m.core.setStatus (.ofWord (m.core.get rm))).next }
  | msrControl v => { m with core := (m.core.setControl v).next }
  | msrControlReg rm => { m with core := (m.core.setControl ((m.core.get rm).setWidth 8)).next }
  | msrSaved rm => { m with core := (m.core.setSaved (.ofWord (m.core.get rm))).next }
  -- user mode has no access to the system coprocessor
  | mrc rd v =>
      { m with core :=
          if m.core.mode = userMode then Exception.undefined.enter m.core
          else (m.core.set rd v).next }
  | b a => { m with core := m.core.setPc a }
  | bl a => { m with core := (m.core.set .lr (m.core.pc + 4)).setPc a }
  | bx rm => { m with core := m.core.exchange (m.core.get rm) }
  | ret => { m with core := m.core.setPc (m.core.get .lr) }
  | swi => { m with core := Exception.swi.enter m.core }
  | movsPc =>
      { m with core := { m.core with
        pc := m.core.get .lr, cpsr := m.core.spsr m.core.bank } }
  | nop => { m with core := m.core.next }
  | cond c i => if c.holds m.core.cpsr then i.exec m else { m with core := m.core.next }

theorem Operand.value_congr {P : Bank → Prop} {s t : Core} (h : SameOff P s t) (husr : ¬ P .usr)
    (hbank : ¬ P s.bank) (o : Operand) : o.value t = o.value s := by
  cases o with
  | imm v => rfl
  | reg r => exact h.get husr hbank r

/-- The bytes of `n` words. -/
def InWords (a : Word) (n : ℕ) (b : Word) : Prop := (b - a).toNat < 4 * n

/-- The bytes that an instruction loads. -/
def Instr.reads (s : Core) (a : Word) : Instr → Prop
  | ldrAt _ p => InWords (align p) 1 a
  | ldr _ rn k => InWords (align (s.get rn + k)) 1 a
  | ldrDown _ rn k => InWords (align (s.get rn - k)) 1 a
  | ldrPc k => InWords (align (s.pc + 8 + k)) 1 a
  | ldrb _ rn _ => a = s.get rn
  | ldmia rn _ => InWords (align (s.get rn)) 1 a
  | ldmUser rn rs => InWords (align (s.get rn)) rs.length a
  | ldmReturn rn rs => InWords (align (s.get rn)) (rs.length + 1) a
  | cond c i => c.holds s.cpsr ∧ i.reads s a
  | _ => False

theorem not_reads {i : Instr} (hi : i.loads = false) (s : Core) (a : Word) : ¬ i.reads s a := by
  induction i with
  | cond c i ih => exact fun h => ih hi h.2
  | ldrAt rd p => cases hi
  | ldr rd rn k => cases hi
  | ldrDown rd rn k => cases hi
  | ldrPc k => cases hi
  | ldrb rd rn k => cases hi
  | ldmia rn rd => cases hi
  | ldmUser rn rs => cases hi
  | ldmReturn rn rs => cases hi
  | _ => exact not_false

theorem loadInto_keeps {α : Type*} {f : Core → α} {g : Core → Reg → Word → Core}
    (hkeep : ∀ s r v, f (g s r v) = f s) (m : Memory) (a : Word) (rs : List Reg) (s : Core) :
    f (loadInto g m a rs s) = f s := by
  induction rs generalizing a s with
  | nil => rfl
  | cons r rs ih => exact (ih (a + 4) _).trans (hkeep s r _)

section SameWords

variable {m m' : Memory} {a : Word} {n : ℕ}

theorem wordAt_inWords (h : ∀ b, InWords a n b → m' b = m b) (hn : 0 < n) :
    wordAt m' a = wordAt m a := by
  apply wordAt_congr
  intro j hj
  apply h
  rw [InWords, Memory.offset_toNat a (by omega)]
  omega

theorem InWords.tail {b : Word} (h : InWords (a + 4) n b) : InWords a (n + 1) b := by
  have hsplit : b - a = b - (a + 4) + 4 := by
    rw [sub_add_eq_sub_sub, sub_add_cancel]
  have hle : (b - (a + 4) + 4).toNat ≤ (b - (a + 4)).toNat + 4 := Nat.mod_le _ _
  rw [InWords] at h
  rw [InWords, hsplit]
  omega

theorem InWords.last {b : Word} (h : InWords (a + BitVec.ofNat 32 (4 * n)) 1 b) :
    InWords a (n + 1) b := by
  induction n generalizing a with
  | zero => rwa [Nat.mul_zero, BitVec.add_zero] at h
  | succ n ih =>
      have haddr : a + BitVec.ofNat 32 (4 * (n + 1)) = a + 4 + BitVec.ofNat 32 (4 * n) := by
        rw [Nat.mul_succ, Nat.add_comm, ← Words.add_ofNat_add]
        rfl
      rw [haddr] at h
      exact (ih h).tail

theorem Holds.of_inWords {vs : List Word} (h : Holds m a vs) (hlen : 4 * vs.length ≤ 2 ^ 32)
    (hkept : ∀ b, InWords a vs.length b → m' b = m b) : Holds m' a vs := by
  intro i hi
  rw [← h i hi]
  apply wordAt_congr
  intro j hj
  apply hkept
  rw [InWords, Words.add_ofNat_add, Memory.offset_toNat a (by omega)]
  omega

theorem Holds.head {v : Word} {vs : List Word} (h : Holds m a (v :: vs)) : wordAt m a = v := by
  have hfirst := h 0 (Nat.succ_pos _)
  rwa [Nat.mul_zero, BitVec.add_zero] at hfirst

theorem Holds.tail {v : Word} {vs : List Word} (h : Holds m a (v :: vs)) : Holds m (a + 4) vs := by
  intro i hi
  have hnext := h (i + 1) (Nat.succ_lt_succ hi)
  rw [Nat.mul_succ, Nat.add_comm, ← Words.add_ofNat_add] at hnext
  exact hnext

/-- Registers loaded from the words they were stored to. -/
theorem loadRegs_regs {rs : List Reg} {g : Reg → Word} (h : Holds m a (rs.map g)) (s : Core)
    (b : Bank) (q : Reg) : (loadRegs m a rs s).regs b q =
      if b = q.home s.bank ∧ q ∈ rs then g q else s.regs b q := by
  induction rs generalizing a s with
  | nil => simp [loadRegs, loadInto]
  | cons r rs ih =>
      have hrest := ih h.tail (s.set r (wordAt m a))
      rw [Core.set_bank] at hrest
      refine hrest.trans ?_
      rw [Core.set, Core.put_regs, h.head]
      by_cases hq : q = r
      · subst hq
        by_cases hb : b = q.home s.bank
        · simp [hb]
        · simp [hb]
      · simp [hq]

/-- A return that loads the registers from where they were stored. -/
theorem ldmReturn_regs {mc : Machine} {t : Core} {rn : Reg} {rs : List Reg} {g : Reg → Word}
    {w : Word} (ht : t = ((Instr.ldmReturn rn rs).exec mc).core)
    (h : Holds mc.mem (align (mc.core.get rn)) (rs.map g ++ [w])) :
    t.pc = w ∧ t.cpsr = mc.core.spsr mc.core.bank ∧ t.spsr = mc.core.spsr ∧
      ∀ b q, t.regs b q =
        if b = rn.home mc.core.bank ∧ q = rn then
          mc.core.get rn + BitVec.ofNat 32 (4 * (rs.length + 1))
        else if b = q.home mc.core.bank ∧ q ∈ rs then g q
        else mc.core.regs b q := by
  have hregs := loadRegs_regs h.left mc.core
  have hlast := h.right.head
  have hspsr : (loadRegs mc.mem (align (mc.core.get rn)) rs mc.core).spsr = mc.core.spsr :=
    loadInto_keeps (f := Core.spsr) (g := Core.set) (fun _ _ _ => rfl) _ _ rs mc.core
  have hbank : (loadRegs mc.mem (align (mc.core.get rn)) rs mc.core).bank = mc.core.bank :=
    loadInto_keeps (f := Core.bank) (g := Core.set) (fun _ _ _ => rfl) _ _ rs mc.core
  rw [List.length_map] at hlast
  rw [ht]
  refine ⟨hlast, rfl, hspsr, fun b q => ?_⟩
  change (Core.set _ rn _).regs b q = _
  rw [Core.set, Core.put_regs, hbank, hregs]

theorem loadInto_congr {P : Bank → Prop} {f : Core → Reg → Word → Core}
    (hf : ∀ {s t : Core}, SameOff P s t → ∀ r v, SameOff P (f s r v) (f t r v)) {rs : List Reg}
    (h : ∀ b, InWords a rs.length b → m' b = m b) {s t : Core} (hst : SameOff P s t) :
    SameOff P (loadInto f m a rs s) (loadInto f m' a rs t) := by
  induction rs generalizing a s t with
  | nil => exact hst
  | cons r rs ih =>
      rw [loadInto, loadInto, wordAt_inWords h (Nat.succ_pos _)]
      exact ih (fun b hb => h b hb.tail) (hf hst r _)

end SameWords

section Congruence

variable {P : Bank → Prop} {s t : Core}

theorem exec_sameOff (h : SameOff P s t) (husr : ¬ P .usr) (hbank : ¬ P s.bank) {m m' : Memory}
    {i : Instr} (hreads : ∀ a, i.reads s a → m' a = m a) :
    SameOff P (i.exec ⟨s, m⟩).core (i.exec ⟨t, m'⟩).core := by
  have hget := h.get husr hbank
  have hvalue : ∀ o : Operand, o.value t = o.value s := fun o => o.value_congr h husr hbank
  have hsaved : t.spsr t.bank = s.spsr s.bank := by rw [h.bank, h.spsr _ hbank]
  induction i with
  | mov rd o => exact (h.set rd (hvalue o)).next
  | movPc rd => exact (h.set rd (by rw [h.pc])).next
  | lsr rd rm k => exact (h.set rd (by rw [hget])).next
  | alu f rd rn o => exact (h.set rd (by rw [hget, hvalue])).next
  | cmp rn o => exact (h.compare (hget rn) (hvalue o)).next
  | teq rn o => exact (h.test (by rw [hget, hvalue])).next
  | tst rn o => exact (h.test (by rw [hget, hvalue])).next
  | ldrLit rd v => exact (h.set rd rfl).next
  | ldrAt rd p =>
      have hword : loadWord m' p = loadWord m p := by
        rw [loadWord, loadWord, wordAt_inWords hreads Nat.one_pos]
      exact (h.set rd hword).next
  | ldr rd rn k =>
      have hword : loadWord m' (t.get rn + k) = loadWord m (s.get rn + k) := by
        rw [hget, loadWord, loadWord, wordAt_inWords hreads Nat.one_pos]
      exact (h.set rd hword).next
  | ldrDown rd rn k =>
      have hword : loadWord m' (t.get rn - k) = loadWord m (s.get rn - k) := by
        rw [hget, loadWord, loadWord, wordAt_inWords hreads Nat.one_pos]
      exact (h.set rd hword).next
  | ldrPc k =>
      have hword : loadWord m' (t.pc + 8 + k) = loadWord m (s.pc + 8 + k) := by
        rw [h.pc, loadWord, loadWord, wordAt_inWords hreads Nat.one_pos]
      exact h.setPc hword
  | ldrb rd rn k =>
      have hcell : (m' (t.get rn)).setWidth 32 = (m (s.get rn)).setWidth 32 := by
        rw [hget, hreads _ rfl]
      exact ((h.set rd hcell).set rn (by rw [hget])).next
  | strb rd rn k => exact (h.set rn (by rw [hget])).next
  | str rd rn => exact h.next
  | ldmia rn rd =>
      have hword : wordAt m' (align (t.get rn)) = wordAt m (align (s.get rn)) := by
        rw [hget, wordAt_inWords hreads Nat.one_pos]
      exact ((h.set rd hword).set rn (by rw [hget])).next
  | stmia rn rd => exact (h.set rn (by rw [hget])).next
  | stmfd rn rs => exact (h.set rn (by rw [pushAddress, pushAddress, hget])).next
  | ldmUser rn rs =>
      have hload := loadInto_congr (f := fun s r v => s.put .usr r v)
        (fun h r v => h.put .usr r v) hreads h
      rw [Instr.exec, Instr.exec, hget]
      exact hload.next
  | ldmReturn rn rs =>
      have hload := loadInto_congr (f := Core.set) (fun h r v => h.set r rfl)
        (fun a ha => hreads a (Nat.lt_of_lt_of_le ha (Nat.mul_le_mul_left 4 (Nat.le_succ _)))) h
      have hlast : wordAt m' (align (s.get rn) + BitVec.ofNat 32 (4 * rs.length)) =
          wordAt m (align (s.get rn) + BitVec.ofNat 32 (4 * rs.length)) :=
        wordAt_inWords (fun a ha => hreads a (InWords.last ha)) Nat.one_pos
      have hbase : t.get rn + BitVec.ofNat 32 (4 * (rs.length + 1)) =
          s.get rn + BitVec.ofNat 32 (4 * (rs.length + 1)) := by rw [hget]
      rw [Instr.exec, Instr.exec, hbase, hget]
      exact (hload.set rn rfl).leave hlast hsaved
  | mrs rd => exact (h.set rd (by rw [h.cpsr])).next
  | mrsSaved rd => exact (h.set rd (by rw [hsaved])).next
  | msr rm => exact (h.setStatus (by rw [hget])).next
  | msrControl v => exact (h.setControl v).next
  | msrControlReg rm =>
      rw [Instr.exec, Instr.exec, hget]
      exact (h.setControl _).next
  | msrSaved rm => exact (h.setSaved (by rw [hget])).next
  | mrc rd v =>
      rw [Instr.exec, Instr.exec, h.mode]
      dsimp only
      split
      · exact h.enter .undefined
      · exact (h.set rd rfl).next
  | b a => exact h.setPc rfl
  | bl a => exact (h.set .lr (by rw [h.pc])).setPc rfl
  | bx rm => exact h.exchange (hget rm)
  | ret => exact h.setPc (hget .lr)
  | swi => exact h.enter .swi
  | movsPc => exact h.leave (hget .lr) hsaved
  | nop => exact h.next
  | cond c i ih =>
      rw [Instr.exec, Instr.exec, h.cpsr]
      split
      · rename_i hc
        exact ih fun a ha => hreads a ⟨hc, ha⟩
      · exact h.next

/-- Where two memories agree, they do after an instruction. -/
theorem exec_mem_of_sameOff (h : SameOff P s t) (husr : ¬ P .usr) (hbank : ¬ P s.bank)
    (i : Instr) {m m' : Memory} {a : Word} (ha : m' a = m a) :
    (i.exec ⟨t, m'⟩).mem a = (i.exec ⟨s, m⟩).mem a := by
  have hget := h.get husr hbank
  have hstore : ∀ (p : Word) (cs : List (BitVec 8)),
      Memory.store m' p cs a = Memory.store m p cs a := by
    intro p cs
    rw [Memory.store, Memory.store, ha]
  induction i with
  | strb rd rn k =>
      change Memory.store m' (t.get rn + k) [(t.get rd).setWidth 8] a =
        Memory.store m (s.get rn + k) [(s.get rd).setWidth 8] a
      rw [hget, hget, hstore]
  | str rd rn =>
      change storeWords m' (align (t.get rn)) [t.get rd] a =
        storeWords m (align (s.get rn)) [s.get rd] a
      rw [hget, hget, storeWords, storeWords, hstore]
  | stmia rn rd =>
      change storeWords m' (align (t.get rn)) [t.get rd] a =
        storeWords m (align (s.get rn)) [s.get rd] a
      rw [hget, hget, storeWords, storeWords, hstore]
  | stmfd rn rs =>
      change storeWords m' (align (pushAddress t rn rs)) (rs.map t.get) a =
        storeWords m (align (pushAddress s rn rs)) (rs.map s.get) a
      rw [pushAddress, pushAddress, hget, funext hget, storeWords, storeWords, hstore]
  | cond c i ih =>
      rw [Instr.exec, Instr.exec, h.cpsr]
      split
      · exact ih
      · exact ha
  | _ => exact ha

end Congruence

theorem setControl_pc (s : Core) (v : BitVec 8) : (s.setControl v).pc = s.pc := by
  unfold Core.setControl
  split
  · rfl
  · rfl

theorem setControl_regs (s : Core) (v : BitVec 8) : (s.setControl v).regs = s.regs := by
  unfold Core.setControl
  split
  · rfl
  · rfl

theorem setStatus_pc (s : Core) (p : Psr) : (s.setStatus p).pc = s.pc := by
  unfold Core.setStatus
  split
  · rfl
  · rfl

theorem setStatus_regs (s : Core) (p : Psr) : (s.setStatus p).regs = s.regs := by
  unfold Core.setStatus
  split
  · rfl
  · rfl

theorem exec_pc {i : Instr} (hi : i.straight) (m : Machine) :
    (i.exec m).core.pc = m.core.pc + 4 := by
  induction i with
  | msrControl v => exact congrArg (· + 4) (setControl_pc m.core v)
  | msrControlReg rm => exact congrArg (· + 4) (setControl_pc m.core _)
  | msr rm => exact congrArg (· + 4) (setStatus_pc m.core _)
  | ldmUser rn rs =>
      have hkeeps := loadInto_keeps (f := Core.pc) (g := fun s r v => s.put .usr r v)
        (fun _ _ _ => rfl) m.mem (align (m.core.get rn)) rs m.core
      exact congrArg (· + 4) hkeeps
  | cond c i ih =>
      rw [Instr.exec]
      split
      · exact ih hi
      · rfl
  | ldrPc k => cases hi
  | ldmReturn rn rs => cases hi
  | mrc rd v => cases hi
  | b a => cases hi
  | bl a => cases hi
  | bx rm => cases hi
  | ret => cases hi
  | swi => cases hi
  | movsPc => cases hi
  | _ => rfl

/-- What holds of the status register and of every value written to its
control field goes on to hold. -/
theorem exec_cpsr {P : Psr → Prop} {i : Instr} (hi : i.straight) (hs : i.status = false)
    {m : Machine} (hm : P m.core.cpsr)
    (hv : ∀ v, i = .msrControl v → P (m.core.cpsr.withControl v)) : P (i.exec m).core.cpsr := by
  cases i with
  | msrControl v =>
      change P (m.core.setControl v).cpsr
      unfold Core.setControl
      split
      · exact hm
      · exact hv v rfl
  | ldmUser rn rs =>
      have hkeeps := loadInto_keeps (f := Core.cpsr) (g := fun s r v => s.put .usr r v)
        (fun _ _ _ => rfl) m.mem (align (m.core.get rn)) rs m.core
      change P (loadInto _ m.mem (align (m.core.get rn)) rs m.core).cpsr
      rwa [hkeeps]
  | cmp rn o => cases hs
  | teq rn o => cases hs
  | tst rn o => cases hs
  | msr rm => cases hs
  | msrControlReg rm => cases hs
  | cond c i => cases hs
  | mrc rd v => cases hs
  | ldrPc k => cases hi
  | ldmReturn rn rs => cases hi
  | b a => cases hi
  | bl a => cases hi
  | bx rm => cases hi
  | ret => cases hi
  | swi => cases hi
  | movsPc => cases hi
  | _ => exact hm

theorem exec_mem {i : Instr} (hi : i.stores = false) (m : Machine) : (i.exec m).mem = m.mem := by
  induction i with
  | strb rd rn k => cases hi
  | str rd rn => cases hi
  | stmia rn rd => cases hi
  | stmfd rn rs => cases hi
  | cond c i ih =>
      rw [Instr.exec]
      split
      · exact ih hi
      · rfl
  | _ => rfl

/-- With a privilege the control register is a word like any other. -/
theorem exec_mrc {m : Machine} (hmode : m.core.mode ≠ userMode) (rd : Reg) (v : Word) :
    (Instr.mrc rd v).exec m = (Instr.ldrLit rd v).exec m :=
  congrArg (fun s => { m with core := s }) (if_neg hmode)

/-! ## Code -/

def runCode (is : List Instr) (m : Machine) : Machine := is.foldl Instr.exec m

@[simp] theorem runCode_nil (m : Machine) : runCode [] m = m := rfl

@[simp] theorem runCode_cons (i : Instr) (is : List Instr) (m : Machine) :
    runCode (i :: is) m = runCode is (i.exec m) := rfl

theorem runCode_append (is js : List Instr) (m : Machine) :
    runCode (is ++ js) m = runCode js (runCode is m) := List.foldl_append

theorem mem_take_succ {is : List Instr} {i : Instr} {j : ℕ} (h : is[j]? = some i) :
    i ∈ is.take (j + 1) := by
  apply List.mem_of_getElem? (i := j)
  rw [List.getElem?_take_of_lt j.lt_succ_self, h]

theorem runCode_take_succ {is : List Instr} {i : Instr} {j : ℕ} (h : is[j]? = some i)
    (m : Machine) : runCode (is.take (j + 1)) m = i.exec (runCode (is.take j) m) := by
  rw [runCode, List.take_add_one, h, Option.toList_some, List.foldl_concat]
  rfl

theorem runCode_pc {is : List Instr} (h : ∀ i ∈ is, i.straight) (m : Machine) :
    (runCode is m).core.pc = m.core.pc + BitVec.ofNat 32 (4 * is.length) := by
  induction is generalizing m with
  | nil => exact (BitVec.add_zero m.core.pc).symm
  | cons i is ih =>
      have hfour : (4 : Word) = BitVec.ofNat 32 4 := rfl
      rw [runCode_cons, ih fun j hj => h j (List.mem_cons_of_mem i hj),
        exec_pc (h i List.mem_cons_self), hfour, Words.add_ofNat_add, List.length_cons,
        Nat.mul_succ, Nat.add_comm 4]

theorem runCode_cpsr {P : Psr → Prop} {is : List Instr}
    (h : ∀ i ∈ is, i.straight ∧ i.status = false)
    (hv : ∀ v, .msrControl v ∈ is → ∀ p : Psr, P (p.withControl v)) {m : Machine}
    (hm : P m.core.cpsr) : P (runCode is m).core.cpsr := by
  induction is generalizing m with
  | nil => exact hm
  | cons i is ih =>
      apply ih (fun j hj => h j (List.mem_cons_of_mem i hj))
        (fun v hmem => hv v (List.mem_cons_of_mem i hmem))
      apply exec_cpsr (h i List.mem_cons_self).1 (h i List.mem_cons_self).2 hm
      rintro v rfl
      exact hv v List.mem_cons_self m.core.cpsr

theorem runCode_mem {is : List Instr} (h : ∀ i ∈ is, i.stores = false) (m : Machine) :
    (runCode is m).mem = m.mem := by
  induction is generalizing m with
  | nil => rfl
  | cons i is ih =>
      rw [runCode_cons, ih fun j hj => h j (List.mem_cons_of_mem i hj),
        exec_mem (h i List.mem_cons_self)]

/-- The instruction at an address of code that starts at `base`. -/
def codeAt (base : Word) (is : List Instr) (pc : Word) : Option Instr :=
  if (pc - base).toNat % 4 = 0 then is[(pc - base).toNat / 4]? else none

theorem mem_of_codeAt {base a : Word} {is : List Instr} {i : Instr}
    (h : codeAt base is a = some i) : i ∈ is := by
  rw [codeAt] at h
  split at h
  · exact List.mem_of_getElem? h
  · cases h

theorem codeAt_add (base : Word) {is : List Instr} {j : ℕ} (h : 4 * j < 2 ^ 32) :
    codeAt base is (base + BitVec.ofNat 32 (4 * j)) = is[j]? := by
  rw [codeAt, Memory.offset_toNat base h, if_pos (Nat.mul_mod_right 4 j),
    Nat.mul_div_cancel_left j (by decide)]

end Processor
