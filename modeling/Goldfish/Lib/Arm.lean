import Goldfish.Lib.Leads
import Goldfish.Lib.Memory

/-!
# Programs of a small part of ARM

The instructions are those of short startup code: moves, additions and
subtractions, comparisons, byte loads and stores with post-increment, word
stores, branches, and the writes of the control field of CPSR. A program is
its labelled sections in order; control is the code still to be executed, so
that falling through to the next label is nothing special. Literals are part
of the instruction that loads them.
-/

namespace Arm

abbrev Word := BitVec 32

abbrev Memory := Word → BitVec 8

inductive Reg where
  | r0 | r1 | r2 | r3 | r4 | sp | lr
  deriving DecidableEq

/-- N, Z and V; none of the conditions here looks at C. -/
structure Flags where
  n : Bool
  z : Bool
  v : Bool

def Flags.sub (a b : Word) : Flags where
  n := (a - b).msb
  z := a - b == 0
  v := BitVec.ssubOverflow a b

inductive Cond where
  | al | eq | ne | lt

def Cond.holds (f : Flags) : Cond → Bool
  | al => true
  | eq => f.z
  | ne => !f.z
  | lt => f.n != f.v

theorem Cond.eq_holds_iff (a b : Word) : eq.holds (Flags.sub a b) = true ↔ a = b := by
  rw [holds, Flags.sub, beq_iff_eq, sub_eq_zero]

theorem Cond.ne_holds_iff (a b : Word) : ne.holds (Flags.sub a b) = true ↔ a ≠ b := by
  rw [Ne, ← eq_holds_iff, holds, holds, Bool.not_eq_true', Bool.not_eq_true]

theorem Cond.lt_holds_iff (a b : Word) : lt.holds (Flags.sub a b) = true ↔ a.toInt < b.toInt := by
  have ha := a.toInt_lt
  have hb := b.toInt_lt
  have hale := a.le_toInt
  have hble := b.le_toInt
  have hdiff : (a - b).toInt = (a.toInt - b.toInt).bmod (2 ^ 32) := BitVec.toInt_sub
  rw [holds, Flags.sub, bne_iff_ne, Ne, Bool.eq_iff_iff, BitVec.msb_eq_toInt, BitVec.ssubOverflow,
    decide_eq_true_iff, Bool.or_eq_true, decide_eq_true_iff, decide_eq_true_iff, hdiff,
    Int.bmod_def]
  omega

/-- `reads` lists the addresses of the byte loads so far. -/
structure State where
  regs : Reg → BitVec 5 → Word
  control : BitVec 8
  flags : Flags
  mem : Memory
  reads : List Word

def userMode : BitVec 5 := 0x10
def systemMode : BitVec 5 := 0x1f

/-- The bank a register is taken from: each mode has its own `sp` and `lr`,
except that system mode uses those of user mode. -/
def bank (mode : BitVec 5) : Reg → BitVec 5
  | .sp | .lr => if mode = systemMode then userMode else mode
  | _ => userMode

namespace State

def mode (s : State) : BitVec 5 := s.control.setWidth 5

def get (s : State) (r : Reg) : Word := s.regs r (bank s.mode r)

def set (s : State) (r : Reg) (v : Word) : State :=
  { s with regs := Function.update s.regs r (Function.update (s.regs r) (bank s.mode r) v) }

def compare (s : State) (a b : Word) : State := { s with flags := Flags.sub a b }

def loaded (s : State) (a : Word) : State := { s with reads := s.reads ++ [a] }

def store (s : State) (a : Word) (cs : List (BitVec 8)) : State :=
  { s with mem := Memory.store s.mem a cs }

/-- User mode cannot write the control field. -/
def setControl (s : State) (v : BitVec 8) : State :=
  if s.mode = userMode then s else { s with control := v }

theorem get_set (s : State) (r r' : Reg) (v : Word) :
    (s.set r v).get r' = if r' = r then v else s.get r' := by
  change Function.update s.regs r (Function.update (s.regs r) (bank s.mode r) v) r'
    (bank s.mode r') = if r' = r then v else s.regs r' (bank s.mode r')
  by_cases h : r' = r
  · rw [if_pos h, h, Function.update_self, Function.update_self]
  · rw [if_neg h, Function.update_of_ne h]

variable (s : State) (r : Reg) (v a b : Word) (cs : List (BitVec 8))

@[simp] theorem set_get_self : (s.set r v).get r = v := by
  rw [get_set, if_pos rfl]

@[simp] theorem set_get_other {r r' : Reg} (h : r' ≠ r) : (s.set r v).get r' = s.get r' := by
  rw [get_set, if_neg h]

@[simp] theorem set_mem : (s.set r v).mem = s.mem := rfl

@[simp] theorem set_flags : (s.set r v).flags = s.flags := rfl

@[simp] theorem set_reads : (s.set r v).reads = s.reads := rfl

@[simp] theorem set_control : (s.set r v).control = s.control := rfl

theorem set_regs (m : BitVec 5) :
    (s.set r v).regs r m = if m = bank s.mode r then v else s.regs r m := by
  change Function.update s.regs r (Function.update (s.regs r) (bank s.mode r) v) r m = _
  rw [Function.update_self, Function.update_apply]

@[simp] theorem compare_get : (s.compare a b).get r = s.get r := rfl

@[simp] theorem compare_mem : (s.compare a b).mem = s.mem := rfl

@[simp] theorem compare_flags : (s.compare a b).flags = Flags.sub a b := rfl

@[simp] theorem compare_reads : (s.compare a b).reads = s.reads := rfl

@[simp] theorem compare_control : (s.compare a b).control = s.control := rfl

@[simp] theorem loaded_get : (s.loaded a).get r = s.get r := rfl

@[simp] theorem loaded_mem : (s.loaded a).mem = s.mem := rfl

@[simp] theorem loaded_reads : (s.loaded a).reads = s.reads ++ [a] := rfl

@[simp] theorem loaded_control : (s.loaded a).control = s.control := rfl

@[simp] theorem store_get : (s.store a cs).get r = s.get r := rfl

@[simp] theorem store_mem : (s.store a cs).mem = Memory.store s.mem a cs := rfl

@[simp] theorem store_flags : (s.store a cs).flags = s.flags := rfl

@[simp] theorem store_reads : (s.store a cs).reads = s.reads := rfl

@[simp] theorem store_control : (s.store a cs).control = s.control := rfl

@[simp] theorem setControl_mem (c : BitVec 8) : (s.setControl c).mem = s.mem := by
  unfold setControl
  split
  · rfl
  · rfl

theorem setControl_regs (c : BitVec 8) : (s.setControl c).regs = s.regs := by
  unfold setControl
  split
  · rfl
  · rfl

theorem setControl_mode (h : s.mode ≠ userMode) (c : BitVec 8) :
    (s.setControl c).mode = c.setWidth 5 := by
  rw [setControl, if_neg h]
  rfl

end State

/-! ## Words in memory -/

/-- The address with its two low bits cleared, as the word transfers use it. -/
def align (a : Word) : Word := (a >>> 2) <<< 2

def bytes (v : Word) : List (BitVec 8) :=
  [v.extractLsb' 0 8, v.extractLsb' 8 8, v.extractLsb' 16 8, v.extractLsb' 24 8]

def wordAt (m : Memory) (a : Word) : Word := m (a + 3) ++ m (a + 2) ++ m (a + 1) ++ m a

theorem align_eq {a : Word} (h : a.toNat % 4 = 0) : align a = a := by
  have hlt := a.isLt
  apply BitVec.eq_of_toNat_eq
  rw [align, BitVec.toNat_shiftLeft, BitVec.toNat_ushiftRight, Nat.shiftRight_eq_div_pow,
    Nat.shiftLeft_eq]
  omega

@[simp] theorem bytes_length (v : Word) : (bytes v).length = 4 := rfl

theorem bytes_append (v : Word) : v.extractLsb' 24 8 ++ v.extractLsb' 16 8 ++ v.extractLsb' 8 8 ++
    v.extractLsb' 0 8 = v := by
  have hthree : v.extractLsb' 24 8 ++ v.extractLsb' 16 8 = v.extractLsb' 16 16 :=
    BitVec.extractLsb'_append_extractLsb'_eq_extractLsb' rfl
  have htwo : v.extractLsb' 16 16 ++ v.extractLsb' 8 8 = v.extractLsb' 8 24 :=
    BitVec.extractLsb'_append_extractLsb'_eq_extractLsb' rfl
  have hone : v.extractLsb' 8 24 ++ v.extractLsb' 0 8 = v.extractLsb' 0 32 :=
    BitVec.extractLsb'_append_extractLsb'_eq_extractLsb' rfl
  calc
    _ = v.extractLsb' 16 16 ++ v.extractLsb' 8 8 ++ v.extractLsb' 0 8 := by rw [hthree]
    _ = v.extractLsb' 0 32 := by rw [htwo, hone]
    _ = v := BitVec.extractLsb'_eq_self

theorem wordAt_eq {m : Memory} {a v : Word}
    (h : ∀ i (hi : i < (bytes v).length), m (a + BitVec.ofNat 32 i) = (bytes v)[i]) :
    wordAt m a = v := by
  have hzero : m a = v.extractLsb' 0 8 := by
    have hcell := h 0 (by simp)
    rwa [BitVec.add_zero] at hcell
  have hone : m (a + 1) = v.extractLsb' 8 8 := h 1 (by simp)
  have htwo : m (a + 2) = v.extractLsb' 16 8 := h 2 (by simp)
  have hthree : m (a + 3) = v.extractLsb' 24 8 := h 3 (by simp)
  rw [wordAt, hzero, hone, htwo, hthree]
  exact bytes_append v

theorem wordAt_store (m : Memory) (a v : Word) :
    wordAt (Memory.store m a (bytes v)) a = v :=
  wordAt_eq fun _ hi => Memory.store_getElem m a (by simp) hi

/-! ## Instructions -/

inductive Operand where
  | imm (v : Word)
  | reg (r : Reg)

def Operand.value (s : State) : Operand → Word
  | imm v => v
  | reg r => s.get r

/-- `ldrLit rd v` is `ldr rd, =v`, `ldrb rd rn k` is `ldrb rd, [rn], #k`,
`str rd rn` is `str rd, [rn]`, `stmia c rn rd` is `stm<c>ia rn!, {rd}` and
`ret` is `mov pc, lr`. -/
inductive Instr (L : Type*) where
  | mov (rd : Reg) (o : Operand)
  | ldrLit (rd : Reg) (v : Word)
  | add (rd rn : Reg) (o : Operand)
  | sub (rd rn : Reg) (o : Operand)
  | subs (rd rn : Reg) (o : Operand)
  | cmp (rn : Reg) (o : Operand)
  | ldrb (rd rn : Reg) (k : Word)
  | strb (rd rn : Reg) (k : Word)
  | str (rd rn : Reg)
  | stmia (c : Cond) (rn rd : Reg)
  | msr (v : BitVec 8)
  | b (c : Cond) (l : L)
  | ret

variable {L : Type*}

def Instr.exec (s : State) : Instr L → State
  | mov rd o => s.set rd (o.value s)
  | ldrLit rd v => s.set rd v
  | add rd rn o => s.set rd (s.get rn + o.value s)
  | sub rd rn o => s.set rd (s.get rn - o.value s)
  | subs rd rn o => (s.compare (s.get rn) (o.value s)).set rd (s.get rn - o.value s)
  | cmp rn o => s.compare (s.get rn) (o.value s)
  | ldrb rd rn k =>
      ((s.loaded (s.get rn)).set rd ((s.mem (s.get rn)).setWidth 32)).set rn (s.get rn + k)
  | strb rd rn k => (s.store (s.get rn) [(s.get rd).setWidth 8]).set rn (s.get rn + k)
  | str rd rn => s.store (align (s.get rn)) (bytes (s.get rd))
  | stmia c rn rd =>
      if c.holds s.flags then
        (s.store (align (s.get rn)) (bytes (s.get rd))).set rn (s.get rn + 4)
      else s
  | msr v => s.setControl v
  | b _ _ | ret => s

/-! ## Programs -/

abbrev Program (L : Type*) := List (L × List (Instr L))

def Program.codeFrom [DecidableEq L] (p : Program L) (l : L) : List (Instr L) :=
  (p.dropWhile fun part => part.1 ≠ l).flatMap Prod.snd

/-- `left pc` is past a return to `pc`. -/
inductive Control (L : Type*) where
  | code (rest : List (Instr L))
  | left (pc : Word)

def Program.next [DecidableEq L] (p : Program L) (s : State) (rest : List (Instr L)) :
    Instr L → Control L
  | .b c l => .code (if c.holds s.flags then p.codeFrom l else rest)
  | .ret => .left (s.get .lr)
  | _ => .code rest

def Program.step [DecidableEq L] (p : Program L) : Control L × State → Option (Control L × State)
  | (.code (i :: rest), s) => some (p.next s rest i, i.exec s)
  | (.code [], _) | (.left _, _) => none

def Instr.straight : Instr L → Bool
  | b _ _ | ret => false
  | _ => true

section Reaches

open StateTransition

variable [DecidableEq L] (p : Program L)

theorem next_of_straight {i : Instr L} (h : i.straight) (s : State) (rest : List (Instr L)) :
    p.next s rest i = .code rest := by
  cases i with
  | b c l => cases h
  | ret => cases h
  | _ => rfl

/-- Code without branches is executed from its first instruction to its last. -/
theorem reaches_straight (is : List (Instr L)) (h : is.all Instr.straight)
    (rest : List (Instr L)) (s : State) :
    Reaches p.step (.code (is ++ rest), s) (.code rest, is.foldl Instr.exec s) := by
  induction is generalizing s with
  | nil => exact Relation.ReflTransGen.refl
  | cons i is ih =>
      rw [List.all_cons, Bool.and_eq_true] at h
      have hstep : p.step (.code (i :: is ++ rest), s) = some (.code (is ++ rest), i.exec s) := by
        rw [List.cons_append, Program.step, next_of_straight p h.1]
      exact Relation.ReflTransGen.head hstep (ih h.2 (i.exec s))

theorem reaches_branch (is : List (Instr L)) (h : is.all Instr.straight) (c : Cond) (l : L)
    (rest : List (Instr L)) (s : State) :
    Reaches p.step (.code (is ++ .b c l :: rest), s)
      (.code (if c.holds (is.foldl Instr.exec s).flags then p.codeFrom l else rest),
        is.foldl Instr.exec s) :=
  Relation.ReflTransGen.tail (reaches_straight p is h (.b c l :: rest) s) rfl

theorem reaches_ret (is : List (Instr L)) (h : is.all Instr.straight) (rest : List (Instr L))
    (s : State) :
    Reaches p.step (.code (is ++ .ret :: rest), s)
      (.left ((is.foldl Instr.exec s).get .lr), is.foldl Instr.exec s) :=
  Relation.ReflTransGen.tail (reaches_straight p is h (.ret :: rest) s) rfl

end Reaches

end Arm
