import Goldfish.Lib.Arm
import Goldfish.Lib.Words
import Mathlib.Order.CompletePartialOrder
import Mathlib.Order.Interval.Set.Disjoint

/-!
# The reset handler of c05e1

`ResetISR` copies the initial values of `.data` from the load image, clears
`.bss`, fills the stack area with `STACK_FILL` and gives each mode its stack
pointer, all before `main` is called. The addresses come from the linker
script; a layout is any choice of them whose areas do not meet.
-/

namespace Goldfish.Startup.ResetIsr

open Arm

structure Symbols where
  etext : Word
  data : Word
  edata : Word
  bss : Word
  ebss : Word
  stackStart : Word
  stackEnd : Word
  irqStackTop : Word
  fiqStackTop : Word
  svcStackTop : Word
  abtStackTop : Word
  undStackTop : Word
  cStackTop : Word

namespace Symbols

variable (l : Symbols)

def dataSize : ℕ := l.edata.toNat - l.data.toNat

def bssSize : ℕ := l.ebss.toNat - l.bss.toNat

def stackSize : ℕ := l.stackEnd.toNat - l.stackStart.toNat

/-- The initial values of `.data`, behind the text in flash. -/
def image : Set ℕ := Set.Ico l.etext.toNat (l.etext.toNat + l.dataSize)

def dataArea : Set ℕ := Set.Ico l.data.toNat (l.data.toNat + l.dataSize)

def bssArea : Set ℕ := Set.Ico l.bss.toNat (l.bss.toNat + l.bssSize)

def stackArea : Set ℕ := Set.Ico l.stackStart.toNat (l.stackStart.toNat + l.stackSize)

end Symbols

structure Layout extends Symbols where
  data_le : data ≤ edata
  bss_le : bss ≤ ebss
  stack_le : stackStart ≤ stackEnd
  below : ∀ a ∈ [etext, data, edata, bss, ebss, stackStart, stackEnd], a.toNat < 2 ^ 31
  aligned : stackStart.toNat % 4 = 0 ∧ stackEnd.toNat % 4 = 0
  disjoint : [toSymbols.image, toSymbols.dataArea, toSymbols.bssArea,
    toSymbols.stackArea].Pairwise Disjoint

/-- The linker script for sections of the given sizes: text in flash from
0x10000 on, then `.data`, `.bss` and the stacks in RAM from 0x30000 on. -/
def linkedSymbols (text data bss : ℕ) : Symbols where
  etext := BitVec.ofNat 32 (0x10000 + text)
  data := 0x30000
  edata := BitVec.ofNat 32 (0x30000 + data)
  bss := BitVec.ofNat 32 (0x30000 + data)
  ebss := BitVec.ofNat 32 (0x30000 + data + bss)
  stackStart := BitVec.ofNat 32 (0x30000 + data + bss)
  stackEnd := BitVec.ofNat 32 (0x30000 + data + bss + 1792)
  irqStackTop := BitVec.ofNat 32 (0x30000 + data + bss + 256)
  fiqStackTop := BitVec.ofNat 32 (0x30000 + data + bss + 512)
  svcStackTop := BitVec.ofNat 32 (0x30000 + data + bss + 768)
  abtStackTop := BitVec.ofNat 32 (0x30000 + data + bss + 1024)
  undStackTop := BitVec.ofNat 32 (0x30000 + data + bss + 1280)
  cStackTop := BitVec.ofNat 32 (0x30000 + data + bss + 1792)

def linked (text data bss : ℕ) (hflash : text + data ≤ 0x20000)
    (hram : data + bss + 1792 ≤ 0x20000000) (halign : (data + bss) % 4 = 0) : Layout where
  toSymbols := linkedSymbols text data bss
  data_le := by
    simp (disch := omega) only [linkedSymbols, BitVec.le_def, BitVec.toNat_ofNat,
      Nat.mod_eq_of_lt]
    exact Nat.le_add_right _ _
  bss_le := by
    simp (disch := omega) only [linkedSymbols, BitVec.le_def, BitVec.toNat_ofNat,
      Nat.mod_eq_of_lt]
    exact Nat.le_add_right _ _
  stack_le := by
    simp (disch := omega) only [linkedSymbols, BitVec.le_def, BitVec.toNat_ofNat,
      Nat.mod_eq_of_lt]
    exact Nat.le_add_right _ _
  below := by
    simp (disch := omega) only [linkedSymbols, List.forall_mem_cons, BitVec.toNat_ofNat,
      Nat.mod_eq_of_lt]
    simp
    omega
  aligned := by
    simp (disch := omega) only [linkedSymbols, BitVec.toNat_ofNat, Nat.mod_eq_of_lt]
    omega
  disjoint := by
    simp (disch := omega) only [linkedSymbols, Symbols.image, Symbols.dataArea, Symbols.bssArea,
      Symbols.stackArea, Symbols.dataSize, Symbols.bssSize, Symbols.stackSize, BitVec.toNat_ofNat,
      Nat.mod_eq_of_lt]
    simp [Set.Ico_disjoint_Ico]
    omega

/-! ## The code -/

def iBit : BitVec 8 := 0x80
def fBit : BitVec 8 := 0x40
def fiqMode : BitVec 8 := 0x11
def irqMode : BitVec 8 := 0x12
def svcMode : BitVec 8 := 0x13
def abtMode : BitVec 8 := 0x17
def undMode : BitVec 8 := 0x1b
def sysMode : BitVec 8 := 0x1f

/-- The constant the stack is filled with. -/
def stackFill : Word := 0xaaaaaaaa

/-- `fill` is the local label 1. The model ends where `call_main` begins. -/
inductive Label where
  | resetISR | copy | initBss | zero | initStack | fill | callMain
  deriving DecidableEq

def resetISR (l : Symbols) : Program Label :=
  [(.resetISR,
      -- copy data to RAM
      [.ldrLit .r0 l.etext, .ldrLit .r1 l.data, .ldrLit .r2 l.edata, .sub .r2 .r2 (.reg .r1),
        .cmp .r2 (.imm 0), .b .eq .initBss]),
    (.copy,
      [.ldrb .r4 .r0 1, .strb .r4 .r1 1, .subs .r2 .r2 (.imm 1), .b .ne .copy]),
    (.initBss,
      [.ldrLit .r0 l.bss, .ldrLit .r1 l.ebss, .sub .r2 .r1 (.reg .r0), .cmp .r2 (.imm 0),
        .b .eq .initStack, .mov .r4 (.imm 0)]),
    (.zero,
      [.strb .r4 .r0 1, .subs .r2 .r2 (.imm 1), .b .ne .zero]),
    (.initStack,
      [.ldrLit .r1 l.stackStart, .ldrLit .r2 l.stackEnd, .ldrLit .r3 stackFill]),
    (.fill,
      [.cmp .r1 (.reg .r2), .stmia .lt .r1 .r3, .b .lt .fill,
        -- stack pointers for all modes
        .msr (irqMode ||| iBit ||| fBit), .ldrLit .sp l.irqStackTop,
        .msr (fiqMode ||| iBit ||| fBit), .ldrLit .sp l.fiqStackTop,
        .msr (svcMode ||| iBit ||| fBit), .ldrLit .sp l.svcStackTop,
        .msr (abtMode ||| iBit ||| fBit), .ldrLit .sp l.abtStackTop,
        .msr (undMode ||| iBit ||| fBit), .ldrLit .sp l.undStackTop,
        .msr (sysMode ||| iBit ||| fBit), .ldrLit .sp l.cStackTop]),
    (.callMain, [])]

abbrev Config := Control Label × State

def Symbols.code (l : Symbols) (label : Label) : Control Label :=
  .code ((resetISR l).codeFrom label)

abbrev Symbols.step (l : Symbols) : Config → Option Config := (resetISR l).step

/-! ## The stack pointers -/

/-- The mode an `msr` of the handler selects, with both interrupts masked. -/
def modeOf (c : BitVec 8) : BitVec 5 := (c ||| iBit ||| fBit).setWidth 5

def spBank (c : BitVec 8) : BitVec 5 := bank (modeOf c) .sp

def Symbols.stackTops (l : Symbols) : List (BitVec 8 × Word) :=
  [(irqMode, l.irqStackTop), (fiqMode, l.fiqStackTop), (svcMode, l.svcStackTop),
    (abtMode, l.abtStackTop), (undMode, l.undStackTop), (sysMode, l.cStackTop)]

def setStack (p : BitVec 8 × Word) : List (Instr Label) :=
  [.msr (p.1 ||| iBit ||| fBit), .ldrLit .sp p.2]

theorem setStack_mode {t : State} (ht : t.mode ≠ userMode) (p : BitVec 8 × Word) :
    ((setStack p).foldl Instr.exec t).mode = modeOf p.1 :=
  State.setControl_mode t ht _

theorem setStack_sp {t : State} (ht : t.mode ≠ userMode) (p : BitVec 8 × Word) (m : BitVec 5) :
    ((setStack p).foldl Instr.exec t).regs .sp m =
      if m = spBank p.1 then p.2 else t.regs .sp m := by
  change ((t.setControl (p.1 ||| iBit ||| fBit)).set .sp p.2).regs .sp m = _
  rw [State.set_regs, State.setControl_mode t ht, State.setControl_regs]
  rfl

section Stacks

variable {ps : List (BitVec 8 × Word)} {t : State}

theorem setStacks_mem (ps : List (BitVec 8 × Word)) (t : State) :
    ((ps.flatMap setStack).foldl Instr.exec t).mem = t.mem := by
  induction ps generalizing t with
  | nil => rfl
  | cons p ps ih =>
      rw [List.flatMap_cons, List.foldl_append, ih]
      exact State.setControl_mem t _

theorem setStacks_other (ht : t.mode ≠ userMode) (hps : ∀ p ∈ ps, modeOf p.1 ≠ userMode)
    {m : BitVec 5} (hm : ∀ p ∈ ps, m ≠ spBank p.1) :
    ((ps.flatMap setStack).foldl Instr.exec t).regs .sp m = t.regs .sp m := by
  induction ps generalizing t with
  | nil => rfl
  | cons p ps ih =>
      obtain ⟨hp, hrest⟩ := List.forall_mem_cons.mp hps
      obtain ⟨hmp, hother⟩ := List.forall_mem_cons.mp hm
      have hmode : ((setStack p).foldl Instr.exec t).mode ≠ userMode := by
        rw [setStack_mode ht]
        exact hp
      rw [List.flatMap_cons, List.foldl_append, ih hmode hrest hother, setStack_sp ht, if_neg hmp]

/-- Modes with banks of their own keep the stack pointers they are given. -/
theorem setStacks_sp (ht : t.mode ≠ userMode) (hps : ∀ p ∈ ps, modeOf p.1 ≠ userMode)
    (hbanks : ps.Pairwise fun p q => spBank p.1 ≠ spBank q.1) {p : BitVec 8 × Word}
    (hp : p ∈ ps) : ((ps.flatMap setStack).foldl Instr.exec t).regs .sp (spBank p.1) = p.2 := by
  induction ps generalizing t with
  | nil => exact absurd hp List.not_mem_nil
  | cons q ps ih =>
      obtain ⟨hq, hrest⟩ := List.forall_mem_cons.mp hps
      obtain ⟨hhead, htail⟩ := List.pairwise_cons.mp hbanks
      have hmode : ((setStack q).foldl Instr.exec t).mode ≠ userMode := by
        rw [setStack_mode ht]
        exact hq
      rw [List.flatMap_cons, List.foldl_append]
      cases List.mem_cons.mp hp with
      | inl heq =>
          subst heq
          rw [setStacks_other hmode hrest hhead, setStack_sp ht, if_pos rfl]
      | inr hmem => exact ih hmode hrest htail hmem

end Stacks

theorem stackTops_modes (l : Symbols) : ∀ p ∈ l.stackTops, modeOf p.1 ≠ userMode := by
  have hmodes : userMode ∉ l.stackTops.map fun p => modeOf p.1 := by
    change userMode ∉ [irqMode, fiqMode, svcMode, abtMode, undMode, sysMode].map modeOf
    decide
  exact fun p hp heq => hmodes (List.mem_map.mpr ⟨p, hp, heq⟩)

theorem stackTops_banks (l : Symbols) :
    l.stackTops.Pairwise fun p q => spBank p.1 ≠ spBank q.1 := by
  have hbanks : l.stackTops.map (fun p => spBank p.1) =
      [0x12, 0x11, 0x13, 0x17, 0x1b, userMode] := by
    change [irqMode, fiqMode, svcMode, abtMode, undMode, sysMode].map spBank = _
    decide
  have hnodup : (l.stackTops.map fun p => spBank p.1).Pairwise (· ≠ ·) := by
    rw [hbanks]
    decide
  exact List.pairwise_map.mp hnodup

/-! ## Memory as the loops build it -/

namespace Symbols

variable (l : Symbols) (m : Memory) (k : ℕ)

/-- The first `k` bytes of `.data` are copied. -/
def copied : Memory := Memory.store m l.data (Memory.load m l.etext k)

def cleared : Memory := Memory.store (l.copied m l.dataSize) l.bss (List.replicate k 0)

def filled : Memory :=
  Memory.store (l.cleared m l.bssSize) l.stackStart (List.replicate k 0xaa)

end Symbols

namespace Layout

variable (l : Layout)

theorem add_size {a b : Word} (h : a ≤ b) : a.toNat + (b.toNat - a.toNat) = b.toNat :=
  Nat.add_sub_cancel' (BitVec.le_def.mp h)

theorem data_fits : l.data.toNat + l.dataSize ≤ 2 ^ 32 := by
  have hend := l.below l.edata (by simp)
  rw [Symbols.dataSize, add_size l.data_le]
  omega

theorem bss_fits : l.bss.toNat + l.bssSize ≤ 2 ^ 32 := by
  have hend := l.below l.ebss (by simp)
  rw [Symbols.bssSize, add_size l.bss_le]
  omega

theorem stack_fits : l.stackStart.toNat + l.stackSize < 2 ^ 31 := by
  rw [Symbols.stackSize, add_size l.stack_le]
  exact l.below l.stackEnd (by simp)

theorem dataSize_lt : l.dataSize < 2 ^ 31 :=
  (Nat.sub_le _ _).trans_lt (l.below l.edata (by simp))

theorem bssSize_lt : l.bssSize < 2 ^ 31 :=
  (Nat.sub_le _ _).trans_lt (l.below l.ebss (by simp))

theorem areas_disjoint : (Disjoint l.image l.dataArea ∧ Disjoint l.image l.bssArea ∧
    Disjoint l.image l.stackArea) ∧ (Disjoint l.dataArea l.bssArea ∧
    Disjoint l.dataArea l.stackArea) ∧ Disjoint l.bssArea l.stackArea := by
  have h := l.disjoint
  simpa using h

theorem copied_of_notMem (m : Memory) {k : ℕ} (hk : k ≤ l.dataSize) {a : Word}
    (ha : a.toNat ∉ l.dataArea) : l.copied m k a = m a :=
  Memory.store_of_notMem m ((Memory.load_length m _ k).trans_le hk) l.data_fits ha

theorem cleared_of_notMem (m : Memory) {k : ℕ} (hk : k ≤ l.bssSize) {a : Word}
    (ha : a.toNat ∉ l.bssArea) : l.cleared m k a = l.copied m l.dataSize a :=
  Memory.store_of_notMem _ (List.length_replicate.trans_le hk) l.bss_fits ha

theorem filled_of_notMem (m : Memory) {k : ℕ} (hk : k ≤ l.stackSize) {a : Word}
    (ha : a.toNat ∉ l.stackArea) : l.filled m k a = l.cleared m l.bssSize a :=
  Memory.store_of_notMem _ (List.length_replicate.trans_le hk)
    (l.stack_fits.le.trans (by omega)) ha

theorem image_mem {k : ℕ} (hk : k < l.dataSize) :
    (l.etext + BitVec.ofNat 32 k).toNat ∈ l.image := by
  have hsize := l.dataSize_lt
  have hetext := l.below l.etext (by simp)
  rw [Memory.add_ofNat_toNat (by omega)]
  exact Set.mem_Ico.mpr ⟨Nat.le_add_right _ _, Nat.add_lt_add_left hk _⟩

/-- The load image is read as it was when the handler was entered. -/
theorem copied_succ (m : Memory) {k : ℕ} (hk : k < l.dataSize) :
    Memory.store (l.copied m k) (l.data + BitVec.ofNat 32 k)
      [l.copied m k (l.etext + BitVec.ofNat 32 k)] = l.copied m (k + 1) := by
  have hsize := l.dataSize_lt
  have hread : l.copied m k (l.etext + BitVec.ofNat 32 k) = m (l.etext + BitVec.ofNat 32 k) :=
    l.copied_of_notMem m hk.le (Set.disjoint_left.mp l.areas_disjoint.1.1 (l.image_mem hk))
  have hlength : (Memory.load m l.etext k).length < 2 ^ 32 := by
    rw [Memory.load_length]
    omega
  have hconcat := Memory.store_concat m l.data (m (l.etext + BitVec.ofNat 32 k)) hlength
  rw [Memory.load_length, ← Memory.load_succ, ← Memory.store_singleton] at hconcat
  rw [hread]
  exact hconcat

theorem cleared_succ (m : Memory) {k : ℕ} (hk : k < l.bssSize) :
    Memory.store (l.cleared m k) (l.bss + BitVec.ofNat 32 k) [0] = l.cleared m (k + 1) := by
  have hsize := l.bssSize_lt
  have hlength : (List.replicate k (0 : BitVec 8)).length + [(0 : BitVec 8)].length ≤
      2 ^ 32 := by
    rw [List.length_replicate, List.length_singleton]
    omega
  have happend := Memory.store_append (l.copied m l.dataSize) l.bss hlength
  rw [List.length_replicate, ← List.replicate_succ'] at happend
  exact happend

theorem bytes_stackFill : bytes stackFill = List.replicate 4 0xaa := by
  decide

theorem filled_succ (m : Memory) {k : ℕ} (hk : k + 4 ≤ l.stackSize) :
    Memory.store (l.filled m k) (l.stackStart + BitVec.ofNat 32 k) (bytes stackFill) =
      l.filled m (k + 4) := by
  have hsize := l.stack_fits
  have hlength : (List.replicate k (0xaa : BitVec 8)).length + (bytes stackFill).length ≤
      2 ^ 32 := by
    rw [List.length_replicate, bytes_length]
    omega
  have happend := Memory.store_append (l.cleared m l.bssSize) l.stackStart hlength
  rw [List.length_replicate] at happend
  rw [Symbols.filled, happend, bytes_stackFill, List.replicate_append_replicate]
  rfl

end Layout

/-! ## The loops -/

/-- `n` bytes of `.data` are left to copy. -/
structure Copying (l : Layout) (s : State) (n : ℕ) (c : Config) : Prop where
  le : n ≤ l.dataSize
  code : c.1 = l.code (if n = 0 then .initBss else .copy)
  source : c.2.get .r0 = l.etext + BitVec.ofNat 32 (l.dataSize - n)
  target : c.2.get .r1 = l.data + BitVec.ofNat 32 (l.dataSize - n)
  left : c.2.get .r2 = BitVec.ofNat 32 n
  mem : c.2.mem = l.copied s.mem (l.dataSize - n)
  control : c.2.control = s.control

/-- `n` bytes of `.bss` are left to clear. -/
structure Clearing (l : Layout) (s : State) (n : ℕ) (c : Config) : Prop where
  le : n ≤ l.bssSize
  code : c.1 = l.code (if n = 0 then .initStack else .zero)
  target : c.2.get .r0 = l.bss + BitVec.ofNat 32 (l.bssSize - n)
  left : c.2.get .r2 = BitVec.ofNat 32 n
  value : n ≠ 0 → c.2.get .r4 = 0
  mem : c.2.mem = l.cleared s.mem (l.bssSize - n)
  control : c.2.control = s.control

/-- `n` words of the stack area are left to fill. -/
structure Filling (l : Layout) (s : State) (n : ℕ) (c : Config) : Prop where
  le : 4 * n ≤ l.stackSize
  code : c.1 = l.code .fill
  target : c.2.get .r1 = l.stackStart + BitVec.ofNat 32 (l.stackSize - 4 * n)
  stop : c.2.get .r2 = l.stackEnd
  value : c.2.get .r3 = stackFill
  mem : c.2.mem = l.filled s.mem (l.stackSize - 4 * n)
  control : c.2.control = s.control

/-- The handler has come to `call_main`. -/
structure Ready (l : Layout) (s : State) (c : Config) : Prop where
  code : c.1 = l.code .callMain
  mem : c.2.mem = l.filled s.mem l.stackSize
  pointers : s.mode ≠ userMode → ∀ p ∈ l.stackTops, c.2.regs .sp (spBank p.1) = p.2

theorem Ready.stops {l : Layout} {s : State} {c : Config} (h : Ready l s c) : l.step c = none := by
  obtain ⟨_, t⟩ := c
  obtain ⟨rfl, _, _⟩ := h
  rfl

theorem Symbols.code_choice (l : Symbols) {P Q : Prop} [Decidable P] [Decidable Q] (h : P ↔ Q)
    (x y : Label) :
    .code (if P then (resetISR l).codeFrom x else (resetISR l).codeFrom y) =
      l.code (if Q then x else y) := by
  rw [if_congr h rfl rfl, Symbols.code]
  split
  · rfl
  · rfl

theorem count_sub (n : ℕ) : BitVec.ofNat 32 (n + 1) - 1#32 = BitVec.ofNat 32 n := by
  rw [Words.ofNat_add, add_sub_cancel_right]

theorem count_eq_one_iff {n : ℕ} (h : n + 1 < 2 ^ 31) :
    BitVec.ofNat 32 (n + 1) = 1#32 ↔ n = 0 := by
  rw [Words.ofNat_inj (by omega) (by omega), Nat.add_eq_right]

theorem count_eq_zero_iff {n : ℕ} (h : n < 2 ^ 31) : BitVec.ofNat 32 n = 0#32 ↔ n = 0 :=
  Words.ofNat_inj (by omega) (by omega)

theorem add_count (p : Word) {n size : ℕ} (h : n + 1 ≤ size) :
    p + BitVec.ofNat 32 (size - (n + 1)) + 1#32 = p + BitVec.ofNat 32 (size - n) := by
  rw [Words.add_ofNat_add]
  congr 2
  omega

section Loops

open Machine (Leads)

variable (l : Layout) (s : State)

theorem copy_start : Leads l.step (· = (l.code .resetISR, s)) (Copying l s l.dataSize) := by
  rintro _ rfl
  have hsize : l.edata - l.data = BitVec.ofNat 32 l.dataSize := Words.sub_eq_ofNat l.data_le
  have hzero := count_eq_zero_iff l.dataSize_lt
  refine ⟨_, reaches_branch (resetISR l.toSymbols) [.ldrLit .r0 l.etext, .ldrLit .r1 l.data,
    .ldrLit .r2 l.edata, .sub .r2 .r2 (.reg .r1), .cmp .r2 (.imm 0)] rfl .eq .initBss
    ((resetISR l.toSymbols).codeFrom .copy) s, ?_⟩
  constructor
  case le => exact le_rfl
  case code =>
    apply l.code_choice
    simp [Instr.exec, Operand.value, Cond.eq_holds_iff, hsize, hzero]
  case source => simp [Instr.exec, Operand.value]
  case target => simp [Instr.exec, Operand.value]
  case left => simp [Instr.exec, Operand.value, hsize]
  case mem => simp [Instr.exec, Operand.value, Symbols.copied, Memory.load]
  case control => simp [Instr.exec, Operand.value]

theorem copy_round (n : ℕ) : Leads l.step (Copying l s (n + 1)) (Copying l s n) := by
  rintro ⟨_, t⟩ ⟨hle, rfl, hsource, htarget, hleft, hmem, hcontrol⟩
  dsimp only at hmem hcontrol
  have hsize := l.dataSize_lt
  have hdone : l.dataSize - n = l.dataSize - (n + 1) + 1 := by omega
  refine ⟨_, reaches_branch (resetISR l.toSymbols) [.ldrb .r4 .r0 1, .strb .r4 .r1 1,
    .subs .r2 .r2 (.imm 1)] rfl .ne .copy ((resetISR l.toSymbols).codeFrom .initBss) t, ?_⟩
  constructor
  case le => exact Nat.le_of_succ_le hle
  case code =>
    rw [← ite_not]
    apply l.code_choice
    have hlast := count_eq_one_iff (hle.trans_lt hsize)
    simp [Instr.exec, Operand.value, Cond.ne_holds_iff, hleft, hlast]
  case source => simp [Instr.exec, Operand.value, hsource, add_count l.etext hle]
  case target => simp [Instr.exec, Operand.value, htarget, add_count l.data hle]
  case left => simp [Instr.exec, Operand.value, hleft, count_sub]
  case mem =>
    rw [hdone, ← l.copied_succ s.mem (by omega)]
    simp [Instr.exec, Operand.value, hmem, hsource, htarget]
  case control => simp [Instr.exec, Operand.value, hcontrol]

theorem clear_start : Leads l.step (Copying l s 0) (Clearing l s l.bssSize) := by
  rintro ⟨_, t⟩ ⟨_, rfl, _, _, _, hmem, hcontrol⟩
  dsimp only at hmem hcontrol
  have hsize : l.ebss - l.bss = BitVec.ofNat 32 l.bssSize := Words.sub_eq_ofNat l.bss_le
  have hzero := count_eq_zero_iff l.bssSize_lt
  have hguard := reaches_branch (resetISR l.toSymbols) [.ldrLit .r0 l.bss, .ldrLit .r1 l.ebss,
    .sub .r2 .r1 (.reg .r0), .cmp .r2 (.imm 0)] rfl .eq .initStack
    (.mov .r4 (.imm 0) :: (resetISR l.toSymbols).codeFrom .zero) t
  by_cases hempty : l.bssSize = 0
  · refine ⟨_, hguard, ?_⟩
    constructor
    case le => exact le_rfl
    case code =>
      rw [if_pos hempty, if_pos]
      · rfl
      · simp [Instr.exec, Operand.value, Cond.eq_holds_iff, hsize, hempty]
    case target => simp [Instr.exec, Operand.value]
    case left => simp [Instr.exec, Operand.value, hsize]
    case value => exact fun hne => absurd hempty hne
    case mem => simp [Instr.exec, Operand.value, Symbols.cleared, hmem]
    case control => simp [Instr.exec, Operand.value, hcontrol]
  · rw [if_neg] at hguard
    · refine ⟨_, Relation.ReflTransGen.trans hguard (reaches_straight (resetISR l.toSymbols)
        [.mov .r4 (.imm 0)] rfl ((resetISR l.toSymbols).codeFrom .zero) _), ?_⟩
      constructor
      case le => exact le_rfl
      case code => rw [if_neg hempty, Symbols.code]
      case target => simp [Instr.exec, Operand.value]
      case left => simp [Instr.exec, Operand.value, hsize]
      case value => simp [Instr.exec, Operand.value]
      case mem => simp [Instr.exec, Operand.value, Symbols.cleared, hmem]
      case control => simp [Instr.exec, Operand.value, hcontrol]
    · simp [Instr.exec, Operand.value, Cond.eq_holds_iff, hsize, hzero, hempty]

theorem clear_round (n : ℕ) :
    Leads l.step (Clearing l s (n + 1)) (Clearing l s n) := by
  rintro ⟨_, t⟩ ⟨hle, rfl, htarget, hleft, hvalue, hmem, hcontrol⟩
  dsimp only at hmem hcontrol
  have hzero := hvalue (Nat.succ_ne_zero n)
  have hsize := l.bssSize_lt
  have hdone : l.bssSize - n = l.bssSize - (n + 1) + 1 := by omega
  refine ⟨_, reaches_branch (resetISR l.toSymbols) [.strb .r4 .r0 1, .subs .r2 .r2 (.imm 1)] rfl
    .ne .zero ((resetISR l.toSymbols).codeFrom .initStack) t, ?_⟩
  constructor
  case le => exact Nat.le_of_succ_le hle
  case code =>
    rw [← ite_not]
    apply l.code_choice
    have hlast := count_eq_one_iff (hle.trans_lt hsize)
    simp [Instr.exec, Operand.value, Cond.ne_holds_iff, hleft, hlast]
  case target => simp [Instr.exec, Operand.value, htarget, add_count l.bss hle]
  case left => simp [Instr.exec, Operand.value, hleft, count_sub]
  case value => simp [Instr.exec, Operand.value, hzero]
  case mem =>
    rw [hdone, ← l.cleared_succ s.mem (by omega)]
    simp [Instr.exec, Operand.value, hmem, htarget, hzero]
  case control => simp [Instr.exec, Operand.value, hcontrol]

theorem stackStart_add_lt_iff {k : ℕ} (hk : k ≤ l.stackSize) :
    (l.stackStart + BitVec.ofNat 32 k).toInt < l.stackEnd.toInt ↔ k < l.stackSize := by
  have hend := l.below l.stackEnd (by simp)
  have hadd : l.stackStart.toNat + l.stackSize = l.stackEnd.toNat := Layout.add_size l.stack_le
  have hsum : (l.stackStart + BitVec.ofNat 32 k).toNat = l.stackStart.toNat + k :=
    Memory.add_ofNat_toNat (by omega)
  rw [BitVec.toInt_eq_toNat_of_lt (by omega), BitVec.toInt_eq_toNat_of_lt (by omega), hsum]
  omega

theorem stackSize_mod : l.stackSize % 4 = 0 := by
  obtain ⟨hstart, hend⟩ := l.aligned
  rw [Symbols.stackSize]
  omega

theorem fill_start :
    Leads l.step (Clearing l s 0) (Filling l s (l.stackSize / 4)) := by
  rintro ⟨_, t⟩ ⟨_, rfl, _, _, _, hmem, hcontrol⟩
  dsimp only at hmem hcontrol
  have hwords : 4 * (l.stackSize / 4) = l.stackSize :=
    Nat.mul_div_cancel' (Nat.dvd_of_mod_eq_zero (stackSize_mod l))
  refine ⟨_, reaches_straight (resetISR l.toSymbols) [.ldrLit .r1 l.stackStart,
    .ldrLit .r2 l.stackEnd, .ldrLit .r3 stackFill] rfl
    ((resetISR l.toSymbols).codeFrom .fill) t, ?_⟩
  constructor
  case le => exact hwords.le
  case code => rfl
  case target => simp [Instr.exec, hwords]
  case stop => simp [Instr.exec]
  case value => simp [Instr.exec]
  case mem => simp [Instr.exec, hwords, Symbols.filled, hmem]
  case control => simp [Instr.exec, hcontrol]

theorem fill_round (n : ℕ) :
    Leads l.step (Filling l s (n + 1)) (Filling l s n) := by
  rintro ⟨_, t⟩ ⟨hle, rfl, htarget, hstop, hvalue, hmem, hcontrol⟩
  dsimp only at hmem hcontrol
  have hdone : l.stackSize - 4 * n = l.stackSize - 4 * (n + 1) + 4 := by omega
  have hlt : Cond.lt.holds (Flags.sub (l.stackStart +
      BitVec.ofNat 32 (l.stackSize - 4 * (n + 1))) l.stackEnd) = true := by
    rw [Cond.lt_holds_iff, stackStart_add_lt_iff l (Nat.sub_le _ _)]
    omega
  have halign : align (l.stackStart + BitVec.ofNat 32 (l.stackSize - 4 * (n + 1))) =
      l.stackStart + BitVec.ofNat 32 (l.stackSize - 4 * (n + 1)) := by
    have hfits := l.stack_fits
    have hstart := l.aligned.1
    have hsize := stackSize_mod l
    apply align_eq
    rw [Memory.add_ofNat_toNat (by omega)]
    omega
  refine ⟨_, reaches_branch (resetISR l.toSymbols) [.cmp .r1 (.reg .r2), .stmia .lt .r1 .r3] rfl
    .lt .fill _ t, ?_⟩
  constructor
  case le => omega
  case code =>
    rw [if_pos]
    · rfl
    · simp [Instr.exec, Operand.value, htarget, hstop, hlt]
  case target =>
    rw [hdone, ← Words.add_ofNat_add]
    simp [Instr.exec, Operand.value, htarget, hstop, hlt]
  case stop => simp [Instr.exec, Operand.value, htarget, hstop, hlt]
  case value => simp [Instr.exec, Operand.value, htarget, hstop, hlt, hvalue]
  case mem =>
    rw [hdone, ← l.filled_succ s.mem (by omega)]
    simp [Instr.exec, Operand.value, htarget, hstop, hlt, halign, hvalue, hmem]
  case control => simp [Instr.exec, Operand.value, htarget, hstop, hlt, hcontrol]

theorem fill_stop : Leads l.step (Filling l s 0) (Ready l s) := by
  rintro ⟨_, t⟩ ⟨hle, rfl, htarget, hstop, hvalue, hmem, hcontrol⟩
  dsimp only at hmem hcontrol
  have hlt : ¬ Cond.lt.holds (Flags.sub (l.stackStart + BitVec.ofNat 32 l.stackSize)
      l.stackEnd) = true := by
    rw [Cond.lt_holds_iff, stackStart_add_lt_iff l le_rfl]
    exact lt_irrefl _
  have hbranch := reaches_branch (resetISR l.toSymbols) [.cmp .r1 (.reg .r2), .stmia .lt .r1 .r3]
    rfl .lt .fill (l.stackTops.flatMap setStack ++ (resetISR l.toSymbols).codeFrom .callMain) t
  have hexec : [.cmp .r1 (.reg .r2), .stmia .lt .r1 .r3].foldl (Instr.exec (L := Label)) t =
      t.compare (l.stackStart + BitVec.ofNat 32 l.stackSize) l.stackEnd := by
    simp [Instr.exec, Operand.value, htarget, hstop, hlt]
  rw [hexec, State.compare_flags, if_neg hlt] at hbranch
  refine ⟨_, Relation.ReflTransGen.trans hbranch
    (reaches_straight (resetISR l.toSymbols) (l.stackTops.flatMap setStack) rfl _ _), ?_⟩
  constructor
  case code => rfl
  case mem =>
    rw [setStacks_mem]
    exact hmem
  case pointers =>
    intro hmode p hp
    have ht : (t.compare (l.stackStart + BitVec.ofNat 32 l.stackSize) l.stackEnd).mode ≠
        userMode := by
      rw [State.mode, State.compare_control, hcontrol]
      exact hmode
    exact setStacks_sp ht (stackTops_modes l.toSymbols) (stackTops_banks l.toSymbols) hp

theorem resetISR_ready : Leads l.step (· = (l.code .resetISR, s)) (Ready l s) := by
  have hcopy := (copy_start l s).trans (Leads.countdown (copy_round l s) l.dataSize)
  have hclear := (clear_start l s).trans (Leads.countdown (clear_round l s) l.bssSize)
  have hfill := (fill_start l s).trans (Leads.countdown (fill_round l s) (l.stackSize / 4))
  exact hcopy.trans (hclear.trans (hfill.trans (fill_stop l s)))

end Loops

/-! ## What `main` finds -/

structure Prepared (l : Layout) (m m' : Memory) : Prop where
  data : ∀ i < l.dataSize, m' (l.data + BitVec.ofNat 32 i) = m' (l.etext + BitVec.ofNat 32 i)
  bss : ∀ a, a.toNat ∈ l.bssArea → m' a = 0
  stack : ∀ i, 4 * i < l.stackSize →
    wordAt m' (l.stackStart + BitVec.ofNat 32 (4 * i)) = stackFill
  other : ∀ a, a.toNat ∉ l.dataArea → a.toNat ∉ l.bssArea → a.toNat ∉ l.stackArea → m' a = m a
  image : ∀ a, a.toNat ∈ l.image → m' a = m a

namespace Layout

variable (l : Layout) (m : Memory)

theorem filled_other {a : Word} (hdata : a.toNat ∉ l.dataArea) (hbss : a.toNat ∉ l.bssArea)
    (hstack : a.toNat ∉ l.stackArea) : l.filled m l.stackSize a = m a := by
  rw [l.filled_of_notMem m le_rfl hstack, l.cleared_of_notMem m le_rfl hbss,
    l.copied_of_notMem m le_rfl hdata]

theorem filled_image {a : Word} (ha : a.toNat ∈ l.image) : l.filled m l.stackSize a = m a := by
  obtain ⟨⟨hdata, hbss, hstack⟩, _, _⟩ := l.areas_disjoint
  exact l.filled_other m (Set.disjoint_left.mp hdata ha) (Set.disjoint_left.mp hbss ha)
    (Set.disjoint_left.mp hstack ha)

theorem filled_bss {a : Word} (ha : a.toNat ∈ l.bssArea) : l.filled m l.stackSize a = 0 := by
  obtain ⟨_, _, hstack⟩ := l.areas_disjoint
  rw [l.filled_of_notMem m le_rfl (Set.disjoint_left.mp hstack ha)]
  exact Memory.store_replicate _ 0 ha

theorem filled_data {i : ℕ} (hi : i < l.dataSize) :
    l.filled m l.stackSize (l.data + BitVec.ofNat 32 i) = m (l.etext + BitVec.ofNat 32 i) := by
  obtain ⟨_, ⟨hbss, hstack⟩, _⟩ := l.areas_disjoint
  have hfits := l.data_fits
  have ha : (l.data + BitVec.ofNat 32 i).toNat ∈ l.dataArea := by
    rw [Memory.add_ofNat_toNat (by omega)]
    exact Set.mem_Ico.mpr ⟨Nat.le_add_right _ _, Nat.add_lt_add_left hi _⟩
  have hload : i < (Memory.load m l.etext l.dataSize).length := by
    rw [Memory.load_length]
    exact hi
  rw [l.filled_of_notMem m le_rfl (Set.disjoint_left.mp hstack ha),
    l.cleared_of_notMem m le_rfl (Set.disjoint_left.mp hbss ha), Symbols.copied,
    Memory.store_getElem _ _ (by rw [Memory.load_length]; omega) hload, Memory.load_getElem]

theorem filled_stack {k : ℕ} (hk : k < l.stackSize) :
    l.filled m l.stackSize (l.stackStart + BitVec.ofNat 32 k) = 0xaa := by
  have hfits := l.stack_fits
  apply Memory.store_replicate
  rw [Memory.add_ofNat_toNat (by omega)]
  exact Set.mem_Ico.mpr ⟨Nat.le_add_right _ _, Nat.add_lt_add_left hk _⟩

theorem filled_word {i : ℕ} (hi : 4 * i < l.stackSize) :
    wordAt (l.filled m l.stackSize) (l.stackStart + BitVec.ofNat 32 (4 * i)) = stackFill := by
  have hmod := stackSize_mod l
  apply wordAt_eq
  intro j hj
  rw [bytes_length] at hj
  simp only [bytes_stackFill, List.getElem_replicate]
  rw [Words.add_ofNat_add]
  exact l.filled_stack m (by omega)

theorem filled_prepared : Prepared l m (l.filled m l.stackSize) where
  data i hi := by
    rw [l.filled_data m hi, l.filled_image m (l.image_mem hi)]
  bss a := l.filled_bss m
  stack i := l.filled_word m
  other a := l.filled_other m
  image a := l.filled_image m

end Layout

/-- From every state at reset and for every layout, the handler comes to
`call_main` with the memory prepared. -/
theorem resetISR_prepares (l : Layout) (s : State) :
    ∃ t : State, StateTransition.eval l.step (l.code .resetISR, s) =
      Part.some (l.code .callMain, t) ∧ Prepared l s.mem t.mem := by
  obtain ⟨⟨_, t⟩, heval, rfl, hmem, _⟩ :=
    (resetISR_ready l s).exists_eval (fun _ => Ready.stops) rfl
  refine ⟨t, heval, ?_⟩
  rw [show t.mem = l.filled s.mem l.stackSize from hmem]
  exact l.filled_prepared s.mem

/-- Every mode has its own stack when `main` is called, system mode that of
the C code. -/
theorem resetISR_stackPointers (l : Layout) (s : State) (hmode : s.mode ≠ userMode) {t : State}
    (h : (l.code .callMain, t) ∈ StateTransition.eval l.step (l.code .resetISR, s)) :
    ∀ p ∈ l.stackTops, t.regs .sp (spBank p.1) = p.2 := by
  obtain ⟨c, heval, hready⟩ := (resetISR_ready l s).exists_eval (fun _ => Ready.stops) rfl
  rw [heval, Part.mem_some_iff] at h
  subst h
  exact hready.pointers hmode

end Goldfish.Startup.ResetIsr
