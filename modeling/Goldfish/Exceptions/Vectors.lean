import Goldfish.Lib.Processor

/-!
# The exception vectors

`low_level_init` writes a vector table, `BSP_init` hooks the handlers again,
and a table of its own is linked into `c07e1`. The processor fetches the
instructions there from memory, so what an exception leads to is a question
about memory.
-/

namespace Goldfish.Exceptions

open Processor
open Arm (Word Memory wordAt align)

/-- The vectors in their order. -/
inductive Entry where
  | reset | undef | swi | pAbort | dAbort | reserved | irq | fiq
  deriving DecidableEq

namespace Entry

def vector : Entry → Word
  | reset => 0x00
  | undef => 0x04
  | swi => 0x08
  | pAbort => 0x0c
  | dAbort => 0x10
  | reserved => 0x14
  | irq => 0x18
  | fiq => 0x1c

def of : Exception → Entry
  | .undefined => undef
  | .swi => swi
  | .prefetchAbort => pAbort
  | .dataAbort => dAbort
  | .irq => irq
  | .fiq => fiq

theorem vector_of (e : Exception) : (of e).vector = e.vector := by
  cases e <;> rfl

end Entry

/-- The addresses of `__cs3_reset` and of the handlers. -/
abbrev Handlers := Entry → Word

/-! ## Instructions in memory -/

def ldrPcPc : Word := 0xe59ff000

/-- A branch to itself. -/
def branchHere : Word := 0xeafffffe

/-- The two instructions that vectors hold, at the address `a`. -/
def decode (a w : Word) : Option Instr :=
  if w.extractLsb' 12 20 = 0xe59ff#20 then some (.ldrPc ((w.extractLsb' 0 12).setWidth 32))
  else if w.extractLsb' 24 8 = 0xea#8 then
    some (.b (a + 8 + (w.extractLsb' 0 24).signExtend 32 <<< 2))
  else none

/-- What is fetched from the vectors. -/
def vectorCode (m : Memory) (a : Word) : Option Instr := decode a (wordAt m a)

/-- The vector of `e` leads to this address, whatever the registers are. -/
def Hooks (m : Memory) (e : Entry) (handler : Word) : Prop :=
  ∃ i, vectorCode m e.vector = some i ∧
    ∀ c : Core, c.pc = e.vector → i.exec ⟨c, m⟩ = ⟨c.setPc handler, m⟩

theorem hooks_ldrPc {m : Memory} {e : Entry} {k handler : Word}
    (hcode : vectorCode m e.vector = some (.ldrPc k))
    (haligned : (e.vector + 8 + k).toNat % 4 = 0)
    (hword : wordAt m (e.vector + 8 + k) = handler) : Hooks m e handler := by
  refine ⟨_, hcode, fun c hc => ?_⟩
  rw [Instr.exec, hc, loadWord_of_aligned m haligned, hword]

/-- An exception that is taken comes to its handler, with nothing else changed. -/
theorem Hooks.taken {m : Memory} {e : Exception} {handler : Word} (h : Hooks m (.of e) handler)
    (c : Core) : ∃ i, vectorCode m e.vector = some i ∧
      i.exec ⟨e.enter c, m⟩ = ⟨(e.enter c).setPc handler, m⟩ := by
  obtain ⟨i, hcode, hexec⟩ := h
  rw [Entry.vector_of] at hcode hexec
  exact ⟨i, hcode, hexec (e.enter c) rfl⟩

/-! ## Tables written by C code -/

/-- `*(uint32_t volatile *)a = v` -/
def poke (m : Memory) (a v : Word) : Memory := storeWords m a [v]

theorem wordAt_poke {m : Memory} {a b v : Word} (ha : a.toNat % 4 = 0) (hb : b.toNat % 4 = 0) :
    wordAt (poke m a v) b = if b = a then v else wordAt m b := by
  have hlt := a.isLt
  have hlt' := b.isLt
  split_ifs with h
  · have hheld : Holds (poke m a v) a [v] := holds_storeWords m a (Nat.le_of_ble_eq_true rfl)
    have hword := hheld 0 Nat.zero_lt_one
    rw [Nat.mul_zero, BitVec.add_zero] at hword
    rw [h]
    exact hword
  · have hne : b.toNat ≠ a.toNat := fun hba => h (BitVec.eq_of_toNat_eq hba)
    apply wordAt_congr
    intro j hj
    have haddr : (b + BitVec.ofNat 32 j).toNat = b.toNat + j := Memory.add_ofNat_toNat (by omega)
    apply storeWords_outside
    · change a.toNat + 4 * 1 ≤ 2 ^ 32
      omega
    · change (b + BitVec.ofNat 32 j).toNat < a.toNat ∨
        a.toNat + 4 * 1 ≤ (b + BitVec.ofNat 32 j).toNat
      omega

def magic : Word := 0xdeadbeef

/-- The word at `0x14` is read back at the end, which changes nothing but a
local variable. -/
def lowLevelInit (h : Handlers) (m : Memory) : Memory :=
  let m := poke m 0x00 (ldrPcPc ||| 0x18)
  let m := poke m 0x04 (ldrPcPc ||| 0x18)
  let m := poke m 0x08 (ldrPcPc ||| 0x18)
  let m := poke m 0x0c (ldrPcPc ||| 0x18)
  let m := poke m 0x10 (ldrPcPc ||| 0x18)
  let m := poke m 0x14 magic
  let m := poke m 0x18 (ldrPcPc ||| 0x18)
  let m := poke m 0x1c (ldrPcPc ||| 0x18)
  let m := poke m 0x20 (h .reset)
  let m := poke m 0x24 (h .undef)
  let m := poke m 0x28 (h .swi)
  let m := poke m 0x2c (h .pAbort)
  let m := poke m 0x30 (h .dAbort)
  let m := poke m 0x34 (h .reserved)
  let m := poke m 0x38 (h .irq)
  poke m 0x3c (h .fiq)

def disableAllRegister : Word := 0xff000008

/-- `BSP_init`, with the interrupt controller mapped into memory. -/
def bspInit (h : Handlers) (m : Memory) : Memory :=
  let m := poke m 0x24 (h .undef)
  let m := poke m 0x28 (h .swi)
  let m := poke m 0x2c (h .pAbort)
  let m := poke m 0x30 (h .dAbort)
  let m := poke m 0x34 (h .reserved)
  let m := poke m 0x38 (h .irq)
  let m := poke m 0x3c (h .fiq)
  poke m disableAllRegister 1

/-- From `vectors_start` to `vectors_end` in `startup_c07e1.S`. -/
def vectorTable (h : Handlers) : List Word :=
  [ldrPcPc ||| 0x18, ldrPcPc ||| 0x18, ldrPcPc ||| 0x18, ldrPcPc ||| 0x18, ldrPcPc ||| 0x18,
    branchHere, ldrPcPc ||| 0x14, ldrPcPc ||| 0x14,
    h .reset, h .undef, h .swi, h .pAbort, h .dAbort, h .irq, h .fiq]

/-! ## Where the vectors lead -/

theorem decode_ldrPc (a : Word) :
    decode a (ldrPcPc ||| 0x18) = some (.ldrPc 0x18) ∧
      decode a (ldrPcPc ||| 0x14) = some (.ldrPc 0x14) := ⟨rfl, rfl⟩

theorem vector_sum (a : Word) : a + 8 + 0x18 = a + 0x20 := by
  rw [add_assoc]
  rfl

theorem hooks_secondary {m : Memory} {e : Entry} {handler : Word}
    (hvector : wordAt m e.vector = ldrPcPc ||| 0x18)
    (hword : wordAt m (e.vector + 0x20) = handler) : Hooks m e handler := by
  apply hooks_ldrPc (k := 0x18)
  · rw [vectorCode, hvector, (decode_ldrPc _).1]
  · cases e <;> rfl
  · rw [vector_sum, hword]

section Hooked

variable (h : Handlers) (m : Memory)

theorem lowLevelInit_vector {e : Entry} (he : e ≠ .reserved) :
    wordAt (lowLevelInit h m) e.vector = ldrPcPc ||| 0x18 := by
  cases e <;> simp [lowLevelInit, wordAt_poke, Entry.vector] at he ⊢

theorem lowLevelInit_word (e : Entry) : wordAt (lowLevelInit h m) (e.vector + 0x20) = h e := by
  cases e <;> simp [lowLevelInit, wordAt_poke, Entry.vector]

theorem lowLevelInit_hooks {e : Entry} (he : e ≠ .reserved) : Hooks (lowLevelInit h m) e (h e) :=
  hooks_secondary (lowLevelInit_vector h m he) (lowLevelInit_word h m e)

theorem poke_outside {a b v : Word} (ha : a.toNat ≤ 0x3c) (hb : 0x40 ≤ b.toNat) :
    poke m a v b = m b := by
  apply storeWords_outside
  · change a.toNat + 4 * 1 ≤ 2 ^ 32
    omega
  · change b.toNat < a.toNat ∨ a.toNat + 4 * 1 ≤ b.toNat
    omega

theorem lowLevelInit_outside {b : Word} (hb : 0x40 ≤ b.toNat) : lowLevelInit h m b = m b := by
  simp (disch := first | decide | exact hb) only [lowLevelInit, poke_outside]

theorem bspInit_vector (e : Entry) : wordAt (bspInit h m) e.vector = wordAt m e.vector := by
  cases e <;> simp [bspInit, disableAllRegister, wordAt_poke, Entry.vector]

theorem bspInit_word (e : Entry) : wordAt (bspInit h m) (e.vector + 0x20) =
    if e = .reset then wordAt m 0x20 else h e := by
  cases e <;> simp [bspInit, disableAllRegister, wordAt_poke, Entry.vector]

/-- `BSP_init` hooks every handler again where the table is that of `low_level_init`. -/
theorem bspInit_hooks {m} {e : Entry} (hvector : wordAt m e.vector = ldrPcPc ||| 0x18) :
    Hooks (bspInit h m) e (if e = .reset then wordAt m 0x20 else h e) :=
  hooks_secondary ((bspInit_vector h m e).trans hvector) (bspInit_word h m e)

end Hooked

/-! ## The table of c07e1 -/

section Table

variable {h : Handlers} {m : Memory} (hheld : Holds m 0 (vectorTable h))

include hheld

theorem table_word {j : ℕ} (hj : j < 15) :
    wordAt m (BitVec.ofNat 32 (4 * j)) = (vectorTable h)[j] := by
  have hword := hheld j hj
  rwa [zero_add] at hword

theorem table_irq : vectorCode m Entry.irq.vector = some (.ldrPc 0x14) :=
  (congrArg (decode 0x18) (table_word hheld (j := 6) (by decide))).trans (decode_ldrPc _).2

theorem table_fiq : vectorCode m Entry.fiq.vector = some (.ldrPc 0x14) :=
  (congrArg (decode 0x1c) (table_word hheld (j := 7) (by decide))).trans (decode_ldrPc _).2

/-- The table needs no address: it may be copied to `0` from anywhere. -/
theorem table_hooks {e : Entry} (he : e ≠ .reserved) : Hooks m e (h e) := by
  have hword : ∀ j (hj : j < 15), wordAt m (BitVec.ofNat 32 (4 * j)) = (vectorTable h)[j] :=
    fun _ hj => table_word hheld hj
  cases e with
  | reset => exact hooks_secondary (hword 0 (by decide)) (hword 8 (by decide))
  | undef => exact hooks_secondary (hword 1 (by decide)) (hword 9 (by decide))
  | swi => exact hooks_secondary (hword 2 (by decide)) (hword 10 (by decide))
  | pAbort => exact hooks_secondary (hword 3 (by decide)) (hword 11 (by decide))
  | dAbort => exact hooks_secondary (hword 4 (by decide)) (hword 12 (by decide))
  | reserved => exact absurd rfl he
  | irq => exact hooks_ldrPc (table_irq hheld) rfl (hword 13 (by decide))
  | fiq => exact hooks_ldrPc (table_fiq hheld) rfl (hword 14 (by decide))

/-- Where `BSP_init` leaves the vectors of this table, whose last words lie one
vector further down. -/
def misled (h : Handlers) : Handlers
  | .irq => h .reserved
  | .fiq => h .irq
  | e => h e

theorem bspInit_misleads {e : Entry} (he : e ≠ .reserved) : Hooks (bspInit h m) e (misled h e) := by
  have hword : ∀ j (hj : j < 15), wordAt m (BitVec.ofNat 32 (4 * j)) = (vectorTable h)[j] :=
    fun _ hj => table_word hheld hj
  have hcode : ∀ f : Entry, vectorCode (bspInit h m) f.vector = vectorCode m f.vector :=
    fun f => congrArg (decode f.vector) (bspInit_vector h m f)
  cases e with
  | reset =>
      have hreset := bspInit_hooks h (e := .reset) (hword 0 (by decide))
      have hkept : wordAt m 0x20 = h .reset := hword 8 (by decide)
      rwa [if_pos rfl, hkept] at hreset
  | undef => exact bspInit_hooks h (hword 1 (by decide))
  | swi => exact bspInit_hooks h (hword 2 (by decide))
  | pAbort => exact bspInit_hooks h (hword 3 (by decide))
  | dAbort => exact bspInit_hooks h (hword 4 (by decide))
  | reserved => exact absurd rfl he
  | irq => exact hooks_ldrPc ((hcode .irq).trans (table_irq hheld)) rfl (bspInit_word h m .reserved)
  | fiq => exact hooks_ldrPc ((hcode .fiq).trans (table_fiq hheld)) rfl (bspInit_word h m .irq)

end Table

end Goldfish.Exceptions
