import Goldfish.Exceptions.Service
import Mathlib.Logic.Relation

/-!
# Interrupts at every instruction

The processor executes the code of `arm_exc.S`, or code in C: the program
and, once an interrupt has called them, `BSP_irq` and `BSP_fiq`. Of the code
in C only the discipline of the procedure call standard is assumed. Between
any two instructions an interrupt that is not masked can be taken.
-/

namespace Goldfish.Exceptions

open Processor
open Arm (Word Memory wordAt)

/-- The addresses the linker gives. -/
structure Symbols where
  armIrq : Word
  bspIrq : Word
  bspFiq : Word

namespace Symbols

def handler (l : Symbols) : Interrupt → Word
  | .irq => l.bspIrq
  | .fiq => l.bspFiq

def service (l : Symbols) : Interrupt → List Instr
  | .irq => Exceptions.armIrq l.bspIrq
  | .fiq => armFiq l.bspFiq

/-- `ARM_fiq` lies behind `ARM_irq`. -/
def fastcode (l : Symbols) : List Instr := l.service .irq ++ l.service .fiq

def serviceAddress (l : Symbols) : Interrupt → Word
  | .irq => l.armIrq
  | .fiq => l.armIrq + 104

/-- The vectors hold `LDR pc,[pc,#0x18]`. -/
def fetch (l : Symbols) (pc : Word) : Option Instr :=
  if pc = Exception.irq.vector ∨ pc = Exception.fiq.vector then some (.ldrPc 0x18)
  else codeAt l.armIrq l.fastcode pc

/-- The words that the vectors load. -/
def Hooked (l : Symbols) (m : Memory) : Prop :=
  wordAt m 0x38 = l.serviceAddress .irq ∧ wordAt m 0x3c = l.serviceAddress .fiq

end Symbols

structure Image extends Symbols where
  clear : 0x40 ≤ armIrq.toNat
  fits : armIrq.toNat + 204 ≤ 2 ^ 32
  irqOutside : toSymbols.fetch (bspIrq &&& ~~~1) = none
  fiqOutside : toSymbols.fetch (bspFiq &&& ~~~1) = none

/-- A context that an interrupt has interrupted, with the registers at the
call of the handler once it is called. -/
structure Suspended where
  interrupt : Interrupt
  core : Core
  called : Option Core

namespace Suspended

def top (x : Suspended) : ℕ := (x.core.regs .usr .sp).toNat

/-- The bytes of the frame. -/
def InFrame (x : Suspended) (a : Word) : Prop := x.top ≤ a.toNat + 32 ∧ a.toNat < x.top

end Suspended

/-- The innermost suspended context comes first. -/
structure State where
  machine : Machine
  suspended : List Suspended

namespace State

def exec (s : State) (i : Instr) : State where
  machine := i.exec s.machine
  suspended :=
    match i with
    | .bx _ => s.suspended.modifyHead fun x => { x with called := some (i.exec s.machine).core }
    | .movsPc => s.suspended.tail
    | _ => s.suspended

def take (s : State) (e : Interrupt) : State where
  machine := ⟨e.exception.enter s.machine.core, s.machine.mem⟩
  suspended := ⟨e, s.machine.core, none⟩ :: s.suspended

end State

/-! ## The code in C -/

/-- The bytes that the interrupts that can come need on the stack. -/
def stackNeed (p : Psr) : ℕ :=
  if p.irqMasked then if p.fiqMasked then 0 else 32 else 64

/-- Whatever interrupts it, the code in C has a word address in `sp` and room
for the frames between it and the vectors. -/
structure Steady (s : Core) : Prop where
  aligned : (s.regs .usr .sp).toNat % 4 = 0
  room : 0x40 + stackNeed s.cpsr ≤ (s.regs .usr .sp).toNat

structure Client (l : Symbols) (s : Core) : Prop where
  outside : l.fetch s.pc = none
  mode : s.bank ≠ .irq ∧ s.bank ≠ .fiq
  steady : Steady s

/-- A handler stays below its frame, and `BSP_fiq` must never enable interrupts. -/
structure Under (x : Suspended) (s : Core) : Prop where
  below : (s.regs .usr .sp).toNat + 32 ≤ x.top
  masked : x.interrupt = .fiq → Masked s.cpsr

/-- The code in C leaves the banks of the interrupts, the vectors and the
frames alone. -/
structure Allowed (suspended : List Suspended) (m m' : Machine) : Prop where
  regs : ∀ b, b = .irq ∨ b = .fiq → m'.core.regs b = m.core.regs b
  spsr : ∀ b, b = .irq ∨ b = .fiq → m'.core.spsr b = m.core.spsr b
  vectors : ∀ a : Word, a.toNat < 0x40 → m'.mem a = m.mem a
  frames : ∀ x ∈ suspended, ∀ a, x.InFrame a → m'.mem a = m.mem a

/-- What the procedure call standard says of a return, in system mode. -/
structure Returned (x : Suspended) (h s : Core) : Prop where
  pc : s.pc = h.regs .usr .lr
  thumb : s.cpsr.thumb = false
  mode : s.mode = systemMode
  sp : s.regs .usr .sp = h.regs .usr .sp
  saved : ∀ r ∈ [Reg.r4, .r5, .r6, .r7, .r8, .r9, .r10, .r11], s.regs .usr r = h.regs .usr r
  banks : ∀ b, b ≠ .usr → b ≠ .irq → b ≠ .fiq → s.regs b = h.regs b
  spsr : ∀ b, b ≠ .irq → b ≠ .fiq → s.spsr b = h.spsr b
  room : 0x40 + stackNeed s.cpsr ≤ (s.regs .usr .sp).toNat
  masked : x.interrupt = .fiq → Masked s.cpsr

inductive Step (l : Image) : State → State → Prop
  | exec {s : State} {i : Instr} (hfetch : l.fetch s.machine.core.pc = some i) :
      Step l s (s.exec i)
  | take {s : State} (e : Interrupt) (hmasked : e.masked s.machine.core.cpsr = false) :
      Step l s (s.take e)
  | run {s : State} {m : Machine} (hfetch : l.fetch s.machine.core.pc = none)
      (hallowed : Allowed s.suspended s.machine m) (hclient : Client l.toSymbols m.core)
      (hunder : ∀ x ∈ s.suspended.head?, Under x m.core) : Step l s ⟨m, s.suspended⟩
  | ret {s : State} {m : Machine} {x : Suspended} {rest : List Suspended} {h : Core}
      (hfetch : l.fetch s.machine.core.pc = none) (hx : s.suspended = x :: rest)
      (hcalled : x.called = some h) (hallowed : Allowed s.suspended s.machine m)
      (hreturned : Returned x h m.core) : Step l s ⟨m, s.suspended⟩

def Reachable (l : Image) : State → State → Prop := Relation.ReflTransGen (Step l)

/-- The program runs, and no interrupt has been taken yet. -/
structure Initial (l : Image) (s : State) : Prop where
  hooked : l.Hooked s.machine.mem
  client : Client l.toSymbols s.machine.core
  suspended : s.suspended = []

/-! ## Where the instructions lie -/

section Fetch

variable (l : Image) (e : Interrupt)

theorem service_split : l.service e = entryCode e (l.handler e) ++ (l.service e).drop 15 := by
  cases e with
  | irq => rfl
  | fiq => rfl

theorem exists_fastcode {j : ℕ} (hj : j < (l.service e).length) : ∃ k < 51,
    l.serviceAddress e + BitVec.ofNat 32 (4 * j) = l.armIrq + BitVec.ofNat 32 (4 * k) ∧
      l.fastcode[k]? = (l.service e)[j]? := by
  cases e with
  | irq =>
      have hlt : j < 26 := hj
      exact ⟨j, by omega, rfl, List.getElem?_append_left hj⟩
  | fiq =>
      have hlt : j < 25 := hj
      refine ⟨26 + j, by omega, ?_, ?_⟩
      · rw [Nat.mul_add]
        exact Words.add_ofNat_add l.armIrq 104 (4 * j)
      · rw [Symbols.fastcode, List.getElem?_append_right (Nat.le_add_right 26 j)]
        exact congrArg ((l.service .fiq)[·]?) (Nat.add_sub_cancel_left 26 j)

/-- The instruction `j` of the code of `e`. -/
theorem fetch_service {j : ℕ} (hj : j < (l.service e).length) :
    l.fetch (l.serviceAddress e + BitVec.ofNat 32 (4 * j)) = (l.service e)[j]? := by
  obtain ⟨k, hk, haddr, hcode⟩ := exists_fastcode l e hj
  have hclear := l.clear
  have hfits := l.fits
  have hpc : (l.armIrq + BitVec.ofNat 32 (4 * k)).toNat = l.armIrq.toNat + 4 * k :=
    Memory.add_ofNat_toNat (by omega)
  have hvector : ∀ v : Word, v.toNat < 0x40 → l.armIrq + BitVec.ofNat 32 (4 * k) ≠ v := by
    rintro v hv rfl
    omega
  rw [haddr, Symbols.fetch, if_neg, codeAt_add l.armIrq (by omega), hcode]
  rintro (h | h)
  · exact hvector _ (by decide) h
  · exact hvector _ (by decide) h

end Fetch

/-! ## The frame on the stack -/

section Frame

variable {c : Core} {m : Memory}

theorem slot_toNat (hroom : 32 ≤ (c.regs .usr .sp).toNat) (n : ℕ) :
    (slot c n).toNat = (c.regs .usr .sp).toNat - 4 * (8 - n) := sub_toNat (by omega)

theorem slot_add {p q : ℕ} (hqp : q ≤ p) (hp : p ≤ 8) :
    slot c q + BitVec.ofNat 32 (4 * (p - q)) = slot c p := by
  have hsplit : 4 * (8 - q) = 4 * (8 - p) + 4 * (p - q) := by omega
  rw [slot, slot, hsplit, Words.ofNat_add, ← sub_sub, sub_add_cancel]

theorem length_pushed {p q : ℕ} (hp : p ≤ 8) : (((frame c).take p).drop q).length = p - q := by
  rw [List.length_drop, List.length_take_of_le (show p ≤ 8 from hp)]

/-- The next words are put below those that are saved already. -/
theorem holds_push {p q : ℕ} (hqp : q ≤ p) (hp : p ≤ 8) (hroom : 32 ≤ (c.regs .usr .sp).toNat)
    (h : Holds m (slot c p) ((frame c).drop p)) :
    Holds (storeWords m (slot c q) (((frame c).take p).drop q)) (slot c q)
      ((frame c).drop q) := by
  have hlt := (c.regs .usr .sp).isLt
  have hlength := length_pushed (c := c) (q := q) hp
  have hdrop : ((frame c).drop p).length = 8 - p := List.length_drop
  have hsplit : (frame c).drop q = ((frame c).take p).drop q ++ (frame c).drop p := by
    have hlen : ((frame c).take p).length = p := List.length_take_of_le hp
    rw [← List.drop_append_of_le_length (hqp.trans_eq hlen.symm), List.take_append_drop]
  have hbelow := slot_toNat hroom q
  have habove := slot_toNat hroom p
  rw [hsplit]
  apply (holds_storeWords m (slot c q) (by rw [hlength]; omega)).append
  rw [hlength, slot_add hqp hp]
  apply h.congr
  · rw [hdrop]
    omega
  · intro b hb _
    apply storeWords_outside
    · rw [hlength]
      omega
    · rw [hlength]
      omega

theorem push_outside {p q : ℕ} (hqp : q ≤ p) (hp : p ≤ 8)
    (hroom : 32 ≤ (c.regs .usr .sp).toNat) {b : Word}
    (hb : b.toNat + 32 < (c.regs .usr .sp).toNat ∨ (c.regs .usr .sp).toNat ≤ b.toNat) :
    storeWords m (slot c q) (((frame c).take p).drop q) b = m b := by
  have hlt := (c.regs .usr .sp).isLt
  have hlength := length_pushed (c := c) (q := q) hp
  have hbelow := slot_toNat hroom q
  apply storeWords_outside
  · rw [hlength]
    omega
  · rw [hlength]
    omega

end Frame

theorem firstSaved_le (j : ℕ) : firstSaved j ≤ 8 := by
  unfold firstSaved
  split_ifs <;> decide

theorem firstSaved_succ_le (j : ℕ) : firstSaved (j + 1) ≤ firstSaved j := by
  unfold firstSaved
  split_ifs <;> omega

theorem firstPushed_le (j : ℕ) : firstPushed j ≤ firstSaved j := by
  unfold firstPushed firstSaved
  split_ifs <;> omega

/-! ## What a service has done so far -/

def exitIndex : Interrupt → ℕ
  | .irq => 16
  | .fiq => 15

theorem service_exit (l : Symbols) (e : Interrupt) :
    (l.service e).drop (exitIndex e) = exit e.mode := by
  cases e with
  | irq => rfl
  | fiq => rfl

/-- The registers and the memory of the service that has interrupted `x`. -/
inductive Serving (l : Image) (m : Memory) (x : Suspended) (s : Core) : Prop
  /-- At the vector. -/
  | vector (hcore : SameOff x.interrupt.volatile (x.interrupt.exception.enter x.core) s)
  | entering (j : ℕ) (hj : j < 15)
      (hcore : SameOff x.interrupt.volatile (entryCore x.interrupt
        (l.serviceAddress x.interrupt) (l.handler x.interrupt) x.core j) s)
      (hheld : Holds m (slot x.core (firstSaved j)) ((frame x.core).drop (firstSaved j)))
  /-- In the handler, called with the registers `h`. -/
  | handling (h : Core) (hcalled : x.called = some h)
      (hrestorable : Restorable x.interrupt x.core h)
      (hlr : h.regs .usr .lr = l.serviceAddress x.interrupt + 60)
      (hclient : Client l.toSymbols s) (hunder : Under x s)
      (hkept : ∀ b, b = .irq ∨ b = .fiq → ¬ x.interrupt.lost b →
        s.regs b = x.core.regs b ∧ s.spsr b = x.core.spsr b)
      (hframe : Holds m (slot x.core 0) (frame x.core))
  /-- Back from the handler, with IRQ and FIQ not masked yet. -/
  | returned (hirq : x.interrupt = .irq) (hpc : s.pc = l.serviceAddress .irq + 60)
      (hrestorable : Restorable x.interrupt x.core s) (hsteady : Steady s)
      (hframe : Holds m (slot x.core 0) (frame x.core))
  | exiting (j : ℕ) (hj : j < 10) (h : Core)
      (hpc : h.pc = l.serviceAddress x.interrupt + BitVec.ofNat 32 (4 * exitIndex x.interrupt))
      (hrestorable : Restorable x.interrupt x.core h) (hmasked : Masked h.cpsr)
      (hframe : Holds m (slot x.core 0) (frame x.core))
      (hcore : s = (runCode ((exit x.interrupt.mode).take j) ⟨h, m⟩).core)

/-- An interrupt is taken only where it is not masked and where the stack has
room for it. -/
structure Taken (x : Suspended) : Prop where
  unmasked : x.interrupt.masked x.core.cpsr = false
  steady : Steady x.core

/-- Every suspended context is either the program or itself a service. -/
def Nested (l : Image) (m : Memory) : Core → List Suspended → Prop
  | s, [] => Client l.toSymbols s
  | s, x :: rest => Taken x ∧ Serving l m x s ∧ Nested l m x.core rest

def Inv (l : Image) (s : State) : Prop :=
  l.Hooked s.machine.mem ∧ Nested l s.machine.mem s.machine.core s.suspended

theorem Taken.room {x : Suspended} (h : Taken x) :
    (x.interrupt = .irq → 0x80 ≤ x.top) ∧ 0x60 ≤ x.top := by
  have hroom := h.steady.room
  have hunmasked := h.unmasked
  cases hx : x.interrupt with
  | irq =>
      have hirq : x.core.cpsr.irqMasked = false := by rwa [hx] at hunmasked
      rw [stackNeed, hirq, if_neg Bool.false_ne_true] at hroom
      exact ⟨fun _ => hroom, le_trans (by decide) hroom⟩
  | fiq =>
      have hfiq : x.core.cpsr.fiqMasked = false := by rwa [hx] at hunmasked
      refine ⟨nofun, ?_⟩
      rw [stackNeed, hfiq] at hroom
      change 0x60 ≤ (x.core.regs .usr .sp).toNat
      split at hroom
      · exact hroom
      · exact le_trans (by decide) hroom

/-- A masked interrupt is not taken. -/
theorem not_masked_of_take {e : Interrupt} {p : Psr} (h : e.masked p = false) : ¬ Masked p := by
  rintro ⟨hirq, hfiq⟩
  cases e with
  | irq => exact Bool.false_ne_true (h.symm.trans hirq)
  | fiq => exact Bool.false_ne_true (h.symm.trans hfiq)

/-- While IRQ is masked only an FIQ is taken, and in an FIQ nothing. -/
theorem Entering.take {e e' : Interrupt} {p : Psr} (h : Entering e p)
    (htake : e'.masked p = false) : e' = .fiq ∧ e = .irq := by
  cases e' with
  | irq => exact absurd (htake.symm.trans h.irqMasked) Bool.false_ne_true
  | fiq =>
      cases e with
      | irq => exact ⟨rfl, rfl⟩
      | fiq => exact absurd (htake.symm.trans (h.fiqMasked rfl)) Bool.false_ne_true

theorem stackNeed_le {p : Psr} (h : p.irqMasked = true) : stackNeed p ≤ 32 := by
  rw [stackNeed, if_pos h]
  split
  · exact Nat.zero_le 32
  · exact le_rfl

theorem enter_usr (e : Interrupt) (c : Core) :
    (e.exception.enter c).regs .usr = c.regs .usr := by
  cases e with
  | irq => rfl
  | fiq => rfl

theorem not_volatile_usr (e : Interrupt) : ¬ e.volatile .usr := nofun

theorem not_lost_usr (e : Interrupt) : ¬ e.lost .usr := by
  rintro (h | h)
  · cases e <;> cases h
  · exact not_volatile_usr e h

section Serving

variable {l : Image} {m m' : Memory} {x : Suspended} {s s' : Core} {e : Interrupt}

theorem entering_steady (hx : Taken x) (hpsr : Entering x.interrupt s.cpsr)
    (htake : e.masked s.cpsr = false) {n : ℕ} (hsp : s.regs .usr .sp = slot x.core n) :
    Steady s ∧ (s.regs .usr .sp).toNat ≤ x.top := by
  have haligned := hx.steady.aligned
  have hroom : 0x80 ≤ x.top := hx.room.1 (hpsr.take htake).2
  have hneed := stackNeed_le hpsr.irqMasked
  have htop : x.top = (x.core.regs .usr .sp).toNat := rfl
  have hvalue : (s.regs .usr .sp).toNat = x.top - 4 * (8 - n) := by
    rw [hsp, slot_toNat (by omega)]
    rfl
  refine ⟨⟨?_, ?_⟩, ?_⟩
  · omega
  · omega
  · omega

theorem Serving.steady (h : Serving l m x s) (hx : Taken x) (htake : e.masked s.cpsr = false) :
    Steady s ∧ (s.regs .usr .sp).toNat ≤ x.top := by
  cases h with
  | vector hcore =>
      have hpsr : Entering x.interrupt s.cpsr := by
        rw [hcore.cpsr]
        exact entering_start x.interrupt x.core
      apply entering_steady hx hpsr htake (n := 8)
      rw [hcore.regs .usr (not_volatile_usr _), enter_usr]
      exact (sub_zero _).symm
  | entering j hj hcore hheld =>
      have hpsr : Entering x.interrupt s.cpsr := by
        rw [hcore.cpsr]
        exact entryCore_entering _ _ _ _ hj
      apply entering_steady hx hpsr htake
      rw [hcore.regs .usr (not_volatile_usr _)]
      exact entryCore_sp _ _ _ _ hj.le
  | handling h hcalled hrestorable hlr hclient hunder hkept hframe =>
      exact ⟨hclient.steady, (Nat.le_add_right _ 32).trans hunder.below⟩
  | returned hirq hpc hrestorable hsteady hframe =>
      refine ⟨hsteady, ?_⟩
      have hroom : 32 ≤ x.top := (show 32 ≤ 0x60 by decide).trans hx.room.2
      rw [hrestorable.sp, slot_toNat hroom]
      exact Nat.sub_le _ _
  | exiting j hj h hpc hrestorable hmasked hframe hcore =>
      rw [hcore] at htake
      exact absurd (exit_masked hj hmasked) (not_masked_of_take htake)

/-- What a service relies on lies in its frame, above its stack pointer. -/
theorem Serving.congr (h : Serving l m x s) (hx : Taken x) (htake : e.masked s.cpsr = false)
    (hkeep : ∀ a, (s.regs .usr .sp).toNat ≤ a.toNat → x.InFrame a → m' a = m a) :
    Serving l m' x s := by
  have hroom : 32 ≤ (x.core.regs .usr .sp).toNat := (show 32 ≤ 0x60 by decide).trans hx.room.2
  have hlt := (x.core.regs .usr .sp).isLt
  have hheld : ∀ n ≤ 8, (s.regs .usr .sp).toNat ≤ (slot x.core n).toNat →
      Holds m (slot x.core n) ((frame x.core).drop n) →
      Holds m' (slot x.core n) ((frame x.core).drop n) := by
    intro n hn hsp hold
    have hlength : ((frame x.core).drop n).length = 8 - n := List.length_drop
    have hslot := slot_toNat hroom n
    have htop : x.top = (x.core.regs .usr .sp).toNat := rfl
    apply hold.congr
    · rw [hlength]
      omega
    · intro b hlow hhigh
      rw [hlength] at hhigh
      apply hkeep b (hsp.trans hlow)
      constructor
      · omega
      · omega
  cases h with
  | vector hcore => exact .vector hcore
  | entering j hj hcore hold =>
      refine .entering j hj hcore (hheld _ (firstSaved_le j) ?_ hold)
      rw [hcore.regs .usr (not_volatile_usr _), entryCore_sp _ _ _ _ hj.le, slot_toNat hroom,
        slot_toNat hroom]
      have hle := firstPushed_le j
      omega
  | handling h hcalled hrestorable hlr hclient hunder hkept hframe =>
      refine .handling h hcalled hrestorable hlr hclient hunder hkept
        (hheld 0 (by decide) ?_ hframe)
      have hbelow : (s.regs .usr .sp).toNat + 32 ≤ (x.core.regs .usr .sp).toNat := hunder.below
      rw [slot_toNat hroom]
      omega
  | returned hirq hpc hrestorable hsteady hframe =>
      refine .returned hirq hpc hrestorable hsteady (hheld 0 (by decide) ?_ hframe)
      rw [hrestorable.sp]
  | exiting j hj h hpc hrestorable hmasked hframe hcore =>
      rw [hcore] at htake
      exact absurd (exit_masked hj hmasked) (not_masked_of_take htake)

theorem sp_congr (h : SameOff e.lost s s') : s'.regs .usr .sp = s.regs .usr .sp := by
  rw [h.regs .usr (not_lost_usr e)]

theorem Steady.congr (h : Steady s) (hs : SameOff e.lost s s') : Steady s' where
  aligned := by
    rw [sp_congr hs]
    exact h.aligned
  room := by
    rw [sp_congr hs, hs.cpsr]
    exact h.room

theorem Client.congr {l : Symbols} (h : Client l s) (hs : SameOff e.lost s s') : Client l s' where
  outside := by
    rw [hs.pc]
    exact h.outside
  mode := by
    rw [hs.bank]
    exact h.mode
  steady := h.steady.congr hs

theorem lost_irq {e : Interrupt} {b : Bank} (h : e.lost b) : Interrupt.irq.lost b := by
  rcases h with rfl | ⟨-, rfl⟩
  · cases e with
    | irq => exact .inl rfl
    | fiq => exact .inr ⟨rfl, rfl⟩
  · exact .inr ⟨rfl, rfl⟩

/-- The banks that a nested interrupt leaves changed are those that the
service it has interrupted does not need. -/
theorem Serving.core_congr (h : Serving l m x s) (htake : e.masked s.cpsr = false)
    (hs : SameOff e.lost s s') : Serving l m x s' := by
  have hentering : Entering x.interrupt s.cpsr → SameOff x.interrupt.volatile s s' := by
    intro hpsr
    obtain ⟨hfiq, hirq⟩ := hpsr.take htake
    apply hs.mono
    rintro b (hb | hb)
    · rw [hirq]
      rw [hfiq] at hb
      exact ⟨rfl, hb⟩
    · rw [hfiq] at hb
      cases hb.1
  cases h with
  | vector hcore =>
      refine .vector (hcore.trans (hentering ?_))
      rw [hcore.cpsr]
      exact entering_start x.interrupt x.core
  | entering j hj hcore hheld =>
      refine .entering j hj (hcore.trans (hentering ?_)) hheld
      rw [hcore.cpsr]
      exact entryCore_entering _ _ _ _ hj
  | handling h hcalled hrestorable hlr hclient hunder hkept hframe =>
      refine .handling h hcalled hrestorable hlr (hclient.congr hs) ?_ ?_ hframe
      · refine ⟨?_, fun hfiq => ?_⟩
        · rw [sp_congr hs]
          exact hunder.below
        · exact absurd (hunder.masked hfiq) (not_masked_of_take htake)
      · intro b hb hlost
        cases hx : x.interrupt with
        | fiq => exact absurd (hunder.masked hx) (not_masked_of_take htake)
        | irq =>
            rw [hx] at hlost
            rcases hb with rfl | rfl
            · exact absurd (.inl rfl) hlost
            · exact absurd (.inr ⟨rfl, rfl⟩) hlost
  | returned hirq hpc hrestorable hsteady hframe =>
      refine .returned hirq (hs.pc.trans hpc) ?_ (hsteady.congr hs) hframe
      have hlost : ∀ b, ¬ x.interrupt.lost b → ¬ e.lost b := by
        intro b hb hlost
        rw [hirq] at hb
        exact hb (lost_irq hlost)
      constructor
      · exact hs.mode.trans hrestorable.mode
      · rw [sp_congr hs, hrestorable.sp]
      · intro r hr
        rw [hs.regs .usr (not_lost_usr e), hrestorable.saved r hr]
      · intro b hb hb'
        rw [hs.regs b (hlost b hb'), hrestorable.banks b hb hb']
      · intro b hb
        rw [hs.spsr b (hlost b hb), hrestorable.spsr b hb]
  | exiting j hj h hpc hrestorable hmasked hframe hcore =>
      rw [hcore] at htake
      exact absurd (exit_masked hj hmasked) (not_masked_of_take htake)

end Serving

/-! ## Stacks of contexts -/

section Nested

variable {l : Image} {m m' : Memory} {s s' : Core} {e : Interrupt} {xs : List Suspended}

theorem Nested.steady (h : Nested l m s xs) (htake : e.masked s.cpsr = false) : Steady s := by
  cases xs with
  | nil => exact Client.steady h
  | cons x rest =>
      obtain ⟨hx, hserving, -⟩ := h
      exact (hserving.steady hx htake).1

theorem Nested.core_congr (h : Nested l m s xs) (htake : e.masked s.cpsr = false)
    (hs : SameOff e.lost s s') : Nested l m s' xs := by
  cases xs with
  | nil => exact Client.congr h hs
  | cons x rest =>
      obtain ⟨hx, hserving, hrest⟩ := h
      exact ⟨hx, hserving.core_congr htake hs, hrest⟩

/-- What is above the stack pointer of a context, and in the frames, is all
that it and the contexts below it need. -/
theorem Nested.mem_congr (h : Nested l m s xs) (htake : e.masked s.cpsr = false)
    (hkeep : ∀ a, (s.regs .usr .sp).toNat ≤ a.toNat → (∃ x ∈ xs, x.InFrame a) → m' a = m a) :
    Nested l m' s xs := by
  induction xs generalizing s e with
  | nil => exact h
  | cons x rest ih =>
      obtain ⟨hx, hserving, hrest⟩ := h
      have hbelow := (hserving.steady hx htake).2
      refine ⟨hx, hserving.congr hx htake ?_, ih hrest hx.unmasked ?_⟩
      · exact fun a ha hframe => hkeep a ha ⟨x, List.mem_cons_self, hframe⟩
      · rintro a ha ⟨y, hy, hframe⟩
        exact hkeep a (hbelow.trans ha) ⟨y, List.mem_cons_of_mem x hy, hframe⟩

theorem Hooked.congr {l : Symbols} (h : l.Hooked m)
    (hkeep : ∀ a : Word, a.toNat < 0x40 → m' a = m a) : l.Hooked m' := by
  have hword : ∀ v : Word, v.toNat + 3 < 0x40 → wordAt m' v = wordAt m v := by
    intro v hv
    apply wordAt_congr
    intro j hj
    apply hkeep
    rw [Memory.add_ofNat_toNat (by omega)]
    omega
  exact ⟨(hword 0x38 (by decide)).trans h.1, (hword 0x3c (by decide)).trans h.2⟩

theorem inv_take {t : State} (h : Inv l t) (htake : e.masked t.machine.core.cpsr = false) :
    Inv l (t.take e) := by
  obtain ⟨hhooked, hnested⟩ := h
  exact ⟨hhooked, ⟨htake, hnested.steady htake⟩, .vector (SameOff.refl _), hnested⟩

end Nested

end Goldfish.Exceptions
