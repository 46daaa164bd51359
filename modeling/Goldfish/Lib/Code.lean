import Goldfish.Lib.Leads
import Goldfish.Lib.Processor

/-!
# Code that lies in memory, and code that is interrupted

A machine executes the instruction at its program counter and stops where
there is none. What happens between two instructions may be anything that the
code cannot see; then it comes to what it would have come to alone.
-/

namespace Processor

open Arm (Word Memory align)
open StateTransition

abbrev Code := Word → Option Instr

def step (code : Code) (m : Machine) : Option Machine :=
  (code m.core.pc).map fun i => i.exec m

/-- The instructions are those from the address `a` upwards. -/
def Lies (code : Code) (a : Word) (is : List Instr) : Prop :=
  ∀ j i, is[j]? = some i → code (a + BitVec.ofNat 32 (4 * j)) = some i

section Lies

variable {code : Code} {a : Word} {is js : List Instr} {i : Instr}

theorem Lies.head (h : Lies code a (i :: is)) : code a = some i := by
  have hfirst := h 0 i rfl
  rwa [Nat.mul_zero, BitVec.add_zero] at hfirst

theorem Lies.tail (h : Lies code a (i :: is)) : Lies code (a + 4) is := by
  intro j k hk
  have hnext := h (j + 1) k hk
  rw [Nat.mul_succ, Nat.add_comm, ← Words.add_ofNat_add] at hnext
  exact hnext

theorem Lies.left (h : Lies code a (is ++ js)) : Lies code a is := by
  intro j k hk
  have hlt : j < is.length := (List.getElem?_eq_some_iff.mp hk).1
  exact h j k ((List.getElem?_append_left hlt).trans hk)

theorem Lies.right (h : Lies code a (is ++ js)) :
    Lies code (a + BitVec.ofNat 32 (4 * is.length)) js := by
  intro j k hk
  have hlater := h (is.length + j) k
    ((List.getElem?_append_right (Nat.le_add_right _ _)).trans (by rwa [Nat.add_sub_cancel_left]))
  rwa [Nat.mul_add, ← Words.add_ofNat_add] at hlater

theorem lies_codeAt (a : Word) {is : List Instr} (h : 4 * is.length ≤ 2 ^ 32) :
    Lies (codeAt a is) a is := by
  intro j i hi
  have hlt : j < is.length := (List.getElem?_eq_some_iff.mp hi).1
  rw [codeAt_add a (by omega), hi]

theorem reaches_exec {m : Machine} (h : code m.core.pc = some i) :
    Reaches (step code) m (i.exec m) :=
  Relation.ReflTransGen.single (by rw [step, h]; rfl)

end Lies

/-- From `m` on the code executes these instructions. -/
def Executes (code : Code) : List Instr → Machine → Prop
  | [], _ => True
  | i :: is, m => code m.core.pc = some i ∧ Executes code is (i.exec m)

/-- Straight code is executed to its last instruction, whatever that is. -/
theorem Lies.executes {code : Code} {a : Word} {is : List Instr} (h : Lies code a is)
    (hstraight : ∀ i ∈ is.dropLast, i.straight) {m : Machine} (hpc : m.core.pc = a) :
    Executes code is m := by
  induction is generalizing a m with
  | nil => trivial
  | cons i is ih =>
      refine ⟨by rw [hpc, h.head], ?_⟩
      cases is with
      | nil => trivial
      | cons j js =>
          have hpc' : (i.exec m).core.pc = a + 4 := by
            rw [exec_pc (hstraight i List.mem_cons_self), hpc]
          exact ih h.tail (fun k hk => hstraight k (List.mem_cons_of_mem i hk)) hpc'

/-- The same when the first instruction reads the control register of the system. -/
theorem Lies.executes_mrc {code : Code} {a v : Word} {rd : Reg} {is : List Instr}
    (h : Lies code a (.mrc rd v :: is)) (hstraight : ∀ i ∈ is.dropLast, i.straight) {m : Machine}
    (hpc : m.core.pc = a) (hmode : m.core.mode ≠ userMode) :
    Executes code (.mrc rd v :: is) m := by
  have hpc' : ((Instr.mrc rd v).exec m).core.pc = a + 4 := by
    rw [exec_mrc hmode, ← hpc]
    rfl
  exact ⟨by rw [hpc, h.head], h.tail.executes hstraight hpc'⟩

theorem Executes.append {code : Code} {is js : List Instr} {m : Machine} (his : Executes code is m)
    (hjs : Executes code js (runCode is m)) : Executes code (is ++ js) m := by
  induction is generalizing m with
  | nil => exact hjs
  | cons i is ih => exact ⟨his.1, ih his.2 hjs⟩

theorem Executes.reaches {code : Code} {is : List Instr} {m : Machine} (h : Executes code is m) :
    Reaches (step code) m (runCode is m) := by
  induction is generalizing m with
  | nil => exact Relation.ReflTransGen.refl
  | cons i is ih => exact (reaches_exec h.1).trans (ih h.2)

/-! ## Privileges -/

/-- The same mode with the same interrupts masked. -/
structure SameMasks (p q : Psr) : Prop where
  irqMasked : q.irqMasked = p.irqMasked
  fiqMasked : q.fiqMasked = p.fiqMasked
  mode : q.mode = p.mode

theorem SameMasks.refl (p : Psr) : SameMasks p p := ⟨rfl, rfl, rfl⟩

theorem SameMasks.trans {p q r : Psr} (hpq : SameMasks p q) (hqr : SameMasks q r) :
    SameMasks p r where
  irqMasked := hqr.irqMasked.trans hpq.irqMasked
  fiqMasked := hqr.fiqMasked.trans hpq.fiqMasked
  mode := hqr.mode.trans hpq.mode

theorem SameMasks.of_control (p q : Psr) : SameMasks p (q.withControl p.control) := by
  obtain ⟨hirq, hfiq, -⟩ := Psr.mask_bits p.irqMasked p.fiqMasked p.thumb
  exact ⟨(p.control_getLsbD 2).trans hirq, (p.control_getLsbD 1).trans hfiq, p.control_mode⟩

/-- What comes from an exception or leads to one. -/
def Instr.leaves : Instr → Bool
  | swi | movsPc | ldmReturn _ _ | mrc _ _ => true
  | cond _ i => i.leaves
  | _ => false

/-- What writes the control field of the status register in a privileged mode. -/
def Instr.privileged : Instr → Bool
  | msr _ | msrControl _ | msrControlReg _ => true
  | mrc _ _ => false
  | cond _ i => i.privileged
  | i => i.leaves

/-- In user mode only exceptions change the mode and what is masked. -/
theorem exec_sameMasks {i : Instr} {m : Machine}
    (hi : m.core.mode ≠ userMode ∧ i.privileged = false ∨
      m.core.mode = userMode ∧ i.leaves = false) :
    SameMasks m.core.cpsr (i.exec m).core.cpsr := by
  induction i with
  | msr rm =>
      obtain ⟨hmode, -⟩ := hi.resolve_left fun h => Bool.noConfusion h.2
      change SameMasks m.core.cpsr (m.core.setStatus _).cpsr
      rw [Core.setStatus, if_pos hmode]
      exact ⟨rfl, rfl, rfl⟩
  | msrControl v =>
      obtain ⟨hmode, -⟩ := hi.resolve_left fun h => Bool.noConfusion h.2
      change SameMasks m.core.cpsr (m.core.setControl v).cpsr
      rw [Core.setControl, if_pos hmode]
      exact SameMasks.refl _
  | msrControlReg rm =>
      obtain ⟨hmode, -⟩ := hi.resolve_left fun h => Bool.noConfusion h.2
      change SameMasks m.core.cpsr (m.core.setControl _).cpsr
      rw [Core.setControl, if_pos hmode]
      exact SameMasks.refl _
  | ldmUser rn rs =>
      have hkeeps := loadInto_keeps (f := Core.cpsr) (g := fun s r v => s.put .usr r v)
        (fun _ _ _ => rfl) m.mem (align (m.core.get rn)) rs m.core
      change SameMasks m.core.cpsr (loadInto _ m.mem (align (m.core.get rn)) rs m.core).cpsr
      rw [hkeeps]
      exact SameMasks.refl _
  | mrc rd v =>
      obtain ⟨hmode, -⟩ := hi.resolve_right fun h => Bool.noConfusion h.2
      rw [exec_mrc hmode]
      exact ⟨rfl, rfl, rfl⟩
  | swi => rcases hi with ⟨-, hi⟩ | ⟨-, hi⟩ <;> cases hi
  | movsPc => rcases hi with ⟨-, hi⟩ | ⟨-, hi⟩ <;> cases hi
  | ldmReturn rn rs => rcases hi with ⟨-, hi⟩ | ⟨-, hi⟩ <;> cases hi
  | cond c i ih =>
      rw [Instr.exec]
      split
      · exact ih hi
      · exact SameMasks.refl _
  | _ => exact ⟨rfl, rfl, rfl⟩

theorem reaches_sameMasks {code : Code} {m t : Machine}
    (hcode : ∀ a i, code a = some i → m.core.mode ≠ userMode ∧ i.privileged = false ∨
      m.core.mode = userMode ∧ i.leaves = false)
    (hreach : Reaches (step code) m t) : SameMasks m.core.cpsr t.core.cpsr := by
  induction hreach with
  | refl => exact SameMasks.refl _
  | tail _ hstep ih =>
      obtain ⟨i, hi, rfl⟩ := Option.map_eq_some_iff.mp hstep
      have hmode : ∀ u : Machine, SameMasks m.core.cpsr u.core.cpsr → u.core.mode = m.core.mode :=
        fun _ hu => hu.mode
      apply ih.trans
      apply exec_sameMasks
      rw [hmode _ ih]
      exact hcode _ i hi

/-! ## Interruptions -/

/-- Code that loads only from `A` and stays out of the banks of `P` cannot
tell the two machines apart. -/
structure Alike (P : Bank → Prop) (A : Set Word) (m m' : Machine) : Prop where
  core : SameOff P m.core m'.core
  mem : ∀ a ∈ A, m'.mem a = m.mem a

/-- The next `n` instructions of the code, with something else happening
before each of them and after the last. -/
inductive Interrupted (code : Code) (D : Machine → Machine → Prop) : ℕ → Machine → Machine → Prop
  | nil {m u : Machine} (h : D m u) : Interrupted code D 0 m u
  | cons {n : ℕ} {i : Instr} {m v u : Machine} (h : D m v) (hfetch : code v.core.pc = some i)
      (hrest : Interrupted code D n (i.exec v) u) : Interrupted code D (n + 1) m u

/-- Executed from `m`, the instructions stay out of `P` and load only from `A`. -/
def Confined (P : Bank → Prop) (A : Set Word) : List Instr → Machine → Prop
  | [], _ => True
  | i :: is, m => ¬ P m.core.bank ∧ (∀ a, i.reads m.core a → a ∈ A) ∧ Confined P A is (i.exec m)

theorem Confined.append {P : Bank → Prop} {A : Set Word} {is js : List Instr} {m : Machine}
    (his : Confined P A is m) (hjs : Confined P A js (runCode is m)) :
    Confined P A (is ++ js) m := by
  induction is generalizing m with
  | nil => exact hjs
  | cons i is ih => exact ⟨his.1, his.2.1, ih his.2.2 hjs⟩

section Alike

variable {P : Bank → Prop} {A : Set Word} {m m' u : Machine}

theorem Alike.refl (m : Machine) : Alike P A m m := ⟨SameOff.refl m.core, fun _ _ => rfl⟩

theorem Alike.trans (h : Alike P A m m') (h' : Alike P A m' u) : Alike P A m u where
  core := h.core.trans h'.core
  mem a ha := (h'.mem a ha).trans (h.mem a ha)

theorem Alike.exec (h : Alike P A m m') (husr : ¬ P .usr) (hbank : ¬ P m.core.bank) {i : Instr}
    (hreads : ∀ a, i.reads m.core a → a ∈ A) : Alike P A (i.exec m) (i.exec m') where
  core := exec_sameOff h.core husr hbank fun a ha => h.mem a (hreads a ha)
  mem a ha := exec_mem_of_sameOff h.core husr hbank i (h.mem a ha)

theorem Alike.run {is : List Instr} (h : Alike P A m m') (husr : ¬ P .usr)
    (hconfined : Confined P A is m) : Alike P A (runCode is m) (runCode is m') := by
  induction is generalizing m m' with
  | nil => exact h
  | cons i is ih => exact ih (h.exec husr hconfined.1 hconfined.2.1) hconfined.2.2

/-- What does not load cannot tell any two memories apart. -/
theorem confined_of_loads {is : List Instr} (h : ∀ i ∈ is, i.loads = false) (m : Machine) :
    Confined (fun _ => False) A is m := by
  induction is generalizing m with
  | nil => trivial
  | cons i is ih =>
      refine ⟨not_false, fun a ha => ?_, ih (fun j hj => h j (List.mem_cons_of_mem i hj)) _⟩
      exact absurd ha (not_reads (h i List.mem_cons_self) m.core a)

/-- Code that is interrupted by what it cannot see comes to what it comes to
alone. -/
theorem Interrupted.alike {code : Code} {is : List Instr} {n : ℕ}
    (h : Interrupted code (Alike P A) n m' u) (husr : ¬ P .usr) (hsame : Alike P A m m')
    (hcode : Executes code is m) (hconfined : Confined P A is m) (hlength : is.length = n) :
    Alike P A (runCode is m) u := by
  induction h generalizing m is with
  | nil h =>
      obtain rfl := List.length_eq_zero_iff.mp hlength
      exact hsame.trans h
  | cons h hfetch _ ih =>
      cases is with
      | nil => cases hlength
      | cons i is =>
          obtain ⟨hnow, hlater⟩ := hcode
          obtain ⟨hbank, hreads, hrest⟩ := hconfined
          have hv := hsame.trans h
          rw [hv.core.pc, hnow] at hfetch
          obtain rfl := Option.some.inj hfetch
          have halone := ih (hv.exec husr hbank hreads) hlater hrest (Nat.succ.inj hlength)
          exact halone

/-- Nothing need happen in between. -/
theorem Executes.interrupted {code : Code} {is : List Instr} (h : Executes code is m) :
    Interrupted code (Alike P A) is.length m (runCode is m) := by
  induction is generalizing m with
  | nil => exact .nil (Alike.refl m)
  | cons i is ih => exact .cons (Alike.refl m) h.1 (ih h.2)

end Alike

/-! ## Registers that code leaves alone -/

/-- The same registers but for those in `rs`, and the same status register
but for the flags. -/
structure SameBut (rs : List Reg) (s t : Core) : Prop where
  regs : ∀ b r, r ∉ rs → t.regs b r = s.regs b r
  spsr : t.spsr = s.spsr
  cpsr : ∃ n z c v, t.cpsr = { s.cpsr with n, z, c, v }

namespace SameBut

variable {rs : List Reg} {s t u : Core}

theorem refl (s : Core) : SameBut rs s s := ⟨fun _ _ _ => rfl, rfl, _, _, _, _, rfl⟩

theorem trans (hst : SameBut rs s t) (htu : SameBut rs t u) : SameBut rs s u where
  regs b r hr := (htu.regs b r hr).trans (hst.regs b r hr)
  spsr := htu.spsr.trans hst.spsr
  cpsr := by
    obtain ⟨n, z, c, v, hcpsr⟩ := htu.cpsr
    obtain ⟨_, _, _, _, hcpsr'⟩ := hst.cpsr
    exact ⟨n, z, c, v, by rw [hcpsr, hcpsr']⟩

theorem mono {rs' : List Reg} (h : SameBut rs s t) (hrs : ∀ r ∈ rs, r ∈ rs') : SameBut rs' s t where
  regs b r hr := h.regs b r fun hin => hr (hrs r hin)
  spsr := h.spsr
  cpsr := h.cpsr

theorem set (h : SameBut rs s t) {r : Reg} (hr : r ∈ rs) (v : Word) : SameBut rs s (t.set r v) where
  regs b q hq := by
    have hne : q ≠ r := fun hqr => hq (hqr ▸ hr)
    rw [Core.set, Core.put_regs, if_neg fun h => hne h.2, h.regs b q hq]
  spsr := h.spsr
  cpsr := h.cpsr

theorem setPc (h : SameBut rs s t) (a : Word) : SameBut rs s (t.setPc a) := ⟨h.regs, h.spsr, h.cpsr⟩

theorem next (h : SameBut rs s t) : SameBut rs s t.next := h.setPc _

theorem compare (h : SameBut rs s t) (a b : Word) : SameBut rs s (t.compare a b) where
  regs := h.regs
  spsr := h.spsr
  cpsr := by
    obtain ⟨_, _, _, _, hcpsr⟩ := h.cpsr
    exact ⟨_, _, _, _, by rw [Core.compare_cpsr, hcpsr]; rfl⟩

theorem test (h : SameBut rs s t) (a : Word) : SameBut rs s (t.test a) where
  regs := h.regs
  spsr := h.spsr
  cpsr := by
    obtain ⟨_, _, _, _, hcpsr⟩ := h.cpsr
    exact ⟨_, _, _, _, by rw [Core.test_cpsr, hcpsr]; rfl⟩

theorem mode (h : SameBut rs s t) : t.mode = s.mode := by
  obtain ⟨_, _, _, _, hcpsr⟩ := h.cpsr
  rw [Core.mode, hcpsr]
  rfl

theorem get (h : SameBut rs s t) {r : Reg} (hr : r ∉ rs) : t.get r = s.get r := by
  rw [Core.get, Core.get, Core.bank, Core.bank, h.mode, h.regs _ r hr]

end SameBut

/-- What writes no registers but those of `rs` and the flags. -/
def Instr.within (rs : List Reg) : Instr → Bool
  | mov rd _ | movPc rd | lsr rd _ _ | alu _ rd _ _ | ldrLit rd _ | ldrAt rd _ | ldr rd _ _
  | ldrDown rd _ _ | mrs rd | mrsSaved rd => rd ∈ rs
  | ldrb rd rn _ | ldmia rn rd => rd ∈ rs ∧ rn ∈ rs
  | strb _ rn _ | stmia rn _ | stmfd rn _ => rn ∈ rs
  | cmp _ _ | teq _ _ | tst _ _ | str _ _ | ldrPc _ | b _ | ret | nop => true
  | bl _ => .lr ∈ rs
  | cond _ i => i.within rs
  | _ => false

theorem exec_sameBut {rs : List Reg} {i : Instr} (hi : i.within rs) (m : Machine) :
    SameBut rs m.core (i.exec m).core := by
  have hrefl : SameBut rs m.core m.core := SameBut.refl m.core
  have hset : ∀ rd, decide (rd ∈ rs) = true → ∀ v, SameBut rs m.core (m.core.set rd v).next :=
    fun rd hrd v => (hrefl.set (of_decide_eq_true hrd) v).next
  induction i with
  | mov rd o => exact hset rd hi _
  | movPc rd => exact hset rd hi _
  | lsr rd rm k => exact hset rd hi _
  | alu f rd rn o => exact hset rd hi _
  | ldrLit rd v => exact hset rd hi _
  | ldrAt rd a => exact hset rd hi _
  | ldr rd rn k => exact hset rd hi _
  | ldrDown rd rn k => exact hset rd hi _
  | mrs rd => exact hset rd hi _
  | mrsSaved rd => exact hset rd hi _
  | strb rd rn k => exact hset rn hi _
  | stmia rn rd => exact hset rn hi _
  | stmfd rn l => exact hset rn hi _
  | ldrb rd rn k =>
      obtain ⟨hrd, hrn⟩ := of_decide_eq_true hi
      exact ((hrefl.set hrd _).set hrn _).next
  | ldmia rn rd =>
      obtain ⟨hrd, hrn⟩ := of_decide_eq_true hi
      exact ((hrefl.set hrd _).set hrn _).next
  | cmp rn o => exact (hrefl.compare _ _).next
  | teq rn o => exact (hrefl.test _).next
  | tst rn o => exact (hrefl.test _).next
  | str rd rn => exact hrefl.next
  | ldrPc k => exact hrefl.setPc _
  | b a => exact hrefl.setPc a
  | bl a => exact (hrefl.set (of_decide_eq_true hi) _).setPc a
  | ret => exact hrefl.setPc _
  | nop => exact hrefl.next
  | cond c i ih =>
      rw [Instr.exec]
      split
      · exact ih hi
      · exact hrefl.next
  | _ => exact Bool.noConfusion hi

theorem runCode_sameBut {rs : List Reg} {is : List Instr} (h : ∀ i ∈ is, i.within rs)
    (m : Machine) : SameBut rs m.core (runCode is m).core := by
  induction is generalizing m with
  | nil => exact SameBut.refl m.core
  | cons i is ih =>
      have hfirst := exec_sameBut (h i List.mem_cons_self) m
      exact hfirst.trans (ih (fun j hj => h j (List.mem_cons_of_mem i hj)) (i.exec m))

end Processor
