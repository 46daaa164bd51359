import Goldfish.Startup.Reset

/-!
# Before main

`_cstartup` of `startup.S` copies what is linked to run from RAM, clears
`.bss`, fills the stacks and gives every mode its stack pointer.
-/

namespace Goldfish.Startup

open Processor Exceptions
open Arm (Word Memory align)
open StateTransition

/-! ## Sections -/

/-- `LDR r0`, `LDR r1`, `LDR r2` and the loop behind them. -/
def copySection (load start stop a : Word) : List Instr :=
  [.ldrLit .r0 load, .ldrLit .r1 start, .ldrLit .r2 stop] ++ copyLoop .r0 .r1 (a + 12)

/-- `value` puts the word into `r3` that the section is filled with. -/
def fillSection (start stop : Word) (value : Instr) (a : Word) : List Instr :=
  [.ldrLit .r1 start, .ldrLit .r2 stop, value] ++ fillLoop (a + 12)

/-- A section in the lower half of the address space, of whole words. -/
structure Area (start stop : Word) (n : ℕ) : Prop where
  startAligned : start.toNat % 4 = 0
  size : stop.toNat = start.toNat + 4 * n
  limit : stop.toNat + 3 < 2 ^ 31

/-- The words `vs` lie at `load`, off the section they are copied to. -/
structure Loaded (load start : Word) (vs : List Word) (m : Memory) : Prop where
  loadAligned : load.toNat % 4 = 0
  fits : load.toNat + 4 * vs.length ≤ 2 ^ 32
  holds : Holds m load vs
  apart : load.toNat + 4 * vs.length ≤ start.toNat ∨ start.toNat + 4 * vs.length ≤ load.toNat

section Sections

variable {code : Code} {a load start stop v : Word} {vs : List Word} {n : ℕ} {m : Machine}

theorem Area.wordsTo_eq (h : Area start stop n) : n = wordsTo start stop := by
  have hsize := h.size
  rw [wordsTo]
  omega

theorem copySection_reaches (hlies : Lies code a (copySection load start stop a))
    (harea : Area start stop vs.length) (hloaded : Loaded load start vs m.mem)
    (hpc : m.core.pc = a) :
    ∃ t, Reaches (step code) m t ∧ t.core.pc = a + 28 ∧
      SameBut [.r0, .r1, .r2, .r3] m.core t.core ∧ t.mem = storeWords m.mem start vs := by
  obtain ⟨u, hu⟩ : ∃ u, u = runCode [.ldrLit .r0 load, .ldrLit .r1 start, .ldrLit .r2 stop] m :=
    ⟨_, rfl⟩
  have hfirst : Reaches (step code) m u := by
    rw [hu]
    exact (hlies.left.executes (by simp [Instr.straight]) hpc).reaches
  have hsame : SameBut [.r0, .r1, .r2, .r3] m.core u.core := by
    rw [hu]
    exact runCode_sameBut (by simp [Instr.within]) m
  have hr0 : u.core.get .r0 = load := by simp [hu, Instr.exec, Core.next, Core.get_set]
  have hr1 : u.core.get .r1 = start := by simp [hu, Instr.exec, Core.next, Core.get_set]
  have hr2 : u.core.get .r2 = stop := by simp [hu, Instr.exec, Core.next, Core.get_set]
  have hmem : u.mem = m.mem := by simp [hu, Instr.exec]
  have hupc : u.core.pc = a + 12 := by
    rw [hu, runCode_pc (by simp [Instr.straight]), hpc]
    rfl
  have hsize := harea.size
  have hlimit := harea.limit
  have hcopyable : Copyable .r0 .r1 vs u := by
    refine ⟨.inr ⟨rfl, rfl⟩, ?_, ?_, ?_, ?_, ?_, ?_, ?_, ?_, ?_⟩
    · rw [hr1, hr2]
      exact harea.wordsTo_eq
    · rw [hr1]
      omega
    · rwa [hr2]
    · rw [hr0]
      exact hloaded.loadAligned
    · rw [hr1]
      exact harea.startAligned
    · rw [hr0]
      exact hloaded.fits
    · rw [hr1]
      omega
    · rw [hr0, hmem]
      exact hloaded.holds
    · have hapart := hloaded.apart
      rw [hr0, hr1]
      omega
  obtain ⟨t, hcopy, htpc, htsame, htmem⟩ := hcopyable.copies hlies.right hupc
  refine ⟨t, hfirst.trans hcopy, ?_, hsame.trans (htsame.mono (by simp)), ?_⟩
  · rw [htpc, add_assoc]
    rfl
  · rw [htmem, hmem, hr1]

/-- What `value` is like. -/
structure Puts (value : Instr) (v : Word) : Prop where
  straight : value.straight
  within : value.within [.r3]
  stores : value.stores = false
  put : ∀ m : Machine, (value.exec m).core.get .r3 = v

theorem puts_mov (v : Word) : Puts (.mov .r3 (.imm v)) v :=
  ⟨rfl, rfl, rfl, fun m => by simp [Instr.exec, Core.next, Core.get_set, Operand.value]⟩

theorem puts_ldrLit (v : Word) : Puts (.ldrLit .r3 v) v :=
  ⟨rfl, rfl, rfl, fun m => by simp [Instr.exec, Core.next, Core.get_set]⟩

theorem fillSection_reaches {value : Instr} (hlies : Lies code a (fillSection start stop value a))
    (hvalue : Puts value v) (harea : Area start stop n) (hpc : m.core.pc = a) :
    ∃ t, Reaches (step code) m t ∧ t.core.pc = a + 24 ∧
      SameBut [.r0, .r1, .r2, .r3] m.core t.core ∧
      t.mem = storeWords m.mem start (.replicate n v) := by
  obtain ⟨w, hw⟩ : ∃ w, w = runCode [.ldrLit .r1 start, .ldrLit .r2 stop] m := ⟨_, rfl⟩
  obtain ⟨u, hu⟩ : ∃ u, u = value.exec w := ⟨_, rfl⟩
  have hrun : u = runCode [.ldrLit .r1 start, .ldrLit .r2 stop, value] m := by
    rw [hu, hw]
    rfl
  have hstraight : ∀ i ∈ [Instr.ldrLit .r1 start, .ldrLit .r2 stop, value], i.straight := by
    simp [Instr.straight, hvalue.straight]
  have hfirst : Reaches (step code) m u := by
    rw [hrun]
    exact (hlies.left.executes (fun i hi => hstraight i (List.mem_of_mem_dropLast hi)) hpc).reaches
  have hlast : SameBut [.r3] w.core u.core := by
    rw [hu]
    exact exec_sameBut hvalue.within w
  have hsame : SameBut [.r0, .r1, .r2, .r3] m.core w.core := by
    rw [hw]
    exact runCode_sameBut (by simp [Instr.within]) m
  have hr1 : u.core.get .r1 = start := by
    rw [hlast.get (by decide), hw]
    simp [Instr.exec, Core.next, Core.get_set]
  have hr2 : u.core.get .r2 = stop := by
    rw [hlast.get (by decide), hw]
    simp [Instr.exec, Core.next, Core.get_set]
  have hr3 : u.core.get .r3 = v := by
    rw [hu]
    exact hvalue.put w
  have hmem : u.mem = m.mem := by
    rw [hrun]
    exact runCode_mem (by simp [Instr.stores, hvalue.stores]) m
  have hupc : u.core.pc = a + 12 := by
    rw [hrun, runCode_pc hstraight, hpc]
    rfl
  have hlimit := harea.limit
  have hsize := harea.size
  have hfillable : Fillable n u := by
    refine ⟨?_, ?_, ?_, ?_⟩
    · rw [hr1, hr2]
      exact harea.wordsTo_eq
    · rw [hr1]
      omega
    · rwa [hr2]
    · rw [hr1]
      exact harea.startAligned
  obtain ⟨t, hfill, htpc, htsame, htmem⟩ := hfillable.fills hlies.right hupc
  refine ⟨t, hfirst.trans hfill, ?_, ?_, ?_⟩
  · rw [htpc, add_assoc]
    rfl
  · exact hsame.trans ((hlast.mono (by simp)).trans (htsame.mono (by simp)))
  · rw [htmem, hmem, hr1, hr3]

end Sections

/-! ## Stack pointers -/

def bankOf (c : BitVec 8) : Bank := .ofMode (c.setWidth 5)

/-- `MSR CPSR_c` and `LDR sp` for each mode. -/
def setStacks (tops : List (BitVec 8 × Word)) : List Instr :=
  tops.flatMap fun p => [.msrControl p.1, .ldrLit .sp p.2]

section Stacks

variable {m : Machine} {p : BitVec 8 × Word} {tops : List (BitVec 8 × Word)}

theorem setStack_cpsr (hm : m.core.mode ≠ Processor.userMode) :
    (runCode [.msrControl p.1, .ldrLit .sp p.2] m).core.cpsr = m.core.cpsr.withControl p.1 := by
  simp [Instr.exec, Core.setControl_of_ne hm, Core.next]

theorem setStack_regs (hm : m.core.mode ≠ Processor.userMode) (b : Bank) (r : Reg) :
    (runCode [.msrControl p.1, .ldrLit .sp p.2] m).core.regs b r =
      if b = bankOf p.1 ∧ r = .sp then p.2 else m.core.regs b r := by
  have hset : (runCode [.msrControl p.1, .ldrLit .sp p.2] m).core.regs =
      (({ m.core with cpsr := m.core.cpsr.withControl p.1 } : Core).put
        (bankOf p.1) .sp p.2).regs := by
    simp [Instr.exec, Core.setControl_of_ne hm, Core.next, Core.set, Core.bank, Core.mode, Reg.home,
      bankOf, Psr.withControl]
    rfl
  rw [hset, Core.put_regs]

theorem setStack_mode (hm : m.core.mode ≠ Processor.userMode) :
    (runCode [.msrControl p.1, .ldrLit .sp p.2] m).core.mode = p.1.setWidth 5 := by
  rw [Core.mode, setStack_cpsr hm]
  rfl

theorem setStacks_cons (p : BitVec 8 × Word) (tops : List (BitVec 8 × Word)) (m : Machine) :
    runCode (setStacks (p :: tops)) m =
      runCode (setStacks tops) (runCode [.msrControl p.1, .ldrLit .sp p.2] m) := by
  rw [setStacks, List.flatMap_cons, runCode_append]
  rfl

theorem mem_setStacks {i : Instr} (hi : i ∈ setStacks tops) :
    ∃ p ∈ tops, i = .msrControl p.1 ∨ i = .ldrLit .sp p.2 := by
  obtain ⟨p, hp, hi⟩ := List.mem_flatMap.mp hi
  simp only [List.mem_cons, List.not_mem_nil, or_false] at hi
  exact ⟨p, hp, hi⟩

theorem setStacks_straight : ∀ i ∈ setStacks tops, i.straight := by
  intro i hi
  obtain ⟨p, -, rfl | rfl⟩ := mem_setStacks hi
  · rfl
  · rfl

theorem setStacks_mem : (runCode (setStacks tops) m).mem = m.mem := by
  apply runCode_mem
  intro i hi
  obtain ⟨p, -, rfl | rfl⟩ := mem_setStacks hi
  · rfl
  · rfl

theorem setStacks_mode_ne (hm : m.core.mode ≠ Processor.userMode)
    (htops : ∀ p ∈ tops, p.1.setWidth 5 ≠ Processor.userMode) :
    (runCode (setStacks tops) m).core.mode ≠ Processor.userMode := by
  induction tops generalizing m with
  | nil => exact hm
  | cons p tops ih =>
      rw [setStacks_cons]
      apply ih
      · rw [setStack_mode hm]
        exact htops p List.mem_cons_self
      · exact fun q hq => htops q (List.mem_cons_of_mem p hq)

theorem setStacks_other (hm : m.core.mode ≠ Processor.userMode)
    (htops : ∀ p ∈ tops, p.1.setWidth 5 ≠ Processor.userMode) {b : Bank} {r : Reg}
    (h : r = .sp → b ∉ tops.map fun p => bankOf p.1) :
    (runCode (setStacks tops) m).core.regs b r = m.core.regs b r := by
  induction tops generalizing m with
  | nil => rfl
  | cons p tops ih =>
      have hmode : (runCode [.msrControl p.1, .ldrLit .sp p.2] m).core.mode ≠
          Processor.userMode := by
        rw [setStack_mode hm]
        exact htops p List.mem_cons_self
      have hnot : ¬ (b = bankOf p.1 ∧ r = .sp) := by
        rintro ⟨rfl, hr⟩
        exact h hr List.mem_cons_self
      rw [setStacks_cons, ih hmode (fun q hq => htops q (List.mem_cons_of_mem p hq))
        fun hr hin => h hr (List.mem_cons_of_mem _ hin), setStack_regs hm, if_neg hnot]

/-- Every mode has its own stack pointer in the end. -/
theorem setStacks_sp (hm : m.core.mode ≠ Processor.userMode)
    (htops : ∀ p ∈ tops, p.1.setWidth 5 ≠ Processor.userMode)
    (hnodup : (tops.map fun p => bankOf p.1).Nodup) (hp : p ∈ tops) :
    (runCode (setStacks tops) m).core.regs (bankOf p.1) .sp = p.2 := by
  induction tops generalizing m with
  | nil => cases hp
  | cons q tops ih =>
      have hmode : (runCode [.msrControl q.1, .ldrLit .sp q.2] m).core.mode ≠
          Processor.userMode := by
        rw [setStack_mode hm]
        exact htops q List.mem_cons_self
      have hrest : ∀ q ∈ tops, q.1.setWidth 5 ≠ Processor.userMode :=
        fun q' hq => htops q' (List.mem_cons_of_mem q hq)
      obtain ⟨hfirst, hnodup'⟩ := List.nodup_cons.mp hnodup
      rw [setStacks_cons]
      rcases List.mem_cons.mp hp with rfl | hp
      · rw [setStacks_other hmode hrest fun _ => hfirst, setStack_regs hm, if_pos ⟨rfl, rfl⟩]
      · exact ih hmode hrest hnodup' hp

/-- The last mode is the one the code goes on in. -/
theorem setStacks_last (hm : m.core.mode ≠ Processor.userMode)
    (htops : ∀ p ∈ tops, p.1.setWidth 5 ≠ Processor.userMode) :
    ∃ q, (runCode (setStacks (tops ++ [p])) m).core.cpsr = Psr.withControl q p.1 := by
  have hsplit : runCode (setStacks (tops ++ [p])) m =
      runCode [.msrControl p.1, .ldrLit .sp p.2] (runCode (setStacks tops) m) := by
    rw [setStacks, List.flatMap_append, runCode_append]
    rfl
  exact ⟨_, by rw [hsplit, setStack_cpsr (setStacks_mode_ne hm htops)]⟩

end Stacks

/-! ## The whole code -/

def stackFill : Word := 0xaaaaaaaa

def abtMode : BitVec 8 := 0x17
def undMode : BitVec 8 := 0x1b

/-- What the linker gives. -/
structure RomSymbols where
  cstartup : Word
  fastcodeLoad : Word
  fastcodeStart : Word
  fastcodeEnd : Word
  dataLoad : Word
  dataStart : Word
  edata : Word
  bssStart : Word
  bssEnd : Word
  stackStart : Word
  stackEnd : Word
  irqStackTop : Word
  fiqStackTop : Word
  svcStackTop : Word
  abtStackTop : Word
  undStackTop : Word
  cStackTop : Word
  version : Word
  main : Word

namespace RomSymbols

variable (y : RomSymbols)

def stackTops : List (BitVec 8 × Word) :=
  [(Exceptions.irqMode ||| noInt, y.irqStackTop), (Exceptions.fiqMode ||| noInt, y.fiqStackTop),
    (svcMode ||| noInt, y.svcStackTop), (abtMode ||| noInt, y.abtStackTop),
    (undMode ||| noInt, y.undStackTop), (sysMode ||| noInt, y.cStackTop)]

/-- What is written before the stack pointers are set. -/
def sections : List (Word × Word) :=
  [(y.fastcodeStart, y.fastcodeEnd), (y.dataStart, y.edata), (y.bssStart, y.bssEnd),
    (y.stackStart, y.stackEnd)]

def callMain : List Instr :=
  [.mov .r0 (.imm 1), .ldrLit .r1 y.version, .ldrLit .r12 y.main, .movPc .lr, .bx .r12]

/-- `_cstartup`, up to the return of `main`. -/
def cstartupCode : List Instr :=
  copySection y.fastcodeLoad y.fastcodeStart y.fastcodeEnd y.cstartup ++
    copySection y.dataLoad y.dataStart y.edata (y.cstartup + 28) ++
    fillSection y.bssStart y.bssEnd (.mov .r3 (.imm 0)) (y.cstartup + 56) ++
    fillSection y.stackStart y.stackEnd (.ldrLit .r3 stackFill) (y.cstartup + 80) ++
    setStacks y.stackTops ++ y.callMain

theorem forall_sections {P : Word × Word → Prop} : (∀ p ∈ y.sections, P p) ↔
    P (y.fastcodeStart, y.fastcodeEnd) ∧ P (y.dataStart, y.edata) ∧ P (y.bssStart, y.bssEnd) ∧
      P (y.stackStart, y.stackEnd) := by
  simp [sections]

end RomSymbols

/-- The sections of RAM lie one behind the other, and what is copied to them
lies off all of them. -/
structure RomLinked (y : RomSymbols) (fastcode data : List Word) (bss stack : ℕ) (m : Memory) :
    Prop where
  fastcodeArea : Area y.fastcodeStart y.fastcodeEnd fastcode.length
  dataArea : Area y.dataStart y.edata data.length
  bssArea : Area y.bssStart y.bssEnd bss
  stackArea : Area y.stackStart y.stackEnd stack
  dataBehind : y.fastcodeEnd.toNat ≤ y.dataStart.toNat
  bssBehind : y.edata.toNat ≤ y.bssStart.toNat
  stackBehind : y.bssEnd.toNat ≤ y.stackStart.toNat
  fastcodeLoaded : Loaded y.fastcodeLoad y.fastcodeStart fastcode m
  dataLoaded : Loaded y.dataLoad y.dataStart data m
  dataApart : y.dataLoad.toNat + 4 * data.length ≤ y.fastcodeStart.toNat ∨
    y.fastcodeEnd.toNat ≤ y.dataLoad.toNat

/-- What `main` starts from. -/
structure ReadyForMain (y : RomSymbols) (fastcode data : List Word) (bss stack : ℕ)
    (m u : Machine) : Prop where
  pc : u.core.pc = y.main &&& ~~~1
  argc : u.core.get .r0 = 1
  argv : u.core.get .r1 = y.version
  lr : u.core.get .lr = y.cstartup + 172
  mode : u.core.mode = systemMode
  masked : u.core.cpsr.irqMasked = true ∧ u.core.cpsr.fiqMasked = true
  stackPointers : ∀ p ∈ y.stackTops, u.core.regs (bankOf p.1) .sp = p.2
  fastcode : Holds u.mem y.fastcodeStart fastcode
  data : Holds u.mem y.dataStart data
  bss : Holds u.mem y.bssStart (.replicate bss 0)
  stack : Holds u.mem y.stackStart (.replicate stack stackFill)
  rest : ∀ a : Word, (∀ p ∈ y.sections, a.toNat < p.1.toNat ∨ p.2.toNat ≤ a.toNat) →
    u.mem a = m.mem a

section Whole

variable {y : RomSymbols} {fastcode data : List Word} {bss stack : ℕ} {m : Machine}

theorem stackTops_modes : ∀ p ∈ y.stackTops, p.1.setWidth 5 ≠ Processor.userMode := by
  simp only [RomSymbols.stackTops, List.forall_mem_cons, List.not_mem_nil, false_implies,
    implies_true, and_true]
  decide

theorem stackTops_nodup : (y.stackTops.map fun p => bankOf p.1).Nodup := by
  simp only [RomSymbols.stackTops, List.map_cons, List.map_nil]
  decide

/-- The memory after the four sections. -/
def sectionsMem (y : RomSymbols) (fastcode data : List Word) (bss stack : ℕ) (mem : Memory) :
    Memory :=
  storeWords (storeWords (storeWords (storeWords mem y.fastcodeStart fastcode) y.dataStart data)
    y.bssStart (.replicate bss 0)) y.stackStart (.replicate stack stackFill)

section Sections

variable (h : RomLinked y fastcode data bss stack m.mem)

include h

theorem RomLinked.fits : y.fastcodeStart.toNat + 4 * fastcode.length ≤ y.dataStart.toNat ∧
    y.dataStart.toNat + 4 * data.length ≤ y.bssStart.toNat ∧
    y.bssStart.toNat + 4 * bss ≤ y.stackStart.toNat ∧
    y.stackStart.toNat + 4 * stack = y.stackEnd.toNat ∧ y.stackEnd.toNat < 2 ^ 31 := by
  have hfastcode := h.fastcodeArea.size
  have hdata := h.dataArea.size
  have hbss := h.bssArea.size
  have hstack := h.stackArea.size
  have hlimit := h.stackArea.limit
  have hbehind := h.dataBehind
  have hbehind' := h.bssBehind
  have hbehind'' := h.stackBehind
  omega

theorem RomLinked.sections : Holds (sectionsMem y fastcode data bss stack m.mem) y.fastcodeStart
      fastcode ∧
    Holds (sectionsMem y fastcode data bss stack m.mem) y.dataStart data ∧
    Holds (sectionsMem y fastcode data bss stack m.mem) y.bssStart (.replicate bss 0) ∧
    Holds (sectionsMem y fastcode data bss stack m.mem) y.stackStart
      (.replicate stack stackFill) := by
  obtain ⟨hfastcode, hdata, hbss, hstack, hlimit⟩ := h.fits
  have hzeros : (List.replicate bss (0 : Word)).length = bss := List.length_replicate
  have hfills : (List.replicate stack stackFill).length = stack := List.length_replicate
  refine ⟨?_, ?_, ?_, ?_⟩
  · apply Holds.kept _ (by omega) (by omega) (by omega)
    apply Holds.kept _ (by omega) (by omega) (by omega)
    apply Holds.kept _ (by omega) (by omega) (by omega)
    exact holds_storeWords _ _ (by omega)
  · apply Holds.kept _ (by omega) (by omega) (by omega)
    apply Holds.kept _ (by omega) (by omega) (by omega)
    exact holds_storeWords _ _ (by omega)
  · apply Holds.kept _ (by omega) (by omega) (by omega)
    exact holds_storeWords _ _ (by omega)
  · exact holds_storeWords _ _ (by omega)

theorem RomLinked.outside {a : Word}
    (ha : ∀ p ∈ y.sections, a.toNat < p.1.toNat ∨ p.2.toNat ≤ a.toNat) :
    sectionsMem y fastcode data bss stack m.mem a = m.mem a := by
  obtain ⟨hfastcode, hdata, hbss, hstack⟩ := y.forall_sections.mp ha
  dsimp only at hfastcode hdata hbss hstack
  have hlimit := h.fits
  have hzeros : (List.replicate bss (0 : Word)).length = bss := List.length_replicate
  have hfills : (List.replicate stack stackFill).length = stack := List.length_replicate
  rw [h.fastcodeArea.size] at hfastcode
  rw [h.dataArea.size] at hdata
  rw [h.bssArea.size] at hbss
  rw [h.stackArea.size] at hstack
  rw [sectionsMem, storeWords_outside _ (by omega) (by omega),
    storeWords_outside _ (by omega) (by omega), storeWords_outside _ (by omega) (by omega),
    storeWords_outside _ (by omega) (by omega)]

/-- What is copied second is still there after the first copy. -/
theorem RomLinked.data_loaded :
    Loaded y.dataLoad y.dataStart data (storeWords m.mem y.fastcodeStart fastcode) where
  loadAligned := h.dataLoaded.loadAligned
  fits := h.dataLoaded.fits
  apart := h.dataLoaded.apart
  holds := by
    have hfits := h.fits
    have hsize := h.fastcodeArea.size
    have hapart := h.dataApart
    exact h.dataLoaded.holds.kept h.dataLoaded.fits (by omega) (by omega)

end Sections

/-- The four loops. -/
theorem sections_reached {code : Code} (hlies : Lies code y.cstartup y.cstartupCode)
    (hlinked : RomLinked y fastcode data bss stack m.mem) (hpc : m.core.pc = y.cstartup) :
    ∃ t, Reaches (step code) m t ∧ t.core.pc = y.cstartup + 104 ∧
      t.core.mode = m.core.mode ∧ t.mem = sectionsMem y fastcode data bss stack m.mem := by
  have hsum : ∀ a b : Word, y.cstartup + a + b = y.cstartup + (a + b) := add_assoc y.cstartup
  have hsecond : Lies code (y.cstartup + 28)
      (copySection y.dataLoad y.dataStart y.edata (y.cstartup + 28)) :=
    hlies.left.left.left.left.right
  have hthird : Lies code (y.cstartup + 56)
      (fillSection y.bssStart y.bssEnd (.mov .r3 (.imm 0)) (y.cstartup + 56)) :=
    hlies.left.left.left.right
  have hfourth : Lies code (y.cstartup + 80)
      (fillSection y.stackStart y.stackEnd (.ldrLit .r3 stackFill) (y.cstartup + 80)) :=
    hlies.left.left.right
  obtain ⟨t₁, hreach₁, hpc₁, hsame₁, hmem₁⟩ := copySection_reaches
    hlies.left.left.left.left.left hlinked.fastcodeArea hlinked.fastcodeLoaded hpc
  have hloaded : Loaded y.dataLoad y.dataStart data t₁.mem := by
    rw [hmem₁]
    exact hlinked.data_loaded
  obtain ⟨t₂, hreach₂, hpc₂, hsame₂, hmem₂⟩ :=
    copySection_reaches hsecond hlinked.dataArea hloaded hpc₁
  rw [hsum] at hpc₂
  obtain ⟨t₃, hreach₃, hpc₃, hsame₃, hmem₃⟩ :=
    fillSection_reaches hthird (puts_mov 0) hlinked.bssArea hpc₂
  rw [hsum] at hpc₃
  obtain ⟨t₄, hreach₄, hpc₄, hsame₄, hmem₄⟩ :=
    fillSection_reaches hfourth (puts_ldrLit stackFill) hlinked.stackArea hpc₃
  rw [hsum] at hpc₄
  refine ⟨t₄, hreach₁.trans (hreach₂.trans (hreach₃.trans hreach₄)), hpc₄, ?_, ?_⟩
  · exact (((hsame₁.trans hsame₂).trans hsame₃).trans hsame₄).mode
  · rw [hmem₄, hmem₃, hmem₂, hmem₁, sectionsMem]

/-- The call of `main` in system mode. -/
theorem callMain_run (hmode : m.core.mode = systemMode) :
    (runCode y.callMain m).core.pc = y.main &&& ~~~1 ∧
      (runCode y.callMain m).core.get .r0 = 1 ∧
      (runCode y.callMain m).core.get .r1 = y.version ∧
      (runCode y.callMain m).core.get .lr = m.core.pc + 20 ∧
      (runCode y.callMain m).core.mode = systemMode ∧
      (runCode y.callMain m).core.cpsr.irqMasked = m.core.cpsr.irqMasked ∧
      (runCode y.callMain m).core.cpsr.fiqMasked = m.core.cpsr.fiqMasked ∧
      (∀ b, (runCode y.callMain m).core.regs b .sp = m.core.regs b .sp) ∧
      (runCode y.callMain m).mem = m.mem := by
  have hsplit : runCode y.callMain m = (Instr.bx .r12).exec (runCode (y.callMain.take 4) m) := rfl
  have hwithin : ∀ i ∈ y.callMain.take 4, i.within [.r0, .r1, .r12, .lr] := by
    simp [RomSymbols.callMain, Instr.within]
  have hsame := runCode_sameBut hwithin m
  have hsum : m.core.pc + 4 + 4 + 4 + 8 = m.core.pc + 20 := by
    rw [add_assoc, add_assoc, add_assoc]
    rfl
  have hr12 : (runCode (y.callMain.take 4) m).core.get .r12 = y.main := by
    simp [RomSymbols.callMain, Instr.exec, Core.next, Core.get_set]
  have hr0 : (runCode (y.callMain.take 4) m).core.get .r0 = 1 := by
    simp [RomSymbols.callMain, Instr.exec, Core.next, Core.get_set, Operand.value]
  have hr1 : (runCode (y.callMain.take 4) m).core.get .r1 = y.version := by
    simp [RomSymbols.callMain, Instr.exec, Core.next, Core.get_set]
  have hlr : (runCode (y.callMain.take 4) m).core.get .lr = m.core.pc + 4 + 4 + 4 + 8 := by
    simp [RomSymbols.callMain, Instr.exec, Core.next, Core.get_set]
  obtain ⟨_, _, _, _, hcpsr⟩ := hsame.cpsr
  have hirq := congrArg Psr.irqMasked hcpsr
  have hfiq := congrArg Psr.fiqMasked hcpsr
  have hmem : (runCode (y.callMain.take 4) m).mem = m.mem :=
    runCode_mem (by simp [RomSymbols.callMain, Instr.stores]) m
  rw [hsplit]
  -- what `bx` does is read off without running what is before it
  generalize runCode (y.callMain.take 4) m = v at hr12 hr0 hr1 hlr hsame hirq hfiq hmem ⊢
  refine ⟨?_, hr0, hr1, hlr.trans hsum, hsame.mode.trans hmode, hirq, hfiq, ?_, hmem⟩
  · exact congrArg (· &&& ~~~1) hr12
  · exact fun b => hsame.regs b .sp (by decide)

/-- `_cstartup` comes to `main` with everything in its place. -/
theorem cstartup_ready {code : Code} (hlies : Lies code y.cstartup y.cstartupCode)
    (hlinked : RomLinked y fastcode data bss stack m.mem)
    (hm : m.core.mode ≠ Processor.userMode) (hpc : m.core.pc = y.cstartup) :
    ∃ u, Reaches (step code) m u ∧ ReadyForMain y fastcode data bss stack m u := by
  obtain ⟨t, hreach, htpc, htmode, htmem⟩ := sections_reached hlies hlinked hpc
  have htm : t.core.mode ≠ Processor.userMode := by rwa [htmode]
  obtain ⟨s, hs⟩ : ∃ s, s = runCode (setStacks y.stackTops) t := ⟨_, rfl⟩
  have hstacks : Lies code (y.cstartup + 104) (setStacks y.stackTops) := hlies.left.right
  have hstraight : ∀ i ∈ (setStacks y.stackTops).dropLast, i.straight :=
    fun i hi => setStacks_straight i (List.mem_of_mem_dropLast hi)
  have hsreach : Reaches (step code) t s := by
    rw [hs]
    exact (hstacks.executes hstraight htpc).reaches
  have hspc : s.core.pc = y.cstartup + 152 := by
    rw [hs, runCode_pc setStacks_straight, htpc, add_assoc]
    rfl
  have hsmem : s.mem = sectionsMem y fastcode data bss stack m.mem := by
    rw [hs, setStacks_mem, htmem]
  have hinit : ∀ p ∈ y.stackTops.dropLast, p.1.setWidth 5 ≠ Processor.userMode :=
    fun p hp => stackTops_modes p (List.mem_of_mem_dropLast hp)
  obtain ⟨q, hcpsr⟩ := setStacks_last (p := (sysMode ||| noInt, y.cStackTop)) htm hinit
  have hscpsr : s.core.cpsr = q.withControl (sysMode ||| noInt) := by
    rw [hs]
    exact hcpsr
  rw [withControl_sys] at hscpsr
  have hsmode : s.core.mode = systemMode := congrArg Psr.mode hscpsr
  have hcall : Lies code (y.cstartup + 152) y.callMain := hlies.right
  have hlast : Reaches (step code) s (runCode y.callMain s) :=
    (hcall.executes (by simp [RomSymbols.callMain, Instr.straight]) hspc).reaches
  obtain ⟨hmain, hr0, hr1, hlr, hmode, hirq, hfiq, hsp, hmem⟩ := callMain_run (y := y) hsmode
  obtain ⟨hfastcode, hdata, hbss, hstack⟩ := hlinked.sections
  rw [hsmem] at hmem
  refine ⟨_, hreach.trans (hsreach.trans hlast), hmain, hr0, hr1, ?_, hmode, ?_, ?_, ?_, ?_, ?_,
    ?_, ?_⟩
  · rw [hlr, hspc, add_assoc]
    rfl
  · rw [hirq, hfiq, hscpsr]
    exact ⟨rfl, rfl⟩
  · intro p hp
    rw [hsp, hs]
    exact setStacks_sp htm stackTops_modes stackTops_nodup hp
  · rwa [hmem]
  · rwa [hmem]
  · rwa [hmem]
  · rwa [hmem]
  · intro a ha
    rw [hmem]
    exact hlinked.outside ha

end Whole

/-- With a word between the first two sections. -/
def romSymbols : RomSymbols where
  cstartup := 0x8000
  fastcodeLoad := 0x9000
  fastcodeStart := 0x10000
  fastcodeEnd := 0x10004
  dataLoad := 0x9004
  dataStart := 0x10008
  edata := 0x1000c
  bssStart := 0x1000c
  bssEnd := 0x10010
  stackStart := 0x10010
  stackEnd := 0x10014
  irqStackTop := 0x10014
  fiqStackTop := 0x10014
  svcStackTop := 0x10014
  abtStackTop := 0x10014
  undStackTop := 0x10014
  cStackTop := 0x10014
  version := 0x10008
  main := 0x10000

def rom : Memory := storeWords (fun _ => 0x5a) 0x9000 [0xe12fff1e, 0x9100]

theorem rom_linked : RomLinked romSymbols [0xe12fff1e] [0x9100] 1 1 rom := by
  have hholds : Holds rom 0x9000 ([0xe12fff1e] ++ [0x9100]) := holds_storeWords _ _ (by decide)
  exact ⟨⟨rfl, rfl, by decide⟩, ⟨rfl, rfl, by decide⟩, ⟨rfl, rfl, by decide⟩,
    ⟨rfl, rfl, by decide⟩, by decide, by decide, by decide,
    ⟨rfl, by decide, hholds.left, by decide⟩, ⟨rfl, by decide, hholds.right, by decide⟩,
    by decide⟩

theorem cstartup_ready_rom : ∃ u : Machine, u.core.pc = 0x10000 ∧
    Holds u.mem 0x10008 [0x9100] ∧ u.mem 0x10004 = 0x5a ∧ u.core.regs .abt .sp = 0x10014 := by
  have hlies : Lies (codeAt 0x8000 romSymbols.cstartupCode) romSymbols.cstartup _ :=
    lies_codeAt 0x8000 (by decide)
  have hmode : (atReset rom).core.mode ≠ Processor.userMode := by decide
  obtain ⟨u, -, hready⟩ := cstartup_ready
    (m := ⟨(atReset rom).core.setPc 0x8000, rom⟩) hlies rom_linked hmode rfl
  have hbetween : u.mem 0x10004 = rom 0x10004 :=
    hready.rest _ (romSymbols.forall_sections.mpr (by decide))
  have hunwritten : rom 0x10004 = 0x5a := by decide
  refine ⟨u, hready.pc, hready.data, hbetween.trans hunwritten, ?_⟩
  have habt : (abtMode ||| noInt, romSymbols.abtStackTop) ∈ romSymbols.stackTops := by
    simp [RomSymbols.stackTops]
  exact hready.stackPointers _ habt

end Goldfish.Startup
