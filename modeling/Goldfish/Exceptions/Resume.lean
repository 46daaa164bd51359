import Goldfish.Exceptions.Nesting
import Goldfish.Lib.Code

/-!
# What is resumed

Every step keeps the invariant of the nested services, and so an interrupt
resumes what it has interrupted, whatever was interrupted in between.
-/

namespace Goldfish.Exceptions

open Processor
open Arm (Word Memory wordAt)

/-! ## An instruction of a service -/

section Exec

variable {l : Image} {m : Memory} {x : Suspended} {s : Core} {i : Instr}

theorem exec_suspended {t : State} (hi : i.straight) : (t.exec i).suspended = t.suspended := by
  cases i with
  | bx rm => cases hi
  | movsPc => cases hi
  | _ => rfl

theorem fetch_entry (l : Image) (e : Interrupt) {j : ℕ} (hj : j < 15) :
    l.fetch (l.serviceAddress e + BitVec.ofNat 32 (4 * j)) = (entryCode e (l.handler e))[j]? := by
  have hlength : 15 ≤ (l.service e).length := by
    cases e with
    | irq => exact (by decide : 15 ≤ 26)
    | fiq => exact (by decide : 15 ≤ 25)
  rw [fetch_service l e (hj.trans_le hlength), service_split, List.getElem?_append_left hj]

theorem fetch_exit (l : Image) (e : Interrupt) {j : ℕ} (hj : j < 10) :
    l.fetch (l.serviceAddress e + BitVec.ofNat 32 (4 * (exitIndex e + j))) =
      (exit e.mode)[j]? := by
  have hlength : exitIndex e + 10 = (l.service e).length := by
    cases e with
    | irq => rfl
    | fiq => rfl
  rw [fetch_service l e (by omega), ← service_exit l.toSymbols e, List.getElem?_drop]

theorem exiting_fetch (l : Image) {e : Interrupt} {h : Core} {j : ℕ} (hj : j < 10)
    (hpc : h.pc = l.serviceAddress e + BitVec.ofNat 32 (4 * exitIndex e)) (m : Memory) :
    l.fetch (runCode ((exit e.mode).take j) ⟨h, m⟩).core.pc = (exit e.mode)[j]? := by
  have hlength : ((exit e.mode).take j).length = j :=
    List.length_take_of_le (show j ≤ 10 from hj.le)
  rw [runCode_pc (exit_straight hj), hlength, hpc, Words.add_ofNat_add, ← Nat.mul_add,
    fetch_exit l _ hj]

theorem fetch_returned (l : Image) :
    l.fetch (l.serviceAddress .irq + 60) = some (.msrControl (sysMode ||| noInt)) :=
  fetch_service l .irq (j := 15) (by exact (by decide : 15 < 26))

/-- What the vector loads is where the service of the interrupt begins. -/
theorem vector_loads {e : Interrupt} (h : l.Hooked m) :
    loadWord m (e.exception.vector + 8 + 0x18) = l.serviceAddress e := by
  cases e with
  | irq => exact (loadWord_of_aligned m (by decide)).trans h.1
  | fiq => exact (loadWord_of_aligned m (by decide)).trans h.2

/-- The entry does not load, so that its registers are those of an empty memory. -/
theorem entry_anywhere (e : Interrupt) (base handler : Word) (c : Core) (m : Memory) :
    SameOff (fun _ => False) (entryCore e base handler c 15)
      (runCode (entryCode e handler) ⟨(e.exception.enter c).setPc base, m⟩).core := by
  have hblank : Alike (fun _ => False) ∅ ⟨(e.exception.enter c).setPc base, fun _ => 0⟩
      ⟨(e.exception.enter c).setPc base, m⟩ := ⟨SameOff.refl _, fun _ => False.elim⟩
  have hrun := hblank.run not_false (confined_of_loads (entryCode_loads e handler) _)
  have hall : (entryCode e handler).take 15 = entryCode e handler := List.take_of_length_le le_rfl
  rw [entryCore, entryMachine, hall]
  exact hrun.core

/-- Wherever it is taken, an interrupt comes to its handler in system mode, on
the stack of what it has interrupted. -/
theorem entry_called (l : Image) (e : Interrupt) (hhooked : l.Hooked m) (c : Core) :
    ∃ u, StateTransition.Reaches (step l.fetch) ⟨e.exception.enter c, m⟩ u ∧
      u.core.pc = l.handler e &&& ~~~1 ∧ u.core.mode = systemMode ∧
      u.core.regs .usr .sp = slot c 0 := by
  obtain ⟨base, hbase⟩ : ∃ base, base = l.serviceAddress e := ⟨_, rfl⟩
  have hvector : l.fetch e.exception.vector = some (.ldrPc 0x18) := by
    cases e with
    | irq => rfl
    | fiq => rfl
  have hlands : (Instr.ldrPc 0x18).exec ⟨e.exception.enter c, m⟩ =
      ⟨(e.exception.enter c).setPc base, m⟩ := by
    rw [hbase, ← vector_loads hhooked]
    rfl
  have hlies : Lies l.fetch base (entryCode e (l.handler e)) := by
    intro j i hi
    rw [hbase, fetch_entry l e (List.getElem?_eq_some_iff.mp hi).1, hi]
  have hentered : StateTransition.Reaches (step l.fetch) ⟨(e.exception.enter c).setPc base, m⟩ _ :=
    (hlies.executes (entryCode_straight e (l.handler e) (j := 14) (by decide)) rfl).reaches
  rw [← hlands] at hentered
  have hcore := entry_anywhere e base (l.handler e) c m
  rw [← hlands] at hcore
  refine ⟨_, (reaches_exec hvector).trans hentered, ?_, ?_, ?_⟩
  · rw [hcore.pc, entryCore_call]
  · rw [hcore.mode, (entryCore_restorable e base (l.handler e) c).mode]
  · rw [hcore.regs .usr not_false, entryCore_sp e base (l.handler e) c le_rfl]
    rfl


/-- An instruction of the entry does to the registers and the frame what the
next one relies on. -/
theorem entering_exec (hx : Taken x) {j : ℕ} (hj : j < 15)
    (hcore : SameOff x.interrupt.volatile (entryCore x.interrupt
      (l.serviceAddress x.interrupt) (l.handler x.interrupt) x.core j) s)
    (hheld : Holds m (slot x.core (firstSaved j)) ((frame x.core).drop (firstSaved j)))
    (hi : (entryCode x.interrupt (l.handler x.interrupt))[j]? = some i) :
    SameOff x.interrupt.volatile (entryCore x.interrupt
        (l.serviceAddress x.interrupt) (l.handler x.interrupt) x.core (j + 1))
        (i.exec ⟨s, m⟩).core ∧
      Holds (i.exec ⟨s, m⟩).mem (slot x.core (firstSaved (j + 1)))
        ((frame x.core).drop (firstSaved (j + 1))) ∧
      ∀ a, ¬ x.InFrame a → (i.exec ⟨s, m⟩).mem a = m a := by
  have hroom : 32 ≤ (x.core.regs .usr .sp).toNat := (show 32 ≤ 0x60 by decide).trans hx.room.2
  have hbank := entryCore_bank x.interrupt (l.serviceAddress x.interrupt) (l.handler x.interrupt)
    x.core hj
  have hloads := entryCode_loads x.interrupt _ i (List.mem_of_getElem? hi)
  have hstore := entryCore_store x.interrupt (l.serviceAddress x.interrupt) _ x.core hi
    hx.steady.aligned hroom m
  have hmem : (i.exec ⟨s, m⟩).mem = (i.exec ⟨_, m⟩).mem :=
    funext fun a => exec_mem_of_sameOff (a := a) hcore (not_volatile_usr _) hbank i rfl
  have hle := firstSaved_succ_le j
  refine ⟨?_, ?_, ?_⟩
  · rw [entryCore_succ _ _ _ _ hi]
    exact exec_sameOff hcore (not_volatile_usr _) hbank fun a ha => absurd ha (not_reads hloads _ a)
  · rw [hmem, hstore]
    exact holds_push hle (firstSaved_le j) hroom hheld
  · intro a ha
    rw [hmem, hstore]
    apply push_outside hle (firstSaved_le j) hroom
    rw [Suspended.InFrame, Suspended.top] at ha
    omega

theorem Restorable.congr {e : Interrupt} {c s s' : Core} (h : Restorable e c s)
    (hs : SameOff e.volatile s s') : Restorable e c s' where
  mode := hs.mode.trans h.mode
  sp := by rw [hs.regs .usr (not_volatile_usr e), h.sp]
  saved r hr := by rw [hs.regs .usr (not_volatile_usr e), h.saved r hr]
  banks b hb hlost := by rw [hs.regs b fun hv => hlost (.inr hv), h.banks b hb hlost]
  spsr b hlost := by rw [hs.spsr b fun hv => hlost (.inr hv), h.spsr b hlost]

/-- The call of the handler: its registers are those of the procedure call
standard, and the whole frame is saved. -/
theorem called_serving (hx : Taken x)
    (hcore : SameOff x.interrupt.volatile (entryCore x.interrupt
      (l.serviceAddress x.interrupt) (l.handler x.interrupt) x.core 15) s)
    (hframe : Holds m (slot x.core 0) (frame x.core)) :
    Serving l m { x with called := some s } s := by
  have hroom := hx.room
  have haligned := hx.steady.aligned
  have htop : x.top = (x.core.regs .usr .sp).toNat := rfl
  obtain ⟨hirq, hfiq⟩ := entryCore_masked x.interrupt (l.serviceAddress x.interrupt)
    (l.handler x.interrupt) x.core
  rw [← hcore.cpsr] at hirq hfiq
  have hrestorable : Restorable x.interrupt x.core s :=
    (entryCore_restorable _ _ _ _).congr hcore
  have hsp : (s.regs .usr .sp).toNat = x.top - 32 := by
    rw [hrestorable.sp, slot_toNat (by omega)]
    rfl
  have hbank : s.bank = .usr := congrArg Bank.ofMode hrestorable.mode
  have hneed : 0x40 + stackNeed s.cpsr ≤ (s.regs .usr .sp).toNat := by
    cases he : x.interrupt with
    | irq =>
        have hneed := stackNeed_le hirq
        have hmore := hroom.1 he
        omega
    | fiq =>
        rw [stackNeed, if_pos hirq, if_pos (hfiq he)]
        omega
  refine .handling s rfl hrestorable ?_ ⟨?_, ?_, ?_, hneed⟩ ⟨?_, ?_⟩ ?_ hframe
  · rw [hcore.regs .usr (not_volatile_usr _), entryCore_lr]
  · rw [hcore.pc, entryCore_call]
    cases x.interrupt with
    | irq => exact l.irqOutside
    | fiq => exact l.fiqOutside
  · rw [hbank]
    decide
  · omega
  · change (s.regs .usr .sp).toNat + 32 ≤ x.top
    omega
  · exact fun he => ⟨hirq, hfiq he⟩
  · intro b hb hlost
    have husr : b ≠ .usr := by
      rintro rfl
      rcases hb with hb | hb <;> cases hb
    exact ⟨hrestorable.banks b husr hlost, hrestorable.spsr b hlost⟩

/-- What an instruction of the service that has interrupted `x` leads to. -/
inductive Progress (l : Image) (x : Suspended) (rest : List Suspended) (u : State) : Prop
  | serving (x' : Suspended) (hinterrupt : x'.interrupt = x.interrupt) (hcore : x'.core = x.core)
      (hsuspended : u.suspended = x' :: rest)
      (hserving : Serving l u.machine.mem x' u.machine.core)
  | resumed (hsuspended : u.suspended = rest)
      (hcore : SameOff x.interrupt.lost x.core u.machine.core)

theorem exiting_exec (h : Core) {mode : BitVec 8} {j : ℕ} (hi : (exit mode)[j]? = some i) :
    i.exec ⟨(runCode ((exit mode).take j) ⟨h, m⟩).core, m⟩ =
      ⟨(runCode ((exit mode).take (j + 1)) ⟨h, m⟩).core, m⟩ := by
  have hmem : ∀ n, (runCode ((exit mode).take n) ⟨h, m⟩).mem = m := fun n =>
    runCode_mem (fun k hk => exit_stores k (List.mem_of_mem_take hk)) _
  have heta : ∀ n, (⟨(runCode ((exit mode).take n) ⟨h, m⟩).core, m⟩ : Machine) =
      runCode ((exit mode).take n) ⟨h, m⟩ := fun n =>
    (congrArg (Machine.mk (runCode ((exit mode).take n) ⟨h, m⟩).core) (hmem n)).symm
  rw [heta, heta, runCode_take_succ hi]

variable {rest : List Suspended} {t : State}

theorem vector_progress (hhooked : l.Hooked t.machine.mem) (hs : t.suspended = x :: rest)
    (hcore : SameOff x.interrupt.volatile (x.interrupt.exception.enter x.core) t.machine.core)
    (hfetch : l.fetch t.machine.core.pc = some i) :
    Progress l x rest (t.exec i) ∧ (t.exec i).machine.mem = t.machine.mem := by
  have hpc : t.machine.core.pc = x.interrupt.exception.vector := hcore.pc
  have hi : i = .ldrPc 0x18 := by
    rw [hpc, Symbols.fetch, if_pos] at hfetch
    · exact (Option.some.inj hfetch).symm
    · cases x.interrupt with
      | irq => exact .inl rfl
      | fiq => exact .inr rfl
  have htarget : loadWord t.machine.mem (t.machine.core.pc + 8 + 0x18) =
      l.serviceAddress x.interrupt := by
    rw [hpc]
    exact vector_loads hhooked
  rw [hi]
  refine ⟨.serving x rfl rfl hs (.entering 0 (by decide) (hcore.setPc htarget) ?_), rfl⟩
  exact fun n hn => absurd hn (Nat.not_lt_zero n)

theorem entering_progress (hx : Taken x) (hs : t.suspended = x :: rest) {j : ℕ} (hj : j < 15)
    (hcore : SameOff x.interrupt.volatile (entryCore x.interrupt
      (l.serviceAddress x.interrupt) (l.handler x.interrupt) x.core j) t.machine.core)
    (hheld : Holds t.machine.mem (slot x.core (firstSaved j))
      ((frame x.core).drop (firstSaved j)))
    (hfetch : l.fetch t.machine.core.pc = some i) :
    Progress l x rest (t.exec i) ∧
      ∀ a, ¬ x.InFrame a → (t.exec i).machine.mem a = t.machine.mem a := by
  rw [hcore.pc, entryCore_pc _ _ _ _ hj, fetch_entry l _ hj] at hfetch
  obtain ⟨hcore', hheld', hmem⟩ := entering_exec hx hj hcore hheld hfetch
  refine ⟨?_, hmem⟩
  rcases Nat.lt_succ_iff_lt_or_eq.mp hj with hlt | rfl
  · have hstraight : i.straight := entryCode_straight x.interrupt (l.handler x.interrupt)
      (Nat.succ_lt_succ hlt) i (mem_take_succ hfetch)
    refine .serving x rfl rfl ((exec_suspended hstraight).trans hs) ?_
    exact .entering (j + 1) (Nat.succ_lt_succ hlt) hcore' hheld'
  · have hi : i = .bx .r12 := (Option.some.inj hfetch).symm
    refine .serving { x with called := some (t.exec i).machine.core } rfl rfl ?_
      (called_serving hx hcore' hheld')
    rw [hi, State.exec, hs]
    rfl

theorem returned_progress (hs : t.suspended = x :: rest) (hirq : x.interrupt = .irq)
    (hpc : t.machine.core.pc = l.serviceAddress .irq + 60)
    (hrestorable : Restorable x.interrupt x.core t.machine.core)
    (hframe : Holds t.machine.mem (slot x.core 0) (frame x.core))
    (hfetch : l.fetch t.machine.core.pc = some i) :
    Progress l x rest (t.exec i) ∧ (t.exec i).machine.mem = t.machine.mem := by
  have hi : i = .msrControl (sysMode ||| noInt) := by
    rw [hpc, fetch_returned] at hfetch
    exact (Option.some.inj hfetch).symm
  have hcore : (t.exec i).machine.core =
      { t.machine.core with
        pc := t.machine.core.pc + 4
        cpsr := t.machine.core.cpsr.withControl (sysMode ||| noInt) } := by
    have hmode : t.machine.core.mode ≠ userMode := by
      rw [hrestorable.mode]
      decide
    rw [hi]
    exact congrArg Core.next (Core.setControl_of_ne hmode _)
  have hrestorable' : Restorable x.interrupt x.core (t.exec i).machine.core := by
    rw [hcore]
    exact ⟨rfl, hrestorable.sp, hrestorable.saved, hrestorable.banks, hrestorable.spsr⟩
  have hmem : (t.exec i).machine.mem = t.machine.mem := by
    rw [hi]
    rfl
  refine ⟨.serving x rfl rfl ?_ (.exiting 0 (by decide) (t.exec i).machine.core ?_ hrestorable'
    ?_ ?_ rfl), hmem⟩
  · rw [hi]
    exact hs
  · rw [hcore, hirq]
    change t.machine.core.pc + 4 = _
    rw [hpc]
    exact Words.add_ofNat_add _ 60 4
  · rw [hcore]
    exact ⟨rfl, rfl⟩
  · rw [hmem]
    exact hframe

theorem exiting_progress (hx : Taken x) (hs : t.suspended = x :: rest) {j : ℕ} (hj : j < 10)
    {h : Core}
    (hpc : h.pc = l.serviceAddress x.interrupt + BitVec.ofNat 32 (4 * exitIndex x.interrupt))
    (hrestorable : Restorable x.interrupt x.core h) (hmasked : Masked h.cpsr)
    (hframe : Holds t.machine.mem (slot x.core 0) (frame x.core))
    (hcore : t.machine.core = (runCode ((exit x.interrupt.mode).take j) ⟨h, t.machine.mem⟩).core)
    (hfetch : l.fetch t.machine.core.pc = some i) :
    Progress l x rest (t.exec i) ∧ (t.exec i).machine.mem = t.machine.mem := by
  rw [hcore, exiting_fetch l hj hpc] at hfetch
  have hexec := exiting_exec (m := t.machine.mem) h hfetch
  rw [← hcore] at hexec
  have hmachine : (t.exec i).machine = i.exec ⟨t.machine.core, t.machine.mem⟩ := rfl
  have hmem : (t.exec i).machine.mem = t.machine.mem := by rw [hmachine, hexec]
  have hnext : (t.exec i).machine.core =
      (runCode ((exit x.interrupt.mode).take (j + 1)) ⟨h, t.machine.mem⟩).core := by
    rw [hmachine, hexec]
  refine ⟨?_, hmem⟩
  rcases Nat.lt_succ_iff_lt_or_eq.mp hj with hlt | rfl
  · have hstraight : i.straight := exit_straight (Nat.succ_lt_succ hlt) i (mem_take_succ hfetch)
    refine .serving x rfl rfl ((exec_suspended hstraight).trans hs)
      (.exiting (j + 1) (Nat.succ_lt_succ hlt) h hpc hrestorable hmasked ?_ ?_)
    · rw [hmem]
      exact hframe
    · rw [hmem, hnext]
  · have hi : i = .movsPc := (Option.some.inj hfetch).symm
    refine .resumed ?_ ?_
    · rw [hi, State.exec, hs]
      rfl
    · rw [hnext]
      exact exit_restores hrestorable hframe hx.steady.aligned
        ((show 32 ≤ 0x60 by decide).trans hx.room.2)

/-- Every instruction of a service leads on, and stores within the frame. -/
theorem serving_progress (hhooked : l.Hooked t.machine.mem) (hx : Taken x)
    (hs : t.suspended = x :: rest) (hserving : Serving l t.machine.mem x t.machine.core)
    (hfetch : l.fetch t.machine.core.pc = some i) :
    Progress l x rest (t.exec i) ∧
      ∀ a, ¬ x.InFrame a → (t.exec i).machine.mem a = t.machine.mem a := by
  cases hserving with
  | vector hcore =>
      obtain ⟨hprogress, hmem⟩ := vector_progress hhooked hs hcore hfetch
      exact ⟨hprogress, fun a _ => congrFun hmem a⟩
  | entering j hj hcore hheld => exact entering_progress hx hs hj hcore hheld hfetch
  | handling h hcalled hrestorable hlr hclient hunder hkept hframe =>
      rw [hclient.outside] at hfetch
      cases hfetch
  | returned hirq hpc hrestorable hsteady hframe =>
      obtain ⟨hprogress, hmem⟩ := returned_progress hs hirq hpc hrestorable hframe hfetch
      exact ⟨hprogress, fun a _ => congrFun hmem a⟩
  | exiting j hj h hpc hrestorable hmasked hframe hcore =>
      obtain ⟨hprogress, hmem⟩ :=
        exiting_progress hx hs hj hpc hrestorable hmasked hframe hcore hfetch
      exact ⟨hprogress, fun a _ => congrFun hmem a⟩

end Exec

/-! ## Every step -/

section Run

variable {l : Image} {s t u : State}

theorem inv_exec {i : Instr} (h : Inv l t) (hfetch : l.fetch t.machine.core.pc = some i) :
    Inv l (t.exec i) := by
  obtain ⟨hhooked, hnested⟩ := h
  cases hs : t.suspended with
  | nil =>
      rw [hs] at hnested
      rw [Client.outside hnested] at hfetch
      cases hfetch
  | cons x rest =>
      rw [hs] at hnested
      obtain ⟨hx, hserving, hrest⟩ := hnested
      obtain ⟨hprogress, hmem⟩ := serving_progress hhooked hx hs hserving hfetch
      have hroom := hx.room.2
      have hhooked' : l.Hooked (t.exec i).machine.mem := by
        apply Hooked.congr hhooked
        intro a ha
        apply hmem
        rintro ⟨hlow, -⟩
        omega
      have hrest' : Nested l (t.exec i).machine.mem x.core rest := by
        apply hrest.mem_congr hx.unmasked
        rintro a ha -
        apply hmem
        rintro ⟨-, hhigh⟩
        exact absurd ha (not_le.mpr hhigh)
      refine ⟨hhooked', ?_⟩
      cases hprogress with
      | serving x' hinterrupt hcore hsuspended hserving' =>
          rw [hsuspended]
          refine ⟨⟨?_, ?_⟩, hserving', ?_⟩
          · rw [hinterrupt, hcore]
            exact hx.unmasked
          · rw [hcore]
            exact hx.steady
          · rw [hcore]
            exact hrest'
      | resumed hsuspended hcore =>
          rw [hsuspended]
          exact hrest'.core_congr hx.unmasked hcore

/-- A service that executes code in C is in its handler. -/
structure Handling (l : Image) (m : Memory) (x : Suspended) (s h : Core) : Prop where
  called : x.called = some h
  restorable : Restorable x.interrupt x.core h
  lr : h.regs .usr .lr = l.serviceAddress x.interrupt + 60
  kept : ∀ b, b = .irq ∨ b = .fiq → ¬ x.interrupt.lost b →
    s.regs b = x.core.regs b ∧ s.spsr b = x.core.spsr b
  holds : Holds m (slot x.core 0) (frame x.core)

theorem Serving.client {m : Memory} {x : Suspended} {s : Core} (h : Serving l m x s)
    (hfetch : l.fetch s.pc = none) : ∃ h, Handling l m x s h := by
  cases h with
  | vector hcore =>
      have hvector : s.pc = Exception.irq.vector ∨ s.pc = Exception.fiq.vector := by
        rw [hcore.pc]
        cases x.interrupt with
        | irq => exact .inl rfl
        | fiq => exact .inr rfl
      rw [Symbols.fetch, if_pos hvector] at hfetch
      cases hfetch
  | entering j hj hcore hheld =>
      rw [hcore.pc, entryCore_pc _ _ _ _ hj, fetch_entry l _ hj,
        List.getElem?_eq_none_iff] at hfetch
      exact absurd hj (not_lt.mpr hfetch)
  | handling h hcalled hrestorable hlr hclient hunder hkept hframe =>
      exact ⟨h, hcalled, hrestorable, hlr, hkept, hframe⟩
  | returned hirq hpc hrestorable hsteady hframe =>
      rw [hpc, fetch_returned] at hfetch
      cases hfetch
  | exiting j hj h hpc hrestorable hmasked hframe hcore =>
      rw [hcore, exiting_fetch l hj hpc, List.getElem?_eq_none_iff] at hfetch
      exact absurd hj (not_lt.mpr hfetch)

section Client

variable {m m' : Machine} {x : Suspended} {h : Core} {rest : List Suspended}

theorem Handling.frame_kept (hh : Handling l m.mem x m.core h) (hx : Taken x)
    (hallowed : Allowed (x :: rest) m m') : Holds m'.mem (slot x.core 0) (frame x.core) := by
  have hlt := (x.core.regs .usr .sp).isLt
  have htop : x.top = (x.core.regs .usr .sp).toNat := rfl
  have hroom := hx.room.2
  have hslot : (slot x.core 0).toNat = x.top - 32 := slot_toNat (by omega) 0
  have hlength : 4 * (frame x.core).length = 32 := rfl
  apply hh.holds.congr
  · omega
  · intro a hlow hhigh
    apply hallowed.frames x List.mem_cons_self
    constructor
    · omega
    · omega

theorem Handling.kept_after (hh : Handling l m.mem x m.core h) (hallowed : Allowed (x :: rest) m m')
    (b : Bank) (hb : b = .irq ∨ b = .fiq) (hlost : ¬ x.interrupt.lost b) :
    m'.core.regs b = x.core.regs b ∧ m'.core.spsr b = x.core.spsr b := by
  obtain ⟨hregs, hspsr⟩ := hh.kept b hb hlost
  exact ⟨(hallowed.regs b hb).trans hregs, (hallowed.spsr b hb).trans hspsr⟩

theorem Handling.running (hh : Handling l m.mem x m.core h) (hx : Taken x)
    (hallowed : Allowed (x :: rest) m m') (hclient : Client l.toSymbols m'.core)
    (hunder : Under x m'.core) : Serving l m'.mem x m'.core :=
  .handling h hh.called hh.restorable hh.lr hclient hunder (hh.kept_after hallowed)
    (hh.frame_kept hx hallowed)

theorem Handling.restorable_after (hh : Handling l m.mem x m.core h)
    (hallowed : Allowed (x :: rest) m m') (hreturned : Returned x h m'.core) :
    Restorable x.interrupt x.core m'.core where
  mode := hreturned.mode
  sp := hreturned.sp.trans hh.restorable.sp
  saved r hr := (hreturned.saved r hr).trans (hh.restorable.saved r hr)
  banks b hb hlost := by
    by_cases hown : b = .irq ∨ b = .fiq
    · exact (hh.kept_after hallowed b hown hlost).1
    · rw [not_or] at hown
      exact (hreturned.banks b hb hown.1 hown.2).trans (hh.restorable.banks b hb hlost)
  spsr b hlost := by
    by_cases hown : b = .irq ∨ b = .fiq
    · exact (hh.kept_after hallowed b hown hlost).2
    · rw [not_or] at hown
      exact (hreturned.spsr b hown.1 hown.2).trans (hh.restorable.spsr b hlost)

theorem Handling.returning (hh : Handling l m.mem x m.core h) (hx : Taken x)
    (hallowed : Allowed (x :: rest) m m') (hreturned : Returned x h m'.core) :
    Serving l m'.mem x m'.core := by
  have hrestorable := hh.restorable_after hallowed hreturned
  have hframe := hh.frame_kept hx hallowed
  have hpc := hreturned.pc.trans hh.lr
  have haligned := hx.steady.aligned
  have hroom : 32 ≤ (x.core.regs .usr .sp).toNat := (show 32 ≤ 0x60 by decide).trans hx.room.2
  have hsp : (m'.core.regs .usr .sp).toNat = (x.core.regs .usr .sp).toNat - 32 := by
    rw [hrestorable.sp, slot_toNat hroom]
  cases he : x.interrupt with
  | irq =>
      refine .returned he (he ▸ hpc) hrestorable ⟨?_, hreturned.room⟩ hframe
      omega
  | fiq =>
      refine .exiting 0 (by decide) m'.core ?_ hrestorable (hreturned.masked he) hframe rfl
      rw [hpc, he]
      rfl

end Client

theorem inv_client {m : Machine} (h : Inv l t) (hallowed : Allowed t.suspended t.machine m)
    (hnil : t.suspended = [] → Client l.toSymbols m.core)
    (hcons : ∀ x rest, t.suspended = x :: rest → Taken x →
      Serving l t.machine.mem x t.machine.core → Serving l m.mem x m.core) :
    Inv l ⟨m, t.suspended⟩ := by
  obtain ⟨hhooked, hnested⟩ := h
  refine ⟨Hooked.congr hhooked hallowed.vectors, ?_⟩
  cases hs : t.suspended with
  | nil => exact hnil hs
  | cons x rest =>
      rw [hs] at hnested hallowed
      obtain ⟨hx, hserving, hrest⟩ := hnested
      refine ⟨hx, hcons x rest hs hx hserving, hrest.mem_congr hx.unmasked ?_⟩
      rintro a - ⟨y, hy, hframe⟩
      exact hallowed.frames y (List.mem_cons_of_mem x hy) a hframe

theorem inv_step (h : Inv l t) (hstep : Step l t u) : Inv l u := by
  cases hstep with
  | exec hfetch => exact inv_exec h hfetch
  | take e hmasked => exact inv_take h hmasked
  | run hfetch hallowed hclient hunder =>
      refine inv_client h hallowed (fun _ => hclient) ?_
      intro x rest hs hx hserving
      obtain ⟨_, hh⟩ := hserving.client hfetch
      rw [hs] at hallowed hunder
      exact hh.running hx hallowed hclient (hunder x rfl)
  | ret hfetch hx hcalled hallowed hreturned =>
      refine inv_client h hallowed (fun hs => ?_) ?_
      · rw [hs] at hx
        cases hx
      · intro y rest hs hy hserving
        obtain ⟨_, hh⟩ := hserving.client hfetch
        rw [hs] at hx hallowed
        obtain ⟨rfl, rfl⟩ := List.cons.inj hx
        obtain rfl := Option.some.inj (hcalled.symm.trans hh.called)
        exact hh.returning hy hallowed hreturned

theorem Initial.inv (hinitial : Initial l s) : Inv l s := by
  refine ⟨hinitial.hooked, ?_⟩
  rw [hinitial.suspended]
  exact hinitial.client

theorem Inv.reachable (h : Inv l s) (hreach : Reachable l s t) : Inv l t := by
  induction hreach with
  | refl => exact h
  | tail _ hstep ih => exact inv_step ih hstep

theorem inv_reachable (hinitial : Initial l s) (hreach : Reachable l s t) : Inv l t :=
  hinitial.inv.reachable hreach

end Run

/-! ## A whole service -/

section Whole

variable {l : Image} {s t u : State} {x : Suspended} {rest : List Suspended}

theorem Serving.masked_of_fiq {m : Memory} {x : Suspended} {c : Core} (h : Serving l m x c)
    (hfiq : x.interrupt = .fiq) : Masked c.cpsr := by
  have hentering : Entering x.interrupt c.cpsr → Masked c.cpsr := fun hpsr =>
    ⟨hpsr.irqMasked, hpsr.fiqMasked hfiq⟩
  cases h with
  | vector hcore =>
      apply hentering
      rw [hcore.cpsr]
      exact entering_start x.interrupt x.core
  | entering j hj hcore hheld =>
      apply hentering
      rw [hcore.cpsr]
      exact entryCore_entering _ _ _ _ hj
  | handling h hcalled hrestorable hlr hclient hunder hkept hframe => exact hunder.masked hfiq
  | returned hirq hpc hrestorable hsteady hframe =>
      rw [hfiq] at hirq
      cases hirq
  | exiting j hj h hpc hrestorable hmasked hframe hcore =>
      rw [hcore]
      exact exit_masked hj hmasked

/-- The entry comes to its handler with the frame saved. -/
theorem entry_reaches (hx : Taken x) (n : ℕ) {j : ℕ} (hj : j + n = 14)
    (hs : t.suspended = x :: rest) (hcore : SameOff x.interrupt.volatile (entryCore x.interrupt
      (l.serviceAddress x.interrupt) (l.handler x.interrupt) x.core j) t.machine.core)
    (hheld : Holds t.machine.mem (slot x.core (firstSaved j))
      ((frame x.core).drop (firstSaved j))) :
    ∃ u, Reachable l t u ∧ u.suspended = { x with called := some u.machine.core } :: rest ∧
      Serving l u.machine.mem { x with called := some u.machine.core } u.machine.core ∧
      u.machine.core.pc = l.handler x.interrupt &&& ~~~1 ∧
      ∀ a, ¬ x.InFrame a → u.machine.mem a = t.machine.mem a := by
  induction n generalizing t j with
  | zero =>
      obtain rfl : j = 14 := hj
      have hfetch : l.fetch t.machine.core.pc = some (.bx .r12) := by
        rw [hcore.pc, entryCore_pc _ _ _ _ (by decide), fetch_entry l _ (by decide)]
        rfl
      obtain ⟨hcore', hheld', hmem⟩ := entering_exec hx (by decide) hcore hheld
        (i := .bx .r12) rfl
      refine ⟨t.exec (.bx .r12), Relation.ReflTransGen.single (.exec hfetch), ?_,
        called_serving hx hcore' hheld', ?_, hmem⟩
      · rw [State.exec, hs]
        rfl
      · exact hcore'.pc.trans (entryCore_call _ _ _ _)
  | succ n ih =>
      have hlt : j < 14 := by omega
      obtain ⟨i, hi⟩ : ∃ i, (entryCode x.interrupt (l.handler x.interrupt))[j]? = some i :=
        ⟨_, List.getElem?_eq_getElem (show j < 15 by omega)⟩
      have hfetch : l.fetch t.machine.core.pc = some i := by
        rw [hcore.pc, entryCore_pc _ _ _ _ (by omega), fetch_entry l _ (by omega), hi]
      have hstraight : i.straight :=
        entryCode_straight _ _ (Nat.succ_lt_succ hlt) i (mem_take_succ hi)
      obtain ⟨hcore', hheld', hmem⟩ := entering_exec hx (by omega) hcore hheld hi
      obtain ⟨u, hreach, hsuspended, hserving, hpc, hmem'⟩ := ih (t := t.exec i) (j := j + 1)
        (by omega) ((exec_suspended hstraight).trans hs) hcore' hheld'
      refine ⟨u, Relation.ReflTransGen.head (.exec hfetch) hreach, hsuspended, hserving, hpc, ?_⟩
      intro a ha
      exact (hmem' a ha).trans (hmem a ha)

/-- The exit comes to its last instruction. -/
theorem exit_reaches (n : ℕ) {j : ℕ} (hj : j + n = 9) (hs : t.suspended = x :: rest) {h : Core}
    (hpc : h.pc = l.serviceAddress x.interrupt + BitVec.ofNat 32 (4 * exitIndex x.interrupt))
    (hcore : t.machine.core =
      (runCode ((exit x.interrupt.mode).take j) ⟨h, t.machine.mem⟩).core) :
    ∃ v, Reachable l t v ∧ l.fetch v.machine.core.pc = some .movsPc ∧ v.suspended = x :: rest ∧
      v.machine.mem = t.machine.mem := by
  induction n generalizing t j with
  | zero =>
      obtain rfl : j = 9 := hj
      refine ⟨t, Relation.ReflTransGen.refl, ?_, hs, rfl⟩
      rw [hcore, exiting_fetch l (by decide) hpc]
      rfl
  | succ n ih =>
      obtain ⟨i, hi⟩ : ∃ i, (exit x.interrupt.mode)[j]? = some i :=
        ⟨_, List.getElem?_eq_getElem (show j < 10 by omega)⟩
      have hfetch : l.fetch t.machine.core.pc = some i := by
        rw [hcore, exiting_fetch l (by omega) hpc, hi]
      have hstraight : i.straight :=
        exit_straight (show j + 1 < 10 by omega) i (mem_take_succ hi)
      have hexec := exiting_exec (m := t.machine.mem) h hi
      rw [← hcore] at hexec
      have hmachine : (t.exec i).machine = i.exec ⟨t.machine.core, t.machine.mem⟩ := rfl
      have hmem : (t.exec i).machine.mem = t.machine.mem := by rw [hmachine, hexec]
      have hcore' : (t.exec i).machine.core = (runCode ((exit x.interrupt.mode).take (j + 1))
          ⟨h, (t.exec i).machine.mem⟩).core := by
        rw [hmem, hmachine, hexec]
      obtain ⟨v, hreach, hlast, hsuspended, hkept⟩ := ih (t := t.exec i) (j := j + 1) (by omega)
        ((exec_suspended hstraight).trans hs) hcore'
      exact ⟨v, Relation.ReflTransGen.head (.exec hfetch) hreach, hlast, hsuspended,
        hkept.trans hmem⟩

/-- `BSP_fiq` is empty: it returns at once. -/
def bspFiq (m : Machine) : Machine :=
  { m with core := { m.core with
    pc := m.core.regs .usr .lr
    cpsr := { m.core.cpsr with thumb := false } } }

theorem bspFiq_allowed (xs : List Suspended) (m : Machine) : Allowed xs m (bspFiq m) where
  regs _ _ := rfl
  spsr _ _ := rfl
  vectors _ _ := rfl
  frames _ _ _ _ := rfl

theorem bspFiq_returned {m : Machine} (hmode : m.core.mode = systemMode)
    (hmasked : Masked m.core.cpsr) (hroom : 0x40 ≤ (m.core.regs .usr .sp).toNat) :
    Returned x m.core (bspFiq m).core where
  pc := rfl
  thumb := rfl
  mode := hmode
  sp := rfl
  saved _ _ := rfl
  banks _ _ _ _ := rfl
  spsr _ _ _ := rfl
  room := by
    have hirq : (bspFiq m).core.cpsr.irqMasked = true := hmasked.1
    have hfiq : (bspFiq m).core.cpsr.fiqMasked = true := hmasked.2
    have hneed : stackNeed (bspFiq m).core.cpsr = 0 := by
      rw [stackNeed, if_pos hirq, if_pos hfiq]
    rw [hneed]
    exact hroom
  masked _ := hmasked

/-- The service of an FIQ that is taken in `t`, from the vector to the resumed
state `u`: `BSP_fiq` is called in `a`, and `v` is at the last instruction of
`ARM_fiq`. -/
structure FiqServed (l : Image) (t a v u : State) : Prop where
  taken : Step l t (t.take .fiq)
  enters : Reachable l (t.take .fiq) a
  called : a.machine.core.pc = l.bspFiq &&& ~~~1
  pending : a.suspended = ⟨.fiq, t.machine.core, some a.machine.core⟩ :: t.suspended
  left : Step l a ⟨bspFiq a.machine, a.suspended⟩
  exits : Reachable l ⟨bspFiq a.machine, a.suspended⟩ v
  last : l.fetch v.machine.core.pc = some .movsPc
  kept : v.suspended = a.suspended
  back : u = v.exec .movsPc
  resumed : u.suspended = t.suspended

theorem FiqServed.reaches {a v : State} (h : FiqServed l t a v u) :
    Reachable l t v ∧ Step l v u := by
  have hstep : Step l v (v.exec .movsPc) := .exec h.last
  rw [← h.back] at hstep
  exact ⟨((h.enters.head h.taken).tail h.left).trans h.exits, hstep⟩

/-- An FIQ is served wherever it is taken. -/
theorem fiq_served (h : Inv l t) (hunmasked : t.machine.core.cpsr.fiqMasked = false) :
    ∃ a v u, FiqServed l t a v u ∧
      ∀ b : Word, (t.machine.core.regs .usr .sp).toNat ≤ b.toNat ∨
        b.toNat + 32 < (t.machine.core.regs .usr .sp).toNat →
        u.machine.mem b = t.machine.mem b := by
  have htake : Interrupt.fiq.masked t.machine.core.cpsr = false := hunmasked
  obtain ⟨hhooked, hx, -, -⟩ := inv_take h htake
  have hvector : l.fetch (t.take .fiq).machine.core.pc = some (.ldrPc 0x18) := by
    rw [Symbols.fetch, if_pos (.inr rfl)]
  -- the vector and the entry
  have hstart : SameOff Interrupt.fiq.volatile (entryCore .fiq (l.serviceAddress .fiq)
      (l.handler .fiq) t.machine.core 0) ((t.take .fiq).exec (.ldrPc 0x18)).machine.core :=
    (SameOff.refl _).setPc (vector_loads (e := .fiq) hhooked)
  obtain ⟨a, hreach, hsuspended, hserving, hpc, hmem⟩ := entry_reaches hx 14 rfl
    (t := (t.take .fiq).exec (.ldrPc 0x18)) rfl hstart
    fun n hn => absurd hn (Nat.not_lt_zero n)
  have hcall : Reachable l (t.take .fiq) a := Relation.ReflTransGen.head (.exec hvector) hreach
  -- the handler
  have houtside : l.fetch a.machine.core.pc = none := by
    rw [hpc]
    exact l.fiqOutside
  obtain ⟨c, hh⟩ := hserving.client houtside
  obtain rfl : a.machine.core = c := Option.some.inj hh.called
  have hroom : 0x60 ≤ (t.machine.core.regs .usr .sp).toNat := hx.room.2
  have hslot : a.machine.core.regs .usr .sp = slot t.machine.core 0 := hh.restorable.sp
  have hsp : 0x40 ≤ (a.machine.core.regs .usr .sp).toNat := by
    rw [hslot, slot_toNat (by omega)]
    omega
  have hreturned := bspFiq_returned (x := ⟨.fiq, t.machine.core, some a.machine.core⟩)
    hh.restorable.mode (hserving.masked_of_fiq rfl) hsp
  have hallowed := bspFiq_allowed a.suspended a.machine
  have hreturn : Step l a ⟨bspFiq a.machine, a.suspended⟩ :=
    .ret houtside hsuspended rfl hallowed hreturned
  -- the exit
  have hexit : (bspFiq a.machine).core.pc =
      l.serviceAddress .fiq + BitVec.ofNat 32 (4 * exitIndex .fiq) := hreturned.pc.trans hh.lr
  obtain ⟨v, hreach', hfetch, hv, hmem'⟩ := exit_reaches (l := l)
    (t := ⟨bspFiq a.machine, a.suspended⟩) 9 rfl hsuspended hexit rfl
  refine ⟨a, v, v.exec .movsPc, ⟨.take .fiq htake, hcall, hpc, hsuspended, hreturn, hreach',
    hfetch, hv.trans hsuspended.symm, rfl, ?_⟩, fun b hb => ?_⟩
  · rw [State.exec, hv]
    rfl
  · refine (congrFun hmem' b).trans (hmem b ?_)
    rintro ⟨hlow, hhigh⟩
    change (t.machine.core.regs .usr .sp).toNat ≤ b.toNat + 32 at hlow
    change b.toNat < (t.machine.core.regs .usr .sp).toNat at hhigh
    omega

end Whole

/-! ## A program to interrupt -/

def smallImage : Image where
  armIrq := 0x10000
  bspIrq := 0x20000
  bspFiq := 0x20100
  clear := by decide
  fits := by decide
  irqOutside := rfl
  fiqOutside := rfl

def started : State where
  machine :=
    { core :=
        { regs := fun _ r => if r = .sp then 0x8000 else 0
          pc := 0x30000
          cpsr := ⟨false, false, false, false, 0, false, false, false, systemMode⟩
          spsr := fun _ => ⟨false, false, false, false, 0, false, false, false, systemMode⟩ }
      mem := storeWords (fun _ => 0) 0x38
        [smallImage.serviceAddress .irq, smallImage.serviceAddress .fiq] }
  suspended := []

theorem started_initial : Initial smallImage started where
  hooked :=
    have hholds : Holds started.machine.mem 0x38
        [smallImage.serviceAddress .irq, smallImage.serviceAddress .fiq] :=
      holds_storeWords (fun _ => 0) (0x38 : Word) (by decide)
    ⟨hholds 0 (by decide), hholds 1 (by decide)⟩
  client := ⟨rfl, ⟨nofun, nofun⟩, ⟨rfl, by decide⟩⟩
  suspended := rfl

/-! ## What interrupts do to what they interrupt -/

section Transparent

variable {l : Image} {s t u : State}

theorem Inv.resumes (h : Inv l t) (hstep : Step l t u) {x : Suspended} {rest : List Suspended}
    (hs : t.suspended = x :: rest) (hresumed : u.suspended = rest) :
    SameOff x.interrupt.lost x.core u.machine.core := by
  obtain ⟨hhooked, hnested⟩ := h
  rw [hs] at hnested
  obtain ⟨hx, hserving, -⟩ := hnested
  have hlonger : ∀ y : Suspended, y :: rest ≠ rest := fun y => List.cons_ne_self y rest
  cases hstep with
  | exec hfetch =>
      cases (serving_progress hhooked hx hs hserving hfetch).1 with
      | serving x' _ _ hsuspended _ => exact absurd (hsuspended.symm.trans hresumed) (hlonger x')
      | resumed _ hcore => exact hcore
  | take e hmasked =>
      have hmore := congrArg List.length hresumed
      have hone := congrArg List.length hs
      change t.suspended.length + 1 = _ at hmore
      rw [List.length_cons] at hone
      omega
  | run _ _ _ _ => exact absurd (hs.symm.trans hresumed) (hlonger x)
  | ret _ _ _ _ _ => exact absurd (hs.symm.trans hresumed) (hlonger x)

/-- Whatever has happened since, an interrupt resumes what it has interrupted
with every register of it, at the instruction it was interrupted before. -/
theorem interrupt_resumes (hinitial : Initial l s) (hreach : Reachable l s t) (hstep : Step l t u)
    {x : Suspended} {rest : List Suspended} (hs : t.suspended = x :: rest)
    (hresumed : u.suspended = rest) : SameOff x.interrupt.lost x.core u.machine.core :=
  (inv_reachable hinitial hreach).resumes hstep hs hresumed

theorem interrupt_resumes_started : ∃ t u x, Reachable smallImage started t ∧
    Step smallImage t u ∧ t.suspended = [x] ∧ u.suspended = [] ∧
      SameOff x.interrupt.lost x.core u.machine.core := by
  have hinv := inv_reachable started_initial Relation.ReflTransGen.refl
  obtain ⟨a, t, u, hserved, -⟩ := fiq_served hinv rfl
  obtain ⟨hreach, hstep⟩ := hserved.reaches
  have ht := hserved.kept.trans hserved.pending
  have hu := hserved.resumed
  exact ⟨t, u, _, hreach, hstep, ht, hu, interrupt_resumes started_initial hreach hstep ht hu⟩

theorem Nested.fiq_first {m : Memory} {c : Core} {xs : List Suspended} (h : Nested l m c xs)
    {i : ℕ} {x : Suspended} (hx : xs[i]? = some x) (hfiq : x.interrupt = .fiq) :
    i = 0 ∧ Masked c.cpsr := by
  induction xs generalizing c i with
  | nil => cases hx
  | cons y rest ih =>
      obtain ⟨hy, hserving, hrest⟩ := h
      cases i with
      | zero =>
          obtain rfl := Option.some.inj hx
          exact ⟨rfl, hserving.masked_of_fiq hfiq⟩
      | succ i => exact absurd (ih hrest hx).2 (not_masked_of_take hy.unmasked)

/-- An FIQ is served with everything masked, and so nothing is nested in it. -/
theorem fiq_innermost (hinitial : Initial l s) (hreach : Reachable l s t) {i : ℕ} {x : Suspended}
    (hx : t.suspended[i]? = some x) (hfiq : x.interrupt = .fiq) :
    i = 0 ∧ Masked t.machine.core.cpsr :=
  (inv_reachable hinitial hreach).2.fiq_first hx hfiq

theorem fiq_innermost_started :
    (started.take .fiq).suspended[0]? = some ⟨.fiq, started.machine.core, none⟩ ∧
      Masked (started.take .fiq).machine.core.cpsr :=
  have hreach : Reachable smallImage started (started.take .fiq) :=
    Relation.ReflTransGen.single (.take .fiq rfl)
  ⟨rfl, (fiq_innermost started_initial hreach (i := 0) rfl rfl).2⟩

theorem Nested.top_le {m : Memory} {c : Core} {xs : List Suspended} (h : Nested l m c xs)
    {e : Interrupt} (htake : e.masked c.cpsr = false) {y : Suspended} (hy : y ∈ xs) :
    (c.regs .usr .sp).toNat ≤ y.top := by
  induction xs generalizing c e with
  | nil => cases hy
  | cons x rest ih =>
      obtain ⟨hx, hserving, hrest⟩ := h
      have hbelow := (hserving.steady hx htake).2
      rcases List.mem_cons.mp hy with rfl | hy
      · exact hbelow
      · exact hbelow.trans (ih hrest hx.unmasked hy)

/-- The code of `arm_exc.S` stores only in the eight words below the stack
pointer of the context it serves, which is below that of all others. -/
theorem service_stores (hinitial : Initial l s) (hreach : Reachable l s t) {i : Instr}
    (hfetch : l.fetch t.machine.core.pc = some i) (a : Word) :
    (t.exec i).machine.mem a = t.machine.mem a ∨
      (∃ x ∈ t.suspended.head?, x.InFrame a) ∧ ∀ y ∈ t.suspended, a.toNat < y.top := by
  obtain ⟨hhooked, hnested⟩ := inv_reachable hinitial hreach
  cases hs : t.suspended with
  | nil =>
      rw [hs] at hnested
      rw [Client.outside hnested] at hfetch
      cases hfetch
  | cons x rest =>
      rw [hs] at hnested
      obtain ⟨hx, hserving, hrest⟩ := hnested
      have hmem := (serving_progress hhooked hx hs hserving hfetch).2
      by_cases hframe : x.InFrame a
      · refine .inr ⟨⟨x, rfl, hframe⟩, fun y hy => ?_⟩
        rcases List.mem_cons.mp hy with rfl | hy
        · exact hframe.2
        · exact hframe.2.trans_le (hrest.top_le hx.unmasked hy)
      · exact .inl (hmem a hframe)

/-- At the first `stmfd` of `ARM_irq`. -/
def pushing : State :=
  ((.ldrPc 0x18 :: (entryCode .irq smallImage.bspIrq).take 5).foldl State.exec
    (started.take .irq))

theorem service_stores_started :
    (pushing.exec (.stmfd .sp [.r0, .r1])).machine.mem 0x7ffc ≠ pushing.machine.mem 0x7ffc ∧
      (∃ x ∈ pushing.suspended.head?, x.InFrame 0x7ffc) ∧
        ∀ y ∈ pushing.suspended, (0x7ffc : Word).toNat < y.top := by
  have htaken : Reachable smallImage started (started.take .irq) :=
    Relation.ReflTransGen.single (.take .irq rfl)
  have hreach : Reachable smallImage started pushing :=
    (((((htaken.tail (.exec rfl)).tail (.exec rfl)).tail (.exec rfl)).tail (.exec rfl)).tail
      (.exec rfl)).tail (.exec rfl)
  have hchanged : (pushing.exec (.stmfd .sp [.r0, .r1])).machine.mem 0x7ffc ≠
      pushing.machine.mem 0x7ffc := by decide
  exact ⟨hchanged, (service_stores started_initial hreach (i := .stmfd .sp [.r0, .r1]) rfl
    0x7ffc).resolve_left hchanged⟩

theorem FiqServed.resumes {a v : State} (h : FiqServed l t a v u) (hinv : Inv l t) :
    SameOff (· = .fiq) t.machine.core u.machine.core := by
  obtain ⟨htv, hvu⟩ := h.reaches
  have hsame : SameOff Interrupt.fiq.lost t.machine.core u.machine.core :=
    (hinv.reachable htv).resumes hvu (h.kept.trans h.pending) h.resumed
  apply hsame.mono
  rintro b (hb | hb)
  · exact hb
  · cases hb.1

/-- An FIQ can be served to its end from wherever it is taken, also in the
middle of `ARM_irq`: `BSP_fiq` is called and returns, and nothing is changed in
the end but the bank of FIQ mode and the eight words below the stack pointer. -/
theorem fiq_completes (hinitial : Initial l s) (hreach : Reachable l s t)
    (hunmasked : t.machine.core.cpsr.fiqMasked = false) :
    ∃ a v u, FiqServed l t a v u ∧ SameOff (· = .fiq) t.machine.core u.machine.core ∧
      ∀ b : Word, (t.machine.core.regs .usr .sp).toNat ≤ b.toNat ∨
        b.toNat + 32 < (t.machine.core.regs .usr .sp).toNat →
        u.machine.mem b = t.machine.mem b := by
  have hinv := inv_reachable hinitial hreach
  obtain ⟨a, v, u, hserved, hmem⟩ := fiq_served hinv hunmasked
  exact ⟨a, v, u, hserved, hserved.resumes hinv, hmem⟩

theorem fiq_completes_started : ∃ a v u, FiqServed smallImage (started.take .irq) a v u ∧
    a.machine.core.pc = 0x20100 ∧ u.suspended = [⟨.irq, started.machine.core, none⟩] ∧
      SameOff (· = .fiq) (started.take .irq).machine.core u.machine.core :=
  have hreach : Reachable smallImage started (started.take .irq) :=
    Relation.ReflTransGen.single (.take .irq rfl)
  have ⟨a, v, u, hserved, hcore, _⟩ := fiq_completes started_initial hreach rfl
  ⟨a, v, u, hserved, hserved.called, hserved.resumed, hcore⟩

end Transparent

end Goldfish.Exceptions
