import Goldfish.Lib.Runs
import Mathlib.Data.Finset.Max
import Mathlib.Data.Finset.Card

/-!
# Nested interrupts

`BSP_irq` reads the number of the interrupt, masks that line, accepts
interrupts again while the handler runs, and unmasks the line with
interrupts locked. Other lines nest inside the handler, so the state of
the processor is a stack of invocations, innermost first.
-/

namespace Goldfish.Irq

variable {β : Type*}

/-- The last statement an invocation of `BSP_irq` has completed. A handler
is any program whose own state is a `β`. -/
inductive Phase (β : Type*) where
  /-- `ARM_irq` has stacked the interrupted context, with interrupts locked. -/
  | entered
  /-- `irq = goldfish_get_irq_num()` -/
  | numbered (irq : ℕ)
  /-- `goldfish_mask_irq(irq)` -/
  | masked (irq : ℕ)
  /-- `MSR cpsr_c,#(0x1F)`, inside `irq_handler(irq)` -/
  | handling (irq : ℕ) (body : β)
  /-- `MSR cpsr_c,#(0x1F | 0x80)` -/
  | locked (irq : ℕ)
  /-- `goldfish_unmask_irq(irq)` -/
  | unmasked (irq : ℕ)
  deriving DecidableEq

structure State (β : Type*) where
  /-- Lines enabled in the interrupt controller. -/
  enabled : Finset ℕ
  pending : Finset ℕ
  /-- The processor accepts interrupts: the IRQ bit of CPSR is clear. -/
  accepts : Bool
  frames : List (Phase β)
  /-- Lines that were enabled when the outermost active invocation was entered. -/
  outer : Finset ℕ
  deriving DecidableEq

inductive Event (β : Type*) where
  | raise (irq : ℕ)
  | withdraw (irq : ℕ)
  | mainMask (irq : ℕ)
  | mainUnmask (irq : ℕ)
  | mainDisableAll
  | mainAccept (on : Bool)
  | take
  | number
  | mask
  | unlock (body : β)
  | handler (body : β)
  | lock
  | unmask
  | ret
  deriving DecidableEq

def goldfishGetIrqNum (s : State β) : Option ℕ :=
  if h : (s.enabled ∩ s.pending).Nonempty then some ((s.enabled ∩ s.pending).min' h) else none

def goldfishMaskIrq (irq : ℕ) (s : State β) : State β :=
  { s with enabled := s.enabled.erase irq }

def goldfishUnmaskIrq (irq : ℕ) (s : State β) : State β :=
  { s with enabled := insert irq s.enabled }

def goldfishDisableAllIrq (s : State β) : State β := { s with enabled := ∅ }

/-- Main runs only when no invocation is active; otherwise the innermost
one is the running code. The interrupted context accepted interrupts, so
returning to it does. -/
def step (s : State β) : Event β → Option (State β)
  | .raise irq => some { s with pending := insert irq s.pending }
  | .withdraw irq => some { s with pending := s.pending.erase irq }
  | .mainMask irq =>
      match s.frames with
      | [] => some (goldfishMaskIrq irq s)
      | _ :: _ => none
  | .mainUnmask irq =>
      match s.frames with
      | [] => some (goldfishUnmaskIrq irq s)
      | _ :: _ => none
  | .mainDisableAll =>
      match s.frames with
      | [] => some (goldfishDisableAllIrq s)
      | _ :: _ => none
  | .mainAccept on =>
      match s.frames with
      | [] => some { s with accepts := on }
      | _ :: _ => none
  | .take =>
      if s.accepts ∧ (s.enabled ∩ s.pending).Nonempty then
        some { s with
          accepts := false
          frames := .entered :: s.frames
          outer := if s.frames = [] then s.enabled else s.outer }
      else none
  | .number =>
      match s.frames with
      | .entered :: rest =>
          (goldfishGetIrqNum s).map fun irq => { s with frames := .numbered irq :: rest }
      | _ => none
  | .mask =>
      match s.frames with
      | .numbered irq :: rest =>
          some { goldfishMaskIrq irq s with frames := .masked irq :: rest }
      | _ => none
  | .unlock body =>
      match s.frames with
      | .masked irq :: rest =>
          some { s with accepts := true, frames := .handling irq body :: rest }
      | _ => none
  | .handler body =>
      match s.frames with
      | .handling irq _ :: rest => some { s with frames := .handling irq body :: rest }
      | _ => none
  | .lock =>
      match s.frames with
      | .handling irq _ :: rest =>
          some { s with accepts := false, frames := .locked irq :: rest }
      | _ => none
  | .unmask =>
      match s.frames with
      | .locked irq :: rest =>
          some { goldfishUnmaskIrq irq s with frames := .unmasked irq :: rest }
      | _ => none
  | .ret =>
      match s.frames with
      | .unmasked _ :: rest => some { s with accepts := true, frames := rest }
      | _ => none

/-! ## What an event finds and leaves -/

section Inversion

variable {s t : State β}

theorem step_number (h : step s .number = some t) : ∃ irq rest, s.frames = .entered :: rest ∧
    goldfishGetIrqNum s = some irq ∧ t = { s with frames := .numbered irq :: rest } := by
  simp only [step] at h
  split at h
  case h_1 rest hf =>
    obtain ⟨irq, hnum, ht⟩ := Option.map_eq_some_iff.mp h
    exact ⟨irq, rest, hf, hnum, ht.symm⟩
  case h_2 => cases h

theorem step_mask (h : step s .mask = some t) : ∃ irq rest, s.frames = .numbered irq :: rest ∧
    t = { goldfishMaskIrq irq s with frames := .masked irq :: rest } := by
  simp only [step] at h
  split at h
  case h_1 irq rest hf => exact ⟨irq, rest, hf, (Option.some.inj h).symm⟩
  case h_2 => cases h

theorem step_unlock {body : β} (h : step s (.unlock body) = some t) :
    ∃ irq rest, s.frames = .masked irq :: rest ∧
      t = { s with accepts := true, frames := .handling irq body :: rest } := by
  simp only [step] at h
  split at h
  case h_1 irq rest hf => exact ⟨irq, rest, hf, (Option.some.inj h).symm⟩
  case h_2 => cases h

theorem step_handler {body : β} (h : step s (.handler body) = some t) :
    ∃ irq old rest, s.frames = .handling irq old :: rest ∧
      t = { s with frames := .handling irq body :: rest } := by
  simp only [step] at h
  split at h
  case h_1 irq old rest hf => exact ⟨irq, old, rest, hf, (Option.some.inj h).symm⟩
  case h_2 => cases h

theorem step_lock (h : step s .lock = some t) :
    ∃ irq body rest, s.frames = .handling irq body :: rest ∧
      t = { s with accepts := false, frames := .locked irq :: rest } := by
  simp only [step] at h
  split at h
  case h_1 irq body rest hf => exact ⟨irq, body, rest, hf, (Option.some.inj h).symm⟩
  case h_2 => cases h

theorem step_unmask (h : step s .unmask = some t) : ∃ irq rest, s.frames = .locked irq :: rest ∧
    t = { goldfishUnmaskIrq irq s with frames := .unmasked irq :: rest } := by
  simp only [step] at h
  split at h
  case h_1 irq rest hf => exact ⟨irq, rest, hf, (Option.some.inj h).symm⟩
  case h_2 => cases h

theorem step_ret (h : step s .ret = some t) : ∃ irq rest, s.frames = .unmasked irq :: rest ∧
    t = { s with accepts := true, frames := rest } := by
  simp only [step] at h
  split at h
  case h_1 irq rest hf => exact ⟨irq, rest, hf, (Option.some.inj h).symm⟩
  case h_2 => cases h

end Inversion

def Phase.line : Phase β → Option ℕ
  | .entered => none
  | .numbered irq | .masked irq | .handling irq _ | .locked irq | .unmasked irq => some irq

def Phase.held : Phase β → Option ℕ
  | .entered | .numbered _ | .unmasked _ => none
  | .masked irq | .handling irq _ | .locked irq => some irq

def lines (frames : List (Phase β)) : List ℕ := frames.filterMap Phase.line

def held (frames : List (Phase β)) : List ℕ := frames.filterMap Phase.held

def Phase.isHandling : Phase β → Bool
  | .handling _ _ => true
  | _ => false

/-- The stack while invocations are active: only the innermost may be
outside its handler, and the enabled lines are those of the outermost
entry less the held ones. -/
structure Nested (s : State β) (top : Phase β) (rest : List (Phase β)) : Prop where
  handling : ∀ p ∈ rest, p.isHandling
  accepts : s.accepts = top.isHandling
  nodup : (held s.frames).Nodup
  subset : ∀ irq ∈ held s.frames, irq ∈ s.outer
  enabled : s.enabled = s.outer \ (held s.frames).toFinset
  room : top.held = none → s.enabled.Nonempty
  mine : top.held = none → ∀ irq ∈ top.line, irq ∈ s.enabled

def Inv (s : State β) : Prop := ∀ top rest, s.frames = top :: rest → Nested s top rest

theorem inv_of_no_frames {s : State β} (h : s.frames = []) : Inv s := by
  intro top rest hf
  rw [h] at hf
  cases hf

theorem inv_of_nested {s : State β} {top : Phase β} {rest : List (Phase β)}
    (hf : s.frames = top :: rest) (h : Nested s top rest) : Inv s := by
  intro top' rest' hf'
  rw [hf] at hf'
  cases hf'
  exact h

theorem held_cons (p : Phase β) (rest : List (Phase β)) :
    held (p :: rest) = p.held.toList ++ held rest := by
  cases h : p.held <;> simp [held, h]

theorem lines_cons (p : Phase β) (rest : List (Phase β)) :
    lines (p :: rest) = p.line.toList ++ lines rest := by
  cases h : p.line <;> simp [lines, h]

theorem held_of_handling {p : Phase β} (h : p.isHandling) : p.held = p.line := by
  cases p <;> first | rfl | cases h

theorem line_isSome_of_handling {p : Phase β} (h : p.isHandling) : p.line.isSome := by
  cases p <;> first | rfl | cases h

theorem held_of_all_handling {frames : List (Phase β)} (h : ∀ p ∈ frames, p.isHandling) :
    held frames = lines frames ∧ (lines frames).length = frames.length := by
  induction frames with
  | nil => exact ⟨rfl, rfl⟩
  | cons p frames ih =>
      obtain ⟨heq, hlen⟩ := ih fun q hq => h q (List.mem_cons_of_mem p hq)
      have hp := h p List.mem_cons_self
      obtain ⟨irq, hirq⟩ := Option.isSome_iff_exists.mp (line_isSome_of_handling hp)
      rw [held_cons, lines_cons, held_of_handling hp, heq, hirq]
      exact ⟨rfl, by simp [hlen]⟩

/-! ## Each statement of `BSP_irq` keeps the stack nested -/

section Steps

variable {s : State β} {irq : ℕ} {body body' : β} {top : Phase β} {rest : List (Phase β)}

theorem Nested.rephase (h : Nested s top rest) (hf : s.frames = top :: rest) {top' : Phase β}
    (hheld : top'.held = top.held) (hhandling : top'.isHandling = top.isHandling)
    (hmine : top'.held = none → ∀ irq ∈ top'.line, irq ∈ s.enabled) :
    Nested { s with frames := top' :: rest } top' rest := by
  have hsame : held (top' :: rest) = held s.frames := by
    rw [hf, held_cons, held_cons, hheld]
  refine ⟨h.handling, h.accepts.trans hhandling.symm, ?_, ?_, ?_, fun hn => h.room (hheld ▸ hn),
    hmine⟩
  · exact hsame ▸ h.nodup
  · exact hsame ▸ h.subset
  · exact hsame ▸ h.enabled

theorem Inv.take (hacc : s.accepts = true) (hne : (s.enabled ∩ s.pending).Nonempty)
    (hI : Inv s) :
    Inv { s with
      accepts := false
      frames := .entered :: s.frames
      outer := if s.frames = [] then s.enabled else s.outer } := by
  have hroom : s.enabled.Nonempty := hne.mono Finset.inter_subset_left
  obtain ⟨enabled, pending, accepts, frames, outer⟩ := s
  apply inv_of_nested rfl
  cases frames with
  | nil => exact ⟨nofun, rfl, .nil, nofun, Finset.sdiff_empty.symm, fun _ => hroom, nofun⟩
  | cons top rest =>
      have h := hI top rest rfl
      have htop : top.isHandling := by rw [← h.accepts, hacc]
      have hheld : held (Phase.entered :: top :: rest) = held (top :: rest) := rfl
      simp only [List.cons_ne_nil, if_false]
      refine ⟨?_, rfl, hheld ▸ h.nodup, hheld ▸ h.subset, hheld ▸ h.enabled, fun _ => hroom,
        nofun⟩
      intro p hp
      rcases List.mem_cons.mp hp with rfl | hp
      · exact htop
      · exact h.handling p hp

theorem Nested.mask (h : Nested s (.numbered irq) rest) (hf : s.frames = .numbered irq :: rest) :
    Nested { goldfishMaskIrq irq s with frames := .masked irq :: rest } (.masked irq) rest := by
  have hheld : held s.frames = held rest := by rw [hf]; rfl
  have hmem : irq ∈ s.outer ∧ irq ∉ held rest := by
    have hin := h.mine rfl irq rfl
    rw [h.enabled, hheld] at hin
    simpa using hin
  have hcons : held (Phase.masked irq :: rest) = irq :: held rest := rfl
  refine ⟨h.handling, h.accepts, ?_, ?_, ?_, nofun, nofun⟩
  · rw [hcons]
    exact List.nodup_cons.mpr ⟨hmem.2, hheld ▸ h.nodup⟩
  · intro l hl
    rcases List.mem_cons.mp hl with rfl | hl
    · exact hmem.1
    · exact h.subset l (hheld ▸ hl)
  · change s.enabled.erase irq = s.outer \ (held (Phase.masked irq :: rest)).toFinset
    rw [h.enabled, hheld, hcons]
    ext l
    simp only [Finset.mem_erase, Finset.mem_sdiff, List.mem_toFinset, List.mem_cons]
    tauto

theorem Nested.unlock (h : Nested s (.masked irq) rest) (hf : s.frames = .masked irq :: rest) :
    Nested { s with accepts := true, frames := .handling irq body :: rest }
      (.handling irq body) rest := by
  have hsame : held (Phase.handling irq body :: rest) = held s.frames := by rw [hf]; rfl
  exact ⟨h.handling, rfl, hsame ▸ h.nodup, hsame ▸ h.subset, hsame ▸ h.enabled, nofun, nofun⟩

theorem Nested.lock (h : Nested s (.handling irq body) rest)
    (hf : s.frames = .handling irq body :: rest) :
    Nested { s with accepts := false, frames := .locked irq :: rest } (.locked irq) rest := by
  have hsame : held (Phase.locked irq :: rest) = held s.frames := by rw [hf]; rfl
  exact ⟨h.handling, rfl, hsame ▸ h.nodup, hsame ▸ h.subset, hsame ▸ h.enabled, nofun, nofun⟩

theorem Nested.unmask (h : Nested s (.locked irq) rest) (hf : s.frames = .locked irq :: rest) :
    Nested { goldfishUnmaskIrq irq s with frames := .unmasked irq :: rest }
      (.unmasked irq) rest := by
  have hcons : held s.frames = irq :: held rest := by rw [hf]; rfl
  have hnodup := List.nodup_cons.mp (hcons ▸ h.nodup)
  have houter : irq ∈ s.outer := h.subset irq (by rw [hcons]; exact List.mem_cons_self)
  refine ⟨h.handling, h.accepts, hnodup.2, ?_, ?_, ?_, ?_⟩
  · exact fun l hl => h.subset l (by rw [hcons]; exact List.mem_cons_of_mem irq hl)
  · change insert irq s.enabled = s.outer \ (held rest).toFinset
    rw [h.enabled, hcons]
    ext l
    simp only [Finset.mem_insert, Finset.mem_sdiff, List.mem_toFinset, List.mem_cons]
    by_cases hl : l = irq
    · subst hl
      simp [houter, hnodup.1]
    · simp [hl]
  · exact fun _ => ⟨irq, Finset.mem_insert_self irq _⟩
  · intro _ l hl
    have hl : irq = l := by simpa [Phase.line] using hl
    exact hl ▸ Finset.mem_insert_self irq _

theorem Nested.ret (h : Nested s (.unmasked irq) rest) (hf : s.frames = .unmasked irq :: rest) :
    Inv { s with accepts := true, frames := rest } := by
  have hheld : held s.frames = held rest := by rw [hf]; rfl
  intro top rest' hrest
  dsimp only at hrest
  subst hrest
  have htop := h.handling top List.mem_cons_self
  have hsome : top.held ≠ none := by
    rw [held_of_handling htop]
    exact Option.isSome_iff_ne_none.mp (line_isSome_of_handling htop)
  refine ⟨fun p hp => h.handling p (List.mem_cons_of_mem top hp), ?_, hheld ▸ h.nodup,
    hheld ▸ h.subset, hheld ▸ h.enabled, fun hn => absurd hn hsome, fun hn => absurd hn hsome⟩
  exact htop.symm

end Steps

theorem goldfishGetIrqNum_mem {s : State β} {irq : ℕ} (h : goldfishGetIrqNum s = some irq) :
    irq ∈ s.enabled := by
  unfold goldfishGetIrqNum at h
  split at h
  · rename_i hne
    obtain rfl := Option.some.inj h
    exact (Finset.mem_inter.mp (Finset.min'_mem _ hne)).1
  · cases h

theorem Inv.of_eq {s t : State β} (hI : Inv s) (hframes : t.frames = s.frames)
    (haccepts : t.accepts = s.accepts) (henabled : t.enabled = s.enabled)
    (houter : t.outer = s.outer) : Inv t := by
  intro top rest hf
  have h := hI top rest (hframes ▸ hf)
  refine ⟨h.handling, haccepts ▸ h.accepts, hframes ▸ h.nodup, ?_, ?_, henabled ▸ h.room,
    henabled ▸ h.mine⟩
  · rw [hframes, houter]
    exact h.subset
  · rw [henabled, hframes, houter]
    exact h.enabled

theorem step_inv {s t : State β} {e : Event β} (hI : Inv s) (h : step s e = some t) : Inv t := by
  cases e with
  | raise irq | withdraw irq =>
      obtain rfl := Option.some.inj h
      exact hI.of_eq rfl rfl rfl rfl
  | mainMask irq | mainUnmask irq | mainDisableAll =>
      cases hf : s.frames with
      | nil =>
          simp only [step, hf, Option.some.injEq] at h
          exact inv_of_no_frames (h ▸ hf)
      | cons top rest => simp [step, hf] at h
  | mainAccept on =>
      cases hf : s.frames with
      | nil =>
          simp only [step, hf, Option.some.injEq] at h
          exact h ▸ inv_of_no_frames rfl
      | cons top rest => simp [step, hf] at h
  | take =>
      simp only [step, Option.ite_none_right_eq_some, Option.some.injEq] at h
      obtain ⟨⟨hacc, hne⟩, rfl⟩ := h
      exact hI.take hacc hne
  | number =>
      obtain ⟨irq, rest, hf, hnum, rfl⟩ := step_number h
      refine inv_of_nested rfl ((hI _ _ hf).rephase hf rfl rfl ?_)
      intro _ l hl
      obtain rfl : irq = l := by simpa [Phase.line] using hl
      exact goldfishGetIrqNum_mem hnum
  | mask =>
      obtain ⟨irq, rest, hf, rfl⟩ := step_mask h
      exact inv_of_nested rfl ((hI _ _ hf).mask hf)
  | unlock body =>
      obtain ⟨irq, rest, hf, rfl⟩ := step_unlock h
      exact inv_of_nested rfl ((hI _ _ hf).unlock hf)
  | handler body =>
      obtain ⟨irq, old, rest, hf, rfl⟩ := step_handler h
      exact inv_of_nested rfl ((hI _ _ hf).rephase hf rfl rfl nofun)
  | lock =>
      obtain ⟨irq, body, rest, hf, rfl⟩ := step_lock h
      exact inv_of_nested rfl ((hI _ _ hf).lock hf)
  | unmask =>
      obtain ⟨irq, rest, hf, rfl⟩ := step_unmask h
      exact inv_of_nested rfl ((hI _ _ hf).unmask hf)
  | ret =>
      obtain ⟨irq, rest, hf, rfl⟩ := step_ret h
      exact (hI _ _ hf).ret hf

theorem run_inv {s t : State β} {events : List (Event β)} (hs : Inv s)
    (h : Runs.run step s events = some t) : Inv t :=
  Runs.invariant (fun _ _ _ => step_inv) hs h

/-! ## What the nesting guarantees -/

theorem Nested.depth_le {s : State β} {top : Phase β} {rest : List (Phase β)}
    (h : Nested s top rest) (hf : s.frames = top :: rest) :
    s.frames.length ≤ s.outer.card := by
  obtain ⟨heq, hlen⟩ := held_of_all_handling h.handling
  have hcons : held s.frames = top.held.toList ++ lines rest := by rw [hf, held_cons, heq]
  have hsub : (held s.frames).toFinset ⊆ s.outer :=
    fun irq hirq => h.subset irq (List.mem_toFinset.mp hirq)
  have hcard := List.toFinset_card_of_nodup h.nodup
  have hheld : (held s.frames).length = top.held.toList.length + rest.length := by
    rw [hcons, List.length_append, hlen]
  rw [hf, List.length_cons]
  cases htop : top.held with
  | none =>
      obtain ⟨irq, hirq⟩ := h.room htop
      rw [h.enabled] at hirq
      have hss : (held s.frames).toFinset ⊂ s.outer :=
        (Finset.ssubset_iff_of_subset hsub).mpr ⟨irq, Finset.mem_sdiff.mp hirq⟩
      have hlt := Finset.card_lt_card hss
      simp only [htop, Option.toList_none, List.length_nil] at hheld
      omega
  | some irq =>
      have hle := Finset.card_le_card hsub
      simp only [htop, Option.toList_some, List.length_singleton] at hheld
      omega

structure Balanced (s : State β) : Prop where
  /-- Every active invocation has a line of its own. -/
  distinct : s.accepts = true →
    (lines s.frames).length = s.frames.length ∧ (lines s.frames).Nodup
  enabled : s.accepts = true → s.frames ≠ [] →
    s.enabled = s.outer \ (lines s.frames).toFinset
  depth : s.frames ≠ [] → s.frames.length ≤ s.outer.card
  restored : ∀ t, step s .ret = some t → t.frames = [] → t.enabled = s.outer

theorem Inv.balanced {s : State β} (hI : Inv s) : Balanced s := by
  have hserving : s.accepts = true → s.frames ≠ [] →
      held s.frames = lines s.frames ∧ (lines s.frames).length = s.frames.length := by
    intro hacc hne
    obtain ⟨top, rest, hf⟩ := List.exists_cons_of_ne_nil hne
    have h := hI top rest hf
    apply held_of_all_handling
    intro p hp
    rcases List.mem_cons.mp (hf ▸ hp) with rfl | hp
    · rw [← h.accepts, hacc]
    · exact h.handling p hp
  refine ⟨?_, ?_, ?_, ?_⟩
  · intro hacc
    by_cases hne : s.frames = []
    · rw [hne]
      exact ⟨rfl, .nil⟩
    · obtain ⟨top, rest, hf⟩ := List.exists_cons_of_ne_nil hne
      obtain ⟨heq, hlen⟩ := hserving hacc hne
      exact ⟨hlen, heq ▸ (hI top rest hf).nodup⟩
  · intro hacc hne
    obtain ⟨top, rest, hf⟩ := List.exists_cons_of_ne_nil hne
    rw [← (hserving hacc hne).1]
    exact (hI top rest hf).enabled
  · intro hne
    obtain ⟨top, rest, hf⟩ := List.exists_cons_of_ne_nil hne
    exact (hI top rest hf).depth_le hf
  · intro t ht hnil
    obtain ⟨irq, rest, hf, rfl⟩ := step_ret ht
    dsimp only at hnil
    subst hnil
    have h := hI _ _ hf
    have hheld : held s.frames = [] := by rw [hf]; rfl
    have henabled := h.enabled
    rw [hheld] at henabled
    exact henabled.trans Finset.sdiff_empty

/-- From any state of the main program, in every order of interrupts. -/
theorem balanced_of_run (s t : State β) (events : List (Event β)) (hs : s.frames = [])
    (h : Runs.run step s events = some t) : Balanced t :=
  (run_inv (inv_of_no_frames hs) h).balanced

def twoLines : State Unit := ⟨{3, 12}, ∅, true, [], ∅⟩

def nestedRun : List (Event Unit) :=
  [.raise 12, .take, .number, .mask, .unlock (), .raise 3, .take, .number, .mask, .unlock ()]

theorem balanced_nestedRun : ∃ t : State Unit,
    Runs.run step twoLines nestedRun = some t ∧ lines t.frames = [3, 12] ∧ Balanced t :=
  ⟨_, rfl, rfl, balanced_of_run twoLines _ nestedRun rfl rfl⟩

end Goldfish.Irq
