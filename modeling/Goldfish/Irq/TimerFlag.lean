import Goldfish.Irq.Controller
import Goldfish.Word

/-!
# The timer flag of c07e3

`irq_handler` of c07e3 sets `timer_irq` when a `t` key arms the timer and
clears it when the timer interrupts. Both handlers run with the other line
enabled, so either can be interrupted by the other in the middle. The
machine is that of `BSP_irq` with the two handler bodies as its handlers,
an alarm that may fire at any step once armed, and the ghost component
`outstanding`: a `t` has armed the alarm and no timer interrupt has been
acknowledged since.
-/

namespace Goldfish.Irq.TimerFlag

def irqTimer : ℕ := 3

def irqTty2 : ℕ := 12

-- 't', 'x' and 'r'
def keyT : U32 := 0x74#32

def keyX : U32 := 0x78#32

def keyR : U32 := 0x72#32

inductive Tty2Pc where
  | getchar
  | testT
  | setTimer
  | bumpTimeout
  | setFlag
  | testX
  | testR
  | done
  deriving DecidableEq

inductive TimerPc where
  | clearInt
  | clearFlag
  | done
  deriving DecidableEq

inductive Body where
  | tty2 (pc : Tty2Pc)
  | timer (pc : TimerPc)
  | other
  deriving DecidableEq

def Body.start (irq : ℕ) : Body :=
  if irq = irqTty2 then .tty2 .getchar
  else if irq = irqTimer then .timer .clearInt
  else .other

def Body.finished : Body → Bool
  | .tty2 .done | .timer .done | .other => true
  | _ => false

/-- The globals of c07e3 the handlers use, and the alarm of the timer.
`outstanding` is a ghost. -/
structure Program where
  ch : U32
  timeout : U32
  timerIrq : U32
  armed : Bool
  outstanding : Bool
  deriving DecidableEq

structure State where
  irq : Irq.State Body
  prog : Program
  deriving DecidableEq

inductive Event where
  -- another device raises or lowers its line
  | raise (irq : ℕ)
  | withdraw (irq : ℕ)
  -- the armed alarm fires
  | fire
  | mainMaskTimer
  | mainUnmaskTimer
  | mainClearCh
  | take
  | number
  | mask
  | unlock
  -- the innermost handler runs its next statement, and `getchar` returns `c`
  | body (c : U32)
  | lock
  | unmask
  | ret
  deriving DecidableEq

def tty2Step (c : U32) (p : Program) : Tty2Pc → Program × Tty2Pc
  | .getchar => ({ p with ch := c }, .testT)
  | .testT => (p, if p.ch = keyT then .setTimer else .testX)
  | .setTimer => ({ p with armed := true, outstanding := true }, .bumpTimeout)
  | .bumpTimeout => ({ p with timeout := p.timeout + 1 }, .setFlag)
  | .setFlag => ({ p with timerIrq := 1 }, .testX)
  | .testX =>
      (if p.ch = keyX ∧ 0 < p.timeout.toInt then { p with timeout := p.timeout * 10 } else p,
        .testR)
  | .testR => (if p.ch = keyR then { p with timeout := 0 } else p, .done)
  | .done => (p, .done)

def timerStep (p : Program) : TimerPc → Program × TimerPc
  | .clearInt => ({ p with outstanding := false }, .clearFlag)
  | .clearFlag => ({ p with timerIrq := 0 }, .done)
  | .done => (p, .done)

def lowerTimer (irq : Irq.State Body) : TimerPc → Irq.State Body
  | .clearInt => { irq with pending := irq.pending.erase irqTimer }
  | .clearFlag | .done => irq

def State.onIrq (s : State) (e : Irq.Event Body) (f : Program → Program) : Option State :=
  (Irq.step s.irq e).map fun irq => ⟨irq, f s.prog⟩

def step (s : State) : Event → Option State
  | .raise irq => if irq = irqTimer then none else s.onIrq (.raise irq) id
  | .withdraw irq => if irq = irqTimer then none else s.onIrq (.withdraw irq) id
  | .fire =>
      if s.prog.armed then s.onIrq (.raise irqTimer) fun p => { p with armed := false } else none
  | .mainMaskTimer => s.onIrq (.mainMask irqTimer) id
  | .mainUnmaskTimer => s.onIrq (.mainUnmask irqTimer) id
  | .mainClearCh =>
      match s.irq.frames with
      | [] => some { s with prog := { s.prog with ch := 0 } }
      | _ :: _ => none
  | .take => s.onIrq .take id
  | .number => s.onIrq .number id
  | .mask => s.onIrq .mask id
  | .unlock =>
      match s.irq.frames with
      | .masked irq :: _ => s.onIrq (.unlock (Body.start irq)) id
      | _ => none
  | .body c =>
      match s.irq.frames with
      | .handling irq (.tty2 pc) :: rest =>
          let (prog, pc') := tty2Step c s.prog pc
          some ⟨{ s.irq with frames := .handling irq (.tty2 pc') :: rest }, prog⟩
      | .handling irq (.timer pc) :: rest =>
          let (prog, pc') := timerStep s.prog pc
          some ⟨{ lowerTimer s.irq pc with frames := .handling irq (.timer pc') :: rest }, prog⟩
      | _ => none
  | .lock =>
      match s.irq.frames with
      | .handling _ body :: _ => if body.finished then s.onIrq .lock id else none
      | _ => none
  | .unmask => s.onIrq .unmask id
  | .ret => s.onIrq .ret id

def Initial (s : State) : Prop :=
  s.irq.frames = [] ∧ s.prog.armed = false ∧ s.prog.outstanding = false ∧ s.prog.timerIrq = 0

/-- What `timer_irq` is for. -/
def FlagTells (s : State) : Prop :=
  s.irq.frames = [] → (0 < s.prog.timerIrq.toInt ↔ s.prog.outstanding = true)

/-! ## The two windows -/

def handlers (frames : List (Phase Body)) : List (Phase Body) :=
  frames.filter Phase.isHandling

theorem handlers_handling (irq : ℕ) (body : Body) (rest : List (Phase Body)) :
    handlers (.handling irq body :: rest) = .handling irq body :: handlers rest := rfl

/-- A `t` has armed the alarm and has not set the flag yet. -/
def arming : Phase Body → Bool
  | .handling _ (.tty2 .bumpTimeout) | .handling _ (.tty2 .setFlag) => true
  | _ => false

/-- A timer interrupt is acknowledged and the flag is not cleared yet. -/
def acking : Phase Body → Bool
  | .handling _ (.timer .clearFlag) => true
  | _ => false

/-- No timer interrupt is acknowledged inside the first window, and no `t`
arms the alarm inside the second. -/
def undisturbed (s : State) : Event → Bool
  | .body _ =>
      match s.irq.frames with
      | .handling _ (.timer .clearInt) :: rest => !(handlers rest).any arming
      | .handling _ (.tty2 .setTimer) :: rest => !(handlers rest).any acking
      | _ => true
  | _ => true

/-! ## Projection to the interrupt machine -/

theorem onIrq_eq_some {s t : State} {e : Irq.Event Body} {f : Program → Program}
    (h : s.onIrq e f = some t) : Irq.step s.irq e = some t.irq ∧ t.prog = f s.prog := by
  obtain ⟨irq, hirq, rfl⟩ := Option.map_eq_some_iff.mp h
  exact ⟨hirq, rfl⟩

theorem run_single {irq irq' : Irq.State Body} {e : Irq.Event Body}
    (h : Irq.step irq e = some irq') : Runs.run Irq.step irq [e] = some irq' :=
  Runs.run_cons_iff.mpr ⟨irq', h, rfl⟩

theorem onIrq_projects {s t : State} {e : Irq.Event Body} {f : Program → Program}
    (h : s.onIrq e f = some t) : ∃ ds, Runs.run Irq.step s.irq ds = some t.irq :=
  ⟨[e], run_single (onIrq_eq_some h).1⟩

theorem step_mainClearCh {s t : State} (h : step s .mainClearCh = some t) :
    s.irq.frames = [] ∧ t = { s with prog := { s.prog with ch := 0 } } := by
  simp only [step] at h
  split at h
  case h_1 hf => exact ⟨hf, (Option.some.inj h).symm⟩
  case h_2 => cases h

theorem step_unlock {s t : State} (h : step s .unlock = some t) :
    ∃ irq rest, s.irq.frames = .masked irq :: rest ∧
      s.onIrq (.unlock (Body.start irq)) id = some t := by
  simp only [step] at h
  split at h
  case h_1 irq rest hf => exact ⟨irq, rest, hf, h⟩
  case h_2 => cases h

theorem step_lock {s t : State} (h : step s .lock = some t) :
    ∃ irq body rest, s.irq.frames = .handling irq body :: rest ∧ body.finished = true ∧
      s.onIrq .lock id = some t := by
  simp only [step] at h
  split at h
  case h_1 irq body rest hf =>
    obtain ⟨hbody, hlock⟩ := Option.ite_none_right_eq_some.mp h
    exact ⟨irq, body, rest, hf, hbody, hlock⟩
  case h_2 => cases h

/-- A statement of the innermost handler: of the console or of the timer. -/
theorem step_body {s t : State} {c : U32} (h : step s (.body c) = some t) :
    (∃ irq pc rest, s.irq.frames = .handling irq (.tty2 pc) :: rest ∧
      t = ⟨{ s.irq with frames := .handling irq (.tty2 (tty2Step c s.prog pc).2) :: rest },
        (tty2Step c s.prog pc).1⟩) ∨
    ∃ irq pc rest, s.irq.frames = .handling irq (.timer pc) :: rest ∧
      t = ⟨{ lowerTimer s.irq pc with
        frames := .handling irq (.timer (timerStep s.prog pc).2) :: rest },
        (timerStep s.prog pc).1⟩ := by
  simp only [step] at h
  split at h
  case h_1 irq pc rest hf => exact .inl ⟨irq, pc, rest, hf, (Option.some.inj h).symm⟩
  case h_2 irq pc rest hf => exact .inr ⟨irq, pc, rest, hf, (Option.some.inj h).symm⟩
  case h_3 => cases h

/-- Every step of c07e3 is a run of the interrupt machine. -/
theorem step_projects (s : State) (e : Event) (t : State) (h : step s e = some t) :
    ∃ ds, Runs.run Irq.step s.irq ds = some t.irq := by
  cases e with
  | raise irq | withdraw irq =>
      simp only [step, Option.ite_none_left_eq_some] at h
      exact onIrq_projects h.2
  | fire =>
      simp only [step, Option.ite_none_right_eq_some] at h
      exact onIrq_projects h.2
  | mainMaskTimer | mainUnmaskTimer | take | number | mask | unmask | ret =>
      exact onIrq_projects h
  | mainClearCh =>
      obtain ⟨_, rfl⟩ := step_mainClearCh h
      exact ⟨[], rfl⟩
  | unlock =>
      obtain ⟨irq, rest, _, hunlock⟩ := step_unlock h
      exact onIrq_projects hunlock
  | body c =>
      rcases step_body h with ⟨irq, pc, rest, hf, rfl⟩ | ⟨irq, pc, rest, hf, rfl⟩
      · refine ⟨[.handler (.tty2 (tty2Step c s.prog pc).2)], run_single ?_⟩
        simp only [Irq.step, hf]
      · cases pc with
        | clearInt =>
            refine ⟨[.withdraw irqTimer, .handler (.timer .clearFlag)], ?_⟩
            refine Runs.run_cons_iff.mpr ⟨_, rfl, run_single ?_⟩
            simp only [Irq.step, hf]
            rfl
        | clearFlag | done =>
            refine ⟨[.handler (.timer .done)], run_single ?_⟩
            simp only [Irq.step, hf]
            rfl
  | lock =>
      obtain ⟨irq, body, rest, _, _, hlock⟩ := step_lock h
      exact onIrq_projects hlock

/-! ## The invariant -/

def Body.serves : Body → Option ℕ
  | .tty2 _ => some irqTty2
  | .timer _ => some irqTimer
  | .other => none

def Matched (hs : List (Phase Body)) : Prop :=
  ∀ irq body, .handling irq body ∈ hs → ∀ l ∈ body.serves, l = irq

structure FlagInv (arm ack : Bool) (p : Program) : Prop where
  apart : ¬ (arm = true ∧ ack = true)
  armed : arm = true → p.outstanding = true
  acked : ack = true → p.outstanding = false
  flag : arm = false → ack = false → (0 < p.timerIrq.toInt ↔ p.outstanding = true)

structure Inv (s : State) : Prop where
  irq : Irq.Inv s.irq
  matched : Matched (handlers s.irq.frames)
  flag : FlagInv ((handlers s.irq.frames).any arming) ((handlers s.irq.frames).any acking) s.prog

theorem Initial.inv {s : State} (h : Initial s) : Inv s := by
  obtain ⟨hframes, -, hout, hflag⟩ := h
  refine ⟨inv_of_no_frames hframes, ?_, ?_⟩
  · rw [hframes]
    exact nofun
  · rw [hframes]
    refine ⟨nofun, nofun, nofun, ?_⟩
    intro _ _
    rw [hflag, hout]
    decide

def plain : Irq.Event Body → Bool
  | .unlock _ | .handler _ | .lock => false
  | _ => true

theorem handlers_of_plain {irq irq' : Irq.State Body} {e : Irq.Event Body}
    (hplain : plain e = true) (h : Irq.step irq e = some irq') :
    handlers irq'.frames = handlers irq.frames := by
  cases e with
  | raise l | withdraw l =>
      obtain rfl := Option.some.inj h
      rfl
  | mainMask l | mainUnmask l | mainDisableAll | mainAccept on =>
      cases hf : irq.frames with
      | nil =>
          simp only [Irq.step, hf, Option.some.injEq] at h
          subst h
          first | rfl | exact congrArg handlers hf
      | cons p rest => simp [Irq.step, hf] at h
  | take =>
      simp only [Irq.step, Option.ite_none_right_eq_some, Option.some.injEq] at h
      obtain ⟨_, rfl⟩ := h
      rfl
  | number =>
      obtain ⟨l, rest, hf, _, rfl⟩ := Irq.step_number h
      rw [hf]
      rfl
  | mask =>
      obtain ⟨l, rest, hf, rfl⟩ := Irq.step_mask h
      rw [hf]
      rfl
  | unmask =>
      obtain ⟨l, rest, hf, rfl⟩ := Irq.step_unmask h
      rw [hf]
      rfl
  | ret =>
      obtain ⟨l, rest, hf, rfl⟩ := Irq.step_ret h
      rw [hf]
      rfl
  | unlock body | handler body | lock => cases hplain

theorem serves_unique {irq : Irq.State Body} {l : ℕ} {body : Body} {rest : List (Phase Body)}
    (hI : Irq.Inv irq) (hf : irq.frames = .handling l body :: rest)
    (hm : Matched (handlers irq.frames)) {m : ℕ} {body' : Body}
    (hmem : .handling m body' ∈ handlers rest) (hserves : body.serves.isSome) :
    body'.serves ≠ body.serves := by
  intro heq
  obtain ⟨k, hk⟩ := Option.isSome_iff_exists.mp hserves
  have hframes : handlers irq.frames = .handling l body :: handlers rest := by
    rw [hf, handlers_handling]
  have hl : k = l := hm l body (by rw [hframes]; exact List.mem_cons_self) k hk
  have hm' : k = m :=
    hm m body' (by rw [hframes]; exact List.mem_cons_of_mem _ hmem) k (heq ▸ hk)
  have hnodup : (l :: held rest).Nodup := by
    have h := (hI _ _ hf).nodup
    rwa [hf] at h
  apply (List.nodup_cons.mp hnodup).1
  rw [← hl, hm']
  exact List.mem_filterMap.mpr ⟨_, (List.mem_filter.mp hmem).1, rfl⟩

theorem any_eq_false_of_serves {irq : Irq.State Body} {l : ℕ} {body : Body}
    {rest : List (Phase Body)} {f : Phase Body → Bool} (hI : Irq.Inv irq)
    (hf : irq.frames = .handling l body :: rest) (hm : Matched (handlers irq.frames))
    (hserves : body.serves.isSome)
    (hf' : ∀ p, f p = true → ∃ m body', p = .handling m body' ∧ body'.serves = body.serves) :
    (handlers rest).any f = false := by
  rw [List.any_eq_false]
  intro p hp hfp
  obtain ⟨m, body', rfl, heq⟩ := hf' p hfp
  exact serves_unique hI hf hm hp hserves heq

/-! ## Each step keeps the invariant -/

theorem FlagInv.congr {arm ack : Bool} {p q : Program} (h : FlagInv arm ack p)
    (hflag : q.timerIrq = p.timerIrq) (hout : q.outstanding = p.outstanding) :
    FlagInv arm ack q := by
  refine ⟨h.apart, ?_, ?_, ?_⟩
  · rw [hout]
    exact h.armed
  · rw [hout]
    exact h.acked
  · rw [hflag, hout]
    exact h.flag

theorem FlagInv.arm {p : Program} :
    FlagInv true false { p with armed := true, outstanding := true } :=
  ⟨nofun, fun _ => rfl, nofun, nofun⟩

theorem FlagInv.set {ack : Bool} {p : Program} (h : FlagInv true ack p) :
    FlagInv false ack { p with timerIrq := 1 } := by
  have hack : ack = false := by
    cases ack with
    | false => rfl
    | true => exact absurd ⟨rfl, rfl⟩ h.apart
  subst hack
  refine ⟨nofun, nofun, nofun, ?_⟩
  intro _ _
  simpa using h.armed rfl

theorem FlagInv.ack {p : Program} :
    FlagInv false true { p with outstanding := false } :=
  ⟨nofun, nofun, fun _ => rfl, nofun⟩

theorem FlagInv.clear {arm : Bool} {p : Program} (h : FlagInv arm true p) :
    FlagInv arm false { p with timerIrq := 0 } := by
  have harm : arm = false := by
    cases arm with
    | false => rfl
    | true => exact absurd ⟨rfl, rfl⟩ h.apart
  subst harm
  refine ⟨nofun, nofun, nofun, ?_⟩
  intro _ _
  simp [h.acked rfl]

theorem Inv.of_handlers {s t : State} (hI : Inv s) (hirq : Irq.Inv t.irq)
    (hhandlers : handlers t.irq.frames = handlers s.irq.frames)
    (hflag : t.prog.timerIrq = s.prog.timerIrq)
    (hout : t.prog.outstanding = s.prog.outstanding) : Inv t := by
  refine ⟨hirq, ?_, ?_⟩
  · rw [hhandlers]
    exact hI.matched
  · rw [hhandlers]
    exact hI.flag.congr hflag hout

theorem onIrq_inv {s t : State} {e : Irq.Event Body} {f : Program → Program} (hI : Inv s)
    (hplain : plain e = true) (hflag : (f s.prog).timerIrq = s.prog.timerIrq)
    (hout : (f s.prog).outstanding = s.prog.outstanding) (h : s.onIrq e f = some t) : Inv t := by
  obtain ⟨hstep, hprog⟩ := onIrq_eq_some h
  refine hI.of_handlers (Irq.step_inv hI.irq hstep) (handlers_of_plain hplain hstep) ?_ ?_
  · rw [hprog, hflag]
  · rw [hprog, hout]

theorem start_serves {irq l : ℕ} (h : l ∈ (Body.start irq).serves) : l = irq := by
  unfold Body.start at h
  split at h
  · rename_i heq
    exact (Option.some.inj h).symm.trans heq.symm
  · split at h
    · rename_i heq
      exact (Option.some.inj h).symm.trans heq.symm
    · cases h

theorem start_quiet (irq : ℕ) :
    arming (.handling irq (Body.start irq)) = false ∧
      acking (.handling irq (Body.start irq)) = false := by
  unfold Body.start
  split
  · exact ⟨rfl, rfl⟩
  · split <;> exact ⟨rfl, rfl⟩

theorem unlock_inv {s t : State} {irq : ℕ} {rest : List (Phase Body)} (hI : Inv s)
    (hf : s.irq.frames = .masked irq :: rest)
    (h : s.onIrq (.unlock (Body.start irq)) id = some t) : Inv t := by
  obtain ⟨hstep, hprog⟩ := onIrq_eq_some h
  have hirq := Irq.step_inv hI.irq hstep
  have hframes : t.irq.frames = .handling irq (Body.start irq) :: rest := by
    simp only [Irq.step, hf, Option.some.injEq] at hstep
    exact hstep ▸ rfl
  have hnew : handlers t.irq.frames =
      .handling irq (Body.start irq) :: handlers s.irq.frames := by rw [hframes, hf]; rfl
  refine ⟨hirq, ?_, ?_⟩
  · rw [hnew]
    intro l body hmem k hk
    rcases List.mem_cons.mp hmem with heq | hmem
    · cases heq
      exact start_serves hk
    · exact hI.matched l body hmem k hk
  · rw [hnew, hprog, List.any_cons, List.any_cons, (start_quiet irq).1, (start_quiet irq).2]
    exact hI.flag

theorem finished_quiet {irq : ℕ} {body : Body} (h : body.finished = true) :
    arming (.handling irq body) = false ∧ acking (.handling irq body) = false := by
  match body with
  | .tty2 .done | .timer .done | .other => exact ⟨rfl, rfl⟩

theorem lock_inv {s t : State} {irq : ℕ} {body : Body} {rest : List (Phase Body)} (hI : Inv s)
    (hf : s.irq.frames = .handling irq body :: rest) (hbody : body.finished = true)
    (h : s.onIrq .lock id = some t) : Inv t := by
  obtain ⟨hstep, hprog⟩ := onIrq_eq_some h
  have hirq := Irq.step_inv hI.irq hstep
  have hframes : t.irq.frames = .locked irq :: rest := by
    simp only [Irq.step, hf, Option.some.injEq] at hstep
    exact hstep ▸ rfl
  have hold : handlers s.irq.frames = .handling irq body :: handlers t.irq.frames := by
    rw [hframes, hf]
    rfl
  have hm := hI.matched
  have hflag := hI.flag
  rw [hold] at hm
  rw [hold, List.any_cons, List.any_cons, (finished_quiet hbody).1,
    (finished_quiet hbody).2] at hflag
  exact ⟨hirq, fun l b hmem => hm l b (List.mem_cons_of_mem _ hmem), hprog ▸ hflag⟩

theorem Inv.rebody {s t : State} {irq : ℕ} {body body' : Body} {rest : List (Phase Body)}
    (hI : Inv s) (hf : s.irq.frames = .handling irq body :: rest)
    (hserves : body'.serves = body.serves) (hirq : Irq.Inv t.irq)
    (hf' : t.irq.frames = .handling irq body' :: rest)
    (hflag : FlagInv (arming (.handling irq body') || (handlers rest).any arming)
      (acking (.handling irq body') || (handlers rest).any acking) t.prog) : Inv t := by
  have hold : handlers s.irq.frames = .handling irq body :: handlers rest := by
    rw [hf, handlers_handling]
  have hnew : handlers t.irq.frames = .handling irq body' :: handlers rest := by
    rw [hf', handlers_handling]
  refine ⟨hirq, ?_, ?_⟩
  · rw [hnew]
    intro l b hmem k hk
    rcases List.mem_cons.mp hmem with heq | hmem
    · cases heq
      exact hI.matched irq body (by rw [hold]; exact List.mem_cons_self) k (hserves ▸ hk)
    · exact hI.matched l b (by rw [hold]; exact List.mem_cons_of_mem _ hmem) k hk
  · rw [hnew]
    exact hflag

theorem tty2_of_arming {p : Phase Body} (h : arming p = true) :
    ∃ m pc, p = .handling m (.tty2 pc) := by
  unfold arming at h
  split at h
  · exact ⟨_, _, rfl⟩
  · exact ⟨_, _, rfl⟩
  · cases h

theorem timer_of_acking {p : Phase Body} (h : acking p = true) :
    ∃ m pc, p = .handling m (.timer pc) := by
  unfold acking at h
  split at h
  · exact ⟨_, _, rfl⟩
  · cases h

theorem tty2Step_flag {irq : ℕ} {c : U32} {p : Program} {pc : Tty2Pc} {ack : Bool}
    (h : FlagInv (arming (.handling irq (.tty2 pc))) ack p)
    (hok : pc = .setTimer → ack = false) :
    FlagInv (arming (.handling irq (.tty2 (tty2Step c p pc).2))) ack (tty2Step c p pc).1 := by
  cases pc with
  | getchar => exact h.congr rfl rfl
  | testT =>
      simp only [tty2Step]
      split <;> exact h
  | setTimer =>
      obtain rfl := hok rfl
      exact FlagInv.arm
  | bumpTimeout => exact h.congr rfl rfl
  | setFlag => exact h.set
  | testX =>
      simp only [tty2Step]
      split
      · exact h.congr rfl rfl
      · exact h
  | testR =>
      simp only [tty2Step]
      split
      · exact h.congr rfl rfl
      · exact h
  | done => exact h

theorem timerStep_flag {irq : ℕ} {p : Program} {pc : TimerPc} {arm : Bool}
    (h : FlagInv arm (acking (.handling irq (.timer pc))) p)
    (hok : pc = .clearInt → arm = false) :
    FlagInv arm (acking (.handling irq (.timer (timerStep p pc).2))) (timerStep p pc).1 := by
  cases pc with
  | clearInt =>
      obtain rfl := hok rfl
      exact FlagInv.ack
  | clearFlag => exact h.clear
  | done => exact h

theorem no_arming_below {s : State} {irq : ℕ} {pc : Tty2Pc} {rest : List (Phase Body)}
    (hI : Inv s) (hf : s.irq.frames = .handling irq (.tty2 pc) :: rest) :
    (handlers rest).any arming = false := by
  apply any_eq_false_of_serves hI.irq hf hI.matched rfl
  intro p hp
  obtain ⟨m, pc', rfl⟩ := tty2_of_arming hp
  exact ⟨m, _, rfl, rfl⟩

theorem no_acking_below {s : State} {irq : ℕ} {pc : TimerPc} {rest : List (Phase Body)}
    (hI : Inv s) (hf : s.irq.frames = .handling irq (.timer pc) :: rest) :
    (handlers rest).any acking = false := by
  apply any_eq_false_of_serves hI.irq hf hI.matched rfl
  intro p hp
  obtain ⟨m, pc', rfl⟩ := timer_of_acking hp
  exact ⟨m, _, rfl, rfl⟩

theorem tty2_inv {s : State} {irq : ℕ} {pc : Tty2Pc} {rest : List (Phase Body)} {c : U32}
    (hI : Inv s) (hf : s.irq.frames = .handling irq (.tty2 pc) :: rest)
    (hok : undisturbed s (.body c) = true)
    (hirq : Irq.Inv { s.irq with
      frames := .handling irq (.tty2 (tty2Step c s.prog pc).2) :: rest }) :
    Inv ⟨{ s.irq with frames := .handling irq (.tty2 (tty2Step c s.prog pc).2) :: rest },
      (tty2Step c s.prog pc).1⟩ := by
  have hbelow := no_arming_below hI hf
  have hold : FlagInv (arming (.handling irq (.tty2 pc))) ((handlers rest).any acking) s.prog := by
    have h := hI.flag
    rw [hf, handlers_handling, List.any_cons, List.any_cons, hbelow, Bool.or_false] at h
    exact h
  have hwindow : pc = .setTimer → (handlers rest).any acking = false := by
    rintro rfl
    simpa only [undisturbed, hf, Bool.not_eq_true'] using hok
  have hserves : (Body.tty2 (tty2Step c s.prog pc).2).serves = (Body.tty2 pc).serves := rfl
  apply hI.rebody hf hserves hirq rfl
  rw [hbelow, Bool.or_false]
  exact tty2Step_flag hold hwindow

theorem timer_inv {s : State} {irq : ℕ} {pc : TimerPc} {rest : List (Phase Body)} {c : U32}
    (hI : Inv s) (hf : s.irq.frames = .handling irq (.timer pc) :: rest)
    (hok : undisturbed s (.body c) = true)
    (hirq : Irq.Inv { lowerTimer s.irq pc with
      frames := .handling irq (.timer (timerStep s.prog pc).2) :: rest }) :
    Inv ⟨{ lowerTimer s.irq pc with
      frames := .handling irq (.timer (timerStep s.prog pc).2) :: rest },
      (timerStep s.prog pc).1⟩ := by
  have hbelow := no_acking_below hI hf
  have hold : FlagInv ((handlers rest).any arming) (acking (.handling irq (.timer pc))) s.prog := by
    have h := hI.flag
    rw [hf, handlers_handling, List.any_cons, List.any_cons, hbelow, Bool.or_false] at h
    exact h
  have hwindow : pc = .clearInt → (handlers rest).any arming = false := by
    rintro rfl
    simpa only [undisturbed, hf, Bool.not_eq_true'] using hok
  have hserves : (Body.timer (timerStep s.prog pc).2).serves = (Body.timer pc).serves := rfl
  apply hI.rebody hf hserves hirq rfl
  rw [hbelow, Bool.or_false]
  exact timerStep_flag hold hwindow

theorem step_inv {s t : State} {e : Event} (hI : Inv s) (hok : undisturbed s e = true)
    (h : step s e = some t) : Inv t := by
  have hirq : Irq.Inv t.irq := by
    obtain ⟨ds, hds⟩ := step_projects s e t h
    exact Irq.run_inv hI.irq hds
  cases e with
  | raise irq | withdraw irq =>
      simp only [step, Option.ite_none_left_eq_some] at h
      exact onIrq_inv hI rfl rfl rfl h.2
  | fire =>
      simp only [step, Option.ite_none_right_eq_some] at h
      exact onIrq_inv hI rfl rfl rfl h.2
  | mainMaskTimer | mainUnmaskTimer | take | number | mask | unmask | ret =>
      exact onIrq_inv hI rfl rfl rfl h
  | mainClearCh =>
      obtain ⟨_, rfl⟩ := step_mainClearCh h
      exact hI.of_handlers hirq rfl rfl rfl
  | unlock =>
      obtain ⟨irq, rest, hf, hunlock⟩ := step_unlock h
      exact unlock_inv hI hf hunlock
  | body c =>
      rcases step_body h with ⟨irq, pc, rest, hf, rfl⟩ | ⟨irq, pc, rest, hf, rfl⟩
      · exact tty2_inv hI hf hok hirq
      · exact timer_inv hI hf hok hirq
  | lock =>
      obtain ⟨irq, body, rest, hf, hbody, hlock⟩ := step_lock h
      exact lock_inv hI hf hbody hlock

theorem Inv.flagTells {s : State} (hI : Inv s) : FlagTells s := by
  intro hf
  have h := hI.flag
  rw [hf] at h
  exact h.flag rfl rfl

/-! ## The flag over a run -/

theorem flagTells_of_undisturbed (s t : State) (events : List Event) (hs : Initial s)
    (hmeets : Runs.Meets step (fun s e => undisturbed s e = true) s events)
    (hrun : Runs.run step s events = some t) : FlagTells t :=
  (Runs.invariant_of_meets (I := Inv) (fun _ _ _ hI hok h => step_inv hI hok h) hs.inv hmeets
    hrun).flagTells

def idle : State := ⟨⟨{3, 12}, ∅, true, [], ∅⟩, ⟨0, 0, 0, false, false⟩⟩

def enter : List Event := [.take, .number, .mask, .unlock]

def leave : List Event := [.lock, .unmask, .ret]

def oneAlarm : List Event :=
  .raise irqTty2 :: enter ++ [.body keyT, .withdraw irqTty2] ++ List.replicate 6 (.body 0) ++
    leave ++ [.fire] ++ enter ++ [.body 0, .body 0] ++ leave

def earlyAlarm : List Event :=
  .raise irqTty2 :: enter ++ [.body keyT, .withdraw irqTty2, .body 0, .body 0, .fire] ++ enter ++
    [.body 0, .body 0] ++ leave ++ List.replicate 4 (.body 0) ++ leave

theorem flagTells_oneAlarm : ∃ t, Runs.run step idle oneAlarm = some t ∧ FlagTells t := by
  refine ⟨_, rfl, flagTells_of_undisturbed idle _ oneAlarm ?_ ?_ rfl⟩
  · exact ⟨rfl, rfl, rfl, rfl⟩
  · decide

theorem not_flagTells_earlyAlarm : ¬ ∀ s t : State, ∀ events : List Event,
    Initial s → Runs.run step s events = some t → FlagTells t := by
  intro h
  have htells := h idle _ earlyAlarm ⟨rfl, rfl, rfl, rfl⟩ rfl rfl
  revert htells
  decide

end Goldfish.Irq.TimerFlag
