import Goldfish.Irq.TimerFlag

/-!
# The command loop of c07e3

`main` polls `ch`, tests it against its four commands one after the other
and stores zero when it is done with them. The handler of the serial line
stores each received character in `ch`, between any two of these steps.
The ghost lists `received` and `executed` record both sides.
-/

namespace Goldfish.Irq.MainLoop

open TimerFlag (Program irqTimer tty2Step keyT keyX keyR)

inductive Command where
  | d | e | g | s
  deriving DecidableEq

def Command.code : Command → U32
  | .d => 0x64#32
  | .e => 0x65#32
  | .g => 0x67#32
  | .s => 0x73#32

inductive MainPc where
  -- `if(ch != 0)`
  | testCh
  | test (k : Command)
  | act (k : Command)
  -- `ch = 0`
  | clear
  -- the else branch, which prints the date or not and delays
  | wait
  deriving DecidableEq

def MainPc.after : Command → MainPc
  | .d => .test .e
  | .e => .test .g
  | .g => .test .s
  | .s => .clear

structure State where
  pc : MainPc
  prog : Program
  enabled : Finset ℕ
  received : List Command
  executed : List Command

/-- `case IRQ_TTY2` of `irq_handler` when nothing interrupts it. -/
def irqTty2 (c : U32) (p : Program) : Program :=
  let p := { p with ch := c }
  let p :=
    if p.ch = keyT then
      { p with armed := true, outstanding := true, timeout := p.timeout + 1, timerIrq := 1 }
    else p
  let p := if p.ch = keyX ∧ 0 < p.timeout.toInt then { p with timeout := p.timeout * 10 } else p
  if p.ch = keyR then { p with timeout := 0 } else p

def Command.mask (enabled : Finset ℕ) : Command → Finset ℕ
  | .d => enabled.erase irqTimer
  | .e => insert irqTimer enabled
  | .g | .s => enabled

def mainStep (s : State) : State :=
  match s.pc with
  | .testCh => { s with pc := if s.prog.ch ≠ 0 then .test .d else .wait }
  | .test k => { s with pc := if s.prog.ch = k.code then .act k else .after k }
  | .act k =>
      { s with pc := .after k, enabled := k.mask s.enabled, executed := s.executed ++ [k] }
  | .clear => { s with pc := .testCh, prog := { s.prog with ch := 0 } }
  | .wait => { s with pc := .testCh }

inductive Event where
  | main
  | receive (c : Command)
  deriving DecidableEq

def step (s : State) : Event → Option State
  | .main => some (mainStep s)
  | .receive c =>
      some { s with prog := irqTty2 c.code s.prog, received := s.received ++ [c] }

def Initial (s : State) : Prop :=
  s.pc = .testCh ∧ s.prog.ch = 0 ∧ s.received = [] ∧ s.executed = []

def Idle (s : State) : Prop :=
  (s.pc = .testCh ∨ s.pc = .wait) ∧ s.prog.ch = 0

/-! ## The handler -/

theorem tty2Step_iterate (c : U32) (p : Program) :
    (fun q : Program × TimerFlag.Tty2Pc => tty2Step c q.1 q.2)^[8] (p, .getchar) =
      (irqTty2 c p, .done) := by
  by_cases ht : c = keyT
  · subst ht
    simp [tty2Step, irqTty2, keyT, keyX, keyR]
  · simp [tty2Step, irqTty2, ht]

theorem irqTty2_command (c : Command) (p : Program) :
    irqTty2 c.code p = { p with ch := c.code } := by
  cases c <;> simp [irqTty2, Command.code, keyT, keyX, keyR]

/-! ## Commands in flight -/

def Command.pos : Command → ℕ
  | .d => 0
  | .e => 1
  | .g => 2
  | .s => 3

def MainPc.front : MainPc → ℕ
  | .testCh | .wait => 0
  | .test k => k.pos
  | .act k => k.pos + 1
  | .clear => 4

def ahead (pc : MainPc) (c : Command) : Bool := pc.front ≤ c.pos

def held (ch : U32) : Option Command := [Command.d, .e, .g, .s].find? fun c => c.code = ch

def pending (s : State) : Option Command := (held s.prog.ch).filter (ahead s.pc)

def acting : MainPc → List Command
  | .act k => [k]
  | .testCh | .test _ | .clear | .wait => []

/-- Executed, being executed, or stored and still to be tested. -/
def accounted (s : State) : List Command := s.executed ++ acting s.pc ++ (pending s).toList

/-- No earlier command is still waiting in `ch`, and the test for the new one
is still to come. -/
def safe (s : State) : Event → Bool
  | .main => true
  | .receive c => pending s = none && ahead s.pc c

theorem held_eq_some {ch : U32} {c : Command} : held ch = some c ↔ ch = c.code := by
  constructor
  · intro h
    have hcode := List.find?_some h
    exact (of_decide_eq_true hcode).symm
  · rintro rfl
    cases c <;> rfl

theorem pos_injective {c k : Command} (h : c.pos = k.pos) : c = k := by
  cases c <;> cases k <;> first | rfl | cases h

theorem front_after (k : Command) : (MainPc.after k).front = k.pos + 1 := by
  cases k <;> rfl

theorem ahead_after (k : Command) : ahead (.after k) = ahead (.act k) := by
  funext c
  rw [ahead, ahead, front_after, MainPc.front]

theorem acting_after (k : Command) : acting (.after k) = [] := by
  cases k <;> rfl

theorem held_zero : held 0 = none := rfl

theorem filter_ahead_after {ch : U32} {k : Command} (h : ch ≠ k.code) :
    (held ch).filter (ahead (.after k)) = (held ch).filter (ahead (.test k)) := by
  match hc : held ch with
  | none => rfl
  | some c =>
      have hne : c ≠ k := by
        rintro rfl
        exact h (held_eq_some.mp hc)
      have hpos : c.pos ≠ k.pos := fun h => hne (pos_injective h)
      have hahead : ahead (.after k) c = ahead (.test k) c := by
        rw [ahead_after, ahead, ahead, decide_eq_decide, MainPc.front, MainPc.front]
        omega
      rw [Option.filter_some, Option.filter_some, hahead]

theorem filter_ahead_act {ch : U32} {k : Command} (h : ch = k.code) :
    (held ch).filter (ahead (.test k)) = some k ∧ (held ch).filter (ahead (.act k)) = none := by
  rw [held_eq_some.mpr h]
  have htest : ahead (.test k) k = true := decide_eq_true (le_refl k.pos)
  have hact : ahead (.act k) k = false := decide_eq_false (Nat.not_succ_le_self k.pos)
  simp only [Option.filter, htest, hact, if_true, Bool.false_eq_true, if_false, and_self]

theorem mainStep_accounted (s : State) : accounted (mainStep s) = accounted s := by
  obtain ⟨pc, prog, enabled, received, executed⟩ := s
  cases pc with
  | testCh =>
      simp only [mainStep, accounted, pending]
      split <;> rfl
  | test k =>
      simp only [mainStep, accounted, pending]
      split
      · rename_i hch
        obtain ⟨hbefore, hafter⟩ := filter_ahead_act hch
        rw [hbefore, hafter]
        simp [acting]
      · rename_i hch
        rw [filter_ahead_after hch, acting_after, acting]
  | act k =>
      simp only [mainStep, accounted, pending, ahead_after, acting_after, List.append_nil]
      rfl
  | clear =>
      have hnone : (held prog.ch).filter (ahead .clear) = none := by
        rw [Option.filter_eq_none_iff]
        intro c _
        cases c <;> decide
      simp only [mainStep, accounted, pending, held_zero, Option.filter_none, hnone, acting]
  | wait => rfl

theorem mainStep_received (s : State) : (mainStep s).received = s.received := by
  unfold mainStep
  split <;> rfl

theorem receive_pending {s t : State} {c : Command} (h : step s (.receive c) = some t) :
    pending t = if ahead s.pc c then some c else none := by
  obtain rfl := Option.some.inj h
  simp only [pending, irqTty2_command, held_eq_some.mpr rfl, Option.filter]

theorem receive_accounted {s t : State} {c : Command} (h : step s (.receive c) = some t) :
    accounted t = s.executed ++ acting s.pc ++ (pending t).toList ∧
      t.received = s.received ++ [c] := by
  obtain rfl := Option.some.inj h
  exact ⟨rfl, rfl⟩

theorem receive_safe {s t : State} {c : Command} (h : step s (.receive c) = some t)
    (hsafe : safe s (.receive c) = true) : accounted t = accounted s ++ [c] := by
  obtain ⟨hnone, hahead⟩ : pending s = none ∧ ahead s.pc c = true := by simpa [safe] using hsafe
  rw [(receive_accounted h).1, receive_pending h, if_pos hahead, accounted, hnone]
  simp

theorem receive_unsafe {s t : State} {c : Command} (h : step s (.receive c) = some t)
    (hbad : safe s (.receive c) = false) : (accounted t).length ≤ (accounted s).length := by
  rw [(receive_accounted h).1, receive_pending h, accounted]
  by_cases hahead : ahead s.pc c = true
  · have hsome : pending s ≠ none := by
      intro hnone
      simp [safe, hnone, hahead] at hbad
    obtain ⟨k, hk⟩ := Option.ne_none_iff_exists'.mp hsome
    simp [hahead, hk]
  · simp [hahead]

/-! ## Runs -/

theorem accounted_of_meets {s t : State} {events : List Event}
    (hs : accounted s = s.received)
    (hmeets : Runs.Meets step (fun s e => safe s e = true) s events)
    (hrun : Runs.run step s events = some t) : accounted t = t.received := by
  refine Runs.invariant_of_meets (I := fun s => accounted s = s.received) ?_ hs hmeets hrun
  intro s e t hI hsafe h
  cases e with
  | main =>
      obtain rfl := Option.some.inj h
      rw [mainStep_accounted, mainStep_received, hI]
  | receive c => rw [receive_safe h hsafe, (receive_accounted h).2, hI]

def Bounded (s : State) : Prop := (accounted s).length ≤ s.received.length

def Lossy (s : State) : Prop := (accounted s).length < s.received.length

theorem step_bounded {s t : State} {e : Event} (h : step s e = some t) :
    (Bounded s → Bounded t) ∧ (Lossy s → Lossy t) ∧
      (Bounded s → safe s e = false → Lossy t) := by
  cases e with
  | main =>
      obtain rfl := Option.some.inj h
      simp only [Bounded, Lossy, mainStep_accounted, mainStep_received]
      exact ⟨id, id, nofun⟩
  | receive c =>
      have hreceived : t.received.length = s.received.length + 1 := by
        rw [(receive_accounted h).2, List.length_append, List.length_singleton]
      simp only [Bounded, Lossy, hreceived]
      by_cases hsafe : safe s (.receive c) = true
      · have hlen : (accounted t).length = (accounted s).length + 1 := by
          rw [receive_safe h hsafe, List.length_append, List.length_singleton]
        refine ⟨?_, ?_, fun _ hbad => absurd hsafe (by simp [hbad])⟩ <;> omega
      · have hlen := receive_unsafe h (by simpa using hsafe)
        refine ⟨?_, ?_, fun _ _ => ?_⟩ <;> omega

/-- One unsafe arrival loses a command for good. -/
theorem lossy_of_not_meets {s t : State} {events : List Event} (hs : Bounded s)
    (hmeets : ¬ Runs.Meets step (fun s e => safe s e = true) s events)
    (hrun : Runs.run step s events = some t) : Lossy t := by
  induction events generalizing s with
  | nil => exact absurd trivial hmeets
  | cons e events ih =>
      obtain ⟨u, hu, ht⟩ := Runs.run_cons_iff.mp hrun
      obtain ⟨hbounded, -, hlost⟩ := step_bounded hu
      by_cases hsafe : safe s e = true
      · refine ih (hbounded hs) ?_ ht
        intro hrest
        refine hmeets ⟨hsafe, fun v hv => ?_⟩
        obtain rfl := Option.some.inj (hu.symm.trans hv)
        exact hrest
      · have hlossy : Lossy u := hlost hs (by simpa using hsafe)
        exact Runs.invariant (I := Lossy) (fun _ _ _ hI h => (step_bounded h).2.1 hI) hlossy ht

theorem Initial.accounted {s : State} (h : Initial s) : accounted s = s.received := by
  obtain ⟨hpc, hch, hreceived, hexecuted⟩ := h
  rw [MainLoop.accounted, pending, hpc, hch, hreceived, hexecuted]
  rfl

theorem Idle.accounted {s : State} (h : Idle s) : accounted s = s.executed := by
  obtain ⟨hpc, hch⟩ := h
  have hacting : acting s.pc = [] := by
    rcases hpc with hpc | hpc <;> rw [hpc, acting]
  rw [MainLoop.accounted, pending, hch, held_zero, hacting, Option.filter_none,
    Option.toList_none, List.append_nil, List.append_nil]

theorem executed_eq_received_iff_safe (s t : State) (events : List Event) (hs : Initial s)
    (hrun : Runs.run step s events = some t) (hidle : Idle t) :
    t.executed = t.received ↔ Runs.Meets step (fun s e => safe s e = true) s events := by
  constructor
  · intro heq
    by_contra hmeets
    have hlossy : Lossy t := by
      refine lossy_of_not_meets ?_ hmeets hrun
      rw [Bounded, hs.accounted]
    rw [Lossy, hidle.accounted, heq] at hlossy
    exact lt_irrefl _ hlossy
  · intro hmeets
    rw [← hidle.accounted]
    exact accounted_of_meets hs.accounted hmeets hrun

def started : State := ⟨.testCh, ⟨0, 0, 0, false, false⟩, {3, 12}, [], []⟩

def pass : List Event := List.replicate 7 .main

theorem executed_eq_received_twoPasses : ∃ t,
    Runs.run step started (.receive .e :: pass ++ .receive .g :: pass) = some t ∧
      (t.executed = t.received ↔ Runs.Meets step (fun s e => safe s e = true) started
        (.receive .e :: pass ++ .receive .g :: pass)) := by
  refine ⟨_, rfl, executed_eq_received_iff_safe started _ _ ?_ rfl ?_⟩
  · exact ⟨rfl, rfl, rfl, rfl⟩
  · exact ⟨.inl rfl, rfl⟩

/-- A `d` that arrives while an `s` is executed is cleared with it. -/
theorem d_lost_during_s : ¬ ∀ s t : State, ∀ events : List Event,
    Initial s → Runs.run step s events = some t → Idle t → t.executed = t.received := by
  intro h
  have heq := h started _ (.receive .s :: List.replicate 5 .main ++ .receive .d ::
    List.replicate 2 .main) ⟨rfl, rfl, rfl, rfl⟩ rfl ⟨.inl rfl, rfl⟩
  revert heq
  decide

end Goldfish.Irq.MainLoop
