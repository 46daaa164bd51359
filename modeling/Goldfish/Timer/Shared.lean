import Goldfish.Timer.Timestamp

/-!
# The timestamp shared with the interrupt handler

The main program runs `get_timer_masked` in three steps; the interrupt
handler calls `get_ticks`, a whole `get_timer_masked` on the same two
globals, between any two of them. A handler run that finds a new tick
inside the call makes the main program step back in time: its comparison
takes the roll-over branch, or it counts the handler's ticks again.
-/

namespace Goldfish.Timer.Shared

inductive MainPc where
  | idle
  /-- `now` is read; the comparison with `lastdec` comes next. -/
  | read (now : U32)
  /-- `timestamp` is updated; the store to `lastdec` comes next. -/
  | updated (now : U32)
  deriving DecidableEq

structure State where
  clock : Clock
  pc : MainPc
  /-- Device time of the last `reset_timer_masked`. -/
  resetAt : ℕ
  /-- Values the main program's calls returned since that reset, newest
  first, each with the ticks elapsed at its return. -/
  returned : List (U32 × ℕ)
  deriving DecidableEq

inductive Event where
  | pass (t : ℕ)
  | reset
  | read
  | compare
  | store
  | irq
  deriving DecidableEq

def init (c : Clock) : State := ⟨c.timerInit.2, .idle, c.device.time, []⟩

def elapsed (s : State) : ℕ := ticks s.clock.device.time - ticks s.resetAt

/-- Time passes without a roll-over of the millisecond counter, or one of
the two programs takes its next step. -/
def step (s : State) : Event → Option State
  | .pass t =>
      if s.clock.device.time ≤ t ∧ rollOvers s.clock.device.time t = 0 then
        some { s with clock := s.clock.setTime t }
      else none
  | .reset =>
      match s.pc with
      | .idle => some ⟨s.clock.resetTimerMasked, .idle, s.clock.device.time, []⟩
      | _ => none
  | .read =>
      match s.pc with
      | .idle =>
          let (now, device) := getMillisecond s.clock.device
          some { s with clock := { s.clock with device }, pc := .read now }
      | _ => none
  | .compare =>
      match s.pc with
      | .read now => some { s with clock := s.clock.accumulate now, pc := .updated now }
      | _ => none
  | .store =>
      match s.pc with
      | .updated now =>
          let clock := s.clock.storeLastdec now
          some { s with clock, pc := .idle, returned := (clock.timestamp, elapsed s) :: s.returned }
      | _ => none
  | .irq => some { s with clock := s.clock.getTicks.2 }

theorem steps_uninterrupted (s : State) (hs : s.pc = .idle) :
    Runs.run step s [.read, .compare, .store] =
      some { s with
        clock := s.clock.getTimerMasked.2
        returned := (s.clock.getTimerMasked.1, elapsed s) :: s.returned } := by
  obtain ⟨c, pc, r, ret⟩ := s
  subst hs
  simp only [Runs.run, step, Option.bind_some, elapsed, Clock.getTimerMasked,
    Clock.storeLastdec, Clock.accumulate_device, getMillisecond_time]

/-- The shared words agree with the clock, and the values the main program
got are neither early nor decreasing. -/
structure Consistent (s : State) : Prop where
  stamp : s.pc = .idle →
    s.clock.timestamp = s.clock.lastdec - BitVec.ofNat 32 (ticks s.resetAt)
  not_early : ∀ x ∈ s.returned, x.1.toNat ≤ x.2
  monotone : (s.returned.map fun x => x.1.toNat).Pairwise (· ≥ ·)

/-- A handler run finds no new tick inside an unfinished call. -/
def harmless (s : State) : Event → Bool
  | .irq =>
      match s.pc with
      | .idle => true
      | .read now => (getMillisecond s.clock.device).1 = now
      | .updated _ => (getMillisecond s.clock.device).1 = s.clock.lastdec
  | _ => true

/-! ## The invariant of harmless runs -/

/-- How the words in memory follow two tick counts: `l` is behind `lastdec`,
and `m` is the reading the main program works on. -/
def WordsAt (s : State) (l m : ℕ) : Prop :=
  match s.pc with
  | .idle => m = l ∧ s.clock.timestamp = BitVec.ofNat 32 (l - ticks s.resetAt)
  | .read now =>
      now = BitVec.ofNat 32 m ∧ s.clock.timestamp = BitVec.ofNat 32 (l - ticks s.resetAt)
  | .updated now =>
      now = BitVec.ofNat 32 m ∧ s.clock.timestamp = BitVec.ofNat 32 (m - ticks s.resetAt)

structure InvAt (s : State) (l m : ℕ) : Prop where
  reset_le : ticks s.resetAt ≤ l
  le : l ≤ m
  le_now : m ≤ ticks s.clock.device.time
  lap : ticks s.resetAt / 2 ^ 32 = ticks s.clock.device.time / 2 ^ 32
  lastdec : s.clock.lastdec = BitVec.ofNat 32 l
  words : WordsAt s l m
  bounded : ∀ x ∈ s.returned, x.1.toNat ≤ l - ticks s.resetAt
  not_early : ∀ x ∈ s.returned, x.1.toNat ≤ x.2
  monotone : (s.returned.map fun x => x.1.toNat).Pairwise (· ≥ ·)

def Inv (s : State) : Prop := ∃ l m, InvAt s l m

theorem init_inv (c : Clock) : Inv (init c) := by
  refine ⟨ticks c.device.time, ticks c.device.time, le_refl _, le_refl _, le_refl _, rfl,
    getMillisecond_value _, ⟨rfl, ?_⟩, nofun, nofun, .nil⟩
  simp [init]

theorem accumulate_same_lap {c : Clock} {a b : ℕ} (hc : c.lastdec = BitVec.ofNat 32 a)
    (hab : a ≤ b) (hlap : a / 2 ^ 32 = b / 2 ^ 32) :
    (c.accumulate (BitVec.ofNat 32 b)).timestamp = c.timestamp + BitVec.ofNat 32 (b - a) := by
  have h := accumulate_ticks hc hab (by omega)
  rw [hlap, Nat.sub_self] at h
  exact (add_zero _).symm.trans h

theorem ofNat_inj_same_lap {a b : ℕ} (hlap : a / 2 ^ 32 = b / 2 ^ 32)
    (h : BitVec.ofNat 32 a = BitVec.ofNat 32 b) : a = b := by
  have hmod := Words.ofNat_eq_iff.mp h
  omega

theorem stamp_add {r a b : ℕ} (hra : r ≤ a) (hab : a ≤ b) :
    BitVec.ofNat 32 (a - r) + BitVec.ofNat 32 (b - a) = BitVec.ofNat 32 (b - r) := by
  rw [← Words.ofNat_add]
  congr 1
  omega

theorem getTicks_same_lap {c : Clock} {l : ℕ} (hc : c.lastdec = BitVec.ofNat 32 l)
    (hl : l ≤ ticks c.device.time) (hlap : l / 2 ^ 32 = ticks c.device.time / 2 ^ 32) :
    c.getTicks.2.lastdec = BitVec.ofNat 32 (ticks c.device.time) ∧
      c.getTicks.2.timestamp = c.timestamp + BitVec.ofNat 32 (ticks c.device.time - l) := by
  refine ⟨c.getTimerMasked_lastdec, ?_⟩
  rw [← accumulate_same_lap hc hl hlap]
  exact c.getTimerMasked_timestamp

theorem irq_inv {s : State} (hI : Inv s) (hok : harmless s .irq = true) :
    Inv { s with clock := s.clock.getTicks.2 } := by
  obtain ⟨l, m, h⟩ := hI
  obtain ⟨c, pc, r, ret⟩ := s
  obtain ⟨hrl, hlm, hmn, hlap, hlast, hwords, hbound, hearly, hmono⟩ := h
  dsimp only at hrl hlm hmn hlap hlast hwords hbound hearly hmono
  have hll : l / 2 ^ 32 = ticks c.device.time / 2 ^ 32 := by omega
  obtain ⟨hlast', hstamp'⟩ := getTicks_same_lap hlast (hlm.trans hmn) hll
  have hbound' : ∀ x ∈ ret, x.1.toNat ≤ ticks c.device.time - ticks r := by
    intro x hx
    exact (hbound x hx).trans (Nat.sub_le_sub_right (hlm.trans hmn) _)
  have hread := getMillisecond_value c.device
  refine ⟨ticks c.device.time, ticks c.device.time,
    hrl.trans (hlm.trans hmn), le_refl _, le_refl _, hlap, hlast', ?_, hbound', hearly, hmono⟩
  cases pc with
  | idle =>
      refine ⟨rfl, ?_⟩
      rw [hstamp', hwords.2, stamp_add hrl (hlm.trans hmn)]
  | read now =>
      have hnow : ticks c.device.time = m := by
        apply ofNat_inj_same_lap (by omega)
        rw [← hread, ← hwords.1]
        simpa [harmless] using hok
      refine ⟨hwords.1.trans (by rw [hnow]), ?_⟩
      rw [hstamp', hwords.2, stamp_add hrl (hlm.trans hmn)]
  | updated now =>
      have hnow : ticks c.device.time = l := by
        apply ofNat_inj_same_lap (by omega)
        rw [← hread, ← hlast]
        simpa [harmless] using hok
      have hml : m = ticks c.device.time := by omega
      refine ⟨hwords.1.trans (by rw [hml]), ?_⟩
      rw [hstamp', hwords.2, hnow, Nat.sub_self, hml, hnow]
      exact add_zero _

theorem pass_inv {s : State} {t : ℕ} (hI : Inv s) (ht : s.clock.device.time ≤ t)
    (hroll : rollOvers s.clock.device.time t = 0) : Inv { s with clock := s.clock.setTime t } := by
  obtain ⟨l, m, h⟩ := hI
  have hle := ticks_mono ht
  refine ⟨l, m, h.reset_le, h.le, h.le_now.trans hle, ?_, h.lastdec, h.words, h.bounded,
    h.not_early, h.monotone⟩
  have hlap := h.lap
  rw [rollOvers_eq] at hroll
  change ticks s.resetAt / 2 ^ 32 = ticks t / 2 ^ 32
  omega

theorem read_inv {s : State} (hI : Inv s) (hpc : s.pc = .idle) :
    Inv { s with
      clock := { s.clock with device := (getMillisecond s.clock.device).2 }
      pc := .read (getMillisecond s.clock.device).1 } := by
  obtain ⟨l, m, h⟩ := hI
  obtain ⟨c, pc, r, ret⟩ := s
  subst hpc
  obtain ⟨hrl, hlm, hmn, hlap, hlast, ⟨hml, hstamp⟩, hbound, hearly, hmono⟩ := h
  exact ⟨l, ticks c.device.time, hrl, hlm.trans hmn, le_refl _, hlap, hlast,
    ⟨getMillisecond_value _, hstamp⟩, hbound, hearly, hmono⟩

theorem compare_inv {s : State} {now : U32} (hI : Inv s) (hpc : s.pc = .read now) :
    Inv { s with clock := s.clock.accumulate now, pc := .updated now } := by
  obtain ⟨l, m, h⟩ := hI
  obtain ⟨c, pc, r, ret⟩ := s
  subst hpc
  obtain ⟨hrl, hlm, hmn, hlap, hlast, ⟨hnow, hstamp⟩, hbound, hearly, hmono⟩ := h
  dsimp only at hrl hlm hmn hlap hlast hnow hstamp hbound hearly hmono
  refine ⟨l, m, hrl, hlm, by simpa using hmn, by simpa using hlap, by simpa using hlast,
    ⟨hnow, ?_⟩, hbound, hearly, hmono⟩
  have hll : l / 2 ^ 32 = m / 2 ^ 32 := by omega
  rw [hnow, accumulate_same_lap hlast hlm hll, hstamp, stamp_add hrl hlm]

theorem store_inv {s : State} {now : U32} (hI : Inv s) (hpc : s.pc = .updated now) :
    Inv { s with
      clock := s.clock.storeLastdec now
      pc := .idle
      returned := ((s.clock.storeLastdec now).timestamp, elapsed s) :: s.returned } := by
  obtain ⟨l, m, h⟩ := hI
  obtain ⟨c, pc, r, ret⟩ := s
  subst hpc
  obtain ⟨hrl, hlm, hmn, hlap, hlast, ⟨hnow, hstamp⟩, hbound, hearly, hmono⟩ := h
  dsimp only at hrl hlm hmn hlap hlast hnow hstamp hbound hearly hmono
  have hvalue : (c.storeLastdec now).timestamp.toNat = m - ticks r := by
    change c.timestamp.toNat = m - ticks r
    rw [hstamp, BitVec.toNat_ofNat]
    exact Nat.mod_eq_of_lt (by omega)
  refine ⟨m, m, hrl.trans hlm, le_refl m, hmn, hlap, hnow, ⟨rfl, hstamp⟩, ?_, ?_, ?_⟩
  · intro x hx
    rcases List.mem_cons.mp hx with rfl | hx
    · exact hvalue.le
    · exact (hbound x hx).trans (Nat.sub_le_sub_right hlm _)
  · intro x hx
    rcases List.mem_cons.mp hx with rfl | hx
    · exact hvalue.le.trans (Nat.sub_le_sub_right hmn _)
    · exact hearly x hx
  · rw [List.map_cons, List.pairwise_cons]
    refine ⟨?_, hmono⟩
    intro v hv
    obtain ⟨x, hx, rfl⟩ := List.mem_map.mp hv
    rw [ge_iff_le, hvalue]
    exact (hbound x hx).trans (Nat.sub_le_sub_right hlm _)

theorem step_inv {s t : State} {e : Event} (hI : Inv s) (hok : harmless s e = true)
    (h : step s e = some t) : Inv t := by
  cases e with
  | pass u =>
      simp only [step, Option.ite_none_right_eq_some, Option.some.injEq] at h
      obtain ⟨⟨hle, hroll⟩, rfl⟩ := h
      exact pass_inv hI hle hroll
  | reset =>
      cases hpc : s.pc with
      | idle =>
          simp only [step, hpc, Option.some.injEq] at h
          exact h ▸ init_inv s.clock
      | read now => simp [step, hpc] at h
      | updated now => simp [step, hpc] at h
  | read =>
      cases hpc : s.pc with
      | idle =>
          simp only [step, hpc, Option.some.injEq] at h
          exact h ▸ read_inv hI hpc
      | read now => simp [step, hpc] at h
      | updated now => simp [step, hpc] at h
  | compare =>
      cases hpc : s.pc with
      | idle => simp [step, hpc] at h
      | read now =>
          simp only [step, hpc, Option.some.injEq] at h
          exact h ▸ compare_inv hI hpc
      | updated now => simp [step, hpc] at h
  | store =>
      cases hpc : s.pc with
      | idle => simp [step, hpc] at h
      | read now => simp [step, hpc] at h
      | updated now =>
          simp only [step, hpc, Option.some.injEq] at h
          exact h ▸ store_inv hI hpc
  | irq =>
      simp only [step, Option.some.injEq] at h
      exact h ▸ irq_inv hI hok

theorem Inv.consistent {s : State} (hI : Inv s) : Consistent s := by
  obtain ⟨l, m, h⟩ := hI
  refine ⟨?_, h.not_early, h.monotone⟩
  intro hpc
  have hwords := h.words
  simp only [WordsAt, hpc] at hwords
  rw [hwords.2, h.lastdec, Words.ofNat_sub_of_le h.reset_le]

/-- In every run whose handler activations find no new tick inside an
unfinished call, every state reached is consistent. -/
theorem consistent_of_harmless (c : Clock) (events : List Event) (s : State)
    (hok : Runs.Meets step (harmless · ·) (init c) events)
    (h : Runs.run step (init c) events = some s) : Consistent s :=
  (Runs.invariant_of_meets (fun _ _ _ => step_inv) (init_inv c) hok h).consistent

def rest : MainPc → List Event
  | .idle => []
  | .read _ => [.compare, .store]
  | .updated _ => [.store]

/-- No weaker condition will do for one handler run: a call that is
otherwise left alone is inconsistent after any other one. -/
theorem not_consistent_of_harmful {s t : State} (hI : Inv s) (hbad : harmless s .irq = false)
    (h : Runs.run step s (.irq :: rest s.pc) = some t) : ¬ Consistent t := by
  obtain ⟨l, m, hat⟩ := hI
  obtain ⟨c, pc, r, ret⟩ := s
  obtain ⟨hrl, hlm, hmn, hlap, hlast, hwords, -, -, -⟩ := hat
  dsimp only at hrl hlm hmn hlap hlast
  have hll : l / 2 ^ 32 = ticks c.device.time / 2 ^ 32 := by omega
  obtain ⟨hlast', hstamp'⟩ := getTicks_same_lap hlast (hlm.trans hmn) hll
  have hread := getMillisecond_value c.device
  intro hcons
  cases pc with
  | idle => simp [harmless] at hbad
  | read now =>
      obtain ⟨hnow, hstamp⟩ := hwords
      dsimp only at hnow hstamp
      have hne : (getMillisecond c.device).1 ≠ now := by simpa [harmless] using hbad
      rw [hread, hnow, Ne, Words.ofNat_eq_iff] at hne
      have hlt : ¬ BitVec.ofNat 32 (ticks c.device.time) ≤ BitVec.ofNat 32 m := by
        rw [Words.ofNat_le_ofNat_iff]
        omega
      simp only [rest, Runs.run, step, Option.bind_some, Option.some.injEq] at h
      subst h
      -- the comparison takes the roll-over branch, one tick short of `m`
      have hend : BitVec.ofNat 32 (ticks c.device.time) - BitVec.ofNat 32 (ticks r) +
            (BitVec.ofNat 32 m + -1 - BitVec.ofNat 32 (ticks c.device.time)) =
          BitVec.ofNat 32 m - BitVec.ofNat 32 (ticks r) := by
        have hs := hcons.stamp rfl
        simp only [Clock.storeLastdec, Clock.accumulate_timestamp, hlast', hnow, if_neg hlt,
          hstamp', hstamp, stamp_add hrl (hlm.trans hmn), timerLoadVal_eq] at hs
        rwa [Words.ofNat_sub_of_le (hrl.trans (hlm.trans hmn))]
      have hshort : BitVec.ofNat 32 (ticks c.device.time) - BitVec.ofNat 32 (ticks r) +
            (BitVec.ofNat 32 m + -1 - BitVec.ofNat 32 (ticks c.device.time)) =
          BitVec.ofNat 32 m - BitVec.ofNat 32 (ticks r) + -1 := by abel
      have hzero : (-1 : U32) = 0 := add_eq_left.mp (hshort.symm.trans hend)
      exact absurd hzero (by decide)
  | updated now =>
      obtain ⟨hnow, hstamp⟩ := hwords
      dsimp only at hnow hstamp
      have hne : (getMillisecond c.device).1 ≠ c.lastdec := by simpa [harmless] using hbad
      rw [hread, hlast, Ne, Words.ofNat_eq_iff] at hne
      simp only [rest, Runs.run, step, Option.bind_some, Option.some.injEq] at h
      subst h
      -- the ticks from `l` on are counted twice
      have hend : BitVec.ofNat 32 (m - ticks r) +
            BitVec.ofNat 32 (ticks c.device.time - l) = BitVec.ofNat 32 (m - ticks r) := by
        have hs := hcons.stamp rfl
        simp only [Clock.storeLastdec, hstamp', hnow, hstamp] at hs
        rwa [Words.ofNat_sub_of_le (hrl.trans hlm)] at hs
      have hzero : BitVec.ofNat 32 (ticks c.device.time - l) = BitVec.ofNat 32 0 :=
        add_eq_left.mp hend
      have hmod := Words.ofNat_eq_iff.mp hzero
      omega

def quiet : List Event := [.irq, .pass (2 ^ 20), .read, .irq, .compare, .store, .irq]

theorem consistent_quiet : ∃ s : State,
    Runs.run step (init zeroClock) quiet = some s ∧ Consistent s :=
  ⟨_, rfl, consistent_of_harmless zeroClock quiet _ (by decide) rfl⟩

/-- A tick that the handler sees first, between the read and the comparison. -/
def overtaken : List Event := [.read, .pass (2 ^ 20), .irq, .compare, .store]

/-- The interrupted call returns `2 ^ 32 - 1` after one tick. -/
theorem not_consistent_overtaken : ¬ ∀ (c : Clock) (events : List Event) (s : State),
    Runs.run step (init c) events = some s → Consistent s := by
  intro h
  have hearly := (h zeroClock overtaken _ rfl).not_early _ (List.mem_cons_self)
  exact absurd hearly (by decide)

end Goldfish.Timer.Shared
