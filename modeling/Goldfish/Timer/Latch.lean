import Goldfish.Lib.Runs
import Goldfish.Lib.Words
import Goldfish.Timer.Device

/-!
# Nested readers of one latch

All readers of the clock share the word captured by the last read of
`TIMER_TIME_LOW`. A reader that is interrupted between its two reads by
another reader combines its own low word with the other's high word. The
result is torn when a carry into the high word fell between the two.
-/

namespace Goldfish.Timer.Latch

/-- The functions of `timer.c` that read both time registers. `get_ticks`
reads them through `get_millisecond`. -/
inductive Reader where
  | getSecond
  | getMillisecond
  | goldfishTimerRead
  | goldfishSetTimer (cycles : U32)
  deriving DecidableEq

def alarmWords (cycles lo hi : U32) : U32 × U32 :=
  let hi := hi + cycles / 4096#32
  let tmp := lo + ((cycles % 4096#32) <<< 20)
  if tmp < lo then (hi + 1, tmp) else (hi, tmp)

/-- `goldfish_timer_read` shifts the high word out of its 32-bit result. -/
def timerReadOf (lo hi : U32) : U32 :=
  lo ||| ((hi.setWidth 64) <<< 32).setWidth 32

def Reader.finish (lo hi : U32) (d : Device) : Reader → Option U32 × Device
  | .getSecond => (some (secondOf lo hi), d)
  | .getMillisecond => (some (millisecondOf lo hi), d)
  | .goldfishTimerRead => (some (timerReadOf lo hi), d)
  | .goldfishSetTimer cycles =>
      let (high, low) := alarmWords cycles lo hi
      (none, (d.writeAlarmHigh high).writeAlarmLow low)

structure Frame where
  reader : Reader
  start : ℕ
  low : Option (U32 × ℕ)
  deriving DecidableEq

/-- A finished call. `captureAt` is the time of the last read of
`TIMER_TIME_LOW`, by whichever reader, before this call read the high word. -/
structure Return where
  reader : Reader
  start : ℕ
  lowAt : ℕ
  captureAt : ℕ
  finish : ℕ
  value : Option U32
  deriving DecidableEq

/-- The innermost unfinished reader is the head of `frames`; the others
wait for it, as interrupted code waits for its handler. -/
structure State where
  device : Device
  captureAt : ℕ
  frames : List Frame
  returns : List Return
  deriving DecidableEq

inductive Event where
  | pass (t : ℕ)
  | call (r : Reader)
  | readLow
  | readHigh
  deriving DecidableEq

def init (d : Device) : State := ⟨d, d.time, [], []⟩

def step (s : State) : Event → Option State
  | .pass t =>
      if s.device.time ≤ t then some { s with device := { s.device with time := t } } else none
  | .call r => some { s with frames := ⟨r, s.device.time, none⟩ :: s.frames }
  | .readLow =>
      match s.frames with
      | ⟨r, start, none⟩ :: rest =>
          let (lo, device) := s.device.readTimeLow
          some { s with
            device
            captureAt := s.device.time
            frames := ⟨r, start, some (lo, s.device.time)⟩ :: rest }
      | _ => none
  | .readHigh =>
      match s.frames with
      | ⟨r, start, some (lo, lowAt)⟩ :: rest =>
          let (value, device) := r.finish lo s.device.readTimeHigh s.device
          some { s with
            device
            frames := rest
            returns := ⟨r, start, lowAt, s.captureAt, s.device.time, value⟩ :: s.returns }
      | _ => none

def Untorn (r : Return) : Prop :=
  match r.reader with
  | .getSecond => ∃ t, r.start ≤ t ∧ t ≤ r.finish ∧
      r.value = some (BitVec.ofNat 32 (seconds t))
  | .getMillisecond => ∃ t, r.start ≤ t ∧ t ≤ r.finish ∧
      r.value = some (BitVec.ofNat 32 (ticks t))
  | _ => True

/-- Carries into the high word between the low word of a call and the
capture it combines it with. -/
def carries (r : Return) : ℕ := r.captureAt / 2 ^ 32 - r.lowAt / 2 ^ 32

/-- The clock, ahead by the carries, is caught up with before the call
ends, or the call lasts a whole period of the clock. -/
def Settled (r : Return) : Prop :=
  match r.reader with
  | .getSecond =>
      seconds r.lowAt + carries r * 4 ≤ seconds r.finish ∨
        seconds r.start + 2 ^ 32 ≤ seconds r.lowAt + carries r * 4
  | .getMillisecond =>
      ticks r.lowAt + carries r * 4096 ≤ ticks r.finish ∨
        ticks r.start + 2 ^ 32 ≤ ticks r.lowAt + carries r * 4096
  | _ => True

instance (r : Return) : Decidable (Settled r) :=
  match r with
  | ⟨.getSecond, _, _, _, _, _⟩ => inferInstanceAs (Decidable (_ ∨ _))
  | ⟨.getMillisecond, _, _, _, _, _⟩ => inferInstanceAs (Decidable (_ ∨ _))
  | ⟨.goldfishTimerRead, _, _, _, _, _⟩ => inferInstanceAs (Decidable True)
  | ⟨.goldfishSetTimer _, _, _, _, _, _⟩ => inferInstanceAs (Decidable True)

/-! ## What holds of every run -/

@[simp] theorem finish_time (lo hi : U32) (d : Device) (r : Reader) :
    (r.finish lo hi d).2.time = d.time := by cases r <;> rfl

@[simp] theorem finish_timeHigh (lo hi : U32) (d : Device) (r : Reader) :
    (r.finish lo hi d).2.timeHigh = d.timeHigh := by cases r <;> rfl

theorem finish_value (lo hi : U32) (d d' : Device) (r : Reader) :
    (r.finish lo hi d).1 = (r.finish lo hi d').1 := by cases r <;> rfl

/-- A waiting call that has its low word: the high word register holds the
latest capture, which is not older than the low word. -/
structure Waiting (d : Device) (captureAt start : ℕ) (lo : U32) (lowAt : ℕ) : Prop where
  low : lo = BitVec.ofNat 32 lowAt
  start_le : start ≤ lowAt
  low_le : lowAt ≤ captureAt
  timeHigh : d.timeHigh = BitVec.ofNat 32 (captureAt / 2 ^ 32)

structure FrameInv (d : Device) (captureAt : ℕ) (f : Frame) : Prop where
  start_le : f.start ≤ d.time
  waiting : ∀ lo lowAt, f.low = some (lo, lowAt) → Waiting d captureAt f.start lo lowAt

structure ReturnInv (r : Return) : Prop where
  start_le : r.start ≤ r.lowAt
  low_le : r.lowAt ≤ r.captureAt
  capture_le : r.captureAt ≤ r.finish
  value : ∀ d, r.value = (r.reader.finish (BitVec.ofNat 32 r.lowAt)
    (BitVec.ofNat 32 (r.captureAt / 2 ^ 32)) d).1

structure Inv (s : State) : Prop where
  capture_le : s.captureAt ≤ s.device.time
  frames : ∀ f ∈ s.frames, FrameInv s.device s.captureAt f
  returns : ∀ r ∈ s.returns, ReturnInv r

theorem init_inv (d : Device) : Inv (init d) := ⟨le_refl _, nofun, nofun⟩

theorem FrameInv.pass {d : Device} {captureAt t : ℕ} {f : Frame}
    (h : FrameInv d captureAt f) (ht : d.time ≤ t) :
    FrameInv { d with time := t } captureAt f := by
  refine ⟨h.start_le.trans ht, ?_⟩
  intro lo lowAt hlow
  have hw := h.waiting lo lowAt hlow
  exact ⟨hw.low, hw.start_le, hw.low_le, hw.timeHigh⟩

theorem FrameInv.recapture {d : Device} {captureAt : ℕ} {f : Frame}
    (h : FrameInv d captureAt f) (hc : captureAt ≤ d.time) :
    FrameInv d.readTimeLow.2 d.time f := by
  refine ⟨h.start_le, ?_⟩
  intro lo lowAt hlow
  have hw := h.waiting lo lowAt hlow
  exact ⟨hw.low, hw.start_le, hw.low_le.trans hc, rfl⟩

theorem readLow_inv {s : State} {r : Reader} {start : ℕ} {rest : List Frame} (hI : Inv s)
    (hf : s.frames = ⟨r, start, none⟩ :: rest) :
    Inv { s with
      device := s.device.readTimeLow.2
      captureAt := s.device.time
      frames := ⟨r, start, some (s.device.readTimeLow.1, s.device.time)⟩ :: rest } := by
  have htop : FrameInv s.device s.captureAt ⟨r, start, none⟩ :=
    hI.frames _ (by rw [hf]; exact List.mem_cons_self)
  refine ⟨le_refl _, ?_, hI.returns⟩
  intro f hmem
  rcases List.mem_cons.mp hmem with rfl | hmem
  · refine ⟨htop.start_le, ?_⟩
    intro lo lowAt hlow
    obtain ⟨rfl, rfl⟩ : s.device.readTimeLow.1 = lo ∧ s.device.time = lowAt := by
      simpa using hlow
    exact ⟨rfl, htop.start_le, le_refl _, rfl⟩
  · exact (hI.frames f (by rw [hf]; exact List.mem_cons_of_mem _ hmem)).recapture hI.capture_le

theorem readHigh_inv {s : State} {r : Reader} {start lowAt : ℕ} {lo : U32} {rest : List Frame}
    (hI : Inv s) (hf : s.frames = ⟨r, start, some (lo, lowAt)⟩ :: rest) :
    Inv { s with
      device := (r.finish lo s.device.readTimeHigh s.device).2
      frames := rest
      returns := ⟨r, start, lowAt, s.captureAt, s.device.time,
        (r.finish lo s.device.readTimeHigh s.device).1⟩ :: s.returns } := by
  have hw : Waiting s.device s.captureAt start lo lowAt :=
    (hI.frames _ (by rw [hf]; exact List.mem_cons_self)).waiting lo lowAt rfl
  refine ⟨by simpa using hI.capture_le, ?_, ?_⟩
  · intro f hmem
    have h := hI.frames f (by rw [hf]; exact List.mem_cons_of_mem _ hmem)
    refine ⟨by simpa using h.start_le, ?_⟩
    intro lo' lowAt' hlow
    have hw' := h.waiting lo' lowAt' hlow
    exact ⟨hw'.low, hw'.start_le, hw'.low_le, by simpa using hw'.timeHigh⟩
  · intro x hx
    rcases List.mem_cons.mp hx with rfl | hx
    · refine ⟨hw.start_le, hw.low_le, hI.capture_le, ?_⟩
      intro d
      change (r.finish lo s.device.timeHigh s.device).1 = _
      rw [hw.low, hw.timeHigh]
      exact finish_value _ _ _ _ _
    · exact hI.returns x hx

theorem step_inv {s t : State} {e : Event} (hI : Inv s) (h : step s e = some t) : Inv t := by
  cases e with
  | pass u =>
      simp only [step, Option.ite_none_right_eq_some, Option.some.injEq] at h
      obtain ⟨hle, rfl⟩ := h
      exact ⟨hI.capture_le.trans hle, fun f hf => (hI.frames f hf).pass hle, hI.returns⟩
  | call r =>
      simp only [step, Option.some.injEq] at h
      subst h
      refine ⟨hI.capture_le, ?_, hI.returns⟩
      intro f hf
      rcases List.mem_cons.mp hf with rfl | hf
      · exact ⟨le_refl _, nofun⟩
      · exact hI.frames f hf
  | readLow =>
      match hf : s.frames with
      | [] => simp [step, hf] at h
      | ⟨r, start, some low⟩ :: rest => simp [step, hf] at h
      | ⟨r, start, none⟩ :: rest =>
          simp only [step, hf, Option.some.injEq] at h
          exact h ▸ readLow_inv hI hf
  | readHigh =>
      match hf : s.frames with
      | [] => simp [step, hf] at h
      | ⟨r, start, none⟩ :: rest => simp [step, hf] at h
      | ⟨r, start, some (lo, lowAt)⟩ :: rest =>
          simp only [step, hf, Option.some.injEq] at h
          exact h ▸ readHigh_inv hI hf

theorem ReturnInv.untorn_iff {r : Return} (h : ReturnInv r) : Untorn r ↔ Settled r := by
  obtain ⟨reader, start, lowAt, captureAt, finish, value⟩ := r
  obtain ⟨hstart, hlow, hcap, hval⟩ := h
  dsimp only at hstart hlow hcap
  have hval := hval ⟨0, 0, 0, none⟩
  cases reader with
  | getSecond =>
      have hv : captureAt / 2 ^ 32 * 4 + lowAt % 2 ^ 32 / 2 ^ 30 =
          seconds lowAt + (captureAt / 2 ^ 32 - lowAt / 2 ^ 32) * 4 := by
        simp only [seconds]
        omega
      simp only [Reader.finish, secondOf_words, hv] at hval
      simp only [Untorn, Settled, carries, hval, Option.some.injEq]
      refine Words.exists_instant_iff (by decide) (hstart.trans (hlow.trans hcap)) ?_ ?_
      · simp only [seconds]
        omega
      · simp only [seconds]
        omega
  | getMillisecond =>
      have hv : captureAt / 2 ^ 32 * 4096 + lowAt % 2 ^ 32 / 2 ^ 20 =
          ticks lowAt + (captureAt / 2 ^ 32 - lowAt / 2 ^ 32) * 4096 := by
        simp only [ticks]
        omega
      simp only [Reader.finish, millisecondOf_words, hv] at hval
      simp only [Untorn, Settled, carries, hval, Option.some.injEq]
      refine Words.exists_instant_iff (by decide) (hstart.trans (hlow.trans hcap)) ?_ ?_
      · simp only [ticks]
        omega
      · simp only [ticks]
        omega
  | goldfishTimerRead => exact Iff.rfl
  | goldfishSetTimer cycles => exact Iff.rfl

theorem run_inv {d : Device} {events : List Event} {s : State}
    (h : Runs.run step (init d) events = some s) : Inv s :=
  Runs.invariant (fun _ _ _ => step_inv) (init_inv d) h

/-- In every interleaving of nested readers, a finished call returned a
value of the clock during the call if and only if it is settled. -/
theorem untorn_iff_settled (d : Device) (events : List Event) (s : State)
    (h : Runs.run step (init d) events = some s) :
    ∀ r ∈ s.returns, Untorn r ↔ Settled r :=
  fun r hr => ((run_inv h).returns r hr).untorn_iff

def interrupted (t u : ℕ) : List Event :=
  [.pass t, .call .getMillisecond, .readLow, .pass u, .call .getMillisecond, .readLow,
    .readHigh, .readHigh]

def zeroDevice : Device := ⟨0, 0, 0, none⟩

theorem untorn_within_low_word :
    let final := Runs.run step (init zeroDevice) (interrupted (2 ^ 21) (2 ^ 22))
    final.isSome ∧ ∀ s ∈ final, ∀ r ∈ s.returns, Untorn r := by
  intro final
  have hsettled : ∀ s ∈ final, ∀ r ∈ s.returns, Settled r := by decide
  refine ⟨by decide, ?_⟩
  intro s hs r hr
  exact (untorn_iff_settled zeroDevice _ s hs r hr).mpr (hsettled s hs r hr)

/-- A carry between the two low words: the outer call returns a value the
clock reaches four seconds later. -/
theorem torn_by_carry : ¬ ∀ (d : Device) (events : List Event) (s : State),
    Runs.run step (init d) events = some s → ∀ r ∈ s.returns, Untorn r := by
  intro h
  have hrun : Runs.run step (init zeroDevice) (interrupted (2 ^ 32 - 1) (2 ^ 32)) =
    some _ := rfl
  have houter := h zeroDevice (interrupted (2 ^ 32 - 1) (2 ^ 32)) _ hrun _ List.mem_cons_self
  have hsettled := ((run_inv hrun).returns _ List.mem_cons_self).untorn_iff.mp houter
  exact absurd hsettled (by decide)

end Goldfish.Timer.Latch
