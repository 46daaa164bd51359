import Goldfish.Lib.Runs
import Goldfish.Lib.Words
import Goldfish.Timer.Device
import Mathlib.Tactic.Abel

/-!
# The advancing timestamp

`get_timer_masked` accumulates the millisecond counter call by call. When
the counter has rolled over since the last call, the update adds
`TIMER_LOAD_VAL`, one less than the period of the counter, so every
roll-over the calls step across costs one tick.
-/

namespace Goldfish.Timer

def timerLoadVal : U32 := 0xffffffff#32

structure Clock where
  device : Device
  timestamp : U32
  lastdec : U32
  deriving DecidableEq

namespace Clock

def setTime (t : ℕ) (c : Clock) : Clock := { c with device := { c.device with time := t } }

@[simp] theorem setTime_time (t : ℕ) (c : Clock) : (c.setTime t).device.time = t := rfl

@[simp] theorem setTime_timestamp (t : ℕ) (c : Clock) :
    (c.setTime t).timestamp = c.timestamp := rfl

@[simp] theorem setTime_lastdec (t : ℕ) (c : Clock) : (c.setTime t).lastdec = c.lastdec := rfl

def resetTimerMasked (c : Clock) : Clock :=
  let (rv, device) := getMillisecond c.device
  { device, lastdec := rv, timestamp := 0 }

def timerInit (c : Clock) : Int × Clock := (0, c.resetTimerMasked)

/-- The two branches of `get_timer_masked` that move `timestamp`. -/
def accumulate (now : U32) (c : Clock) : Clock :=
  { c with
    timestamp :=
      if c.lastdec ≤ now then c.timestamp + (now - c.lastdec)
      else c.timestamp + (now + timerLoadVal - c.lastdec) }

def storeLastdec (now : U32) (c : Clock) : Clock := { c with lastdec := now }

def getTimerMasked (c : Clock) : U32 × Clock :=
  let (now, device) := getMillisecond c.device
  let c := ({ c with device }.accumulate now).storeLastdec now
  (c.timestamp, c)

def getTimer (base : U32) (c : Clock) : U32 × Clock :=
  let (t, c) := c.getTimerMasked
  (t - base, c)

def getTicks (c : Clock) : U64 × Clock :=
  let (t, c) := c.getTimer 0
  (t.setWidth 64, c)

@[simp] theorem accumulate_lastdec (now : U32) (c : Clock) :
    (c.accumulate now).lastdec = c.lastdec := rfl

@[simp] theorem accumulate_device (now : U32) (c : Clock) :
    (c.accumulate now).device = c.device := rfl

theorem accumulate_timestamp (now : U32) (c : Clock) :
    (c.accumulate now).timestamp =
      if c.lastdec ≤ now then c.timestamp + (now - c.lastdec)
      else c.timestamp + (now + timerLoadVal - c.lastdec) := rfl

theorem getTimerMasked_lastdec (c : Clock) :
    c.getTimerMasked.2.lastdec = BitVec.ofNat 32 (ticks c.device.time) := by
  rw [← getMillisecond_value]
  rfl

theorem getTimerMasked_timestamp (c : Clock) :
    c.getTimerMasked.2.timestamp =
      (c.accumulate (BitVec.ofNat 32 (ticks c.device.time))).timestamp := by
  rw [← getMillisecond_value]
  rfl

end Clock

/-! ## Runs of clock calls -/

inductive Call where
  | getTimerMasked
  | getTimer (base : U32)
  | getTicks
  deriving DecidableEq

def Call.exec (c : Clock) : Call → ℕ × Clock
  | .getTimerMasked => (c.getTimerMasked.1.toNat, c.getTimerMasked.2)
  | .getTimer base => ((c.getTimer base).1.toNat, (c.getTimer base).2)
  | .getTicks => (c.getTicks.1.toNat, c.getTicks.2)

theorem Call.exec_clock (c : Clock) (k : Call) : (k.exec c).2 = c.getTimerMasked.2 := by
  cases k <;> rfl

def callAt (c : Clock) (k : Call × ℕ) : ℕ × Clock := k.1.exec (c.setTime k.2)

def after (c : Clock) (calls : List (Call × ℕ)) : Clock := (Runs.answers callAt c calls).2

/-- Device times never decrease, and consecutive clock readings are fewer
than `2 ^ 32` ticks apart. -/
def Paced : ℕ → List (Call × ℕ) → Prop
  | _, [] => True
  | t, k :: calls => t ≤ k.2 ∧ ticks k.2 - ticks t < 2 ^ 32 ∧ Paced k.2 calls

def lastTime : ℕ → List (Call × ℕ) → ℕ
  | t, [] => t
  | _, k :: calls => lastTime k.2 calls

/-- How often the 32-bit millisecond counter rolls over from `t` to `u`. -/
def rollOvers (t u : ℕ) : ℕ := u / 2 ^ 52 - t / 2 ^ 52

/-- The clock was last read at device time `t`. -/
def Synced (c : Clock) (t : ℕ) : Prop := c.lastdec = BitVec.ofNat 32 (ticks t)

theorem timerLoadVal_eq : timerLoadVal = -1 := by decide

/-- The update moves the stamp by the ticks since the last reading, less
one if the counter rolled over in between. -/
theorem accumulate_ticks {c : Clock} {a b : ℕ} (hc : c.lastdec = BitVec.ofNat 32 a)
    (hab : a ≤ b) (hpace : b - a < 2 ^ 32) :
    (c.accumulate (BitVec.ofNat 32 b)).timestamp + BitVec.ofNat 32 (b / 2 ^ 32 - a / 2 ^ 32) =
      c.timestamp + BitVec.ofNat 32 (b - a) := by
  rw [Clock.accumulate_timestamp, hc, ← Words.ofNat_sub_of_le hab]
  split
  · rename_i hle
    rw [Words.ofNat_le_ofNat_iff] at hle
    have hroll : b / 2 ^ 32 - a / 2 ^ 32 = 0 := by omega
    rw [hroll]
    exact add_zero _
  · rename_i hle
    rw [Words.ofNat_le_ofNat_iff] at hle
    have hroll : b / 2 ^ 32 - a / 2 ^ 32 = 1 := by omega
    have hone : BitVec.ofNat 32 1 = (1 : U32) := rfl
    rw [hroll, hone, timerLoadVal_eq]
    abel

theorem rollOvers_eq (t u : ℕ) : rollOvers t u = ticks u / 2 ^ 32 - ticks t / 2 ^ 32 := by
  simp only [rollOvers, ticks]
  omega

theorem ticks_mono {t u : ℕ} (h : t ≤ u) : ticks t ≤ ticks u := Nat.div_le_div_right h

theorem rollOvers_add {t u v : ℕ} (htu : t ≤ u) (huv : u ≤ v) :
    rollOvers t v = rollOvers t u + rollOvers u v := by
  simp only [rollOvers]
  omega

theorem elapsed_add {t u v : ℕ} (htu : t ≤ u) (huv : u ≤ v) :
    ticks v - ticks t = (ticks u - ticks t) + (ticks v - ticks u) := by
  have h₁ := ticks_mono htu
  have h₂ := ticks_mono huv
  omega

theorem getTimerMasked_at {c : Clock} {t u : ℕ} (hs : Synced c t) (htu : t ≤ u)
    (hpace : ticks u - ticks t < 2 ^ 32) :
    Synced (c.setTime u).getTimerMasked.2 u ∧
      (c.setTime u).getTimerMasked.2.timestamp + BitVec.ofNat 32 (rollOvers t u) =
        c.timestamp + BitVec.ofNat 32 (ticks u - ticks t) := by
  constructor
  · exact Clock.getTimerMasked_lastdec (c.setTime u)
  · rw [rollOvers_eq, Clock.getTimerMasked_timestamp]
    exact accumulate_ticks (c := c.setTime u) hs (ticks_mono htu) hpace

theorem after_accounts {c : Clock} {t : ℕ} {calls : List (Call × ℕ)} (hs : Synced c t)
    (hp : Paced t calls) :
    t ≤ lastTime t calls ∧ Synced (after c calls) (lastTime t calls) ∧
      (after c calls).timestamp + BitVec.ofNat 32 (rollOvers t (lastTime t calls)) =
        c.timestamp + BitVec.ofNat 32 (ticks (lastTime t calls) - ticks t) := by
  induction calls generalizing c t with
  | nil => exact ⟨le_refl t, hs, by simp [after, lastTime, rollOvers]⟩
  | cons k calls ih =>
      obtain ⟨htu, hpace, hrest⟩ := hp
      obtain ⟨hs', hstep⟩ := getTimerMasked_at hs htu hpace
      have hnext : (callAt c k).2 = (c.setTime k.2).getTimerMasked.2 := Call.exec_clock _ _
      rw [← hnext] at hs' hstep
      obtain ⟨hle, hsync, hrun⟩ := ih hs' hrest
      refine ⟨htu.trans hle, hsync, ?_⟩
      change (after (callAt c k).2 calls).timestamp +
          BitVec.ofNat 32 (rollOvers t (lastTime k.2 calls)) =
        c.timestamp + BitVec.ofNat 32 (ticks (lastTime k.2 calls) - ticks t)
      rw [rollOvers_add htu hle, elapsed_add htu hle, Words.ofNat_add, Words.ofNat_add]
      calc
        _ = (after (callAt c k).2 calls).timestamp +
              BitVec.ofNat 32 (rollOvers k.2 (lastTime k.2 calls)) +
            BitVec.ofNat 32 (rollOvers t k.2) := by abel
        _ = (callAt c k).2.timestamp + BitVec.ofNat 32 (rollOvers t k.2) +
            BitVec.ofNat 32 (ticks (lastTime k.2 calls) - ticks k.2) := by rw [hrun]; abel
        _ = _ := by rw [hstep]; abel

theorem timerInit_synced (c : Clock) (t : ℕ) : Synced (c.setTime t).timerInit.2 t :=
  getMillisecond_value _

@[simp] theorem timerInit_timestamp (c : Clock) : c.timerInit.2.timestamp = 0 := rfl

theorem after_append (c : Clock) (xs ys : List (Call × ℕ)) :
    after c (xs ++ ys) = after (after c xs) ys := by
  simp only [after, Runs.answers_append]

theorem paced_append {t : ℕ} {xs ys : List (Call × ℕ)} :
    Paced t (xs ++ ys) ↔ Paced t xs ∧ Paced (lastTime t xs) ys := by
  induction xs generalizing t with
  | nil => simp [Paced, lastTime]
  | cons k xs ih => simp [Paced, lastTime, ih, and_assoc]

theorem lastTime_append (t : ℕ) (xs ys : List (Call × ℕ)) :
    lastTime t (xs ++ ys) = lastTime (lastTime t xs) ys := by
  induction xs generalizing t with
  | nil => rfl
  | cons k xs ih => exact ih k.2

theorem getTimer_answer (c : Clock) (base : U32) (t : ℕ) :
    (callAt c (.getTimer base, t)).1 =
      ((callAt c (.getTimer base, t)).2.timestamp - base).toNat := rfl

/-! ## When the clock is exact -/

/-- What `timer.c` is for: the stamp counts the ticks since the reset, and
a base taken by `get_timer (0)` measures the ticks since it was taken. -/
structure Exact (c : Clock) (t : ℕ) (calls : List (Call × ℕ)) : Prop where
  stamp : (after c calls).timestamp.toNat =
    (ticks (lastTime t calls) - ticks t) % 2 ^ 32
  interval : ∀ pre mid base u v,
    calls = pre ++ (.getTimer 0, u) :: (mid ++ [(.getTimer base, v)]) →
    base.toNat = (callAt (after c pre) (.getTimer 0, u)).1 →
    (callAt (after c (pre ++ (.getTimer 0, u) :: mid)) (.getTimer base, v)).1 =
      (ticks v - ticks u) % 2 ^ 32

theorem interval_of_no_rollOver {c : Clock} {t u v : ℕ} {pre mid : List (Call × ℕ)}
    {base : U32} (hs : Synced c t)
    (hp : Paced t (pre ++ (.getTimer 0, u) :: (mid ++ [(.getTimer base, v)])))
    (hroll : rollOvers u v = 0)
    (hbase : base.toNat = (callAt (after c pre) (.getTimer 0, u)).1) :
    (callAt (after c (pre ++ (.getTimer 0, u) :: mid)) (.getTimer base, v)).1 =
      (ticks v - ticks u) % 2 ^ 32 := by
  obtain ⟨hpre, hrest⟩ := paced_append.mp hp
  obtain ⟨_, hsync, _⟩ := after_accounts hs hpre
  obtain ⟨hle, hpace, htail⟩ := hrest
  obtain ⟨hsync', _⟩ := getTimerMasked_at hsync hle hpace
  obtain ⟨_, _, hrun⟩ := after_accounts hsync' htail
  have hlast : lastTime u (mid ++ [(Call.getTimer base, v)]) = v := lastTime_append _ _ _
  rw [hlast, hroll] at hrun
  have hstamp : (callAt (after c pre) (.getTimer 0, u)).2.timestamp = base := by
    apply BitVec.eq_of_toNat_eq
    rw [hbase, getTimer_answer, sub_zero]
  have hend : (callAt (after c (pre ++ (.getTimer 0, u) :: mid)) (.getTimer base, v)).2 =
      after (callAt (after c pre) (.getTimer 0, u)).2 (mid ++ [(.getTimer base, v)]) := by
    simp only [after_append]
    rfl
  have hmove : (after (callAt (after c pre) (.getTimer 0, u)).2
      (mid ++ [(.getTimer base, v)])).timestamp = base + BitVec.ofNat 32 (ticks v - ticks u) :=
    ((add_zero _).symm.trans hrun).trans (congrArg (· + _) hstamp)
  rw [getTimer_answer, hend, hmove, add_sub_cancel_left, BitVec.toNat_ofNat]

theorem lastTime_of_split {t u v : ℕ} {pre mid : List (Call × ℕ)} {k l : Call} :
    lastTime t (pre ++ (k, u) :: (mid ++ [(l, v)])) = v := by
  simp [lastTime_append, lastTime]

theorem le_lastTime {t : ℕ} {calls : List (Call × ℕ)} (hp : Paced t calls) :
    t ≤ lastTime t calls := by
  induction calls generalizing t with
  | nil => exact le_refl t
  | cons k calls ih => exact hp.1.trans (ih hp.2.2)

theorem le_of_paced_split {t u v : ℕ} {pre mid : List (Call × ℕ)} {k l : Call}
    (hp : Paced t (pre ++ (k, u) :: (mid ++ [(l, v)]))) : t ≤ u := by
  obtain ⟨hpre, hrest⟩ := paced_append.mp hp
  exact (le_lastTime hpre).trans hrest.1

/-- On the 64-bit device time, the clock is exact on a run if and only if
the millisecond counter does not roll over in it. -/
theorem exact_iff_no_rollOver (c : Clock) (t : ℕ) (calls : List (Call × ℕ))
    (hp : Paced t calls) (h64 : lastTime t calls < 2 ^ 64) :
    Exact (c.setTime t).timerInit.2 t calls ↔ rollOvers t (lastTime t calls) = 0 := by
  obtain ⟨hle, _, hrun⟩ := after_accounts (timerInit_synced c t) hp
  rw [timerInit_timestamp, zero_add] at hrun
  constructor
  · intro hexact
    have hstamp : (after (c.setTime t).timerInit.2 calls).timestamp =
        BitVec.ofNat 32 (ticks (lastTime t calls) - ticks t) := by
      apply BitVec.eq_of_toNat_eq
      rw [hexact.stamp, BitVec.toNat_ofNat]
    rw [hstamp] at hrun
    have hzero : BitVec.ofNat 32 (rollOvers t (lastTime t calls)) = BitVec.ofNat 32 0 :=
      add_eq_left.mp hrun
    have hmod := Words.ofNat_eq_iff.mp hzero
    simp only [rollOvers] at hmod ⊢
    omega
  · intro hroll
    rw [hroll] at hrun
    constructor
    · have hstamp := (add_zero _).symm.trans hrun
      rw [hstamp, BitVec.toNat_ofNat]
    · intro pre mid base u v hcalls hbase
      subst hcalls
      have htu := le_of_paced_split hp
      rw [lastTime_of_split] at hroll
      refine interval_of_no_rollOver (timerInit_synced c t) hp ?_ hbase
      simp only [rollOvers] at hroll ⊢
      omega

def zeroClock : Clock := ⟨⟨0, 0, 0, none⟩, 0, 0⟩

/-- The base is taken after two ticks and measured from after seven. -/
theorem exact_five_ticks :
    Exact (zeroClock.setTime 0).timerInit.2 0
        [(.getTimer 0, 2 * 2 ^ 20), (.getTicks, 3 * 2 ^ 20), (.getTimer 2, 7 * 2 ^ 20)] ∧
      (callAt (after (zeroClock.setTime 0).timerInit.2
        [(.getTimer 0, 2 * 2 ^ 20), (.getTicks, 3 * 2 ^ 20)]) (.getTimer 2, 7 * 2 ^ 20)).1 = 5 := by
  have hp : Paced 0 [(.getTimer 0, 2 * 2 ^ 20), (.getTicks, 3 * 2 ^ 20),
      (.getTimer 2, 7 * 2 ^ 20)] :=
    ⟨by decide, by decide, by decide, by decide, by decide, by decide, trivial⟩
  have hexact := (exact_iff_no_rollOver zeroClock 0 _ hp (by decide)).mpr (by decide)
  have hticks : (ticks (7 * 2 ^ 20) - ticks (2 * 2 ^ 20)) % 2 ^ 32 = 5 := by decide
  have hinterval := hexact.interval [] [(.getTicks, 3 * 2 ^ 20)] 2 (2 * 2 ^ 20) (7 * 2 ^ 20) rfl
    (by decide)
  exact ⟨hexact, hinterval.trans hticks⟩

/-- A reading one tick after the reset, across a roll-over, does not see that tick. -/
theorem not_exact_across_rollOver :
    ¬ ∀ (c : Clock) (t : ℕ) (calls : List (Call × ℕ)), Paced t calls →
      lastTime t calls < 2 ^ 64 → Exact (c.setTime t).timerInit.2 t calls := by
  intro h
  have hstamp := (h zeroClock (2 ^ 52 - 1) [(.getTimerMasked, 2 ^ 52)]
    ⟨by decide, by decide, trivial⟩ (by decide)).stamp
  exact absurd hstamp (by decide)

end Goldfish.Timer
