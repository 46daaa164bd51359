import Goldfish.Timer.Delay
import Goldfish.Timer.Latch
import Mathlib.Algebra.Order.Field.Rat
import Mathlib.Tactic.Linarith

/-!
# The units of the readers

`get_second` shows the time in units of `2 ^ 30`, `get_millisecond` in units
of `2 ^ 20` and `goldfish_timer_read` as it is, as far as the word they
return holds it. `get_tbclk` declares 1000 ticks a second. There are 1024 in
the seconds of `get_second`.
-/

namespace Goldfish.Timer

def getTbclk : U32 := configSysHz

def goldfishTimerRead (d : Device) : U32 × Device :=
  let (lo, d) := d.readTimeLow
  let hi := d.readTimeHigh
  (Latch.timerReadOf lo hi, d)

/-! ## Seconds and ticks -/

def secondsBetween (d₁ d₂ : Device) : ℕ := (getSecond d₂).1.toNat - (getSecond d₁).1.toNat

def ticksBetween (d₁ d₂ : Device) : ℕ := (getMillisecond d₂).1.toNat - (getMillisecond d₁).1.toNat

/-- The two counters advance at the declared rate, so that a delay of `n`
seconds is as long as `n` seconds of the clock. -/
structure SameRate (d₁ d₂ : Device) : Prop where
  rate : |(secondsBetween d₁ d₂ : ℚ) - ticksBetween d₁ d₂ / getTbclk.toNat| < 2
  delay : ∀ n : ℕ, n * 1000000 < 2 ^ 32 →
    ticksBetween d₁ d₂ = (BitVec.ofNat 32 (n * 1000000) / configSysHz).toNat →
    |(secondsBetween d₁ d₂ : ℚ) - n| < 2

def Unwrapped (t u : ℕ) : Prop :=
  seconds t / 2 ^ 32 = seconds u / 2 ^ 32 ∧ ticks t / 2 ^ 32 = ticks u / 2 ^ 32

instance (t u : ℕ) : Decidable (Unwrapped t u) := inferInstanceAs (Decidable (_ ∧ _))

/-- Ticks since the last change of `get_second`. -/
def phase (t : ℕ) : ℕ := ticks t % 1024

theorem ticks_eq (t : ℕ) : ticks t = 1024 * seconds t + phase t := by
  simp only [ticks, seconds, phase]
  omega

theorem phase_lt (t : ℕ) : phase t < 1024 := Nat.mod_lt _ (by decide)

section Rates

variable {d₁ d₂ : Device}

theorem seconds_mono {t u : ℕ} (h : t ≤ u) : seconds t ≤ seconds u := Nat.div_le_div_right h

theorem toNat_sub_of_unwrapped {a b : ℕ} (h : a ≤ b) (hwrap : a / 2 ^ 32 = b / 2 ^ 32) :
    (BitVec.ofNat 32 b).toNat - (BitVec.ofNat 32 a).toNat = b - a := by
  rw [BitVec.toNat_ofNat, BitVec.toNat_ofNat]
  omega

theorem secondsBetween_eq (hle : d₁.time ≤ d₂.time) (hwrap : Unwrapped d₁.time d₂.time) :
    secondsBetween d₁ d₂ = seconds d₂.time - seconds d₁.time := by
  rw [secondsBetween, getSecond_value, getSecond_value]
  exact toNat_sub_of_unwrapped (seconds_mono hle) hwrap.1

theorem ticksBetween_eq (hle : d₁.time ≤ d₂.time) (hwrap : Unwrapped d₁.time d₂.time) :
    ticksBetween d₁ d₂ = ticks d₂.time - ticks d₁.time := by
  rw [ticksBetween, getMillisecond_value, getMillisecond_value]
  exact toNat_sub_of_unwrapped (ticks_mono hle) hwrap.2

theorem abs_sub_div_lt_iff (s m : ℕ) {k : ℕ} (hk : 0 < k) :
    |(s : ℚ) - m / k| < 2 ↔ m < k * (s + 2) ∧ k * s < m + 2 * k := by
  have hk' : (0 : ℚ) < k := Nat.cast_pos.mpr hk
  have hupper : (m : ℚ) / k < s + 2 ↔ m < k * (s + 2) := by
    rw [div_lt_iff₀ hk', mul_comm]
    exact_mod_cast Iff.rfl
  have hlower : (s : ℚ) < m / k + 2 ↔ k * s < m + 2 * k := by
    rw [div_add' _ _ _ hk'.ne', lt_div_iff₀ hk', mul_comm (s : ℚ)]
    exact_mod_cast Iff.rfl
  rw [abs_lt, ← hupper, ← hlower]
  constructor
  · rintro ⟨h₁, h₂⟩
    constructor <;> linarith
  · rintro ⟨h₁, h₂⟩
    constructor <;> linarith

theorem delay_ticks {n : ℕ} (hn : n * 1000000 < 2 ^ 32) :
    (BitVec.ofNat 32 (n * 1000000) / configSysHz).toNat = 1000 * n := by
  rw [delay_toNat, BitVec.toNat_ofNat, Nat.mod_eq_of_lt hn]
  omega

/-- Every second of `get_second` has 24 ticks more than the declared ones.
The readings agree exactly while these, and the position of the two times
in their seconds, do not add up to two seconds. -/
theorem sameRate_iff (d₁ d₂ : Device) (hle : d₁.time ≤ d₂.time)
    (hwrap : Unwrapped d₁.time d₂.time) :
    SameRate d₁ d₂ ↔
      24 * (seconds d₂.time - seconds d₁.time) + phase d₂.time < 2000 + phase d₁.time := by
  have hs := secondsBetween_eq hle hwrap
  have hm := ticksBetween_eq hle hwrap
  have hmono := seconds_mono hle
  have hrate := abs_sub_div_lt_iff (secondsBetween d₁ d₂) (ticksBetween d₁ d₂) (k := 1000)
    (by decide)
  have h₁ := ticks_eq d₁.time
  have h₂ := ticks_eq d₂.time
  have hp₁ := phase_lt d₁.time
  have hp₂ := phase_lt d₂.time
  have hticks := ticks_mono hle
  constructor
  · intro hsame
    have hbound := (hrate.mp hsame.rate).1
    omega
  · intro hbound
    have hsame := hrate.mpr ⟨by omega, by omega⟩
    refine ⟨hsame, ?_⟩
    intro n hn hdelay
    rw [hdelay, delay_ticks hn, Nat.cast_mul, mul_div_cancel_left₀ _ (by norm_num)] at hsame
    exact hsame

end Rates

def deviceAt (t : ℕ) : Device := ⟨t, 0, 0, none⟩

theorem sameRate_oneSecond : SameRate (deviceAt 0) (deviceAt (2 ^ 30)) :=
  (sameRate_iff (deviceAt 0) (deviceAt (2 ^ 30)) (by decide) (by decide)).mpr (by decide)

/-- After an hour the clocks are 86 seconds apart. -/
theorem not_sameRate_oneHour : ¬ ∀ d₁ d₂ : Device, d₁.time ≤ d₂.time →
    Unwrapped d₁.time d₂.time → SameRate d₁ d₂ := by
  intro h
  have hrate := (h (deviceAt 0) (deviceAt (3600 * 2 ^ 30)) (by decide) (by decide)).rate
  have hbound := (abs_sub_div_lt_iff _ _ (k := 1000) (by decide)).mp hrate
  exact absurd hbound.1 (by decide)

/-! ## The whole time in one word -/

/-- The three readers of a device whose time does not pass between their
accesses show one instant. -/
structure SameInstant (d : Device) : Prop where
  time : (goldfishTimerRead d).1.toNat = d.time
  millisecond : (getMillisecond d).1 =
    ((goldfishTimerRead d).1.setWidth 64 >>> 20).setWidth 32
  second : (getSecond d).1 = ((goldfishTimerRead d).1.setWidth 64 >>> 30).setWidth 32

def timerReads (ds : List Device) : List ℕ := ds.map fun d => (goldfishTimerRead d).1.toNat

/-- The shift leaves nothing of the high word in the 32 bits of the result. -/
theorem timerReadOf_eq (lo hi : U32) : Latch.timerReadOf lo hi = lo := by
  have hzero : (hi.setWidth 64 <<< 32).setWidth 32 = 0#32 := by
    apply BitVec.eq_of_toNat_eq
    rw [BitVec.toNat_setWidth, BitVec.toNat_shiftLeft, Nat.shiftLeft_eq, BitVec.toNat_ofNat]
    omega
  rw [Latch.timerReadOf, hzero, BitVec.or_zero]

theorem goldfishTimerRead_value (d : Device) :
    (goldfishTimerRead d).1.toNat = d.time % 2 ^ 32 := by
  rw [goldfishTimerRead]
  dsimp only
  rw [timerReadOf_eq]
  exact BitVec.toNat_ofNat ..

theorem shifted_value (w : U32) (k : ℕ) :
    (w.setWidth 64 >>> k).setWidth 32 = BitVec.ofNat 32 (w.toNat / 2 ^ k) := by
  apply BitVec.eq_of_toNat_eq
  rw [BitVec.toNat_setWidth, BitVec.toNat_ushiftRight, BitVec.toNat_setWidth_of_le (by decide),
    Nat.shiftRight_eq_div_pow, BitVec.toNat_ofNat]

theorem sameInstant_of_lt {d : Device} (h : d.time < 2 ^ 32) : SameInstant d := by
  have hread := goldfishTimerRead_value d
  rw [Nat.mod_eq_of_lt h] at hread
  constructor
  · exact hread
  · rw [getMillisecond_value, shifted_value, hread, ticks]
  · rw [getSecond_value, shifted_value, hread, seconds]

/-- The readers show one instant, in every reading of a run, exactly as
long as the time fits in its low word. -/
theorem sameInstants_iff (ds : List Device) (hds : ds.IsChain fun d e => d.time ≤ e.time) :
    ((∀ d ∈ ds, SameInstant d) ∧ (timerReads ds).IsChain (· ≤ ·)) ↔
      ∀ d ∈ ds, d.time < 2 ^ 32 := by
  constructor
  · rintro ⟨hsame, -⟩ d hd
    rw [← (hsame d hd).time]
    exact (goldfishTimerRead d).1.isLt
  · intro hlt
    refine ⟨fun d hd => sameInstant_of_lt (hlt d hd), ?_⟩
    have hreads : timerReads ds = ds.map Device.time := by
      apply List.map_congr_left
      intro d hd
      exact (sameInstant_of_lt (hlt d hd)).time
    rw [hreads, List.isChain_map]
    exact hds

theorem sameInstants_firstSeconds :
    (∀ d ∈ [deviceAt 5, deviceAt (2 ^ 31)], SameInstant d) ∧
      (timerReads [deviceAt 5, deviceAt (2 ^ 31)]).IsChain (· ≤ ·) :=
  (sameInstants_iff _ (by decide)).mpr (by decide)

/-- With the carry into the high word the reading starts again from zero. -/
theorem not_sameInstants_after_carry : ¬ ∀ ds : List Device, (∀ d ∈ ds, d.time < 2 ^ 64) →
    (ds.IsChain fun d e => d.time ≤ e.time) →
      (∀ d ∈ ds, SameInstant d) ∧ (timerReads ds).IsChain (· ≤ ·) := by
  intro h
  have hsame := h [deviceAt (2 ^ 32 - 1), deviceAt (2 ^ 32)] (by decide) (by decide)
  exact absurd hsame.2 (by decide)

end Goldfish.Timer
