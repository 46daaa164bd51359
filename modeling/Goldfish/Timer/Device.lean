import Goldfish.Word
import Mathlib.Tactic.Common

/-!
# The goldfish timer and its readers

`include/timer.h` describes the time and alarm registers. Reading
`TIMER_TIME_LOW` gives the low word of the running time and captures the
high word; reading `TIMER_TIME_HIGH` gives the captured word, however old
it is. Writing `TIMER_ALARM_LOW` arms the alarm with the current
`TIMER_ALARM_HIGH`.
-/

namespace Goldfish.Timer

structure Device where
  /-- Running device time; the registers show it modulo `2 ^ 64`. -/
  time : ℕ
  timeHigh : U32
  alarmHigh : U32
  alarm : Option U64
  deriving DecidableEq

namespace Device

def readTimeLow (d : Device) : U32 × Device :=
  (BitVec.ofNat 32 d.time, { d with timeHigh := BitVec.ofNat 32 (d.time / 2 ^ 32) })

def readTimeHigh (d : Device) : U32 := d.timeHigh

def writeAlarmHigh (v : U32) (d : Device) : Device := { d with alarmHigh := v }

def writeAlarmLow (v : U32) (d : Device) : Device :=
  { d with alarm := some (d.alarmHigh ++ v) }

end Device

/-- Value computed by `get_second` from the two register words. -/
def secondOf (lo hi : U32) : U32 := hi * 4#32 + (lo >>> 30)

/-- Value computed by `get_millisecond` from the two register words. -/
def millisecondOf (lo hi : U32) : U32 := (hi <<< 12) + (lo >>> 20)

def getSecond (d : Device) : U32 × Device :=
  let (lo, d) := d.readTimeLow
  let hi := d.readTimeHigh
  (secondOf lo hi, d)

def getMillisecond (d : Device) : U32 × Device :=
  let (lo, d) := d.readTimeLow
  let hi := d.readTimeHigh
  (millisecondOf lo hi, d)

/-- Whole ticks of `2 ^ 20` device units, the unit of `get_millisecond`. -/
def ticks (t : ℕ) : ℕ := t / 2 ^ 20

def seconds (t : ℕ) : ℕ := t / 2 ^ 30

/-- A low word read at `t` and a high word captured at `u` combine to the
tick count of `t` with its carries into the high word taken from `u`. -/
theorem millisecondOf_words (t u : ℕ) :
    millisecondOf (BitVec.ofNat 32 t) (BitVec.ofNat 32 (u / 2 ^ 32)) =
      BitVec.ofNat 32 (u / 2 ^ 32 * 4096 + t % 2 ^ 32 / 2 ^ 20) := by
  apply BitVec.eq_of_toNat_eq
  simp only [millisecondOf, BitVec.toNat_add, BitVec.toNat_shiftLeft, BitVec.toNat_ushiftRight,
    BitVec.toNat_ofNat, Nat.shiftLeft_eq, Nat.shiftRight_eq_div_pow]
  omega

theorem secondOf_words (t u : ℕ) :
    secondOf (BitVec.ofNat 32 t) (BitVec.ofNat 32 (u / 2 ^ 32)) =
      BitVec.ofNat 32 (u / 2 ^ 32 * 4 + t % 2 ^ 32 / 2 ^ 30) := by
  apply BitVec.eq_of_toNat_eq
  simp only [secondOf, BitVec.toNat_add, BitVec.toNat_mul, BitVec.toNat_ushiftRight,
    BitVec.toNat_ofNat, Nat.shiftRight_eq_div_pow]
  omega

theorem getMillisecond_value (d : Device) :
    (getMillisecond d).1 = BitVec.ofNat 32 (ticks d.time) := by
  have h := millisecondOf_words d.time d.time
  have ht : d.time / 2 ^ 32 * 4096 + d.time % 2 ^ 32 / 2 ^ 20 = ticks d.time := by
    simp only [ticks]
    omega
  rwa [ht] at h

theorem getSecond_value (d : Device) :
    (getSecond d).1 = BitVec.ofNat 32 (seconds d.time) := by
  have h := secondOf_words d.time d.time
  have ht : d.time / 2 ^ 32 * 4 + d.time % 2 ^ 32 / 2 ^ 30 = seconds d.time := by
    simp only [seconds]
    omega
  rwa [ht] at h

@[simp] theorem getMillisecond_time (d : Device) : (getMillisecond d).2.time = d.time := rfl

end Goldfish.Timer
