import Goldfish.Timer.Latch

/-!
# Arming the alarm

`goldfish_set_timer` adds a number of ticks to the time, word by word, and
writes the two words of the sum to the alarm registers. Between two of its
accesses time goes on, and an alarm armed earlier may fire. The list of the
alarms that were armed shows what the writes activate.
-/

namespace Goldfish.Timer

open Latch

/-- The device with the alarms armed so far, the latest last. -/
structure Bus where
  device : Device
  armed : List U64
  deriving DecidableEq

/-- What happens between two accesses. -/
structure Pause where
  units : ℕ
  fires : Bool
  deriving DecidableEq

namespace Bus

def pause (p : Pause) (b : Bus) : Bus :=
  { b with
    device := { b.device with
      time := b.device.time + p.units
      alarm := if p.fires then none else b.device.alarm } }

def readTimeLow (b : Bus) : U32 × Bus :=
  let (lo, device) := b.device.readTimeLow
  (lo, { b with device })

def readTimeHigh (b : Bus) : U32 := b.device.readTimeHigh

def writeAlarmHigh (v : U32) (b : Bus) : Bus := { b with device := b.device.writeAlarmHigh v }

def writeAlarmLow (v : U32) (b : Bus) : Bus :=
  { device := b.device.writeAlarmLow v, armed := b.armed ++ [b.device.alarmHigh ++ v] }

def goldfishSetTimer (cycles : U32) (p₁ p₂ p₃ : Pause) (b : Bus) : Bus :=
  let (lo, b) := b.readTimeLow
  let b := b.pause p₁
  let hi := b.readTimeHigh
  let (high, low) := alarmWords cycles lo hi
  let b := (b.pause p₂).writeAlarmHigh high
  (b.pause p₃).writeAlarmLow low

end Bus

/-- The words of the ticks: those above the low 12 bits go to the high word. -/
theorem cycles_words (cycles : U32) :
    cycles / 4096#32 = BitVec.ofNat 32 (cycles.toNat * 2 ^ 20 / 2 ^ 32) ∧
      (cycles % 4096#32) <<< 20 = BitVec.ofNat 32 (cycles.toNat * 2 ^ 20) := by
  have hlt := cycles.isLt
  constructor
  · apply BitVec.eq_of_toNat_eq
    simp only [BitVec.toNat_udiv, BitVec.toNat_ofNat, Nat.reducePow, Nat.reduceMod]
    omega
  · apply BitVec.eq_of_toNat_eq
    simp only [BitVec.toNat_shiftLeft, BitVec.toNat_umod, BitVec.toNat_ofNat, Nat.shiftLeft_eq,
      Nat.reducePow, Nat.reduceMod]
    omega

theorem alarmWords_append (cycles : U32) (t : ℕ) :
    let words := alarmWords cycles (BitVec.ofNat 32 t) (BitVec.ofNat 32 (t / 2 ^ 32))
    words.1 ++ words.2 = BitVec.ofNat 64 (t + cycles.toNat * 2 ^ 20) := by
  obtain ⟨hhigh, hlow⟩ := cycles_words cycles
  have hwords : alarmWords cycles (BitVec.ofNat 32 t) (BitVec.ofNat 32 (t / 2 ^ 32)) =
      (BitVec.ofNat 32 ((t + cycles.toNat * 2 ^ 20) / 2 ^ 32),
        BitVec.ofNat 32 (t + cycles.toNat * 2 ^ 20)) := by
    unfold alarmWords
    rw [hhigh, hlow]
    exact Words.add_words t _
  rw [hwords]
  exact Words.append_words 32 32 _

/-- The pauses do not reach the words: both come from the instant at which
the low word was read. -/
theorem goldfishSetTimer_spec (cycles : U32) (p₁ p₂ p₃ : Pause) (b : Bus) :
    let words := alarmWords cycles (BitVec.ofNat 32 b.device.time)
      (BitVec.ofNat 32 (b.device.time / 2 ^ 32))
    (b.goldfishSetTimer cycles p₁ p₂ p₃).armed = b.armed ++ [words.1 ++ words.2] ∧
      (b.goldfishSetTimer cycles p₁ p₂ p₃).device.alarm = some (words.1 ++ words.2) :=
  ⟨rfl, rfl⟩

theorem ticks_alarm (cycles : U32) (d : Device) :
    BitVec.ofNat 32 (ticks (BitVec.ofNat 64 (d.time + cycles.toNat * 2 ^ 20)).toNat) =
      (getMillisecond d).1 + cycles := by
  have hticks : ticks (BitVec.ofNat 64 (d.time + cycles.toNat * 2 ^ 20)).toNat % 2 ^ 32 =
      (ticks d.time + cycles.toNat) % 2 ^ 32 := by
    rw [BitVec.toNat_ofNat]
    simp only [ticks]
    omega
  rw [Words.ofNat_eq_iff.mpr hticks, getMillisecond_value, Words.ofNat_add, BitVec.ofNat_toNat,
    BitVec.setWidth_eq]

/-- Whatever was armed before and however long the accesses take, the call
arms one alarm, and it lies `cycles` ticks after the low word was read. -/
theorem goldfishSetTimer_arms (cycles : U32) (p₁ p₂ p₃ : Pause) (b : Bus) :
    ∃ a, (b.goldfishSetTimer cycles p₁ p₂ p₃).armed = b.armed ++ [a] ∧
      (b.goldfishSetTimer cycles p₁ p₂ p₃).device.alarm = some a ∧
      a = BitVec.ofNat 64 (b.device.time + cycles.toNat * 2 ^ 20) ∧
      BitVec.ofNat 32 (ticks a.toNat) = (getMillisecond b.device).1 + cycles := by
  obtain ⟨harmed, halarm⟩ := goldfishSetTimer_spec cycles p₁ p₂ p₃ b
  rw [alarmWords_append] at harmed halarm
  exact ⟨_, harmed, halarm, rfl, ticks_alarm cycles b.device⟩

/-- One tick from the last instant of a low word: both words of the alarm
are those of the sum. -/
example : (Bus.goldfishSetTimer 1#32 ⟨7, true⟩ ⟨0, false⟩ ⟨2, false⟩
    ⟨⟨2 ^ 32 - 1, 0, 5, some 9⟩, [9]⟩).armed = [9, 0x1000fffff#64] := by decide

end Goldfish.Timer
