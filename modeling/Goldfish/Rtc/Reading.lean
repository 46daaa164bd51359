import Goldfish.Rtc.Clock

/-!
# Reading the clock and setting it again

`to_tm` takes its argument for a signed number. From the end of its range on
it makes no date of it, but the fields it fills still add up to the argument,
so that `mktime` finds it again.
-/

namespace Goldfish.Rtc

open Calendar

/-- What `rtc_set` makes of the fields. -/
def encode (tm : RtcTime) : U32 :=
  mktime (.ofInt 32 tm.year) (.ofInt 32 tm.mon) (.ofInt 32 tm.mday) (.ofInt 32 tm.hour)
    (.ofInt 32 tm.min) (.ofInt 32 tm.sec)

theorem rtcSet_encode (tm : RtcTime) (second : U32) (c : Clock) :
    rtcSet tm second c = { c with rtcOffset := encode tm - second } := rfl

/-! ## Encoding what was decoded -/

theorem encode_toRtcTime (d : DateTime) (w : ℤ) (hnonneg : 0 ≤ d.epochSecond)
    (hlt : d.epochSecond < 2 ^ 31) : encode (toRtcTime d w) = BitVec.ofInt 32 d.epochSecond := by
  obtain ⟨hyear, hyear'⟩ := epochSecond_year hnonneg hlt
  simp only [encode, toRtcTime, BitVec.ofInt_natCast, mktime_epochSecond d hyear hyear']

/-- The years and months before January 1970 are as many days as `mktime`
subtracts in the end, less one. -/
theorem mktime_january (day hour min sec : U32) :
    mktime 1970 1 day hour min sec = (((day - 1) * 24 + hour) * 60 + min) * 60 + sec := by
  have hmarch : (if 0 ≥ ((1 : U32) - 2).toInt then ((1 : U32) - 2 + 12, (1970 : U32) - 1)
      else ((1 : U32) - 2, (1970 : U32))) = (11, 1969) := by decide
  have hdays : (1969 / 4 - 1969 / 100 + 1969 / 400 + 367 * 11 / 12 : U32) + day +
      1969 * 365 - 719499 = day - 1 := by
    have hconst : (1969 / 4 - 1969 / 100 + 1969 / 400 + 367 * 11 / 12 : U32) =
        719498 - 1969 * 365 := by decide
    have hone : (719499 : U32) = 719498 + 1 := by decide
    rw [hconst, hone]
    abel
  rw [mktime]
  simp only [hmarch, hdays]

theorem split_seconds (tim : ℤ) :
    (((tim.tdiv secday * 24 + (tim.tmod secday).tdiv 3600) * 60 +
      ((tim.tmod secday).tmod 3600).tdiv 60) * 60 + ((tim.tmod secday).tmod 3600).tmod 60) =
        tim := by
  have hday := Int.mul_tdiv_add_tmod tim secday
  have hhour := Int.mul_tdiv_add_tmod (tim.tmod secday) 3600
  have hmin := Int.mul_tdiv_add_tmod ((tim.tmod secday).tmod 3600) 60
  unfold secday at *
  omega

theorem encode_beforeEpoch (tim w : ℤ) : encode (beforeEpoch tim w) = BitVec.ofInt 32 tim := by
  have hyear : BitVec.ofInt 32 1970 = 1970 := rfl
  have hone : BitVec.ofInt 32 1 = 1 := rfl
  have hday : BitVec.ofInt 32 24 = 24 := rfl
  have hsixty : BitVec.ofInt 32 60 = 60 := rfl
  have hsplit := congrArg (BitVec.ofInt 32) (split_seconds tim)
  rw [← hsplit]
  simp only [encode, beforeEpoch, hyear, hone, mktime_january, BitVec.ofInt_add, BitVec.ofInt_mul,
    hday, hsixty, add_sub_cancel_right]

/-- Whatever the counter and the offset are, setting the clock to what was
read from it in the same second changes nothing. -/
theorem rtcSet_rtcGet (second rtcOffset : U32) :
    ∃ tm c, rtcGet second ⟨rtcOffset, monthDays⟩ = some (tm, c) ∧
      encode tm = second + rtcOffset ∧ rtcSet tm second c = ⟨rtcOffset, monthDays⟩ := by
  have hlt := BitVec.two_mul_toInt_lt (x := second + rtcOffset)
  obtain ⟨tm, htm, hencode⟩ : ∃ tm,
      toTm monthDays (second + rtcOffset).toInt = some (tm, monthDays) ∧
        encode tm = BitVec.ofInt 32 (second + rtcOffset).toInt := by
    by_cases hneg : (second + rtcOffset).toInt < 0
    · obtain ⟨w, hw⟩ := toTm_negative hneg
      exact ⟨_, hw, encode_beforeEpoch _ w⟩
    · obtain ⟨d, hd, htm⟩ := toTm_spec (not_lt.mp hneg) (by omega)
      rw [← hd] at hneg hlt ⊢
      exact ⟨_, hd ▸ htm, encode_toRtcTime d _ (not_lt.mp hneg) (by omega)⟩
  rw [BitVec.ofInt_toInt] at hencode
  refine ⟨tm, ⟨rtcOffset, monthDays⟩, rtcGet_eq rfl htm, hencode, ?_⟩
  rw [rtcSet_encode, hencode, add_sub_cancel_left]

/-! ## When a reading is a date -/

structure WellFormed (tm : RtcTime) : Prop where
  mon : 1 ≤ tm.mon ∧ tm.mon ≤ 12
  mday : 1 ≤ tm.mday ∧ tm.mday ≤ monthLength tm.year.toNat tm.mon.toNat
  hour : 0 ≤ tm.hour ∧ tm.hour < 24
  min : 0 ≤ tm.min ∧ tm.min < 60
  sec : 0 ≤ tm.sec ∧ tm.sec < 60
  wday : 0 ≤ tm.wday ∧ tm.wday < 7

theorem wellFormed_toRtcTime (d : DateTime) : WellFormed (toRtcTime d d.date.weekday) := by
  have hmonth := d.date.month_pos
  have hmonth' := d.date.month_le
  have hday := d.date.day_pos
  have hday' := d.date.day_le_monthLength
  have hhour := d.hour_lt
  have hminute := d.minute_lt
  have hsecond := d.second_lt
  constructor
  · simp only [toRtcTime]
    omega
  · simp only [toRtcTime, Int.toNat_natCast]
    omega
  · simp only [toRtcTime]
    omega
  · simp only [toRtcTime]
    omega
  · simp only [toRtcTime]
    omega
  · simp only [toRtcTime, Date.weekday]
    omega

/-- A time before the epoch has a negative part, whichever it is. -/
theorem not_wellFormed_beforeEpoch {tim : ℤ} (h : tim < 0) (w : ℤ) :
    ¬ WellFormed (beforeEpoch tim w) := by
  intro hwell
  have hmday := hwell.mday.1
  have hhour := hwell.hour.1
  have hmin := hwell.min.1
  have hsec := hwell.sec.1
  have hsplit := split_seconds tim
  simp only [beforeEpoch] at hmday hhour hmin hsec
  omega

/-- In every state of the clock the loops of `to_tm` stay inside their
tables, and it reads a date exactly if the sum is no negative number. -/
theorem wellFormed_iff (ops : List Op) (c : Clock)
    (h : Runs.run step Clock.reset ops = some c) (second : U32) :
    ∃ tm, rtcGet second c = some (tm, c) ∧
      (WellFormed tm ↔ (second + c.rtcOffset).toNat < 2 ^ 31) := by
  obtain ⟨c', hrun, hmonth⟩ := run_total ops (c := Clock.reset) rfl
  obtain rfl := Option.some.inj (h.symm.trans hrun)
  have hsign : 0 ≤ (second + c.rtcOffset).toInt ↔ (second + c.rtcOffset).toNat < 2 ^ 31 := by
    rw [BitVec.toInt_pos_iff]
    omega
  by_cases hneg : (second + c.rtcOffset).toInt < 0
  · obtain ⟨w, hw⟩ := toTm_negative hneg
    refine ⟨_, rtcGet_eq hmonth hw, ?_⟩
    rw [← hsign]
    exact iff_of_false (not_wellFormed_beforeEpoch hneg w) (not_le.mpr hneg)
  · have hlt := BitVec.two_mul_toInt_lt (x := second + c.rtcOffset)
    obtain ⟨d, -, hd⟩ := toTm_spec (not_lt.mp hneg) (by omega)
    refine ⟨_, rtcGet_eq hmonth hd, ?_⟩
    rw [← hsign]
    exact iff_of_true (wellFormed_toRtcTime d) (not_lt.mp hneg)

theorem wellFormed_commandDate : ∃ tm,
    rtcGet 9#32 (rtcSet (toRtcTime commandDate 0) 5#32 Clock.reset) =
      some (tm, rtcSet (toRtcTime commandDate 0) 5#32 Clock.reset) ∧ WellFormed tm := by
  obtain ⟨tm, hget, hwell⟩ := wellFormed_iff [.set (toRtcTime commandDate 0) 5#32] _ rfl 9#32
  exact ⟨tm, hget, hwell.mpr (by decide)⟩

/-- The last date of `mktime`: 2106-02-07 06:28:15. -/
def lastDate : DateTime :=
  ⟨⟨2106, 2, 7, by decide, by decide, by decide, by decide⟩, 6, 28, 15, by decide, by decide,
    by decide⟩

theorem lastDate_epochSecond : lastDate.epochSecond = 2 ^ 32 - 1 := by
  have hclosed := daysTo_closed 2106
  have hmonths : daysToMonth 2106 2 = 31 := by decide
  simp only [DateTime.epochSecond, Date.dayNumber, lastDate, hmonths, epochDay]
  omega

/-- Set to its last date, the clock reads a second before the epoch. -/
theorem not_wellFormed_lastDate : ¬ ∀ (d : DateTime) (w : ℤ) (s s' : U32),
    0 ≤ d.epochSecond → d.epochSecond < 2 ^ 32 →
      ∃ tm c, rtcGet s' (rtcSet (toRtcTime d w) s Clock.reset) = some (tm, c) ∧
        WellFormed tm := by
  intro h
  obtain ⟨tm, c, hget, hwell⟩ := h lastDate 0 0 0 (by rw [lastDate_epochSecond]; decide)
    (by rw [lastDate_epochSecond]; decide)
  have hneg : (0 + (rtcSet (toRtcTime lastDate 0) 0 Clock.reset).rtcOffset).toInt < 0 := by decide
  obtain ⟨w, hw⟩ := toTm_negative hneg
  rw [rtcGet_eq rfl hw] at hget
  obtain ⟨rfl, -⟩ := Prod.mk.inj (Option.some.inj hget)
  exact not_wellFormed_beforeEpoch hneg w hwell

end Goldfish.Rtc
