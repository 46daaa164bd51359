import Goldfish.Lib.Words
import Goldfish.Rtc.Date
import Mathlib.Tactic.IntervalCases
import Mathlib.Tactic.Ring

/-!
# The conversions and the calendar

`mktime` computes the seconds of every date after the year 0, modulo
`2 ^ 32`. `to_tm` takes every fourth year for a leap year, which is right
from 1970 to 2099: there it finds the date of its argument.
-/

namespace Goldfish.Rtc

open Calendar

def toRtcTime (d : DateTime) (wday : ℤ) : RtcTime where
  sec := d.second
  min := d.minute
  hour := d.hour
  mday := d.date.day
  mon := d.date.month
  year := d.date.year
  wday := wday

/-! ## Encoding -/

theorem daysToMonth_early {y m : ℕ} (hpos : 1 ≤ m) (hm : m ≤ 2) :
    daysToMonth y m + 336 = 367 * (m + 10) / 12 := by
  interval_cases m
  · rfl
  · rfl

/-- 367/12 days are a month, from March to December. -/
theorem daysToMonth_late {y m : ℕ} (hpos : 3 ≤ m) (hm : m ≤ 12) :
    daysToMonth y m = 367 * (m - 2) / 12 + 29 + if IsLeap y then 1 else 0 := by
  interval_cases m <;> simp only [daysToMonth, monthLengths] <;> split <;> rfl

def marchBased (d : Date) : ℕ × ℕ :=
  if d.month ≤ 2 then (d.year - 1, d.month + 10) else (d.year, d.month - 2)

theorem leaps_upto (y : ℕ) :
    (y + 3) / 4 + (y + 399) / 400 + y / 100 + (if IsLeap y then 1 else 0) =
      (y + 99) / 100 + y / 4 + y / 400 + 1 := by
  by_cases h : IsLeap y
  · rw [if_pos h]
    unfold IsLeap at h
    omega
  · rw [if_neg h]
    unfold IsLeap at h
    omega

/-- The formula of `mktime` for the days, before it is cut to a word. -/
theorem gauss_days (d : Date) (hyear : 1 ≤ d.year) :
    (((marchBased d).1 / 4 : ℕ) : ℤ) - ((marchBased d).1 / 100 : ℕ) +
      ((marchBased d).1 / 400 : ℕ) + (367 * (marchBased d).2 / 12 : ℕ) + d.day +
        (marchBased d).1 * 365 - 719499 = d.dayNumber - epochDay := by
  have hclosed := daysTo_closed d.year
  have hday := d.day_pos
  have hmonth := d.month_pos
  have hmonth' := d.month_le
  unfold marchBased Date.dayNumber epochDay
  by_cases h : d.month ≤ 2
  · have hmonths := daysToMonth_early (y := d.year) hmonth h
    rw [if_pos h]
    dsimp only
    omega
  · have hmonths := daysToMonth_late (y := d.year) (by omega) hmonth'
    have hleaps := leaps_upto d.year
    rw [if_neg h]
    dsimp only
    -- both equations have the same quotients, so the rest is linear
    generalize d.year / 4 = a at *
    generalize d.year / 100 = b at *
    generalize d.year / 400 = c at *
    omega

theorem march_words (d : Date) (hyear : 1 ≤ d.year) :
    (if 0 ≥ (BitVec.ofNat 32 d.month - 2).toInt then
        (BitVec.ofNat 32 d.month - 2 + 12, BitVec.ofNat 32 d.year - 1)
      else (BitVec.ofNat 32 d.month - 2, BitVec.ofNat 32 d.year)) =
      (BitVec.ofNat 32 (marchBased d).2, BitVec.ofNat 32 (marchBased d).1) := by
  have hpos := d.month_pos
  have hle := d.month_le
  have hlast : BitVec.ofNat 32 d.year - 1 = BitVec.ofNat 32 (d.year - 1) :=
    Words.ofNat_sub_of_le hyear
  unfold marchBased
  generalize d.month = m at hpos hle
  by_cases h : m ≤ 2
  · have hneg : 0 ≥ (BitVec.ofNat 32 m - 2).toInt := by
      interval_cases m <;> decide
    have hmonth : BitVec.ofNat 32 m - 2 + 12 = BitVec.ofNat 32 (m + 10) := by
      interval_cases m <;> decide
    rw [if_pos hneg, if_pos h, hlast, hmonth]
  · have hnonneg : ¬ 0 ≥ (BitVec.ofNat 32 m - 2).toInt := by
      interval_cases m <;> decide
    have hmonth : BitVec.ofNat 32 m - 2 = BitVec.ofNat 32 (m - 2) :=
      Words.ofNat_sub_of_le (a := 2) (by omega)
    rw [if_neg hnonneg, if_neg h, hmonth]

theorem mktime_epochSecond (d : DateTime) (hyear : 1 ≤ d.date.year)
    (hyear' : d.date.year < 2 ^ 32) :
    mktime (BitVec.ofNat 32 d.date.year) (BitVec.ofNat 32 d.date.month)
      (BitVec.ofNat 32 d.date.day) (BitVec.ofNat 32 d.hour) (BitVec.ofNat 32 d.minute)
      (BitVec.ofNat 32 d.second) = BitVec.ofInt 32 d.epochSecond := by
  have hmarch := march_words d.date hyear
  have hdays := congrArg (fun z : ℤ => (z : U32)) (gauss_days d.date hyear)
  have hy : (marchBased d.date).1 < 2 ^ 32 := by
    unfold marchBased
    split <;> dsimp only <;> omega
  have hm : 367 * (marchBased d.date).2 < 2 ^ 32 := by
    have hle := d.date.month_le
    unfold marchBased
    split <;> dsimp only <;> omega
  generalize (marchBased d.date).1 = y at *
  generalize (marchBased d.date).2 = m at *
  have h4 : BitVec.ofNat 32 y / 4 = BitVec.ofNat 32 (y / 4) := Words.ofNat_div hy (by decide)
  have h100 : BitVec.ofNat 32 y / 100 = BitVec.ofNat 32 (y / 100) := Words.ofNat_div hy (by decide)
  have h400 : BitVec.ofNat 32 y / 400 = BitVec.ofNat 32 (y / 400) := Words.ofNat_div hy (by decide)
  have h12 : 367 * BitVec.ofNat 32 m / 12 = BitVec.ofNat 32 (367 * m / 12) := by
    have hmul : 367 * BitVec.ofNat 32 m = BitVec.ofNat 32 (367 * m) := by
      rw [BitVec.ofNat_mul]
      rfl
    rw [hmul]
    exact Words.ofNat_div hm (by decide)
  rw [mktime]
  simp only [hmarch, h4, h100, h400, h12]
  simp only [← BitVec.natCast_eq_ofNat]
  change _ = ((d.epochSecond : ℤ) : U32)
  -- the quotients are whole numbers from here on
  generalize y / 4 = a at hdays ⊢
  generalize y / 100 = b at hdays ⊢
  generalize y / 400 = c at hdays ⊢
  generalize 367 * m / 12 = e at hdays ⊢
  unfold DateTime.epochSecond
  have hour_eq : 3600#32 = 60#32 * 60#32 := by decide
  push_cast at hdays ⊢
  rw [← hdays, hour_eq]
  ring

/-! ## Decoding -/

theorem leapyear_iff {y : ℕ} (hlow : 1970 ≤ y) (hhigh : y < 2100) :
    leapyear y ↔ IsLeap y := by
  unfold leapyear IsLeap
  rw [Int.tmod_eq_emod_of_nonneg (Int.natCast_nonneg y)]
  omega

theorem daysInYear_eq {y : ℕ} (hlow : 1970 ≤ y) (hhigh : y < 2100) :
    daysInYear y = yearLength y := by
  unfold daysInYear yearLength
  by_cases h : IsLeap y
  · rw [if_pos h, if_pos ((leapyear_iff hlow hhigh).mpr h)]
    rfl
  · rw [if_neg h, if_neg (mt (leapyear_iff hlow hhigh).mp h)]
    rfl

theorem yearLoop_spec (r y : ℕ) (hlow : 1970 ≤ y) (h : daysTo y + r < daysTo 2100) :
    ∃ y' r' : ℕ, yearLoop y r = ((y' : ℤ), (r' : ℤ)) ∧ 1970 ≤ y' ∧ y' < 2100 ∧ r' < yearLength y' ∧
      daysTo y' + r' = daysTo y + r := by
  induction r using Nat.strong_induction_on generalizing y with
  | _ r ih =>
      have hhigh : y < 2100 := by
        by_contra hle
        have hmono := daysTo_mono (not_lt.mp hle)
        omega
      have hpos := yearLength_pos y
      have hlength := daysInYear_eq hlow hhigh
      rw [yearLoop, hlength]
      by_cases hr : yearLength y ≤ r
      · have hnext : daysTo (y + 1) + (r - yearLength y) = daysTo y + r := by
          rw [daysTo]
          omega
        have hcast : (r : ℤ) - yearLength y = (r - yearLength y : ℕ) := (Nat.cast_sub hr).symm
        rw [if_pos (by exact_mod_cast hr), hcast, ← Nat.cast_succ]
        obtain ⟨y', r', heq, hlow', hhigh', hr', hsum⟩ :=
          ih (r - yearLength y) (by omega) (y + 1) (by omega) (by omega)
        exact ⟨y', r', heq, hlow', hhigh', hr', hsum.trans hnext⟩
      · rw [if_neg (by exact_mod_cast hr)]
        exact ⟨y, r, rfl, hlow, hhigh, not_le.mp hr, rfl⟩

theorem monthLoop_spec (table : List ℕ) (i r : ℕ) (h : r < table.sum) :
    ∃ k r' : ℕ, monthLoop (table.map Nat.cast) i r = some (((i + k : ℕ) : ℤ), (r' : ℤ)) ∧
      k < table.length ∧ (table.take k).sum + r' = r ∧ r < (table.take (k + 1)).sum := by
  induction table generalizing i r with
  | nil => exact absurd h (Nat.not_lt_zero r)
  | cons days table ih =>
      rw [List.sum_cons] at h
      rw [List.map_cons, monthLoop]
      by_cases hr : days ≤ r
      · have hcast : (r : ℤ) - days = (r - days : ℕ) := (Nat.cast_sub hr).symm
        rw [if_pos (by exact_mod_cast hr), hcast, ← Nat.cast_succ]
        obtain ⟨k, r', heq, hk, hsum, hlt⟩ := ih (i + 1) (r - days) (by omega)
        refine ⟨k + 1, r', ?_, Nat.succ_lt_succ hk, ?_, ?_⟩
        · rw [heq, Nat.add_right_comm, Nat.add_assoc]
        · rw [List.take_succ_cons, List.sum_cons]
          omega
        · rw [List.take_succ_cons, List.sum_cons]
          omega
      · rw [if_neg (by exact_mod_cast hr)]
        refine ⟨0, r, rfl, Nat.succ_pos _, Nat.zero_add r, ?_⟩
        rw [List.take_succ_cons, List.sum_cons]
        omega

/-- The table of `GregorianDay` leaves the leap day out. -/
theorem index_monthOffset (y : ℕ) {m : ℕ} (hpos : 1 ≤ m) (hle : m ≤ 12) :
    index monthOffset ((m : ℤ) - 1) =
      some ((daysToMonth y m : ℤ) - if IsLeap y ∧ 2 < m then 1 else 0) := by
  by_cases h : IsLeap y
  · interval_cases m <;> simp [index, monthOffset, daysToMonth, monthLengths, h]
  · interval_cases m <;> simp [index, monthOffset, daysToMonth, monthLengths, h]

theorem gregorianDay_spec (d : DateTime) (hyear : 1 ≤ d.date.year) (w : ℤ) :
    gregorianDay (toRtcTime d w) = some (toRtcTime d d.date.weekday) := by
  obtain ⟨y, hy⟩ : ∃ y, d.date.year = y := ⟨_, rfl⟩
  obtain ⟨m, hm⟩ : ∃ m, d.date.month = m := ⟨_, rfl⟩
  have hoffset := index_monthOffset y (hm ▸ d.date.month_pos) (hm ▸ d.date.month_le)
  have hclosed := daysTo_closed y
  have hday := d.date.day_pos
  have hleap : ((y : ℤ).tmod 4 = 0 ∧ ((y : ℤ).tmod 100 ≠ 0 ∨ (y : ℤ).tmod 400 = 0) ∧ (m : ℤ) > 2) ↔
      IsLeap y ∧ 2 < m := by
    simp only [Int.tmod_eq_emod_of_nonneg (Int.natCast_nonneg y), IsLeap]
    omega
  have hyear' : 0 ≤ (y : ℤ) - 1 := by omega
  have hweek : ((if IsLeap y ∧ 2 < m then 1 else 0) + (((y : ℤ) - 1) * 365 +
      (((y : ℤ) - 1).tdiv 4 - ((y : ℤ) - 1).tdiv 100 + ((y : ℤ) - 1).tdiv 400) +
        ((daysToMonth y m : ℤ) - if IsLeap y ∧ 2 < m then 1 else 0) + d.date.day)) =
          d.date.dayNumber - 365 := by
    simp only [Int.tdiv_eq_ediv_of_nonneg hyear', Date.dayNumber, hy, hm]
    omega
  have hnonneg : 0 ≤ (d.date.dayNumber : ℤ) - 365 := by
    rw [Date.dayNumber, hy]
    omega
  have hwday : ((d.date.dayNumber : ℤ) - 365).tmod 7 = d.date.weekday := by
    rw [Int.tmod_eq_emod_of_nonneg hnonneg, Date.weekday, epochDay]
    omega
  simp only [gregorianDay, toRtcTime, hy, hm, hoffset, hleap, Option.map_some, hweek, hwday]

/-! ## The whole of to_tm -/

theorem daysTo_1970 : daysTo 1970 = epochDay := by
  have h := daysTo_closed 1970
  unfold epochDay
  omega

theorem daysTo_2100 : daysTo 2100 = epochDay + 47482 := by
  have h := daysTo_closed 2100
  unfold epochDay
  omega

theorem patched_table {y : ℕ} (hlow : 1970 ≤ y) (hhigh : y < 2100) :
    (if leapyear y then monthDays.set (february - 1) 29 else monthDays) =
      (monthLengths y).map Nat.cast := by
  by_cases h : IsLeap y
  · rw [if_pos ((leapyear_iff hlow hhigh).mpr h)]
    simp [monthDays, february, monthLengths, h]
  · rw [if_neg (mt (leapyear_iff hlow hhigh).mp h)]
    simp [monthDays, monthLengths, h]

theorem restored_table (y : ℕ) :
    ((monthLengths y).map Nat.cast : List ℤ).set (february - 1) 28 = monthDays := by
  simp [monthDays, february, monthLengths]

theorem loops_spec (day : ℕ) (hday : day < 47482) :
    ∃ (d : Date) (r : ℤ), d.dayNumber = epochDay + day ∧ 1970 ≤ d.year ∧ d.year < 2100 ∧
      yearLoop startoftime day = ((d.year : ℤ), r) ∧
      monthLoop ((monthLengths d.year).map Nat.cast) 1 r =
        some ((d.month : ℤ), (d.day : ℤ) - 1) := by
  obtain ⟨y, r, hyear, hlow, hhigh, hr, hdays⟩ := yearLoop_spec day 1970 (le_refl _) (by
    rw [daysTo_1970, daysTo_2100]
    omega)
  have hsum : r < (monthLengths y).sum := by
    rw [← daysToMonth_thirteen] at hr
    exact hr
  obtain ⟨k, r', hmonth, hk, hk', hr'⟩ := monthLoop_spec (monthLengths y) 1 r hsum
  rw [daysTo_1970] at hdays
  let d : Date :=
    { year := y, month := k + 1, day := r' + 1
      month_pos := Nat.le_add_left 1 k, month_le := hk, day_pos := Nat.le_add_left 1 r'
      day_le := by
        change ((monthLengths y).take k).sum + (r' + 1) ≤ ((monthLengths y).take (k + 1)).sum
        omega }
  refine ⟨d, r, ?_, hlow, hhigh, hyear, ?_⟩
  · change daysTo y + ((monthLengths y).take k).sum + r' = _
    omega
  · have hpair : (((1 + k : ℕ) : ℤ), (r' : ℤ)) = ((d.month : ℤ), (d.day : ℤ) - 1) := by
      simp only [d]
      push_cast
      rw [add_comm, add_sub_cancel_right]
    rw [← hpair]
    exact hmonth

theorem toTm_spec {tim : ℤ} (hnonneg : 0 ≤ tim) (htim : tim < 47482 * 86400) :
    ∃ d : DateTime, d.epochSecond = tim ∧
      toTm monthDays tim = some (toRtcTime d d.date.weekday, monthDays) := by
  obtain ⟨n, rfl⟩ := Int.eq_ofNat_of_zero_le hnonneg
  obtain ⟨date, r, hnumber, hlow, hhigh, hyear, hmonth⟩ :=
    loops_spec (n / 86400) (by omega)
  have hhms : (n : ℤ).tmod secday = (n % 86400 : ℕ) := (Int.ofNat_tmod n 86400).symm
  have hday : (n : ℤ).tdiv secday = (n / 86400 : ℕ) := (Int.ofNat_tdiv n 86400).symm
  let d : DateTime :=
    { date := date, hour := n % 86400 / 3600, minute := n % 86400 % 3600 / 60
      second := n % 86400 % 3600 % 60, hour_lt := by omega, minute_lt := by omega
      second_lt := by omega }
  have hfields : toRtcTime d 0 =
      ⟨(((n % 86400 : ℕ) : ℤ).tmod 3600).tmod 60, (((n % 86400 : ℕ) : ℤ).tmod 3600).tdiv 60,
        ((n % 86400 : ℕ) : ℤ).tdiv 3600, date.day - 1 + 1, date.month, date.year, 0⟩ := by
    rw [sub_add_cancel]
    rfl
  refine ⟨d, ?_, ?_⟩
  · have htime : d.hour * 3600 + d.minute * 60 + d.second = n % 86400 := by
      simp only [d]
      omega
    unfold DateTime.epochSecond
    rw [hnumber]
    push_cast
    omega
  · have hday' := gregorianDay_spec d ((by decide : 1 ≤ 1970).trans hlow) 0
    rw [hfields] at hday'
    simp only [toTm, hhms, hday, hyear, patched_table hlow hhigh, hmonth, Option.bind_some,
      hday', Option.map_some, restored_table]

/-- What `to_tm` makes of a time before the epoch. The day may lie before
the first of January 1970, and the time of day before midnight. -/
def beforeEpoch (tim wday : ℤ) : RtcTime where
  sec := ((tim.tmod secday).tmod 3600).tmod 60
  min := ((tim.tmod secday).tmod 3600).tdiv 60
  hour := (tim.tmod secday).tdiv 3600
  mday := tim.tdiv secday + 1
  mon := 1
  year := 1970
  wday := wday

theorem toTm_negative {tim : ℤ} (h : tim < 0) :
    ∃ w, toTm monthDays tim = some (beforeEpoch tim w, monthDays) := by
  have hday : tim.tdiv secday ≤ 0 := by
    rw [← Int.neg_nonneg, ← Int.neg_tdiv]
    exact Int.tdiv_nonneg (by omega) (by decide)
  have hyear : yearLoop startoftime (tim.tdiv secday) = (1970, tim.tdiv secday) := by
    rw [yearLoop, if_neg]
    · rfl
    · change ¬ tim.tdiv secday ≥ 365
      omega
  have hmonth : monthLoop monthDays 1 (tim.tdiv secday) = some (1, tim.tdiv secday) := by
    rw [monthDays, monthLoop, if_neg]
    omega
  have hleap : ¬ leapyear 1970 := by decide
  simp only [toTm, hyear, if_neg hleap, hmonth, Option.bind_some]
  exact ⟨_, rfl⟩

end Goldfish.Rtc
