import Goldfish.Lib.Calendar
import Goldfish.Word

/-!
# Conversions of dates

`date.c`. Signed variables are integers, as none of them leaves the range of
`int` for any argument; division and remainder round toward zero as in C.
`mktime` works on unsigned words. The table of month lengths is a variable
of the program: it is passed in and handed back.
-/

namespace Goldfish.Rtc

def february : ℕ := 2

def startoftime : ℤ := 1970

def secday : ℤ := 86400

def leapyear (year : ℤ) : Prop := year.tmod 4 = 0

instance (year : ℤ) : Decidable (leapyear year) := inferInstanceAs (Decidable (_ = _))

def daysInYear (a : ℤ) : ℤ := if leapyear a then 366 else 365

def monthDays : List ℤ := [31, 28, 31, 30, 31, 30, 31, 31, 30, 31, 30, 31]

/-- `struct rtc_time`. The source never uses `tm_yday` and `tm_isdst`. -/
structure RtcTime where
  sec : ℤ
  min : ℤ
  hour : ℤ
  mday : ℤ
  mon : ℤ
  year : ℤ
  wday : ℤ
  deriving DecidableEq

/-- An array access, undefined outside the array. -/
def index (xs : List ℤ) (i : ℤ) : Option ℤ := if i < 0 then none else xs[i.toNat]?

def monthOffset : List ℤ := [0, 31, 59, 90, 120, 151, 181, 212, 243, 273, 304, 334]

def gregorianDay (tm : RtcTime) : Option RtcTime :=
  let lastYear := tm.year - 1
  let leapsToDate := lastYear.tdiv 4 - lastYear.tdiv 100 + lastYear.tdiv 400
  let day : ℤ :=
    if tm.year.tmod 4 = 0 ∧ (tm.year.tmod 100 ≠ 0 ∨ tm.year.tmod 400 = 0) ∧ tm.mon > 2 then 1
    else 0
  (index monthOffset (tm.mon - 1)).map fun offset =>
    let day := day + (lastYear * 365 + leapsToDate + offset + tm.mday)
    { tm with wday := day.tmod 7 }

/-- `for (i = STARTOFTIME; day >= days_in_year(i); i++) day -= days_in_year(i);` -/
def yearLoop (i day : ℤ) : ℤ × ℤ :=
  if day ≥ daysInYear i then yearLoop (i + 1) (day - daysInYear i) else (i, day)
termination_by day.toNat
decreasing_by
  rename_i h
  unfold daysInYear at h ⊢
  split at h <;> omega

/-- `for (i = 1; day >= days_in_month(i); i++) day -= days_in_month(i);` over
the rest of the table. Past its end the access is undefined. -/
def monthLoop : List ℤ → ℤ → ℤ → Option (ℤ × ℤ)
  | [], _, _ => none
  | days :: table, i, day =>
      if day ≥ days then monthLoop table (i + 1) (day - days) else some (i, day)

def toTm (monthDays : List ℤ) (tim : ℤ) : Option (RtcTime × List ℤ) :=
  let day := tim.tdiv secday
  let hms := tim.tmod secday
  let hour := hms.tdiv 3600
  let min := (hms.tmod 3600).tdiv 60
  let sec := (hms.tmod 3600).tmod 60
  let (year, day) := yearLoop startoftime day
  let monthDays := if leapyear year then monthDays.set (february - 1) 29 else monthDays
  (monthLoop monthDays 1 day).bind fun (mon, day) =>
    let monthDays := monthDays.set (february - 1) 28
    (gregorianDay ⟨sec, min, hour, day + 1, mon, year, 0⟩).map fun tm => (tm, monthDays)

def mktime (year mon day hour min sec : U32) : U32 :=
  let mon := mon - 2
  -- 1..12 become 11, 12, 1..10
  let (mon, year) := if 0 ≥ mon.toInt then (mon + 12, year - 1) else (mon, year)
  (((year / 4 - year / 100 + year / 400 + 367 * mon / 12 + day + year * 365 - 719499) * 24 +
    hour) * 60 + min) * 60 + sec

end Goldfish.Rtc
