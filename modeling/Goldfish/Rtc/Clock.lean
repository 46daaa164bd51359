import Goldfish.Lib.Runs
import Goldfish.Rtc.Convert
import Mathlib.Tactic.Abel

/-!
# The real-time clock

`rtc-goldfish.c` keeps the difference between the time that was set and the
seconds counter, modulo `2 ^ 32`. Each call takes the value `get_second()`
has when it is made.
-/

namespace Goldfish.Rtc

open Calendar

structure Clock where
  rtcOffset : U32
  monthDays : List ℤ
  deriving DecidableEq

def Clock.reset : Clock := ⟨0, Rtc.monthDays⟩

def rtcGet (second : U32) (c : Clock) : Option (RtcTime × Clock) :=
  let rv := second + c.rtcOffset
  (toTm c.monthDays rv.toInt).map fun (tm, monthDays) => (tm, { c with monthDays })

def rtcSet (tm : RtcTime) (second : U32) (c : Clock) : Clock :=
  let rv := mktime (.ofInt 32 tm.year) (.ofInt 32 tm.mon) (.ofInt 32 tm.mday)
    (.ofInt 32 tm.hour) (.ofInt 32 tm.min) (.ofInt 32 tm.sec)
  { c with rtcOffset := rv - second }

def rtcReset (c : Clock) : Clock := { c with rtcOffset := 0 }

inductive Op where
  | get (second : U32)
  | set (tm : RtcTime) (second : U32)
  | reset

def step (c : Clock) : Op → Option Clock
  | .get second => (rtcGet second c).map Prod.snd
  | .set tm second => some (rtcSet tm second c)
  | .reset => some (rtcReset c)

/-- `rtc_get` answers with the fields of the one date at the second `t` of
the epoch, and leaves everything else alone. -/
def Tells (t : ℤ) (second : U32) (c : Clock) : Prop :=
  ∃ e : DateTime, (∀ e' : DateTime, e'.epochSecond = t ↔ e' = e) ∧
    rtcGet second c = some (toRtcTime e e.date.weekday, c)

/-! ## Single calls -/

theorem rtcGet_eq {second : U32} {c : Clock} {tm : RtcTime} (hc : c.monthDays = monthDays)
    (h : toTm monthDays (second + c.rtcOffset).toInt = some (tm, monthDays)) :
    rtcGet second c = some (tm, c) := by
  rw [rtcGet, hc, h, Option.map_some, ← hc]

theorem rtcGet_total (second : U32) {c : Clock} (hc : c.monthDays = monthDays) :
    ∃ tm, rtcGet second c = some (tm, c) := by
  obtain ⟨tm, htm⟩ : ∃ tm, toTm monthDays (second + c.rtcOffset).toInt = some (tm, monthDays) := by
    by_cases hneg : (second + c.rtcOffset).toInt < 0
    · obtain ⟨w, hw⟩ := toTm_negative hneg
      exact ⟨_, hw⟩
    · have hlt := BitVec.two_mul_toInt_lt (x := second + c.rtcOffset)
      obtain ⟨d, -, hd⟩ := toTm_spec (not_lt.mp hneg) (by omega)
      exact ⟨_, hd⟩
  exact ⟨tm, rtcGet_eq hc htm⟩

theorem rtcGet_tells {second : U32} {c : Clock} {t : ℤ} (hc : c.monthDays = monthDays)
    (hnonneg : 0 ≤ t) (ht : t < 2 ^ 31) (hsum : second + c.rtcOffset = BitVec.ofInt 32 t) :
    Tells t second c := by
  have hint : (second + c.rtcOffset).toInt = t := by
    rw [hsum]
    exact BitVec.toInt_ofInt_eq_self (by decide) (by omega) (by omega)
  obtain ⟨d, hd, htm⟩ := toTm_spec hnonneg (by omega)
  refine ⟨d, ?_, ?_⟩
  · intro e
    rw [← hd]
    exact DateTime.epochSecond_injective.eq_iff
  · rw [← hint] at htm
    exact rtcGet_eq hc htm

theorem epochSecond_year {d : DateTime} (hnonneg : 0 ≤ d.epochSecond)
    (hlt : d.epochSecond < 2 ^ 31) : 1 ≤ d.date.year ∧ d.date.year < 2 ^ 32 := by
  have hclosed := daysTo_closed d.date.year
  have hday := d.date.dayOfYear_lt
  have hlength : yearLength d.date.year ≤ 366 := by
    unfold yearLength
    split <;> decide
  have hh := d.hour_lt
  have hm := d.minute_lt
  have hs := d.second_lt
  unfold DateTime.epochSecond Date.dayNumber epochDay at hnonneg hlt
  omega

theorem rtcSet_offset (d : DateTime) (w : ℤ) (second : U32) (c : Clock)
    (hnonneg : 0 ≤ d.epochSecond) (hlt : d.epochSecond < 2 ^ 31) :
    rtcSet (toRtcTime d w) second c =
      { c with rtcOffset := BitVec.ofInt 32 d.epochSecond - second } := by
  obtain ⟨hyear, hyear'⟩ := epochSecond_year hnonneg hlt
  simp only [rtcSet, toRtcTime, BitVec.ofInt_natCast, mktime_epochSecond d hyear hyear']

/-! ## Runs -/

theorem step_monthDays {c c' : Clock} {op : Op} (hc : c.monthDays = monthDays)
    (h : step c op = some c') : c'.monthDays = monthDays := by
  cases op with
  | get second =>
      obtain ⟨tm, htm⟩ := rtcGet_total second hc
      rw [step, htm] at h
      exact Option.some.inj h ▸ hc
  | set tm second => exact Option.some.inj h ▸ hc
  | reset => exact Option.some.inj h ▸ hc

theorem run_total (ops : List Op) {c : Clock} (hc : c.monthDays = monthDays) :
    ∃ c', Runs.run step c ops = some c' ∧ c'.monthDays = monthDays := by
  induction ops generalizing c with
  | nil => exact ⟨c, rfl, hc⟩
  | cons op ops ih =>
      obtain ⟨c', hc'⟩ : ∃ c', step c op = some c' := by
        cases op with
        | get second =>
            obtain ⟨tm, htm⟩ := rtcGet_total second hc
            exact ⟨c, by rw [step, htm, Option.map_some]⟩
        | set tm second => exact ⟨_, rfl⟩
        | reset => exact ⟨_, rfl⟩
      obtain ⟨u, hu, hmonth⟩ := ih (step_monthDays hc hc')
      exact ⟨u, Runs.run_cons_iff.mpr ⟨c', hc', hu⟩, hmonth⟩

theorem run_gets (gets : List U32) {c : Clock} (hc : c.monthDays = monthDays) :
    Runs.run step c (gets.map Op.get) = some c := by
  induction gets with
  | nil => rfl
  | cons second gets ih =>
      obtain ⟨tm, htm⟩ := rtcGet_total second hc
      have hstep : step c (.get second) = some c := by rw [step, htm, Option.map_some]
      exact Runs.run_cons_iff.mpr ⟨c, hstep, ih⟩

theorem run_then_gets (earlier : List Op) (op : Op) (gets : List U32) :
    ∃ c, c.monthDays = monthDays ∧ ∀ c', step c op = some c' →
      Runs.run step Clock.reset (earlier ++ op :: gets.map Op.get) = some c' := by
  obtain ⟨c, hrun, hc⟩ := run_total earlier (c := Clock.reset) rfl
  refine ⟨c, hc, fun c' hstep => ?_⟩
  rw [Runs.run_append_iff]
  exact ⟨c, hrun, Runs.run_cons_iff.mpr ⟨c', hstep, run_gets gets (step_monthDays hc hstep)⟩⟩

theorem rtc_tells (earlier : List Op) (gets : List U32) :
    (∀ (d : DateTime) (w : ℤ) (s s' : U32), 0 ≤ d.epochSecond →
      d.epochSecond + (s' - s).toNat < 2 ^ 31 →
        ∃ c, Runs.run step Clock.reset (earlier ++ .set (toRtcTime d w) s :: gets.map Op.get) =
          some c ∧ Tells (d.epochSecond + (s' - s).toNat) s' c) ∧
    (∀ s' : U32, s'.toNat < 2 ^ 31 →
      ∃ c, Runs.run step Clock.reset (earlier ++ .reset :: gets.map Op.get) = some c ∧
        Tells s'.toNat s' c) ∧
    (∀ c, Runs.run step Clock.reset earlier = some c →
      ∀ second, ∃ tm, rtcGet second c = some (tm, c)) := by
  refine ⟨?_, ?_, ?_⟩
  · intro d w s s' hnonneg hlt
    obtain ⟨c, hc, hrun⟩ := run_then_gets earlier (.set (toRtcTime d w) s) gets
    refine ⟨_, hrun _ rfl, rtcGet_tells hc (by omega) hlt ?_⟩
    rw [rtcSet_offset d w s c hnonneg (by omega), BitVec.ofInt_add, BitVec.ofInt_natCast,
      BitVec.ofNat_toNat, BitVec.setWidth_eq]
    dsimp only
    abel
  · intro s' hs'
    obtain ⟨c, hc, hrun⟩ := run_then_gets earlier .reset gets
    refine ⟨_, hrun _ rfl, rtcGet_tells hc (Int.natCast_nonneg _) (by omega) ?_⟩
    rw [BitVec.ofInt_natCast, BitVec.ofNat_toNat, BitVec.setWidth_eq]
    exact BitVec.add_zero s'
  · intro c hrun second
    obtain ⟨c', hrun', hc'⟩ := run_total earlier (c := Clock.reset) rfl
    obtain rfl := Option.some.inj (hrun.symm.trans hrun')
    exact rtcGet_total second hc'

/-- The date the `s` command of c07e3 sets: 2014-04-11 12:30:55. -/
def commandDate : DateTime :=
  ⟨⟨2014, 4, 11, by decide, by decide, by decide, by decide⟩, 12, 30, 55, by decide, by decide,
    by decide⟩

theorem commandDate_epochSecond : commandDate.epochSecond = 1397219455 := by
  have hclosed := daysTo_closed 2014
  have hmonths : daysToMonth 2014 4 = 90 := by decide
  simp only [DateTime.epochSecond, Date.dayNumber, commandDate, hmonths, epochDay]
  omega

theorem rtc_tells_commandDate :
    ∃ c, Runs.run step Clock.reset ([.reset] ++ .set (toRtcTime commandDate 0) 5#32 ::
        [6#32, 7#32].map Op.get) = some c ∧
      Tells (commandDate.epochSecond + (9#32 - 5#32).toNat) 9#32 c :=
  (rtc_tells [.reset] [6#32, 7#32]).1 commandDate 0 5#32 9#32
    (by rw [commandDate_epochSecond]; decide) (by rw [commandDate_epochSecond]; decide)

end Goldfish.Rtc
