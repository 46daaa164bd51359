import Mathlib.Algebra.Order.BigOperators.Group.List
import Mathlib.Algebra.Order.Group.Nat
import Mathlib.Tactic.Ring

/-!
# The Gregorian calendar

Days are counted from 1 January of the year 0. The day number of a date is
the sum of the lengths of the years before it, of the months before it in
its year, and of the days before it in its month; it determines the date,
and with the time of day so does the number of seconds since 1970.
-/

namespace Calendar

def IsLeap (y : ℕ) : Prop := y % 4 = 0 ∧ (y % 100 ≠ 0 ∨ y % 400 = 0)

instance (y : ℕ) : Decidable (IsLeap y) := inferInstanceAs (Decidable (_ ∧ _))

def yearLength (y : ℕ) : ℕ := if IsLeap y then 366 else 365

def monthLengths (y : ℕ) : List ℕ :=
  [31, if IsLeap y then 29 else 28, 31, 30, 31, 30, 31, 31, 30, 31, 30, 31]

def monthLength (y m : ℕ) : ℕ := (monthLengths y).getD (m - 1) 0

def daysTo : ℕ → ℕ
  | 0 => 0
  | y + 1 => daysTo y + yearLength y

def daysToMonth (y m : ℕ) : ℕ := ((monthLengths y).take (m - 1)).sum

structure Date where
  year : ℕ
  month : ℕ
  day : ℕ
  month_pos : 1 ≤ month
  month_le : month ≤ 12
  day_pos : 1 ≤ day
  day_le : daysToMonth year month + day ≤ daysToMonth year (month + 1)

def Date.dayNumber (d : Date) : ℕ := daysTo d.year + daysToMonth d.year d.month + (d.day - 1)

def epochDay : ℕ := 719528

/-- Days from Sunday. The first day of the epoch was a Thursday. -/
def Date.weekday (d : Date) : ℤ := ((d.dayNumber : ℤ) - epochDay + 4) % 7

structure DateTime where
  date : Date
  hour : ℕ
  minute : ℕ
  second : ℕ
  hour_lt : hour < 24
  minute_lt : minute < 60
  second_lt : second < 60

def DateTime.epochSecond (d : DateTime) : ℤ :=
  (((d.date.dayNumber : ℤ) - epochDay) * 24 + d.hour) * 3600 + d.minute * 60 + d.second

/-! ## Years -/

theorem yearLength_pos (y : ℕ) : 0 < yearLength y := by
  unfold yearLength
  split <;> decide

theorem ceil_succ (k y : ℕ) : (y + 1 + k) / (k + 1) =
    (y + k) / (k + 1) + if y % (k + 1) = 0 then 1 else 0 := by
  have hdvd : k + 1 ∣ y + k + 1 ↔ y % (k + 1) = 0 := by
    rw [Nat.add_assoc, Nat.dvd_add_self_right, Nat.dvd_iff_mod_eq_zero]
  rw [Nat.add_right_comm, Nat.succ_div]
  simp only [hdvd]

theorem yearLength_count (y : ℕ) : yearLength y + (if y % 100 = 0 then 1 else 0) =
    365 + (if y % 4 = 0 then 1 else 0) + if y % 400 = 0 then 1 else 0 := by
  have hcentury : y % 100 = 0 → y % 4 = 0 := fun h => by omega
  have hcycle : y % 400 = 0 → y % 100 = 0 := fun h => by omega
  unfold yearLength IsLeap
  by_cases h4 : y % 4 = 0
  · by_cases h100 : y % 100 = 0
    · by_cases h400 : y % 400 = 0 <;> simp [h4, h100, h400]
    · simp [h4, h100, mt hcycle h100]
  · simp [h4, mt hcentury h4, mt hcycle (mt hcentury h4)]

theorem daysTo_closed (y : ℕ) :
    daysTo y + (y + 99) / 100 = 365 * y + (y + 3) / 4 + (y + 399) / 400 := by
  induction y with
  | zero => rfl
  | succ y ih =>
      have hfour : (y + 1 + 3) / 4 = _ := ceil_succ 3 y
      have hcentury : (y + 1 + 99) / 100 = _ := ceil_succ 99 y
      have hcycle : (y + 1 + 399) / 400 = _ := ceil_succ 399 y
      have hlength := yearLength_count y
      rw [daysTo, hfour, hcentury, hcycle]
      calc
        _ = daysTo y + (y + 99) / 100 + (yearLength y + if y % 100 = 0 then 1 else 0) := by ring
        _ = _ := by
          rw [ih, hlength]
          ring

theorem daysTo_mono {x y : ℕ} (h : x ≤ y) : daysTo x ≤ daysTo y := by
  induction h with
  | refl => exact le_refl _
  | step _ ih => exact ih.trans (Nat.le_add_right _ _)

/-! ## Months -/

theorem daysToMonth_thirteen (y : ℕ) : daysToMonth y 13 = yearLength y := by
  simp only [daysToMonth, monthLengths, yearLength]
  split <;> rfl

theorem daysToMonth_mono (y : ℕ) {m n : ℕ} (h : m ≤ n) : daysToMonth y m ≤ daysToMonth y n :=
  (List.take_sublist_take_left (Nat.sub_le_sub_right h 1)).sum_le_sum (fun _ _ => Nat.zero_le _)

theorem daysToMonth_succ (y : ℕ) {m : ℕ} (hm : 1 ≤ m) :
    daysToMonth y (m + 1) = daysToMonth y m + monthLength y m := by
  obtain ⟨k, rfl⟩ := Nat.exists_eq_add_of_le' hm
  have htake : (monthLengths y).take (k + 1) =
      (monthLengths y).take k ++ (monthLengths y)[k]?.toList := List.take_add_one
  simp only [daysToMonth, monthLength, Nat.add_sub_cancel]
  rw [htake, List.sum_append, List.getD_eq_getElem?_getD]
  cases (monthLengths y)[k]? <;> rfl

/-! ## The day number determines the date -/

theorem Date.day_le_monthLength (d : Date) : d.day ≤ monthLength d.year d.month := by
  have hday := d.day_le
  rw [daysToMonth_succ d.year d.month_pos] at hday
  exact Nat.le_of_add_le_add_left hday

theorem Date.dayOfYear_lt (d : Date) :
    daysToMonth d.year d.month + (d.day - 1) < yearLength d.year := by
  have hday := d.day_le
  have hpos := d.day_pos
  have hmono := daysToMonth_mono d.year (Nat.add_le_add_right d.month_le 1)
  rw [daysToMonth_thirteen] at hmono
  omega

theorem Date.year_of_dayNumber {d e : Date} (h : d.dayNumber = e.dayNumber) : d.year = e.year := by
  have hd := d.dayOfYear_lt
  have he := e.dayOfYear_lt
  unfold Date.dayNumber at h
  rcases lt_trichotomy d.year e.year with hlt | heq | hgt
  · have hmono := daysTo_mono (Nat.succ_le_of_lt hlt)
    rw [Nat.succ_eq_add_one, daysTo] at hmono
    omega
  · exact heq
  · have hmono := daysTo_mono (Nat.succ_le_of_lt hgt)
    rw [Nat.succ_eq_add_one, daysTo] at hmono
    omega

theorem Date.month_of_dayNumber {d e : Date} (hyear : d.year = e.year)
    (h : d.dayNumber = e.dayNumber) : d.month = e.month := by
  have hd := d.day_le
  have he := e.day_le
  have hdpos := d.day_pos
  have hepos := e.day_pos
  unfold Date.dayNumber at h
  rw [hyear] at h hd
  rcases lt_trichotomy d.month e.month with hlt | heq | hgt
  · have hmono := daysToMonth_mono e.year (Nat.succ_le_of_lt hlt)
    rw [Nat.succ_eq_add_one] at hmono
    omega
  · exact heq
  · have hmono := daysToMonth_mono e.year (Nat.succ_le_of_lt hgt)
    rw [Nat.succ_eq_add_one] at hmono
    omega

theorem Date.dayNumber_injective : Function.Injective Date.dayNumber := by
  intro d e h
  have hyear := Date.year_of_dayNumber h
  have hmonth := Date.month_of_dayNumber hyear h
  have hday : d.day = e.day := by
    have hdpos := d.day_pos
    have hepos := e.day_pos
    unfold Date.dayNumber at h
    rw [hyear, hmonth] at h
    omega
  cases d
  cases e
  cases hyear
  cases hmonth
  cases hday
  rfl

theorem DateTime.epochSecond_injective : Function.Injective DateTime.epochSecond := by
  intro d e h
  have hd := d.hour_lt
  have hd' := d.minute_lt
  have hd'' := d.second_lt
  have he := e.hour_lt
  have he' := e.minute_lt
  have he'' := e.second_lt
  unfold DateTime.epochSecond at h
  have hnumber : d.date.dayNumber = e.date.dayNumber := by omega
  have hhour : d.hour = e.hour := by omega
  have hminute : d.minute = e.minute := by omega
  have hsecond : d.second = e.second := by omega
  have hdate := Date.dayNumber_injective hnumber
  cases d
  cases e
  cases hdate
  cases hhour
  cases hminute
  cases hsecond
  rfl

end Calendar
