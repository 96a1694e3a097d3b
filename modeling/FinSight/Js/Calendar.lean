import FinSight.Js.Date
import Mathlib.Tactic.IntervalCases

/-!
# The Gregorian calendar

* `IsDate`, `dayNumber` : the dates of the proleptic Gregorian calendar and their day numbers; `civil_dayNumber`,
  `dayNumber_civil` : `civil` is the inverse;
* `utcDay` : the day that `Date.UTC` makes of a year, a month and a day of the month, which may be none of a calendar;
  `utcDay_eq_iff` : it keeps month and day exactly where they are a date.
-/

namespace FinSight.Date

def isLeap (year : Int) : Bool := year % 4 = 0 ∧ (year % 100 ≠ 0 ∨ year % 400 = 0)

def daysInMonth (year : Int) (month : Nat) : Nat :=
  if month = 2 then (if isLeap year then 29 else 28)
  else if month = 4 ∨ month = 6 ∨ month = 9 ∨ month = 11 then 30
  else 31

def IsDate (c : Civil) : Prop := 1 ≤ c.month ∧ c.month ≤ 12 ∧ 1 ≤ c.day ∧ c.day ≤ daysInMonth c.year c.month

instance (c : Civil) : Decidable (IsDate c) := inferInstanceAs (Decidable (_ ∧ _))

/-- The day number of the first of a month (day 0 is 1970-01-01). -/
def monthStart (year : Int) (month : Nat) : Int :=
  let y := if month ≤ 2 then year - 1 else year
  let mp := if month ≤ 2 then month + 9 else month - 3
  y / 400 * 146097 + daysBefore (y % 400).toNat + ((153 * mp + 2) / 5 : Nat) - 719468

def dayNumber (c : Civil) : Int := monthStart c.year c.month + c.day - 1

/-! ## Day numbers and dates -/

/-- The days of a year that starts in March. -/
theorem yearOfEra_tight {doe : Nat} (h : doe < 146096) : doe < daysBefore (yearOfEra doe + 1) := by
  have hcentury := century_bounds (Nat.lt_succ_of_lt h)
  unfold yearOfEra daysBefore at *
  have hlast : doe / 146096 = 0 := by omega
  rw [hlast] at hcentury ⊢
  generalize hy : (doe - doe / 1460 + doe / 36524 - 0) / 365 = y at *
  have hleap : doe / 1460 ≤ (y + 1) / 4 := by omega
  by_cases hnext : (y + 1) % 100 = 0
  · obtain he | he | he | he : doe / 36524 = 0 ∨ doe / 36524 = 1 ∨ doe / 36524 = 2 ∨ doe / 36524 = 3 := by omega
    all_goals
      have hyear : y / 100 = doe / 36524 := by omega
      omega
  · have hsame : (y + 1) / 100 = y / 100 := by omega
    omega

theorem daysBefore_mono {y z : Nat} (h : y ≤ z) : daysBefore y ≤ daysBefore z := by
  have hcentury : z / 100 ≤ y / 100 + (z - y) := by omega
  have hleap : y / 4 ≤ z / 4 := by omega
  unfold daysBefore
  omega

/-- A year of the era is found by the days before it. -/
theorem yearOfEra_eq {y doy : Nat} (hy : y < 400) (hdoy : daysBefore y + doy < daysBefore (y + 1) ∨ y = 399 ∧ doy ≤ 365) :
    yearOfEra (daysBefore y + doy) = y := by
  have hera : daysBefore 400 = 146096 := rfl
  have hstart : daysBefore 399 = 145731 := rfl
  have hend : daysBefore (y + 1) ≤ 146096 := hera ▸ daysBefore_mono hy
  rcases hdoy with hdoy | ⟨rfl, hdoy⟩
  · obtain ⟨-, hfirst, -⟩ := @yearOfEra_bounds (daysBefore y + doy) (by omega)
    have hlast := @yearOfEra_tight (daysBefore y + doy) (by omega)
    by_contra hne
    rcases Nat.lt_or_gt_of_ne hne with hlt | hgt
    · have hmono : daysBefore (yearOfEra (daysBefore y + doy) + 1) ≤ daysBefore y := daysBefore_mono hlt
      omega
    · have hmono : daysBefore (y + 1) ≤ daysBefore (yearOfEra (daysBefore y + doy)) := daysBefore_mono hgt
      omega
  · obtain hlt | rfl : doy < 365 ∨ doy = 365 := by omega
    · obtain ⟨hle, hfirst, -⟩ := @yearOfEra_bounds (daysBefore 399 + doy) (by omega)
      have hlast := @yearOfEra_tight (daysBefore 399 + doy) (by omega)
      by_contra hne
      have hmono := daysBefore_mono (show yearOfEra (daysBefore 399 + doy) + 1 ≤ 399 by omega)
      omega
    · decide

/-- The days of a year, in months from March. -/
theorem dayOfYear_bounds {year : Int} {month day : Nat} (h : IsDate ⟨year, month, day⟩) :
    let mp := if month ≤ 2 then month + 9 else month - 3
    let doy := (153 * mp + 2) / 5 + day - 1
    (5 * doy + 2) / 153 = mp ∧ (doy < 365 ∨ doy = 365 ∧ month = 2 ∧ isLeap year = true) := by
  obtain ⟨hlow, hhigh, hday, hlast⟩ := h
  dsimp only at *
  by_cases hfeb : month = 2
  · subst hfeb
    rw [daysInMonth, if_pos rfl] at hlast
    rw [if_pos (Nat.le_refl 2)]
    by_cases hleap : isLeap year = true
    · rw [if_pos hleap] at hlast
      obtain hbefore | hleapday : day < 29 ∨ day = 29 := by omega
      · omega
      · exact ⟨by omega, Or.inr ⟨by omega, rfl, hleap⟩⟩
    · rw [if_neg hleap] at hlast
      omega
  · rw [daysInMonth, if_neg hfeb] at hlast
    obtain rfl | hmarch : month = 1 ∨ 3 ≤ month := by omega
    · rw [if_neg (by decide)] at hlast
      rw [if_pos (by decide)]
      omega
    · rw [if_neg (by omega)]
      split at hlast <;> interval_cases month <;> omega

theorem daysBefore_next (yoe : Nat) : daysBefore yoe + 365 ≤ daysBefore (yoe + 1) := by
  unfold daysBefore
  omega

theorem daysBefore_leap {yoe : Nat} (h : yoe < 399) (hleap : isLeap (yoe + 1) = true) :
    daysBefore (yoe + 1) = daysBefore yoe + 366 := by
  simp only [isLeap, decide_eq_true_iff] at hleap
  unfold daysBefore
  omega

/-- A date is read off its day number. -/
theorem civil_dayNumber {c : Civil} (h : IsDate c) : civil (dayNumber c) = c := by
  obtain ⟨year, month, day⟩ := c
  obtain ⟨hmonth, hdoy⟩ := dayOfYear_bounds h
  obtain ⟨hlow, hhigh, hday, -⟩ := h
  simp only [dayNumber, monthStart] at *
  generalize hmp : (if month ≤ 2 then month + 9 else month - 3) = mp at *
  generalize hy : (if month ≤ 2 then year - 1 else year) = y at *
  generalize hyoe : (y % 400).toNat = yoe at *
  generalize hd : (153 * mp + 2) / 5 + day - 1 = doy at *
  have hyear : yoe < 400 := by omega
  have hlast : daysBefore yoe + doy < daysBefore (yoe + 1) ∨ yoe = 399 ∧ doy ≤ 365 := by
    rcases hdoy with hdoy | ⟨hdoy, rfl, hleap⟩
    · have hnext := daysBefore_next yoe
      omega
    · obtain rfl | hyoe' : yoe = 399 ∨ yoe < 399 := by omega
      · omega
      · have hsame : isLeap (yoe + 1) = true := by
          rw [if_pos (by decide)] at hy
          simp only [isLeap, decide_eq_true_iff] at hleap ⊢
          omega
        have hnext := daysBefore_leap hyoe' hsame
        omega
  have hera := yearOfEra_eq hyear hlast
  have hbound : daysBefore yoe + doy < 146097 := by
    have hend : daysBefore (yoe + 1) ≤ 146096 := daysBefore_mono (show yoe + 1 ≤ 400 from hyear)
    have hstart : daysBefore 399 = 145731 := rfl
    rcases hlast with hlast | ⟨rfl, hlast⟩ <;> omega
  obtain ⟨era, doe, hdoe, hdays, heq⟩ :=
    civil_eq (y / 400 * 146097 + daysBefore yoe + ((153 * mp + 2) / 5 : Nat) - 719468 + day - 1)
  obtain rfl : era = y / 400 := by omega
  obtain rfl : doe = daysBefore yoe + doy := by omega
  rw [heq, hera, Nat.add_sub_cancel_left]
  dsimp only
  rw [hmonth]
  have hmonths : (if mp < 10 then mp + 3 else mp - 9) = month := by
    rw [← hmp]
    split <;> split <;> omega
  rw [hmonths, Civil.mk.injEq]
  refine ⟨?_, rfl, by omega⟩
  rw [← hyoe, ← hy]
  split <;> omega

/-- A day of an era is a day of a year. -/
theorem dayOfEra_bounds {doe : Nat} (h : doe < 146097) :
    doe - daysBefore (yearOfEra doe) < 365 ∨
      doe - daysBefore (yearOfEra doe) = 365 ∧ isLeap ((yearOfEra doe : Int) + 1) = true := by
  obtain ⟨hyear, hfirst, -⟩ := yearOfEra_bounds h
  obtain hlt | rfl : doe < 146096 ∨ doe = 146096 := by omega
  · have hlast := yearOfEra_tight hlt
    by_cases hleap : isLeap ((yearOfEra doe : Int) + 1) = true
    · have hend : daysBefore (yearOfEra doe + 1) ≤ daysBefore (yearOfEra doe) + 366 := by
        unfold daysBefore
        omega
      obtain hdoy | hdoy : doe - daysBefore (yearOfEra doe) < 365 ∨ doe - daysBefore (yearOfEra doe) = 365 := by omega
      · exact Or.inl hdoy
      · exact Or.inr ⟨hdoy, hleap⟩
    · have hend : daysBefore (yearOfEra doe + 1) ≤ daysBefore (yearOfEra doe) + 365 := by
        simp only [isLeap, decide_eq_true_iff] at hleap
        unfold daysBefore
        omega
      omega
  · exact Or.inr (by decide)

/-- `civil` makes dates. -/
theorem isDate_civil (days : Int) : IsDate (civil days) := by
  obtain ⟨era, doe, hdoe, -, heq⟩ := civil_eq days
  have hdoy := dayOfEra_bounds hdoe
  rw [heq]
  generalize yearOfEra doe = yoe at *
  generalize doe - daysBefore yoe = doy at *
  have hmp : (5 * doy + 2) / 153 ≤ 11 := by omega
  rw [IsDate]
  dsimp only
  by_cases hfeb : (5 * doy + 2) / 153 = 11
  · rw [hfeb, if_neg (by decide), if_pos (by decide), daysInMonth, if_pos (by decide)]
    refine ⟨by decide, by decide, Nat.le_add_left 1 _, ?_⟩
    rcases hdoy with hdoy | ⟨hdoy, hleap⟩
    · split <;> omega
    · have hsame : isLeap (yoe + era * 400 + 1) = true := by
        simp only [isLeap, decide_eq_true_iff] at hleap ⊢
        omega
      rw [if_pos hsame]
      omega
  · generalize hdays : (5 * doy + 2) / 153 = mp at *
    generalize hmonth : (if mp < 10 then mp + 3 else mp - 9) = month
    have hrange : 1 ≤ month ∧ month ≤ 12 ∧ month ≠ 2 := by
      rw [← hmonth]
      split <;> omega
    rw [daysInMonth, if_neg hrange.2.2]
    refine ⟨hrange.1, hrange.2.1, Nat.le_add_left 1 _, ?_⟩
    interval_cases mp <;> simp at hmonth <;> subst hmonth <;> simp <;> omega

/-- A day number is read off its date. -/
theorem dayNumber_civil (days : Int) : dayNumber (civil days) = days :=
  civil_injective (civil_dayNumber (isDate_civil days))

/-! ## Days that are not of a calendar -/

/-- The day of `Date.UTC(year, month - 1, day)`, with a month of 0 or over 12 carried into the year. -/
def utcDay (year : Int) (month day : Nat) : Int :=
  monthStart (year + ((month : Int) - 1) / 12) (((month : Int) - 1) % 12 + 1).toNat + day - 1

theorem utcDay_of_month {year : Int} {month day : Nat} (h : 1 ≤ month ∧ month ≤ 12) :
    utcDay year month day = dayNumber ⟨year, month, day⟩ := by
  have hyear : ((month : Int) - 1) / 12 = 0 := by omega
  have hmonth : (((month : Int) - 1) % 12 + 1).toNat = month := by omega
  rw [utcDay, hyear, hmonth, Int.add_zero, dayNumber]

theorem daysInMonth_bounds (year : Int) (month : Nat) :
    28 ≤ daysInMonth year month ∧ daysInMonth year month ≤ 31 := by
  unfold daysInMonth
  split
  · split <;> decide
  · split <;> decide

/-- A year that starts in March, and the next. -/
theorem yearStart_succ (y : Int) :
    (y + 1) / 400 * 146097 + daysBefore ((y + 1) % 400).toNat =
      y / 400 * 146097 + daysBefore (y % 400).toNat + (if isLeap (y + 1) then 366 else 365 : Nat) := by
  obtain hlast | hlast : y % 400 = 399 ∨ y % 400 < 399 := by omega
  · have hnext : (y + 1) % 400 = 0 ∧ (y + 1) / 400 = y / 400 + 1 := by omega
    have hleap : isLeap (y + 1) = true := by
      simp only [isLeap, decide_eq_true_iff]
      omega
    rw [hlast, hnext.1, hnext.2, if_pos hleap]
    have hdays : daysBefore (Int.toNat 0) = 0 ∧ daysBefore (Int.toNat 399) = 145731 := by decide
    omega
  · have hnext : ((y + 1) % 400).toNat = (y % 400).toNat + 1 ∧ (y + 1) / 400 = y / 400 := by omega
    rw [hnext.1, hnext.2]
    have hyear : ((y % 400).toNat : Int) = y % 400 := by omega
    by_cases hleap : isLeap (y + 1) = true
    · have hsame : isLeap ((y % 400).toNat + 1) = true := by
        simp only [isLeap, decide_eq_true_iff] at hleap ⊢
        omega
      rw [if_pos hleap, daysBefore_leap (by omega) hsame]
      omega
    · have hdays : daysBefore ((y % 400).toNat + 1) = daysBefore (y % 400).toNat + 365 := by
        simp only [isLeap, decide_eq_true_iff] at hleap
        unfold daysBefore
        omega
      rw [if_neg hleap, hdays]
      omega

/-- The first of the next month. -/
theorem monthStart_next {year : Int} {month : Nat} (hmonth : 1 ≤ month ∧ month ≤ 12) :
    monthStart (if month = 12 then year + 1 else year) (if month = 12 then 1 else month + 1) =
      monthStart year month + daysInMonth year month := by
  obtain rfl | hfeb := eq_or_ne month 2
  · have hyear := yearStart_succ (year - 1)
    rw [Int.sub_add_cancel] at hyear
    simp only [monthStart, daysInMonth]
    norm_num
    split at hyear <;> simp_all <;> omega
  · obtain ⟨hlow, hhigh⟩ := hmonth
    interval_cases month <;> simp [monthStart, daysInMonth] at hfeb ⊢ <;> omega

/-- The day after the last of a month. -/
theorem dayNumber_carry {year : Int} {month day : Nat} (hmonth : 1 ≤ month ∧ month ≤ 12) :
    dayNumber ⟨year, month, daysInMonth year month + day⟩ =
      dayNumber ⟨if month = 12 then year + 1 else year, if month = 12 then 1 else month + 1, day⟩ := by
  rw [dayNumber, dayNumber, monthStart_next hmonth]
  dsimp only
  omega

/-- Month and day are kept exactly where they are a date. -/
theorem utcDay_eq_iff {year : Int} {month day : Nat} :
    (civil (utcDay year month day)).month = month ∧ (civil (utcDay year month day)).day = day ↔
      IsDate ⟨year, month, day⟩ := by
  constructor
  · rintro ⟨hmonth, hday⟩
    obtain ⟨hlow, hhigh, hfirst, hlast⟩ := isDate_civil (utcDay year month day)
    rw [hmonth] at hlow hhigh hlast
    rw [hday] at hfirst hlast
    have hmax := daysInMonth_bounds (civil (utcDay year month day)).year month
    have hmin := daysInMonth_bounds year month
    refine ⟨hlow, hhigh, hfirst, ?_⟩
    -- A day that the month lacks is one of the first days of the next.
    by_contra hover
    obtain ⟨k, hk⟩ : ∃ k, day = daysInMonth year month + k := Nat.exists_eq_add_of_le (Nat.le_of_not_le hover)
    have hcarry : dayNumber ⟨year, month, daysInMonth year month + k⟩ = _ := dayNumber_carry ⟨hlow, hhigh⟩
    have hnext : IsDate ⟨if month = 12 then year + 1 else year, if month = 12 then 1 else month + 1, k⟩ := by
      have hnextmin := daysInMonth_bounds (if month = 12 then year + 1 else year) (if month = 12 then 1 else month + 1)
      refine ⟨?_, ?_, ?_, ?_⟩ <;> dsimp only at hover ⊢
      · split <;> omega
      · split <;> omega
      · omega
      · omega
    rw [utcDay_of_month ⟨hlow, hhigh⟩, hk, hcarry, civil_dayNumber hnext] at hmonth
    dsimp only at hmonth
    split at hmonth <;> omega
  · intro h
    rw [utcDay_of_month ⟨h.1, h.2.1⟩, civil_dayNumber h]
    exact ⟨rfl, rfl⟩

end FinSight.Date
