import FinSight.Js.Text

/-!
# Dates

A JavaScript `Date` is a number of milliseconds since the epoch; a `timestamptz` column is a number of
microseconds. `isoString` is `Date.prototype.toISOString` in the proleptic Gregorian calendar, and determines the
date (`isoString_injective`).
-/

namespace FinSight

/-- A JavaScript `Date`, by its time value. -/
structure Date where
  time : Int
  deriving DecidableEq, Repr

/-- A `timestamptz` column. -/
abbrev Timestamp := Int

namespace Date

def timestamp (d : Date) : Timestamp := d.time * 1000

/-- The time values that JavaScript has. -/
def Valid (d : Date) : Prop := d.time.natAbs ≤ 8640000000000000
  deriving Decidable

structure Civil where
  year : Int
  month : Nat
  day : Nat

/-- Year, month and day of a day number (day 0 is 1970-01-01). Years are counted from 1 March, in eras of 400. -/
def civil (days : Int) : Civil :=
  let z := days + 719468
  let era := z / 146097
  let doe := (z % 146097).toNat
  let yoe := (doe - doe / 1460 + doe / 36524 - doe / 146096) / 365
  let doy := doe - (365 * yoe + yoe / 4 - yoe / 100)
  let mp := (5 * doy + 2) / 153
  let month := if mp < 10 then mp + 3 else mp - 9
  { year := yoe + era * 400 + if month ≤ 2 then 1 else 0, month, day := doy - (153 * mp + 2) / 5 + 1 }

/-- Four digits, or a sign and six. -/
def yearText (y : Int) : Text :=
  if 0 ≤ y ∧ y ≤ 9999 then padStart 4 (decimal y.toNat)
  else (if y < 0 then unit '-' else unit '+') :: padStart 6 (decimal y.natAbs)

def isoString (d : Date) : Text :=
  let c := civil (d.time / 86400000)
  let ms := (d.time % 86400000).toNat
  yearText c.year ++ unit '-' :: (padStart 2 (decimal c.month) ++ unit '-' :: (padStart 2 (decimal c.day) ++
    unit 'T' :: (padStart 2 (decimal (ms / 3600000)) ++ unit ':' :: (padStart 2 (decimal (ms / 60000 % 60)) ++
      unit ':' :: (padStart 2 (decimal (ms / 1000 % 60)) ++ unit '.' :: (padStart 3 (decimal (ms % 1000)) ++
        [unit 'Z']))))))

example : isoString ⟨951827696789⟩ = text "2000-02-29T12:34:56.789Z" := by decide

/-- The code units an ISO string is made of. -/
def IsIso (u : CodeUnit) : Prop :=
  IsDigit u ∨ u ∈ text "-+:.TZ"

theorem isIso_padStart (width n : Nat) : ∀ u ∈ padStart width (decimal n), IsIso u :=
  fun _ hu => Or.inl (isDigit_of_mem_padStart hu)

theorem isIso_yearText (y : Int) : ∀ u ∈ yearText y, IsIso u := by
  unfold yearText
  split
  · exact isIso_padStart 4 _
  · intro u hu
    rcases List.mem_cons.mp hu with rfl | hu
    · split
      · exact Or.inr (by decide)
      · exact Or.inr (by decide)
    · exact isIso_padStart 6 _ u hu

theorem isIso_isoString (d : Date) : ∀ u ∈ isoString d, IsIso u := by
  intro u hu
  have hsep : ∀ c : Char, unit c ∈ text "-+:.TZ" → IsIso (unit c) := fun c h => Or.inr h
  simp only [isoString, List.mem_append, List.mem_cons, List.not_mem_nil, or_false] at hu
  rcases hu with hu | rfl | hu | rfl | hu | rfl | hu | rfl | hu | rfl | hu | rfl | hu | rfl
  · exact isIso_yearText _ u hu
  · exact hsep '-' (by decide)
  · exact isIso_padStart 2 _ u hu
  · exact hsep '-' (by decide)
  · exact isIso_padStart 2 _ u hu
  · exact hsep 'T' (by decide)
  · exact isIso_padStart 2 _ u hu
  · exact hsep ':' (by decide)
  · exact isIso_padStart 2 _ u hu
  · exact hsep ':' (by decide)
  · exact isIso_padStart 2 _ u hu
  · exact hsep '.' (by decide)
  · exact isIso_padStart 3 _ u hu
  · exact hsep 'Z' (by decide)

/-! ## An ISO string determines its date -/

/-- The year of the era that a day of the era falls in, and the days before it. -/
def yearOfEra (doe : Nat) : Nat := (doe - doe / 1460 + doe / 36524 - doe / 146096) / 365

def daysBefore (yoe : Nat) : Nat := 365 * yoe + yoe / 4 - yoe / 100

theorem century_bounds {doe : Nat} (h : doe < 146097) :
    doe / 36524 ≤ yearOfEra doe / 100 + doe / 146096 ∧ yearOfEra doe / 100 ≤ doe / 36524 := by
  unfold yearOfEra
  have hdays : 36499 * (doe / 36524) ≤ doe - doe / 1460 := by omega
  obtain he | he | he | he | he : doe / 36524 = 0 ∨ doe / 36524 = 1 ∨ doe / 36524 = 2 ∨ doe / 36524 = 3 ∨
    doe / 36524 = 4 := by omega
  all_goals omega

theorem yearOfEra_bounds {doe : Nat} (h : doe < 146097) :
    yearOfEra doe ≤ 399 ∧ daysBefore (yearOfEra doe) ≤ doe ∧ doe ≤ daysBefore (yearOfEra doe) + 366 := by
  have hcentury := century_bounds h
  unfold yearOfEra daysBefore at *
  generalize ha : (doe - doe / 1460 + doe / 36524 - doe / 146096) / 365 = a at *
  have hleap : a / 4 ≤ doe / 1460 ∧ doe / 1460 ≤ a / 4 + 1 := by omega
  obtain he | he : doe / 146096 = 0 ∨ doe / 146096 = 1 := by omega
  · omega
  · have : doe = 146096 := by omega
    subst this
    omega

/-- The month, counted from March, and the day of the month. -/
theorem month_bounds (doy : Nat) (h : doy ≤ 366) :
    (5 * doy + 2) / 153 ≤ 11 ∧ (153 * ((5 * doy + 2) / 153) + 2) / 5 ≤ doy ∧
      doy ≤ (153 * ((5 * doy + 2) / 153) + 2) / 5 + 30 := by omega

/-- A day number, its era, its day of the era, and what `civil` makes of it. -/
theorem civil_eq (days : Int) : ∃ (era : Int) (doe : Nat), doe < 146097 ∧ days + 719468 = era * 146097 + doe ∧
    civil days =
      let doy := doe - daysBefore (yearOfEra doe)
      let mp := (5 * doy + 2) / 153
      let month := if mp < 10 then mp + 3 else mp - 9
      ⟨yearOfEra doe + era * 400 + if month ≤ 2 then 1 else 0, month, doy - (153 * mp + 2) / 5 + 1⟩ := by
  refine ⟨(days + 719468) / 146097, ((days + 719468) % 146097).toNat, by omega, by omega, rfl⟩

theorem civil_bounds (days : Int) : (civil days).month ≤ 12 ∧ (civil days).day ≤ 31 := by
  obtain ⟨era, doe, hdoe, -, heq⟩ := civil_eq days
  obtain ⟨-, -, hlast⟩ := yearOfEra_bounds hdoe
  have hmonth := month_bounds (doe - daysBefore (yearOfEra doe)) (by omega)
  rw [heq]
  dsimp only
  refine ⟨?_, by omega⟩
  split <;> omega

theorem civil_injective : Function.Injective civil := by
  intro m n h
  obtain ⟨era, doe, hdoe, hm, heq⟩ := civil_eq m
  obtain ⟨era', doe', hdoe', hn, heq'⟩ := civil_eq n
  rw [heq, heq', Civil.mk.injEq] at h
  obtain ⟨hyear, hmonth, hday⟩ := h
  obtain ⟨hy, hfirst, hlast⟩ := yearOfEra_bounds hdoe
  obtain ⟨hy', hfirst', hlast'⟩ := yearOfEra_bounds hdoe'
  have hmp := month_bounds (doe - daysBefore (yearOfEra doe)) (by omega)
  have hmp' := month_bounds (doe' - daysBefore (yearOfEra doe')) (by omega)
  generalize hd : doe - daysBefore (yearOfEra doe) = doy at *
  generalize hd' : doe' - daysBefore (yearOfEra doe') = doy' at *
  have hsame : (5 * doy + 2) / 153 = (5 * doy' + 2) / 153 := by
    revert hmonth
    split <;> split <;> omega
  have hdoy : doy = doy' := by
    rw [hsame] at hday hmp
    omega
  have hyears : yearOfEra doe + era * 400 = yearOfEra doe' + era' * 400 := by
    rw [hmonth] at hyear
    omega
  have hera : era = era' ∧ yearOfEra doe = yearOfEra doe' := by omega
  rw [hera.2] at hd hfirst
  omega


theorem yearText_injective : Function.Injective yearText := by
  have hsign : ∀ (c : Char) (width n : Nat) (t : Text), ¬ IsDigit (unit c) → padStart width (decimal n) ≠ unit c :: t :=
    fun c width n t hc h => hc (isDigit_of_mem_padStart (h ▸ List.mem_cons_self))
  intro y y' h
  unfold yearText at h
  by_cases hy : 0 ≤ y ∧ y ≤ 9999
  · rw [if_pos hy] at h
    by_cases hy' : 0 ≤ y' ∧ y' ≤ 9999
    · rw [if_pos hy'] at h
      have := padStart_decimal_injective 4 h
      omega
    · rw [if_neg hy'] at h
      split at h
      · exact absurd h (hsign '-' 4 _ _ (by decide))
      · exact absurd h (hsign '+' 4 _ _ (by decide))
  · rw [if_neg hy] at h
    by_cases hy' : 0 ≤ y' ∧ y' ≤ 9999
    · rw [if_pos hy'] at h
      split at h
      · exact absurd h.symm (hsign '-' 4 _ _ (by decide))
      · exact absurd h.symm (hsign '+' 4 _ _ (by decide))
    · rw [if_neg hy'] at h
      obtain ⟨hhead, htail⟩ := List.cons.inj h
      have habs := padStart_decimal_injective 6 htail
      by_cases hneg : y < 0
      · rw [if_pos hneg] at hhead
        split at hhead
        · omega
        · exact absurd hhead (by decide)
      · rw [if_neg hneg] at hhead
        split at hhead
        · exact absurd hhead (by decide)
        · omega

/-- What follows the year. -/
def isoTail (month day ms : Nat) : Text :=
  unit '-' :: (padStart 2 (decimal month) ++ unit '-' :: (padStart 2 (decimal day) ++
    unit 'T' :: (padStart 2 (decimal (ms / 3600000)) ++ unit ':' :: (padStart 2 (decimal (ms / 60000 % 60)) ++
      unit ':' :: (padStart 2 (decimal (ms / 1000 % 60)) ++ unit '.' :: (padStart 3 (decimal (ms % 1000)) ++
        [unit 'Z']))))))

theorem length_isoTail {month day ms : Nat} (hmonth : month < 100) (hday : day < 100) (hms : ms < 86400000) :
    (isoTail month day ms).length = 20 := by
  have htwo : ∀ n, n < 100 → (padStart 2 (decimal n)).length = 2 := fun n h => length_padStart (by decide) h
  have hthree : (padStart 3 (decimal (ms % 1000))).length = 3 := length_padStart (by decide) (by omega)
  simp only [isoTail, List.length_cons, List.length_append, List.length_nil]
  rw [htwo month hmonth, htwo day hday, htwo _ (by omega), htwo _ (by omega), htwo _ (by omega), hthree]

theorem isoTail_inj {month day ms month' day' ms' : Nat} (hmonth : month < 100 ∧ month' < 100)
    (hday : day < 100 ∧ day' < 100) (hms : ms < 86400000 ∧ ms' < 86400000)
    (h : isoTail month day ms = isoTail month' day' ms') : month = month' ∧ day = day' ∧ ms = ms' := by
  obtain ⟨hmonths, h⟩ := padStart_append_inj (by decide) hmonth.1 hmonth.2 (List.cons.inj h).2
  obtain ⟨hdays, h⟩ := padStart_append_inj (by decide) hday.1 hday.2 h
  obtain ⟨hhours, h⟩ := padStart_append_inj (by decide) (by omega) (by omega) h
  obtain ⟨hminutes, h⟩ := padStart_append_inj (by decide) (by omega) (by omega) h
  obtain ⟨hseconds, h⟩ := padStart_append_inj (by decide) (by omega) (by omega) h
  obtain ⟨hmillis, -⟩ := padStart_append_inj (by decide) (by omega) (by omega) h
  exact ⟨hmonths, hdays, by omega⟩

/-- **An ISO string determines its date.** -/
theorem isoString_injective : Function.Injective isoString := by
  intro d d' h
  have hc := civil_bounds (d.time / 86400000)
  have hc' := civil_bounds (d'.time / 86400000)
  have hms : (d.time % 86400000).toNat < 86400000 ∧ (d'.time % 86400000).toNat < 86400000 := by omega
  obtain ⟨hyear, htail⟩ := List.append_inj' h
    ((length_isoTail (by omega) (by omega) hms.1).trans (length_isoTail (by omega) (by omega) hms.2).symm)
  obtain ⟨hmonth, hday, hmillis⟩ := isoTail_inj (by omega) (by omega) hms htail
  have hcivil : civil (d.time / 86400000) = civil (d'.time / 86400000) := by
    generalize civil (d.time / 86400000) = c at *
    generalize civil (d'.time / 86400000) = c' at *
    cases c
    cases c'
    rw [Civil.mk.injEq]
    exact ⟨yearText_injective hyear, hmonth, hday⟩
  have hdays := civil_injective hcivil
  cases d
  cases d'
  rw [Date.mk.injEq]
  dsimp only at *
  omega

end Date

end FinSight
