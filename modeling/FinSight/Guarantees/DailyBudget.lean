import FinSight.Ask.LlmBudget

/-!
# The daily budget of a tenant

* `OnDay`, `nextMidnight` : the UTC days, by their numbers;
* `day_eq_iff`, `budgetKey_eq_iff` : the day in a key is the UTC day, for years of four digits;
* `retry_iff` : the retry time leads to the next midnight, for years that are not of two digits;
* `unlapsed_of_timeout` : a counter outlives its day;
* `BudgetHolds` : the daily budget; `llmBudget_holds` : when it holds.
-/

namespace FinSight.LlmBudget

open Counters Date

/-- The clock is on a UTC day, in milliseconds. -/
def OnDay (day now : Int) : Prop := day * 86400000 ≤ now ∧ now < (day + 1) * 86400000

instance decidableOnDay (day now : Int) : Decidable (OnDay day now) := inferInstanceAs (Decidable (_ ∧ _))

theorem onDay_iff {day now : Int} : OnDay day now ↔ now / 86400000 = day := by
  rw [OnDay]
  omega

/-- The first instant of the next UTC day. -/
def nextMidnight (now : Int) : Int := (now / 86400000 + 1) * 86400000

/-- The UTC year of a clock. -/
def utcYear (now : Int) : Int := (civil (now / 86400000)).year

/-! ## The day of a key -/

/-- Year, month and day of an ISO string. -/
def dateText (c : Civil) : Text :=
  yearText c.year ++ unit '-' :: (padStart 2 (decimal c.month) ++ unit '-' :: padStart 2 (decimal c.day))

theorem dateText_isoString (now : Date) : dateText (civil (now.time / 86400000)) <+: now.isoString := by
  unfold isoString dateText
  dsimp only
  rw [List.prefix_append_right_inj, List.cons_prefix_cons, List.prefix_append_right_inj, List.cons_prefix_cons]
  exact ⟨rfl, rfl, List.prefix_append _ _⟩

theorem length_yearText (y : Int) : 4 ≤ (yearText y).length := by
  have hpad : ∀ width n, width ≤ (padStart width (decimal n)).length := by
    intro width n
    rw [padStart, List.length_append, List.length_replicate]
    omega
  rw [yearText]
  split
  · exact hpad 4 _
  · rw [List.length_cons]
    have := hpad 6 y.natAbs
    omega

theorem length_monthDay (days : Int) :
    (unit '-' :: (padStart 2 (decimal (civil days).month) ++ unit '-' :: padStart 2 (decimal (civil days).day))).length = 6 := by
  have hbounds := civil_bounds days
  rw [List.length_cons, List.length_append, List.length_cons, length_padStart (by decide) (by omega),
    length_padStart (by decide) (by omega)]

/-- The day of a key is a start of the date. -/
theorem day_eq (now : Date) : day now = (dateText (civil (now.time / 86400000))).take 10 := by
  obtain ⟨rest, hiso⟩ := dateText_isoString now
  have hyear := length_yearText (civil (now.time / 86400000)).year
  rw [day, ← hiso, List.take_append_of_le_length]
  rw [dateText, List.length_append, length_monthDay]
  omega

/-- And all of it, for years of four digits. -/
theorem day_of_year (now : Date) (h : 0 ≤ utcYear now.time ∧ utcYear now.time ≤ 9999) :
    day now = dateText (civil (now.time / 86400000)) ∧ (day now).length = 10 := by
  have hlength : (dateText (civil (now.time / 86400000))).length = 10 := by
    rw [utcYear] at h
    rw [dateText, List.length_append, length_monthDay, yearText, if_pos h, length_padStart (by decide) (by omega)]
  rw [day_eq, List.take_of_length_le hlength.le]
  exact ⟨rfl, hlength⟩

theorem day_eq_iff (now now' : Date) (h : 0 ≤ utcYear now.time ∧ utcYear now.time ≤ 9999)
    (h' : 0 ≤ utcYear now'.time ∧ utcYear now'.time ≤ 9999) :
    day now = day now' ↔ now.time / 86400000 = now'.time / 86400000 := by
  refine ⟨fun heq => ?_, fun heq => by rw [day_eq, day_eq, heq]⟩
  rw [(day_of_year now h).1, (day_of_year now' h').1, dateText, dateText] at heq
  obtain ⟨hyear, hmonthDay⟩ := List.append_inj' heq ((length_monthDay _).trans (length_monthDay _).symm)
  have hbounds := civil_bounds (now.time / 86400000)
  have hbounds' := civil_bounds (now'.time / 86400000)
  obtain ⟨hmonth, hday⟩ := padStart_append_inj (by decide) (by omega) (by omega) (List.cons.inj hmonthDay).2
  have hday := padStart_decimal_injective 2 hday
  refine civil_injective ?_
  generalize civil (now.time / 86400000) = c at *
  generalize civil (now'.time / 86400000) = c' at *
  cases c
  cases c'
  rw [Civil.mk.injEq]
  exact ⟨yearText_injective hyear, hmonth, hday⟩

/-- The key of a tenant's calls on a day. -/
theorem budgetKey_of_day {c d : Call Text} (hrequest : c.request = d.request)
    (hday : c.now / 86400000 = d.now / 86400000) : budgetKey c = budgetKey d := by
  rw [budgetKey, budgetKey, hrequest, day_eq, day_eq, hday]

/-- A counter is of one tenant and one day. -/
theorem budgetKey_eq_iff {c d : Call Text} (hc : 0 ≤ utcYear c.now ∧ utcYear c.now ≤ 9999)
    (hd : 0 ≤ utcYear d.now ∧ utcYear d.now ≤ 9999) :
    budgetKey c = budgetKey d ↔ c.request = d.request ∧ c.now / 86400000 = d.now / 86400000 := by
  refine ⟨fun heq => ?_, fun h => budgetKey_of_day h.1 h.2⟩
  have hlength : (day ⟨c.now⟩).length = (day ⟨d.now⟩).length :=
    (day_of_year ⟨c.now⟩ hc).2.trans (day_of_year ⟨d.now⟩ hd).2.symm
  obtain ⟨htenant, hday⟩ := List.append_inj' heq hlength
  rw [List.append_cancel_right_eq, List.append_cancel_left_eq] at htenant
  exact ⟨htenant, (day_eq_iff ⟨c.now⟩ ⟨d.now⟩ hc hd).mp hday⟩

/-! ## The reset time -/

/-- The whole seconds to the next midnight, rounded up. -/
structure IsRetryAfter (now r : Int) : Prop where
  pos : 1 ≤ r
  reached : nextMidnight now ≤ now + r * 1000
  tight : now + (r - 1) * 1000 < nextMidnight now

/-- The day after the date of a day number. -/
theorem utcDay_civil (days : Int) :
    utcDay (civil days).year (civil days).month ((civil days).day + 1) = days + 1 := by
  obtain ⟨hlow, hhigh, -, -⟩ := isDate_civil days
  have hdays := dayNumber_civil days
  rw [dayNumber] at hdays
  rw [utcDay_of_month ⟨hlow, hhigh⟩, dayNumber]
  dsimp only
  omega

theorem days_of_year (days : Int) (h : 0 ≤ (civil days).year ∧ (civil days).year ≤ 9999) :
    -900000 ≤ days ∧ days ≤ 3000000 := by
  obtain ⟨era, doe, hdoe, hdays, heq⟩ := civil_eq days
  obtain ⟨hera, -, -⟩ := yearOfEra_bounds hdoe
  rw [heq] at h
  dsimp only at h
  split at h <;> omega

/-- A year of two digits is taken for one of the 20th century. -/
theorem utcDay_twoDigits {c : Civil} (h : 0 ≤ c.year ∧ c.year ≤ 99) (hmonth : 1 ≤ c.month ∧ c.month ≤ 12) :
    utcDay c.year c.month (c.day + 1) + 1 < utcDay (1900 + c.year) c.month (c.day + 1) := by
  rw [utcDay_of_month hmonth, utcDay_of_month hmonth, dayNumber, dayNumber]
  unfold monthStart daysBefore
  dsimp only
  split <;> omega

/-- **The retry time leads to the next UTC midnight where the year has not two digits, and that midnight is a date.** -/
theorem retry_iff (now : Int) :
    (∃ r, secondsUntilUtcMidnight ⟨now⟩ = some r ∧ IsRetryAfter now r) ↔
      ¬ (0 ≤ utcYear now ∧ utcYear now ≤ 99) ∧ (nextMidnight now).natAbs ≤ 8640000000000000 := by
  have hday := utcDay_civil (now / 86400000)
  unfold secondsUntilUtcMidnight dateUtc utcYear
  dsimp only
  by_cases hyear : 0 ≤ (civil (now / 86400000)).year ∧ (civil (now / 86400000)).year ≤ 99
  · refine iff_of_false ?_ fun h => h.1 hyear
    obtain ⟨hlow, hhigh, -, -⟩ := isDate_civil (now / 86400000)
    have hfar := utcDay_twoDigits hyear ⟨hlow, hhigh⟩
    rw [if_pos hyear]
    rintro ⟨r, hr, hretry⟩
    rw [Option.map_eq_some_iff] at hr
    obtain ⟨next, hnext, rfl⟩ := hr
    rw [Option.ite_none_right_eq_some, Option.some.injEq] at hnext
    have htight := hretry.tight
    rw [nextMidnight] at htight
    omega
  · rw [if_neg hyear, hday]
    constructor
    · rintro ⟨r, hr, -⟩
      rw [Option.map_eq_some_iff] at hr
      obtain ⟨next, hnext, -⟩ := hr
      exact ⟨hyear, (Option.ite_none_right_eq_some.mp hnext).1⟩
    · rintro ⟨-, hrange⟩
      rw [nextMidnight] at hrange
      have hnext : now < nextMidnight now := by
        rw [nextMidnight]
        omega
      rw [if_pos hrange, Option.map_some]
      exact ⟨_, rfl, by omega, by rw [nextMidnight]; omega, by rw [nextMidnight]; omega⟩

theorem retry_iff_year {now : Int} (h : 0 ≤ utcYear now ∧ utcYear now ≤ 9999) :
    (∃ r, secondsUntilUtcMidnight ⟨now⟩ = some r ∧ IsRetryAfter now r) ↔ 100 ≤ utcYear now := by
  have hdays := days_of_year (now / 86400000) h
  rw [retry_iff, nextMidnight]
  omega

/-! ## Runs -/

/-- The calls of a tenant on a day. -/
def OfDay (tenant : Text) (d : Int) (c : Call Text) : Prop := c.request = tenant ∧ OnDay d c.now

instance decidableOfDay (tenant : Text) (d : Int) : DecidablePred (OfDay tenant d) :=
  fun _ => inferInstanceAs (Decidable (_ ∧ _))

/-- No more than the limit of a tenant's calls of a day return after an answer in time, and they return as if there were
no other calls. -/
structure BudgetKept (limit : Nat) (cs : List (Call Text)) : Prop where
  bound : ∀ tenant d,
    (run limit cs).countP (fun o => OfDay tenant d o.1 ∧ o.1.reply = .inTime ∧ o.2 = none) ≤ limit
  alone : ∀ tenant d,
    (run limit cs).filter (fun o => OfDay tenant d o.1) = run limit (cs.filter fun c => OfDay tenant d c)

/-- The daily budget: it is kept, and the others are told when the day ends. -/
structure BudgetHolds (limit : Nat) (cs : List (Call Text)) : Prop extends BudgetKept limit cs where
  retry : ∀ o ∈ run limit cs, ∀ e, o.2 = some e → ∃ r, e.retryAfterSec = some r ∧ IsRetryAfter o.1.now r

theorem respond_none {limit : Nat} {now : Date} {n : Nat} (h : respond limit now (some n) = none) : n ≤ limit := by
  rw [respond] at h
  split at h
  · cases h
  · omega

theorem respond_some {limit : Nat} {now : Date} {count : Option Nat} {e : LlmBudgetExceeded}
    (h : respond limit now count = some e) : e.retryAfterSec = secondsUntilUtcMidnight now := by
  cases count with
  | none => cases h
  | some n =>
      rw [respond] at h
      split at h
      · rw [← Option.some.inj h]
      · cases h

theorem ofDay_same {tenant : Text} {d : Int} {c c' : Call Text} (h : OfDay tenant d c) (h' : OfDay tenant d c') :
    c.request = c'.request ∧ c.now / 86400000 = c'.now / 86400000 :=
  ⟨h.1.trans h'.1.symm, (onDay_iff.mp h.2).trans (onDay_iff.mp h'.2).symm⟩

theorem bound_of_unlapsed {cs : List (Call Text)} (h : Unlapsed budgetKey budgetTtl cs) (limit : Nat) (tenant : Text)
    (d : Int) : (run limit cs).countP (fun o => OfDay tenant d o.1 ∧ o.1.reply = .inTime ∧ o.2 = none) ≤ limit := by
  have hstart : OfDay tenant d ⟨tenant, d * 86400000, 0, .inTime⟩ := ⟨rfl, le_refl _, by dsimp only; omega⟩
  refine passed_le (k := budgetKey ⟨tenant, d * 86400000, 0, .inTime⟩) (p := OfDay tenant d)
    (fun c n => respond_none) h fun c hc => ?_
  obtain ⟨hrequest, hday⟩ := ofDay_same hc hstart
  exact budgetKey_of_day hrequest hday

/-- The calls of a tenant and a day are those of one counter, or none. -/
theorem alone_of_year {cs : List (Call Text)} (hyears : ∀ c ∈ cs, 0 ≤ utcYear c.now ∧ utcYear c.now ≤ 9999)
    (limit : Nat) (tenant : Text) (d : Int) :
    (run limit cs).filter (fun o => OfDay tenant d o.1) = run limit (cs.filter fun c => OfDay tenant d c) := by
  by_cases hany : ∃ c ∈ cs, OfDay tenant d c
  · obtain ⟨c, hc, hday⟩ := hany
    have hsame : ∀ e ∈ cs, OfDay tenant d e ↔ budgetKey e = budgetKey c := by
      intro e he
      rw [budgetKey_eq_iff (hyears e he) (hyears c hc)]
      refine ⟨fun h => ofDay_same h hday, fun ⟨hrequest, hdays⟩ => ⟨hrequest.trans hday.1, ?_⟩⟩
      rw [onDay_iff, hdays, onDay_iff.mp hday.2]
    have hcalls : cs.filter (fun e => OfDay tenant d e) = cs.filter fun e => budgetKey e = budgetKey c :=
      List.filter_congr fun e he => decide_eq_decide.mpr (hsame e he)
    rw [hcalls, run, run, ← outcomes_filter]
    refine List.filter_congr fun o ho => decide_eq_decide.mpr ?_
    exact hsame o.1 (mem_outcomes ho).1
  · have hnone : ∀ c ∈ cs, ¬ OfDay tenant d c := fun c hc hday => hany ⟨c, hc, hday⟩
    have hcalls : cs.filter (fun e => OfDay tenant d e) = [] :=
      List.filter_eq_nil_iff.mpr fun c hc => by simpa using hnone c hc
    rw [hcalls, List.filter_eq_nil_iff.mpr]
    · rfl
    · exact fun o ho => by simpa using hnone o.1 (mem_outcomes ho).1

/-- A counter outlives its day by an hour. -/
theorem unlapsed_of_timeout {timeout : Nat} {cs : List (Call Text)} (h : Timely timeout cs)
    (hyears : ∀ c ∈ cs, 0 ≤ utcYear c.now ∧ utcYear c.now ≤ 9999) (htimeout : timeout ≤ 3600000) :
    Unlapsed budgetKey budgetTtl cs := by
  refine unlapsed_of_forall fun c hc e he hkey => ?_
  obtain ⟨-, hday⟩ := (budgetKey_eq_iff (hyears c hc) (hyears e he)).mp hkey
  have hread := (h.within c hc).1
  have heffect := (h.within e he).2
  rw [budgetTtl]
  omega

/-- **The daily budget is kept in every run in the years 0 to 9999 in which no counter lapses, and none does where the
timeout is at most an hour.** Rejected calls are told the next midnight from the year 100 on, and only then. -/
theorem llmBudget_holds (limit : Nat) {timeout : Nat} {cs : List (Call Text)} (htimely : Timely timeout cs)
    (hyears : ∀ c ∈ cs, 0 ≤ utcYear c.now ∧ utcYear c.now ≤ 9999) :
    (Unlapsed budgetKey budgetTtl cs →
      BudgetKept limit cs ∧
      (∀ o ∈ run limit cs, ∀ e, o.2 = some e →
        ((∃ r, e.retryAfterSec = some r ∧ IsRetryAfter o.1.now r) ↔ 100 ≤ utcYear o.1.now)) ∧
      ((∀ c ∈ cs, 100 ≤ utcYear c.now) → BudgetHolds limit cs)) ∧
    (timeout ≤ 3600000 → Unlapsed budgetKey budgetTtl cs) := by
  have hretry : ∀ o ∈ run limit cs, ∀ e, o.2 = some e →
      ((∃ r, e.retryAfterSec = some r ∧ IsRetryAfter o.1.now r) ↔ 100 ≤ utcYear o.1.now) := by
    intro o ho e he
    obtain ⟨hmem, count, hcount⟩ := mem_outcomes ho
    rw [respond_some (hcount.symm.trans he)]
    exact retry_iff_year (hyears o.1 hmem)
  refine ⟨fun h => ?_, unlapsed_of_timeout htimely hyears⟩
  have hkept : BudgetKept limit cs := ⟨bound_of_unlapsed h limit, alone_of_year hyears limit⟩
  exact ⟨hkept, hretry, fun hcentury => ⟨hkept, fun o ho e he => (hretry o ho e he).mpr (hcentury o.1 (mem_outcomes ho).1)⟩⟩

/-- A call of one tenant that is answered in time. -/
def question (now effect : Int) : Call Text := ⟨text "a", now, effect, .inTime⟩

/-- Two calls on a leap day, the second half a second before it ends. -/
def leapDay : List (Call Text) := [question 1709164800000 1709164800000, question 1709251199500 1709251199600]

theorem timely_leapDay : Timely 200 leapDay := ⟨by simp [leapDay, question], by simp [leapDay, question]⟩

theorem llmBudget_holds_leapDay :
    (run 1 leapDay).map (fun o => o.2.map LlmBudgetExceeded.retryAfterSec) = [none, some (some 1)] ∧
      BudgetHolds 1 leapDay := by
  have hholds := llmBudget_holds 1 timely_leapDay (by decide)
  exact ⟨by decide, (hholds.1 (hholds.2 (by decide))).2.2 (by decide)⟩

/-- Calls on two days of the year 10000, whose keys have the same month and no day. -/
theorem llmBudget_shared :
    ¬ ∀ (limit timeout : Nat) (cs : List (Call Text)), Timely timeout cs → BudgetHolds limit cs := by
  intro h
  have hrun : Timely 200 [question 253402300800000 253402300800000, question 253402387200000 253402387200000] :=
    ⟨by simp [question], by simp [question]⟩
  have halone := (h 1 200 _ hrun).alone (text "a") 2932898
  exact absurd (congrArg (List.map fun o => o.2.isNone) halone) (by decide)

end FinSight.LlmBudget
