import FinSight.Js.Calendar
import FinSight.Js.Digits

/-!
# Dates that are parsed

* `DateParser` : `new Date(t)` of a string, which reads back what `toISOString` writes;
* `DateParser.iso` : one that reads ISO strings.
-/

namespace FinSight
open Scanning

/-- `new Date(t)` of a string; what it makes of other strings than `toISOString` writes is left open. -/
structure DateParser where
  parse : Text → Option Date
  parse_isoString : ∀ d : Date, d.Valid → parse d.isoString = some d

namespace Date

def yearOf (t : Text) : Int :=
  if t.head? = some (unit '-') then -decimalValue t.tail
  else if t.head? = some (unit '+') then decimalValue t.tail
  else decimalValue t

theorem yearOf_yearText (y : Int) : yearOf (yearText y) = y := by
  rw [yearText]
  split
  · next hy =>
    have hdigit : ∀ c : Char, ¬ IsDigit (unit c) → (padStart 4 (decimal y.toNat)).head? ≠ some (unit c) :=
      fun c hc h => hc (isDigit_of_mem_padStart (List.mem_of_head? h))
    rw [yearOf, if_neg (hdigit '-' (by decide)), if_neg (hdigit '+' (by decide)), decimalValue_padStart]
    omega
  · split
    · rw [yearOf, if_pos List.head?_cons, List.tail_cons, decimalValue_padStart]
      omega
    · rw [yearOf, if_neg (by rw [List.head?_cons]; decide), if_pos List.head?_cons, List.tail_cons, decimalValue_padStart]
      omega

/-- The date of a year and what follows it in an ISO string. -/
def parseTail (year : Int) (t : Text) : Option Date := do
  let t ← symbol (unit '-') t
  let (month, t) ← readDigits 2 t
  let t ← symbol (unit '-') t
  let (day, t) ← readDigits 2 t
  let t ← symbol (unit 'T') t
  let (hour, t) ← readDigits 2 t
  let t ← symbol (unit ':') t
  let (minute, t) ← readDigits 2 t
  let t ← symbol (unit ':') t
  let (second, t) ← readDigits 2 t
  let t ← symbol (unit '.') t
  let (ms, _) ← readDigits 3 t
  return ⟨(((dayNumber ⟨year, month, day⟩ * 24 + hour) * 60 + minute) * 60 + second) * 1000 + ms⟩

def parseIso (t : Text) : Option Date := parseTail (yearOf (t.take (t.length - 20))) (t.drop (t.length - 20))

theorem parseTail_isoTail {year : Int} {month day ms : Nat} (hmonth : month < 100) (hday : day < 100)
    (hms : ms < 86400000) :
    parseTail year (isoTail month day ms) = some ⟨dayNumber ⟨year, month, day⟩ * 86400000 + ms⟩ := by
  have htwo : Reads (readDigits 2) digitsOf := reads_digits (by decide)
  have hthree : Reads (readDigits 3) digitsOf := reads_digits (by decide)
  refine symbol_bind_eq_some.mpr ⟨_, htwo.bind_eq_some.mpr ⟨⟨month, hmonth⟩, _, ?_, rfl⟩, rfl⟩
  refine symbol_bind_eq_some.mpr ⟨_, htwo.bind_eq_some.mpr ⟨⟨day, hday⟩, _, ?_, rfl⟩, rfl⟩
  refine symbol_bind_eq_some.mpr ⟨_, htwo.bind_eq_some.mpr ⟨⟨ms / 3600000, by omega⟩, _, ?_, rfl⟩, rfl⟩
  refine symbol_bind_eq_some.mpr ⟨_, htwo.bind_eq_some.mpr ⟨⟨ms / 60000 % 60, by omega⟩, _, ?_, rfl⟩, rfl⟩
  refine symbol_bind_eq_some.mpr ⟨_, htwo.bind_eq_some.mpr ⟨⟨ms / 1000 % 60, by omega⟩, _, ?_, rfl⟩, rfl⟩
  refine symbol_bind_eq_some.mpr ⟨_, hthree.bind_eq_some.mpr ⟨⟨ms % 1000, by omega⟩, _, ?_, rfl⟩, rfl⟩
  refine congrArg (some ∘ Date.mk) ?_
  dsimp only
  omega

theorem parseIso_isoString (d : Date) : parseIso d.isoString = some d := by
  have hbounds := civil_bounds (d.time / 86400000)
  have hms : (d.time % 86400000).toNat < 86400000 := by omega
  have hlength := length_isoTail (show (civil (d.time / 86400000)).month < 100 by omega)
    (show (civil (d.time / 86400000)).day < 100 by omega) hms
  have hiso : d.isoString = yearText (civil (d.time / 86400000)).year ++
      isoTail (civil (d.time / 86400000)).month (civil (d.time / 86400000)).day (d.time % 86400000).toNat := rfl
  rw [parseIso, hiso, List.length_append, hlength, Nat.add_sub_cancel, List.take_left, List.drop_left, yearOf_yearText,
    parseTail_isoTail (by omega) (by omega) hms]
  have hday : dayNumber ⟨(civil (d.time / 86400000)).year, (civil (d.time / 86400000)).month,
      (civil (d.time / 86400000)).day⟩ = d.time / 86400000 := dayNumber_civil _
  rw [hday, Option.some.injEq]
  cases d
  rw [Date.mk.injEq]
  dsimp only
  omega

end Date

def DateParser.iso : DateParser := ⟨Date.parseIso, fun d _ => Date.parseIso_isoString d⟩

end FinSight
