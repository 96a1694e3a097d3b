import FinSight.Js.Calendar
import FinSight.Js.Digits
import Mathlib.Data.List.DropRight

/-!
# timestamptz as text

* `Stamp` : the texts `2024-05-01 12:00:00.123456+02:30` of any digits; `readStamp_eq_some` : they are read back;
* `timestamptzIn` : the cast to `timestamptz`, which wants a year of at least 1, a Gregorian date, and an offset of at
  most 15:59:59;
* `timestamptzOut` : how Postgres renders an instant in a session's zone; `timestamptzIn_out` : the cast reads it back.
-/

namespace FinSight
open Scanning

/-- The digits of a fraction of a second; none is no fraction. -/
structure Fraction where
  digits : Text
  valid : digits.length ≤ 6 ∧ ∀ u ∈ digits, IsDigit u
  deriving DecidableEq

def Fraction.text (f : Fraction) : Text := if f.digits = [] then [] else unit '.' :: f.digits

/-- A date, a time of day and an offset, in digits. -/
structure Stamp where
  year : Fin (10 ^ 4)
  month : Fin (10 ^ 2)
  day : Fin (10 ^ 2)
  hour : Fin (10 ^ 2)
  minute : Fin (10 ^ 2)
  second : Fin (10 ^ 2)
  fraction : Fraction
  negative : Bool
  zoneHours : Fin (10 ^ 2)
  /-- The minutes and the seconds of the offset. -/
  zoneRest : Option (Fin (10 ^ 2) × Option (Fin (10 ^ 2)))
  deriving DecidableEq

namespace Stamp

def signText (negative : Bool) : Text := [if negative then unit '-' else unit '+']

def restText : Option (Fin (10 ^ 2) × Option (Fin (10 ^ 2))) → Text
  | none => []
  | some (m, none) => unit ':' :: digitsOf m
  | some (m, some s) => unit ':' :: (digitsOf m ++ unit ':' :: digitsOf s)

def text (s : Stamp) : Text :=
  digitsOf s.year ++ unit '-' :: (digitsOf s.month ++ unit '-' :: (digitsOf s.day ++ unit ' ' ::
    (digitsOf s.hour ++ unit ':' :: (digitsOf s.minute ++ unit ':' :: (digitsOf s.second ++ (s.fraction.text ++
      (signText s.negative ++ (digitsOf s.zoneHours ++ restText s.zoneRest))))))))

/-! ## Reading -/

def readSign : Reader CodeUnit Bool
  | [] => none
  | u :: rest => if u = unit '-' then some (true, rest) else if u = unit '+' then some (false, rest) else none

/-- `(\.\d{1,6})?`, before a sign. -/
def readFraction (t : Text) : Option (Fraction × Text) :=
  match t with
  | [] => none
  | u :: rest =>
      if u = unit '.' then
        let digits := rest.takeWhile fun u => decide (IsDigit u)
        if h : digits ≠ [] ∧ digits.length ≤ 6 then
          some (⟨digits, h.2, fun u hu => by simpa using List.mem_takeWhile_imp hu⟩,
            rest.dropWhile fun u => decide (IsDigit u))
        else none
      else some (⟨[], by decide, by decide⟩, t)

/-- `(:\d{2}){0,2}$`. -/
def readRest (t : Text) : Option (Option (Fin (10 ^ 2) × Option (Fin (10 ^ 2)))) :=
  if t = [] then some none else do
    let t ← symbol (unit ':') t
    let (m, t) ← readDigits 2 t
    if t = [] then some (some (m, none)) else do
      let t ← symbol (unit ':') t
      let (s, t) ← readDigits 2 t
      if t = [] then some (some (m, some s)) else none

/-- `/^(\d{4})-(\d{2})-(\d{2}) (\d{2}):(\d{2}):(\d{2})(\.\d{1,6})?[+-]\d{2}(:\d{2}){0,2}$/`. -/
def read (t : Text) : Option Stamp := do
  let (year, t) ← readDigits 4 t
  let t ← symbol (unit '-') t
  let (month, t) ← readDigits 2 t
  let t ← symbol (unit '-') t
  let (day, t) ← readDigits 2 t
  let t ← symbol (unit ' ') t
  let (hour, t) ← readDigits 2 t
  let t ← symbol (unit ':') t
  let (minute, t) ← readDigits 2 t
  let t ← symbol (unit ':') t
  let (second, t) ← readDigits 2 t
  let (fraction, t) ← readFraction t
  let (negative, t) ← readSign t
  let (zoneHours, t) ← readDigits 2 t
  let zoneRest ← readRest t
  return { year, month, day, hour, minute, second, fraction, negative, zoneHours, zoneRest }

theorem reads_two : Reads (readDigits 2) digitsOf := reads_digits (by decide)

theorem reads_four : Reads (readDigits 4) digitsOf := reads_digits (by decide)

theorem reads_sign : Reads readSign signText := by
  intro t negative rest
  constructor
  · intro h
    cases t with
    | nil => cases h
    | cons u t =>
        rw [readSign] at h
        split at h
        · next hu =>
          cases h
          rw [hu]
          rfl
        · split at h
          · next hu =>
            cases h
            rw [hu]
            rfl
          · cases h
  · rintro rfl
    cases negative <;> rfl

theorem readRest_eq_some {t : Text} {r : Option (Fin (10 ^ 2) × Option (Fin (10 ^ 2)))} :
    readRest t = some r ↔ t = restText r := by
  constructor
  · intro h
    rw [readRest] at h
    split at h
    · next ht =>
      cases h
      exact ht
    · replace h := symbol_bind_eq_some.mp h
      obtain ⟨t, h, rfl⟩ := h
      replace h := reads_two.bind_eq_some.mp h
      obtain ⟨m, t, h, rfl⟩ := h
      dsimp only at h
      split at h
      · next ht =>
        cases h
        rw [ht, List.append_nil]
        rfl
      · replace h := symbol_bind_eq_some.mp h
        obtain ⟨t, h, rfl⟩ := h
        replace h := reads_two.bind_eq_some.mp h
        obtain ⟨s, t, h, rfl⟩ := h
        dsimp only at h
        split at h
        · next ht =>
          cases h
          rw [ht, List.append_nil]
          rfl
        · cases h
  · rintro rfl
    rw [readRest]
    rcases r with _ | ⟨m, _ | s⟩
    · rfl
    · rw [restText, if_neg (List.cons_ne_nil _ _)]
      refine symbol_bind_eq_some.mpr ⟨_, reads_two.bind_eq_some.mpr ⟨m, [], ?_, (List.append_nil _).symm⟩, rfl⟩
      rfl
    · rw [restText, if_neg (List.cons_ne_nil _ _)]
      refine symbol_bind_eq_some.mpr ⟨_, reads_two.bind_eq_some.mpr ⟨m, _, ?_, rfl⟩, rfl⟩
      dsimp only
      rw [if_neg (List.cons_ne_nil _ _)]
      refine symbol_bind_eq_some.mpr ⟨_, reads_two.bind_eq_some.mpr ⟨s, [], ?_, (List.append_nil _).symm⟩, rfl⟩
      rfl

/-- A sign ends the digits of a fraction. -/
theorem sign_not_digit (negative : Bool) (rest : Text) :
    ∃ u, signText negative ++ rest = u :: rest ∧ ¬ IsDigit u ∧ u ≠ unit '.' := by
  cases negative
  · exact ⟨unit '+', rfl, by decide, by decide⟩
  · exact ⟨unit '-', rfl, by decide, by decide⟩

theorem readFraction_eq_some {t rest : Text} {f : Fraction} {negative : Bool} :
    readFraction t = some (f, signText negative ++ rest) ↔ t = f.text ++ (signText negative ++ rest) := by
  obtain ⟨u, hu, hdigit, hpoint⟩ := sign_not_digit negative rest
  rw [hu]
  constructor
  · intro h
    cases t with
    | nil => cases h
    | cons v t =>
        rw [readFraction] at h
        split at h
        · next hv =>
          dsimp only at h
          split at h
          · next hlength =>
            obtain ⟨rfl, hrest⟩ := Prod.mk.inj (Option.some.inj h)
            rw [Fraction.text, if_neg hlength.1, ← hrest, List.cons_append, List.takeWhile_append_dropWhile, hv]
          · cases h
        · obtain ⟨rfl, hrest⟩ := Prod.mk.inj (Option.some.inj h)
          exact hrest
  · rintro rfl
    obtain ⟨digits, hlength, hdigits⟩ := f
    rw [Fraction.text]
    by_cases hnone : digits = []
    · subst hnone
      rw [if_pos rfl, List.nil_append, readFraction, if_neg hpoint]
    · have htake : (digits ++ u :: rest).takeWhile (fun u => decide (IsDigit u)) = digits := by
        rw [List.takeWhile_append_of_pos fun v hv => decide_eq_true (hdigits v hv),
          List.takeWhile_cons_of_neg (by rwa [decide_eq_true_iff]), List.append_nil]
      have hdrop : (digits ++ u :: rest).dropWhile (fun u => decide (IsDigit u)) = u :: rest := by
        rw [List.dropWhile_append_of_pos fun v hv => decide_eq_true (hdigits v hv),
          List.dropWhile_cons_of_neg (by rwa [decide_eq_true_iff])]
      rw [if_neg hnone, List.cons_append, readFraction, if_pos rfl]
      simp only [htake, hdrop]
      rw [dif_pos ⟨hnone, hlength⟩]

/-- A stamp is read back, and nothing else is read. -/
theorem read_eq_some {t : Text} {s : Stamp} : read t = some s ↔ t = s.text := by
  constructor
  · intro h
    replace h := reads_four.bind_eq_some.mp h
    obtain ⟨year, t, h, rfl⟩ := h
    replace h := symbol_bind_eq_some.mp h
    obtain ⟨t, h, rfl⟩ := h
    replace h := reads_two.bind_eq_some.mp h
    obtain ⟨month, t, h, rfl⟩ := h
    replace h := symbol_bind_eq_some.mp h
    obtain ⟨t, h, rfl⟩ := h
    replace h := reads_two.bind_eq_some.mp h
    obtain ⟨day, t, h, rfl⟩ := h
    replace h := symbol_bind_eq_some.mp h
    obtain ⟨t, h, rfl⟩ := h
    replace h := reads_two.bind_eq_some.mp h
    obtain ⟨hour, t, h, rfl⟩ := h
    replace h := symbol_bind_eq_some.mp h
    obtain ⟨t, h, rfl⟩ := h
    replace h := reads_two.bind_eq_some.mp h
    obtain ⟨minute, t, h, rfl⟩ := h
    replace h := symbol_bind_eq_some.mp h
    obtain ⟨t, h, rfl⟩ := h
    replace h := reads_two.bind_eq_some.mp h
    obtain ⟨second, t, h, rfl⟩ := h
    replace h := Option.bind_eq_some_iff.mp h
    obtain ⟨⟨fraction, t'⟩, hfraction, h⟩ := h
    replace h := reads_sign.bind_eq_some.mp h
    obtain ⟨negative, t'', h, rfl⟩ := h
    obtain rfl := readFraction_eq_some.mp hfraction
    replace h := reads_two.bind_eq_some.mp h
    obtain ⟨zoneHours, t, h, rfl⟩ := h
    replace h := Option.bind_eq_some_iff.mp h
    obtain ⟨zoneRest, hrest, h⟩ := h
    obtain rfl := readRest_eq_some.mp hrest
    cases h
    rfl
  · rintro rfl
    refine reads_four.bind_eq_some.mpr ⟨s.year, _, symbol_bind_eq_some.mpr ⟨_, ?_, rfl⟩, rfl⟩
    refine reads_two.bind_eq_some.mpr ⟨s.month, _, symbol_bind_eq_some.mpr ⟨_, ?_, rfl⟩, rfl⟩
    refine reads_two.bind_eq_some.mpr ⟨s.day, _, symbol_bind_eq_some.mpr ⟨_, ?_, rfl⟩, rfl⟩
    refine reads_two.bind_eq_some.mpr ⟨s.hour, _, symbol_bind_eq_some.mpr ⟨_, ?_, rfl⟩, rfl⟩
    refine reads_two.bind_eq_some.mpr ⟨s.minute, _, symbol_bind_eq_some.mpr ⟨_, ?_, rfl⟩, rfl⟩
    refine reads_two.bind_eq_some.mpr ⟨s.second, _, ?_, rfl⟩
    refine Option.bind_eq_some_iff.mpr ⟨(s.fraction, _), readFraction_eq_some.mpr rfl, ?_⟩
    refine reads_sign.bind_eq_some.mpr ⟨s.negative, _, ?_, rfl⟩
    refine reads_two.bind_eq_some.mpr ⟨s.zoneHours, _, ?_, rfl⟩
    exact Option.bind_eq_some_iff.mpr ⟨s.zoneRest, readRest_eq_some.mpr rfl, rfl⟩

/-! ## The cast -/

def date (s : Stamp) : Date.Civil := ⟨s.year, s.month, s.day⟩

def zoneMinutes (s : Stamp) : Nat := (s.zoneRest.map fun r => r.1.val).getD 0

def zoneSeconds (s : Stamp) : Nat := ((s.zoneRest.bind Prod.snd).map Fin.val).getD 0

/-- An offset of at most 15:59:59. -/
def ZoneInRange (s : Stamp) : Prop := s.zoneHours.val ≤ 15 ∧ s.zoneMinutes < 60 ∧ s.zoneSeconds < 60

instance (s : Stamp) : Decidable s.ZoneInRange := inferInstanceAs (Decidable (_ ∧ _))

/-- A time of day. -/
def TimeInRange (s : Stamp) : Prop := s.hour.val ≤ 23 ∧ s.minute.val ≤ 59 ∧ s.second.val ≤ 59

instance (s : Stamp) : Decidable s.TimeInRange := inferInstanceAs (Decidable (_ ∧ _))

/-- What the cast wants of a stamp. -/
def Castable (s : Stamp) : Prop := 1 ≤ s.year.val ∧ Date.IsDate s.date ∧ s.TimeInRange ∧ s.ZoneInRange

instance (s : Stamp) : Decidable s.Castable := inferInstanceAs (Decidable (_ ∧ _))

/-- The offset in seconds. -/
def zone (s : Stamp) : Int :=
  let seconds : Int := s.zoneHours * 3600 + s.zoneMinutes * 60 + s.zoneSeconds
  if s.negative then -seconds else seconds

def micros (f : Fraction) : Nat := decimalValue f.digits * 10 ^ (6 - f.digits.length)

/-- The instant, in microseconds. -/
def timestamp (s : Stamp) : Timestamp :=
  (Date.dayNumber s.date * 86400 + s.hour * 3600 + s.minute * 60 + s.second - s.zone) * 1000000 + micros s.fraction

end Stamp

/-- `t::timestamptz`, of texts with the form of a `Stamp`. -/
def timestamptzIn (t : Text) : Option Timestamp :=
  match Stamp.read t with
  | some s => if s.Castable then some s.timestamp else none
  | none => none

/-! ## Rendering -/

/-- The offset of a session's time zone, in seconds east of Greenwich. -/
structure Zone where
  seconds : Int
  bound : -57599 ≤ seconds ∧ seconds ≤ 57599
  deriving DecidableEq

/-- The microseconds of a second without the zeros at their end. -/
def fractionOf (micros : Nat) : Fraction where
  digits := if micros % 1000000 = 0 then [] else
    (padStart 6 (decimal (micros % 1000000))).rdropWhile fun u => u == unit '0'
  valid := by
    split
    · exact ⟨by decide, fun u hu => by cases hu⟩
    · have hstart := List.rdropWhile_prefix (fun u => u == unit '0') (padStart 6 (decimal (micros % 1000000)))
      refine ⟨hstart.length_le.trans_eq (length_padStart (by decide) (Nat.mod_lt _ (by decide))), fun u hu => ?_⟩
      exact isDigit_of_mem_padStart (hstart.subset hu)

/-- An instant as a stamp of a zone; its year there is 1 to 9999. -/
def Stamp.of (zone : Zone) (t : Timestamp) : Stamp :=
  let wall := t + zone.seconds * 1000000
  let c := Date.civil (wall / 86400000000)
  let second := (wall / 1000000 % 86400).toNat
  let offset := zone.seconds.natAbs
  { year := Fin.ofNat _ c.year.toNat, month := Fin.ofNat _ c.month, day := Fin.ofNat _ c.day
    hour := Fin.ofNat _ (second / 3600), minute := Fin.ofNat _ (second / 60 % 60), second := Fin.ofNat _ (second % 60)
    fraction := fractionOf (wall % 1000000).toNat, negative := zone.seconds < 0
    zoneHours := Fin.ofNat _ (offset / 3600)
    zoneRest :=
      if offset % 60 ≠ 0 then some (Fin.ofNat _ (offset / 60 % 60), some (Fin.ofNat _ (offset % 60)))
      else if offset / 60 % 60 ≠ 0 then some (Fin.ofNat _ (offset / 60 % 60), none)
      else none }

/-- `t::text` in a session of that zone. -/
def timestamptzOut (zone : Zone) (t : Timestamp) : Text := (Stamp.of zone t).text

example : timestamptzOut ⟨19800, by decide⟩ 1714521600123400 = text "2024-05-01 05:30:00.1234+05:30" := by decide

/-- The year of an instant in a zone. -/
def yearIn (zone : Zone) (t : Timestamp) : Int := (Date.civil ((t + zone.seconds * 1000000) / 86400000000)).year

theorem decimalValue_append_zeros (t : Text) (k : Nat) :
    decimalValue (t ++ List.replicate k (unit '0')) = decimalValue t * 10 ^ k := by
  rw [decimalValue, List.map_append, List.map_replicate, ascii_unit (by decide), Nat.ofDigitChars_append,
    Nat.ofDigitChars_replicate_zero, Nat.mul_comm]
  rfl

/-- The zeros at the end of a fraction do not count. -/
theorem micros_fractionOf (m : Nat) : Stamp.micros (fractionOf m) = m % 1000000 := by
  rw [Stamp.micros, fractionOf]
  dsimp only
  split
  · next h =>
    rw [h]
    decide
  · have hlength : (padStart 6 (decimal (m % 1000000))).length = 6 :=
      length_padStart (by decide) (Nat.mod_lt _ (by decide))
    have hzeros : (padStart 6 (decimal (m % 1000000))).rtakeWhile (fun u => u == unit '0') =
        List.replicate (6 - ((padStart 6 (decimal (m % 1000000))).rdropWhile fun u => u == unit '0').length)
          (unit '0') := by
      refine List.eq_replicate_iff.mpr ⟨?_, fun u hu => by simpa using List.mem_rtakeWhile_imp hu⟩
      have hsplit : (_ ++ (padStart 6 (decimal (m % 1000000))).rtakeWhile fun u => u == unit '0') = _ :=
        List.rdropWhile_append_rtakeWhile
      rw [← hsplit, List.length_append] at hlength
      omega
    rw [← decimalValue_append_zeros, ← hzeros, List.rdropWhile_append_rtakeWhile, decimalValue_padStart]

theorem zone_of (zone : Zone) (t : Timestamp) :
    (Stamp.of zone t).zone = zone.seconds ∧ (Stamp.of zone t).ZoneInRange := by
  obtain ⟨hlow, hhigh⟩ := zone.bound
  have hhours : zone.seconds.natAbs / 3600 % 10 ^ 2 = zone.seconds.natAbs / 3600 := Nat.mod_eq_of_lt (by omega)
  have hminutes : zone.seconds.natAbs / 60 % 60 % 10 ^ 2 = zone.seconds.natAbs / 60 % 60 := Nat.mod_eq_of_lt (by omega)
  have hseconds : zone.seconds.natAbs % 60 % 10 ^ 2 = zone.seconds.natAbs % 60 := Nat.mod_eq_of_lt (by omega)
  have hparts : (Stamp.of zone t).zoneHours.val = zone.seconds.natAbs / 3600 ∧
      (Stamp.of zone t).zoneMinutes = zone.seconds.natAbs / 60 % 60 ∧
      (Stamp.of zone t).zoneSeconds = zone.seconds.natAbs % 60 := by
    refine ⟨hhours, ?_, ?_⟩
    · rw [Stamp.zoneMinutes, Stamp.of]
      dsimp only
      split
      · exact hminutes
      · split
        · exact hminutes
        · next hnone => simpa using (Decidable.not_not.mp hnone).symm
    · rw [Stamp.zoneSeconds, Stamp.of]
      dsimp only
      split
      · exact hseconds
      · next hnone =>
        have hzero := Decidable.not_not.mp hnone
        split <;> simpa using hzero.symm
  constructor
  · rw [Stamp.zone, hparts.1, hparts.2.1, hparts.2.2]
    show (if decide (zone.seconds < 0) = true then _ else _) = zone.seconds
    simp only [decide_eq_true_iff]
    split <;> omega
  · rw [Stamp.ZoneInRange, hparts.1, hparts.2.1, hparts.2.2]
    omega

theorem date_of {zone : Zone} {t : Timestamp} (hyear : 1 ≤ yearIn zone t ∧ yearIn zone t ≤ 9999) :
    (Stamp.of zone t).date = Date.civil ((t + zone.seconds * 1000000) / 86400000000) := by
  rw [yearIn] at hyear
  have hbounds := Date.civil_bounds ((t + zone.seconds * 1000000) / 86400000000)
  rw [Stamp.date, Stamp.of]
  dsimp only
  generalize Date.civil ((t + zone.seconds * 1000000) / 86400000000) = c at *
  rw [Fin.val_ofNat, Fin.val_ofNat, Fin.val_ofNat, Nat.mod_eq_of_lt (by omega), Nat.mod_eq_of_lt (by omega),
    Nat.mod_eq_of_lt (by omega), Int.toNat_of_nonneg (by omega)]

theorem time_of (zone : Zone) (t : Timestamp) :
    (Stamp.of zone t).TimeInRange ∧
      (Stamp.of zone t).hour.val * 3600 + (Stamp.of zone t).minute.val * 60 + (Stamp.of zone t).second.val =
        ((t + zone.seconds * 1000000) / 1000000 % 86400).toNat := by
  have hday : ((t + zone.seconds * 1000000) / 1000000 % 86400).toNat < 86400 := by omega
  rw [Stamp.TimeInRange, Stamp.of]
  dsimp only
  generalize ((t + zone.seconds * 1000000) / 1000000 % 86400).toNat = second at *
  have hhour : second / 3600 % 10 ^ 2 = second / 3600 := Nat.mod_eq_of_lt (by omega)
  have hminute : second / 60 % 60 % 10 ^ 2 = second / 60 % 60 := Nat.mod_eq_of_lt (by omega)
  have hsecond : second % 60 % 10 ^ 2 = second % 60 := Nat.mod_eq_of_lt (by omega)
  rw [Fin.val_ofNat, Fin.val_ofNat, Fin.val_ofNat, hhour, hminute, hsecond]
  omega

/-- Postgres renders what it casts. -/
theorem castable_of {zone : Zone} {t : Timestamp} (hyear : 1 ≤ yearIn zone t ∧ yearIn zone t ≤ 9999) :
    (Stamp.of zone t).Castable := by
  refine ⟨?_, ?_, ?_, (zone_of zone t).2⟩
  · have hdate := congrArg Date.Civil.year (date_of hyear)
    have hlow := hyear.1
    rw [yearIn, ← hdate] at hlow
    exact Int.ofNat_le.mp hlow
  · rw [date_of hyear]
    exact Date.isDate_civil _
  · exact (time_of zone t).1

/-- A wall clock is put together from its parts. -/
theorem wall_eq {wall zone : Int} {hour minute second : Nat}
    (htime : hour * 3600 + minute * 60 + second = (wall / 1000000 % 86400).toNat) :
    (wall / 86400000000 * 86400 + hour * 3600 + minute * 60 + second - zone) * 1000000 +
      ((wall % 1000000).toNat % 1000000 : Nat) = wall - zone * 1000000 := by
  have hdays : wall / 86400000000 = wall / 1000000 / 86400 := by
    rw [Int.ediv_ediv_of_nonneg (by decide)]
    rfl
  rw [hdays]
  omega

theorem timestamp_of {zone : Zone} {t : Timestamp} (hyear : 1 ≤ yearIn zone t ∧ yearIn zone t ≤ 9999) :
    (Stamp.of zone t).timestamp = t := by
  have hmicros : Stamp.micros (Stamp.of zone t).fraction = ((t + zone.seconds * 1000000) % 1000000).toNat % 1000000 :=
    micros_fractionOf _
  rw [Stamp.timestamp, date_of hyear, Date.dayNumber_civil, (zone_of zone t).1, hmicros]
  exact (wall_eq (time_of zone t).2).trans (Int.add_sub_cancel t _)

/-- **The cast reads back what is rendered.** -/
theorem timestamptzIn_out {zone : Zone} {t : Timestamp} (hyear : 1 ≤ yearIn zone t ∧ yearIn zone t ≤ 9999) :
    timestamptzIn (timestamptzOut zone t) = some t := by
  rw [timestamptzIn, timestamptzOut, Stamp.read_eq_some.mpr rfl]
  dsimp only
  rw [if_pos (castable_of hyear), timestamp_of hyear]

end FinSight
