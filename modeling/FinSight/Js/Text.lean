import Mathlib.Data.Nat.Digits.Defs
import Mathlib.Data.List.Basic

/-!
# Strings of the service: UTF-16 code units, decimals, uuids

JavaScript strings are sequences of UTF-16 code units; the text columns hold the same strings.

* `text` : a literal as code units; `lowerCase` : of an ASCII code unit;
* `decimal`, `decimalInt` : `String(n)` of a bigint, `padStart`;
* `Uuid` : a uuid column, 128 bits; `UuidText` : a uuid as a request spells it (either letter
  case); `UuidText.uuid` is the value Postgres stores, `Uuid.spelled` the lower-case text it answers with.
-/

namespace FinSight

/-- A UTF-16 code unit. -/
abbrev CodeUnit := UInt16

/-- A JavaScript string. -/
abbrev Text := List CodeUnit

/-- A character below `2^16` as its code unit. -/
def unit (c : Char) : CodeUnit := UInt16.ofNat c.toNat

/-- UTF-16 of one character: itself, or a surrogate pair. -/
def utf16 (c : Char) : Text :=
  if c.toNat < 0x10000 then [unit c]
  else [UInt16.ofNat (0xD800 + (c.toNat - 0x10000) / 0x400), UInt16.ofNat (0xDC00 + (c.toNat - 0x10000) % 0x400)]

def text (s : String) : Text := s.toList.flatMap utf16

def newline : Text := text "\n"

/-- `toLowerCase` of an ASCII code unit; the flag `i` of a pattern of ASCII letters compares so. -/
def lowerCase (u : CodeUnit) : CodeUnit := if unit 'A' ≤ u ∧ u ≤ unit 'Z' then u + 32 else u

/-- What is said of all elements of a list is decided along the list, also where their type is finite. -/
instance (priority := 2000) decidableForallMem {α : Type} {P : α → Prop} [DecidablePred P] (l : List α) : Decidable (∀ a ∈ l, P a) :=
  List.decidableBAll P l

/-! ## Decimals -/

/-- The character of an ASCII code unit. -/
def ascii (u : CodeUnit) : Char := Char.ofNat u.toNat

theorem toNat_unit {c : Char} (h : c.toNat < 128) : (unit c).toNat = c.toNat := by
  simp only [unit, UInt16.toNat_ofNat']
  exact Nat.mod_eq_of_lt (by omega)

theorem ascii_unit {c : Char} (h : c.toNat < 128) : ascii (unit c) = c := by
  rw [ascii, toNat_unit h]
  exact Char.ofNat_toNat c

theorem isDigit_iff {c : Char} : c.isDigit = true ↔ 48 ≤ c.toNat ∧ c.toNat ≤ 57 := by
  simp only [Char.isDigit, Bool.and_eq_true, decide_eq_true_eq, ge_iff_le, UInt32.le_iff_toNat_le]
  rfl

theorem isDigit_lt {c : Char} (h : c.isDigit = true) : c.toNat < 128 := by
  have := isDigit_iff.mp h
  omega

/-- `String(n)` of a non-negative bigint. -/
def decimal (n : Nat) : Text := (Nat.toDigits 10 n).map unit

/-- `String(z)` of a bigint. -/
def decimalInt : Int → Text
  | .ofNat n => decimal n
  | .negSucc n => unit '-' :: decimal (n + 1)

/-- `t.padStart(width, "0")`. -/
def padStart (width : Nat) (t : Text) : Text := List.replicate (width - t.length) (unit '0') ++ t

/-- The value of a string of decimal digits. -/
def decimalValue (t : Text) : Nat := Nat.ofDigitChars 10 (t.map ascii) 0

/-- `BigInt(t)` of a decimal, with or without a sign. -/
def decimalIntValue (t : Text) : Int :=
  if t.head? = some (unit '-') then -decimalValue t.tail else decimalValue t

theorem map_ascii_decimal (n : Nat) : (decimal n).map ascii = Nat.toDigits 10 n := by
  rw [decimal, List.map_map]
  conv_rhs => rw [← List.map_id (Nat.toDigits 10 n)]
  refine List.map_congr_left fun c hc => ?_
  exact ascii_unit (isDigit_lt (Nat.isDigit_of_mem_toDigits (by decide) (by decide) hc))

@[simp] theorem decimalValue_decimal (n : Nat) : decimalValue (decimal n) = n := by
  rw [decimalValue, map_ascii_decimal, Nat.ofDigitChars_ten_toDigits]

theorem decimal_injective : Function.Injective decimal := fun m n h => by
  have := congrArg decimalValue h
  simpa using this

/-- Leading zeros do not change the value. -/
theorem decimalValue_padStart (width n : Nat) : decimalValue (padStart width (decimal n)) = n := by
  rw [decimalValue, padStart, List.map_append, map_ascii_decimal, List.map_replicate,
    ascii_unit (by decide), Nat.ofDigitChars_append, Nat.ofDigitChars_replicate_zero, Nat.mul_zero,
    Nat.ofDigitChars_ten_toDigits]

theorem padStart_decimal_injective (width : Nat) : Function.Injective fun n => padStart width (decimal n) :=
  fun m n h => by
    have := congrArg decimalValue h
    simpa only [decimalValue_padStart] using this

/-- The code units of decimals: `0` to `9`. -/
def IsDigit (u : CodeUnit) : Prop := 48 ≤ u.toNat ∧ u.toNat ≤ 57

instance (u : CodeUnit) : Decidable (IsDigit u) := inferInstanceAs (Decidable (_ ∧ _))

theorem isDigit_unit {c : Char} (h : c.isDigit = true) : IsDigit (unit c) := by
  rw [IsDigit, toNat_unit (isDigit_lt h)]
  exact isDigit_iff.mp h

theorem isDigit_of_mem_decimal {n : Nat} {u : CodeUnit} (h : u ∈ decimal n) : IsDigit u := by
  obtain ⟨c, hc, rfl⟩ := List.mem_map.mp h
  exact isDigit_unit (Nat.isDigit_of_mem_toDigits (by decide) (by decide) hc)

theorem isDigit_of_mem_padStart {width n : Nat} {u : CodeUnit} (h : u ∈ padStart width (decimal n)) : IsDigit u := by
  rcases List.mem_append.mp h with h | h
  · rw [List.eq_of_mem_replicate h]
    decide
  · exact isDigit_of_mem_decimal h

theorem decimal_ne_nil (n : Nat) : decimal n ≠ [] := by
  simp [decimal, Nat.toDigits_ne_nil]

theorem length_padStart {width n : Nat} (hwidth : 0 < width) (h : n < 10 ^ width) :
    (padStart width (decimal n)).length = width := by
  have hlen : (decimal n).length ≤ width := by
    rw [decimal, List.length_map]
    exact (Nat.length_toDigits_le_iff (by decide) hwidth).mpr h
  rw [padStart, List.length_append, List.length_replicate]
  omega

/-- A padded number is read off the front of a text. -/
theorem padStart_append_inj {width m n : Nat} (hwidth : 0 < width) (hm : m < 10 ^ width) (hn : n < 10 ^ width)
    {u u' : CodeUnit} {r r' : Text} (h : padStart width (decimal m) ++ u :: r = padStart width (decimal n) ++ u' :: r') :
    m = n ∧ r = r' := by
  obtain ⟨hhead, htail⟩ := List.append_inj h (by rw [length_padStart hwidth hm, length_padStart hwidth hn])
  exact ⟨padStart_decimal_injective width hhead, (List.cons.inj htail).2⟩

@[simp] theorem decimalIntValue_decimalInt (z : Int) : decimalIntValue (decimalInt z) = z := by
  cases z with
  | ofNat n =>
      have hhead : (decimal n).head? ≠ some (unit '-') := fun h =>
        absurd (isDigit_of_mem_decimal (List.mem_of_head? h)) (by decide)
      rw [decimalInt, decimalIntValue, if_neg hhead, decimalValue_decimal]
      rfl
  | negSucc n =>
      rw [decimalInt, decimalIntValue, if_pos List.head?_cons, List.tail_cons, decimalValue_decimal]
      rfl

theorem decimalInt_injective : Function.Injective decimalInt := fun a b h => by
  have := congrArg decimalIntValue h
  simpa using this

/-! ## Uuids -/

/-- A uuid column. -/
structure Uuid where
  bits : BitVec 128
  deriving DecidableEq, Repr

/-- The value of a hexadecimal digit, in either letter case. -/
def hexValue (u : CodeUnit) : Option (Fin 16) :=
  if unit '0' ≤ u ∧ u ≤ unit '9' then some (Fin.ofNat 16 (u.toNat - 48))
  else if unit 'a' ≤ u ∧ u ≤ unit 'f' then some (Fin.ofNat 16 (u.toNat - 87))
  else if unit 'A' ≤ u ∧ u ≤ unit 'F' then some (Fin.ofNat 16 (u.toNat - 55))
  else none

/-- The lower-case hexadecimal digit of a value. -/
def hexDigit (d : Fin 16) : CodeUnit := unit (Nat.digitChar d)

@[simp] theorem hexValue_hexDigit (d : Fin 16) : hexValue (hexDigit d) = some d := by
  revert d
  decide

/-- The 32 hexadecimal digits of a uuid in text, without its dashes. -/
structure UuidText where
  hex : Text
  valid : hex.length = 32 ∧ ∀ u ∈ hex, (hexValue u).isSome
  deriving DecidableEq

/-- The value of a list of hexadecimal digits. -/
def ofNibbles (ds : List (Fin 16)) : Nat := ds.foldl (fun acc d => 16 * acc + d.val) 0

/-- The last `k` hexadecimal digits of a number. -/
def nibbles : Nat → Nat → List (Fin 16)
  | 0, _ => []
  | k + 1, n => nibbles k (n / 16) ++ [Fin.ofNat 16 n]

theorem length_nibbles (k n : Nat) : (nibbles k n).length = k := by
  induction k generalizing n with
  | zero => rfl
  | succ k ih => simp [nibbles, ih]

theorem ofNibbles_nibbles (k n : Nat) : ofNibbles (nibbles k n) = n % 16 ^ k := by
  induction k generalizing n with
  | zero => simp [nibbles, ofNibbles, Nat.mod_one]
  | succ k ih =>
      have hn : ofNibbles (nibbles (k + 1) n) = 16 * ofNibbles (nibbles k (n / 16)) + n % 16 := by
        simp [nibbles, ofNibbles, List.foldl_append]
      rw [hn, ih, pow_succ', Nat.mod_mul]
      omega

namespace UuidText

/-- A version digit from `1` to `8` and a variant digit from `8` to `b`: `z.string().uuid()` accepts these ids, and of the others
only all zeros and all `f`s. Requests are modelled with any `UuidText`. -/
def Versioned (t : UuidText) : Prop := t.hex.getD 12 0 ∈ text "12345678" ∧ t.hex.getD 16 0 ∈ text "89abAB"

instance (t : UuidText) : Decidable t.Versioned := inferInstanceAs (Decidable (_ ∧ _))

/-- The value Postgres reads from the text: letter case does not matter. -/
def uuid (t : UuidText) : Uuid := ⟨BitVec.ofNat 128 (ofNibbles (t.hex.filterMap hexValue))⟩

/-- The string itself: groups of 8, 4, 4, 4 and 12 digits. -/
def text (t : UuidText) : Text :=
  t.hex.take 8 ++ unit '-' :: ((t.hex.drop 8).take 4 ++ unit '-' :: ((t.hex.drop 12).take 4 ++
    unit '-' :: ((t.hex.drop 16).take 4 ++ unit '-' :: t.hex.drop 20)))

theorem length_text (t : UuidText) : t.text.length = 36 := by
  have hlen := t.valid.1
  simp only [text, List.length_append, List.length_cons, List.length_take, List.length_drop]
  omega

theorem text_injective : Function.Injective text := by
  rintro ⟨a, ha, ha'⟩ ⟨b, hb, hb'⟩ h
  simp only [text] at h
  obtain ⟨h₁, h⟩ := List.append_inj h (by simp [ha, hb])
  obtain ⟨h₂, h⟩ := List.append_inj (List.cons.inj h).2 (by simp [ha, hb])
  obtain ⟨h₃, h⟩ := List.append_inj (List.cons.inj h).2 (by simp [ha, hb])
  obtain ⟨h₄, h⟩ := List.append_inj (List.cons.inj h).2 (by simp [ha, hb])
  have h₅ := (List.cons.inj h).2
  have e₄ : a.drop 16 = b.drop 16 := by
    rw [← List.take_append_drop 4 (a.drop 16), ← List.take_append_drop 4 (b.drop 16), h₄,
      List.drop_drop, List.drop_drop, h₅]
  have e₃ : a.drop 12 = b.drop 12 := by
    rw [← List.take_append_drop 4 (a.drop 12), ← List.take_append_drop 4 (b.drop 12), h₃,
      List.drop_drop, List.drop_drop, e₄]
  have e₂ : a.drop 8 = b.drop 8 := by
    rw [← List.take_append_drop 4 (a.drop 8), ← List.take_append_drop 4 (b.drop 8), h₂,
      List.drop_drop, List.drop_drop, e₃]
  have e₁ : a = b := by
    rw [← List.take_append_drop 8 a, ← List.take_append_drop 8 b, h₁, e₂]
  subst e₁
  rfl

end UuidText

namespace Uuid

/-- How Postgres renders a uuid: lower case. -/
def spelled (u : Uuid) : UuidText where
  hex := (nibbles 32 u.bits.toNat).map hexDigit
  valid := by
    refine ⟨by rw [List.length_map, length_nibbles], fun c hc => ?_⟩
    obtain ⟨d, -, rfl⟩ := List.mem_map.mp hc
    simp

def text (u : Uuid) : Text := u.spelled.text

@[simp] theorem uuid_spelled (u : Uuid) : u.spelled.uuid = u := by
  have hhex : u.spelled.hex.filterMap hexValue = nibbles 32 u.bits.toNat := by
    simp [spelled, List.filterMap_map]
  have hlt : u.bits.toNat < 16 ^ 32 := u.bits.isLt
  rw [UuidText.uuid, hhex, ofNibbles_nibbles, Nat.mod_eq_of_lt hlt, BitVec.ofNat_toNat]
  rfl

theorem spelled_injective : Function.Injective spelled :=
  fun u v h => by rw [← uuid_spelled u, h, uuid_spelled]

theorem text_injective : Function.Injective text :=
  fun _ _ h => spelled_injective (UuidText.text_injective h)

end Uuid

end FinSight
