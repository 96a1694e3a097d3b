import FinSight.Js.Text

/-!
# Integers that are JavaScript numbers

* `roundDouble` : the double next to an integer;
* `JsInteger` : an integer that a double holds, `JsInteger.text` : what `String` and `JSON.stringify` make of it, the
  shortest decimal that reads as the same double, in exponent form from `10^21` on;
* `JsInteger.text_injective` : the text determines the number.
-/

namespace FinSight

/-- The value of the double nearest to `n`: 53 significant bits, ties to even. -/
def roundDouble (n : Nat) : Nat :=
  let ulp := 2 ^ (n.log2 - 52)
  if 2 * (n % ulp) < ulp ∨ (2 * (n % ulp) = ulp ∧ n / ulp % 2 = 0) then n / ulp * ulp else (n / ulp + 1) * ulp

/-- A number without a fraction; `-0` is written like `0`. -/
structure JsInteger where
  value : Int
  double : roundDouble value.natAbs = value.natAbs
  finite : value.natAbs < 2 ^ 1024
  deriving DecidableEq

/-- A multiple of `10^m` that reads as `x`, the nearest one if there are two. -/
def multipleReadAs (x m : Nat) : Option Nat :=
  let p := 10 ^ m
  let below := x / p
  let candidates :=
    if 2 * (x % p) < p ∨ (2 * (x % p) = p ∧ below % 2 = 0) then [below, below + 1] else [below + 1, below]
  candidates.find? fun s => roundDouble (s * p) = x

/-- `(s, m)` where `s * 10^m` reads as `x`, `m` being the largest up to the argument. -/
def shortest (x : Nat) : Nat → Nat × Nat
  | 0 => (x, 0)
  | m + 1 =>
      match multipleReadAs x (m + 1) with
      | some s => (s, m + 1)
      | none => shortest x m

/-- `Number::toString` of `s * 10^m`. -/
def digitsText (s m : Nat) : Text :=
  let digits := decimal s
  if digits.length + m ≤ 21 then digits ++ List.replicate m (unit '0')
  else
    let fraction := if digits.tail = [] then [] else unit '.' :: digits.tail
    digits.take 1 ++ fraction ++ unit 'e' :: unit '+' :: decimal (digits.length + m - 1)

def naturalText (x : Nat) : Text :=
  if x = 0 then text "0"
  else
    let (s, m) := shortest x (decimal x).length
    digitsText s m

def JsInteger.text (n : JsInteger) : Text :=
  if n.value < 0 then unit '-' :: naturalText n.value.natAbs else naturalText n.value.natAbs

example : naturalText 9007199254740994 = text "9007199254740994" := by decide +kernel
example : naturalText 1152921504606846976 = text "1152921504606847000" := by decide +kernel
example : naturalText 99999999999999991611392 = text "1e+23" := by decide +kernel
example : naturalText (2 ^ 80) = text "1.2089258196146292e+24" := by decide +kernel

/-! ## The text determines the number -/

theorem multipleReadAs_reads {x m s : Nat} (h : multipleReadAs x m = some s) : roundDouble (s * 10 ^ m) = x := by
  have hreads := List.find?_some h
  exact of_decide_eq_true hreads

/-- What is written reads as the number. -/
theorem shortest_reads {x : Nat} (hx : roundDouble x = x) (m : Nat) :
    roundDouble ((shortest x m).1 * 10 ^ (shortest x m).2) = x := by
  induction m with
  | zero => rwa [shortest, Nat.pow_zero, Nat.mul_one]
  | succ m ih =>
      rw [shortest]
      split
      · next s hs => exact multipleReadAs_reads hs
      · exact ih

theorem decimalValue_zeros (s m : Nat) : decimalValue (decimal s ++ List.replicate m (unit '0')) = s * 10 ^ m := by
  rw [decimalValue, List.map_append, map_ascii_decimal, List.map_replicate, ascii_unit (by decide),
    Nat.ofDigitChars_append, Nat.ofDigitChars_replicate_zero, Nat.ofDigitChars_ten_toDigits, Nat.mul_comm]

/-- Plain digits, or digits up to an `e`. -/
theorem digitsText_cases (s m : Nat) :
    (digitsText s m = decimal s ++ List.replicate m (unit '0')) ∨
      ∃ mantissa, digitsText s m = mantissa ++ unit 'e' :: unit '+' :: decimal ((decimal s).length + m - 1) ∧
        mantissa.filter (fun u => decide (IsDigit u)) = decimal s ∧ unit 'e' ∉ mantissa ∧
        21 < (decimal s).length + m := by
  unfold digitsText
  dsimp only
  split
  · exact Or.inl rfl
  · next hlong =>
    obtain ⟨u, w, hcons⟩ := List.exists_cons_of_ne_nil (decimal_ne_nil s)
    have hdigit : ∀ v ∈ u :: w, IsDigit v := fun v hv => isDigit_of_mem_decimal (n := s) (hcons ▸ hv)
    have hkeep : (u :: w).filter (fun v => decide (IsDigit v)) = u :: w :=
      List.filter_eq_self.mpr fun v hv => decide_eq_true (hdigit v hv)
    have he : unit 'e' ∉ u :: w := fun h => absurd (hdigit _ h) (by decide)
    refine Or.inr ⟨_, rfl, ?_, ?_, Nat.lt_of_not_le hlong⟩
    · rw [hcons]
      by_cases hw : w = []
      · subst hw
        exact hkeep
      · rw [List.tail_cons, if_neg hw, List.filter_append, List.filter_cons_of_neg (by decide), ← List.filter_append]
        exact hkeep
    · rw [hcons]
      by_cases hw : w = []
      · subst hw
        exact he
      · rw [List.tail_cons, if_neg hw, List.mem_append, List.mem_cons]
        rintro (h | h | h)
        · exact he (List.mem_of_mem_take h)
        · exact absurd h (by decide)
        · exact he (List.mem_cons_of_mem _ h)

/-- Where two texts are the same, so is what they stand for. -/
theorem digitsText_injective {s s' m m' : Nat} (h : digitsText s m = digitsText s' m') : s * 10 ^ m = s' * 10 ^ m' := by
  have hplain : ∀ {s m : Nat}, unit 'e' ∉ decimal s ++ List.replicate m (unit '0') := by
    intro s m hmem
    rcases List.mem_append.mp hmem with hmem | hmem
    · exact absurd (isDigit_of_mem_decimal hmem) (by decide)
    · exact absurd (List.eq_of_mem_replicate hmem) (by decide)
  have hexponent : ∀ {n : Nat}, unit 'e' ∉ unit '+' :: decimal n := by
    intro n hmem
    rcases List.mem_cons.mp hmem with hmem | hmem
    · exact absurd hmem (by decide)
    · exact absurd (isDigit_of_mem_decimal hmem) (by decide)
  rcases digitsText_cases s m with hs | ⟨mantissa, hs, hdigits, he, hlong⟩
  · rcases digitsText_cases s' m' with hs' | ⟨mantissa', hs', -, -, -⟩
    · rw [← decimalValue_zeros, ← decimalValue_zeros, ← hs, ← hs', h]
    · rw [hs, hs'] at h
      exact absurd (h ▸ List.mem_append_right _ List.mem_cons_self) hplain
  · rcases digitsText_cases s' m' with hs' | ⟨mantissa', hs', hdigits', he', hlong'⟩
    · rw [hs, hs'] at h
      exact absurd (h.symm ▸ List.mem_append_right _ List.mem_cons_self) hplain
    · rw [hs, hs', List.append_cons_inj_of_notMem he hexponent] at h
      obtain ⟨hmantissa, -, hrest⟩ := h
      have hlength := decimal_injective (List.cons.inj hrest).2
      have hsame : s = s' := decimal_injective (by rw [← hdigits, ← hdigits', hmantissa])
      subst hsame
      rw [show m = m' by omega]

/-- What is written of a double reads as it. -/
theorem naturalText_eq {x : Nat} (hx : roundDouble x = x) :
    ∃ s m, naturalText x = digitsText s m ∧ roundDouble (s * 10 ^ m) = x := by
  by_cases h : x = 0
  · exact ⟨0, 0, by rw [naturalText, if_pos h]; decide, by rw [h]; decide⟩
  · exact ⟨_, _, by rw [naturalText, if_neg h], shortest_reads hx _⟩

theorem naturalText_injective {x y : Nat} (hx : roundDouble x = x) (hy : roundDouble y = y)
    (h : naturalText x = naturalText y) : x = y := by
  obtain ⟨s, m, hs, hreads⟩ := naturalText_eq hx
  obtain ⟨s', m', hs', hreads'⟩ := naturalText_eq hy
  rw [hs, hs'] at h
  rw [← hreads, ← hreads', digitsText_injective h]

/-- The code units of numbers. -/
def IsNumeric (u : CodeUnit) : Prop := IsDigit u ∨ u ∈ text "-.e+"

theorem digitsText_head (s m : Nat) : ∃ u t, digitsText s m = u :: t ∧ IsDigit u := by
  obtain ⟨u, w, hcons⟩ := List.exists_cons_of_ne_nil (decimal_ne_nil s)
  have hu : IsDigit u := isDigit_of_mem_decimal (n := s) (hcons ▸ List.mem_cons_self)
  unfold digitsText
  rw [hcons]
  dsimp only
  split
  · exact ⟨u, _, rfl, hu⟩
  · exact ⟨u, _, rfl, hu⟩

theorem isNumeric_digitsText {s m : Nat} : ∀ u ∈ digitsText s m, IsNumeric u := by
  intro u hu
  have hdigit : ∀ {n : Nat}, u ∈ decimal n → IsNumeric u := fun h => Or.inl (isDigit_of_mem_decimal h)
  have hsign : ∀ {c : Char}, unit c ∈ text "-.e+" → u = unit c → IsNumeric u := fun hc h => Or.inr (h ▸ hc)
  unfold digitsText at hu
  dsimp only at hu
  split at hu
  · rcases List.mem_append.mp hu with hu | hu
    · exact hdigit hu
    · exact Or.inl (List.eq_of_mem_replicate hu ▸ by decide)
  · rcases List.mem_append.mp hu with hu | hu
    · rcases List.mem_append.mp hu with hu | hu
      · exact hdigit (List.mem_of_mem_take hu)
      · split at hu
        · cases hu
        · rcases List.mem_cons.mp hu with hu | hu
          · exact hsign (by decide) hu
          · exact hdigit (List.mem_of_mem_tail hu)
    · rcases List.mem_cons.mp hu with hu | hu
      · exact hsign (by decide) hu
      · rcases List.mem_cons.mp hu with hu | hu
        · exact hsign (by decide) hu
        · exact hdigit hu

namespace JsInteger

/-- A number begins with a digit, or with a sign before one. -/
theorem text_cases (n : JsInteger) : ∃ u t, naturalText n.value.natAbs = u :: t ∧ IsDigit u ∧
    ((n.value < 0 ∧ n.text = unit '-' :: u :: t) ∨ (0 ≤ n.value ∧ n.text = u :: t)) := by
  obtain ⟨s, m, hs, -⟩ := naturalText_eq n.double
  obtain ⟨u, t, hcons, hu⟩ := digitsText_head s m
  rw [hcons] at hs
  refine ⟨u, t, hs, hu, ?_⟩
  unfold text
  rw [hs]
  split
  · next hneg => exact Or.inl ⟨hneg, rfl⟩
  · next hpos => exact Or.inr ⟨Int.not_lt.mp hpos, rfl⟩

theorem isNumeric_text (n : JsInteger) : ∀ u ∈ n.text, IsNumeric u := by
  obtain ⟨s, m, hs, -⟩ := naturalText_eq n.double
  intro u hu
  unfold text at hu
  rw [hs] at hu
  split at hu
  · rcases List.mem_cons.mp hu with rfl | hu
    · exact Or.inr (by decide)
    · exact isNumeric_digitsText u hu
  · exact isNumeric_digitsText u hu

theorem text_injective : Function.Injective text := by
  intro a b h
  have hvalue : a.value = b.value := by
    obtain ⟨u, t, ha, hu, ha'⟩ := a.text_cases
    obtain ⟨v, w, hb, hv, hb'⟩ := b.text_cases
    have habs : naturalText a.value.natAbs = naturalText b.value.natAbs → a.value.natAbs = b.value.natAbs :=
      naturalText_injective a.double b.double
    have hminus : ∀ {x : CodeUnit}, IsDigit x → x ≠ unit '-' := by
      rintro x hx rfl
      exact absurd hx (by decide)
    rcases ha' with ⟨hneg, ha'⟩ | ⟨hpos, ha'⟩
    · rcases hb' with ⟨hneg', hb'⟩ | ⟨_, hb'⟩
      · rw [ha', hb'] at h
        have heq := habs (by rw [ha, hb, (List.cons.inj h).2])
        omega
      · rw [ha', hb'] at h
        exact absurd (List.cons.inj h).1.symm (hminus hv)
    · rcases hb' with ⟨_, hb'⟩ | ⟨hpos', hb'⟩
      · rw [ha', hb'] at h
        exact absurd (List.cons.inj h).1 (hminus hu)
      · rw [ha', hb'] at h
        have heq := habs (by rw [ha, hb, h])
        omega
  cases a
  cases b
  cases hvalue
  rfl

end JsInteger

end FinSight
