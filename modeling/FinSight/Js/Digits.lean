import FinSight.Js.Text
import FinSight.Scanning.Reader
import Mathlib.Data.List.Induction

/-!
# Numbers of a fixed width

* `decimalValue_lt`, `eq_of_decimalValue` : digits of one length and their values;
* `readDigits` : `\d{n}` at the start of a text; `reads_digits` : it reads what `padStart` writes.
-/

namespace FinSight
open Scanning

theorem decimalValue_append_digit (t : Text) {u : CodeUnit} (hu : IsDigit u) :
    decimalValue (t ++ [u]) = 10 * decimalValue t + (u.toNat - 48) := by
  have hchar : (ascii u).toNat = u.toNat := by
    rw [ascii, Char.ofNat, dif_pos (by rw [Nat.isValidChar]; have := hu.2; omega)]
    rfl
  rw [decimalValue, List.map_append, Nat.ofDigitChars_append, List.map_singleton, Nat.ofDigitChars_cons,
    Nat.ofDigitChars_nil, hchar]
  rfl

/-- Digits are less than a power of ten. -/
theorem decimalValue_lt {t : Text} (h : ∀ u ∈ t, IsDigit u) : decimalValue t < 10 ^ t.length := by
  induction t using List.reverseRecOn with
  | nil => decide
  | append_singleton t u ih =>
      have hu := h u (List.mem_append_right t (List.mem_singleton_self u))
      have ht := ih fun v hv => h v (List.mem_append_left _ hv)
      rw [decimalValue_append_digit t hu, List.length_append, List.length_singleton, pow_succ]
      have hdigit := hu.2
      omega

/-- Digits of one length and one value are the same. -/
theorem eq_of_decimalValue {t t' : Text} (h : ∀ u ∈ t, IsDigit u) (h' : ∀ u ∈ t', IsDigit u)
    (hlength : t.length = t'.length) (hvalue : decimalValue t = decimalValue t') : t = t' := by
  induction t using List.reverseRecOn generalizing t' with
  | nil => exact (List.length_eq_zero_iff.mp hlength.symm).symm
  | append_singleton t u ih =>
      obtain rfl | ⟨s, v, rfl⟩ := List.eq_nil_or_concat t'
      · simp at hlength
      · rw [List.concat_eq_append] at *
        have hu := h u (List.mem_append_right t (List.mem_singleton_self u))
        have hv := h' v (List.mem_append_right s (List.mem_singleton_self v))
        rw [decimalValue_append_digit t hu, decimalValue_append_digit s hv] at hvalue
        obtain ⟨hulow, huhigh⟩ := hu
        obtain ⟨hvlow, hvhigh⟩ := hv
        have huv : u = v := UInt16.toNat_inj.mp (by omega)
        have hts : t = s := ih (fun w hw => h w (List.mem_append_left _ hw))
          (fun w hw => h' w (List.mem_append_left _ hw)) (by simpa using hlength) (by omega)
        rw [huv, hts]

/-- Digits are the padded text of their value. -/
theorem padStart_decimalValue {t : Text} (hne : t ≠ []) (h : ∀ u ∈ t, IsDigit u) :
    padStart t.length (decimal (decimalValue t)) = t :=
  eq_of_decimalValue (fun _ => isDigit_of_mem_padStart) h
    (length_padStart (List.length_pos_iff.mpr hne) (decimalValue_lt h)) (decimalValue_padStart _ _)

/-- `\d{n}`. -/
def readDigits (n : Nat) : Reader CodeUnit (Fin (10 ^ n)) := fun t =>
  (exactly n (fun u => decide (IsDigit u)) t).map fun (digits, rest) => (Fin.ofNat (10 ^ n) (decimalValue digits), rest)

def digitsOf {n : Nat} (v : Fin (10 ^ n)) : Text := padStart n (decimal v)

theorem reads_digits {n : Nat} (hn : 0 < n) : Reads (readDigits n) digitsOf := by
  intro t v rest
  rw [readDigits, Option.map_eq_some_iff]
  constructor
  · rintro ⟨⟨digits, rest'⟩, htaken, heq⟩
    obtain ⟨rfl, rfl⟩ := Prod.mk.inj heq
    obtain ⟨rfl, rfl, hdigits⟩ := exactly_eq_some.mp htaken
    have hdigits : ∀ u ∈ digits, IsDigit u := fun u hu => of_decide_eq_true (hdigits u hu)
    have hpad := padStart_decimalValue (List.ne_nil_of_length_pos hn) hdigits
    rw [digitsOf, Fin.val_ofNat, Nat.mod_eq_of_lt (decimalValue_lt hdigits), hpad]
  · rintro rfl
    refine ⟨(digitsOf v, rest), exactly_eq_some.mpr ⟨rfl, length_padStart hn v.isLt, ?_⟩, ?_⟩
    · exact fun u hu => decide_eq_true (isDigit_of_mem_padStart hu)
    · show (Fin.ofNat (10 ^ n) (decimalValue (digitsOf v)), rest) = (v, rest)
      rw [digitsOf, decimalValue_padStart, Prod.mk.injEq, ← Fin.val_inj, Fin.val_ofNat, Nat.mod_eq_of_lt v.isLt]
      exact ⟨rfl, rfl⟩

end FinSight
