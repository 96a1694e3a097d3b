import FinSight.Js.Unicode

/-!
# `lib/contentDisposition.js`

The `Content-Disposition` header of a file: a quoted ASCII name, and the full name as an RFC 5987 ext-value.
-/

namespace FinSight.ContentDisposition
open Scanning

def MAX_NAME_LENGTH : Nat := 150

/-- `[\u0000-\u001f\u007f-\u009f]`. -/
def isControl (u : CodeUnit) : Bool := u ≤ 0x1f || (0x7f ≤ u && u ≤ 0x9f)

/-- A name before it is cut: without control characters and path separators, its white space collapsed. -/
def tidyName (name : Option Text) : Text :=
  let name := (name.getD []).filter fun u => !isControl u
  let name := name.map fun u => if u = unit '\\' ∨ u = unit '/' then unit '_' else u
  trim (replaceAll spaces (fun _ => [unit ' ']) name)

def cleanName (name : Option Text) : Text := (tidyName name).take MAX_NAME_LENGTH

/-- `c.charCodeAt(0).toString(16).toUpperCase()` after a `%`. -/
def escapeMark (u : CodeUnit) : Text := if u ∈ text "'()*" then unit '%' :: upperHex u.toNat else [u]

def encodeRfc5987 (value : Text) : Option Text := (encodeURIComponent value).map fun t => t.flatMap escapeMark

inductive DispositionType where
  | inline
  | attachment
  deriving DecidableEq

def DispositionType.text : DispositionType → Text
  | inline => FinSight.text "inline"
  | attachment => FinSight.text "attachment"

/-- Printable ASCII only, without `"` and `\`. -/
def quotable (name : Text) : Text :=
  let ascii := name.map fun u => if 0x20 ≤ u ∧ u ≤ 0x7e then u else unit '_'
  ascii.map fun u => if u = unit '"' ∨ u = unit '\\' then unit '_' else u

/-- `cleanName(baseName) || cleanName(fallbackName)`. -/
def nameOf (baseName fallbackName : Option Text) : Text :=
  if cleanName baseName = [] then cleanName fallbackName else cleanName baseName

/-- The value of the header; none where `encodeURIComponent` throws. -/
def contentDisposition (type : DispositionType) (baseName : Option Text) (extension : Text)
    (fallbackName : Option Text) : Option Text := do
  let name := nameOf baseName fallbackName
  let encoded ← encodeRfc5987 (name ++ extension)
  return type.text ++ text "; filename=\"" ++ (quotable name ++ extension) ++ text "\"; filename*=UTF-8''" ++ encoded

example : contentDisposition .inline (some (text "a\"b\\c/d é")) (text ".pdf") none =
    some (text "inline; filename=\"a_b_c_d _.pdf\"; filename*=UTF-8''a%22b_c_d%20%C3%A9.pdf") := by
  decide +kernel

/-! ## What cleaning keeps -/

theorem isControl_plain {u : CodeUnit} (h : isControl u = true) : IsPlain u := by
  rw [isPlain_iff]
  simp only [isControl, Bool.or_eq_true, Bool.and_eq_true, decide_eq_true_iff, UInt16.le_iff_toNat_le] at h
  have hbound : (0x1f : CodeUnit).toNat = 0x1f ∧ (0x9f : CodeUnit).toNat = 0x9f := by decide
  omega

/-- A name is tidied without breaking a surrogate pair. -/
theorem isWellFormed_tidyName {name : Option Text} (h : isWellFormed (name.getD []) = true) :
    isWellFormed (tidyName name) = true := by
  have hkept := paired_filter (p := fun u => !isControl u)
    (fun u hu => isControl_plain (by simpa using hu)) h
  have hslash : ∀ u : CodeUnit, u = unit '\\' ∨ u = unit '/' → IsPlain u := by
    rintro u (rfl | rfl) <;> decide
  refine isWellFormed_trim (paired_spaces (List.cons_ne_nil _ _) (by decide) (paired_map (fun u => ?_) hkept))
  split
  · next hu => exact .inr ⟨hslash u hu, by decide⟩
  · exact .inl rfl

end FinSight.ContentDisposition
