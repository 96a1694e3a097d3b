import FinSight.Lib.ContentDisposition

/-!
# File names in headers

A name is cut to 150 code units, and a cut that goes through a surrogate pair makes `encodeURIComponent` throw.

* `readsAs_encodeRfc5987` : an ext-value is read back;
* `isWellFormed_cleanName` : a cut keeps a name well-formed unless it goes through a pair;
* `safe_iff` : the header is returned and safe exactly where no pair is cut; `not_always_safe` : some are.
-/

namespace FinSight.ContentDisposition

/-! ## The ext-value -/

theorem isUnreserved_lt {c : Char} (h : isUnreserved c = true) : c.toNat < 128 := by
  rw [isUnreserved, Char.isAlphanum, Bool.or_eq_true, Bool.or_eq_true, List.contains_iff_mem] at h
  rcases h with (h | h) | h
  · change (decide (65 ≤ c.val ∧ c.val ≤ 90) || decide (97 ≤ c.val) && decide (c.val ≤ 122)) = true at h
    simp only [Bool.or_eq_true, Bool.and_eq_true, decide_eq_true_iff, UInt32.le_iff_toNat_le] at h
    change (65 ≤ c.toNat ∧ c.toNat ≤ 90) ∨ 97 ≤ c.toNat ∧ c.toNat ≤ 122 at h
    omega
  · exact isDigit_lt h
  · revert c
    decide

/-- What `encodeURIComponent` leaves is one byte; it stays, or it is one of the marks that are escaped after. -/
theorem unreserved_byte {c : Char} (h : isUnreserved c = true) :
    String.utf8EncodeChar c = [UInt8.ofNat (unit c).toNat] ∧
      (escapeMark (unit c) = percentEncode (UInt8.ofNat (unit c).toNat) ∨
        escapeMark (unit c) = [unit c] ∧ isAttrChar (unit c) = true ∧ unit c ≠ unit '%') := by
  have hall : ∀ n < 128, isUnreserved (Char.ofNat n) = true →
      String.utf8EncodeChar (Char.ofNat n) = [UInt8.ofNat (unit (Char.ofNat n)).toNat] ∧
        (escapeMark (unit (Char.ofNat n)) = percentEncode (UInt8.ofNat (unit (Char.ofNat n)).toNat) ∨
          escapeMark (unit (Char.ofNat n)) = [unit (Char.ofNat n)] ∧ isAttrChar (unit (Char.ofNat n)) = true ∧
            unit (Char.ofNat n) ≠ unit '%') := by
    decide +kernel
  have hchar := hall c.toNat (isUnreserved_lt h)
  rw [Char.ofNat_toNat] at hchar
  exact hchar h

/-- The percent escapes are not escaped again. -/
theorem escapeMark_percentEncode (b : UInt8) : (percentEncode b).flatMap escapeMark = percentEncode b := by
  have hall : ∀ n < 256, (percentEncode (UInt8.ofNat n)).flatMap escapeMark = percentEncode (UInt8.ofNat n) := by
    decide +kernel
  have hbyte := hall b.toNat b.toNat_lt
  rwa [UInt8.ofNat_toNat] at hbyte

theorem readsAs_encodeChar (c : Char) : ReadsAs ((encodeChar c).flatMap escapeMark) (String.utf8EncodeChar c) := by
  rw [encodeChar]
  split
  · next h =>
    obtain ⟨hbyte, hmark | ⟨hkept, hattr, hne⟩⟩ := unreserved_byte h
    · rw [List.flatMap_singleton, hmark, hbyte]
      exact readsAs_percentEncode _
    · rw [List.flatMap_singleton, hkept, hbyte]
      exact readsAs_attrChar hattr hne
  · rw [List.flatMap_assoc, List.flatMap_congr fun b _ => escapeMark_percentEncode b]
    conv => arg 2; rw [← List.flatMap_singleton' (String.utf8EncodeChar c)]
    exact .flatMap fun b _ => readsAs_percentEncode b

theorem encodeRfc5987_eq_none {t : Text} : encodeRfc5987 t = none ↔ isWellFormed t = false := by
  rw [encodeRfc5987, Option.map_eq_none_iff, ← isSome_encodeURIComponent, Option.isSome_eq_false_iff,
    Option.isNone_iff_eq_none]

/-- **An ext-value is read back.** -/
theorem decode_encodeRfc5987 {t encoded : Text} (h : encodeRfc5987 t = some encoded) :
    ∃ bytes, decodeExtValue encoded = some bytes ∧ utf8Decode bytes = some t := by
  rw [encodeRfc5987, encodeURIComponent, Option.map_map, Option.map_eq_some_iff] at h
  obtain ⟨cs, hcs, rfl⟩ := h
  have hreads : ReadsAs (cs.flatMap fun c => (encodeChar c).flatMap escapeMark)
      (cs.flatMap String.utf8EncodeChar) := .flatMap fun c _ => readsAs_encodeChar c
  rw [Function.comp_apply, List.flatMap_assoc]
  exact ⟨_, hreads.decodeExtValue, by rw [utf8Decode_utf8Encode, flatMap_codePoints hcs]⟩

/-! ## The cut -/

/-- The cut at 150 code units goes through a surrogate pair. -/
def CutsPair (name : Option Text) : Prop := ∃ u, (tidyName name)[MAX_NAME_LENGTH - 1]? = some u ∧ isLeading u = true

instance (name : Option Text) : Decidable (CutsPair name) :=
  decidable_of_iff ((tidyName name)[MAX_NAME_LENGTH - 1]?.any isLeading = true) (Option.any_eq_true _ _)

theorem isWellFormed_cleanName {name : Option Text} (h : isWellFormed (name.getD []) = true) :
    isWellFormed (cleanName name) = true ↔ ¬ CutsPair name := by
  have htidy := isWellFormed_tidyName h
  rw [cleanName, CutsPair]
  rcases hu : (tidyName name)[MAX_NAME_LENGTH - 1]? with _ | u
  · have hlength : (tidyName name).length ≤ MAX_NAME_LENGTH - 1 := by simpa using hu
    rw [List.take_of_length_le (hlength.trans (by decide))]
    simpa using htidy
  · have hcut := paired_take htidy hu
    rw [isWellFormed, show MAX_NAME_LENGTH = MAX_NAME_LENGTH - 1 + 1 from rfl, hcut]
    simp

/-- The name that the header carries: `baseName`, or `fallbackName` where that cleans to nothing. -/
def used (baseName fallbackName : Option Text) : Option Text :=
  if tidyName baseName = [] then fallbackName else baseName

theorem nameOf_eq (baseName fallbackName : Option Text) :
    nameOf baseName fallbackName = cleanName (used baseName fallbackName) := by
  have hempty : cleanName baseName = [] ↔ tidyName baseName = [] := by
    rw [cleanName, List.take_eq_nil_iff]
    exact or_iff_right (by decide)
  rw [nameOf, used]
  by_cases h : tidyName baseName = []
  · rw [if_pos (hempty.mpr h), if_pos h]
  · rw [if_neg (mt hempty.mp h), if_neg h]

/-! ## The quoted name -/

theorem quotable_units {name : Text} {u : CodeUnit} (h : u ∈ quotable name) :
    IsPrintable u ∧ u ≠ unit '"' ∧ u ≠ unit '\\' := by
  obtain ⟨v, hv, rfl⟩ := List.mem_map.mp h
  have hprintable : IsPrintable v := by
    obtain ⟨w, -, rfl⟩ := List.mem_map.mp hv
    split
    · next hw => exact hw
    · decide
  split
  · exact ⟨by decide, by decide, by decide⟩
  · next hmark => exact ⟨hprintable, fun hq => hmark (.inl hq), fun hb => hmark (.inr hb)⟩

/-! ## Safe headers -/

/-- The value is printable ASCII; between the quotes is no quote and no backslash; the ext-value has attr-chars and
percent escapes only, and is read as `name`. -/
def IsSafe (type : DispositionType) (name value : Text) : Prop :=
  (∀ u ∈ value, IsPrintable u) ∧ ∃ quoted encoded,
    value = type.text ++ text "; filename=\"" ++ quoted ++ text "\"; filename*=UTF-8''" ++ encoded ∧
    unit '"' ∉ quoted ∧ unit '\\' ∉ quoted ∧ (decodeExtValue encoded).bind utf8Decode = some name

theorem isSafe_of_encode {type : DispositionType} {name encoded : Text}
    (h : encodeRfc5987 (name ++ text ".pdf") = some encoded) :
    IsSafe type (name ++ text ".pdf")
      (type.text ++ text "; filename=\"" ++ (quotable name ++ text ".pdf") ++ text "\"; filename*=UTF-8''" ++ encoded) := by
  obtain ⟨bytes, hbytes, hname⟩ := decode_encodeRfc5987 h
  have hpdf : ∀ u ∈ text ".pdf", IsPrintable u ∧ u ≠ unit '"' ∧ u ≠ unit '\\' := by decide
  have hquoted : ∀ u ∈ quotable name ++ text ".pdf", IsPrintable u ∧ u ≠ unit '"' ∧ u ≠ unit '\\' := by
    intro u hu
    rcases List.mem_append.mp hu with hu | hu
    · exact quotable_units hu
    · exact hpdf u hu
  have htype : ∀ u ∈ type.text, IsPrintable u := by cases type <;> decide
  have hparts : (∀ u ∈ text "; filename=\"", IsPrintable u) ∧ ∀ u ∈ text "\"; filename*=UTF-8''", IsPrintable u := by
    decide
  refine ⟨?_, _, _, rfl, fun hq => (hquoted _ hq).2.1 rfl, fun hb => (hquoted _ hb).2.2 rfl, ?_⟩
  · intro u hu
    rw [List.mem_append, List.mem_append, List.mem_append, List.mem_append] at hu
    rcases hu with (((hu | hu) | hu) | hu) | hu
    · exact htype u hu
    · exact hparts.1 u hu
    · exact (hquoted u hu).1
    · exact hparts.2 u hu
    · exact printable_of_decodeExtValue hbytes u hu
  · rw [hbytes, Option.bind_some, hname]

/-- **The header is returned and safe exactly where the cut goes through no pair.** -/
theorem safe_iff (type : DispositionType) (baseName fallbackName : Option Text)
    (hbase : isWellFormed (baseName.getD []) = true) (hfallback : isWellFormed (fallbackName.getD []) = true) :
    (∃ value, contentDisposition type baseName (text ".pdf") fallbackName = some value ∧
        IsSafe type (nameOf baseName fallbackName ++ text ".pdf") value) ↔
      ¬ CutsPair (used baseName fallbackName) := by
  have hused : isWellFormed ((used baseName fallbackName).getD []) = true := by
    rw [used]
    split
    · exact hfallback
    · exact hbase
  have hpdf : isWellFormed (nameOf baseName fallbackName ++ text ".pdf") = true ↔
      ¬ CutsPair (used baseName fallbackName) := by
    rw [← isWellFormed_cleanName hused, ← nameOf_eq, isWellFormed, isWellFormed, paired_append_right (by decide)]
  rw [← hpdf, contentDisposition]
  rcases henc : encodeRfc5987 (nameOf baseName fallbackName ++ text ".pdf") with _ | encoded
  · rw [encodeRfc5987_eq_none.mp henc]
    simp
  · have hwf : isWellFormed (nameOf baseName fallbackName ++ text ".pdf") = true := by
      by_contra hnot
      rw [encodeRfc5987_eq_none.mpr (Bool.not_eq_true _ ▸ hnot)] at henc
      cases henc
    exact iff_of_true ⟨_, rfl, isSafe_of_encode henc⟩ hwf

/-- The cut is after the emoji. -/
def longName : Text := List.replicate 148 (unit 'a') ++ [0xD83D, 0xDE00] ++ text " of the year"

/-- A long name, also in place of one that is white space. -/
theorem safe_iff_longName :
    (∃ value, contentDisposition .inline (some longName) (text ".pdf") (some (text "3f0c")) = some value ∧
      IsSafe .inline (longName.take 150 ++ text ".pdf") value) ∧
    ∃ value, contentDisposition .attachment (some (text "\n")) (text ".pdf") (some longName) = some value ∧
      IsSafe .attachment (longName.take 150 ++ text ".pdf") value := by
  have hname : nameOf (some longName) (some (text "3f0c")) = longName.take 150 ∧
      nameOf (some (text "\n")) (some longName) = longName.take 150 := by decide +kernel
  have hbase := safe_iff .inline (some longName) (some (text "3f0c")) (by decide +kernel) (by decide)
  have hfallback := safe_iff .attachment (some (text "\n")) (some longName) (by decide) (by decide +kernel)
  rw [hname.1] at hbase
  rw [hname.2] at hfallback
  exact ⟨hbase.mpr (by decide +kernel), hfallback.mpr (by decide +kernel)⟩

/-- 149 letters and an emoji. -/
theorem not_always_safe : ¬ ∀ (type : DispositionType) (baseName fallbackName : Option Text),
    isWellFormed (baseName.getD []) = true → isWellFormed (fallbackName.getD []) = true →
      ∃ value, contentDisposition type baseName (text ".pdf") fallbackName = some value ∧
        IsSafe type (nameOf baseName fallbackName ++ text ".pdf") value := by
  intro h
  obtain ⟨value, hvalue, -⟩ :=
    h .inline (some (List.replicate 149 (unit 'a') ++ [0xD83D, 0xDE00])) (some (text "3f0c")) (by decide +kernel) (by decide)
  have hthrow : contentDisposition .inline (some (List.replicate 149 (unit 'a') ++ [0xD83D, 0xDE00])) (text ".pdf")
      (some (text "3f0c")) = none := by decide +kernel
  rw [hthrow] at hvalue
  cases hvalue

end FinSight.ContentDisposition
