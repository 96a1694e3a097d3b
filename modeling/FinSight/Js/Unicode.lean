import FinSight.Js.Space

/-!
# Unicode

* `isWellFormed` : the surrogates come in pairs; what keeps it (`paired_filter`, `paired_map`, `paired_spaces`,
  `isWellFormed_trim`), and when a cut keeps it (`paired_take`);
* `codePoints` : the code points of a well-formed string, and only of one (`isSome_codePoints`);
* `encodeURIComponent` : it throws on any other;
* `decodeExtValue`, `utf8Decode` : what a reader of an RFC 5987 ext-value does.
-/

namespace FinSight

theorem isLeading_iff {u : CodeUnit} : isLeading u = true ↔ 0xD800 ≤ u.toNat ∧ u.toNat ≤ 0xDBFF := by
  simp only [isLeading, Bool.and_eq_true, decide_eq_true_iff, UInt16.le_iff_toNat_le]
  rfl

theorem isTrailing_iff {u : CodeUnit} : isTrailing u = true ↔ 0xDC00 ≤ u.toNat ∧ u.toNat ≤ 0xDFFF := by
  simp only [isTrailing, Bool.and_eq_true, decide_eq_true_iff, UInt16.le_iff_toNat_le]
  rfl

/-- Neither half of a pair. -/
def IsPlain (u : CodeUnit) : Prop := isLeading u = false ∧ isTrailing u = false

instance (u : CodeUnit) : Decidable (IsPlain u) := inferInstanceAs (Decidable (_ ∧ _))

theorem isPlain_iff {u : CodeUnit} : IsPlain u ↔ u.toNat < 0xD800 ∨ 0xDFFF < u.toNat := by
  rw [IsPlain, ← Bool.not_eq_true, ← Bool.not_eq_true, isLeading_iff, isTrailing_iff]
  omega

theorem isPlain_of_isSpace {u : CodeUnit} (h : isSpace u = true) : IsPlain u := by
  rw [isPlain_iff]
  simp only [isSpace, Bool.or_eq_true, Bool.and_eq_true, decide_eq_true_iff, beq_iff_eq, UInt16.le_iff_toNat_le,
    ← UInt16.toNat_inj, UInt16.toNat_ofNat] at h
  omega

theorem isTrailing_of_isLeading {u : CodeUnit} (h : isLeading u = true) : isTrailing u = false := by
  rw [isLeading_iff] at h
  rw [← Bool.not_eq_true, isTrailing_iff]
  omega

theorem isLeading_of_isTrailing {u : CodeUnit} (h : isTrailing u = true) : isLeading u = false := by
  rw [isTrailing_iff] at h
  rw [← Bool.not_eq_true, isLeading_iff]
  omega

/-! ## Well-formed strings -/

/-- The surrogates come in pairs; `half` says whether the first half of a pair stands before. -/
def paired : Bool → Text → Bool
  | half, [] => !half
  | half, u :: t => isTrailing u == half && paired (isLeading u) t

/-- `t.isWellFormed()`. -/
def isWellFormed (t : Text) : Bool := paired false t

theorem paired_cons {half : Bool} {u : CodeUnit} {t : Text} :
    paired half (u :: t) = true ↔ isTrailing u = half ∧ paired (isLeading u) t = true := by
  rw [paired, Bool.and_eq_true, beq_iff_eq]

theorem paired_cons_plain {half : Bool} {u : CodeUnit} {t : Text} (hu : IsPlain u) :
    paired half (u :: t) = true ↔ half = false ∧ paired false t = true := by
  rw [paired_cons, hu.1, hu.2, eq_comm]

/-- A cut goes through a pair exactly where it comes after its first half. -/
theorem paired_take {half : Bool} {t : Text} {n : Nat} {u : CodeUnit} (h : paired half t = true)
    (hu : t[n]? = some u) : paired half (t.take (n + 1)) = !isLeading u := by
  induction n generalizing half t with
  | zero =>
      obtain ⟨rest, rfl⟩ : ∃ rest, t = u :: rest := by
        cases t with
        | nil => cases hu
        | cons v rest => exact ⟨rest, by simpa using hu⟩
      rw [List.take_succ_cons, List.take_zero, paired, (paired_cons.mp h).1, beq_self_eq_true, Bool.true_and, paired]
  | succ n ih =>
      cases t with
      | nil => cases hu
      | cons v t =>
          obtain ⟨hv, ht⟩ := paired_cons.mp h
          rw [List.take_succ_cons, paired, hv, beq_self_eq_true, Bool.true_and, ih ht (by simpa using hu)]

theorem paired_filter {half : Bool} {t : Text} {p : CodeUnit → Bool} (hp : ∀ u, p u = false → IsPlain u)
    (h : paired half t = true) : paired half (t.filter p) = true := by
  induction t generalizing half with
  | nil => exact h
  | cons u t ih =>
      cases hu : p u with
      | true =>
          rw [List.filter_cons_of_pos hu]
          obtain ⟨hhalf, ht⟩ := paired_cons.mp h
          exact paired_cons.mpr ⟨hhalf, ih ht⟩
      | false =>
          rw [List.filter_cons_of_neg (by rw [hu]; decide)]
          obtain ⟨rfl, ht⟩ := (paired_cons_plain (hp u hu)).mp h
          exact ih ht

theorem paired_map {half : Bool} {t : Text} {f : CodeUnit → CodeUnit}
    (hf : ∀ u, f u = u ∨ IsPlain u ∧ IsPlain (f u)) (h : paired half t = true) : paired half (t.map f) = true := by
  induction t generalizing half with
  | nil => exact h
  | cons u t ih =>
      rw [List.map_cons]
      rcases hf u with hu | ⟨hu, hfu⟩
      · rw [hu]
        obtain ⟨hhalf, ht⟩ := paired_cons.mp h
        exact paired_cons.mpr ⟨hhalf, ih ht⟩
      · obtain ⟨hhalf, ht⟩ := (paired_cons_plain hu).mp h
        exact (paired_cons_plain hfu).mpr ⟨hhalf, ih ht⟩

theorem paired_append_left {half : Bool} {run t : Text} (hne : run ≠ []) (hrun : ∀ u ∈ run, IsPlain u) :
    paired half (run ++ t) = true ↔ half = false ∧ paired false t = true := by
  induction run generalizing half with
  | nil => exact absurd rfl hne
  | cons u run ih =>
      rw [List.cons_append, paired_cons_plain (hrun u List.mem_cons_self)]
      refine and_congr_right fun _ => ?_
      cases run with
      | nil => rfl
      | cons v run =>
          rw [ih (List.cons_ne_nil _ _) fun w hw => hrun w (List.mem_cons_of_mem _ hw)]
          exact and_iff_right rfl

theorem paired_append_right {half : Bool} {t run : Text} (hrun : ∀ u ∈ run, IsPlain u) :
    paired half (t ++ run) = true ↔ paired half t = true := by
  induction t generalizing half with
  | nil =>
      cases run with
      | nil => rfl
      | cons u run =>
          have hall : paired half (u :: run ++ []) = true ↔ half = false ∧ paired false [] = true :=
            paired_append_left (List.cons_ne_nil u run) hrun
          rw [List.append_nil] at hall
          rw [List.nil_append, hall]
          cases half <;> decide
  | cons u t ih => rw [List.cons_append, paired_cons, paired_cons, ih]

theorem isWellFormed_plain {t : Text} (h : ∀ u ∈ t, IsPlain u) : isWellFormed t = true :=
  (paired_append_right (t := []) h).mpr rfl

theorem isWellFormed_trim {t : Text} (h : isWellFormed t = true) : isWellFormed (trim t) = true := by
  obtain ⟨x, y, ht, hx, hy⟩ := exists_trim t
  rw [isWellFormed, ht, paired_append_right fun u hu => isPlain_of_isSpace (hy u hu)] at h
  cases x with
  | nil => exact h
  | cons u x =>
      exact ((paired_append_left (List.cons_ne_nil u x) fun v hv => isPlain_of_isSpace (hx v hv)).mp h).2

open Scanning in
/-- White space put in the place of white space. -/
theorem paired_spaces {run : Text} (hne : run ≠ []) (hrun : ∀ u ∈ run, IsPlain u) {half : Bool} {t : Text}
    (h : paired half t = true) : paired half (replaceAll spaces (fun _ => run) t) = true := by
  induction t using scan_induction spaces generalizing half with
  | hnil => exact h
  | hmatch u t found n hfound ih =>
      obtain ⟨-, hspace, hstart, hlength⟩ := spaces_some hfound
      have hsplit : u :: t = found ++ t.drop n := by
        obtain ⟨rest, hrest⟩ := hstart
        rw [← hrest, List.append_cancel_left_eq]
        have hdrop := congrArg (List.drop (n + 1)) hrest
        rw [← hlength, List.drop_left] at hdrop
        rw [hdrop, hlength, List.drop_succ_cons]
      have hfound_ne : found ≠ [] := by
        rintro rfl
        cases hlength
      rw [hsplit, paired_append_left hfound_ne fun v hv => isPlain_of_isSpace (hspace v hv)] at h
      rw [replaceAll_match hfound, paired_append_left hne hrun]
      exact ⟨h.1, ih h.2⟩
  | hnone u t hnone ih =>
      obtain ⟨hhalf, ht⟩ := paired_cons.mp h
      rw [replaceAll_none hnone]
      exact paired_cons.mpr ⟨hhalf, ih ht⟩

/-! ## Code points -/

/-- The code point of a surrogate pair. -/
def pairChar (u v : CodeUnit) : Char := Char.ofNat (0x10000 + (u.toNat - 0xD800) * 0x400 + (v.toNat - 0xDC00))

/-- The code points of a string; none where a surrogate is not in a pair. -/
def codePoints : Text → Option (List Char)
  | [] => some []
  | [u] => if isLeading u || isTrailing u then none else some [ascii u]
  | u :: v :: rest =>
      if isLeading u && isTrailing v then (codePoints rest).map (pairChar u v :: ·)
      else if isLeading u || isTrailing u then none
      else (codePoints (v :: rest)).map (ascii u :: ·)

theorem toNat_ofNat {n : Nat} (h : n.isValidChar) : (Char.ofNat n).toNat = n := by
  rw [Char.ofNat, dif_pos h]
  rfl

theorem utf16_ascii {u : CodeUnit} (h : IsPlain u) : utf16 (ascii u) = [u] := by
  have hbound := u.toNat_lt
  have hvalid : (ascii u).toNat = u.toNat := by
    rw [isPlain_iff] at h
    exact toNat_ofNat (by rw [Nat.isValidChar]; omega)
  rw [utf16, hvalid, if_pos (by omega), unit, hvalid, UInt16.ofNat_toNat]

theorem utf16_pairChar {u v : CodeUnit} (hu : isLeading u = true) (hv : isTrailing v = true) :
    utf16 (pairChar u v) = [u, v] := by
  rw [isLeading_iff] at hu
  rw [isTrailing_iff] at hv
  have hvalid : (pairChar u v).toNat = 0x10000 + (u.toNat - 0xD800) * 0x400 + (v.toNat - 0xDC00) :=
    toNat_ofNat (by rw [Nat.isValidChar]; omega)
  rw [utf16, hvalid, if_neg (by omega)]
  have hlead : 0xD800 + (0x10000 + (u.toNat - 0xD800) * 0x400 + (v.toNat - 0xDC00) - 0x10000) / 0x400 = u.toNat := by
    omega
  have htrail : 0xDC00 + (0x10000 + (u.toNat - 0xD800) * 0x400 + (v.toNat - 0xDC00) - 0x10000) % 0x400 = v.toNat := by
    omega
  rw [hlead, htrail, UInt16.ofNat_toNat, UInt16.ofNat_toNat]

theorem flatMap_codePoints {t : Text} {cs : List Char} (h : codePoints t = some cs) : cs.flatMap utf16 = t := by
  fun_induction codePoints t generalizing cs with
  | case1 =>
      cases h
      rfl
  | case2 u hs => cases h
  | case3 u hs =>
      cases h
      rw [Bool.or_eq_true, not_or, Bool.not_eq_true, Bool.not_eq_true] at hs
      rw [List.flatMap_cons, utf16_ascii hs]
      rfl
  | case4 u v rest hs ih =>
      obtain ⟨ds, hds, rfl⟩ := Option.map_eq_some_iff.mp h
      rw [Bool.and_eq_true] at hs
      rw [List.flatMap_cons, utf16_pairChar hs.1 hs.2, ih hds]
      rfl
  | case5 u v rest hs hs' => cases h
  | case6 u v rest hs hs' ih =>
      obtain ⟨ds, hds, rfl⟩ := Option.map_eq_some_iff.mp h
      rw [Bool.or_eq_true, not_or, Bool.not_eq_true, Bool.not_eq_true] at hs'
      rw [List.flatMap_cons, utf16_ascii hs', ih hds]
      rfl

theorem isSome_codePoints (t : Text) : (codePoints t).isSome = isWellFormed t := by
  rw [isWellFormed]
  fun_induction codePoints t with
  | case1 => rfl
  | case2 u hs =>
      rw [paired, paired]
      rcases Bool.or_eq_true_iff.mp hs with hu | hu
      · rw [hu, Bool.not_true, Bool.and_false]
        rfl
      · rw [hu]
        rfl
  | case3 u hs =>
      rw [Bool.or_eq_true, not_or, Bool.not_eq_true, Bool.not_eq_true] at hs
      rw [paired, paired, hs.1, hs.2]
      rfl
  | case4 u v rest hs ih =>
      rw [Bool.and_eq_true] at hs
      rw [Option.isSome_map, ih, paired, paired, hs.1, hs.2, isTrailing_of_isLeading hs.1,
        isLeading_of_isTrailing hs.2]
      rfl
  | case5 u v rest hs hs' =>
      rw [paired, paired]
      rcases Bool.or_eq_true_iff.mp hs' with hu | hu
      · rw [hu, Bool.true_and, Bool.not_eq_true] at hs
        rw [hu, hs]
        simp
      · rw [hu]
        rfl
  | case6 u v rest hs hs' ih =>
      rw [Bool.or_eq_true, not_or, Bool.not_eq_true, Bool.not_eq_true] at hs'
      rw [Option.isSome_map, ih]
      conv_rhs => rw [paired, hs'.1, hs'.2]
      rfl

/-! ## Percent encoding -/

/-- The upper-case hexadecimal digits of a number. -/
def upperHex (n : Nat) : Text := (Nat.toDigits 16 n).map fun c => unit c.toUpper

/-- `%XX`. -/
def percentEncode (b : UInt8) : Text := unit '%' :: (upperHex (b.toNat / 16) ++ upperHex (b.toNat % 16))

/-- What `encodeURIComponent` leaves as it is. -/
def isUnreserved (c : Char) : Bool := c.isAlphanum || "-_.!~*'()".toList.contains c

def encodeChar (c : Char) : Text := if isUnreserved c then [unit c] else (String.utf8EncodeChar c).flatMap percentEncode

/-- `encodeURIComponent(t)`; none where it throws a `URIError`. -/
def encodeURIComponent (t : Text) : Option Text := (codePoints t).map fun cs => cs.flatMap encodeChar

theorem isSome_encodeURIComponent (t : Text) : (encodeURIComponent t).isSome = isWellFormed t := by
  rw [encodeURIComponent, Option.isSome_map, isSome_codePoints]

/-- The `attr-char` of RFC 5987. -/
def isAttrChar (u : CodeUnit) : Bool :=
  (unit 'a' ≤ u && u ≤ unit 'z') || (unit 'A' ≤ u && u ≤ unit 'Z') || (unit '0' ≤ u && u ≤ unit '9') ||
    (text "!#$&+-.^_\x60|~").contains u

open Scanning

/-- A byte of an RFC 5987 ext-value: an attr-char or a percent escape. -/
def extByte : Pattern CodeUnit UInt8
  | [] => none
  | u :: rest =>
      if u = unit '%' then
        match rest.map hexValue with
        | some x :: some y :: _ => some (UInt8.ofNat (16 * x + y), 2)
        | _ => none
      else if isAttrChar u then some (UInt8.ofNat u.toNat, 0)
      else none

/-- The bytes of an RFC 5987 ext-value; none of any other text. -/
def decodeExtValue (t : Text) : Option (List UInt8) := (scan extByte 0 t).mapM Sum.getLeft?

def utf8Decode (bytes : List UInt8) : Option Text :=
  bytes.toByteArray.utf8Decode?.map fun cs => cs.toList.flatMap utf16

theorem utf8Decode_utf8Encode (cs : List Char) :
    utf8Decode (cs.flatMap String.utf8EncodeChar) = some (cs.flatMap utf16) := by
  have h : (cs.flatMap String.utf8EncodeChar).toByteArray.utf8Decode? = some cs.toArray :=
    List.utf8Decode?_utf8Encode
  rw [utf8Decode, h]
  rfl

/-- `t` is read as `bytes`, whatever follows. -/
def ReadsAs (t : Text) (bytes : List UInt8) : Prop :=
  ∀ rest, scan extByte 0 (t ++ rest) = bytes.map .inl ++ scan extByte 0 rest

theorem ReadsAs.nil : ReadsAs [] [] := fun _ => rfl

theorem ReadsAs.append {t t' : Text} {bytes bytes' : List UInt8} (h : ReadsAs t bytes) (h' : ReadsAs t' bytes') :
    ReadsAs (t ++ t') (bytes ++ bytes') := by
  intro rest
  rw [List.append_assoc, h, h', List.map_append, List.append_assoc]

theorem ReadsAs.flatMap {α : Type} {f : α → Text} {g : α → List UInt8} {xs : List α}
    (h : ∀ x ∈ xs, ReadsAs (f x) (g x)) : ReadsAs (xs.flatMap f) (xs.flatMap g) := by
  induction xs with
  | nil => exact .nil
  | cons x xs ih =>
      rw [List.flatMap_cons, List.flatMap_cons]
      exact (h x List.mem_cons_self).append (ih fun y hy => h y (List.mem_cons_of_mem x hy))

theorem ReadsAs.decodeExtValue {t : Text} {bytes : List UInt8} (h : ReadsAs t bytes) :
    decodeExtValue t = some bytes := by
  have hall : scan extByte 0 t = bytes.map .inl := by simpa [scan] using h []
  rw [FinSight.decodeExtValue, hall]
  clear hall h
  induction bytes with
  | nil => rfl
  | cons b bytes ih => rw [List.map_cons, List.mapM_cons, ih, Sum.getLeft?_inl, Option.bind_eq_bind, Option.bind_some]; rfl

theorem readsAs_attrChar {u : CodeUnit} (hu : isAttrChar u = true) (hne : u ≠ unit '%') :
    ReadsAs [u] [UInt8.ofNat u.toNat] := by
  intro rest
  have hread : extByte (u :: rest) = some (UInt8.ofNat u.toNat, 0) := by
    rw [extByte, if_neg hne, if_pos hu]
  exact scan_match hread

theorem upperHex_lt {n : Nat} (h : n < 16) : ∃ u, upperHex n = [u] ∧ hexValue u = some (Fin.ofNat 16 n) := by
  have hall : ∀ n < 16, ∃ u ∈ upperHex n, upperHex n = [u] ∧ hexValue u = some (Fin.ofNat 16 n) := by decide
  obtain ⟨u, -, hu⟩ := hall n h
  exact ⟨u, hu⟩

theorem readsAs_percentEncode (b : UInt8) : ReadsAs (percentEncode b) [b] := by
  intro rest
  have hbound := b.toNat_lt
  obtain ⟨u, hu, hx⟩ := upperHex_lt (n := b.toNat / 16) (by omega)
  obtain ⟨v, hv, hy⟩ := upperHex_lt (n := b.toNat % 16) (by omega)
  have hbyte : 16 * (b.toNat / 16 % 16) + b.toNat % 16 % 16 = b.toNat := by omega
  have hread : extByte (unit '%' :: u :: v :: rest) = some (b, 2) := by
    rw [extByte, if_pos rfl, List.map_cons, List.map_cons, hx, hy]
    simp only [Fin.val_ofNat, hbyte, UInt8.ofNat_toNat]
  rw [percentEncode, hu, hv]
  exact scan_match hread

theorem decodeExtValue_match {u : CodeUnit} {t : Text} {b : UInt8} {n : Nat} (h : extByte (u :: t) = some (b, n)) :
    decodeExtValue (u :: t) = (decodeExtValue (t.drop n)).map (b :: ·) := by
  rw [decodeExtValue, scan_match h, List.mapM_cons, decodeExtValue, Sum.getLeft?_inl]
  cases (scan extByte 0 (t.drop n)).mapM Sum.getLeft? <;> rfl

theorem decodeExtValue_none {u : CodeUnit} {t : Text} (h : extByte (u :: t) = none) :
    decodeExtValue (u :: t) = none := by
  rw [decodeExtValue, scan_none h, List.mapM_cons, Sum.getLeft?_inr]
  rfl

/-- Printable ASCII. -/
def IsPrintable (u : CodeUnit) : Prop := 0x20 ≤ u.toNat ∧ u.toNat ≤ 0x7e

instance (u : CodeUnit) : Decidable (IsPrintable u) := inferInstanceAs (Decidable (_ ∧ _))

theorem printable_of_le {c d : Char} {u : CodeUnit} (h : unit c ≤ u ∧ u ≤ unit d) (hc : IsPrintable (unit c))
    (hd : IsPrintable (unit d)) : IsPrintable u := by
  rw [UInt16.le_iff_toNat_le, UInt16.le_iff_toNat_le] at h
  exact ⟨hc.1.trans h.1, h.2.trans hd.2⟩

theorem printable_of_isAttrChar {u : CodeUnit} (h : isAttrChar u = true) : IsPrintable u := by
  simp only [isAttrChar, Bool.or_eq_true, Bool.and_eq_true, decide_eq_true_iff, List.contains_iff_mem] at h
  rcases h with ((h | h) | h) | h
  · exact printable_of_le h (by decide) (by decide)
  · exact printable_of_le h (by decide) (by decide)
  · exact printable_of_le h (by decide) (by decide)
  · revert u
    decide

theorem printable_of_hexValue {u : CodeUnit} {x : Fin 16} (h : hexValue u = some x) : IsPrintable u := by
  rw [hexValue] at h
  split at h
  · next hu => exact printable_of_le hu (by decide) (by decide)
  · split at h
    · next hu => exact printable_of_le hu (by decide) (by decide)
    · split at h
      · next hu => exact printable_of_le hu (by decide) (by decide)
      · cases h

/-- A match of an ext-value is printable ASCII. -/
theorem printable_of_extByte {u : CodeUnit} {t : Text} {b : UInt8} {n : Nat} (h : extByte (u :: t) = some (b, n)) :
    IsPrintable u ∧ ∀ v ∈ t.take n, IsPrintable v := by
  rw [extByte] at h
  split at h
  · next hu =>
    split at h
    · next x y rest hhex =>
      obtain ⟨-, rfl⟩ := Prod.mk.inj (Option.some.inj h)
      subst hu
      refine ⟨by decide, ?_⟩
      obtain ⟨v, t, rfl, hv, hhex⟩ := List.map_eq_cons_iff.mp hhex
      obtain ⟨w, t, rfl, hw, -⟩ := List.map_eq_cons_iff.mp hhex
      rw [List.take_succ_cons, List.take_succ_cons, List.take_zero, List.forall_mem_cons, List.forall_mem_singleton]
      exact ⟨printable_of_hexValue hv, printable_of_hexValue hw⟩
    · cases h
  · split at h
    · next hattr =>
      obtain ⟨-, rfl⟩ := Prod.mk.inj (Option.some.inj h)
      exact ⟨printable_of_isAttrChar hattr, fun v hv => by cases hv⟩
    · cases h

/-- An ext-value is printable ASCII. -/
theorem printable_of_decodeExtValue {t : Text} {bytes : List UInt8} (h : decodeExtValue t = some bytes) :
    ∀ u ∈ t, IsPrintable u := by
  induction t using scan_induction extByte generalizing bytes with
  | hnil => exact fun u hu => by cases hu
  | hmatch u t b n hb ih =>
      rw [decodeExtValue_match hb, Option.map_eq_some_iff] at h
      obtain ⟨rest, hrest, -⟩ := h
      obtain ⟨hu, htake⟩ := printable_of_extByte hb
      refine List.forall_mem_cons.mpr ⟨hu, ?_⟩
      rw [← List.take_append_drop n t, List.forall_mem_append]
      exact ⟨htake, ih hrest⟩
  | hnone u t hnone => rw [decodeExtValue_none hnone] at h; cases h

end FinSight
