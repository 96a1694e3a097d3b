import FinSight.Js.Unicode

/-!
# base64url

* `Buffers` : the two conversions of `Buffer` that the cursors use; what is encoded is read back;
* `Buffers.node` : base64url of UTF-8, an instance.
-/

namespace FinSight

/-- The conversions between strings and base64url. -/
structure Buffers where
  /-- `Buffer.from(t).toString("base64url")`. -/
  encode : Text → Text
  /-- `Buffer.from(t, "base64url").toString()`. -/
  decode : Text → Text
  decode_encode : ∀ t, isWellFormed t = true → decode (encode t) = t
  encode_ne_nil : ∀ t, isWellFormed t = true → t ≠ [] → encode t ≠ []

namespace Base64

/-- Three bytes as four digits; the last bytes as two or three. -/
def digits : List UInt8 → List Nat
  | [] => []
  | [a] => [a.toNat / 4, a.toNat % 4 * 16]
  | [a, b] => [a.toNat / 4, a.toNat % 4 * 16 + b.toNat / 16, b.toNat % 16 * 4]
  | a :: b :: c :: rest =>
      a.toNat / 4 :: (a.toNat % 4 * 16 + b.toNat / 16) :: (b.toNat % 16 * 4 + c.toNat / 64) :: c.toNat % 64 ::
        digits rest

def bytes : List Nat → List UInt8
  | w :: x :: y :: z :: rest =>
      UInt8.ofNat (w * 4 + x / 16) :: UInt8.ofNat (x % 16 * 16 + y / 4) :: UInt8.ofNat (y % 4 * 64 + z) :: bytes rest
  | [w, x, y] => [UInt8.ofNat (w * 4 + x / 16), UInt8.ofNat (x % 16 * 16 + y / 4)]
  | [w, x] => [UInt8.ofNat (w * 4 + x / 16)]
  | _ => []

/-- `-` and `_` after letters and digits. -/
def alphabet : Text := text "ABCDEFGHIJKLMNOPQRSTUVWXYZabcdefghijklmnopqrstuvwxyz0123456789-_"

def digitUnit (d : Nat) : CodeUnit := alphabet.getD d 0

/-- The value of a digit; `+` and `/` are read as well. -/
def unitDigit (u : CodeUnit) : Option Nat :=
  if u = unit '+' then some 62
  else if u = unit '/' then some 63
  else if u ∈ alphabet then some (alphabet.idxOf u)
  else none

theorem digits_lt (bs : List UInt8) : ∀ d ∈ digits bs, d < 64 := by
  fun_induction digits bs with
  | case1 => exact fun d hd => by cases hd
  | case2 a =>
      have ha := a.toNat_lt
      simp only [List.forall_mem_cons, List.not_mem_nil, false_implies, implies_true, and_true]
      omega
  | case3 a b =>
      have ha := a.toNat_lt
      have hb := b.toNat_lt
      simp only [List.forall_mem_cons, List.not_mem_nil, false_implies, implies_true, and_true]
      omega
  | case4 a b c rest ih =>
      have ha := a.toNat_lt
      have hb := b.toNat_lt
      have hc := c.toNat_lt
      simp only [List.forall_mem_cons]
      exact ⟨by omega, by omega, by omega, by omega, ih⟩

theorem byte_eq {a : UInt8} {n : Nat} (h : n = a.toNat) : UInt8.ofNat n = a := by
  rw [h, UInt8.ofNat_toNat]

theorem bytes_digits (bs : List UInt8) : bytes (digits bs) = bs := by
  fun_induction digits bs with
  | case1 => rfl
  | case2 a =>
      have ha := a.toNat_lt
      rw [bytes, byte_eq (a := a) (by omega)]
  | case3 a b =>
      have ha := a.toNat_lt
      have hb := b.toNat_lt
      rw [bytes, byte_eq (a := a) (by omega), byte_eq (a := b) (by omega)]
  | case4 a b c rest ih =>
      have ha := a.toNat_lt
      have hb := b.toNat_lt
      have hc := c.toNat_lt
      rw [bytes, ih, byte_eq (a := a) (by omega), byte_eq (a := b) (by omega), byte_eq (a := c) (by omega)]

theorem unitDigit_digitUnit {d : Nat} (h : d < 64) : unitDigit (digitUnit d) = some d := by
  have hall : ∀ d < 64, unitDigit (digitUnit d) = some d := by decide +kernel
  exact hall d h

theorem filterMap_unitDigit {ds : List Nat} (h : ∀ d ∈ ds, d < 64) :
    (ds.map digitUnit).filterMap unitDigit = ds := by
  rw [List.filterMap_map]
  conv_rhs => rw [← List.filterMap_some (l := ds)]
  exact List.filterMap_congr fun d hd => unitDigit_digitUnit (h d hd)

/-- UTF-8 of a well-formed string. -/
def utf8 (t : Text) : List UInt8 := ((codePoints t).getD []).flatMap String.utf8EncodeChar

theorem utf8Decode_utf8 {t : Text} (h : isWellFormed t = true) : utf8Decode (utf8 t) = some t := by
  rw [← isSome_codePoints] at h
  obtain ⟨cs, hcs⟩ := Option.isSome_iff_exists.mp h
  rw [utf8, hcs, Option.getD_some, utf8Decode_utf8Encode, flatMap_codePoints hcs]

end Base64

open Base64 in
/-- What Node computes of what has been encoded. Of other text its decoder may differ: here an `=` within the text is passed
over, and bytes that are not UTF-8 give nothing rather than `U+FFFD`. -/
def Buffers.node : Buffers where
  encode t := (digits (utf8 t)).map digitUnit
  decode t := (utf8Decode (bytes (t.filterMap unitDigit))).getD []
  decode_encode t h := by
    rw [filterMap_unitDigit (digits_lt _), bytes_digits, utf8Decode_utf8 h, Option.getD_some]
  encode_ne_nil t h hne hnil := by
    have hdecode := utf8Decode_utf8 h
    have hbytes := bytes_digits (utf8 t)
    rw [List.map_eq_nil_iff.mp hnil] at hbytes
    rw [← hbytes] at hdecode
    exact hne (Option.some.inj hdecode).symm

example : Buffers.node.encode (text "né|1") = text "bsOpfDE" := by decide +kernel

end FinSight
