import FinSight.Js.Canonical
import Mathlib.Data.List.InsertIdx

/-!
# Values on their way into Postgres

A parameter is converted to its column type before a statement runs; a value outside the type is an error.

* `uuidIn` : `uuid_in`, which reads more spellings than the request schemas accept; `uuidIn_text` : it reads back
  what Postgres renders;
* `toWellFormed` : a text parameter, sent as UTF-8; `nulFree` : NUL is refused;
* `inInt4`, `inInt8`, `Date.storable` : the ranges of `integer`, `bigint` and of ISO timestamps;
* `shuffle` : the order of rows no `ORDER BY` fixes.
-/

namespace FinSight

/-! ## uuid -/

/-- The bytes of a uuid: two hexadecimal digits each, a dash allowed after every second byte but the last. -/
def uuidBytes : Nat → Text → Option (List (Fin 16))
  | 0, rest => if rest = [] then some [] else none
  | k + 1, a :: b :: rest =>
      match hexValue a, hexValue b with
      | some x, some y =>
          let rest := if k % 2 = 0 ∧ 0 < k ∧ rest.head? = some (unit '-') then rest.tail else rest
          (uuidBytes k rest).map fun ds => x :: y :: ds
      | _, _ => none
  | _ + 1, _ => none

/-- The text between braces, or the text itself. -/
def unbrace (t : Text) : Text :=
  if t.head? = some (unit '{') ∧ t.getLast? = some (unit '}') then t.tail.dropLast else t

def uuidIn (t : Text) : Option Uuid :=
  (uuidBytes 16 (unbrace t)).map fun ds => ⟨BitVec.ofNat 128 (ofNibbles ds)⟩

example : uuidIn (text "{A0EEBC99-9c0b4ef8-bb6d-6bb9bd380a11}") =
    some ⟨0xa0eebc999c0b4ef8bb6d6bb9bd380a11⟩ := by decide

theorem hexDigit_ne (d : Fin 16) : hexDigit d ≠ unit '-' ∧ hexDigit d ≠ unit '{' ∧ hexDigit d ≠ unit '}' := by
  revert d
  decide

/-- Bytes without dashes. -/
theorem uuidBytes_hex (ds : List (Fin 16)) (k : Nat) (h : ds.length = 2 * k) :
    uuidBytes k (ds.map hexDigit) = some ds := by
  induction k generalizing ds with
  | zero =>
      rw [List.length_eq_zero_iff.mp h]
      rfl
  | succ k ih =>
      match ds with
      | x :: y :: rest =>
          have hrest : rest.length = 2 * k := by simpa [mul_add] using h
          have hdash : (rest.map hexDigit).head? ≠ some (unit '-') := by
            cases rest with
            | nil => simp
            | cons d rest => simpa using (hexDigit_ne d).1
          rw [List.map_cons, List.map_cons, uuidBytes, hexValue_hexDigit, hexValue_hexDigit]
          dsimp only
          rw [if_neg fun hk => hdash hk.2.2, ih rest hrest]
          rfl

/-- A dash after `j` bytes. -/
theorem uuidBytes_append (ds : List (Fin 16)) (j k : Nat) (h : ds.length = 2 * j) (hj : 0 < j) (hk : 0 < k)
    (heven : k % 2 = 0) (t : Text) :
    uuidBytes (j + k) (ds.map hexDigit ++ unit '-' :: t) = (uuidBytes k t).map fun rest => ds ++ rest := by
  induction j generalizing ds with
  | zero => omega
  | succ j ih =>
      match ds with
      | x :: y :: rest =>
          have hrest : rest.length = 2 * j := by simpa [mul_add] using h
          rw [List.map_cons, List.map_cons, show j + 1 + k = j + k + 1 by omega]
          show uuidBytes (j + k + 1) (hexDigit x :: hexDigit y :: (rest.map hexDigit ++ unit '-' :: t)) = _
          rw [uuidBytes, hexValue_hexDigit, hexValue_hexDigit]
          dsimp only
          cases rest with
          | nil =>
              obtain rfl : j = 0 := by simpa using hrest.symm
              rw [Nat.zero_add, if_pos ⟨heven, hk, rfl⟩]
              rfl
          | cons d rest =>
              have hj : 0 < j := by
                rw [List.length_cons] at hrest
                omega
              rw [if_neg fun hdash => (hexDigit_ne d).1 (by simpa using hdash.2.2), ih (d :: rest) hrest hj,
                Option.map_map]
              rfl

/-- The lower-case spelling of a hexadecimal digit; any other code unit as it is. -/
def lowerHex (u : CodeUnit) : CodeUnit := ((hexValue u).map hexDigit).getD u

theorem hexValue_lowerHex (u : CodeUnit) : hexValue (lowerHex u) = hexValue u := by
  rcases h : hexValue u with _ | d
  · rw [lowerHex, h]
    exact h
  · rw [lowerHex, h]
    exact hexValue_hexDigit d

theorem lowerHex_eq_iff {c : Char} (hc : hexValue (unit c) = none) {u : CodeUnit} :
    lowerHex u = unit c ↔ u = unit c := by
  constructor
  · intro h
    have hu : hexValue u = none := by rw [← hexValue_lowerHex, h, hc]
    rwa [lowerHex, hu] at h
  · rintro rfl
    rw [lowerHex, hc]
    rfl

theorem head?_map_lowerHex {c : Char} (hc : hexValue (unit c) = none) (t : Text) :
    (t.map lowerHex).head? = some (unit c) ↔ t.head? = some (unit c) := by
  rw [List.head?_map, Option.map_eq_some_iff]
  simp [lowerHex_eq_iff hc]

/-- The letter case of a uuid does not matter. -/
theorem uuidBytes_map_lowerHex (k : Nat) (t : Text) : uuidBytes k (t.map lowerHex) = uuidBytes k t := by
  induction k generalizing t with
  | zero => simp [uuidBytes]
  | succ k ih =>
      match t with
      | [] => rfl
      | [u] => rfl
      | u :: v :: t =>
          have htail : (if k % 2 = 0 ∧ 0 < k ∧ (t.map lowerHex).head? = some (unit '-') then (t.map lowerHex).tail
              else t.map lowerHex) =
                (if k % 2 = 0 ∧ 0 < k ∧ t.head? = some (unit '-') then t.tail else t).map lowerHex := by
            simp only [head?_map_lowerHex (show hexValue (unit '-') = none by decide)]
            split
            · rw [List.map_tail]
            · rfl
          rw [List.map_cons, List.map_cons, uuidBytes, uuidBytes, hexValue_lowerHex, hexValue_lowerHex, htail]
          simp only [ih]

/-- Postgres reads what the request schemas accept, in either letter case. -/
theorem uuidIn_uuidText (u : UuidText) : uuidIn u.text = some u.uuid := by
  have hdigits : u.hex.map lowerHex = (u.hex.filterMap hexValue).map hexDigit := by
    have hvalid := u.valid.2
    generalize u.hex = hex at hvalid
    induction hex with
    | nil => rfl
    | cons v t ih =>
        obtain ⟨d, hd⟩ := Option.isSome_iff_exists.mp (hvalid v List.mem_cons_self)
        rw [List.map_cons, List.filterMap_cons_some hd, List.map_cons,
          ih fun w hw => hvalid w (List.mem_cons_of_mem v hw), lowerHex, hd]
        rfl
  have hlen : (u.hex.filterMap hexValue).length = 32 := by
    rw [← List.length_map (f := hexDigit), ← hdigits, List.length_map, u.valid.1]
  rw [UuidText.uuid]
  generalize u.hex.filterMap hexValue = ds at *
  have htext : u.text.map lowerHex = (ds.take 8).map hexDigit ++ unit '-' :: (((ds.drop 8).take 4).map hexDigit ++
      unit '-' :: (((ds.drop 12).take 4).map hexDigit ++ unit '-' :: (((ds.drop 16).take 4).map hexDigit ++ unit '-' ::
        (ds.drop 20).map hexDigit))) := by
    have hdash : lowerHex (unit '-') = unit '-' := by decide
    simp only [UuidText.text, List.map_append, List.map_cons, List.map_take, List.map_drop, hdigits, hdash]
  have hbrace : unbrace u.text = u.text := by
    refine if_neg fun h => ?_
    have hfirst := (head?_map_lowerHex (by decide) u.text).mpr h.1
    rw [htext] at hfirst
    cases ds with
    | nil => cases hlen
    | cons d ds => exact (hexDigit_ne d).2.1 (by simpa using hfirst)
  have hbytes : uuidBytes 16 u.text = some ds := by
    rw [← uuidBytes_map_lowerHex, htext, uuidBytes_append (ds.take 8) 4 12 (by simp [hlen]) (by omega) (by omega) rfl,
      uuidBytes_append ((ds.drop 8).take 4) 2 10 (by simp [hlen]) (by omega) (by omega) rfl,
      uuidBytes_append ((ds.drop 12).take 4) 2 8 (by simp [hlen]) (by omega) (by omega) rfl,
      uuidBytes_append ((ds.drop 16).take 4) 2 6 (by simp [hlen]) (by omega) (by omega) rfl,
      uuidBytes_hex (ds.drop 20) 6 (by simp [hlen])]
    have hgroup (k : Nat) : (ds.drop k).take 4 ++ ds.drop (k + 4) = ds.drop k := by
      rw [← List.drop_drop, List.take_append_drop]
    simp only [Option.map_some, hgroup 16, hgroup 12, hgroup 8, List.take_append_drop]
  rw [uuidIn, hbrace, hbytes, Option.map_some]

/-- Postgres reads back how it renders a uuid. -/
theorem uuidIn_text (u : Uuid) : uuidIn u.text = some u := by
  rw [Uuid.text, uuidIn_uuidText, Uuid.uuid_spelled]

/-! ## text -/

/-- UTF-8 has no lone surrogates: the client sends U+FFFD in their place. -/
def toWellFormed : Text → Text
  | [] => []
  | [u] => if isLeading u || isTrailing u then [0xFFFD] else [u]
  | u :: v :: rest =>
      if isLeading u && isTrailing v then u :: v :: toWellFormed rest
      else if isLeading u || isTrailing u then 0xFFFD :: toWellFormed (v :: rest)
      else u :: toWellFormed (v :: rest)

def nulFree (t : Text) : Bool := !t.contains 0

/-! ## Numbers and dates -/

def inInt4 (z : Int) : Bool := -2147483648 ≤ z && z ≤ 2147483647

def inInt8 (z : Int) : Bool := -9223372036854775808 ≤ z && z ≤ 9223372036854775807

/-- Years 1 to 9999, whose ISO strings Postgres reads. -/
def Date.storable (d : Date) : Bool := -62135596800000 ≤ d.time && d.time ≤ 253402300799999

/-- A reading of the clock by `new Date()`. -/
structure Reading where
  date : Date
  valid : date.storable = true
  deriving DecidableEq

/-- `currency ~ '^[A-Z]{3}$'`. -/
def isCurrency (t : Text) : Bool := t.length == 3 && t.all fun u => unit 'A' ≤ u && u ≤ unit 'Z'

/-! ## Row order -/

/-- The rows in the order that `order` picks: each row is put back at the next position it names. -/
def shuffle {α : Type} : List Nat → List α → List α
  | _, [] => []
  | [], x :: xs => x :: xs
  | n :: ns, x :: xs => (shuffle ns xs).insertIdx (min n (shuffle ns xs).length) x

theorem shuffle_perm {α : Type} (order : List Nat) (xs : List α) : (shuffle order xs).Perm xs := by
  fun_induction shuffle order xs with
  | case1 => exact .nil
  | case2 x xs => exact .refl _
  | case3 n ns x xs ih => exact (List.perm_insertIdx x _ (min_le_right _ _)).trans (ih.cons x)

theorem mem_shuffle {α : Type} {order : List Nat} {xs : List α} {x : α} : x ∈ shuffle order xs ↔ x ∈ xs :=
  (shuffle_perm order xs).mem_iff

/-- Where at most one row qualifies, order does not matter. -/
theorem head?_shuffle_singleton {α : Type} (order : List Nat) (x : α) : (shuffle order [x]).head? = some x := by
  have h := List.perm_singleton.mp (shuffle_perm order [x])
  rw [h]
  rfl

end FinSight
