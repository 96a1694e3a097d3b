import FinSight.Js.Date
import FinSight.Js.Number
import Mathlib.Data.List.Sort

/-!
# Canonical forms and fingerprints (`src/lib/idempotency.js`)

* `stringify` : `JSON.stringify` of a string;
* `canonicalise` : the canonical text of a value, object keys sorted;
* `Canon`, `JsVal.norm` : what the canonical text remembers of a value, `canonicalise_eq_render`;
* `Canon.render_append_inj` : canonical texts are uniquely readable, also with more text after them;
* `fingerprint` : the digest of the canonical text, SHA-256 being a parameter;
* `idempotencyKeySchema`, `IdempotencyKey` : the keys clients may choose.
-/

namespace FinSight

/-! ## `JSON.stringify` of a string -/

/-- Escapes of two code units, and the code units they stand for. -/
def shortEscapes : List (CodeUnit × CodeUnit) :=
  [(unit '"', unit '"'), (unit '\\', unit '\\'), (8, unit 'b'), (9, unit 't'), (10, unit 'n'), (12, unit 'f'),
    (13, unit 'r')]

def unicodeEscape (u : CodeUnit) : Text := unit '\\' :: unit 'u' :: (nibbles 4 u.toNat).map hexDigit

def escapeUnit (u : CodeUnit) : Text :=
  match shortEscapes.lookup u with
  | some c => [unit '\\', c]
  | none => if u < 32 then unicodeEscape u else [u]

def isLeading (u : CodeUnit) : Bool := 0xD800 ≤ u && u ≤ 0xDBFF

def isTrailing (u : CodeUnit) : Bool := 0xDC00 ≤ u && u ≤ 0xDFFF

/-- The text between the quotes: surrogates are escaped unless they form a pair. -/
def quoteUnits : Text → Text
  | [] => []
  | [u] => if isLeading u || isTrailing u then unicodeEscape u else escapeUnit u
  | u :: v :: rest =>
      if isLeading u && isTrailing v then u :: v :: quoteUnits rest
      else if isLeading u || isTrailing u then unicodeEscape u ++ quoteUnits (v :: rest)
      else escapeUnit u ++ quoteUnits (v :: rest)

def stringify (t : Text) : Text := unit '"' :: (quoteUnits t ++ [unit '"'])

/-- `e` may stand for the code unit `u` between quotes. -/
def Quotes (u : CodeUnit) (e : Text) : Prop :=
  (e = [u] ∧ u ≠ unit '"' ∧ u ≠ unit '\\') ∨ (∃ c, (u, c) ∈ shortEscapes ∧ e = [unit '\\', c]) ∨
    e = unicodeEscape u

theorem unicodeEscape_inj {u v : CodeUnit} {x y : Text} (h : unicodeEscape u ++ x = unicodeEscape v ++ y) :
    u = v ∧ x = y := by
  simp only [unicodeEscape, List.cons_append, List.cons.injEq, true_and] at h
  obtain ⟨hd, hxy⟩ := List.append_inj h (by simp [length_nibbles])
  have hinj : Function.Injective hexDigit := fun a b hab => by
    have := congrArg hexValue hab
    simpa using this
  have hn := congrArg ofNibbles (hinj.list_map hd)
  rw [ofNibbles_nibbles, ofNibbles_nibbles, Nat.mod_eq_of_lt (show u.toNat < 16 ^ 4 from u.toNat_lt),
    Nat.mod_eq_of_lt (show v.toNat < 16 ^ 4 from v.toNat_lt)] at hn
  exact ⟨UInt16.toNat_inj.mp hn, hxy⟩

/-- No representation of a code unit begins another one. -/
theorem Quotes.inj {u v : CodeUnit} {e f x y : Text} (hu : Quotes u e) (hv : Quotes v f)
    (h : e ++ x = f ++ y) : u = v ∧ x = y := by
  rcases hu with ⟨rfl, -, hu⟩ | ⟨c, hc, rfl⟩ | rfl <;> rcases hv with ⟨rfl, -, hv⟩ | ⟨d, hd, rfl⟩ | rfl
  · simpa using h
  · exact absurd (List.cons.inj h).1 hu
  · exact absurd (List.cons.inj h).1 hu
  · exact absurd (List.cons.inj h).1.symm hv
  · simp only [List.cons_append, List.nil_append, List.cons.injEq, true_and] at h
    have htable : ∀ p ∈ shortEscapes, ∀ q ∈ shortEscapes, p.2 = q.2 → p.1 = q.1 := by decide
    exact ⟨htable _ hc _ hd h.1, h.2⟩
  · have htable : ∀ p ∈ shortEscapes, p.2 ≠ unit 'u' := by decide
    exact absurd (List.cons.inj (List.cons.inj h).2).1 (htable _ hc)
  · exact absurd (List.cons.inj h).1.symm hv
  · have htable : ∀ p ∈ shortEscapes, p.2 ≠ unit 'u' := by decide
    exact absurd (List.cons.inj (List.cons.inj h).2).1.symm (htable _ hd)
  · exact unicodeEscape_inj h

theorem Quotes.ne_nil {u : CodeUnit} {e : Text} (h : Quotes u e) : ∃ v r, e = v :: r ∧ v ≠ unit '"' := by
  rcases h with ⟨rfl, hq, -⟩ | ⟨c, -, rfl⟩ | rfl
  · exact ⟨u, [], rfl, hq⟩
  · exact ⟨_, _, rfl, by decide⟩
  · exact ⟨_, _, rfl, by decide⟩

/-- A text and its quoted form, code unit by code unit. -/
inductive QuotesAll : Text → Text → Prop
  | nil : QuotesAll [] []
  | cons {u : CodeUnit} {e t f : Text} : Quotes u e → QuotesAll t f → QuotesAll (u :: t) (e ++ f)

theorem mem_shortEscapes_of_lookup {u c : CodeUnit} (h : shortEscapes.lookup u = some c) :
    (u, c) ∈ shortEscapes := by
  revert h
  generalize shortEscapes = table
  induction table with
  | nil => simp
  | cons p ps ih =>
      intro h
      rw [List.lookup_cons] at h
      split at h
      · next heq =>
        cases h
        rw [beq_iff_eq] at heq
        subst heq
        exact List.mem_cons_self
      · exact List.mem_cons_of_mem _ (ih h)

theorem quotes_escapeUnit (u : CodeUnit) : Quotes u (escapeUnit u) := by
  unfold escapeUnit
  split
  · next c hc => exact Or.inr (Or.inl ⟨c, mem_shortEscapes_of_lookup hc, rfl⟩)
  · next hnone =>
    split
    · exact Or.inr (Or.inr rfl)
    · refine Or.inl ⟨rfl, ?_, ?_⟩
      · rintro rfl
        exact absurd hnone (by decide)
      · rintro rfl
        exact absurd hnone (by decide)

theorem quotes_surrogate {u : CodeUnit} (h : isLeading u = true ∨ isTrailing u = true) : Quotes u [u] := by
  refine Or.inl ⟨rfl, ?_, ?_⟩
  · rintro rfl
    exact absurd h (by decide)
  · rintro rfl
    exact absurd h (by decide)

theorem quotesAll_quoteUnits (t : Text) : QuotesAll t (quoteUnits t) := by
  fun_induction quoteUnits t with
  | case1 => exact .nil
  | case2 u h => simpa using QuotesAll.cons (Or.inr (Or.inr rfl) : Quotes u (unicodeEscape u)) .nil
  | case3 u h => simpa using QuotesAll.cons (quotes_escapeUnit u) .nil
  | case4 u v rest h ih =>
      rw [Bool.and_eq_true] at h
      exact .cons (quotes_surrogate (Or.inl h.1)) (.cons (quotes_surrogate (Or.inr h.2)) ih)
  | case5 u v rest h h' ih => exact .cons (Or.inr (Or.inr rfl)) ih
  | case6 u v rest h h' ih => exact .cons (quotes_escapeUnit u) ih

/-- The closing quote is where the quoted text ends. -/
theorem QuotesAll.inj {s e : Text} (hs : QuotesAll s e) :
    ∀ {t f r r' : Text}, QuotesAll t f → e ++ unit '"' :: r = f ++ unit '"' :: r' → s = t ∧ r = r' := by
  induction hs with
  | nil =>
      intro t f r r' ht h
      cases ht with
      | nil => exact ⟨rfl, (List.cons.inj h).2⟩
      | cons hq _ =>
          obtain ⟨v, e, rfl, hv⟩ := hq.ne_nil
          exact absurd (List.cons.inj h).1.symm hv
  | cons hq _ ih =>
      intro t f r r' ht h
      cases ht with
      | nil =>
          obtain ⟨v, e, rfl, hv⟩ := hq.ne_nil
          exact absurd (List.cons.inj h).1 hv
      | cons hq' hall =>
          rw [List.append_assoc, List.append_assoc] at h
          obtain ⟨rfl, hrest⟩ := hq.inj hq' h
          obtain ⟨rfl, hr⟩ := ih hall hrest
          exact ⟨rfl, hr⟩

theorem stringify_append_inj {s t r r' : Text} (h : stringify s ++ r = stringify t ++ r') : s = t ∧ r = r' := by
  simp only [stringify, List.cons_append, List.append_assoc, List.cons.injEq, true_and, List.nil_append] at h
  exact (quotesAll_quoteUnits s).inj (quotesAll_quoteUnits t) h

/-- Text without quotes, backslashes, control characters and surrogates is quoted as it is. -/
theorem quoteUnits_plain {t : Text} (h : ∀ u ∈ t, escapeUnit u = [u] ∧ isLeading u = false ∧ isTrailing u = false) :
    quoteUnits t = t := by
  fun_induction quoteUnits t with
  | case1 => rfl
  | case2 u hs => simp [(h u (by simp)).2] at hs
  | case3 u hs => exact (h u (by simp)).1
  | case4 u v rest hs ih => simp [(h u (by simp)).2] at hs
  | case5 u v rest hs hs' ih => simp [(h u (by simp)).2] at hs'
  | case6 u v rest hs hs' ih =>
      rw [(h u (by simp)).1, ih fun w hw => h w (List.mem_cons_of_mem _ hw)]
      rfl

theorem plain_of_isDigit {u : CodeUnit} (h : IsDigit u) :
    escapeUnit u = [u] ∧ isLeading u = false ∧ isTrailing u = false := by
  have hu : u = UInt16.ofNat u.toNat := (UInt16.ofNat_toNat).symm
  have hall : ∀ n < 58, 48 ≤ n → escapeUnit (UInt16.ofNat n) = [UInt16.ofNat n] ∧
      isLeading (UInt16.ofNat n) = false ∧ isTrailing (UInt16.ofNat n) = false := by decide
  rw [hu]
  exact hall u.toNat (Nat.lt_succ_of_le h.2) h.1

theorem plain_of_isIso {u : CodeUnit} (h : Date.IsIso u) :
    escapeUnit u = [u] ∧ isLeading u = false ∧ isTrailing u = false := by
  have hsep : ∀ u ∈ text "-+:.TZ", escapeUnit u = [u] ∧ isLeading u = false ∧ isTrailing u = false := by decide
  exact h.elim plain_of_isDigit (hsep u)

theorem quoteUnits_isoString (d : Date) : quoteUnits d.isoString = d.isoString :=
  quoteUnits_plain fun u hu => plain_of_isIso (Date.isIso_isoString d u hu)

theorem quoteUnits_decimalInt (z : Int) : quoteUnits (decimalInt z) = decimalInt z := by
  refine quoteUnits_plain fun u hu => ?_
  cases z with
  | ofNat n => exact plain_of_isDigit (isDigit_of_mem_decimal hu)
  | negSucc n =>
      rcases List.mem_cons.mp hu with rfl | hu
      · decide
      · exact plain_of_isDigit (isDigit_of_mem_decimal hu)

/-! ## Canonical texts -/

/-- The values a request body is made of. -/
inductive JsVal where
  | undefined
  | null
  | bool (b : Bool)
  | int (n : JsInteger)
  | str (t : Text)
  | bigint (z : Int)
  | date (d : Date)
  | arr (vs : List JsVal)
  | obj (fields : List (Text × JsVal))

/-- The order of `Array.prototype.sort` on strings. -/
def codeUnitLe : Text → Text → Bool
  | [], _ => true
  | _ :: _, [] => false
  | u :: s, v :: t => if u < v then true else if u = v then codeUnitLe s t else false

/-- Fields in the order of their keys. -/
def sortKeys {α : Type} (fields : List (Text × α)) : List (Text × α) :=
  fields.insertionSort fun a b => codeUnitLe a.1 b.1

def quoted (t : Text) : Text := unit '"' :: (t ++ [unit '"'])

def joinComma (parts : List Text) : Text := [unit ','].intercalate parts

def arrayText (parts : List Text) : Text := unit '[' :: (joinComma parts ++ [unit ']'])

def objectText (fields : List (Text × Text)) : Text :=
  unit '{' :: (joinComma (fields.map fun f => stringify f.1 ++ unit ':' :: f.2) ++ [unit '}'])

mutual

def canonicalise : JsVal → Text
  | .undefined => text "null"
  | .null => text "null"
  | .bool b => if b then text "true" else text "false"
  | .int n => n.text
  | .str t => stringify t
  | .bigint z => quoted (decimalInt z)
  | .date d => quoted d.isoString
  | .arr vs => arrayText (canonicaliseAll vs)
  | .obj fields => objectText (sortKeys (canonicaliseFields fields))

def canonicaliseAll : List JsVal → List Text
  | [] => []
  | v :: vs => canonicalise v :: canonicaliseAll vs

def canonicaliseFields : List (Text × JsVal) → List (Text × Text)
  | [] => []
  | (k, v) :: fields => (k, canonicalise v) :: canonicaliseFields fields

end

/-- `createHash("sha256").update(canonicalise(data)).digest("hex")`. -/
def fingerprint (sha256 : Text → Text) (data : JsVal) : Text := sha256 (canonicalise data)

/-- What a canonical text remembers of a value. -/
inductive Canon where
  | null
  | bool (b : Bool)
  | int (n : JsInteger)
  | str (t : Text)
  | arr (vs : List Canon)
  | obj (fields : List (Text × Canon))

mutual

def Canon.render : Canon → Text
  | .null => text "null"
  | .bool b => if b then text "true" else text "false"
  | .int n => n.text
  | .str t => stringify t
  | .arr vs => arrayText (Canon.renderAll vs)
  | .obj fields => objectText (Canon.renderFields fields)

def Canon.renderAll : List Canon → List Text
  | [] => []
  | v :: vs => v.render :: Canon.renderAll vs

def Canon.renderFields : List (Text × Canon) → List (Text × Text)
  | [] => []
  | (k, v) :: fields => (k, v.render) :: Canon.renderFields fields

end

mutual

/-- Undefined is null, a bigint its decimal string, a date its ISO string, and keys are in order. -/
def JsVal.norm : JsVal → Canon
  | .undefined => .null
  | .null => .null
  | .bool b => .bool b
  | .int n => .int n
  | .str t => .str t
  | .bigint z => .str (decimalInt z)
  | .date d => .str d.isoString
  | .arr vs => .arr (JsVal.normAll vs)
  | .obj fields => .obj (sortKeys (JsVal.normFields fields))

def JsVal.normAll : List JsVal → List Canon
  | [] => []
  | v :: vs => v.norm :: JsVal.normAll vs

def JsVal.normFields : List (Text × JsVal) → List (Text × Canon)
  | [] => []
  | (k, v) :: fields => (k, v.norm) :: JsVal.normFields fields

end

theorem Canon.renderAll_eq (vs : List Canon) : Canon.renderAll vs = vs.map Canon.render := by
  induction vs with
  | nil => rfl
  | cons v vs ih => rw [Canon.renderAll, ih, List.map_cons]

theorem Canon.renderFields_eq (fields : List (Text × Canon)) :
    Canon.renderFields fields = fields.map fun f => (f.1, f.2.render) := by
  induction fields with
  | nil => rfl
  | cons f fields ih => rw [Canon.renderFields, ih, List.map_cons]

theorem orderedInsert_map {α β : Type} (f : α → β) (a : Text × α) (fields : List (Text × α)) :
    (fields.orderedInsert (fun a b => codeUnitLe a.1 b.1) a).map (fun p => (p.1, f p.2)) =
      (fields.map fun p => (p.1, f p.2)).orderedInsert (fun a b => codeUnitLe a.1 b.1) (a.1, f a.2) := by
  induction fields with
  | nil => rfl
  | cons b fields ih =>
      simp only [List.orderedInsert, List.map_cons]
      split
      · rfl
      · rw [List.map_cons, ih]

/-- Sorting looks at keys only. -/
theorem sortKeys_map {α β : Type} (f : α → β) (fields : List (Text × α)) :
    (sortKeys fields).map (fun p => (p.1, f p.2)) = sortKeys (fields.map fun p => (p.1, f p.2)) := by
  induction fields with
  | nil => rfl
  | cons a fields ih =>
      simp only [sortKeys, List.insertionSort_cons, List.map_cons] at ih ⊢
      rw [orderedInsert_map, ih]

theorem stringify_eq_quoted {t : Text} (h : quoteUnits t = t) : stringify t = quoted t := by
  rw [stringify, h, quoted]

mutual

/-- The canonical text of a value is the rendering of what it remembers. -/
theorem canonicalise_eq_render : ∀ v : JsVal, canonicalise v = v.norm.render
  | .undefined => rfl
  | .null => rfl
  | .bool _ => rfl
  | .int _ => rfl
  | .str _ => rfl
  | .bigint z => (stringify_eq_quoted (quoteUnits_decimalInt z)).symm
  | .date d => (stringify_eq_quoted (quoteUnits_isoString d)).symm
  | .arr vs => by rw [canonicalise, JsVal.norm, Canon.render, canonicaliseAll_eq vs]
  | .obj fields => by
      rw [canonicalise, JsVal.norm, Canon.render, Canon.renderFields_eq, sortKeys_map, canonicaliseFields_eq fields]

theorem canonicaliseAll_eq : ∀ vs : List JsVal, canonicaliseAll vs = Canon.renderAll (JsVal.normAll vs)
  | [] => rfl
  | v :: vs => by
      rw [canonicaliseAll, JsVal.normAll, Canon.renderAll, canonicalise_eq_render v, canonicaliseAll_eq vs]

theorem canonicaliseFields_eq : ∀ fields : List (Text × JsVal),
    canonicaliseFields fields = (JsVal.normFields fields).map fun f => (f.1, f.2.render)
  | [] => rfl
  | (k, v) :: fields => by
      rw [canonicaliseFields, JsVal.normFields, List.map_cons, canonicalise_eq_render v,
        canonicaliseFields_eq fields]

end

/-! ## Unique readability -/

/-- What may follow a value inside a canonical text. -/
def Stop (r : Text) : Prop := ∀ u t, r = u :: t → u = unit ',' ∨ u = unit ']' ∨ u = unit '}'

/-- The kind of value a first code unit announces. -/
def kindOf (u : CodeUnit) : Nat :=
  if u = unit 'n' then 0 else if u = unit 't' then 1 else if u = unit 'f' then 2 else if u = unit '"' then 3
  else if u = unit '[' then 4 else if u = unit '{' then 5 else if u = unit '-' then 6
  else if IsDigit u then 6 else 7

def Canon.kind : Canon → Nat
  | .null => 0
  | .bool true => 1
  | .bool false => 2
  | .str _ => 3
  | .arr _ => 4
  | .obj _ => 5
  | .int _ => 6

theorem Canon.kind_lt (v : Canon) : v.kind < 7 := by
  cases v with
  | bool b => cases b <;> simp [Canon.kind]
  | _ => simp [Canon.kind]

theorem kindOf_digit {u : CodeUnit} (h : IsDigit u) : kindOf u = 6 := by
  have hu : u = UInt16.ofNat u.toNat := (UInt16.ofNat_toNat).symm
  have hall : ∀ n < 58, 48 ≤ n → kindOf (UInt16.ofNat n) = 6 := by decide
  rw [hu]
  exact hall u.toNat (Nat.lt_succ_of_le h.2) h.1

theorem Canon.render_head (v : Canon) : ∃ u t, v.render = u :: t ∧ kindOf u = v.kind := by
  cases v with
  | null => exact ⟨unit 'n', _, rfl, by decide⟩
  | bool b =>
      cases b with
      | true => exact ⟨unit 't', _, rfl, by decide⟩
      | false => exact ⟨unit 'f', _, rfl, by decide⟩
  | str t => exact ⟨unit '"', _, rfl, (by decide : kindOf (unit '"') = 3)⟩
  | arr vs => exact ⟨unit '[', _, rfl, (by decide : kindOf (unit '[') = 4)⟩
  | obj fields => exact ⟨unit '{', _, rfl, (by decide : kindOf (unit '{') = 5)⟩
  | int n =>
      obtain ⟨u, t, -, hu, ⟨-, htext⟩ | ⟨-, htext⟩⟩ := n.text_cases
      · exact ⟨unit '-', _, htext, (by decide : kindOf (unit '-') = 6)⟩
      · exact ⟨u, _, htext, kindOf_digit hu⟩

/-- A text of numeric units ends where what follows it begins. -/
theorem numeric_append_inj {s t r r' : Text} (hs : ∀ u ∈ s, IsNumeric u) (ht : ∀ u ∈ t, IsNumeric u) (hr : Stop r)
    (hr' : Stop r') (h : s ++ r = t ++ r') : s = t ∧ r = r' := by
  have hstop : ∀ {r u x}, Stop r → r = u :: x → ¬ IsNumeric u := by
    intro r u x hr hx
    unfold IsNumeric
    rcases hr u x hx with rfl | rfl | rfl <;> decide
  induction s generalizing t with
  | nil =>
      cases t with
      | nil => exact ⟨rfl, h⟩
      | cons v t => exact absurd (ht v List.mem_cons_self) (hstop hr h)
  | cons u s ih =>
      cases t with
      | nil => exact absurd (hs u List.mem_cons_self) (hstop hr' h.symm)
      | cons v t =>
          obtain ⟨hu, htail⟩ := List.cons.inj h
          subst hu
          obtain ⟨rfl, hrest⟩ := ih (fun w hw => hs w (List.mem_cons_of_mem _ hw))
            (fun w hw => ht w (List.mem_cons_of_mem _ hw)) htail
          exact ⟨rfl, hrest⟩

/-- The parts after the first, each behind its comma. -/
def commaTail (parts : List Text) : Text := parts.flatMap fun p => unit ',' :: p

theorem joinComma_cons (p : Text) (ps : List Text) : joinComma (p :: ps) = p ++ commaTail ps := by
  induction ps generalizing p with
  | nil => simp [joinComma, commaTail]
  | cons q ps ih =>
      have h := ih q
      simp only [joinComma] at h ⊢
      rw [List.intercalate_cons_cons, h]
      simp [commaTail]

/-- A list of parts between commas, closed by `close`, determines the parts when each part is uniquely
readable before a comma or the closing bracket. -/
theorem joinComma_inj {α : Type} {f : α → Text} {close : CodeUnit} (hclose : close = unit ']' ∨ close = unit '}')
    {vs ws : List α} {r r' : Text}
    (hinj : ∀ v ∈ vs, ∀ w r r', Stop r → Stop r' → f v ++ r = f w ++ r' → v = w ∧ r = r')
    (hhead : ∀ v t, f v ≠ close :: t)
    (hne : ∀ v, f v ≠ [])
    (h : joinComma (vs.map f) ++ close :: r = joinComma (ws.map f) ++ close :: r') : vs = ws ∧ r = r' := by
  have hstop : ∀ (us : List α) r, Stop (commaTail (us.map f) ++ close :: r) := by
    intro us r u t hu
    cases us with
    | nil =>
        simp only [List.map_nil, commaTail, List.flatMap_nil, List.nil_append, List.cons.injEq] at hu
        exact Or.inr (hu.1 ▸ hclose)
    | cons x us =>
        simp only [List.map_cons, commaTail, List.flatMap_cons, List.cons_append, List.cons.injEq] at hu
        exact Or.inl hu.1.symm
  have hcomma : close ≠ unit ',' := by rcases hclose with rfl | rfl <;> decide
  have htail : ∀ {vs ws : List α}, (∀ v ∈ vs, ∀ w r r', Stop r → Stop r' → f v ++ r = f w ++ r' → v = w ∧ r = r') →
      commaTail (vs.map f) ++ close :: r = commaTail (ws.map f) ++ close :: r' → vs = ws ∧ r = r' := by
    intro vs
    induction vs with
    | nil =>
        intro ws _ h
        cases ws with
        | nil => exact ⟨rfl, (List.cons.inj h).2⟩
        | cons w ws => exact absurd (List.cons.inj h).1 hcomma
    | cons v vs ih =>
        intro ws hv h
        cases ws with
        | nil => exact absurd (List.cons.inj h).1.symm hcomma
        | cons w ws =>
            simp only [List.map_cons, commaTail, List.flatMap_cons, List.cons_append, List.cons.injEq, true_and,
              List.append_assoc] at h
            obtain ⟨rfl, hrest⟩ := hv v List.mem_cons_self w _ _ (hstop vs r) (hstop ws r') h
            obtain ⟨rfl, hr⟩ := ih (fun x hx => hv x (List.mem_cons_of_mem _ hx)) hrest
            exact ⟨rfl, hr⟩
  have hfirst : ∀ (w : α) (ws : List α) (x y : Text), joinComma ((w :: ws).map f) ++ x ≠ close :: y := by
    intro w ws x y h
    rw [List.map_cons, joinComma_cons] at h
    cases hw : f w with
    | nil => exact hne w hw
    | cons u t =>
        rw [hw] at h
        exact hhead w t (by rw [hw, (List.cons.inj h).1])
  cases vs with
  | nil =>
      cases ws with
      | nil => exact ⟨rfl, (List.cons.inj h).2⟩
      | cons w ws => exact absurd h.symm (hfirst w ws _ _)
  | cons v vs =>
      cases ws with
      | nil => exact absurd h (hfirst v vs _ _)
      | cons w ws =>
          simp only [List.map_cons, joinComma_cons, List.append_assoc] at h
          obtain ⟨rfl, hrest⟩ := hinj v List.mem_cons_self w _ _ (hstop vs r) (hstop ws r') h
          obtain ⟨rfl, hr⟩ := htail (fun x hx => hinj x (List.mem_cons_of_mem _ hx)) hrest
          exact ⟨rfl, hr⟩

/-- A value is determined by any text that begins with its canonical text. -/
def Canon.Readable (v : Canon) : Prop :=
  ∀ (w : Canon) (r r' : Text), Stop r → Stop r' → v.render ++ r = w.render ++ r' → v = w ∧ r = r'

theorem Canon.kind_eq {v w : Canon} {r r' : Text} (h : v.render ++ r = w.render ++ r') : v.kind = w.kind := by
  obtain ⟨u, s, hv, hu⟩ := v.render_head
  obtain ⟨x, t, hw, hx⟩ := w.render_head
  rw [hv, hw] at h
  rw [← hu, ← hx, (List.cons.inj h).1]

theorem Canon.readable_arr {vs : List Canon} (ih : ∀ v ∈ vs, v.Readable) : (Canon.arr vs).Readable := by
  intro w r r' hr hr' h
  have hk := Canon.kind_eq h
  cases w with
  | arr ws =>
      simp only [Canon.render, Canon.renderAll_eq, arrayText, List.cons_append, List.cons.injEq, true_and,
        List.append_assoc, List.nil_append] at h
      obtain ⟨rfl, hrest⟩ := joinComma_inj (Or.inl rfl) ih
        (fun v t hv => by
          obtain ⟨u, s, hu, hkind⟩ := v.render_head
          rw [hu] at hv
          have h7 : kindOf (unit ']') = 7 := by decide
          have hlt := v.kind_lt
          rw [(List.cons.inj hv).1, h7] at hkind
          omega)
        (fun v hv => by
          obtain ⟨u, s, hu, -⟩ := v.render_head
          rw [hu] at hv
          cases hv) h
      exact ⟨rfl, hrest⟩
  | bool b => cases b <;> cases hk
  | _ => cases hk

theorem Canon.readable_obj {fields : List (Text × Canon)} (ih : ∀ f ∈ fields, f.2.Readable) :
    (Canon.obj fields).Readable := by
  intro w r r' hr hr' h
  have hk := Canon.kind_eq h
  cases w with
  | obj fields' =>
      simp only [Canon.render, Canon.renderFields_eq, objectText, List.cons_append, List.cons.injEq, true_and,
        List.append_assoc, List.nil_append, List.map_map] at h
      obtain ⟨rfl, hrest⟩ := joinComma_inj (Or.inr rfl)
        (fun f hf g r r' hr hr' h => by
          have hsplit : stringify f.1 ++ (unit ':' :: (f.2.render ++ r)) =
              stringify g.1 ++ (unit ':' :: (g.2.render ++ r')) := by
            rw [← List.cons_append, ← List.cons_append, ← List.append_assoc, ← List.append_assoc]
            exact h
          obtain ⟨hkey, htail⟩ := stringify_append_inj hsplit
          obtain ⟨hval, hrest⟩ := ih f hf g.2 r r' hr hr' (List.cons.inj htail).2
          exact ⟨Prod.ext hkey hval, hrest⟩)
        (fun f t hf => absurd (List.cons.inj hf).1 (by decide))
        (fun f hf => by cases hf) h
      exact ⟨rfl, hrest⟩
  | bool b => cases b <;> cases hk
  | _ => cases hk

/-- **Canonical texts are uniquely readable.** -/
theorem Canon.readable (v : Canon) : v.Readable := by
  match v with
  | .arr vs => exact Canon.readable_arr fun v hv => Canon.readable v
  | .obj fields => exact Canon.readable_obj fun f hf => Canon.readable f.2
  | .null =>
      intro w r r' hr hr' h
      have hk := Canon.kind_eq h
      cases w with
      | null => exact ⟨rfl, List.append_cancel_left h⟩
      | bool b => cases b <;> cases hk
      | _ => cases hk
  | .bool b =>
      intro w r r' hr hr' h
      have hk := Canon.kind_eq h
      cases w with
      | bool b' =>
          cases b <;> cases b' <;> first | exact ⟨rfl, List.append_cancel_left h⟩ | cases hk
      | _ => cases b <;> cases hk
  | .str t =>
      intro w r r' hr hr' h
      have hk := Canon.kind_eq h
      cases w with
      | str t' =>
          obtain ⟨rfl, hrest⟩ := stringify_append_inj h
          exact ⟨rfl, hrest⟩
      | bool b => cases b <;> cases hk
      | _ => cases hk
  | .int n =>
      intro w r r' hr hr' h
      have hk := Canon.kind_eq h
      cases w with
      | int n' =>
          obtain ⟨htext, hrest⟩ := numeric_append_inj n.isNumeric_text n'.isNumeric_text hr hr' h
          exact ⟨congrArg _ (JsInteger.text_injective htext), hrest⟩
      | bool b => cases b <;> cases hk
      | _ => cases hk
termination_by sizeOf v
decreasing_by
  · have := List.sizeOf_lt_of_mem hv
    simp only [Canon.arr.sizeOf_spec]
    omega
  · have := List.sizeOf_lt_of_mem hf
    have hfst : sizeOf f.2 < sizeOf f := by
      cases f
      simp
    simp only [Canon.obj.sizeOf_spec]
    omega

theorem Canon.render_injective : Function.Injective Canon.render := fun v w h =>
  (v.readable w [] [] (by rintro _ _ ⟨⟩) (by rintro _ _ ⟨⟩) (by simpa using h)).1

/-- Values with one canonical text are equal up to what `norm` identifies. -/
theorem norm_eq_of_canonicalise_eq {v w : JsVal} (h : canonicalise v = canonicalise w) : v.norm = w.norm := by
  rw [canonicalise_eq_render, canonicalise_eq_render] at h
  exact Canon.render_injective h

/-! ## Idempotency keys -/

/-- The white space of `String.prototype.trim`. -/
def isSpace (u : CodeUnit) : Bool :=
  (9 ≤ u && u ≤ 13) || u == 32 || u == 0xA0 || u == 0x1680 || (0x2000 ≤ u && u ≤ 0x200A) || u == 0x2028 ||
    u == 0x2029 || u == 0x202F || u == 0x205F || u == 0x3000 || u == 0xFEFF

def trim (t : Text) : Text := ((t.dropWhile isSpace).reverse.dropWhile isSpace).reverse

/-- What the HTTP parser lets into a header value: Latin-1 without control characters other than tab. -/
def isHeaderUnit (u : CodeUnit) : Bool := u == 9 || (32 ≤ u && u != 127 && u ≤ 255)

def idempotencyKeySchema (header : Text) : Option Text :=
  let key := trim header
  if 1 ≤ key.length ∧ key.length ≤ 255 then some key else none

/-- An `Idempotency-Key` after parsing. -/
structure IdempotencyKey where
  text : Text
  header : text.all isHeaderUnit = true
  valid : idempotencyKeySchema text = some text
  deriving DecidableEq

end FinSight
