import FinSight.Ask.Prompt
import FinSight.Js.Space

/-!
# Source tags

* `TagText gap closes w` : `w` is a tag, up to its name; `tagPattern_append`, `tagPattern_some` : what is matched;
* `tagFree_neutralize` : no tag is left in neutralized text; `tagFree_attr` : in an attribute, there is one where a
  quote stands between the `<` and the name;
* `sourceTags_iff` : the tags of the prompt are those of its blocks exactly when no attribute hides a tag.
-/

namespace FinSight.Ask

open Scanning

/-! ## Tags -/

/-- `</?`, units of `gap`, `source`. -/
def TagText (gap : CodeUnit → Bool) (closes : Bool) (w : Text) : Prop :=
  ∃ ws name, w = unit '<' :: ((if closes then text "/" else []) ++ ws ++ name) ∧ (∀ u ∈ ws, gap u = true) ∧
    name.map lowerCase = text "source"

/-- Units that occur in a tag only as what they are: not in its gap, its name, or as its slash. -/
def Apart (gap : CodeUnit → Bool) (u : CodeUnit) : Prop :=
  u ≠ unit '/' ∧ gap u = false ∧ lowerCase u ∉ text "source"

/-- Gaps that `</?` and the name end. -/
structure Gap (gap : CodeUnit → Bool) : Prop where
  angle : gap (unit '<') = false
  slash : gap (unit '/') = false
  name : ∀ u, lowerCase u ∈ text "source" → gap u = false

theorem name_ne {u : CodeUnit} (h : lowerCase u ∈ text "source") : u ≠ unit '<' ∧ u ≠ unit '/' ∧ u ≠ unit '‹' := by
  refine ⟨?_, ?_, ?_⟩ <;> rintro rfl <;> exact absurd h (by decide)

variable {gap : CodeUnit → Bool}

theorem mem_name {name : Text} (h : name.map lowerCase = text "source") {u : CodeUnit} (hu : u ∈ name) :
    lowerCase u ∈ text "source" := h ▸ List.mem_map_of_mem hu

theorem TagText.head {closes : Bool} {w : Text} (h : TagText gap closes w) : w.head? = some (unit '<') := by
  obtain ⟨ws, name, rfl, -, -⟩ := h
  rfl

theorem TagText.cons {closes : Bool} {w : Text} (h : TagText gap closes w) : ∃ v, w = unit '<' :: v := by
  obtain ⟨ws, name, rfl, -, -⟩ := h
  exact ⟨_, rfl⟩

theorem TagText.length_pos {closes : Bool} {w : Text} (h : TagText gap closes w) : 0 < w.length := by
  obtain ⟨v, rfl⟩ := h.cons
  exact Nat.succ_pos _

/-- The rest of a tag. -/
theorem TagText.mem_tail {closes : Bool} {w : Text} (h : TagText gap closes w) {u : CodeUnit} (hu : u ∈ w.tail) :
    u = unit '/' ∨ gap u = true ∨ lowerCase u ∈ text "source" := by
  obtain ⟨ws, name, rfl, hws, hname⟩ := h
  rw [List.tail_cons, List.mem_append, List.mem_append] at hu
  rcases hu with (hslash | hgap) | hu
  · cases closes
    · cases hslash
    · exact Or.inl (List.mem_singleton.mp hslash)
  · exact Or.inr (Or.inl (hws u hgap))
  · exact Or.inr (Or.inr (mem_name hname hu))

theorem Apart.not_mem {u : CodeUnit} (h : Apart gap u) {closes : Bool} {w : Text} (hw : TagText gap closes w) :
    u ∉ w.tail := by
  intro hu
  rcases hw.mem_tail hu with hslash | hgap | hname
  · exact h.1 hslash
  · rw [h.2.1] at hgap
    cases hgap
  · exact h.2.2 hname

/-- A tag has its `<` at the start only. -/
theorem Gap.apart (hgap : Gap gap) : Apart gap (unit '<') := ⟨by decide, hgap.angle, by decide⟩

theorem span_gap (hgap : Gap gap) {ws name : Text} (hws : ∀ u ∈ ws, gap u = true)
    (hname : name.map lowerCase = text "source") (rest : Text) :
    (ws ++ name ++ rest).takeWhile gap = ws ∧ (ws ++ name ++ rest).dropWhile gap = name ++ rest := by
  cases name with
  | nil => cases hname
  | cons c name =>
      have hc : gap c = false := hgap.name c (mem_name hname List.mem_cons_self)
      rw [List.append_assoc, List.takeWhile_append_of_pos hws, List.dropWhile_append_of_pos hws]
      simp [hc]

theorem tagName_append (hgap : Gap gap) {ws name : Text} (hws : ∀ u ∈ ws, gap u = true)
    (hname : name.map lowerCase = text "source") (rest : Text) (closes : Bool) (skip : Nat) :
    tagName gap closes skip (ws ++ name ++ rest) = some (closes, skip + (ws ++ name).length) := by
  obtain ⟨htake, hdrop⟩ := span_gap hgap hws hname rest
  have hlength : name.length = 6 := by
    have hsix := congrArg List.length hname
    rwa [List.length_map] at hsix
  have htaken : (name ++ rest).take 6 = name := by rw [← hlength, List.take_left]
  rw [tagName, htake, hdrop, htaken, if_pos hname, List.length_append, hlength, Nat.add_assoc]

/-- The pattern matches the tags. -/
theorem tagPattern_append (hgap : Gap gap) {closes : Bool} {w : Text} (h : TagText gap closes w) (rest : Text) :
    tagPattern gap (w ++ rest) = some (closes, w.length - 1) := by
  obtain ⟨ws, name, rfl, hws, hname⟩ := h
  cases closes with
  | true =>
      show tagPattern gap (unit '<' :: unit '/' :: (ws ++ name ++ rest)) = _
      rw [tagPattern.eq_def]
      dsimp only
      rw [if_pos rfl, if_pos rfl, tagName_append hgap hws hname]
      show some (true, 1 + (ws ++ name).length) = some (true, (ws ++ name).length + 1)
      rw [Nat.add_comm]
  | false =>
      obtain ⟨c, t, hcons, hc⟩ : ∃ c t, ws ++ name = c :: t ∧ c ≠ unit '/' := by
        cases ws with
        | cons u ws =>
            refine ⟨u, ws ++ name, rfl, ?_⟩
            rintro rfl
            have hu := hws _ List.mem_cons_self
            rw [hgap.slash] at hu
            cases hu
        | nil =>
            cases name with
            | nil => cases hname
            | cons c name => exact ⟨c, name, rfl, (name_ne (mem_name hname List.mem_cons_self)).2.1⟩
      have hmatch := tagName_append hgap hws hname rest false 0
      show tagPattern gap (unit '<' :: (ws ++ name ++ rest)) = some (false, (ws ++ name).length)
      rw [hcons] at hmatch ⊢
      rw [List.cons_append, tagPattern, if_pos rfl, if_neg hc, ← List.cons_append, hmatch, Nat.zero_add]

theorem tagName_some {t : Text} {closes closes' : Bool} {skip n : Nat}
    (h : tagName gap closes skip t = some (closes', n)) :
    closes = closes' ∧ ∃ ws name rest, t = ws ++ name ++ rest ∧ (∀ u ∈ ws, gap u = true) ∧
      name.map lowerCase = text "source" ∧ n = skip + (ws ++ name).length := by
  unfold tagName at h
  split at h
  · next hname =>
    obtain ⟨hcloses, hn⟩ := Prod.mk.inj (Option.some.inj h)
    have hlength : ((t.dropWhile gap).take 6).length = 6 := by
      have hsix := congrArg List.length hname
      rwa [List.length_map] at hsix
    refine ⟨hcloses, t.takeWhile gap, (t.dropWhile gap).take 6, (t.dropWhile gap).drop 6, ?_,
      fun u hu => List.mem_takeWhile_imp hu, hname, ?_⟩
    · rw [List.append_assoc, List.take_append_drop, List.takeWhile_append_dropWhile]
    · rw [List.length_append, hlength, ← Nat.add_assoc, hn]
  · cases h

theorem tagPattern_some {t : Text} {closes : Bool} {n : Nat} (h : tagPattern gap t = some (closes, n)) :
    ∃ w, TagText gap closes w ∧ w <+: t ∧ w.length = n + 1 := by
  match t with
  | [] => cases h
  | [_] => cases h
  | u :: v :: rest =>
      rw [tagPattern] at h
      split at h
      · next hu =>
        subst hu
        split at h
        · next hv =>
          subst hv
          obtain ⟨rfl, ws, name, rest, rfl, hws, hname, rfl⟩ := tagName_some h
          refine ⟨unit '<' :: (text "/" ++ ws ++ name), ⟨ws, name, rfl, hws, hname⟩, ⟨rest, ?_⟩, ?_⟩
          · show unit '<' :: unit '/' :: (ws ++ name ++ rest) = _
            rfl
          · rw [List.length_cons, List.append_assoc, List.length_append]
            rfl
        · obtain ⟨rfl, ws, name, rest, heq, hws, hname, rfl⟩ := tagName_some h
          refine ⟨unit '<' :: (ws ++ name), ⟨ws, name, rfl, hws, hname⟩, ⟨rest, ?_⟩, ?_⟩
          · rw [heq]
            rfl
          · rw [List.length_cons, Nat.zero_add]
      · cases h

/-! ## Texts without tags -/

/-- No tag occurs in the text. -/
def TagFree (gap : CodeUnit → Bool) (t : Text) : Prop := ∀ closes w, TagText gap closes w → ¬ w <:+: t

theorem tagFree_iff (hgap : Gap gap) {i : Nat} {t : Text} :
    occurrences (tagPattern gap) i t = [] ↔ TagFree gap t := by
  rw [occurrences_eq_nil]
  constructor
  · rintro h closes w hw ⟨x, y, rfl⟩
    have hnone := h (w ++ y) ⟨x, by rw [List.append_assoc]⟩ (by
      obtain ⟨ws, name, rfl, -⟩ := hw
      exact List.cons_ne_nil _ _)
    rw [tagPattern_append hgap hw] at hnone
    cases hnone
  · intro h s hs _
    cases hm : tagPattern gap s with
    | none => rfl
    | some r =>
        obtain ⟨w, hw, hstart, -⟩ := tagPattern_some hm
        exact absurd (hstart.isInfix.trans hs.isInfix) (h _ w hw)

/-- No tag crosses a unit that stands apart. -/
theorem tagPattern_barrier (hgap : Gap gap) {b : CodeUnit} (hb : Apart gap b) {s y : Text} (hs : s ≠ []) :
    tagPattern gap (s ++ b :: y) = tagPattern gap s := by
  have hshort : ∀ {closes : Bool} {w : Text}, TagText gap closes w → w <+: s ++ b :: y → w <+: s := by
    intro closes w hw hstart
    have htail := hb.not_mem hw
    cases s with
    | nil => exact absurd rfl hs
    | cons a s =>
        rcases List.prefix_cons_iff.mp hstart with rfl | ⟨v, rfl, hv⟩
        · exact List.nil_prefix
        · exact List.cons_prefix_cons.mpr ⟨rfl, prefix_of_prefix_append_cons htail hv⟩
  have hcases : ∀ {t : Text} {r : Bool × Nat}, tagPattern gap t = some r → ∃ w rest, TagText gap r.1 w ∧
      t = w ++ rest ∧ w.length = r.2 + 1 := by
    intro t r h
    obtain ⟨w, hw, ⟨rest, rfl⟩, hlength⟩ := tagPattern_some h
    exact ⟨w, rest, hw, rfl, hlength⟩
  cases hm : tagPattern gap (s ++ b :: y) with
  | some r =>
      obtain ⟨w, rest, hw, heq, hlength⟩ := hcases hm
      obtain ⟨rest', rfl⟩ := hshort hw ⟨rest, heq.symm⟩
      rw [tagPattern_append hgap hw, hlength]
      rfl
  | none =>
      cases hm' : tagPattern gap s with
      | none => rfl
      | some r =>
          obtain ⟨w, rest, hw, rfl, hlength⟩ := hcases hm'
          rw [List.append_assoc, tagPattern_append hgap hw] at hm
          cases hm

theorem occurrences_barrier (hgap : Gap gap) {b : CodeUnit} (hb : Apart gap b) (x y : Text) (i : Nat) :
    occurrences (tagPattern gap) i (x ++ b :: y) =
      occurrences (tagPattern gap) i x ++ occurrences (tagPattern gap) (i + x.length) (b :: y) :=
  occurrences_append (fun _ _ hs => tagPattern_barrier hgap hb hs) i

/-- A text without `<`. -/
theorem tagPattern_plain {t : Text} (h : t.head? ≠ some (unit '<')) : tagPattern gap t = none := by
  match t with
  | [] => rfl
  | [_] => rfl
  | u :: v :: rest => exact if_neg fun hu => h (congrArg some hu)

theorem occurrences_plain {x : Text} (hx : unit '<' ∉ x) (y : Text) (i : Nat) :
    occurrences (tagPattern gap) i (x ++ y) = occurrences (tagPattern gap) (i + x.length) y := by
  induction x generalizing i with
  | nil => rfl
  | cons a x ih =>
      rw [List.mem_cons, not_or] at hx
      rw [List.cons_append, occurrences_none (tagPattern_plain fun heq => hx.1 (Option.some.inj heq).symm), ih hx.2,
        List.length_cons]
      congr 1
      omega

/-! ## neutralize -/

theorem name_range {u : CodeUnit} (h : lowerCase u ∈ text "source") : 65 ≤ u.toNat ∧ u.toNat ≤ 122 := by
  unfold lowerCase at h
  split at h
  · next hcase =>
    have hlow : 65 ≤ u.toNat := hcase.1
    have hhigh : u.toNat ≤ 90 := hcase.2
    omega
  · have hall : ∀ v ∈ text "source", 65 ≤ v.toNat ∧ v.toNat ≤ 122 := by decide
    exact hall u h

theorem gap_isSpace : Gap isSpace where
  angle := by decide
  slash := by decide
  name u h := by
    have hrange := name_range h
    by_contra hspace
    have hout := isSpace_range (Bool.not_eq_false _ ▸ hspace)
    omega

/-- Spaces and quotes. -/
def spaceOrQuote (u : CodeUnit) : Bool := isSpace u || u == unit '"'

theorem gap_spaceOrQuote : Gap spaceOrQuote where
  angle := by decide
  slash := by decide
  name u h := by
    rw [spaceOrQuote, gap_isSpace.name u h, Bool.false_or, beq_eq_false_iff_ne]
    rintro rfl
    exact absurd h (by decide)

/-- `‹` does not occur in a tag, and neither does a second `<`. -/
theorem apart_guillemet : Apart spaceOrQuote (unit '‹') := ⟨by decide, by decide, by decide⟩

/-- What starts with `<` is neutralized by itself. -/
theorem neutralize_append {y : Text} (hy : y.head? = some (unit '<')) (x : Text) :
    neutralize (x ++ y) = neutralize x ++ neutralize y := by
  obtain ⟨y, rfl⟩ : ∃ z, y = unit '<' :: z := by
    cases y with
    | nil => cases hy
    | cons c z => exact ⟨z, by rw [Option.some.inj hy]⟩
  unfold neutralize
  refine scan_induction (P := fun x => replaceAll sourcePattern neutralized (x ++ unit '<' :: y) =
    replaceAll sourcePattern neutralized x ++ replaceAll sourcePattern neutralized (unit '<' :: y))
    sourcePattern rfl ?_ ?_ x
  · intro a as b n hm ih
    have hsame := tagPattern_barrier gap_isSpace gap_isSpace.apart (y := y) (List.cons_ne_nil a as)
    obtain ⟨w, -, hstart, hlength⟩ := tagPattern_some hm
    have hle : n ≤ as.length := by
      have hw := hstart.length_le
      rw [List.length_cons] at hw
      omega
    rw [replaceAll_match hm, List.append_assoc, ← ih, ← List.drop_append_of_le_length hle]
    exact replaceAll_match (hsame.trans hm)
  · intro a as hm ih
    have hsame := tagPattern_barrier gap_isSpace gap_isSpace.apart (y := y) (List.cons_ne_nil a as)
    rw [replaceAll_none hm, List.cons_append, List.cons_append, ← ih]
    exact replaceAll_none (hsame.trans hm)

/-- Text without `<` is left as it is. -/
theorem neutralize_plain {x : Text} (hx : unit '<' ∉ x) (y : Text) : neutralize (x ++ y) = x ++ neutralize y := by
  induction x with
  | nil => rfl
  | cons a x ih =>
      rw [List.mem_cons, not_or] at hx
      have hm : sourcePattern (a :: (x ++ y)) = none := tagPattern_plain fun heq => hx.1 (Option.some.inj heq).symm
      show replaceAll sourcePattern neutralized (a :: (x ++ y)) = a :: (x ++ neutralize y)
      rw [replaceAll_none hm, ← ih hx.2]
      rfl

/-- What neutralized text starts with, without `<` and `‹`, was there before. -/
theorem prefix_of_prefix_neutralize {v t : Text} (hangle : unit '<' ∉ v) (hguillemet : unit '‹' ∉ v)
    (h : v <+: neutralize t) : v <+: t := by
  induction v generalizing t with
  | nil => exact List.nil_prefix
  | cons c v ih =>
      rw [List.mem_cons, not_or] at hangle hguillemet
      cases t with
      | nil => exact absurd h (by simp [neutralize])
      | cons a as =>
          cases hm : sourcePattern (a :: as) with
          | some r =>
              unfold neutralize at h
              rw [replaceAll_match (b := r.1) (n := r.2) hm] at h
              obtain ⟨hc, -⟩ := List.cons_prefix_cons.mp (show c :: v <+: unit '‹' :: _ from h)
              exact absurd hc.symm hguillemet.1
          | none =>
              unfold neutralize at h
              rw [replaceAll_none hm] at h
              obtain ⟨rfl, hrest⟩ := List.cons_prefix_cons.mp h
              exact List.cons_prefix_cons.mpr ⟨rfl, ih hangle.2 hguillemet.2 hrest⟩

theorem TagText.space_of_no_quote {closes : Bool} {w : Text} (h : TagText spaceOrQuote closes w)
    (hquote : unit '"' ∉ w) : TagText isSpace closes w := by
  obtain ⟨ws, name, rfl, hws, hname⟩ := h
  refine ⟨ws, name, rfl, fun u hu => ?_, hname⟩
  have hgap := hws u hu
  rw [spaceOrQuote, Bool.or_eq_true, beq_iff_eq] at hgap
  refine hgap.resolve_right fun heq => hquote ?_
  rw [← heq]
  exact List.mem_cons_of_mem _ (List.mem_append_left _ (List.mem_append_right _ hu))

theorem TagText.quote {closes : Bool} {w : Text} (h : TagText isSpace closes w) : TagText spaceOrQuote closes w := by
  obtain ⟨ws, name, rfl, hws, hname⟩ := h
  exact ⟨ws, name, rfl, fun u hu => by rw [spaceOrQuote, hws u hu, Bool.true_or], hname⟩

theorem apart_quote : Apart isSpace (unit '"') := ⟨by decide, by decide, by decide⟩

theorem apart_angle : Apart isSpace (unit '>') := ⟨by decide, by decide, by decide⟩

/-- Neutralized text has no tag but those that hide behind a quote. -/
theorem hidden_of_neutralize {t : Text} {closes : Bool} {w : Text} (hw : TagText spaceOrQuote closes w)
    (h : w <:+: neutralize t) : unit '"' ∈ w ∧ w <:+: t := by
  revert h
  refine scan_induction (P := fun t => w <:+: neutralize t → unit '"' ∈ w ∧ w <:+: t) sourcePattern ?_ ?_ ?_ t
  · intro h
    obtain ⟨ws, name, rfl, -⟩ := hw
    cases List.infix_nil.mp h
  · intro a as b n hm ih h
    unfold neutralize at h
    rw [replaceAll_match hm] at h
    have hnot : unit '<' ∉ neutralized b := by
      cases b <;> decide
    obtain ⟨hquote, hinfix⟩ := ih (infix_of_infix_append hw.head hnot h)
    exact ⟨hquote, hinfix.trans ((List.drop_suffix n as).trans (List.suffix_cons a as)).isInfix⟩
  · intro a as hm ih h
    unfold neutralize at h
    rw [replaceAll_none hm] at h
    rcases List.infix_cons_iff.mp h with hstart | hinfix
    · have hstart' : w <+: a :: as := by
        rcases List.prefix_cons_iff.mp hstart with rfl | ⟨v, rfl, hv⟩
        · exact List.nil_prefix
        · exact List.cons_prefix_cons.mpr ⟨rfl, prefix_of_prefix_neutralize (gap_spaceOrQuote.apart.not_mem hw)
            (apart_guillemet.not_mem hw) hv⟩
      refine ⟨?_, hstart'.isInfix⟩
      by_contra hquote
      obtain ⟨rest, heq⟩ := hstart'
      have hmatch := tagPattern_append gap_isSpace (hw.space_of_no_quote hquote) rest
      rw [heq] at hmatch
      rw [sourcePattern, hmatch] at hm
      cases hm
    · obtain ⟨hquote, hinfix⟩ := ih hinfix
      exact ⟨hquote, hinfix.trans (List.suffix_cons a as).isInfix⟩

/-- **Neutralized text has no tags.** -/
theorem tagFree_neutralize (t : Text) : TagFree isSpace (neutralize t) := by
  intro closes w hw hinfix
  have hquote := (hidden_of_neutralize hw.quote hinfix).1
  obtain ⟨v, rfl⟩ := hw.cons
  rcases List.mem_cons.mp hquote with hangle | hmem
  · exact absurd hangle (by decide)
  · exact apart_quote.not_mem hw hmem

/-! ## attr -/

/-- A tag with a quote in its gap. -/
def Hides (t : Text) : Prop := ∃ closes w, TagText spaceOrQuote closes w ∧ unit '"' ∈ w ∧ w <:+: t

/-- A quote keeps a tag from being neutralized. -/
theorem neutralize_hides {t : Text} {closes : Bool} {w : Text} (hw : TagText spaceOrQuote closes w)
    (hquote : unit '"' ∈ w) (h : w <:+: t) : w <:+: neutralize t := by
  obtain ⟨x, y, rfl⟩ := h
  have hhead : (w ++ y).head? = some (unit '<') := by
    rw [List.head?_append, hw.head]
    rfl
  rw [List.append_assoc, neutralize_append hhead]
  refine List.infix_append_of_infix_right (List.IsPrefix.isInfix ?_)
  obtain ⟨v, rfl⟩ := hw.cons
  have hm : sourcePattern (unit '<' :: (v ++ y)) = none := by
    cases hm : sourcePattern (unit '<' :: (v ++ y)) with
    | none => rfl
    | some r =>
        obtain ⟨w, hw', ⟨rest, heq⟩, -⟩ := tagPattern_some hm
        -- one tag starts here, so the two are the same
        have hsame := tagPattern_append gap_spaceOrQuote hw'.quote rest
        rw [heq, ← List.cons_append, tagPattern_append gap_spaceOrQuote hw] at hsame
        have hlength : w.length = (unit '<' :: v).length := by
          have hminus := (Prod.mk.inj (Option.some.inj hsame)).2
          have hpos := hw'.length_pos
          rw [List.length_cons] at hminus ⊢
          omega
        obtain ⟨rfl, -⟩ := List.append_inj heq hlength
        rcases List.mem_cons.mp hquote with hangle | hmem
        · exact absurd hangle (by decide)
        · exact absurd hmem (apart_quote.not_mem hw')
  unfold neutralize
  rw [List.cons_append, replaceAll_none hm]
  refine List.cons_prefix_cons.mpr ⟨rfl, ?_⟩
  have hplain := neutralize_plain (gap_spaceOrQuote.apart.not_mem hw) y
  exact ⟨neutralize y, hplain.symm⟩

theorem blank_eq {u v : CodeUnit} (h : blank u = v) (hv : v ≠ unit ' ') : u = v := by
  unfold blank at h
  split at h
  · exact absurd h.symm hv
  · exact h

theorem blank_space {u : CodeUnit} : isSpace (blank u) = true ↔ spaceOrQuote u = true := by
  unfold blank spaceOrQuote
  split
  · next h => rcases h with rfl | rfl | rfl <;> decide
  · next h =>
    rw [not_or] at h
    rw [beq_eq_false_iff_ne.mpr h.1, Bool.or_false]

theorem blank_name {u : CodeUnit} (h : lowerCase u ∈ text "source") : blank u = u := by
  refine if_neg ?_
  rintro (rfl | rfl | rfl) <;> exact absurd h (by decide)

theorem map_blank_name {name : Text} (h : name.map lowerCase = text "source") : name.map blank = name := by
  conv_rhs => rw [← List.map_id name]
  exact List.map_congr_left fun u hu => blank_name (mem_name h hu)

/-- A quote becomes a space. -/
theorem tagText_blank {closes : Bool} {w : Text} :
    TagText isSpace closes (w.map blank) ↔ TagText spaceOrQuote closes w := by
  constructor
  · rintro ⟨ws, name, heq, hws, hname⟩
    obtain ⟨u, v, rfl, hu, hv⟩ := List.map_eq_cons_iff.mp heq
    obtain ⟨v₁, name₀, rfl, hv₁, rfl⟩ := List.map_eq_append_iff.mp hv
    obtain ⟨slash, ws₀, rfl, hslash, rfl⟩ := List.map_eq_append_iff.mp hv₁
    have hslash' : slash = if closes then text "/" else [] := by
      cases closes with
      | false => exact List.map_eq_nil_iff.mp hslash
      | true =>
          obtain ⟨c, r, rfl, hc, hr⟩ := List.map_eq_cons_iff.mp (show slash.map blank = unit '/' :: [] from hslash)
          rw [List.map_eq_nil_iff.mp hr, blank_eq hc (by decide)]
          rfl
    have hname' : name₀.map blank = name₀ := by
      conv_rhs => rw [← List.map_id name₀]
      refine List.map_congr_left fun c hc => (blank_eq rfl ?_).symm
      intro hspace
      have hletter := mem_name hname (List.mem_map_of_mem hc)
      rw [hspace] at hletter
      exact absurd hletter (by decide)
    refine ⟨ws₀, name₀, ?_, fun c hc => blank_space.mp (hws _ (List.mem_map_of_mem hc)), hname' ▸ hname⟩
    rw [blank_eq hu (by decide), hslash']
  · rintro ⟨ws, name, rfl, hws, hname⟩
    refine ⟨ws.map blank, name, ?_, ?_, hname⟩
    · rw [List.map_cons, List.map_append, List.map_append, map_blank_name hname]
      cases closes <;> rfl
    · intro u hu
      obtain ⟨c, hc, rfl⟩ := List.mem_map.mp hu
      exact blank_space.mpr (hws c hc)

theorem tagFree_map_blank {t : Text} : TagFree isSpace (t.map blank) ↔ TagFree spaceOrQuote t := by
  constructor
  · intro h closes w hw hin
    exact h closes _ (tagText_blank.mpr hw) (hin.map blank)
  · intro h closes w hw hinfix
    obtain ⟨w, hw', rfl⟩ := List.infix_map_iff.mp hinfix
    exact h closes w (tagText_blank.mp hw) hw'

theorem TagText.head_reverse {closes : Bool} {w : Text} (h : TagText gap closes w) :
    ∃ c, w.reverse.head? = some c ∧ lowerCase c ∈ text "source" := by
  obtain ⟨ws, name, rfl, -, hname⟩ := h
  rcases List.eq_nil_or_concat name with rfl | ⟨init, c, rfl⟩
  · cases hname
  · refine ⟨c, ?_, mem_name hname (by simp)⟩
    rw [List.head?_reverse, ← List.cons_append, List.concat_eq_append, ← List.append_assoc, List.getLast?_concat]

theorem tagFree_trim {t : Text} : TagFree isSpace (trim t) ↔ TagFree isSpace t := by
  refine forall₃_congr fun closes w hw => not_congr ?_
  obtain ⟨c, hc, hletter⟩ := hw.head_reverse
  rw [trim, ← List.reverse_infix, List.reverse_reverse, infix_dropWhile hc (gap_isSpace.name c hletter),
    List.reverse_infix, infix_dropWhile hw.head gap_isSpace.angle]

/-- **An attribute has a tag where its text hides one.** -/
theorem tagFree_attr {t : Text} : TagFree isSpace (attr t) ↔ ¬ Hides t := by
  rw [attr, tagFree_trim, tagFree_map_blank]
  constructor
  · rintro h ⟨closes, w, hw, hquote, hinfix⟩
    exact h closes w hw (neutralize_hides hw hquote hinfix)
  · intro h closes w hw hinfix
    obtain ⟨hquote, hinfix'⟩ := hidden_of_neutralize hw hinfix
    exact h ⟨closes, w, hw, hquote, hinfix'⟩

/-! ## The prompt -/

theorem TagFree.append_newline {t : Text} (h : TagFree isSpace t) : TagFree isSpace (t ++ newline) := by
  intro closes w hw hinfix
  obtain ⟨c, hc, hletter⟩ := hw.head_reverse
  refine h closes w hw ?_
  rw [← List.reverse_infix, List.reverse_append] at hinfix
  rw [← List.reverse_infix]
  refine infix_of_infix_append hc ?_ hinfix
  intro hmem
  rw [List.mem_singleton.mp hmem] at hletter
  exact absurd hletter (by decide)

theorem TagFree.occurrences_eq {t : Text} (h : TagFree isSpace t) (i : Nat) : occurrences sourcePattern i t = [] :=
  (tagFree_iff gap_isSpace).mpr h

theorem not_mem_decimal (n : Nat) : unit '<' ∉ decimal n := fun h => absurd (isDigit_of_mem_decimal h) (by decide)

theorem not_mem_pagesText (chunk : RetrievedChunk) : unit '<' ∉ pagesText chunk := by
  have hint : ∀ z, unit '<' ∉ decimalInt z := by
    intro z
    cases z with
    | ofNat n => exact not_mem_decimal n
    | negSucc n => exact List.not_mem_cons_of_ne_of_not_mem (by decide) (not_mem_decimal (n + 1))
  unfold pagesText
  split
  · exact hint _
  · simp only [List.mem_append, not_or]
    exact ⟨⟨hint _, by decide⟩, hint _⟩

/-- Up to a quote, and past text without `<`. -/
theorem occurrences_quoted {x : Text} (hx : unit '<' ∉ x) (t y : Text) (i : Nat) :
    occurrences sourcePattern i (t ++ unit '"' :: (x ++ y)) =
      occurrences sourcePattern i t ++ occurrences sourcePattern (i + (t.length + 1 + x.length)) y := by
  have hplain : unit '<' ∉ unit '"' :: x := List.not_mem_cons_of_ne_of_not_mem (by decide) hx
  rw [sourcePattern, occurrences_barrier gap_isSpace apart_quote, ← List.cons_append, occurrences_plain hplain,
    List.length_cons]
  congr 2
  omega

/-- The tags of a block, and those of its two attributes. -/
theorem occurrences_sourceBlock (n : Nat) (chunk : RetrievedChunk) (rest : Text) (i : Nat) :
    ∃ j k, occurrences sourcePattern i (sourceBlock n chunk ++ rest) = (i, false) ::
      (occurrences sourcePattern j (attr (chunk.documentTitle.getD (text "Untitled document"))) ++
        (occurrences sourcePattern k (attr (chunk.sectionHeading.getD [])) ++
          (i + (sourceBlock n chunk).length - 9, true) ::
            occurrences sourcePattern (i + (sourceBlock n chunk).length) rest)) := by
  have hfirst : unit '<' ∉ decimal n ++ text "\" document=\"" := by
    rw [List.mem_append, not_or]
    exact ⟨not_mem_decimal n, by decide⟩
  have hthird : unit '<' ∉ text " pages=\"" ++ pagesText chunk ++ text "\">\n" := by
    simp only [List.mem_append, not_or]
    exact ⟨⟨by decide, not_mem_pagesText chunk⟩, by decide⟩
  generalize htitle : attr (chunk.documentTitle.getD (text "Untitled document")) = title
  generalize hsection : attr (chunk.sectionHeading.getD []) = heading
  have hcontent := ((tagFree_neutralize chunk.content).append_newline).occurrences_eq
  have hblock : ∀ y, sourceBlock n chunk ++ y = text "<source id=" ++ unit '"' ::
      (decimal n ++ text "\" document=\"" ++ (title ++ unit '"' :: (text " section=\"" ++ (heading ++ unit '"' ::
        (text " pages=\"" ++ pagesText chunk ++ text "\">\n" ++ (neutralize chunk.content ++ newline ++
          unit '<' :: (text "/source" ++ unit '>' :: y))))))) := by
    intro y
    have hopen : text "<source id=\"" = text "<source id=" ++ [unit '"'] := rfl
    have hquote : text "\" section=\"" = unit '"' :: text " section=\"" := rfl
    have hquote' : text "\" pages=\"" = unit '"' :: text " pages=\"" := rfl
    have hclose : text "\n</source>" = newline ++ unit '<' :: (text "/source" ++ [unit '>']) := rfl
    rw [sourceBlock, htitle, hsection, hopen, hquote, hquote', hclose]
    simp only [List.append_assoc, List.cons_append, List.nil_append]
  have hlength := congrArg List.length (hblock [])
  simp only [List.append_nil, List.length_append, List.length_cons, List.length_nil] at hlength
  have hopen : occurrences sourcePattern i (text "<source id=") = [(i, false)] := rfl
  have hclose : ∀ k, occurrences sourcePattern k (unit '<' :: text "/source") = [(k, true)] := fun _ => rfl
  have hsix : (text "/source").length = 7 := rfl
  rw [hblock, occurrences_quoted hfirst, hopen, occurrences_quoted (by decide), occurrences_quoted hthird,
    sourcePattern, occurrences_barrier gap_isSpace gap_isSpace.apart, ← sourcePattern, hcontent, List.nil_append,
    ← List.cons_append, sourcePattern, occurrences_barrier gap_isSpace apart_angle, ← sourcePattern, hclose]
  rw [sourcePattern, occurrences_none (tagPattern_plain (by rw [List.head?_cons]; decide)), ← sourcePattern]
  obtain ⟨j, hj⟩ : ∃ j, j = i + ((text "<source id=").length + 1 + (decimal n ++ text "\" document=\"").length) :=
    ⟨_, rfl⟩
  obtain ⟨k, hk⟩ : ∃ k, k = j + (title.length + 1 + (text " section=\"").length) := ⟨_, rfl⟩
  rw [← hj, ← hk, List.singleton_append, List.singleton_append]
  refine ⟨j, k, congrArg (List.cons _) (congrArg _ (congrArg _ (congrArg₂ List.cons (congrArg (Prod.mk · true) ?_)
    (congrArg (occurrences sourcePattern · rest) ?_))))⟩
  · simp only [List.length_append] at hj ⊢
    omega
  · simp only [List.length_append, List.length_cons] at hj ⊢
    omega

/-- The tags that the blocks have by themselves: each at its start and nine units before its end. -/
def ownTags : Nat → List Text → List (Nat × Bool)
  | _, [] => []
  | i, block :: rest => (i, false) :: (i + block.length - 9, true) :: ownTags (i + block.length + 2) rest

/-- A title or a heading that hides a tag. -/
def HidesTag (chunk : RetrievedChunk) : Prop :=
  Hides (chunk.documentTitle.getD (text "Untitled document")) ∨ Hides (chunk.sectionHeading.getD [])

theorem cons_append_append_eq {α : Type} {a b : α} {A B X Y : List α} (hle : Y.length ≤ X.length) :
    a :: (A ++ (B ++ b :: X)) = a :: b :: Y ↔ (A = [] ∧ B = []) ∧ X = Y := by
  constructor
  · intro h
    have hlength := congrArg List.length h
    simp only [List.length_cons, List.length_append] at hlength
    obtain rfl : A = [] := List.eq_nil_of_length_eq_zero (by omega)
    obtain rfl : B = [] := List.eq_nil_of_length_eq_zero (by omega)
    exact ⟨⟨rfl, rfl⟩, (List.cons.inj (List.cons.inj h).2).2⟩
  · rintro ⟨⟨rfl, rfl⟩, rfl⟩
    rfl

theorem occurrences_attr (i : Nat) (t : Text) : occurrences sourcePattern i (attr t) = [] ↔ ¬ Hides t :=
  (tagFree_iff gap_isSpace).trans tagFree_attr

theorem occurrences_intercalate {tail : Text} (htail : ∀ i, occurrences sourcePattern i tail = []) (block : Text)
    (blocks : List Text) :
    ∃ rest, (text "\n\n").intercalate (block :: blocks) ++ tail = block ++ rest ∧
      ∀ i, occurrences sourcePattern i rest =
        occurrences sourcePattern (i + 2) ((text "\n\n").intercalate blocks ++ tail) := by
  cases blocks with
  | nil =>
      refine ⟨tail, by rw [List.intercalate_singleton], fun i => ?_⟩
      rw [htail, List.intercalate_nil, List.nil_append, htail]
  | cons b blocks =>
      refine ⟨text "\n\n" ++ ((text "\n\n").intercalate (b :: blocks) ++ tail), ?_, fun i => ?_⟩
      · rw [List.intercalate_cons_cons, List.append_assoc, List.append_assoc]
      · exact occurrences_plain (by decide) _ i

/-- The tags of the blocks are their own and those that their attributes hide. -/
theorem occurrences_blocks {tail : Text} (htail : ∀ i, occurrences sourcePattern i tail = [])
    {taken : List (RetrievedChunk × Text)} (htaken : ∀ p ∈ taken, ∃ n, p.2 = sourceBlock n p.1) (i : Nat) :
    let blocks := taken.map Prod.snd
    let found := occurrences sourcePattern i ((text "\n\n").intercalate blocks ++ tail)
    (ownTags i blocks).length ≤ found.length ∧ (found = ownTags i blocks ↔ ∀ p ∈ taken, ¬ HidesTag p.1) := by
  induction taken generalizing i with
  | nil =>
      have hnil : occurrences sourcePattern i ((text "\n\n").intercalate [] ++ tail) = [] := htail i
      simp only [List.map_nil, hnil, ownTags, List.length_nil, le_refl, true_and, true_iff]
      rintro p ⟨⟩
  | cons p taken ih =>
      obtain ⟨hle, hiff⟩ := ih (fun q hq => htaken q (List.mem_cons_of_mem _ hq)) (i + p.2.length + 2)
      obtain ⟨n, hblock⟩ := htaken p List.mem_cons_self
      obtain ⟨rest, hrest, hfound⟩ := occurrences_intercalate htail p.2 (taken.map Prod.snd)
      obtain ⟨j, k, hown⟩ := occurrences_sourceBlock n p.1 rest i
      rw [← hblock, hfound] at hown
      simp only [List.map_cons, hrest, hown, ownTags, List.forall_mem_cons, List.length_cons, List.length_append]
      rw [cons_append_append_eq hle, hiff, occurrences_attr, occurrences_attr, HidesTag, not_or]
      exact ⟨by omega, Iff.rfl⟩

/-- How long the blocks are, numbered from `n + 1` on. -/
def blocksLength : Nat → List RetrievedChunk → Nat
  | _, [] => 0
  | n, chunk :: rest => (sourceBlock (n + 1) chunk).length + blocksLength (n + 1) rest

/-- The first chunk is used, and every other one with which the blocks are not too long. -/
theorem getElem?_takeChunks (maxChars : Nat) (chunks : List RetrievedChunk) (n total k : Nat)
    (p : RetrievedChunk × Text) :
    (takeChunks maxChars n total chunks)[k]? = some p ↔
      chunks[k]? = some p.1 ∧ p.2 = sourceBlock (n + k + 1) p.1 ∧
        (n + k = 0 ∨ total + blocksLength n (chunks.take (k + 1)) ≤ maxChars) := by
  induction chunks generalizing n total k with
  | nil => simp [takeChunks]
  | cons chunk rest ih =>
      simp only [takeChunks, List.take_succ_cons, blocksLength]
      split
      · next hfull =>
        simp only [List.getElem?_nil, reduceCtorEq, false_iff]
        rintro ⟨-, -, hzero | hle⟩
        · omega
        · omega
      · next hfits =>
        cases k with
        | zero =>
            simp only [List.getElem?_cons_zero, Option.some.injEq, List.take_zero, blocksLength]
            constructor
            · rintro rfl
              exact ⟨rfl, rfl, by omega⟩
            · rintro ⟨rfl, hblock, -⟩
              rw [Prod.ext_iff]
              exact ⟨rfl, hblock.symm⟩
        | succ k =>
            rw [List.getElem?_cons_succ, List.getElem?_cons_succ, ih]
            rw [show n + 1 + k = n + (k + 1) by omega, Nat.add_assoc total]

/-- **The tags of the prompt are those of its blocks**, one that opens and one that closes each of them in order,
exactly when no title and no heading of a used chunk hides one. -/
theorem sourceTags_iff (question : Text) (chunks : List RetrievedChunk) (maxChars : Nat) :
    occurrences sourcePattern 0 (buildPrompt question chunks maxChars).prompt =
        ownTags 10 ((takeChunks maxChars 0 0 chunks).map Prod.snd) ↔
      ∀ k chunk, chunks[k]? = some chunk → (k = 0 ∨ blocksLength 0 (chunks.take (k + 1)) ≤ maxChars) →
        ¬ HidesTag chunk := by
  have htail : ∀ i, occurrences sourcePattern i (text "\n\nQuestion: " ++ trim (neutralize question)) = [] := by
    intro i
    rw [sourcePattern, occurrences_plain (by decide)]
    exact (tagFree_trim.mpr (tagFree_neutralize question)).occurrences_eq _
  have htaken : ∀ p ∈ takeChunks maxChars 0 0 chunks, ∃ n, p.2 = sourceBlock n p.1 := by
    intro p hp
    obtain ⟨k, hk⟩ := List.mem_iff_getElem?.mp hp
    exact ⟨_, ((getElem?_takeChunks ..).mp hk).2.1⟩
  have hprompt : occurrences sourcePattern 0 (buildPrompt question chunks maxChars).prompt =
      occurrences sourcePattern 10 ((text "\n\n").intercalate ((takeChunks maxChars 0 0 chunks).map Prod.snd) ++
        (text "\n\nQuestion: " ++ trim (neutralize question))) := by
    show occurrences sourcePattern 0 (text "Sources:\n\n" ++ _ ++ _ ++ _) = _
    rw [List.append_assoc, List.append_assoc, sourcePattern, occurrences_plain (by decide)]
    rfl
  rw [hprompt, (occurrences_blocks htail htaken 10).2]
  constructor
  · intro h k chunk hchunk hfits
    have hmem : (chunk, sourceBlock (0 + k + 1) chunk) ∈ takeChunks maxChars 0 0 chunks := by
      refine List.mem_iff_getElem?.mpr ⟨k, (getElem?_takeChunks ..).mpr ⟨hchunk, rfl, ?_⟩⟩
      rwa [Nat.zero_add, Nat.zero_add]
    exact h _ hmem
  · intro h p hp
    obtain ⟨k, hk⟩ := List.mem_iff_getElem?.mp hp
    obtain ⟨hchunk, -, hfits⟩ := (getElem?_takeChunks ..).mp hk
    rw [Nat.zero_add, Nat.zero_add] at hfits
    exact h k p.1 hchunk hfits

/-- A document called `<"source`. -/
def forgingChunk : RetrievedChunk where
  chunkId := ⟨1⟩
  documentId := ⟨2⟩
  documentTitle := some (text "<\"source")
  sectionHeading := none
  pageStart := 1
  pageEnd := 1
  content := text "x"

/-- In its attribute the quote becomes a space: `document="< source"`. -/
theorem not_sourceTags :
    ¬ ∀ question chunks maxChars, occurrences sourcePattern 0 (buildPrompt question chunks maxChars).prompt =
      ownTags 10 ((takeChunks maxChars 0 0 chunks).map Prod.snd) := by
  intro h
  exact absurd (h (text "q") [forgingChunk] maxContextChars) (by decide)

end FinSight.Ask
