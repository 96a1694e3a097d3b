import FinSight.Scanning.Replace
import Mathlib.Data.List.Basic

/-!
# Bracketed words

The words between an opening and a closing symbol that a machine accepts.

* `Brackets.pattern` : the pattern; `accepts_of_found`, `spells_pattern` : what it finds;
* `emitted keep s t` : the words, with the symbols in `keep` only, that a single pass from state `s` finds;
  `found_eq_emitted` : it finds what the pattern does;
* `exists_weave` : the words of a text after its matches are replaced are those of the replacements, and words that
  are made by the matches that are deleted.
-/

namespace Scanning

structure Brackets (α Q : Type) where
  opening : α
  closing : α
  start : Q
  step : Q → α → Option Q
  final : Q → Bool

namespace Brackets

variable {α Q : Type} [DecidableEq α] (B : Brackets α Q)

/-- The word up to the closing symbol. -/
def body : Q → List α → Option (List α)
  | _, [] => none
  | q, a :: as =>
      if a = B.closing then if B.final q then some [] else none
      else (B.step q a).bind fun r => (body r as).map (a :: ·)

def pattern : Pattern α (List α)
  | [] => none
  | a :: as => if a = B.opening then (B.body B.start as).map fun w => (w, w.length + 1) else none

def spelled (w : List α) : List α := B.opening :: (w ++ [B.closing])

def Accepts (w : List α) : Prop := ∃ r, w.foldlM B.step B.start = some r ∧ B.final r = true

/-- The machine does not take the brackets. -/
structure Sound : Prop where
  ne : B.opening ≠ B.closing
  opening : ∀ q, B.step q B.opening = none
  closing : ∀ q, B.step q B.closing = none

variable {B}

theorem body_some {q : Q} {t w : List α} (h : B.body q t = some w) :
    ∃ r rest, w.foldlM B.step q = some r ∧ B.final r = true ∧ t = w ++ B.closing :: rest := by
  induction t generalizing q w with
  | nil => cases h
  | cons a as ih =>
      rw [body] at h
      split at h
      · next hclosing =>
        split at h
        · next hfinal =>
          rw [Option.some.injEq] at h
          subst h hclosing
          exact ⟨q, as, rfl, hfinal, rfl⟩
        · cases h
      · obtain ⟨r, hr, hw⟩ := Option.bind_eq_some_iff.mp h
        obtain ⟨v, hv, rfl⟩ := Option.map_eq_some_iff.mp hw
        obtain ⟨r', rest, hr', hfinal, rfl⟩ := ih hv
        refine ⟨r', rest, ?_, hfinal, rfl⟩
        rw [List.foldlM_cons, hr]
        exact hr'

theorem Accepts.pattern {w : List α} (hB : B.Sound) (h : B.Accepts w) (rest : List α) :
    B.pattern (B.spelled w ++ rest) = some (w, w.length + 1) := by
  obtain ⟨r, hr, hfinal⟩ := h
  have hbody : ∀ q, w.foldlM B.step q = some r → B.body q (w ++ B.closing :: rest) = some w := by
    clear hr
    induction w with
    | nil =>
        intro q hr
        rw [List.foldlM_nil] at hr
        rw [List.nil_append, body, if_pos rfl, Option.some.inj hr, if_pos hfinal]
    | cons a w ih =>
        intro q hr
        rw [List.foldlM_cons] at hr
        obtain ⟨q', hq', hr⟩ := Option.bind_eq_some_iff.mp hr
        have hclosing : a ≠ B.closing := by
          rintro rfl
          rw [hB.closing] at hq'
          cases hq'
        rw [List.cons_append, body, if_neg hclosing, hq', Option.bind_some, ih q' hr, Option.map_some]
  rw [spelled, List.cons_append, List.append_assoc, Brackets.pattern, if_pos rfl]
  show (B.body B.start (w ++ B.closing :: rest)).map _ = _
  rw [hbody _ hr, Option.map_some]

theorem pattern_some {a : α} {as w : List α} {n : Nat} (h : B.pattern (a :: as) = some (w, n)) :
    B.Accepts w ∧ a = B.opening ∧ n = w.length + 1 ∧ ∃ rest, as = w ++ B.closing :: rest := by
  rw [pattern] at h
  split at h
  · next hopening =>
    obtain ⟨v, hv, heq⟩ := Option.map_eq_some_iff.mp h
    obtain ⟨rfl, rfl⟩ := Prod.mk.inj heq
    obtain ⟨r, rest, hr, hfinal, rfl⟩ := body_some hv
    exact ⟨⟨r, hr, hfinal⟩, hopening, rfl, rest, rfl⟩
  · cases h

theorem spells_pattern : Spells B.pattern B.spelled := by
  intro a as w n h
  obtain ⟨-, rfl, rfl, rest, rfl⟩ := pattern_some h
  refine ⟨by simp, ?_⟩
  rw [spelled, List.append_cons w B.closing rest, List.take_left' (by simp)]

theorem accepts_of_found {t w : List α} (h : w ∈ found B.pattern t) : B.Accepts w :=
  forall_scan (fun _ _ _ _ hm => (pattern_some hm).1) t w (mem_found.mp h)

omit [DecidableEq α] in
theorem Accepts.not_mem {w : List α} (h : B.Accepts w) {a : α} (ha : ∀ q, B.step q a = none) : a ∉ w := by
  obtain ⟨r, hr, -⟩ := h
  intro hmem
  obtain ⟨x, y, rfl⟩ := List.append_of_mem hmem
  rw [List.foldlM_append] at hr
  obtain ⟨q, -, hq⟩ := Option.bind_eq_some_iff.mp hr
  rw [List.foldlM_cons, ha] at hq
  cases hq

/-! ## One pass -/

variable (B) in
/-- The open bracket, if there is one: where the machine is, and the word so far. -/
def next (keep : α → Bool) (s : Option (Q × List α)) (a : α) : Option (Q × List α) :=
  if a = B.opening then some (B.start, [])
  else if a = B.closing then none
  else s.bind fun p => (B.step p.1 a).map fun r => (r, if keep a then p.2 ++ [a] else p.2)

variable (B) in
def emit (s : Option (Q × List α)) (a : α) : List (List α) :=
  match s with
  | some (q, w) => if a = B.closing ∧ B.final q = true then [w] else []
  | none => []

variable (B) in
def emitted (keep : α → Bool) : Option (Q × List α) → List α → List (List α)
  | _, [] => []
  | s, a :: as => B.emit s a ++ emitted keep (B.next keep s a) as

theorem emitted_append (keep : α → Bool) (s : Option (Q × List α)) (x y : List α) :
    B.emitted keep s (x ++ y) = B.emitted keep s x ++ B.emitted keep (x.foldl (B.next keep) s) y := by
  induction x generalizing s with
  | nil => rfl
  | cons a x ih => rw [List.cons_append, emitted, ih, emitted, List.append_assoc, List.foldl_cons]

theorem emitted_of_body (hB : B.Sound) (t : List α) (q : Q) (w : List α) :
    B.emitted (fun _ => true) (some (q, w)) t =
      match B.body q t with
      | some v => (w ++ v) :: B.emitted (fun _ => true) none (t.drop (v.length + 1))
      | none => B.emitted (fun _ => true) none t := by
  induction t generalizing q w with
  | nil => rfl
  | cons a as ih =>
      by_cases hclosing : a = B.closing
      · subst hclosing
        have hnext : ∀ s, B.next (fun _ => true) s B.closing = none := fun s => by
          rw [next, if_neg hB.ne.symm, if_pos rfl]
        rw [emitted, body, if_pos rfl, hnext]
        cases hfinal : B.final q with
        | true => simp [emit, hfinal]
        | false => simp [emit, hfinal, emitted, hnext]
      · have hemit : ∀ s, B.emit s a = [] := fun s => by
          cases s with
          | none => rfl
          | some p => exact if_neg fun h => hclosing h.1
        rw [emitted, hemit, List.nil_append, body, if_neg hclosing]
        by_cases hopening : a = B.opening
        · rw [hopening, hB.opening, Option.bind_none, emitted, ← hopening, hemit, List.nil_append, next, if_pos hopening,
            next, if_pos hopening]
        · cases hr : B.step q a with
          | none =>
              rw [Option.bind_none, next, if_neg hopening, if_neg hclosing, Option.bind_some, hr, Option.map_none]
              rw [emitted, hemit, List.nil_append, next, if_neg hopening, if_neg hclosing, Option.bind_none]
          | some r =>
              rw [Option.bind_some, next, if_neg hopening, if_neg hclosing, Option.bind_some, hr, Option.map_some,
                if_pos rfl, ih]
              cases B.body r as with
              | some v => simp
              | none =>
                  rw [Option.map_none, emitted, hemit, List.nil_append, next, if_neg hopening, if_neg hclosing,
                    Option.bind_none]

/-- **One pass finds what the pattern does.** -/
theorem found_eq_emitted (hB : B.Sound) (t : List α) : found B.pattern t = B.emitted (fun _ => true) none t := by
  refine scan_induction (P := fun t => found B.pattern t = B.emitted (fun _ => true) none t) B.pattern rfl ?_ ?_ t
  · intro a as w n h ih
    have hbody : B.body B.start as = some w ∧ n = w.length + 1 := by
      rw [pattern, if_pos (pattern_some h).2.1] at h
      obtain ⟨v, hv, heq⟩ := Option.map_eq_some_iff.mp h
      obtain ⟨rfl, rfl⟩ := Prod.mk.inj heq
      exact ⟨hv, rfl⟩
    rw [found_match h, ih, emitted, next, if_pos (pattern_some h).2.1, emitted_of_body hB, hbody.1, hbody.2]
    rfl
  · intro a as h ih
    rw [found_none h, ih, emitted, next]
    split
    · next hopening =>
      rw [pattern, if_pos hopening, Option.map_eq_none_iff] at h
      rw [emitted_of_body hB, h]
      rfl
    · rw [Option.bind_none, ite_self]
      rfl

/-- The words without the symbols that are not kept. -/
theorem emitted_filter (keep : α → Bool) (s : Option (Q × List α)) (t : List α) :
    (B.emitted (fun _ => true) s t).map (List.filter keep) =
      B.emitted keep (s.map fun p => (p.1, p.2.filter keep)) t := by
  induction t generalizing s with
  | nil => rfl
  | cons a as ih =>
      rw [emitted, emitted, List.map_append, ih]
      congr 1
      · cases s with
        | none => rfl
        | some p =>
            simp only [emit, Option.map_some]
            split <;> rfl
      · congr 1
        unfold next
        split
        · rfl
        · split
          · rfl
          · cases s with
            | none => rfl
            | some p =>
                simp only [Option.bind_some, Option.map_some]
                cases B.step p.1 a with
                | none => rfl
                | some r =>
                    simp only [Option.map_some, if_pos, List.filter_append, List.filter_cons, List.filter_nil]
                    split <;> simp

theorem emitted_read {keep : α → Bool} (hB : B.Sound) {w : List α} {q r : Q} (h : w.foldlM B.step q = some r)
    (v rest : List α) :
    B.emitted keep (some (q, v)) (w ++ rest) = B.emitted keep (some (r, v ++ w.filter keep)) rest := by
  induction w generalizing q v with
  | nil =>
      rw [List.foldlM_nil] at h
      rw [Option.some.inj h, List.nil_append, List.filter_nil, List.append_nil]
  | cons a w ih =>
      rw [List.foldlM_cons] at h
      obtain ⟨q', hq', hr⟩ := Option.bind_eq_some_iff.mp h
      have hopening : a ≠ B.opening := by
        rintro rfl
        rw [hB.opening] at hq'
        cases hq'
      have hclosing : a ≠ B.closing := by
        rintro rfl
        rw [hB.closing] at hq'
        cases hq'
      rw [List.cons_append, emitted, emit, if_neg fun h => hclosing h.1, List.nil_append, next, if_neg hopening,
        if_neg hclosing, Option.bind_some, hq', Option.map_some, ih hr, List.filter_cons]
      split <;> simp

/-- From any state, a word in brackets is found. -/
theorem emitted_spelled {keep : α → Bool} (hB : B.Sound) {w : List α} (h : B.Accepts w) (s : Option (Q × List α))
    (rest : List α) :
    B.emitted keep s (B.spelled w ++ rest) = w.filter keep :: B.emitted keep none rest := by
  obtain ⟨r, hr, hfinal⟩ := h
  have hemit : B.emit s B.opening = [] := by
    cases s with
    | none => rfl
    | some p => exact if_neg fun h => hB.ne h.1
  rw [spelled, List.cons_append, List.append_assoc, emitted, hemit, List.nil_append, next, if_pos rfl,
    emitted_read hB hr, List.nil_append, List.singleton_append, emitted, emit, if_pos ⟨rfl, hfinal⟩, next,
    if_neg hB.ne.symm, if_pos rfl]
  rfl

/-! ## Replaced matches -/

variable {β : Type}

/-- Replacements that the machine does not tell apart. -/
theorem emitted_flatMap {keep : α → Bool} {f g : β → List α} {tokens : List (β ⊕ α)}
    (h : ∀ b, .inl b ∈ tokens → ∀ s, B.emitted keep s (f b) = B.emitted keep s (g b) ∧
      (f b).foldl (B.next keep) s = (g b).foldl (B.next keep) s) (s : Option (Q × List α)) :
    B.emitted keep s (tokens.flatMap (Sum.elim f fun a => [a])) =
      B.emitted keep s (tokens.flatMap (Sum.elim g fun a => [a])) := by
  induction tokens generalizing s with
  | nil => rfl
  | cons token tokens ih =>
      have hrest := ih fun b hb => h b (List.mem_cons_of_mem _ hb)
      rw [List.flatMap_cons, List.flatMap_cons, emitted_append, emitted_append, hrest]
      cases token with
      | inr a => rfl
      | inl b =>
          obtain ⟨hwords, hstate⟩ := h b List.mem_cons_self s
          rw [Sum.elim_inl, Sum.elim_inl, hwords, hstate]

theorem emitted_spelled_words (hB : B.Sound) {words : List (List α)} (hne : words ≠ [])
    (h : ∀ w ∈ words, B.Accepts w) (s : Option (Q × List α)) (rest : List α) :
    B.emitted (fun _ => true) s (words.flatMap B.spelled ++ rest) = words ++ B.emitted (fun _ => true) none rest := by
  induction words generalizing s with
  | nil => exact absurd rfl hne
  | cons w words ih =>
      have hword : w.filter (fun _ => true) = w := List.filter_eq_self.mpr fun _ _ => rfl
      rw [List.flatMap_cons, List.append_assoc, emitted_spelled hB (h w List.mem_cons_self), hword, List.cons_append]
      cases words with
      | nil => rfl
      | cons v words => rw [ih (List.cons_ne_nil _ _) (fun u hu => h u (List.mem_cons_of_mem _ hu))]

/-- **Matches that are replaced by bracketed words, or deleted.** The words found afterwards are the replacements, and
words that the deletions make: the same ones, whatever the other matches are replaced by. -/
theorem exists_weave (hB : B.Sound) (tokens : List (β ⊕ α)) {f g : β → List (List α)}
    (hf : ∀ b, .inl b ∈ tokens → ∀ w ∈ f b, B.Accepts w) (hg : ∀ b, .inl b ∈ tokens → ∀ w ∈ g b, B.Accepts w)
    (hfg : ∀ b, f b = [] ↔ g b = []) (s : Option (Q × List α)) :
    ∃ made : List (β ⊕ List α),
      B.emitted (fun _ => true) s (tokens.flatMap (Sum.elim (fun b => (f b).flatMap B.spelled) fun a => [a])) =
          made.flatMap (Sum.elim f fun w => [w]) ∧
        B.emitted (fun _ => true) s (tokens.flatMap (Sum.elim (fun b => (g b).flatMap B.spelled) fun a => [a])) =
          made.flatMap (Sum.elim g fun w => [w]) ∧
        made.filterMap Sum.getLeft? = (tokens.filterMap Sum.getLeft?).filter fun b => !(g b).isEmpty := by
  induction tokens generalizing s with
  | nil => exact ⟨[], rfl, rfl, rfl⟩
  | cons token tokens ih =>
      have hrest := ih (fun b hb => hf b (List.mem_cons_of_mem _ hb)) (fun b hb => hg b (List.mem_cons_of_mem _ hb))
      cases token with
      | inr a =>
          obtain ⟨made, hmade, hmade', hkept⟩ := hrest (B.next (fun _ => true) s a)
          refine ⟨(B.emit s a).map .inr ++ made, ?_, ?_, ?_⟩
          · rw [List.flatMap_cons, Sum.elim_inr, List.singleton_append, emitted, hmade, List.flatMap_append,
              List.flatMap_map]
            simp
          · rw [List.flatMap_cons, Sum.elim_inr, List.singleton_append, emitted, hmade', List.flatMap_append,
              List.flatMap_map]
            simp
          · rw [List.filterMap_append, List.filterMap_map, hkept]
            simp [Function.comp_def, List.filterMap_cons]
      | inl b =>
          by_cases hb : f b = []
          · obtain ⟨made, hmade, hmade', hkept⟩ := hrest s
            have hb' := (hfg b).mp hb
            refine ⟨made, ?_, ?_, ?_⟩
            · simpa [hb] using hmade
            · simpa [hb'] using hmade'
            · simpa [hb'] using hkept
          · obtain ⟨made, hmade, hmade', hkept⟩ := hrest none
            have hb' : g b ≠ [] := fun h => hb ((hfg b).mpr h)
            refine ⟨.inl b :: made, ?_, ?_, ?_⟩
            · rw [List.flatMap_cons, Sum.elim_inl, emitted_spelled_words hB hb (hf b List.mem_cons_self), hmade]
              rfl
            · rw [List.flatMap_cons, Sum.elim_inl, emitted_spelled_words hB hb' (hg b List.mem_cons_self), hmade']
              rfl
            · simp [hkept, hb']

end Brackets

end Scanning
