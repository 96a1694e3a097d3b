import Mathlib.Data.List.Infix
import Mathlib.Data.List.TakeWhile
import Mathlib.Data.Sum.Basic

/-!
# Global replacement

A pattern is matched at the start of a text; a scan goes through a text from left to right and takes matches that do
not overlap.

* `scan`, `replaceAll` : the matches and the symbols between them, and the text with the matches replaced;
* `scan_induction` : a text is empty, starts with a match, or starts with a symbol where nothing matches;
* `found` : what the matches say; `Spells` : the pattern says what it matches;
* `flatMap_filter`, `infix_flatMap` : what two replacements of the same matches have in common;
* `split` : the text cut at the matches; `split_flatMap` : nothing else is lost;
* `occurrences` : every place where the pattern matches; `occurrences_append` : they do not cross a barrier.
-/

namespace Scanning

variable {α β : Type}

/-- What a match at the start of a text says, and how many symbols it takes after the first. -/
abbrev Pattern (α β : Type) := List α → Option (β × Nat)

/-- The matches and the symbols between them, after `skip` symbols. -/
def scan (m : Pattern α β) : Nat → List α → List (β ⊕ α)
  | _, [] => []
  | 0, a :: as =>
      match m (a :: as) with
      | some (b, n) => .inl b :: scan m n as
      | none => .inr a :: scan m 0 as
  | skip + 1, _ :: as => scan m skip as

def replaceAll (m : Pattern α β) (f : β → List α) (t : List α) : List α :=
  (scan m 0 t).flatMap (Sum.elim f fun a => [a])

variable {m : Pattern α β} {f : β → List α}

theorem scan_skip (n : Nat) (t : List α) : scan m n t = scan m 0 (t.drop n) := by
  induction t generalizing n with
  | nil => cases n <;> rfl
  | cons a as ih =>
      cases n with
      | zero => rfl
      | succ n => exact ih n

theorem scan_match {a : α} {as : List α} {b : β} {n : Nat} (h : m (a :: as) = some (b, n)) :
    scan m 0 (a :: as) = .inl b :: scan m 0 (as.drop n) := by
  rw [scan, h, ← scan_skip]

theorem scan_none {a : α} {as : List α} (h : m (a :: as) = none) :
    scan m 0 (a :: as) = .inr a :: scan m 0 as := by
  rw [scan, h]

@[simp] theorem replaceAll_nil : replaceAll m f [] = [] := rfl

theorem replaceAll_match {a : α} {as : List α} {b : β} {n : Nat} (h : m (a :: as) = some (b, n)) :
    replaceAll m f (a :: as) = f b ++ replaceAll m f (as.drop n) := by
  rw [replaceAll, scan_match h]
  rfl

theorem replaceAll_none {a : α} {as : List α} (h : m (a :: as) = none) :
    replaceAll m f (a :: as) = a :: replaceAll m f as := by
  rw [replaceAll, scan_none h]
  rfl

/-- The induction of a scan. -/
theorem scan_induction (m : Pattern α β) {P : List α → Prop} (hnil : P [])
    (hmatch : ∀ a as b n, m (a :: as) = some (b, n) → P (as.drop n) → P (a :: as))
    (hnone : ∀ a as, m (a :: as) = none → P as → P (a :: as)) (t : List α) : P t := by
  induction hlen : t.length using Nat.strong_induction_on generalizing t with
  | _ k ih =>
      subst hlen
      cases t with
      | nil => exact hnil
      | cons a as =>
          cases hm : m (a :: as) with
          | none => exact hnone a as hm (ih _ (by simp) as rfl)
          | some r =>
              refine hmatch a as r.1 r.2 hm (ih _ ?_ _ rfl)
              rw [List.length_drop, List.length_cons]
              omega

/-- A text in which nothing matches is left as it is. -/
theorem replaceAll_of_none {t : List α} (h : ∀ s, s <:+ t → s ≠ [] → m s = none) : replaceAll m f t = t := by
  induction t with
  | nil => rfl
  | cons a as ih =>
      rw [replaceAll_none (h _ List.suffix_rfl (List.cons_ne_nil _ _)),
        ih fun s hs => h s (hs.trans (List.suffix_cons a as))]

/-- What the matches say. -/
def found (m : Pattern α β) (t : List α) : List β := (scan m 0 t).filterMap Sum.getLeft?

theorem mem_found {t : List α} {b : β} : b ∈ found m t ↔ .inl b ∈ scan m 0 t := by
  rw [found, List.mem_filterMap]
  constructor
  · rintro ⟨(c | a), hc, h⟩
    · rw [Sum.getLeft?_inl, Option.some.injEq] at h
      rwa [← h]
    · cases h
  · exact fun h => ⟨_, h, rfl⟩

theorem found_match {a : α} {as : List α} {b : β} {n : Nat} (h : m (a :: as) = some (b, n)) :
    found m (a :: as) = b :: found m (as.drop n) := by
  rw [found, scan_match h]
  rfl

theorem found_none {a : α} {as : List α} (h : m (a :: as) = none) : found m (a :: as) = found m as := by
  rw [found, scan_none h]
  rfl

/-- `g b` is the text of a match that says `b`. -/
def Spells (m : Pattern α β) (g : β → List α) : Prop :=
  ∀ a as b n, m (a :: as) = some (b, n) → n ≤ as.length ∧ g b = a :: as.take n

variable {g : β → List α}

theorem spells_of_start
    (h : ∀ a as b n, m (a :: as) = some (b, n) → g b <+: a :: as ∧ (g b).length = n + 1) : Spells m g := by
  intro a as b n hm
  obtain ⟨hstart, hlength⟩ := h a as b n hm
  have hle := hstart.length_le
  rw [hlength, List.length_cons] at hle
  rw [List.prefix_iff_eq_take.mp hstart, hlength, List.take_succ_cons]
  exact ⟨by omega, rfl⟩

/-- Matches that are replaced by themselves. -/
theorem Spells.replaceAll (hm : Spells m g) (t : List α) : replaceAll m g t = t := by
  refine scan_induction (P := fun t => Scanning.replaceAll m g t = t) m rfl ?_ ?_ t
  · intro a as b n h ih
    rw [replaceAll_match h, ih, (hm a as b n h).2, List.cons_append, List.take_append_drop]
  · intro a as h ih
    rw [replaceAll_none h, ih]

/-- The matches are right where every one is taken from the start of some text. -/
theorem forall_scan {P : β → Prop} (hP : ∀ a as b n, m (a :: as) = some (b, n) → P b) (t : List α) :
    ∀ b, .inl b ∈ scan m 0 t → P b := by
  refine scan_induction (P := fun t => ∀ b, .inl b ∈ scan m 0 t → P b) m ?_ ?_ ?_ t
  · rintro b ⟨⟩
  · intro a as b n h ih c hc
    rw [scan_match h, List.mem_cons] at hc
    rcases hc with hc | hc
    · rw [Sum.inl.inj hc]
      exact hP a as b n h
    · exact ih c hc
  · intro a as h ih c hc
    rw [scan_none h, List.mem_cons] at hc
    rcases hc with hc | hc
    · cases hc
    · exact ih c hc

/-! ## Two replacements -/

theorem flatMap_filter {p : α → Bool} {tokens : List (β ⊕ α)}
    (h : ∀ b, .inl b ∈ tokens → (f b).filter p = (g b).filter p) :
    (tokens.flatMap (Sum.elim f fun a => [a])).filter p = (tokens.flatMap (Sum.elim g fun a => [a])).filter p := by
  rw [List.filter_flatMap, List.filter_flatMap]
  refine List.flatMap_congr fun x hx => ?_
  cases x with
  | inl b => exact h b hx
  | inr a => rfl

/-! ## Splitting -/

/-- The text cut at its matches; `f b` of a match stays, at the end of what comes before it. -/
def split (m : Pattern α β) (f : β → List α) (t : List α) : List (List α) :=
  (scan m 0 t).foldr (fun token pieces => token.elim (fun b => f b :: pieces) fun a => pieces.modifyHead (a :: ·)) [[]]

theorem split_match {a : α} {as : List α} {b : β} {n : Nat} (h : m (a :: as) = some (b, n)) :
    split m f (a :: as) = f b :: split m f (as.drop n) := by
  rw [split, scan_match h]
  rfl

theorem split_none {a : α} {as : List α} (h : m (a :: as) = none) :
    split m f (a :: as) = (split m f as).modifyHead (a :: ·) := by
  rw [split, scan_none h]
  rfl

/-- A measure that the cut parts do not count for is the sum of that of the pieces. -/
theorem split_flatMap {γ : Type} {m : Pattern α β} {f g : β → List α} (hg : Spells m g) {μ : List α → List γ}
    (hμ : ∀ a as b n, m (a :: as) = some (b, n) → ∀ x y, μ (x ++ (g b ++ y)) = μ (x ++ f b) ++ μ y) (t : List α) :
    (split m f t).flatMap μ = μ t := by
  have htokens : ∀ (tokens : List (β ⊕ α)) (x : List α),
      (∀ b, .inl b ∈ tokens → ∀ x y, μ (x ++ (g b ++ y)) = μ (x ++ f b) ++ μ y) →
      ∃ first rest, tokens.foldr (fun token pieces =>
          token.elim (fun b => f b :: pieces) fun a => pieces.modifyHead (a :: ·)) [[]] = first :: rest ∧
        μ (x ++ first) ++ rest.flatMap μ = μ (x ++ tokens.flatMap (Sum.elim g fun a => [a])) := by
    intro tokens
    induction tokens with
    | nil => exact fun x _ => ⟨[], [], rfl, by simp⟩
    | cons token tokens ih =>
        intro x h
        have hrest : ∀ b, .inl b ∈ tokens → ∀ x y, μ (x ++ (g b ++ y)) = μ (x ++ f b) ++ μ y :=
          fun b hb => h b (List.mem_cons_of_mem _ hb)
        cases token with
        | inr a =>
            obtain ⟨first, rest, hpieces, hsame⟩ := ih (x ++ [a]) hrest
            refine ⟨a :: first, rest, ?_, ?_⟩
            · rw [List.foldr_cons, hpieces]
              rfl
            · rw [List.append_cons, hsame, List.flatMap_cons, Sum.elim_inr, List.append_assoc]
        | inl b =>
            obtain ⟨first, rest, hpieces, hsame⟩ := ih [] hrest
            refine ⟨f b, first :: rest, ?_, ?_⟩
            · rw [List.foldr_cons, hpieces]
              rfl
            · rw [List.nil_append, List.nil_append] at hsame
              rw [List.flatMap_cons, List.flatMap_cons, Sum.elim_inl, h b List.mem_cons_self, ← hsame]
  obtain ⟨first, rest, hpieces, hsame⟩ := htokens (scan m 0 t) [] fun b hb =>
    forall_scan (P := fun b => ∀ x y, μ (x ++ (g b ++ y)) = μ (x ++ f b) ++ μ y) hμ t b hb
  have hspelled : (scan m 0 t).flatMap (Sum.elim g fun a => [a]) = t := hg.replaceAll t
  rw [split, hpieces, List.flatMap_cons, ← hspelled]
  exact hsame

theorem mem_scan_inr {t : List α} {a : α} (h : .inr a ∈ scan m 0 t) : ∃ as, m (a :: as) = none := by
  revert h
  refine scan_induction (P := fun t => .inr a ∈ scan m 0 t → ∃ as, m (a :: as) = none) m ?_ ?_ ?_ t
  · rintro ⟨⟩
  · intro b as c n hm ih h
    rw [scan_match hm, List.mem_cons] at h
    exact h.elim (fun heq => nomatch heq) ih
  · intro b as hm ih h
    rw [scan_none hm, List.mem_cons] at h
    rcases h with heq | h
    · rw [Sum.inr.inj heq]
      exact ⟨as, hm⟩
    · exact ih h

/-- A piece has what its match leaves, and symbols where nothing matches. -/
theorem mem_split {m : Pattern α β} {f : β → List α} {t piece : List α} (hpiece : piece ∈ split m f t) {a : α}
    (ha : a ∈ piece) : (∃ b, .inl b ∈ scan m 0 t ∧ a ∈ f b) ∨ .inr a ∈ scan m 0 t := by
  rw [split] at hpiece
  generalize scan m 0 t = tokens at hpiece ⊢
  induction tokens generalizing piece with
  | nil =>
      rw [List.foldr_nil, List.mem_singleton] at hpiece
      rw [hpiece] at ha
      cases ha
  | cons token tokens ih =>
      have hlater : ∀ {piece : List α}, piece ∈ tokens.foldr (fun token pieces =>
          token.elim (fun b => f b :: pieces) fun a => pieces.modifyHead (a :: ·)) [[]] → a ∈ piece →
          (∃ b, .inl b ∈ token :: tokens ∧ a ∈ f b) ∨ .inr a ∈ token :: tokens := by
        intro piece hpiece ha
        rcases ih ha hpiece with ⟨b, hb, ha⟩ | ha
        · exact Or.inl ⟨b, List.mem_cons_of_mem _ hb, ha⟩
        · exact Or.inr (List.mem_cons_of_mem _ ha)
      rw [List.foldr_cons] at hpiece
      cases token with
      | inl b =>
          rcases List.mem_cons.mp hpiece with rfl | hpiece
          · exact Or.inl ⟨b, List.mem_cons_self, ha⟩
          · exact hlater hpiece ha
      | inr c =>
          rw [Sum.elim_inr] at hpiece
          cases hrest : tokens.foldr (fun token pieces =>
              token.elim (fun b => f b :: pieces) fun a => pieces.modifyHead (a :: ·)) [[]] with
          | nil =>
              rw [hrest] at hpiece
              cases hpiece
          | cons first rest =>
              rw [hrest, List.modifyHead_cons] at hpiece
              rcases List.mem_cons.mp hpiece with rfl | hpiece
              · rcases List.mem_cons.mp ha with rfl | ha
                · exact Or.inr List.mem_cons_self
                · exact hlater (hrest ▸ List.mem_cons_self) ha
              · exact hlater (hrest ▸ List.mem_cons_of_mem _ hpiece) ha

/-! ## Occurrences -/

/-- The places where the pattern matches, from place `i` on. -/
def occurrences (m : Pattern α β) : Nat → List α → List (Nat × β)
  | _, [] => []
  | i, a :: as =>
      match m (a :: as) with
      | some (b, _) => (i, b) :: occurrences m (i + 1) as
      | none => occurrences m (i + 1) as

theorem occurrences_none {i : Nat} {a : α} {as : List α} (h : m (a :: as) = none) :
    occurrences m i (a :: as) = occurrences m (i + 1) as := by
  rw [occurrences, h]

theorem occurrences_eq_nil {i : Nat} {t : List α} :
    occurrences m i t = [] ↔ ∀ s, s <:+ t → s ≠ [] → m s = none := by
  induction t generalizing i with
  | nil => simp [occurrences]
  | cons a as ih =>
      cases hm : m (a :: as) with
      | none =>
          rw [occurrences_none hm, ih]
          refine ⟨fun h s hs hne => ?_, fun h s hs hne => h s (hs.trans (List.suffix_cons a as)) hne⟩
          rcases List.suffix_cons_iff.mp hs with rfl | hs
          · exact hm
          · exact h s hs hne
      | some r =>
          rw [occurrences, hm]
          refine ⟨fun h => absurd h (by simp), fun h => ?_⟩
          rw [h _ List.suffix_rfl (List.cons_ne_nil _ _)] at hm
          cases hm

/-- Where no match goes from the first text into the second. -/
theorem occurrences_append {x y : List α} (h : ∀ s, s <:+ x → s ≠ [] → m (s ++ y) = m s) (i : Nat) :
    occurrences m i (x ++ y) = occurrences m i x ++ occurrences m (i + x.length) y := by
  induction x generalizing i with
  | nil => rfl
  | cons a as ih =>
      have hrest := ih (fun s hs => h s (hs.trans (List.suffix_cons a as))) (i + 1)
      have hlength : i + 1 + as.length = i + (a :: as).length := by
        rw [List.length_cons]
        omega
      rw [hlength] at hrest
      have hhead := h _ List.suffix_rfl (List.cons_ne_nil a as)
      cases hm : m (a :: as) with
      | none =>
          rw [hm, List.cons_append] at hhead
          rw [List.cons_append, occurrences_none hhead, occurrences_none hm, hrest]
      | some r =>
          rw [hm, List.cons_append] at hhead
          rw [List.cons_append, occurrences, hhead, occurrences, hm, hrest]
          rfl

/-! ## Infixes -/

theorem drop_length_takeWhile (p : α → Bool) (t : List α) : t.drop (t.takeWhile p).length = t.dropWhile p := by
  induction t with
  | nil => rfl
  | cons a t ih =>
      rw [List.takeWhile_cons, List.dropWhile_cons]
      split
      · exact ih
      · rfl

/-- A word is not found where its first symbol is not. -/
theorem infix_of_infix_append {w x y : List α} {a : α} (hw : w.head? = some a) (hx : a ∉ x) (h : w <:+: x ++ y) :
    w <:+: y := by
  induction x with
  | nil => exact h
  | cons b x ih =>
      rw [List.mem_cons, not_or] at hx
      rcases List.infix_cons_iff.mp h with hprefix | hinfix
      · rcases List.prefix_cons_iff.mp hprefix with rfl | ⟨t, rfl, -⟩
        · cases hw
        · exact absurd (Option.some.inj hw).symm hx.1
      · exact ih hx.2 hinfix

theorem infix_dropWhile {w x : List α} {p : α → Bool} {a : α} (hw : w.head? = some a) (ha : p a = false) :
    w <:+: x.dropWhile p ↔ w <:+: x := by
  refine ⟨fun h => h.trans (List.dropWhile_suffix p).isInfix, fun h => ?_⟩
  rw [← List.takeWhile_append_dropWhile (p := p) (l := x)] at h
  refine infix_of_infix_append hw (fun hmem => ?_) h
  rw [List.mem_takeWhile_imp hmem] at ha
  cases ha

/-- Neither is it found at the other end, past a symbol that it does not have. -/
theorem prefix_of_prefix_append_cons {w x y : List α} {b : α} (hb : b ∉ w) (h : w <+: x ++ b :: y) : w <+: x := by
  induction x generalizing w with
  | nil =>
      rcases List.prefix_cons_iff.mp h with rfl | ⟨t, rfl, -⟩
      · exact List.nil_prefix
      · exact absurd List.mem_cons_self hb
  | cons a x ih =>
      rcases List.prefix_cons_iff.mp h with rfl | ⟨t, rfl, ht⟩
      · exact List.nil_prefix
      · rw [List.mem_cons, not_or] at hb
        exact List.cons_prefix_cons.mpr ⟨rfl, ih hb.2 ht⟩

/-- A word is on one side of what has none of its symbols. -/
theorem infix_append_separator {w x y sep : List α} (hne : sep ≠ []) (hsep : ∀ a ∈ sep, a ∉ w) :
    w <:+: x ++ (sep ++ y) ↔ w <:+: x ∨ w <:+: y := by
  obtain ⟨b, sep, rfl⟩ := List.exists_cons_of_ne_nil hne
  constructor
  · intro h
    induction x with
    | nil =>
        cases w with
        | nil => exact Or.inl List.nil_infix
        | cons c w =>
            exact Or.inr (infix_of_infix_append List.head?_cons (fun hc => hsep c hc List.mem_cons_self) h)
    | cons a x ih =>
        rcases List.infix_cons_iff.mp h with hstart | hrest
        · exact Or.inl (prefix_of_prefix_append_cons (hsep b List.mem_cons_self) hstart).isInfix
        · exact (ih hrest).imp (fun hx => hx.trans (List.suffix_cons a x).isInfix) id
  · rintro (hx | hy)
    · exact hx.trans (List.prefix_append _ _).isInfix
    · exact hy.trans ((List.suffix_append _ _).trans (List.suffix_append _ _)).isInfix

/-- Replacements that the word has no part in. -/
theorem infix_flatMap {w : List α} {f g : β → List α} {tokens : List (β ⊕ α)}
    (h : ∀ b, .inl b ∈ tokens → f b = g b ∨
      (f b ≠ [] ∧ ∀ a ∈ f b, a ∉ w) ∧ (g b ≠ [] ∧ ∀ a ∈ g b, a ∉ w)) (x : List α) :
    w <:+: x ++ tokens.flatMap (Sum.elim f fun a => [a]) ↔ w <:+: x ++ tokens.flatMap (Sum.elim g fun a => [a]) := by
  induction tokens generalizing x with
  | nil => exact Iff.rfl
  | cons token tokens ih =>
      have hrest := ih fun b hb => h b (List.mem_cons_of_mem _ hb)
      rw [List.flatMap_cons, List.flatMap_cons]
      cases token with
      | inr a =>
          rw [← List.append_assoc, ← List.append_assoc]
          exact hrest (x ++ [a])
      | inl b =>
          rcases h b List.mem_cons_self with heq | ⟨⟨hf, hfw⟩, hg, hgw⟩
          · rw [Sum.elim_inl, Sum.elim_inl, heq, ← List.append_assoc, ← List.append_assoc]
            exact hrest (x ++ g b)
          · rw [Sum.elim_inl, Sum.elim_inl, infix_append_separator hf hfw, infix_append_separator hg hgw]
            exact or_congr_right (hrest [])

end Scanning
