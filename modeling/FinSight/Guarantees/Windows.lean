import FinSight.Guarantees.Coverage

/-!
# The windows over a block

* `Numbers` : the comparisons of numbers, of which `NaN` may be one;
* `IsTrimmed` : a text without white space at its ends; its sentences are, and it is cut into its words;
* `fits_linePieces`, `fits_windows` : pieces of words that fit the cap fit it, and so do the windows over them;
* `windows_fit` : the windows over the pieces of trimmed lines.
-/

namespace FinSight.Ingest

open Scanning Runs

/-! ## Trimmed lines -/

/-- Not empty, and without white space at its ends. -/
structure IsTrimmed (t : Text) : Prop where
  ne_nil : t ≠ []
  head : ∀ u, t.head? = some u → isSpace u = false
  last : ∀ u, t.getLast? = some u → isSpace u = false

theorem isTrimmed_of_trim {t : Text} (hne : t ≠ []) (htrim : trim t = t) : IsTrimmed t where
  ne_nil := hne
  head _ h := head?_trim (htrim.symm ▸ h)
  last _ h := getLast?_trim (htrim.symm ▸ h)

/-- What is left after the white space at its start. -/
theorem IsTrimmed.of_dropWhile {u : CodeUnit} {rest : Text} (hne : rest.dropWhile isSpace ≠ [])
    (hlast : ∀ v, (u :: rest).getLast? = some v → isSpace v = false) : IsTrimmed (rest.dropWhile isSpace) where
  ne_nil := hne
  head v h := by
    have hnot := List.head?_dropWhile_not isSpace rest
    rw [h] at hnot
    simpa using hnot
  last v h := by
    obtain ⟨x, hx⟩ := (List.dropWhile_suffix (p := isSpace) (l := rest)).trans (List.suffix_cons u rest)
    refine hlast v ?_
    rw [← hx, List.getLast?_append, h]
    rfl

/-- `split(/\s+/)` gives no empty text after the first, and that one only where the text starts with white space. -/
theorem splitSpaces_pieces (t : Text) (hne : t ≠ []) (hlast : ∀ u, t.getLast? = some u → isSpace u = false) :
    ∃ first rest, splitSpaces t = first :: rest ∧ (∀ w ∈ rest, w ≠ []) ∧
      (first = [] → ∃ u, t.head? = some u ∧ isSpace u = true) := by
  refine scan_induction (P := fun t => t ≠ [] → (∀ u, t.getLast? = some u → isSpace u = false) →
    ∃ first rest, splitSpaces t = first :: rest ∧ (∀ w ∈ rest, w ≠ []) ∧
      (first = [] → ∃ u, t.head? = some u ∧ isSpace u = true)) spaces ?_ ?_ ?_ t hne hlast
  · exact fun h _ => absurd rfl h
  · intro u as run n hm ih _ hlast
    have hu : isSpace u = true := by
      rw [spaces] at hm
      split at hm
      · assumption
      · cases hm
    have hdrop : as.drop n = as.dropWhile isSpace := by
      rw [spaces, if_pos hu] at hm
      obtain ⟨-, rfl⟩ := Prod.mk.inj (Option.some.inj hm)
      exact drop_length_takeWhile isSpace as
    rw [hdrop] at ih
    have hrest : as.dropWhile isSpace ≠ [] := by
      intro hnil
      have hall := List.dropWhile_eq_nil_iff.mp hnil
      have hspace : ∀ v ∈ u :: as, isSpace v = true := List.forall_mem_cons.mpr ⟨hu, fun v hv => hall v hv⟩
      have hend := hlast _ (List.getLast?_eq_some_getLast (List.cons_ne_nil u as))
      rw [hspace _ (List.getLast_mem (List.cons_ne_nil u as))] at hend
      cases hend
    have htrimmed := IsTrimmed.of_dropWhile hrest hlast
    obtain ⟨first, rest, hsplit, hpieces, hfirst⟩ := ih hrest htrimmed.last
    refine ⟨[], first :: rest, ?_, List.forall_mem_cons.mpr ⟨fun hnil => ?_, hpieces⟩, fun _ => ⟨u, rfl, hu⟩⟩
    · rw [splitSpaces, split_match hm, hdrop]
      exact congrArg _ hsplit
    · obtain ⟨v, hv, hspace⟩ := hfirst hnil
      rw [htrimmed.head v hv] at hspace
      cases hspace
  · intro u as hm ih _ hlast
    rw [splitSpaces, split_none hm]
    cases as with
    | nil => exact ⟨[u], [], rfl, fun _ h => (by cases h), fun h => (by cases h)⟩
    | cons v as =>
        obtain ⟨first, rest, hsplit, hpieces, -⟩ := ih (List.cons_ne_nil v as) fun w hw => hlast w (by
          rw [List.getLast?_cons_cons, hw])
        refine ⟨u :: first, rest, ?_, hpieces, fun h => by cases h⟩
        rw [splitSpaces] at hsplit
        rw [hsplit, List.modifyHead_cons]

theorem mem_words_of_mem_splitSpaces {t w : Text} (h : IsTrimmed t) (hw : w ∈ splitSpaces t) : w ∈ words t := by
  rw [← filter_splitSpaces]
  refine List.mem_filter.mpr ⟨hw, ?_⟩
  obtain ⟨first, rest, hsplit, hpieces, hfirst⟩ := splitSpaces_pieces t h.ne_nil h.last
  have hne : w ≠ [] := by
    rw [hsplit] at hw
    rcases List.mem_cons.mp hw with rfl | hw
    · intro hnil
      obtain ⟨u, hu, hspace⟩ := hfirst hnil
      rw [h.head u hu] at hspace
      cases hspace
    · exact hpieces w hw
  simpa using hne

theorem isSpace_sentenceMark {u : CodeUnit} (h : u ∈ text ".;:") : isSpace u = false := by
  have hmarks : ∀ v ∈ text ".;:", isSpace v = false := by decide
  exact hmarks u h

/-- The sentences of a text without white space at its end. -/
theorem sentences_trimmed (t : Text) (hne : t ≠ []) (hlast : ∀ u, t.getLast? = some u → isSpace u = false) :
    ∃ first rest, sentences t = first :: rest ∧ (∀ s ∈ rest, IsTrimmed s) ∧ first ≠ [] ∧ first.head? = t.head? ∧
      ∀ u, first.getLast? = some u → isSpace u = false := by
  refine scan_induction (P := fun t => t ≠ [] → (∀ u, t.getLast? = some u → isSpace u = false) →
    ∃ first rest, sentences t = first :: rest ∧ (∀ s ∈ rest, IsTrimmed s) ∧ first ≠ [] ∧ first.head? = t.head? ∧
      ∀ u, first.getLast? = some u → isSpace u = false) sentenceEnd ?_ ?_ ?_ t hne hlast
  · exact fun h _ => absurd rfl h
  · intro u as p n hm ih _ hlast
    have hm' := hm
    rw [sentenceEnd] at hm'
    split at hm'
    · next hend =>
      obtain ⟨rfl, rfl⟩ := Prod.mk.inj (Option.some.inj hm')
      have hdrop := drop_length_takeWhile isSpace as
      rw [hdrop] at ih
      have hrest : as.dropWhile isSpace ≠ [] := by
        have hafter := hend.2
        unfold afterSpaces at hafter
        split at hafter
        · next hspaces => exact hspaces.2
        · cases hafter
      have htrimmed := IsTrimmed.of_dropWhile hrest hlast
      obtain ⟨first, rest, hsplit, hpieces, hfirst, hhead, hfirstLast⟩ := ih hrest htrimmed.last
      refine ⟨[u], first :: rest, ?_, List.forall_mem_cons.mpr ⟨⟨hfirst, fun v hv => ?_, hfirstLast⟩, hpieces⟩,
        List.cons_ne_nil _ _, rfl, fun v hv => ?_⟩
      · rw [sentences, split_match hm, hdrop]
        exact congrArg _ hsplit
      · exact htrimmed.head v (hhead ▸ hv)
      · obtain rfl : u = v := Option.some.inj hv
        exact isSpace_sentenceMark hend.1
    · cases hm'
  · intro u as hm ih _ hlast
    rw [sentences, split_none hm]
    cases as with
    | nil => exact ⟨[u], [], rfl, fun _ h => (by cases h), List.cons_ne_nil _ _, rfl, hlast⟩
    | cons v as =>
        obtain ⟨first, rest, hsplit, hpieces, hfirst, -, hfirstLast⟩ :=
          ih (List.cons_ne_nil v as) fun w hw => hlast w (by rw [List.getLast?_cons_cons, hw])
        refine ⟨u :: first, rest, ?_, hpieces, List.cons_ne_nil _ _, rfl, fun w hw => hfirstLast w ?_⟩
        · rw [sentences] at hsplit
          rw [hsplit, List.modifyHead_cons]
        · obtain ⟨x, xs, rfl⟩ := List.exists_cons_of_ne_nil hfirst
          rwa [List.getLast?_cons_cons] at hw

theorem isTrimmed_of_mem_sentences {t s : Text} (h : IsTrimmed t) (hs : s ∈ sentences t) : IsTrimmed s := by
  obtain ⟨first, rest, hsplit, hpieces, hne, hhead, hlast⟩ := sentences_trimmed t h.ne_nil h.last
  rw [hsplit] at hs
  rcases List.mem_cons.mp hs with rfl | hs
  · exact ⟨hne, fun u hu => h.head u (hhead ▸ hu), hlast⟩
  · exact hpieces s hs

/-- What a trimmed line is cut into at last are its words. -/
theorem mem_words_of_sentence {t s w : Text} (h : IsTrimmed t) (hs : s ∈ sentences t) (hw : w ∈ splitSpaces s) :
    w ∈ words t := by
  rw [← words_sentences]
  exact List.mem_flatMap.mpr ⟨s, hs, mem_words_of_mem_splitSpaces (isTrimmed_of_mem_sentences h hs) hw⟩

/-! ## The cap -/

/-- What the comparisons of numbers satisfy; `x ≤ x` says that `x` is not `NaN`. -/
class Numbers (R : Type) [LE R] [LT R] [NatCast R] : Prop where
  le_trans : ∀ {x y z : R}, x ≤ y → y ≤ z → x ≤ z
  le_left : ∀ {x y : R}, x ≤ y → x ≤ x
  le_right : ∀ {x y : R}, x ≤ y → y ≤ y
  le_of_not_lt : ∀ {x : R} (n : Nat), x ≤ x → ¬ x < (n : R) → (n : R) ≤ x

instance numbersOfLinearOrder {R : Type} [LinearOrder R] [NatCast R] : Numbers R where
  le_trans h h' := h.trans h'
  le_left {x _} _ := le_refl x
  le_right {_ y} _ := le_refl y
  le_of_not_lt _ _ h := not_lt.mp h

section

set_option linter.unusedSectionVars false

variable {R : Type} [LE R] [LT R] [Mul R] [NatCast R] [DecidableLE R] [DecidableLT R] [Numbers R]
variable (count : Text → Nat) (lead : Text)

/-- With the title and heading before it, the text fits the cap. -/
abbrev FitsCap (cap : R) (t : Text) : Prop := (count (lead ++ t) : R) ≤ cap

theorem fits_wordGroups {cap : R} (hcap : cap ≤ cap) {sentence : Text}
    (h : ∀ word ∈ splitSpaces sentence, FitsCap count lead cap word) :
    ∀ group ∈ wordGroups count lead cap sentence, FitsCap count lead cap group := by
  have hloop : ∀ ws : List Text, (∀ word ∈ ws, FitsCap count lead cap word) →
      let s := ws.foldl (addWord count lead cap) ([], [])
      (∀ group ∈ s.1, FitsCap count lead cap group) ∧ (s.2 ≠ [] → FitsCap count lead cap (joinWords s.2)) := by
    refine foldl_induction (motive := fun ws (s : List Text × List Text) =>
      (∀ word ∈ ws, FitsCap count lead cap word) →
        (∀ group ∈ s.1, FitsCap count lead cap group) ∧ (s.2 ≠ [] → FitsCap count lead cap (joinWords s.2))) ?_ ?_
    · exact fun _ => ⟨by rintro group ⟨⟩, fun hne => absurd rfl hne⟩
    · intro ws s word ih hall
      obtain ⟨hout, hcur⟩ := ih fun w hw => hall w (List.mem_append_left _ hw)
      have hword := hall word (List.mem_append_right _ (List.mem_singleton_self _))
      have hsingle : FitsCap count lead cap (joinWords [word]) := by
        rwa [joinWords, List.intercalate_singleton]
      unfold addWord
      split
      · next hover =>
        refine ⟨fun group hgroup => ?_, fun _ => hsingle⟩
        rcases List.mem_append.mp hgroup with hgroup | hgroup
        · exact hout group hgroup
        · rw [List.mem_singleton.mp hgroup]
          exact hcur hover.1
      · next hfits =>
        refine ⟨hout, fun _ => ?_⟩
        by_cases hnil : s.2 = []
        · show FitsCap count lead cap (joinWords (s.2 ++ [word]))
          rwa [hnil]
        · exact Numbers.le_of_not_lt _ hcap (not_and.mp hfits hnil)
  obtain ⟨hout, hcur⟩ := hloop _ h
  unfold wordGroups
  split
  next out cur hfold =>
  rw [hfold] at hout hcur
  split
  · next hne =>
    intro group hgroup
    rcases List.mem_append.mp hgroup with hgroup | hgroup
    · exact hout group hgroup
    · rw [List.mem_singleton.mp hgroup]
      exact hcur hne
  · exact hout

/-- The pieces of a line whose words fit where they may have to stand alone. -/
theorem fits_linePieces {cap : R} (hcap : cap ≤ cap) {line : Line}
    (h : ¬ FitsCap count lead cap line.text → ∀ sentence ∈ sentences line.text, ¬ FitsCap count lead cap sentence →
      ∀ word ∈ splitSpaces sentence, FitsCap count lead cap word) :
    ∀ p ∈ linePieces count lead cap line, FitsCap count lead cap p.text := by
  intro p hp
  unfold linePieces at hp
  split at hp
  · next hfits =>
    rw [List.mem_singleton.mp hp]
    exact hfits
  · next hover =>
    obtain ⟨i, hi, rfl⟩ := List.mem_mapIdx.mp hp
    have hmem := List.getElem_mem hi
    generalize (splitToFit count lead cap line.text)[i] = group at hmem ⊢
    obtain ⟨sentence, hsentence, hgroup⟩ := List.mem_flatMap.mp hmem
    split at hgroup
    · next hfits =>
      rw [List.mem_singleton.mp hgroup]
      exact hfits
    · next hlong => exact fits_wordGroups count lead hcap (h hover sentence hsentence hlong) _ hgroup

theorem fits_single {cap : R} {p : Piece} (h : FitsCap count lead cap p.text) :
    FitsCap count lead cap (joinPieces ([] ++ [p])) := by
  show FitsCap count lead cap (p.text ++ [])
  rwa [List.append_nil]

/-- The tail that is carried over is trimmed from the front until the next piece fits after it. -/
theorem fits_shiftWhile {cap : R} (hcap : cap ≤ cap) {p : Piece} (hp : FitsCap count lead cap p.text) (win : List Piece) :
    FitsCap count lead cap (joinPieces (shiftWhile count lead cap p win ++ [p])) := by
  induction win with
  | nil => exact fits_single count lead hp
  | cons w win ih =>
      unfold shiftWhile
      split
      · exact ih
      · next hfits => exact Numbers.le_of_not_lt _ hcap hfits

theorem fits_windows (opts : Options R) (htarget : opts.target ≤ opts.cap) {pieces : List Piece}
    (h : ∀ p ∈ pieces, FitsCap count lead opts.cap p.text) :
    ∀ win ∈ windows count lead opts pieces, win ≠ [] ∧ FitsCap count lead opts.cap (joinPieces win) := by
  have hcap := Numbers.le_right htarget
  have hloop : ∀ pieces : List Piece, (∀ p ∈ pieces, FitsCap count lead opts.cap p.text) →
      let s := pieces.foldl (addPiece count lead opts) ([], [])
      (∀ win ∈ s.1, win ≠ [] ∧ FitsCap count lead opts.cap (joinPieces win)) ∧
        (s.2 ≠ [] → FitsCap count lead opts.cap (joinPieces s.2)) := by
    refine foldl_induction (motive := fun (pieces : List Piece) (s : List (List Piece) × List Piece) =>
      (∀ p ∈ pieces, FitsCap count lead opts.cap p.text) →
        (∀ win ∈ s.1, win ≠ [] ∧ FitsCap count lead opts.cap (joinPieces win)) ∧
          (s.2 ≠ [] → FitsCap count lead opts.cap (joinPieces s.2))) ?_ ?_
    · exact fun _ => ⟨by rintro win ⟨⟩, fun hne => absurd rfl hne⟩
    · intro pieces s p ih hall
      obtain ⟨hout, hwin⟩ := ih fun q hq => hall q (List.mem_append_left _ hq)
      have hp := hall p (List.mem_append_right _ (List.mem_singleton_self _))
      unfold addPiece
      split
      · next hover =>
        refine ⟨fun win hmem => ?_, fun _ => fits_shiftWhile count lead hcap hp _⟩
        rcases List.mem_append.mp hmem with hmem | hmem
        · exact hout win hmem
        · rw [List.mem_singleton.mp hmem]
          exact ⟨hover.1, hwin hover.1⟩
      · next hfits =>
        refine ⟨hout, fun _ => ?_⟩
        by_cases hnil : s.2 = []
        · show FitsCap count lead opts.cap (joinPieces (s.2 ++ [p]))
          rw [hnil]
          exact fits_single count lead hp
        · exact Numbers.le_trans (Numbers.le_of_not_lt _ (Numbers.le_left htarget) (not_and.mp hfits hnil)) htarget
  obtain ⟨hout, hwin⟩ := hloop pieces h
  unfold windows
  split
  next out win hfold =>
  rw [hfold] at hout hwin
  split
  · next hne =>
    intro w hw
    rcases List.mem_append.mp hw with hw | hw
    · exact hout w hw
    · rw [List.mem_singleton.mp hw]
      exact ⟨hne, hwin hne⟩
  · exact hout

end

/-- **The windows over an oversized block fit the cap**, whatever the counter: where every word of its trimmed lines
does, after the title and heading, and the target is at most the cap. -/
theorem windows_fit {R : Type} [LE R] [LT R] [Mul R] [NatCast R] [DecidableLE R] [DecidableLT R] [Numbers R]
    (count : Text → Nat) (lead : Text) (opts : Options R) (htarget : opts.target ≤ opts.cap) (lines : List Line)
    (htrim : ∀ l ∈ lines, l.text ≠ [] ∧ trim l.text = l.text)
    (hwords : ∀ l ∈ lines, ∀ w ∈ words l.text, (count (lead ++ w) : R) ≤ opts.cap) :
    ∀ win ∈ windows count lead opts (toPieces count lead opts.cap lines),
      win ≠ [] ∧ (count (lead ++ joinPieces win) : R) ≤ opts.cap := by
  refine fits_windows count lead opts htarget fun p hp => ?_
  obtain ⟨line, hline, hp⟩ := List.mem_flatMap.mp hp
  obtain ⟨hne, htrimmed⟩ := htrim line hline
  refine fits_linePieces count lead (Numbers.le_right htarget) (fun _ s hs _ w hw => ?_) p hp
  exact hwords line hline w (mem_words_of_sentence (isTrimmed_of_trim hne htrimmed) hs hw)

/-- A line over the cap, whose second sentence is in two windows, and a short one. -/
def oversized : List Line := [⟨text "Pay. Net 30. Fees accrue. Late fees accrue monthly.", 1⟩, ⟨text "End.", 2⟩]

def narrow : Options ℚ := ⟨18, 24, 1 / 2⟩

theorem windows_fit_oversized :
    ((windows List.length (text "1. ") narrow (toPieces List.length (text "1. ") narrow.cap oversized)).map joinPieces =
        [text "Pay. Net 30.", text "Net 30. Fees accrue.", text "Late fees accrue", text "monthly.\nEnd."]) ∧
      ∀ win ∈ windows List.length (text "1. ") narrow (toPieces List.length (text "1. ") narrow.cap oversized),
        win ≠ [] ∧ ((text "1. " ++ joinPieces win).length : ℚ) ≤ narrow.cap := by
  refine ⟨by decide +kernel, windows_fit List.length (text "1. ") narrow (by decide +kernel) oversized ?_ ?_⟩
  · decide +kernel
  · decide +kernel

end FinSight.Ingest
