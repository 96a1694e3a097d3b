import FinSight.Documents.Nearest
import FinSight.Ingest.Extract

/-!
# What extraction keeps

* `Spaced`, `spaced_itemsToText` : the fragments of a page, with nothing but white space between them;
* `isPageNumberLine_iff` : the lines that are page numbers;
* `mem_repeated`, `length_repeated_le` : the lines that are taken for boilerplate;
* `assertExtractable_iff` : the pages that pass, whatever the rounding;
* `Extracted`, `extractDocumentText_iff`.
-/

namespace FinSight.Ingest

open Documents (nearestDouble nearestDouble_mono)

/-! ## The fragments of a page -/

/-- The fragments of a page in their order, with nothing, a space or a line break before each of them, and a line break after
those that end a line. -/
inductive Spaced : List Item → Text → Prop
  | nil : Spaced [] []
  | marked {items : List Item} {t : Text} : Spaced items t → Spaced (.marked :: items) t
  | text {i : TextItem} {items : List Item} {before t : Text} : before ∈ [[], text " ", text "\n"] → Spaced items t →
      Spaced (.text i :: items) (before ++ i.str ++ (if i.hasEOL then text "\n" else []) ++ t)

theorem mem_separator (hypot : Rat → Rat → Rat) (s : Layout) (i : TextItem) :
    separator hypot s i ∈ [[], text " ", text "\n"] := by
  unfold separator
  split
  · split <;> decide
  · split <;> decide

theorem text_add (hypot : Rat → Rat → Rat) (s : Layout) (i : TextItem) :
    (s.add hypot (.text i)).text = s.text ++ (separator hypot s i ++ i.str ++ if i.hasEOL then text "\n" else []) := by
  rw [Layout.add]
  dsimp only
  split
  · rw [← List.append_assoc, ← List.append_assoc, newline]
  · rw [List.append_nil, ← List.append_assoc]

/-- Nothing is lost, and nothing but white space is added. -/
theorem spaced_itemsToText (hypot : Rat → Rat → Rat) (items : List Item) : Spaced items (itemsToText hypot items) := by
  have hfold : ∀ s : Layout, ∃ t, (items.foldl (Layout.add hypot) s).text = s.text ++ t ∧ Spaced items t := by
    induction items with
    | nil => exact fun s => ⟨[], (List.append_nil _).symm, .nil⟩
    | cons item items ih =>
        intro s
        obtain ⟨t, heq, ht⟩ := ih (s.add hypot item)
        rw [List.foldl_cons, heq]
        cases item with
        | marked => exact ⟨t, rfl, ht.marked⟩
        | text i => exact ⟨_, by rw [text_add, List.append_assoc], ht.text (mem_separator hypot s i)⟩
  obtain ⟨t, heq, ht⟩ := hfold Layout.empty
  rw [itemsToText, heq]
  exact ht

/-! ## Page numbers -/

/-- At least one digit. -/
structure Digits (t : Text) : Prop where
  nonempty : t ≠ []
  all : ∀ u ∈ t, isDigit u = true

structure Spaces (t : Text) : Prop where
  nonempty : t ≠ []
  all : ∀ u ∈ t, isSpace u = true

/-- A number, alone, or with `page` before it, or with `of` and the number of pages after it. -/
structure PageNumber (t : Text) : Prop where
  parts : ∃ before number after, t = before ++ number ++ after ∧ Digits number ∧
    (before = [] ∨ ∃ page gap, before = page ++ gap ∧ page.map lowerCase = text "page" ∧ Spaces gap) ∧
    (after = [] ∨ ∃ gap word gap' total, after = gap ++ word ++ gap' ++ total ∧ Spaces gap ∧
      word.map lowerCase = text "of" ∧ Spaces gap' ∧ Digits total)

theorem not_space_of_digit {u : CodeUnit} (h : isDigit u = true) : isSpace u = false := IsDigit.not_space (of_decide_eq_true h)

/-- Letters are neither white space nor digits. -/
theorem letter_of_lowerCase {u : CodeUnit} (h : lowerCase u = unit 'p' ∨ lowerCase u = unit 'o') :
    isSpace u = false ∧ isDigit u = false := by
  unfold lowerCase at h
  split at h
  · next hupper =>
    obtain ⟨hlow, hhigh⟩ := hupper
    rw [UInt16.le_iff_toNat_le] at hlow hhigh
    have hlow : 65 ≤ u.toNat := hlow
    have hhigh : u.toNat ≤ 90 := hhigh
    constructor
    · by_contra hspace
      have hrange := isSpace_range (Bool.not_eq_false _ ▸ hspace)
      omega
    · refine decide_eq_false fun hdigit => ?_
      have hnine : u.toNat ≤ 57 := hdigit.2
      omega
  · rcases h with rfl | rfl <;> decide

theorem head_of_map {w : Text} {c : Char} {word : Text} (h : w.map lowerCase = unit c :: word) :
    ∃ u rest, w = u :: rest ∧ lowerCase u = unit c := by
  cases w with
  | nil => cases h
  | cons u rest => exact ⟨u, rest, rfl, (List.cons.inj h).1⟩

theorem startsInSpace_append {gap rest : Text} (h : Spaces gap) : startsInSpace (gap ++ rest) = true := by
  obtain ⟨u, gap', rfl⟩ := List.exists_cons_of_ne_nil h.nonempty
  exact h.all u List.mem_cons_self

theorem dropWhile_spaces {gap rest : Text} (h : ∀ u ∈ gap, isSpace u = true) (hrest : startsInSpace rest = false) :
    (gap ++ rest).dropWhile isSpace = rest := by
  rw [List.dropWhile_append_of_pos h]
  cases rest with
  | nil => rfl
  | cons u rest => exact List.dropWhile_cons_of_neg (by simpa [startsInSpace] using hrest)

/-- White space, and what is after it. -/
theorem exists_spaces {t : Text} (h : startsInSpace t = true) :
    ∃ gap, t = gap ++ t.dropWhile isSpace ∧ Spaces gap ∧ startsInSpace (t.dropWhile isSpace) = false := by
  refine ⟨t.takeWhile isSpace, List.takeWhile_append_dropWhile.symm, ⟨?_, fun u hu => List.mem_takeWhile_imp hu⟩, ?_⟩
  · cases t with
    | nil => cases h
    | cons u t =>
        rw [List.takeWhile_cons_of_pos (by simpa [startsInSpace] using h)]
        exact List.cons_ne_nil _ _
  · have hnot := List.head?_dropWhile_not isSpace t
    unfold startsInSpace
    cases hhead : (t.dropWhile isSpace).head? with
    | none => rfl
    | some u =>
        rw [hhead] at hnot
        simpa using hnot

theorem afterWord_iff {word t rest : Text} :
    afterWord word t = some rest ↔ ∃ w gap, t = w ++ gap ++ rest ∧ w.map lowerCase = word ∧ Spaces gap ∧
      startsInSpace rest = false := by
  unfold afterWord
  constructor
  · intro h
    split at h
    · next hword =>
      obtain ⟨hmap, hspace⟩ := hword
      obtain ⟨gap, heq, hgap, hrest⟩ := exists_spaces hspace
      cases h
      refine ⟨t.take word.length, gap, ?_, hmap, hgap, hrest⟩
      rw [List.append_assoc, ← heq, List.take_append_drop]
    · cases h
  · rintro ⟨w, gap, rfl, rfl, hgap, hrest⟩
    rw [List.length_map, List.append_assoc, List.take_left, List.drop_left,
      if_pos ⟨rfl, startsInSpace_append hgap⟩, dropWhile_spaces hgap.all hrest]

theorem startsInSpace_digits {number rest : Text} (h : Digits number) : startsInSpace (number ++ rest) = false := by
  obtain ⟨u, number', rfl⟩ := List.exists_cons_of_ne_nil h.nonempty
  exact not_space_of_digit (h.all u List.mem_cons_self)

theorem afterOf_iff {t total : Text} :
    afterOf t = some total ↔ ∃ gap word gap', t = gap ++ word ++ gap' ++ total ∧ Spaces gap ∧ word.map lowerCase = text "of" ∧
      Spaces gap' ∧ startsInSpace total = false := by
  unfold afterOf
  constructor
  · intro h
    split at h
    · next hspace =>
      obtain ⟨gap, heq, hgap, -⟩ := exists_spaces hspace
      obtain ⟨word, gap', hdrop, hword, hgap', htotal⟩ := afterWord_iff.mp h
      exact ⟨gap, word, gap', by rw [heq, hdrop, List.append_assoc, List.append_assoc, List.append_assoc], hgap, hword, hgap', htotal⟩
    · cases h
  · rintro ⟨gap, word, gap', rfl, hgap, hword, hgap', htotal⟩
    obtain ⟨u, rest, hcons, hu⟩ := head_of_map hword
    have hstart : startsInSpace (word ++ gap' ++ total) = false := by
      rw [hcons]
      exact (letter_of_lowerCase (Or.inr hu)).1
    rw [List.append_assoc, List.append_assoc, if_pos (startsInSpace_append hgap), ← List.append_assoc word,
      dropWhile_spaces hgap.all hstart]
    exact afterWord_iff.mpr ⟨word, gap', rfl, hword, hgap', htotal⟩

/-- What is before the number is the optional group. -/
theorem numbered_eq {t before number after : Text} (ht : t = before ++ number ++ after) (hnumber : Digits number)
    (hbefore : before = [] ∨ ∃ page gap, before = page ++ gap ∧ page.map lowerCase = text "page" ∧ Spaces gap) :
    (afterWord (text "page") t).getD t = number ++ after := by
  rcases hbefore with rfl | ⟨page, gap, rfl, hpage, hgap⟩
  · rw [List.nil_append] at ht
    cases h : afterWord (text "page") t with
    | none => exact ht
    | some rest =>
        obtain ⟨w, gap, heq, hw, -, -⟩ := afterWord_iff.mp h
        obtain ⟨u, w', hcons, hu⟩ := head_of_map hw
        obtain ⟨v, number', hnum⟩ := List.exists_cons_of_ne_nil hnumber.nonempty
        rw [ht, hnum, hcons] at heq
        have hv := hnumber.all v (hnum ▸ List.mem_cons_self)
        rw [(List.cons.inj heq).1, (letter_of_lowerCase (Or.inl hu)).2] at hv
        cases hv
  · rw [ht, List.append_assoc, afterWord_iff.mpr ⟨page, gap, rfl, hpage, hgap, startsInSpace_digits hnumber⟩]
    rfl

theorem startsInDigit_of_digits {number rest : Text} (h : Digits number) :
    isPageNumberLine.startsInDigit (number ++ rest) = true := by
  obtain ⟨u, number', rfl⟩ := List.exists_cons_of_ne_nil h.nonempty
  exact h.all u List.mem_cons_self

theorem digits_takeWhile {t : Text} (h : isPageNumberLine.startsInDigit t = true) : Digits (t.takeWhile isDigit) := by
  refine ⟨?_, fun u hu => List.mem_takeWhile_imp hu⟩
  cases t with
  | nil => cases h
  | cons u t =>
      have hdigit : isDigit u = true := h
      rw [List.takeWhile_cons_of_pos hdigit]
      exact List.cons_ne_nil _ _

theorem dropWhile_digits {number after : Text} (h : Digits number) (hafter : startsInSpace after = true ∨ after = []) :
    (number ++ after).dropWhile isDigit = after := by
  rw [List.dropWhile_append_of_pos h.all]
  cases after with
  | nil => rfl
  | cons u after =>
      have hspace : isSpace u = true := by simpa [startsInSpace] using hafter
      refine List.dropWhile_cons_of_neg fun hdigit => ?_
      rw [not_space_of_digit hdigit] at hspace
      cases hspace

theorem isPageNumberLine_iff (t : Text) : isPageNumberLine t = true ↔ PageNumber t := by
  unfold isPageNumberLine
  simp only [Bool.and_eq_true, Bool.or_eq_true, List.isEmpty_iff]
  constructor
  · rintro ⟨hstart, hafter⟩
    have hbefore : ∃ before, t = before ++ (afterWord (text "page") t).getD t ∧
        (before = [] ∨ ∃ page gap, before = page ++ gap ∧ page.map lowerCase = text "page" ∧ Spaces gap) := by
      cases h : afterWord (text "page") t with
      | none => exact ⟨[], rfl, Or.inl rfl⟩
      | some rest =>
          obtain ⟨page, gap, heq, hpage, hgap, -⟩ := afterWord_iff.mp h
          exact ⟨page ++ gap, heq, Or.inr ⟨page, gap, rfl, hpage, hgap⟩⟩
    obtain ⟨before, heq, hbefore⟩ := hbefore
    generalize (afterWord (text "page") t).getD t = numbered at *
    refine ⟨before, numbered.takeWhile isDigit, numbered.dropWhile isDigit, ?_, digits_takeWhile hstart, hbefore, ?_⟩
    · rw [List.append_assoc, List.takeWhile_append_dropWhile]
      exact heq
    · refine hafter.imp_right fun h => ?_
      obtain ⟨total, htotal, hdigits⟩ := (Option.any_eq_true _ _).mp h
      rw [Bool.and_eq_true, List.all_eq_true] at hdigits
      obtain ⟨gap, word, gap', hrest, hgap, hword, hgap', -⟩ := afterOf_iff.mp htotal
      refine ⟨gap, word, gap', total, hrest, hgap, hword, hgap', fun hnil => ?_, hdigits.2⟩
      rw [hnil] at hdigits
      cases hdigits.1
  · rintro ⟨before, number, after, ht, hnumber, hbefore, hafter⟩
    rw [numbered_eq ht hnumber hbefore]
    refine ⟨startsInDigit_of_digits hnumber, ?_⟩
    rcases hafter with rfl | ⟨gap, word, gap', total, rfl, hgap, hword, hgap', htotal⟩
    · exact Or.inl (dropWhile_digits hnumber (Or.inr rfl))
    · right
      have hspace : startsInSpace (gap ++ word ++ gap' ++ total) = true := by
        rw [List.append_assoc, List.append_assoc]
        exact startsInSpace_append hgap
      have hend : startsInSpace total = false := by
        have h : startsInSpace (total ++ []) = false := startsInSpace_digits htotal
        rwa [List.append_nil] at h
      rw [dropWhile_digits hnumber (Or.inl hspace), afterOf_iff.mpr ⟨gap, word, gap', rfl, hgap, hword, hgap', hend⟩,
        Option.any_some, Bool.and_eq_true, List.all_eq_true]
      have hstart : isPageNumberLine.startsInDigit (total ++ []) = true := startsInDigit_of_digits htotal
      rw [List.append_nil] at hstart
      exact ⟨hstart, htotal.all⟩

/-! ## Boilerplate -/

theorem nodup_edges (t : Text) : (edges t).Nodup := Firsts.nodup_firsts _

theorem length_edges_le (t : Text) : (edges t).length ≤ 4 := by
  have hsub : edges t ⊆ (nonemptyLines t).take 2 ++ (nonemptyLines t).drop ((nonemptyLines t).length - 2) :=
    fun line h => Firsts.mem_firsts.mp h
  have hlength := (List.Nodup.subperm (nodup_edges t) hsub).length_le
  rw [List.length_append, List.length_take, List.length_drop] at hlength
  omega

section Pages
variable {pages : List Page}

theorem nodup_sets (pages : List Page) : ∀ s ∈ pages.map (fun p => edges p.text), s.Nodup := by
  intro s hs
  obtain ⟨p, -, rfl⟩ := List.mem_map.mp hs
  exact nodup_edges p.text

/-- A line that begins or ends at least half of three or more pages. -/
def Boilerplate (pages : List Page) (line : Text) : Prop :=
  3 ≤ pages.length ∧ pages.length ≤ 2 * pages.countP fun p => (edges p.text).contains line

theorem mem_repeated {line : Text} : line ∈ repeated pages ↔ Boilerplate pages line := by
  unfold repeated Boilerplate
  by_cases h : 3 ≤ pages.length
  · have hpos : 0 < threshold pages := by
      unfold threshold
      omega
    rw [if_pos h, counts, Tally.mem_frequent (nodup_sets pages) hpos, List.countP_map,
      List.countP_congr (q := fun p => (edges p.text).contains line) fun p _ => by simp, threshold]
    omega
  · rw [if_neg h]
    exact iff_of_false List.not_mem_nil fun hline => h hline.1

/-- No more than eight lines are taken for boilerplate. -/
theorem length_repeated_le : (repeated pages).length ≤ 8 := by
  unfold repeated
  split
  · next h =>
    have hpos : 0 < threshold pages := by
      unfold threshold
      omega
    have hfour : ∀ s ∈ pages.map (fun p => edges p.text), s.length ≤ 4 := by
      intro s hs
      obtain ⟨p, -, rfl⟩ := List.mem_map.mp hs
      exact length_edges_le p.text
    have hle := Tally.mul_length_frequent_le (nodup_sets pages) hpos hfour
    rw [List.length_map] at hle
    have hhalf : pages.length ≤ 2 * threshold pages := by
      unfold threshold
      omega
    exact Nat.le_of_mul_le_mul_left (hle.trans (by omega)) hpos
  · exact Nat.zero_le 8

end Pages

/-! ## The pages that pass -/

/-- The double after `maxEmptyPageRatio`. -/
def nextRatio : Rat := 5404319552844596 / 2 ^ 54

theorem maxEmptyPageRatio_lt : maxEmptyPageRatio < nextRatio := by decide +kernel

theorem nearestDouble_nextRatio : nearestDouble nextRatio = nextRatio := by decide +kernel

/-- Rounding does not matter. -/
theorem ratio_iff {empty pages : Nat} (hpos : 0 < pages) (h : pages < 2 ^ 32) :
    maxEmptyPageRatio < nearestDouble (empty / pages) ↔ 3 * pages < 10 * empty := by
  have hpages : (0 : Rat) < pages := by exact_mod_cast hpos
  constructor
  · intro hlt
    by_contra hle
    have hratio : (empty : Rat) / pages ≤ 3 / 10 := by
      rw [div_le_div_iff₀ hpages (by norm_num)]
      exact_mod_cast (by omega : empty * 10 ≤ 3 * pages)
    exact absurd hlt (not_lt_of_ge (nearestDouble_mono hratio))
  · intro hlt
    have hratio : nextRatio ≤ (empty : Rat) / pages := by
      have hempty : (3 * pages + 1 : Rat) ≤ 10 * empty := by exact_mod_cast hlt
      have hbound : (pages : Rat) ≤ 2 ^ 32 := by exact_mod_cast h.le
      rw [nextRatio, div_le_div_iff₀ (by norm_num) hpages]
      linarith
    calc maxEmptyPageRatio < nextRatio := maxEmptyPageRatio_lt
      _ = nearestDouble nextRatio := nearestDouble_nextRatio.symm
      _ ≤ nearestDouble (empty / pages) := nearestDouble_mono hratio

theorem assertExtractable_iff {pages : List Page} (h : pages.length < 2 ^ 32) :
    assertExtractable pages = .ok () ↔ pages ≠ [] ∧ 10 * emptyPages pages ≤ 3 * pages.length := by
  unfold assertExtractable
  by_cases hnil : pages.length = 0
  · rw [if_pos hnil]
    exact iff_of_false (fun heq => by cases heq) fun hne => hne.1 (List.eq_nil_of_length_eq_zero hnil)
  · rw [if_neg hnil]
    have hratio := @ratio_iff (emptyPages pages) pages.length (Nat.pos_of_ne_zero hnil) h
    have hne : pages ≠ [] := fun heq => hnil (congrArg List.length heq)
    split
    · next hlt => exact iff_of_false (fun heq => by cases heq) fun hle => absurd hle.2 (Nat.not_le_of_lt (hratio.mp hlt))
    · next hle => exact iff_of_true rfl ⟨hne, Nat.le_of_not_lt fun hlt => hle (hratio.mpr hlt)⟩

/-! ## The whole extraction -/

/-- A page as pdf.js has found it, with its white space normalized. -/
def rawPage (lib : Pdfjs) (items : List Item) : Text := normalizeText lib.nfkc (itemsToText lib.hypot items)

/-- The pages before boilerplate is taken out. -/
def rawPages (lib : Pdfjs) (items : List (List Item)) : List Page := items.mapIdx fun i is => ⟨i + 1, rawPage lib is⟩

/-- The lines that are not kept. -/
def Dropped (pages : List Page) (line : Text) : Prop := Boilerplate pages line ∨ PageNumber (trim line)

instance decidableDropped (pages : List Page) (line : Text) : Decidable (Dropped pages line) :=
  decidable_of_iff ((repeated pages).contains line = true ∨ isPageNumberLine (trim line) = true)
    (or_congr (List.contains_iff_mem.trans mem_repeated) (isPageNumberLine_iff _))

/-- The pages of a PDF: each with its lines, but for those that begin or end half of the pages, and page numbers; and enough
of them have text. -/
structure Extracted (lib : Pdfjs) (items : List (List Item)) (pages : List Page) : Prop where
  eq : pages = (rawPages lib items).map fun p =>
    { p with text := trim (newline.intercalate ((lines p.text).filter fun line => !decide (Dropped (rawPages lib items) line))) }
  nonempty : pages ≠ []
  readable : 10 * emptyPages pages ≤ 3 * pages.length

theorem stripBoilerplate_eq (pages : List Page) :
    stripBoilerplate pages = pages.map fun p =>
      { p with text := trim (newline.intercalate ((lines p.text).filter fun line => !decide (Dropped pages line))) } := by
  refine List.map_congr_left fun p _ => ?_
  have hkept : (lines p.text).filter (fun line => !(repeated pages).contains line && !isPageNumberLine (trim line)) =
      (lines p.text).filter fun line => !decide (Dropped pages line) := by
    refine List.filter_congr fun line _ => ?_
    rw [Bool.eq_iff_iff]
    simp [Dropped, ← mem_repeated, ← isPageNumberLine_iff]
  rw [hkept]

/-- **Extraction keeps all but boilerplate and page numbers**, adds white space only, and fails exactly where there are no
pages or more than three in ten are nearly empty; no more than eight lines are boilerplate. -/
theorem extractDocumentText_iff (lib : Pdfjs) {buffer : List UInt8} {items : List (List Item)}
    (hitems : lib.pages buffer = .ok items) (hlength : items.length < 2 ^ 32) :
    (∀ pages, extractDocumentText lib buffer = .ok pages ↔ Extracted lib items pages) ∧
      (∀ is ∈ items, Spaced is (itemsToText lib.hypot is)) ∧
      ∃ boilerplate : List Text, boilerplate.length ≤ 8 ∧ ∀ line, Boilerplate (rawPages lib items) line ↔ line ∈ boilerplate := by
  refine ⟨fun pages => ?_, fun is _ => spaced_itemsToText lib.hypot is, repeated (rawPages lib items), length_repeated_le,
    fun line => mem_repeated.symm⟩
  have hraw : extractPages lib buffer = .ok (items.mapIdx fun i is => ⟨i + 1, itemsToText lib.hypot is⟩) := by
    unfold extractPages
    rw [hitems]
  have hnormalized : (items.mapIdx fun i is => (⟨i + 1, itemsToText lib.hypot is⟩ : Page)).map
      (fun p => { p with text := normalizeText lib.nfkc p.text }) = rawPages lib items := by
    refine List.ext_getElem? fun i => ?_
    rw [List.getElem?_map, List.getElem?_mapIdx, rawPages, List.getElem?_mapIdx, Option.map_map]
    rfl
  have hextract : extractDocumentText lib buffer = .ok pages ↔
      assertExtractable (stripBoilerplate (rawPages lib items)) = .ok () ∧ stripBoilerplate (rawPages lib items) = pages := by
    unfold extractDocumentText
    rw [hraw]
    dsimp only [bind, Except.bind]
    rw [hnormalized]
    cases assertExtractable (stripBoilerplate (rawPages lib items)) with
    | error message => simp
    | ok => simp [pure, Except.pure]
  have hlen : (stripBoilerplate (rawPages lib items)).length < 2 ^ 32 := by
    rw [stripBoilerplate, List.length_map, rawPages, List.length_mapIdx]
    exact hlength
  rw [hextract, assertExtractable_iff hlen]
  constructor
  · rintro ⟨⟨hne, hreadable⟩, rfl⟩
    exact ⟨stripBoilerplate_eq _, hne, hreadable⟩
  · rintro ⟨hpages, hne, hreadable⟩
    rw [← stripBoilerplate_eq] at hpages
    subst hpages
    exact ⟨⟨hne, hreadable⟩, rfl⟩

/-! ## A lease of three pages -/

namespace Lease

def fragment (str : Text) (x y width : Rat) (hasEOL : Bool) : Item := .text ⟨str, 12, 0, x, y, width, hasEOL⟩

/-- The name of the company is in two fragments, and there is a part of the page without text. -/
def page (clause number : Text) : List Item :=
  [fragment (text "ACME") 72 800 40 false, fragment (text "Ltd") 118 800 20 false, fragment clause 72 700 200 true, .marked,
    fragment number 72 40 60 false]

def items : List (List Item) :=
  [page (text "The rent is 900  euros a month.") (text "Page 1 of 3"), page (text "The term is five years.") (text "Page 2 of 3"),
    page (text "Pets are not allowed here.") (text "Page 3 of 3")]

def rawTexts : List Text :=
  [text "ACME Ltd\nThe rent is 900  euros a month.\nPage 1 of 3", text "ACME Ltd\nThe term is five years.\nPage 2 of 3",
    text "ACME Ltd\nPets are not allowed here.\nPage 3 of 3"]

/-- All heights are of upright text, and the text is ASCII. -/
def lib : Pdfjs := ⟨fun _ => .ok items, fun a _ => a, id⟩

def pages : List Page :=
  [⟨1, text "The rent is 900 euros a month."⟩, ⟨2, text "The term is five years."⟩, ⟨3, text "Pets are not allowed here."⟩]

end Lease

open Lease in
theorem extractDocumentText_iff_lease :
    items.map (itemsToText lib.hypot) = rawTexts ∧ Extracted lib items pages ∧
      (∀ is ∈ items, Spaced is (itemsToText lib.hypot is)) ∧
      ∃ boilerplate : List Text, boilerplate.length ≤ 8 ∧ ∀ line, Boilerplate (rawPages lib items) line ↔ line ∈ boilerplate := by
  have hextract : extractDocumentText lib [] = .ok pages := by decide +kernel
  obtain ⟨hiff, hspaced, hboilerplate⟩ := @extractDocumentText_iff lib [] items rfl (by decide)
  exact ⟨by decide +kernel, (hiff pages).mp hextract, hspaced, hboilerplate⟩

end FinSight.Ingest
