import FinSight.Ingest.Structure
import FinSight.Js.Digits

/-!
# What the parser finds in a document

A manuscript is a document before it is laid out: its title, its preamble, and its numbered sections with their numbered
clauses.

* `Manuscript.lines`, `Manuscript.outline` : its lines in order, and the sections and blocks they belong to;
* `Sheet.page` : a page with its rows; `toLines_sheets` : the lines that are read from the pages;
* `foldl_parseLine_clauses`, `foldl_parseLine_sections` : a run of the parser over the clauses of a section, and over the
  sections;
* `parseStructure_sheets` : the parser finds the outline, wherever the pages end.
-/

namespace FinSight.Ingest

/-! ## Manuscripts -/

/-- What is after the number of a clause, the page of that line, and the lines that continue it. -/
structure ClauseText where
  text : Text
  page : Int
  continuation : List Line

structure SectionText where
  title : Text
  page : Int
  intro : List Line
  clauses : List ClauseText

structure Manuscript where
  title : Line
  preamble : List Line
  sections : List SectionText

def clauseId (k j : Nat) : Text := decimal k ++ text "." ++ decimal j

/-- `k.j text`. -/
def ClauseText.line (k j : Nat) (c : ClauseText) : Line where
  text := clauseId k j ++ unit ' ' :: c.text
  page := c.page

def ClauseText.lines (k j : Nat) (c : ClauseText) : List Line := c.line k j :: c.continuation

/-- `k. T`. -/
def SectionText.heading (k : Nat) (s : SectionText) : Text := decimal k ++ text ". " ++ s.title

def SectionText.lines (k : Nat) (s : SectionText) : List Line :=
  { text := s.heading k, page := s.page } :: s.intro ++ (s.clauses.zipIdx 1).flatMap fun (c, j) => c.lines k j

def Manuscript.lines (m : Manuscript) : List Line :=
  m.title :: m.preamble ++ (m.sections.zipIdx 1).flatMap fun (s, k) => s.lines k

def ClauseText.block (k j : Nat) (c : ClauseText) : Block where
  id := some (clauseId k j)
  lines := c.lines k j

def SectionText.parsed (k : Nat) (s : SectionText) : Section where
  number := k
  heading := s.heading k
  blocks := { id := none, lines := s.intro } :: (s.clauses.zipIdx 1).map fun (c, j) => c.block k j

def Manuscript.parsed (m : Manuscript) : List Section :=
  { number := 0, heading := text "Preamble", blocks := [{ id := none, lines := m.preamble }] } ::
    (m.sections.zipIdx 1).map fun (s, k) => s.parsed k

/-- The sections that have lines, with the blocks that have lines. -/
def Manuscript.outline (m : Manuscript) : Structure where
  title := some m.title.text
  sections := (m.parsed.filter fun s => s.blocks.any fun b => b.lines ≠ []).map fun s =>
    { s with blocks := s.blocks.filter fun b => b.lines ≠ [] }

/-! ## Lines in their place -/

/-- Non-empty, trimmed, and free of line terminators. -/
def Line.Clean (l : Line) : Prop := l.text ≠ [] ∧ trim l.text = l.text ∧ ∀ u ∈ l.text, isLineTerminator u = false
  deriving Decidable

/-- The heading that is next in section `k`. -/
def NextHeading (k : Nat) (t : Text) : Prop :=
  ∃ x ∈ sectionRe t, decimalValue x.1 = k + 1 ∧ looksLikeSectionTitle x.2 = true
  deriving Decidable

/-- The clause that is next in section `k`, after clause `j`. -/
def NextClause (k j : Nat) (t : Text) : Prop :=
  ∃ x ∈ clauseRe t, decimalValue x.1 = k ∧ decimalValue x.2 = j + 1
  deriving Decidable

def Line.Continues (k j : Nat) (l : Line) : Prop := ¬ NextHeading k l.text ∧ ¬ NextClause k j l.text
  deriving Decidable

/-- What the parser can tell apart in a section. -/
structure SectionText.Plain (k : Nat) (s : SectionText) : Prop where
  title : looksLikeSectionTitle s.title = true
  intro : ∀ l ∈ s.intro, l.Continues k 0
  clauseCount : s.clauses.length ≤ 99
  continuations : ∀ c j, (c, j) ∈ s.clauses.zipIdx 1 → ∀ l ∈ c.continuation, l.Continues k j

/-- What the parser can tell apart. -/
structure Manuscript.Plain (m : Manuscript) : Prop where
  clean : ∀ l ∈ m.lines, l.Clean
  title : sectionRe m.title.text = none
  preamble : ∀ l ∈ m.preamble, l.Continues 0 0
  sectionCount : m.sections.length ≤ 99
  sections : ∀ s k, (s, k) ∈ m.sections.zipIdx 1 → s.Plain k

/-! ## Pages -/

/-- A row of a page: a line, or nothing, with white space around it. -/
structure Row where
  indent : Text
  line : Text
  trailing : Text
  spaces : ∀ u ∈ indent ++ trailing, isSpace u = true ∧ u ≠ unit '\n'

def Row.text (r : Row) : Text := r.indent ++ r.line ++ r.trailing

structure Sheet where
  pageNumber : Int
  rows : List Row

def Sheet.page (s : Sheet) : Page where
  pageNumber := s.pageNumber
  text := [unit '\n'].intercalate (s.rows.map Row.text)

def Sheet.lines (s : Sheet) : List Line :=
  s.rows.filterMap fun r => if r.line = [] then none else some { text := r.line, page := s.pageNumber }

theorem Row.trim_text (r : Row) (h : trim r.line = r.line) : trim r.text = r.line := by
  have hindent : ∀ u ∈ r.indent, isSpace u = true := fun u hu => (r.spaces u (List.mem_append_left _ hu)).1
  have htrailing : ∀ u ∈ r.trailing, isSpace u = true := fun u hu => (r.spaces u (List.mem_append_right _ hu)).1
  rw [Row.text, trim_append_spaces hindent htrailing, h]

/-- A row of a clean line is one row of the text. -/
theorem Row.not_mem_newline {r : Row} (h : ∀ u ∈ r.line, isLineTerminator u = false) : unit '\n' ∉ r.text := by
  intro hmem
  rw [Row.text, List.mem_append, List.mem_append] at hmem
  rcases hmem with (hmem | hmem) | hmem
  · exact (r.spaces _ (List.mem_append_left _ hmem)).2 rfl
  · exact absurd (h _ hmem) (by decide)
  · exact (r.spaces _ (List.mem_append_right _ hmem)).2 rfl

theorem toLines_sheet {s : Sheet} (h : ∀ l ∈ s.lines, l.Clean) : toLines [s.page] = s.lines := by
  have hrow : ∀ r ∈ s.rows, trim r.line = r.line ∧ ∀ u ∈ r.line, isLineTerminator u = false := by
    intro r hr
    by_cases hline : r.line = []
    · rw [hline]
      exact ⟨rfl, fun u hu => absurd hu List.not_mem_nil⟩
    · have hl := h ⟨r.line, s.pageNumber⟩ (List.mem_filterMap.mpr ⟨r, hr, if_neg hline⟩)
      exact ⟨hl.2.1, hl.2.2⟩
  rw [toLines, List.flatMap_singleton, Sheet.page, Sheet.lines]
  rcases hrows : s.rows with _ | ⟨r, rows⟩
  · rfl
  · rw [← hrows, List.splitOn_intercalate, List.map_map, List.filterMap_map]
    · refine List.filterMap_congr fun r hr => ?_
      show (if trim r.text = [] then none else some (⟨trim r.text, s.pageNumber⟩ : Line)) = _
      rw [r.trim_text (hrow r hr).1]
    · intro t ht
      obtain ⟨r, hr, rfl⟩ := List.mem_map.mp ht
      exact Row.not_mem_newline (hrow r hr).2
    · rw [hrows]
      exact List.cons_ne_nil _ _

theorem toLines_sheets {sheets : List Sheet} (h : ∀ l ∈ sheets.flatMap Sheet.lines, l.Clean) :
    toLines (sheets.map Sheet.page) = sheets.flatMap Sheet.lines := by
  rw [toLines, List.flatMap_map]
  refine List.flatMap_congr fun s hs => ?_
  have hsheet := toLines_sheet fun l hl => h l (List.mem_flatMap.mpr ⟨s, hs, hl⟩)
  rw [toLines, List.flatMap_singleton] at hsheet
  exact hsheet

/-! ## Numbers at the start of a line -/

theorem shortNumber_decimal {k : Nat} (hk : k ≤ 99) {u : CodeUnit} (hu : ¬ IsDigit u) (rest : Text) :
    shortNumber (decimal k ++ u :: rest) = some (decimal k, u :: rest) := by
  have hdigits : ∀ v ∈ decimal k, isDigit v = true := fun v hv => decide_eq_true (isDigit_of_mem_decimal hv)
  have hstop : isDigit u = false := decide_eq_false hu
  have htake : (decimal k ++ u :: rest).takeWhile isDigit = decimal k := by
    rw [List.takeWhile_append_of_pos hdigits, List.takeWhile_cons_of_neg (by rw [hstop]; decide), List.append_nil]
  have hdrop : (decimal k ++ u :: rest).dropWhile isDigit = u :: rest := by
    rw [List.dropWhile_append_of_pos hdigits, List.dropWhile_cons_of_neg (by rw [hstop]; decide)]
  have hlong : (decimal k).length ≤ 2 := by
    have hpad := length_padStart (show 0 < 2 by decide) (show k < 10 ^ 2 by omega)
    rw [padStart, List.length_append] at hpad
    omega
  have hshort : 1 ≤ (decimal k).length := List.length_pos_iff.mpr (decimal_ne_nil k)
  unfold shortNumber
  simp only [htake, hdrop]
  exact if_pos ⟨hshort, hlong⟩

theorem afterSpaces_space {t : Text} (h : ∃ u ∈ t, isSpace u = false) :
    afterSpaces (unit ' ' :: t) = some (t.dropWhile isSpace) := by
  have hspace : isSpace (unit ' ') = true := by decide
  have hdrop : t.dropWhile isSpace ≠ [] := by
    obtain ⟨u, hu, hnot⟩ := h
    intro hnil
    rw [List.dropWhile_eq_nil_iff.mp hnil u hu] at hnot
    cases hnot
  rw [afterSpaces, List.takeWhile_cons_of_pos hspace, List.dropWhile_cons_of_pos hspace]
  exact if_pos ⟨List.cons_ne_nil _ _, hdrop⟩

theorem SectionText.heading_eq (k : Nat) (s : SectionText) :
    s.heading k = decimal k ++ unit '.' :: unit ' ' :: s.title := by
  rw [heading, List.append_assoc]
  rfl

theorem ClauseText.line_text (k j : Nat) (c : ClauseText) :
    (c.line k j).text = decimal k ++ unit '.' :: (decimal j ++ unit ' ' :: c.text) := by
  rw [line, clauseId, List.append_assoc, List.append_assoc]
  rfl

/-- A title starts with a capital letter. -/
theorem title_head {t : Text} (h : looksLikeSectionTitle t = true) : ∃ u rest, t = u :: rest ∧ isSpace u = false := by
  rw [looksLikeSectionTitle, Bool.and_eq_true, Bool.and_eq_true, Bool.and_eq_true] at h
  obtain ⟨⟨⟨-, hhead⟩, -⟩, -⟩ := h
  cases t with
  | nil => cases hhead
  | cons u rest =>
      refine ⟨u, rest, rfl, Bool.eq_false_iff.mpr fun hspace => ?_⟩
      have hrange := isSpace_range hspace
      have hupper : isUpper u = true := hhead
      rw [isUpper, Bool.and_eq_true, decide_eq_true_iff, decide_eq_true_iff, UInt16.le_iff_toNat_le,
        UInt16.le_iff_toNat_le] at hupper
      have hA : (unit 'A').toNat = 65 := by decide
      have hZ : (unit 'Z').toNat = 90 := by decide
      omega

/-- A heading is read back. -/
theorem sectionRe_heading {k : Nat} (hk : k ≤ 99) {s : SectionText} {page : Int}
    (hclean : Line.Clean { text := s.heading k, page := page }) (htitle : looksLikeSectionTitle s.title = true) :
    sectionRe (s.heading k) = some (decimal k, s.title) := by
  obtain ⟨u, rest, htext, hu⟩ := title_head htitle
  have hplain : s.title.any isLineTerminator = false := by
    rw [List.any_eq_false]
    intro v hv
    rw [hclean.2.2 v (by rw [s.heading_eq]; simp [hv])]
    decide
  have hdrop : s.title.dropWhile isSpace = s.title := by
    rw [htext, List.dropWhile_cons_of_neg (by rw [hu]; decide)]
  rw [s.heading_eq, sectionRe, shortNumber_decimal hk (by decide)]
  show (if unit '.' = unit '.' then _ else _) = _
  rw [if_pos rfl, afterSpaces_space ⟨u, by rw [htext]; exact List.mem_cons_self, hu⟩, hdrop, Option.bind_some, hplain]
  rfl

/-- After the dot of a clause comes a digit. -/
theorem sectionRe_clause {k : Nat} (hk : k ≤ 99) (j : Nat) (c : ClauseText) : sectionRe (c.line k j).text = none := by
  rw [c.line_text, sectionRe, shortNumber_decimal hk (by decide)]
  show (if unit '.' = unit '.' then _ else _) = _
  obtain ⟨u, rest, hdigits⟩ := List.exists_cons_of_ne_nil (decimal_ne_nil j)
  have hu : isSpace u = false := (isDigit_of_mem_decimal (hdigits ▸ List.mem_cons_self)).not_space
  rw [if_pos rfl, hdigits, List.cons_append, afterSpaces, List.takeWhile_cons_of_neg (by rw [hu]; decide)]
  exact congrArg (Option.bind · _) (if_neg fun h => h.1 rfl)

/-- The number of a clause is read back. -/
theorem clauseRe_clause {k j : Nat} (hk : k ≤ 99) (hj : j ≤ 99) {c : ClauseText} (hclean : (c.line k j).Clean) :
    clauseRe (c.line k j).text = some (decimal k, decimal j) := by
  have hword : ∃ u ∈ c.text, isSpace u = false := by
    have hlast : (c.line k j).text.getLast? = some (c.text.getLast?.getD (unit ' ')) := by
      rw [c.line_text, ← List.cons_append, ← List.append_assoc, List.getLast?_append, List.getLast?_cons]
      rfl
    rw [← hclean.2.1] at hlast
    have hnot := getLast?_trim hlast
    cases htext : c.text.getLast? with
    | none =>
        rw [htext] at hnot
        exact absurd hnot (by decide)
    | some u =>
        rw [htext] at hnot
        exact ⟨u, List.mem_of_getLast? htext, hnot⟩
  rw [c.line_text, clauseRe, shortNumber_decimal hk (by decide)]
  show (if unit '.' = unit '.' then _ else _) = _
  rw [if_pos rfl, shortNumber_decimal hj (by decide), Option.bind_some]
  show (afterSpaces (unit ' ' :: c.text)).map _ = _
  rw [afterSpaces_space hword]
  rfl

/-! ## Steps -/

def ParseState.extend (s : ParseState) (ls : List Line) : ParseState :=
  { s with block := { s.block with lines := s.block.lines ++ ls } }

def ParseState.openClause (s : ParseState) (c : ClauseText) : ParseState :=
  { s with
    lastClause := s.lastClause + 1
    blocks := s.blocks ++ [s.block]
    block := { id := some (clauseId s.number (s.lastClause + 1)), lines := [c.line s.number (s.lastClause + 1)] } }

def ParseState.openSection (s : ParseState) (t : SectionText) : ParseState where
  sections := s.sections ++ [s.current]
  number := s.number + 1
  heading := t.heading (s.number + 1)
  lastClause := 0
  blocks := []
  block := { id := none, lines := [] }

theorem opensSection_eq_none {s : ParseState} {l : Line} (h : ¬ NextHeading s.number l.text) :
    opensSection s l = none := by
  rw [opensSection, Option.bind_eq_none_iff]
  rintro ⟨number, title⟩ hread
  exact if_neg fun hnext => h ⟨(number, title), hread, hnext⟩

theorem opensClause_eq_none {s : ParseState} {l : Line} (h : ¬ NextClause s.number s.lastClause l.text) :
    opensClause s l = none := by
  rw [opensClause, Option.bind_eq_none_iff]
  rintro ⟨number, clause⟩ hread
  exact if_neg fun hnext => h ⟨(number, clause), hread, hnext⟩

theorem parseLine_continues {s : ParseState} {l : Line} (h : l.Continues s.number s.lastClause) :
    parseLine s l = s.extend [l] := by
  rw [parseLine, opensSection_eq_none h.1, opensClause_eq_none h.2]
  rfl

theorem parseLine_clause {s : ParseState} {c : ClauseText} (hnumber : s.number ≤ 99) (hclause : s.lastClause + 1 ≤ 99)
    (hclean : (c.line s.number (s.lastClause + 1)).Clean) :
    parseLine s (c.line s.number (s.lastClause + 1)) = s.openClause c := by
  have hsection : opensSection s (c.line s.number (s.lastClause + 1)) = none := by
    rw [opensSection, sectionRe_clause hnumber, Option.bind_none]
  have hopens : opensClause s (c.line s.number (s.lastClause + 1)) =
      some (s.lastClause + 1, clauseId s.number (s.lastClause + 1)) := by
    rw [opensClause, clauseRe_clause hnumber hclause hclean, Option.bind_some]
    simp only [decimalValue_decimal, and_self, if_true]
    rfl
  rw [parseLine, hsection, hopens]
  rfl

theorem parseLine_heading {s : ParseState} {t : SectionText} {page : Int} (hnumber : s.number + 1 ≤ 99)
    (hclean : Line.Clean { text := t.heading (s.number + 1), page := page }) (htitle : looksLikeSectionTitle t.title = true) :
    parseLine s { text := t.heading (s.number + 1), page := page } = s.openSection t := by
  have hopens : opensSection s { text := t.heading (s.number + 1), page := page } = some (s.number + 1) := by
    rw [opensSection, sectionRe_heading hnumber hclean htitle, Option.bind_some]
    simp only [decimalValue_decimal, htitle, and_self, if_true]
  rw [parseLine, hopens]
  rfl

/-! ## Runs -/

/-- Lines that open nothing go to the open block. -/
theorem foldl_parseLine_continues {s : ParseState} {ls : List Line} (h : ∀ l ∈ ls, l.Continues s.number s.lastClause) :
    ls.foldl parseLine s = s.extend ls := by
  induction ls generalizing s with
  | nil => rw [List.foldl_nil, ParseState.extend, List.append_nil]
  | cons l ls ih =>
      obtain ⟨hl, hls⟩ := List.forall_mem_cons.mp h
      rw [List.foldl_cons, parseLine_continues hl, ih (s := s.extend [l]) hls]
      simp only [ParseState.extend, List.append_assoc, List.singleton_append]

/-- The clauses that follow the last one become blocks of the open section. -/
theorem foldl_parseLine_clauses {s : ParseState} (cs : List ClauseText) (hnumber : s.number ≤ 99)
    (hcount : s.lastClause + cs.length ≤ 99)
    (hclean : ∀ l ∈ (cs.zipIdx (s.lastClause + 1)).flatMap fun (c, j) => c.lines s.number j, l.Clean)
    (hcontinues : ∀ c j, (c, j) ∈ cs.zipIdx (s.lastClause + 1) → ∀ l ∈ c.continuation, l.Continues s.number j) :
    ∃ r, ((cs.zipIdx (s.lastClause + 1)).flatMap fun (c, j) => c.lines s.number j).foldl parseLine s = r ∧
      r.sections = s.sections ∧ r.current =
        { s.current with
          blocks := s.current.blocks ++ (cs.zipIdx (s.lastClause + 1)).map fun (c, j) => c.block s.number j } := by
  induction cs generalizing s with
  | nil => exact ⟨s, rfl, rfl, by simp⟩
  | cons c cs ih =>
      rw [List.length_cons] at hcount
      rw [List.zipIdx_cons, List.flatMap_cons] at hclean
      rw [List.zipIdx_cons] at hcontinues
      have hfirst : (c.line s.number (s.lastClause + 1)).Clean := hclean _ (List.mem_append_left _ List.mem_cons_self)
      have hrest := hcontinues c (s.lastClause + 1) List.mem_cons_self
      obtain ⟨r, hr, hsections, hcurrent⟩ := ih (s := (s.openClause c).extend c.continuation) hnumber
        (by show s.lastClause + 1 + cs.length ≤ 99; omega) (fun l hl => hclean l (List.mem_append_right _ hl))
        fun c' j hj => hcontinues c' j (List.mem_cons_of_mem _ hj)
      refine ⟨r, ?_, hsections, ?_⟩
      · have hlines : (c.lines s.number (s.lastClause + 1)).foldl parseLine s = (s.openClause c).extend c.continuation := by
          rw [ClauseText.lines, List.foldl_cons, parseLine_clause hnumber (by omega) hfirst]
          exact foldl_parseLine_continues hrest
        rw [List.zipIdx_cons, List.flatMap_cons, List.foldl_append, hlines]
        exact hr
      · rw [hcurrent, List.zipIdx_cons, List.map_cons]
        simp [ParseState.current, ParseState.extend, ParseState.openClause, ClauseText.block, ClauseText.lines]

/-- The sections that follow the open one. -/
theorem foldl_parseLine_sections {s : ParseState} (ts : List SectionText) (hcount : s.number + ts.length ≤ 99)
    (hclean : ∀ l ∈ (ts.zipIdx (s.number + 1)).flatMap fun (t, k) => t.lines k, l.Clean)
    (hplain : ∀ t k, (t, k) ∈ ts.zipIdx (s.number + 1) → t.Plain k) :
    ∃ r, ((ts.zipIdx (s.number + 1)).flatMap fun (t, k) => t.lines k).foldl parseLine s = r ∧
      r.sections ++ [r.current] = s.sections ++ s.current :: (ts.zipIdx (s.number + 1)).map fun (t, k) => t.parsed k := by
  induction ts generalizing s with
  | nil => exact ⟨s, rfl, rfl⟩
  | cons t ts ih =>
      rw [List.length_cons] at hcount
      rw [List.zipIdx_cons, List.flatMap_cons] at hclean
      rw [List.zipIdx_cons] at hplain
      have ht := hplain t (s.number + 1) List.mem_cons_self
      have hlines : ∀ l ∈ t.lines (s.number + 1), l.Clean := fun l hl => hclean l (List.mem_append_left _ hl)
      have hheading : Line.Clean { text := t.heading (s.number + 1), page := t.page } := hlines _ List.mem_cons_self
      obtain ⟨u, hu, husections, hucurrent⟩ := foldl_parseLine_clauses (s := (s.openSection t).extend t.intro)
        t.clauses (show s.number + 1 ≤ 99 by omega) ((Nat.zero_add _).trans_le ht.clauseCount)
        (fun l hl => hlines l (List.mem_append_right _ hl)) ht.continuations
      have hnumber : u.number = s.number + 1 := congrArg Section.number hucurrent
      obtain ⟨r, hr, hsections⟩ := ih (s := u) (by omega)
        (by rw [hnumber]; exact fun l hl => hclean l (List.mem_append_right _ hl))
        (by rw [hnumber]; exact fun t' k hk => hplain t' k (List.mem_cons_of_mem _ hk))
      rw [hnumber] at hr hsections
      refine ⟨r, ?_, ?_⟩
      · have hsection : (t.lines (s.number + 1)).foldl parseLine s = u := by
          rw [SectionText.lines, List.cons_append, List.foldl_cons, List.foldl_append,
            parseLine_heading (by omega) hheading ht.title, foldl_parseLine_continues (s := s.openSection t) ht.intro]
          exact hu
        rw [List.zipIdx_cons, List.flatMap_cons, List.foldl_append, hsection]
        exact hr
      · rw [hsections, husections, hucurrent, List.zipIdx_cons, List.map_cons]
        simp [ParseState.current, ParseState.extend, ParseState.openSection, SectionText.parsed]

/-! ## The document -/

theorem keptSections_eq (sections : List Section) :
    keptSections sections = (sections.filter fun s => s.blocks.any fun b => b.lines ≠ []).map fun s =>
      { s with blocks := s.blocks.filter fun b => b.lines ≠ [] } := by
  rw [keptSections, List.filter_map]
  congr 1
  refine List.filter_congr fun s _ => ?_
  rw [Bool.eq_iff_iff]
  simp [List.filter_eq_nil_iff]

/-- **The parser finds the sections and clauses of a document, wherever its pages end.** -/
theorem parseStructure_sheets (m : Manuscript) (hplain : m.Plain) (sheets : List Sheet)
    (hlaid : sheets.flatMap Sheet.lines = m.lines) : parseStructure (sheets.map Sheet.page) = m.outline := by
  have hlines : toLines (sheets.map Sheet.page) = m.lines := by
    rw [toLines_sheets (hlaid ▸ hplain.clean), hlaid]
  have htitle : takeTitle m.lines =
      (some m.title, m.preamble ++ (m.sections.zipIdx 1).flatMap fun (s, k) => s.lines k) := by
    rw [Manuscript.lines, List.cons_append, takeTitle, hplain.title]
    rfl
  obtain ⟨r, hr, hsections⟩ := foldl_parseLine_sections (s := ParseState.start.extend m.preamble) m.sections
    ((Nat.zero_add _).trans_le hplain.sectionCount)
    (fun l hl => hplain.clean l (List.mem_append_right _ hl)) hplain.sections
  have hparsed : r.sections ++ [r.current] = m.parsed := hsections
  have hrun : (m.preamble ++ (m.sections.zipIdx 1).flatMap fun (s, k) => s.lines k).foldl parseLine .start = r := by
    rw [List.foldl_append, foldl_parseLine_continues (s := .start) hplain.preamble]
    exact hr
  unfold parseStructure
  rw [hlines, htitle]
  simp only [hrun]
  rw [hparsed, keptSections_eq]
  rfl

/-- A section without lines, and a clause that goes on on the next page. -/
theorem parseStructure_sheets_agreement :
    let m : Manuscript :=
      { title := ⟨text "Sample Agreement", 1⟩
        preamble := [⟨text "This Agreement is made between A and B.", 1⟩]
        sections :=
          [{ title := text "Definitions", page := 1, intro := [], clauses := [] },
            { title := text "Payment", page := 1, intro := [⟨text "4.", 1⟩]
              clauses := [{ text := text "Advance, subject to", page := 1, continuation := [⟨text "2.3 above.", 2⟩] }] }] }
    let row := fun s => Row.mk (text " ") (text s) [] (by decide)
    parseStructure
        ([{ pageNumber := 1
            rows := [row "Sample Agreement", row "", row "This Agreement is made between A and B.", row "1. Definitions",
              row "2. Payment", row "4.", row "2.1 Advance, subject to"] },
          { pageNumber := 2, rows := [row "2.3 above."] }].map Sheet.page) = m.outline := by
  intro m row
  have hplain : m.Plain := by
    refine ⟨by decide +kernel, by decide +kernel, by decide +kernel, by decide, fun s k h => ?_⟩
    have hcases : (s, k) = (m.sections[0], 1) ∨ (s, k) = (m.sections[1], 2) := by simpa [m] using h
    rcases hcases with heq | heq
    · obtain ⟨rfl, rfl⟩ := Prod.mk.inj heq
      exact ⟨by decide +kernel, by decide, by decide, fun c j h => absurd h List.not_mem_nil⟩
    · obtain ⟨rfl, rfl⟩ := Prod.mk.inj heq
      refine ⟨by decide +kernel, by decide +kernel, by decide, fun c j h => ?_⟩
      obtain ⟨rfl, rfl⟩ := Prod.mk.inj (List.mem_singleton.mp h)
      decide +kernel
  exact parseStructure_sheets m hplain _ (by decide +kernel)

end FinSight.Ingest
