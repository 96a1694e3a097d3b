import FinSight.Js.Space

/-!
# Sections and clauses (`src/modules/documents/ingest/structure.js`)

The lines of a document, its title, and its numbered sections with their clauses.
-/

namespace FinSight.Ingest

/-- A page of `extractDocumentText`. -/
structure Page where
  pageNumber : Int
  text : Text
  deriving DecidableEq

structure Line where
  text : Text
  page : Int
  deriving DecidableEq

def toLines (pages : List Page) : List Line :=
  pages.flatMap fun p =>
    ((p.text.splitOn (unit '\n')).map trim).filterMap fun t => if t = [] then none else some { text := t, page := p.pageNumber }

/-! ## Headings -/

def isDigit (u : CodeUnit) : Bool := IsDigit u

/-- What `.` does not match. -/
def isLineTerminator (u : CodeUnit) : Bool := u == unit '\n' || u == unit '\r' || u == 0x2028 || u == 0x2029

/-- `^\d{1,2}`, and what is after it; no pattern goes on with a third digit. -/
def shortNumber (t : Text) : Option (Text × Text) :=
  let digits := t.takeWhile isDigit
  if 1 ≤ digits.length ∧ digits.length ≤ 2 then some (digits, t.dropWhile isDigit) else none

/-- `\s+`, before more text. -/
def afterSpaces (t : Text) : Option Text :=
  if t.takeWhile isSpace ≠ [] ∧ t.dropWhile isSpace ≠ [] then some (t.dropWhile isSpace) else none

/-- `/^(\d{1,2})\.\s+(\S.*)$/`: the two groups. -/
def sectionRe (t : Text) : Option (Text × Text) :=
  match shortNumber t with
  | some (number, u :: rest) =>
      if u = unit '.' then
        (afterSpaces rest).bind fun title => if title.any isLineTerminator then none else some (number, title)
      else none
  | _ => none

/-- `/^(\d{1,2})\.(\d{1,2})\.?\s+\S/`: the two groups. -/
def clauseRe (t : Text) : Option (Text × Text) :=
  match shortNumber t with
  | some (number, u :: rest) =>
      if u = unit '.' then
        (shortNumber rest).bind fun (clause, rest) =>
          let rest := if rest.head? = some (unit '.') then rest.tail else rest
          (afterSpaces rest).map fun _ => (number, clause)
      else none
  | _ => none

def isUpper (u : CodeUnit) : Bool := unit 'A' ≤ u && u ≤ unit 'Z'

def looksLikeSectionTitle (title : Text) : Bool :=
  title.length ≤ 80 && title.head?.any isUpper && !(title.getLast?.any fun u => u ∈ text ".,;:") &&
    (splitSpaces title).length ≤ 8

/-! ## parseStructure -/

structure Block where
  id : Option Text
  lines : List Line
  deriving DecidableEq

structure Section where
  number : Nat
  heading : Text
  blocks : List Block
  deriving DecidableEq

/-- The sections that are closed, the one that is open, and its last block. -/
structure ParseState where
  sections : List Section
  number : Nat
  heading : Text
  lastClause : Nat
  blocks : List Block
  block : Block

def ParseState.current (s : ParseState) : Section where
  number := s.number
  heading := s.heading
  blocks := s.blocks ++ [s.block]

def ParseState.start : ParseState where
  sections := []
  number := 0
  heading := text "Preamble"
  lastClause := 0
  blocks := []
  block := { id := none, lines := [] }

/-- The number of the section that a line opens. -/
def opensSection (s : ParseState) (line : Line) : Option Nat :=
  (sectionRe line.text).bind fun (number, title) =>
    if decimalValue number = s.number + 1 ∧ looksLikeSectionTitle title then some (decimalValue number) else none

/-- The clause that a line opens, and its id. -/
def opensClause (s : ParseState) (line : Line) : Option (Nat × Text) :=
  (clauseRe line.text).bind fun (number, clause) =>
    if decimalValue number = s.number ∧ decimalValue clause = s.lastClause + 1 then
      some (decimalValue clause, number ++ text "." ++ clause)
    else none

def parseLine (s : ParseState) (line : Line) : ParseState :=
  match opensSection s line with
  | some number =>
      { sections := s.sections ++ [s.current], number := number, heading := line.text, lastClause := 0, blocks := [],
        block := { id := none, lines := [] } }
  | none =>
      match opensClause s line with
      | some (clause, id) =>
          { s with lastClause := clause, blocks := s.blocks ++ [s.block], block := { id := some id, lines := [line] } }
      | none => { s with block := { s.block with lines := s.block.lines ++ [line] } }

structure Structure where
  title : Option Text
  sections : List Section

/-- The first line is the title, unless it is a numbered heading. -/
def takeTitle (lines : List Line) : Option Line × List Line :=
  match lines with
  | line :: rest => if (sectionRe line.text).isSome then (none, lines) else (some line, rest)
  | [] => (none, [])

/-- Blocks without lines are dropped, and sections without blocks. -/
def keptSections (sections : List Section) : List Section :=
  (sections.map fun s => { s with blocks := s.blocks.filter fun b => b.lines ≠ [] }).filter fun s => s.blocks ≠ []

def parseStructure (pages : List Page) : Structure :=
  let (title, lines) := takeTitle (toLines pages)
  let parsed := lines.foldl parseLine .start
  { title := title.map Line.text, sections := keptSections (parsed.sections ++ [parsed.current]) }

end FinSight.Ingest
