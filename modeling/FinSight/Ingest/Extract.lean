import FinSight.Documents.Retrieval
import FinSight.Ingest.Normalize
import FinSight.Ingest.Structure
import FinSight.Lists.Firsts
import FinSight.Lists.Tally

/-!
# Extraction (`src/modules/documents/ingest/extract.js`)

* `itemsToText` : a page as text, from the positioned fragments of pdf.js;
* `stripBoilerplate`, `assertExtractable` : the pages as they are chunked, or an error;
* `extractDocumentText` : a PDF.

Positions and lengths are finite doubles. `Pdfjs` stands for pdf.js, and for the parts of the language that an
implementation may choose.
-/

namespace FinSight.Ingest

open Documents (nearestDouble)

/-! ## itemsToText -/

/-- A fragment; `a` and `b` are `transform[2]` and `transform[3]`, `x` and `y` are `transform[4]` and `transform[5]`. -/
structure TextItem where
  str : Text
  a : Rat
  b : Rat
  x : Rat
  y : Rat
  width : Rat
  hasEOL : Bool
  deriving DecidableEq

/-- An item without `str` marks a part of the content. -/
inductive Item where
  | text (i : TextItem)
  | marked
  deriving DecidableEq

/-- The text so far, the right end of the last fragment, and the line it is on. -/
structure Layout where
  text : Text
  prevEnd : Option Rat
  prevY : Option Rat
  deriving DecidableEq

def Layout.empty : Layout := ⟨[], none, none⟩

section
variable (hypot : Rat → Rat → Rat)

/-- `Math.hypot(…) || 10`. -/
def fontSize (i : TextItem) : Rat := if hypot i.a i.b = 0 then 10 else hypot i.a i.b

/-- Half a line away. -/
def newLine (s : Layout) (i : TextItem) : Bool :=
  s.prevY.any fun prevY => nearestDouble (fontSize hypot i * (1 / 2)) < |nearestDouble (i.y - prevY)|

def gap (s : Layout) (i : TextItem) : Rat := s.prevEnd.elim 0 fun prevEnd => nearestDouble (i.x - prevEnd)

def startsInSpace (t : Text) : Bool := t.head?.any isSpace

def endsInSpace (t : Text) : Bool := t.getLast?.any isSpace

def endsInNewline (t : Text) : Bool := t.getLast?.any isNewline

/-- What is added before a fragment. -/
def separator (s : Layout) (i : TextItem) : Text :=
  if newLine hypot s i then if endsInNewline s.text then [] else newline
  else if nearestDouble (fontSize hypot i * nearestDouble (1 / 10)) < gap s i && !endsInSpace s.text && !startsInSpace i.str then
    text " "
  else []

def Layout.add (s : Layout) : Item → Layout
  | .marked => s
  | .text i =>
      let text' := s.text ++ separator hypot s i ++ i.str
      { text := if i.hasEOL then text' ++ newline else text'
        prevEnd := if i.hasEOL then none else some (nearestDouble (i.x + i.width))
        prevY := if i.str = [] then s.prevY else some i.y }

def itemsToText (items : List Item) : Text := (items.foldl (Layout.add hypot) Layout.empty).text

end

/-! ## stripBoilerplate -/

/-- The rest after `word` in any letter case and at least one space. -/
def afterWord (word t : Text) : Option Text :=
  if (t.take word.length).map lowerCase = word ∧ startsInSpace (t.drop word.length) then
    some ((t.drop word.length).dropWhile isSpace)
  else none

/-- The rest after `\s+of\s+`. -/
def afterOf (t : Text) : Option Text := if startsInSpace t then afterWord (text "of") (t.dropWhile isSpace) else none

/-- `/^(page\s+)?\d+(\s+of\s+\d+)?$/i`. -/
def isPageNumberLine (t : Text) : Bool :=
  let numbered := (afterWord (text "page") t).getD t
  let rest := numbered.dropWhile isDigit
  startsInDigit numbered && (rest.isEmpty || (afterOf rest).any fun total => startsInDigit total && total.all isDigit)
where
  startsInDigit (t : Text) : Bool := t.head?.any isDigit

example : isPageNumberLine (text "Page 3 of 12") = true ∧ isPageNumberLine (text "3.") = false := by decide

def lines (t : Text) : List Text := t.splitOn (unit '\n')

/-- `filter(Boolean)`. -/
def nonemptyLines (t : Text) : List Text := (lines t).filter fun line => !line.isEmpty

/-- The first two lines and the last two. -/
def edges (t : Text) : List Text :=
  let ls := nonemptyLines t
  Firsts.firsts (ls.take 2 ++ ls.drop (ls.length - 2))

/-- On how many pages a line is an edge. -/
def counts (pages : List Page) : List (Text × Nat) := Tally.tally (pages.map fun p => edges p.text)

/-- `Math.ceil(pages.length * 0.5)`. -/
def threshold (pages : List Page) : Nat := (pages.length + 1) / 2

/-- The lines that begin or end at least half of the pages. -/
def repeated (pages : List Page) : List Text :=
  if 3 ≤ pages.length then Tally.frequent (threshold pages) (counts pages) else []

def stripBoilerplate (pages : List Page) : List Page :=
  pages.map fun p => { p with
    text := trim (newline.intercalate
      ((lines p.text).filter fun line => !(repeated pages).contains line && !isPageNumberLine (trim line))) }

/-! ## assertExtractable -/

def minCharsPerPage : Nat := 20

/-- `MAX_EMPTY_PAGE_RATIO`. -/
def maxEmptyPageRatio : Rat := nearestDouble (3 / 10)

def noPages : Text := text "PDF has no pages"

def noText (empty pages : Nat) : Text :=
  decimal empty ++ text "/" ++ decimal pages ++ text " pages have no extractable text (scanned? OCR not supported yet)"

def emptyPages (pages : List Page) : Nat := pages.countP fun p => p.text.length < minCharsPerPage

/-- The message of the `UnextractableDocumentError`. -/
def assertExtractable (pages : List Page) : Except Text Unit :=
  if pages.length = 0 then .error noPages
  else if maxEmptyPageRatio < nearestDouble (emptyPages pages / pages.length) then
    .error (noText (emptyPages pages) pages.length)
  else .ok ()

/-! ## extractDocumentText -/

/-- What pdf.js throws: a PDF that it cannot open, or what it throws later. -/
inductive PdfError where
  | cannotOpen (name : Text)
  | error (message : Text)
  deriving DecidableEq

/-- What extraction throws. -/
inductive ExtractError where
  | unextractable (message : Text)
  | error (message : Text)
  deriving DecidableEq

def PdfError.thrown : PdfError → ExtractError
  | .cannotOpen name => .unextractable (text "Cannot open PDF: " ++ name)
  | .error message => .error message

/-- `pages` : the items of the pages of a PDF. -/
structure Pdfjs where
  pages : List UInt8 → Except PdfError (List (List Item))
  hypot : Rat → Rat → Rat
  nfkc : Text → Text

variable (lib : Pdfjs)

def extractPages (buffer : List UInt8) : Except ExtractError (List Page) :=
  match lib.pages buffer with
  | .error e => .error e.thrown
  | .ok pages => .ok (pages.mapIdx fun i items => ⟨i + 1, itemsToText lib.hypot items⟩)

def extractDocumentText (buffer : List UInt8) : Except ExtractError (List Page) := do
  let rawPages ← extractPages lib buffer
  let pages := stripBoilerplate (rawPages.map fun p => { p with text := normalizeText lib.nfkc p.text })
  match assertExtractable pages with
  | .error message => .error (.unextractable message)
  | .ok () => return pages

end FinSight.Ingest
