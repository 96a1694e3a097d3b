import FinSight.Ask.Prompt
import FinSight.Js.Space
import FinSight.Scanning.Brackets

/-!
# The answer (`src/modules/ask/ask.parse.js`)

The text of the language model: its citation markers are checked against the sources that were sent.
-/

namespace FinSight.Ask

open Scanning

/-! ## MARKER -/

/-- In a marker: before the first number, in a number, in the space after one, after a comma. -/
inductive Place where
  | first | number | gap | comma
  deriving DecidableEq

def Place.step : Place → CodeUnit → Option Place
  | .first, u => if IsDigit u then some .number else none
  | .number, u =>
      if IsDigit u then some .number
      else if isSpace u then some .gap
      else if u = unit ',' then some .comma
      else none
  | .gap, u => if isSpace u then some .gap else if u = unit ',' then some .comma else none
  | .comma, u => if isSpace u then some .comma else if IsDigit u then some .number else none

/-- `/\[(\d+(?:\s*,\s*\d+)*)\]/g`. -/
def markers : Brackets CodeUnit Place where
  opening := unit '['
  closing := unit ']'
  start := .first
  step := Place.step
  final p := p = .number

/-- `list.split(',').map((s) => Number(s.trim()))`. A number from `2^53` on is rounded, and stays above every length. -/
def numbers (list : Text) : List Nat := (list.splitOn (unit ',')).map fun s => decimalValue (trim s)

/-! ## parseAnswer -/

/-- The numbers of sources that were sent. -/
def isSource (sent n : Nat) : Bool := 1 ≤ n && n ≤ sent

def valid (sent : Nat) (list : Text) : List Nat := (numbers list).filter (isSource sent)

/-- The order of first appearance. -/
def cite (order : List Nat) (n : Nat) : List Nat := if n ∈ order then order else order ++ [n]

def markerText (n : Nat) : Text := markers.spelled (decimal n)

/-- `/[ \t]{2,}/g`. -/
def blanks : Pattern CodeUnit Text := fun t =>
  let run := t.takeWhile isBlank
  if 2 ≤ run.length then some (run, run.length - 1) else none

def isPoint (u : CodeUnit) : Bool := u ∈ text ".,;:"

/-- `/ +([.,;:])/g`. -/
def spacesBeforePoint : Pattern CodeUnit (Text × CodeUnit) := fun t =>
  let run := t.takeWhile (· == unit ' ')
  match t.dropWhile (· == unit ' ') with
  | u :: _ => if run ≠ [] ∧ isPoint u then some ((run, u), run.length) else none
  | [] => none

def rewritten (sent : Nat) (raw : Text) : Text :=
  replaceAll markers.pattern (fun list => (valid sent list).flatMap markerText) raw

/-- The white space after the markers are rewritten. -/
def tidied (t : Text) : Text :=
  trim (replaceAll spacesBeforePoint (fun p => [p.2]) (replaceAll blanks (fun _ => text " ") t))

structure Citation where
  marker : Nat
  chunkId : Uuid
  documentId : Uuid
  documentTitle : Option Text
  sectionHeading : Option Text
  pageStart : Int
  pageEnd : Int
  deriving DecidableEq

def citation (n : Nat) (c : RetrievedChunk) : Citation where
  marker := n
  chunkId := c.chunkId
  documentId := c.documentId
  documentTitle := c.documentTitle
  sectionHeading := c.sectionHeading
  pageStart := c.pageStart
  pageEnd := c.pageEnd

/-- Every number in the order is the number of a source. -/
def citations (used : List RetrievedChunk) (order : List Nat) : List Citation :=
  order.filterMap fun n => used[n - 1]?.map (citation n)

inductive AbstainReason where
  | emptyAnswer | modelInsufficientContext | noValidCitations
  deriving DecidableEq

structure Answer where
  answer : Text
  citations : List Citation
  invalidMarkers : Nat
  deriving DecidableEq

inductive ParsedAnswer where
  | abstained (reason : AbstainReason) (invalidMarkers : Option Nat)
  | answered (a : Answer)
  deriving DecidableEq

def parseAnswer (answerText : Option Text) (used : List RetrievedChunk) : ParsedAnswer :=
  let raw := trim (answerText.getD [])
  if raw = [] then .abstained .emptyAnswer none
  else if insufficientContext <:+: raw then .abstained .modelInsufficientContext none
  else
    let listed := (found markers.pattern raw).flatMap numbers
    let order := (listed.filter (isSource used.length)).foldl cite []
    let invalidMarkers := listed.countP fun n => !isSource used.length n
    if order = [] then .abstained .noValidCitations (some invalidMarkers)
    else .answered {
      answer := tidied (rewritten used.length raw)
      citations := citations used order
      invalidMarkers := invalidMarkers }

end FinSight.Ask
