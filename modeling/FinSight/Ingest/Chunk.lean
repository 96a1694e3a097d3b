import FinSight.Ingest.Structure
import Mathlib.Algebra.Order.Field.Rat

/-!
# Chunks (`src/modules/documents/ingest/chunk.js`)

The blocks of a section are merged up to a target; a block over the cap is split into windows that overlap.

A number of tokens is compared with the target and the cap in any type `R` of numbers that has the comparisons; `NaN` is
allowed, so `¬ x ≤ y` and `y < x` are not the same.
-/

namespace FinSight.Ingest

open Scanning

structure Piece where
  text : Text
  page : Int
  cont : Bool
  deriving DecidableEq

/-- A line as it is. -/
def Line.piece (l : Line) : Piece where
  text := l.text
  page := l.page
  cont := false

structure Chunk where
  sectionHeading : Text
  pageStart : Int
  pageEnd : Int
  content : Text
  tokenCount : Nat
  deriving DecidableEq

structure Options (R : Type) where
  target : R
  cap : R
  overlap : R

/-- Pieces of one line rejoin with a space. -/
def joinPieces : List Piece → Text
  | [] => []
  | p :: rest => p.text ++ rest.flatMap fun q => (if q.cont then text " " else text "\n") ++ q.text

/-- `/(?<=[.;:])\s+(?=\S)/`, with the unit that is looked back at. -/
def sentenceEnd : Pattern CodeUnit (CodeUnit × Text)
  | [] => none
  | u :: rest =>
      if u ∈ text ".;:" ∧ (afterSpaces rest).isSome then
        some ((u, rest.takeWhile isSpace), (rest.takeWhile isSpace).length)
      else none

/-- `text.split(SENTENCE_SPLIT)`. -/
def sentences (t : Text) : List Text := split sentenceEnd (fun p => [p.1]) t

def joinWords (ws : List Text) : Text := (text " ").intercalate ws

section

variable {R : Type} [LE R] [LT R] [Mul R] [NatCast R] [DecidableLE R] [DecidableLT R]
variable (count : Text → Nat) (lead : Text) (opts : Options R)

/-- The chunk of a run of pieces, of which there is at least one; `lead` is the title and the heading. -/
def toChunk (heading : Text) (pieces : List Piece) : Chunk where
  sectionHeading := heading
  pageStart := (pieces.map Piece.page).min?.getD 0
  pageEnd := (pieces.map Piece.page).max?.getD 0
  content := lead ++ joinPieces pieces
  tokenCount := count (lead ++ joinPieces pieces)

/-! ## splitToFit -/

/-- The groups that are done, and the words of the next one. -/
def addWord (cap : R) (s : List Text × List Text) (word : Text) : List Text × List Text :=
  if s.2 ≠ [] ∧ cap < (count (lead ++ joinWords (s.2 ++ [word])) : R) then (s.1 ++ [joinWords s.2], [word])
  else (s.1, s.2 ++ [word])

def wordGroups (cap : R) (sentence : Text) : List Text :=
  let (out, cur) := (splitSpaces sentence).foldl (addWord count lead cap) ([], [])
  if cur ≠ [] then out ++ [joinWords cur] else out

def splitToFit (cap : R) (t : Text) : List Text :=
  (sentences t).flatMap fun sentence =>
    if (count (lead ++ sentence) : R) ≤ cap then [sentence] else wordGroups count lead cap sentence

def linePieces (cap : R) (line : Line) : List Piece :=
  if (count (lead ++ line.text) : R) ≤ cap then [line.piece]
  else (splitToFit count lead cap line.text).mapIdx fun i t => { text := t, page := line.page, cont := decide (0 < i) }

def toPieces (cap : R) (lines : List Line) : List Piece := lines.flatMap (linePieces count lead cap)

/-! ## windows -/

/-- The pieces before the tail, the last one first, are added as long as `acc` is below the budget. -/
def tailFrom (budget : R) : List Piece → Nat → List Piece → List Piece
  | [], _, tail => tail
  | p :: before, acc, tail => if (acc : R) < budget then tailFrom budget before (acc + count p.text) (p :: tail) else tail

/-- The end of a window, without its first piece. -/
def overlapTail (budget : R) (win : List Piece) : List Piece := tailFrom count budget win.tail.reverse 0 []

/-- `while (win.length && count(prefix + join([...win, p])) > cap) win.shift()`. -/
def shiftWhile (cap : R) (p : Piece) : List Piece → List Piece
  | [] => []
  | w :: win => if cap < (count (lead ++ joinPieces (w :: win ++ [p])) : R) then shiftWhile cap p win else w :: win

/-- The windows that are done, and the open one. -/
def addPiece (s : List (List Piece) × List Piece) (p : Piece) : List (List Piece) × List Piece :=
  if s.2 ≠ [] ∧ opts.target < (count (lead ++ joinPieces (s.2 ++ [p])) : R) then
    (s.1 ++ [s.2], shiftWhile count lead opts.cap p (overlapTail count (opts.overlap * opts.target) s.2) ++ [p])
  else (s.1, s.2 ++ [p])

def windows (pieces : List Piece) : List (List Piece) :=
  let (out, win) := pieces.foldl (addPiece count lead opts) ([], [])
  if win ≠ [] then out ++ [win] else out

/-! ## chunkDocument -/

/-- The pieces that are not in a chunk yet become one. -/
def flush (heading : Text) (s : List Chunk × List Piece) : List Chunk :=
  if s.2 ≠ [] then s.1 ++ [toChunk count lead heading s.2] else s.1

def addBlock (heading : Text) (s : List Chunk × List Piece) (block : Block) : List Chunk × List Piece :=
  let pieces := block.lines.map Line.piece
  if (count (lead ++ joinPieces (s.2 ++ pieces)) : R) ≤ opts.target then (s.1, s.2 ++ pieces)
  else if (count (lead ++ joinPieces pieces) : R) ≤ opts.cap then (flush count lead heading s, pieces)
  else
    (flush count lead heading s ++
      (windows count lead opts (toPieces count lead opts.cap block.lines)).map (toChunk count lead heading), [])

def sectionChunks (heading : Text) (blocks : List Block) : List Chunk :=
  flush count lead heading (blocks.foldl (addBlock count lead opts heading) ([], []))

end

/-- `${title} — ${heading}\n\n`. -/
def sectionLead (title heading : Text) : Text := title ++ text " — " ++ heading ++ text "\n\n"

/-- The chunks, each after its ordinal. -/
def chunkDocument {R : Type} [LE R] [LT R] [Mul R] [NatCast R] [DecidableLE R] [DecidableLT R] (doc : Structure)
    (countTokens : Text → Nat) (fallbackTitle : Text) (opts : Options R) : List (Nat × Chunk) :=
  let title := doc.title.getD fallbackTitle
  let chunks := doc.sections.flatMap fun s => sectionChunks countTokens (sectionLead title s.heading) opts s.heading s.blocks
  chunks.zipIdx.map fun (c, ordinal) => (ordinal, c)

/-- `target = 350, cap = 480, overlap = 0.15`. -/
def defaultOptions : Options ℚ where
  target := 350
  cap := 480
  overlap := 3 / 20

end FinSight.Ingest
