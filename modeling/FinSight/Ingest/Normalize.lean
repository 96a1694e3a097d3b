import FinSight.Js.Space
import FinSight.Scanning.Repeats

/-!
# Extracted text (`src/modules/documents/ingest/extract.js`)

`normalizeText`, one definition for each of its rewrites; `nfkc` stands for `normalize("NFKC")`.
-/

namespace FinSight.Ingest

open Scanning

/-- `[a-z]`. -/
def isLower (u : CodeUnit) : Bool := unit 'a' ≤ u && u ≤ unit 'z'

/-- `\n`. -/
def isNewline (u : CodeUnit) : Bool := u == unit '\n'

/-- `/([a-z])-\n([a-z])/`: the two groups. -/
def brokenWord : Pattern CodeUnit (CodeUnit × CodeUnit)
  | a :: hyphen :: newline :: b :: _ =>
      if isLower a ∧ hyphen = unit '-' ∧ newline = unit '\n' ∧ isLower b then some ((a, b), 3) else none
  | _ => none

def dehyphenate (t : Text) : Text := replaceAll brokenWord (fun groups => [groups.1, groups.2]) t

/-- `replace(/[ \t]+/g, " ")`. -/
def squeezeBlanks (t : Text) : Text := replaceAll (atLeast 1 isBlank) (fun _ => text " ") t

/-- `/ *\n */`: the spaces on both sides. -/
def lineBreak : Pattern CodeUnit (Text × Text) := fun t =>
  let before := t.takeWhile (· == unit ' ')
  match t.dropWhile (· == unit ' ') with
  | u :: rest =>
      let after := rest.takeWhile (· == unit ' ')
      if u = unit '\n' then some ((before, after), before.length + after.length) else none
  | [] => none

def trimBreaks (t : Text) : Text := replaceAll lineBreak (fun _ => text "\n") t

/-- `replace(/\n{3,}/g, "\n\n")`. -/
def limitBreaks (t : Text) : Text := replaceAll (atLeast 3 isNewline) (fun _ => text "\n\n") t

def normalizeText (nfkc : Text → Text) (t : Text) : Text :=
  trim (limitBreaks (trimBreaks (squeezeBlanks (dehyphenate (nfkc t)))))

end FinSight.Ingest
