import FinSight.Documents.Machine
import Mathlib.Data.List.Defs

/-!
# What ingestion makes of a file (`ingest/embed.js`, `document.ingest.js`)

* `embedTexts` : in batches, with their dimensions checked;
* `Libraries` : pdf.js, the tokenizer and the embedding model; `Ingests` : the chunks, with their vectors, of a file.
-/

namespace FinSight.Documents

def batchSize : Nat := 16

/-- `Embedding i has n dims, expected 384`. -/
def wrongDims (i n : Nat) : Text :=
  text "Embedding " ++ decimal i ++ text " has " ++ decimal n ++ text " dims, expected " ++ decimal embeddingDimensions

/-- The vectors from the `i`th on. -/
def checkDims : Nat → List (List Rat) → Except Text (List Embedding)
  | _, [] => .ok []
  | i, v :: vectors =>
      if h : v.length = embeddingDimensions then do
        let rest ← checkDims (i + 1) vectors
        return ⟨v, h⟩ :: rest
      else .error (wrongDims i v.length)

section
variable (extractor : List Text → Except Text (List (List Rat)))

def embedTexts (texts : List Text) : Except Text (List Embedding) := do
  let vectors ← (texts.toChunks batchSize).foldlM (fun vectors batch => do return vectors ++ (← extractor batch)) []
  checkDims 0 vectors

end

structure Libraries where
  pdfjs : Ingest.Pdfjs
  countTokens : Text → Nat
  extractor : List Text → Except Text (List (List Rat))

/-- A document as it has been uploaded. -/
structure Original where
  title : Option Text
  bytes : List UInt8

/-- What `ingestDocument` writes. -/
structure Ingests (L : Libraries) (o : Original) (w : WriteRequest) : Prop where
  chunks : ∃ pages, Ingest.extractDocumentText L.pdfjs o.bytes = .ok pages ∧ w.pageCount = pages.length ∧
    w.chunks = Ingest.chunkDocument (Ingest.parseStructure pages) L.countTokens (fallbackTitle o.title) Ingest.defaultOptions
  vectors : embedTexts L.extractor (w.chunks.map fun c => c.2.content) = .ok w.vectors

/-- The libraries answer the services. -/
def Agrees (L : Libraries) (s : Machine) : Move → Prop
  | .extract k result => ∀ job bytes next, s.Running k job (.extract bytes next) → ∀ pages, result = .ok pages →
      Ingest.extractDocumentText L.pdfjs bytes = .ok pages
  | .tokenCounter _ result => ∀ f, result = .ok f → f = L.countTokens
  | .embed k result => ∀ job texts next, s.Running k job (.embed texts next) → ∀ vectors, result = .ok vectors →
      embedTexts L.extractor texts = .ok vectors
  | _ => True

end FinSight.Documents
