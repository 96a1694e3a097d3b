import FinSight.Documents.Service
import Mathlib.Data.Int.Log
import Mathlib.Data.List.Sort
import Mathlib.Data.Rat.Floor

/-!
# Files and chunks that are read (`document.service.js`, `retrieval/retrieve.js`)

* `getDocumentFile` : the stored PDF;
* `searchChunks` : the chunks of ready documents that are nearest to a vector.

A finite double is its value, a `NaN` is `none`. What pgvector reads as a vector and what `<=>` answers is left open.
-/

namespace FinSight.Documents

open ReadCommitted Documents.Sql

/-! ## getDocumentFile -/

structure StoredFile where
  documentId : Uuid
  title : Option Text
  sizeBytes : Nat
  bytes : List UInt8
  deriving DecidableEq

/-- `documents` joined with `document_files`. -/
def joinedFiles (db : Db) (id tenantId : Uuid) : List StoredFile :=
  (db.documents.filter (Document.is id tenantId)).flatMap fun d =>
    (db.files.filter (DocumentFile.of d.id d.tenantId)).map fun f => ⟨d.id, d.title, f.sizeBytes, f.bytes⟩

/-- There is no `ORDER BY`. -/
def selectStoredFile (id tenantId : Uuid) : Stmt (Option StoredFile) := fun ctx db =>
  .done (shuffle ctx.choice.order (joinedFiles db id tenantId)).head? [] [] []

def getDocumentFile (r : DocumentRequest) : Tx StoredFile := do
  let file ← Program.statement (selectStoredFile r.documentId.uuid r.tenantId)
  match file with
  | none => .throw (.app documentNotFound)
  | some file => return file

/-! ## searchChunks -/

/-- `input` : the literal of an array, whose components that are not finite are written as `null`; `distance` : `<=>`. -/
structure Pgvector where
  input : List (Option Rat) → Except SqlState Embedding
  distance : Embedding → Embedding → Option Rat

/-- To the nearest integer, ties to even. -/
def roundHalfEven (x : Rat) : Int :=
  if x - ⌊x⌋ < 1 / 2 ∨ (x - ⌊x⌋ = 1 / 2 ∧ ⌊x⌋ % 2 = 0) then ⌊x⌋ else ⌊x⌋ + 1

/-- The double nearest to `x`, where it is zero or a normal number: 53 significant bits. -/
def nearestDouble (x : Rat) : Rat :=
  if x = 0 then 0
  else
    let ulp : Rat := 2 ^ (Int.log 2 |x| - 52)
    roundHalfEven (x / ulp) * ulp

example : nearestDouble (1 / 3) = 6004799503160661 / 18014398509481984 := by decide +kernel

/-- `1 - Number(d)`. -/
def scoreOf (d : Option Rat) : Option Rat := d.map fun d => nearestDouble (1 - d)

def defaultK : Int := 5

def maxK : Int := 20

/-- `k` is `none` where it is not an integer, or missing. -/
structure SearchRequest where
  tenantId : Uuid
  vector : List (Option Rat)
  k : Option Int
  deriving DecidableEq

/-- `Math.min(Math.max(Number.isInteger(k) ? k : DEFAULT_K, 1), MAX_K)`. -/
def SearchRequest.limit (r : SearchRequest) : Nat := (min (max (r.k.getD defaultK) 1) maxK).toNat

/-- The columns that are selected, but the distance. -/
structure Hit where
  chunkId : Uuid
  documentId : Uuid
  documentTitle : Option Text
  sectionHeading : Option Text
  pageStart : Int
  pageEnd : Int
  content : Text
  deriving DecidableEq

/-- A `NaN` comes after all numbers. -/
def distanceLt : Option Rat → Option Rat → Bool
  | some d, some d' => d < d'
  | some _, none => true
  | none, _ => false

/-- `ORDER BY distance, id ASC`. -/
def hitLe (h h' : Hit × Option Rat) : Bool :=
  distanceLt h.2 h'.2 || (h.2 == h'.2 && h.1.chunkId.bits.toNat ≤ h'.1.chunkId.bits.toNat)

def hit (c : DocumentChunk) (d : Document) : Hit where
  chunkId := c.id
  documentId := c.documentId
  documentTitle := d.title
  sectionHeading := c.sectionHeading
  pageStart := c.pageStart
  pageEnd := c.pageEnd
  content := c.content

section
variable (V : Pgvector)

/-- `document_chunks` joined with `documents`, with the distances. -/
def joinedChunks (db : Db) (tenantId : Uuid) (vector : Embedding) : List (Hit × Option Rat) :=
  (db.chunks.filter fun c => c.tenantId = tenantId).flatMap fun c =>
    (db.documents.filter fun d =>
      d.is c.documentId c.tenantId && decide (d.tenantId = tenantId) && decide (d.status = .ready)).map fun d =>
        (hit c d, V.distance c.embedding vector)

def selectChunks (r : SearchRequest) : Stmt (List (Hit × Option Rat)) := fun _ db =>
  match V.input r.vector with
  | .error state => .error (.sql state)
  | .ok vector =>
      .done (((joinedChunks V db r.tenantId vector).insertionSort fun h h' => hitLe h h').take r.limit) [] [] []

def wrongDimensions : Failure :=
  .error (text "vector must have " ++ decimal embeddingDimensions ++ text " dimensions")

/-- The score takes the place of the distance. -/
def searchChunks (r : SearchRequest) : Tx (List (Hit × Option Rat)) :=
  if r.vector.length ≠ embeddingDimensions then .throw wrongDimensions
  else do
    let rows ← Program.statement (selectChunks V r)
    return rows.map fun (h, d) => (h, scoreOf d)

end

end FinSight.Documents
