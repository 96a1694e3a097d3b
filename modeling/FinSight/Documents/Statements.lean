import FinSight.Db.Statements
import FinSight.Documents.Schema
import FinSight.Ingest.Chunk

/-!
# The statements of the document service

One definition for each SQL statement, as in `FinSight.Sql`: the answer from the transaction's view, its `checked` for what
Postgres verifies first, and the locks. A deleted row stays locked, with its entries in the unique indexes, until the
transaction ends.
-/

namespace FinSight.Documents.Sql

open ReadCommitted
open FinSight.Sql (checked freshIds)

/-! ## documents -/

structure DocumentValues where
  tenantId : Uuid
  title : Text
  contentSha256 : Text

/-- `INSERT … ON CONFLICT (tenant_id, content_sha256) DO NOTHING RETURNING …`. -/
def insertDocument (v : DocumentValues) : Stmt (Option Document) := fun ctx db =>
  let row : Document :=
    { id := ctx.choice.fresh 0
      tenantId := v.tenantId
      title := some (toWellFormed v.title)
      contentSha256 := v.contentSha256
      status := .pending
      error := none
      pageCount := none
      createdAt := ctx.now
      updatedAt := ctx.now }
  checked [(nulFree v.title, .characterNotInRepertoire)]
    (if db.documents.any fun d => d.tenantId = v.tenantId && d.contentSha256 = v.contentSha256 then
      .done none [] [] [.documentKey v.tenantId v.contentSha256]
    else
      checked [(db.documents.all fun d => d.id ≠ row.id, .uniqueViolation)]
        (.done (some row) [.document row] [.document row.id, .documentKey v.tenantId v.contentSha256] []))

/-- `WHERE tenant_id = … AND content_sha256 = …`. -/
def selectDocumentByKey (tenantId : Uuid) (contentSha256 : Text) : Stmt (Option Document) := fun _ db =>
  .done (db.documents.find? fun d => d.tenantId = tenantId && d.contentSha256 = contentSha256) [] [] []

def selectDocument (id tenantId : Uuid) : Stmt (Option Document) := fun _ db =>
  .done (db.documents.find? (Document.is id tenantId)) [] [] []

/-- `… FOR UPDATE`. -/
def selectDocumentForUpdate (id tenantId : Uuid) : Stmt (Option Document) := fun _ db =>
  match db.documents.find? (Document.is id tenantId) with
  | none => .done none [] [] []
  | some d => .done (some d) [] [.document d.id] []

/-- `UPDATE documents SET … WHERE id = … AND tenant_id = … AND status IN (…) RETURNING …`: a blocked update reads the
newest row, and no row that fails the condition by then is updated or locked. `checks` are those of the new values. -/
def updateDocument (checks : List (Bool × SqlState)) (id tenantId : Uuid) (statuses : List DocumentStatus)
    (set : Timestamp → DocumentState → DocumentState) : Stmt (Option Document) := fun ctx db =>
  checked checks
    (match db.documents.find? fun d => d.is id tenantId && statuses.contains d.status with
    | none => .done none [] [] []
    | some d =>
        .done (some (d.set (set ctx.now d.state))) [.updateDocument d.id (set ctx.now d.state)] [.document d.id] [])

def deleteDocument (id tenantId : Uuid) : Stmt Unit := fun _ db =>
  .done () [.deleteDocument id tenantId]
    ((db.documents.filter (Document.is id tenantId)).flatMap fun d =>
      [.document d.id, .documentKey d.tenantId d.contentSha256]) []

/-! ## document_files -/

structure FileValues where
  documentId : Uuid
  tenantId : Uuid
  mimeType : Text
  sizeBytes : Nat
  bytes : List UInt8

def insertFile (v : FileValues) : Stmt Unit := fun ctx db =>
  let row : DocumentFile :=
    { documentId := v.documentId
      tenantId := v.tenantId
      mimeType := v.mimeType
      sizeBytes := v.sizeBytes
      bytes := v.bytes
      createdAt := ctx.now }
  checked [(inInt4 v.sizeBytes, .numericValueOutOfRange), (0 < v.sizeBytes && v.sizeBytes ≤ 10485760, .checkViolation),
      (db.files.all fun f => f.documentId ≠ v.documentId, .uniqueViolation)]
    (.done () [.file row] [.file v.documentId] [])

def selectFile (documentId tenantId : Uuid) : Stmt (Option DocumentFile) := fun _ db =>
  .done (db.files.find? (DocumentFile.of documentId tenantId)) [] [] []

def deleteFile (documentId tenantId : Uuid) : Stmt Unit := fun _ db =>
  .done () [.deleteFile documentId tenantId]
    ((db.files.filter (DocumentFile.of documentId tenantId)).map fun f => .file f.documentId) []

/-! ## document_chunks -/

structure ChunkValues where
  ordinal : Nat
  sectionHeading : Option Text
  pageStart : Int
  pageEnd : Int
  content : Text
  tokenCount : Nat
  embedding : Embedding
  embeddingModel : Text
  deriving DecidableEq

def ChunkValues.inRange (v : ChunkValues) : Bool :=
  inInt4 v.ordinal && inInt4 v.pageStart && inInt4 v.pageEnd && inInt4 v.tokenCount

def insertChunks (documentId tenantId : Uuid) (values : List ChunkValues) : Stmt Unit := fun ctx db =>
  let rows : List DocumentChunk := values.zipIdx.map fun (v, k) =>
    { id := ctx.choice.fresh k
      tenantId
      documentId
      ordinal := v.ordinal
      sectionHeading := v.sectionHeading.map toWellFormed
      pageStart := v.pageStart
      pageEnd := v.pageEnd
      content := toWellFormed v.content
      tokenCount := v.tokenCount
      embedding := v.embedding
      embeddingModel := v.embeddingModel
      createdAt := ctx.now }
  checked
    [(values.all fun v => nulFree v.content && v.sectionHeading.all nulFree, .characterNotInRepertoire),
      (values.all ChunkValues.inRange, .numericValueOutOfRange),
      (values.all fun v => v.pageStart ≤ v.pageEnd, .checkViolation),
      (freshIds (·.id) rows db.chunks, .uniqueViolation),
      (decide (values.map (·.ordinal)).Nodup && values.all fun v =>
        db.chunks.all fun c => !(c.documentId = documentId && c.ordinal = v.ordinal), .uniqueViolation)]
    (.done () (rows.map .chunk) (rows.flatMap fun c => [.chunk c.id, .chunkOrdinal documentId c.ordinal]) [])

def deleteChunks (documentId tenantId : Uuid) : Stmt Unit := fun _ db =>
  .done () [.deleteChunks documentId tenantId]
    ((db.chunks.filter (DocumentChunk.of documentId tenantId)).flatMap fun c =>
      [.chunk c.id, .chunkOrdinal c.documentId c.ordinal]) []

end FinSight.Documents.Sql
