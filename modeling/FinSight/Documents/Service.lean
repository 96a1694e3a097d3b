import FinSight.Documents.Statements
import FinSight.ReadCommitted.Interleaving

/-!
# Documents (`src/modules/documents/document.service.js`, `document.ingest.js`, `ingest/write.js`)

The transactions of the document service, as programs; a statement outside `db.transaction` is a transaction of its own.
What surrounds them (the queue, PDF extraction, embedding) is in `FinSight.Documents.Worker`. SHA-256 is an argument.

* `createDocument`, `getDocument`, `retryDocument`, `deleteDocument` : called by the routes;
* `claimDocument`, `selectFile`, `writeChunks`, `markDocumentsFailed` : called by the worker;
* `Request`, `program`, `Sys` : any number of calls in flight against one database.
-/

namespace FinSight.Documents

open ReadCommitted Documents.Sql

/-- What multer hands over. -/
structure File where
  originalname : Text
  buffer : List UInt8
  deriving DecidableEq

def File.size (f : File) : Nat := f.buffer.length

def maxUploadBytes : Nat := 10 * 1024 * 1024

/-- `%PDF-`. -/
def pdfMagic : List UInt8 := [0x25, 0x50, 0x44, 0x46, 0x2D]

def fileRequired : AppError := ⟨text "A PDF file is required", 400, text "FILE_REQUIRED"⟩

def fileTooLarge : AppError := ⟨text "Max upload size is 10 MB", 413, text "FILE_TOO_LARGE"⟩

def unsupportedMediaType : AppError := ⟨text "Only PDF files areaccepted", 415, text "UNSUPPORTED_MEDIA_TYPE"⟩

def documentNotFound : AppError := ⟨text "Document not found", 404, text "DOCUMENT_NOT_FOUND"⟩

def documentNotRetryable : AppError :=
  ⟨text "Only failed documents can be retried", 409, text "DOCUMENT_NOT_RETRYABLE"⟩

def documentBusy : AppError :=
  ⟨text "Document is being processed; try again when it finishes", 409, text "DOCUMENT_BUSY"⟩

/-- What `assertPdf` throws, or the file. -/
def assertPdf : Option File → Except AppError File
  | none => .error fileRequired
  | some file =>
      if maxUploadBytes < file.size then .error fileTooLarge
      else if file.buffer.take 5 ≠ pdfMagic then .error unsupportedMediaType
      else .ok file

structure UploadRequest where
  tenantId : Uuid
  title : Option Text
  file : Option File
  deriving DecidableEq

/-- A document of a tenant; also the data of a job. -/
structure DocumentRequest where
  tenantId : Uuid
  documentId : UuidText
  deriving DecidableEq

/-- `document` is missing where the row that the insert conflicted with is gone. -/
structure CreateResult where
  document : Option Document
  created : Bool
  deriving DecidableEq

section
variable (digest : List UInt8 → Text)

/-- The transaction of an upload. -/
def createTx (tenantId : Uuid) (title : Text) (file : File) : Tx CreateResult := do
  let contentSha256 := digest file.buffer
  let created ← Program.statement (insertDocument ⟨tenantId, title, contentSha256⟩)
  match created with
  | none => do
      let existing ← Program.statement (selectDocumentByKey tenantId contentSha256)
      return ⟨existing, false⟩
  | some created => do
      Program.statement (insertFile ⟨created.id, tenantId, text "application/pdf", file.size, file.buffer⟩)
      return ⟨some created, true⟩

def createDocument (r : UploadRequest) : Tx CreateResult :=
  match assertPdf r.file with
  | .error e => .throw (.app e)
  | .ok file => createTx digest r.tenantId (r.title.getD file.originalname) file

end

/-- Reading `status` of an `undefined` document. -/
def undefinedDocument : Failure := .error (text "Cannot read properties of undefined (reading 'status')")

/-- `result.created || result.document.status == 'pending'`: whether an upload queues an ingestion once its transaction has
committed. -/
def CreateResult.wantsJob (result : CreateResult) : Except Failure Bool :=
  if result.created then .ok true
  else match result.document with
    | none => .error undefinedDocument
    | some document => .ok (document.status = .pending)

def getDocument (r : DocumentRequest) : Tx Document := do
  let doc ← Program.statement (selectDocument r.documentId.uuid r.tenantId)
  match doc with
  | none => .throw (.app documentNotFound)
  | some doc => return doc

/-- The update and, where it matched no row, the read that tells 404 from 409. -/
def retryDocument (r : DocumentRequest) : Tx Document := do
  let doc ← Program.statement (updateDocument [] r.documentId.uuid r.tenantId [.failed]
    fun now s => { s with status := .pending, error := none, updatedAt := now })
  match doc with
  | none => do
      let _ ← getDocument r
      .throw (.app documentNotRetryable)
  | some doc => return doc

def deleteDocument (r : DocumentRequest) : Tx Unit := do
  let doc ← Program.statement (selectDocumentForUpdate r.documentId.uuid r.tenantId)
  match doc with
  | none => .throw (.app documentNotFound)
  | some doc =>
    if doc.status = .processing then .throw (.app documentBusy)
    else do
      Program.statement (deleteChunks r.documentId.uuid r.tenantId)
      Program.statement (deleteFile r.documentId.uuid r.tenantId)
      Program.statement (Sql.deleteDocument r.documentId.uuid r.tenantId)

/-! ## Ingestion -/

/-- The claim of `ingestDocument`. -/
def claimDocument (r : DocumentRequest) : Tx (Option Document) :=
  Program.statement (updateDocument [] r.documentId.uuid r.tenantId [.pending, .processing]
    fun now s => { s with status := .processing, error := none, updatedAt := now })

/-- The file that `ingestDocument` reads once it has claimed the document. -/
def selectFile (r : DocumentRequest) : Tx (Option DocumentFile) :=
  Program.statement (Sql.selectFile r.documentId.uuid r.tenantId)

def embeddingModel : Text := text "Xenova/bge-small-en-v1.5"

structure WriteRequest where
  document : DocumentRequest
  pageCount : Nat
  /-- The chunks, each after its ordinal. -/
  chunks : List (Nat × Ingest.Chunk)
  vectors : List Embedding
  deriving DecidableEq

def WriteRequest.values (r : WriteRequest) : List ChunkValues :=
  (r.chunks.zip r.vectors).map fun ((ordinal, c), embedding) =>
    { ordinal
      sectionHeading := some c.sectionHeading
      pageStart := c.pageStart
      pageEnd := c.pageEnd
      content := c.content
      tokenCount := c.tokenCount
      embedding
      embeddingModel }

def noChunks : Failure := .error (text "writeChunks called with no chunks")

def lengthsDiffer (chunks vectors : Nat) : Failure :=
  .error (text "chunks (" ++ decimal chunks ++ text ") and vectors (" ++ decimal vectors ++ text ") differ")

/-- `false` where the claim is lost: `ClaimLostError` rolls back a transaction that has written nothing. -/
def writeChunks (r : WriteRequest) : Tx Bool :=
  if r.chunks.length = 0 then .throw noChunks
  else if r.chunks.length ≠ r.vectors.length then .throw (lengthsDiffer r.chunks.length r.vectors.length)
  else do
    let id := r.document.documentId.uuid
    let updated ← Program.statement (updateDocument [(inInt4 r.pageCount, .numericValueOutOfRange)] id
      r.document.tenantId [.processing]
      fun now s => { s with status := .ready, pageCount := some r.pageCount, updatedAt := now })
    match updated with
    | none => return false
    | some _ => do
        Program.statement (deleteChunks id r.document.tenantId)
        Program.statement (insertChunks id r.document.tenantId r.values)
        return true

/-- `message` is `error?.message ?? error`, as a string. -/
def markDocumentsFailed (r : DocumentRequest) (message : Text) : Tx Unit := do
  let error := message.take 1000
  let _ ← Program.statement (updateDocument [(nulFree error, .characterNotInRepertoire)] r.documentId.uuid r.tenantId
    [.pending, .processing]
    fun now s => { s with status := .failed, error := some (toWellFormed error), updatedAt := now })

/-! ## The service as a system of transactions -/

inductive Request where
  | createDocument (r : UploadRequest)
  | getDocument (r : DocumentRequest)
  | retryDocument (r : DocumentRequest)
  | deleteDocument (r : DocumentRequest)
  | claimDocument (r : DocumentRequest)
  | selectFile (r : DocumentRequest)
  | writeChunks (r : WriteRequest)
  | markDocumentsFailed (r : DocumentRequest) (message : Text)
  deriving DecidableEq

inductive Response where
  | created (result : CreateResult)
  | document (row : Document)
  | deleted
  | claimed (row : Option Document)
  | file (row : Option DocumentFile)
  | written (written : Bool)
  | marked
  deriving DecidableEq

variable (digest : List UInt8 → Text)

def program : Request → Tx Response
  | .createDocument r => do return .created (← createDocument digest r)
  | .getDocument r => do return .document (← getDocument r)
  | .retryDocument r => do return .document (← retryDocument r)
  | .deleteDocument r => do
      deleteDocument r
      return .deleted
  | .claimDocument r => do return .claimed (← claimDocument r)
  | .selectFile r => do return .file (← selectFile r)
  | .writeChunks r => do return .written (← writeChunks r)
  | .markDocumentsFailed r message => do
      markDocumentsFailed r message
      return .marked

abbrev Sys := System Db Write Lock Failure Choice Request Response

abbrev Event := Label Request Choice

def init : Sys := ⟨Db.empty, 0, []⟩

/-- States of all runs whose steps satisfy `ok`. -/
abbrev Reaches (ok : Sys → Event → Prop) (s : Sys) : Prop :=
  System.Reachable engine (program digest) ok init s

end FinSight.Documents
