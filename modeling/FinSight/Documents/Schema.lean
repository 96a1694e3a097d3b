import FinSight.Db.Schema
import Mathlib.Data.Rat.Init

/-!
# The document tables (`src/infrastructure/db/schema.js`)

* `Document`, `DocumentFile`, `DocumentChunk` : the rows; `Db` : the three tables, rows in the order of their inserts;
* `Write`, `Db.apply` : the entries of a redo log; deleting a document takes its file and chunks with it
  (`ON DELETE CASCADE`);
* `Lock` : row locks and entries of unique indexes;
* `engine` : no constraint of these tables is deferred.

A transaction inserts files and chunks only for a document row that it has inserted or updated itself, so the check of
their foreign key always passes and is not part of the statements.
-/

namespace FinSight.Documents

inductive DocumentStatus where
  | pending | processing | ready | failed
  deriving DecidableEq, Repr

structure Document where
  id : Uuid
  tenantId : Uuid
  title : Option Text
  contentSha256 : Text
  status : DocumentStatus
  error : Option Text
  pageCount : Option Nat
  createdAt : Timestamp
  updatedAt : Timestamp
  deriving DecidableEq

structure DocumentFile where
  documentId : Uuid
  tenantId : Uuid
  mimeType : Text
  sizeBytes : Nat
  bytes : List UInt8
  createdAt : Timestamp
  deriving DecidableEq

def embeddingDimensions : Nat := 384

/-- A value of `vector(384)`, its components as pgvector keeps them. -/
structure Embedding where
  components : List Rat
  dims : components.length = embeddingDimensions
  deriving DecidableEq

structure DocumentChunk where
  id : Uuid
  tenantId : Uuid
  documentId : Uuid
  ordinal : Nat
  sectionHeading : Option Text
  pageStart : Int
  pageEnd : Int
  content : Text
  tokenCount : Nat
  embedding : Embedding
  embeddingModel : Text
  createdAt : Timestamp
  deriving DecidableEq

structure Db where
  documents : List Document
  files : List DocumentFile
  chunks : List DocumentChunk
  deriving DecidableEq

def Db.empty : Db := ⟨[], [], []⟩

/-! ## Redo logs -/

/-- The columns of a document that its updates set. -/
structure DocumentState where
  status : DocumentStatus
  error : Option Text
  pageCount : Option Nat
  updatedAt : Timestamp
  deriving DecidableEq

def Document.state (d : Document) : DocumentState := ⟨d.status, d.error, d.pageCount, d.updatedAt⟩

def Document.set (d : Document) (s : DocumentState) : Document :=
  { d with
    status := s.status
    error := s.error
    pageCount := s.pageCount
    updatedAt := s.updatedAt }

@[simp] theorem Document.set_id (d : Document) (s : DocumentState) : (d.set s).id = d.id := rfl

@[simp] theorem Document.set_tenantId (d : Document) (s : DocumentState) : (d.set s).tenantId = d.tenantId := rfl

@[simp] theorem Document.set_contentSha256 (d : Document) (s : DocumentState) :
    (d.set s).contentSha256 = d.contentSha256 := rfl

inductive Write where
  | document (row : Document)
  | file (row : DocumentFile)
  | chunk (row : DocumentChunk)
  | updateDocument (id : Uuid) (state : DocumentState)
  | deleteChunks (documentId tenantId : Uuid)
  | deleteFile (documentId tenantId : Uuid)
  | deleteDocument (id tenantId : Uuid)
  deriving DecidableEq

/-- The row belongs to the document. -/
def DocumentFile.of (documentId tenantId : Uuid) (f : DocumentFile) : Bool :=
  f.documentId = documentId && f.tenantId = tenantId

def DocumentChunk.of (documentId tenantId : Uuid) (c : DocumentChunk) : Bool :=
  c.documentId = documentId && c.tenantId = tenantId

def Document.is (id tenantId : Uuid) (d : Document) : Bool := d.id = id && d.tenantId = tenantId

def setDocument (id : Uuid) (state : DocumentState) (rows : List Document) : List Document :=
  rows.map fun d => if d.id = id then d.set state else d

def Db.apply (db : Db) : Write → Db
  | .document row => { db with documents := db.documents ++ [row] }
  | .file row => { db with files := db.files ++ [row] }
  | .chunk row => { db with chunks := db.chunks ++ [row] }
  | .updateDocument id state => { db with documents := setDocument id state db.documents }
  | .deleteChunks id t => { db with chunks := db.chunks.filter fun c => !c.of id t }
  | .deleteFile id t => { db with files := db.files.filter fun f => !f.of id t }
  | .deleteDocument id t =>
      { documents := db.documents.filter fun d => !d.is id t
        files := db.files.filter fun f => !f.of id t
        chunks := db.chunks.filter fun c => !c.of id t }

/-! ## Locks and the engine -/

inductive Lock where
  | document (id : Uuid)
  | documentKey (tenantId : Uuid) (contentSha256 : Text)
  | file (documentId : Uuid)
  | chunk (id : Uuid)
  | chunkOrdinal (documentId : Uuid) (ordinal : Nat)
  deriving DecidableEq

def engine : ReadCommitted.Engine Db Write Failure := ⟨Db.apply, fun _ _ => none⟩

@[simp] theorem engine_apply (db : Db) (w : Write) : engine.apply db w = db.apply w := rfl

abbrev Stmt (α : Type) := ReadCommitted.Statement Db Write Lock Failure Choice α

/-- A transaction of the document service. -/
abbrev Tx (α : Type) := ReadCommitted.Program Db Write Lock Failure Choice α

end FinSight.Documents
