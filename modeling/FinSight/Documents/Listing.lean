import FinSight.Documents.Service
import FinSight.Lib.Listing
import Mathlib.Data.Prod.Lex

/-!
# Documents that are listed (`listDocuments` of `src/modules/documents/document.service.js`)
-/

namespace FinSight.Documents

open ReadCommitted

structure DocumentQuery where
  tenantId : Uuid
  limit : PageLimit
  cursor : Option Text
  status : Option DocumentStatus
  deriving DecidableEq

/-- The filters other than the cursor. -/
def DocumentQuery.admits (q : DocumentQuery) (d : Document) : Bool :=
  d.tenantId = q.tenantId && q.status.all fun status => d.status = status

/-- `(created_at, id)`. -/
def documentKey (d : Document) : Lex (Timestamp × Nat) := toLex (d.createdAt, d.id.rank)

/-- `WHERE … AND (created_at, id) < (…::timestamptz, …::uuid) ORDER BY created_at DESC, id DESC LIMIT …`. -/
def selectDocumentsPage (q : DocumentQuery) (after : Option Cursor.DocumentKey) : Stmt (List Document) := fun _ db =>
  let rows := db.documents.filter q.admits
  match after with
  | none => .done (Keyset.probe documentKey q.limit.value none rows) [] [] []
  | some c =>
      match timestamptzIn c.createdAtText, uuidIn c.id with
      | none, _ => .error (.sql .datetime)
      | some _, none => .error (.sql .invalidTextRepresentation)
      | some t, some id => .done (Keyset.probe documentKey q.limit.value (some (toLex (t, id.rank))) rows) [] [] []

/-- The columns of the list. -/
structure DocumentRow where
  id : Uuid
  title : Option Text
  status : DocumentStatus
  error : Option Text
  pageCount : Option Nat
  createdAt : Timestamp
  updatedAt : Timestamp
  deriving DecidableEq

def Document.row (d : Document) : DocumentRow :=
  ⟨d.id, d.title, d.status, d.error, d.pageCount, d.createdAt, d.updatedAt⟩

/-- `created_at::text` in the zone of the session. -/
def encodeDocumentCursor (B : Buffers) (zone : Zone) (d : Document) : Text :=
  Cursor.encodeTimestampCursor B ⟨timestamptzOut zone d.createdAt, d.id.text⟩

def listDocuments (B : Buffers) (zone : Zone) (q : DocumentQuery) : Tx (ListResult DocumentRow) :=
  match readCursor (Cursor.decodeTimestampCursor B) q.cursor with
  | none => .throw (.app invalidCursor)
  | some after => do
      let rows ← Program.statement (selectDocumentsPage q after)
      return {
        data := (Keyset.page q.limit.value rows).map Document.row
        nextCursor := Keyset.next q.limit.value (encodeDocumentCursor B zone) rows }

end FinSight.Documents
