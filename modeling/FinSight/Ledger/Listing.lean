import FinSight.Ledger.Service
import FinSight.Lib.Listing
import Mathlib.Data.Prod.Lex

/-!
# Entries that are listed (`listEntries` of `src/modules/ledger/ledger.service.js`)
-/

namespace FinSight

open ReadCommitted

structure EntryQuery where
  tenantId : Uuid
  limit : PageLimit
  cursor : Option Text
  accountId : Option UuidText
  fromDate : Option FilterDate
  toDate : Option FilterDate
  deriving DecidableEq

/-- The filters other than the cursor. -/
def EntryQuery.admits (q : EntryQuery) (db : Db) (e : JournalEntry) : Bool :=
  e.tenantId = q.tenantId && (q.fromDate.all fun d => d.date.timestamp ≤ e.occurredAt) &&
    (q.toDate.all fun d => e.occurredAt ≤ d.date.timestamp) &&
    q.accountId.all fun a => db.lines.any fun l => l.entryId = e.id && l.accountId = a.uuid

/-- `(occurred_at, id)`. -/
def entryKey (e : JournalEntry) : Lex (Timestamp × Nat) := toLex (e.occurredAt, e.id.rank)

/-- `WHERE … AND (occurred_at, id) < (…) ORDER BY occurred_at DESC, id DESC LIMIT …`; the id of the cursor is cast. -/
def selectEntriesPage (q : EntryQuery) (after : Option Cursor.EntryKey) : Stmt (List JournalEntry) := fun _ db =>
  let rows := db.entries.filter (q.admits db)
  match after with
  | none => .done (Keyset.probe entryKey q.limit.value none rows) [] [] []
  | some c =>
      match uuidIn c.id with
      | none => .error (.sql .invalidTextRepresentation)
      | some id =>
          .done (Keyset.probe entryKey q.limit.value (some (toLex (c.occurredAt.timestamp, id.rank))) rows) [] [] []

/-- `WHERE tenant_id = … AND entry_id IN (…)`. -/
def selectLinesOf (tenantId : Uuid) (entryIds : List Uuid) : Stmt (List EntryLine) := fun ctx db =>
  .done (shuffle ctx.choice.order (db.lines.filter fun l => l.tenantId = tenantId && entryIds.contains l.entryId)) [] [] []

structure EntryView where
  entry : JournalEntry
  lines : List (EntryLine × Text)
  deriving DecidableEq

/-- An entry with its lines, out of the lines of a page. -/
def entryView (lines : List EntryLine) (e : JournalEntry) : EntryView where
  entry := e
  lines := (lines.filter fun l => l.entryId = e.id).map fun l => (l, decimalInt l.amountMinor)

/-- What a `timestamptz` is as a JavaScript date. -/
def Date.ofTimestamp (t : Timestamp) : Date := ⟨t / 1000⟩

def encodeEntryCursor (B : Buffers) (e : JournalEntry) : Text :=
  Cursor.encodeCursor B ⟨.ofTimestamp e.occurredAt, e.id.text⟩

def listEntries (B : Buffers) (P : DateParser) (q : EntryQuery) : Tx (ListResult EntryView) :=
  match readCursor (Cursor.decodeCursor B P) q.cursor with
  | none => .throw (.app invalidCursor)
  | some after => do
      let rows ← Program.statement (selectEntriesPage q after)
      let page := Keyset.page q.limit.value rows
      let lines ← if page = [] then pure [] else
        Program.statement (selectLinesOf q.tenantId (page.map (·.id)))
      return {
        data := page.map (entryView lines)
        nextCursor := Keyset.next q.limit.value (encodeEntryCursor B) rows }

end FinSight
