import FinSight.Db.Schema
import FinSight.ReadCommitted.Interleaving

/-!
# The ledger tables under arbitrary SQL (`drizzle/0007_…`, `drizzle/0014_…`)

What the triggers allow, whatever program writes to `journal_entries` and `entry_lines`.

* `rejectEntryLinesMutation`, `rejectJournalEntriesMutation`, `checkEntryLinesBalance` : the trigger functions;
* `Dml` : an `INSERT`, `UPDATE` or `DELETE` on one of the two tables, `Session` : a transaction made of them, each
  chosen from what the session has read;
* `Session.program` : a statement picks its rows from a snapshot, and then takes them one by one: it waits for the
  row, looks at the newest version again, and runs the row's triggers.

Foreign keys and the other tables do not matter here.
-/

namespace FinSight.Raw

open ReadCommitted

/-- A change of one row, with the `OLD` and `NEW` of its triggers. -/
inductive RowChange (α : Type) where
  | insert (new : α)
  | update (old new : α)
  | delete (old : α)

def RowChange.tgOp {α : Type} : RowChange α → Text
  | .insert _ => text "INSERT"
  | .update _ _ => text "UPDATE"
  | .delete _ => text "DELETE"

/-- The table after the change; `id` is the primary key. -/
def RowChange.apply {α : Type} (id : α → Uuid) (rows : List α) : RowChange α → List α
  | .insert new => rows ++ [new]
  | .update old new => rows.map fun r => if id r = id old then new else r
  | .delete old => rows.filter fun r => id r ≠ id old

structure Tables where
  entries : List JournalEntry
  lines : List EntryLine
  deriving DecidableEq

inductive Write where
  | entry (change : RowChange JournalEntry)
  | line (change : RowChange EntryLine)

inductive Lock where
  | entry (id : Uuid)
  | entryKey (tenantId : Uuid) (idempotencyKey : Text)
  | line (id : Uuid)
  deriving DecidableEq

inductive Error where
  /-- `RAISE EXCEPTION … USING ERRCODE = 'check_violation'`. -/
  | raised (message : Text)
  | sql (state : SqlState)
  deriving DecidableEq

/-! ## Triggers -/

/-- `BEFORE UPDATE OR DELETE ON entry_lines`. -/
def rejectEntryLinesMutation : RowChange EntryLine → Option Error
  | .insert _ => none
  | change => some (.raised (text "entry_lines is append-only: " ++ change.tgOp ++ text " is not allowed"))

/-- `BEFORE UPDATE OR DELETE ON journal_entries`. -/
def rejectJournalEntriesMutation : RowChange JournalEntry → Option Error
  | .insert _ => none
  | .delete _ => some (.raised (text "journal_entries is append-only: DELETE is not allowed"))
  | .update old new =>
      if old.reversedByEntryId ≠ none then
        some (.raised (text "journal_entries.reversed_by_entry_id can only be set once"))
      else if new.reversedByEntryId = none ∨ new.id ≠ old.id ∨ new.tenantId ≠ old.tenantId ∨
          new.description ≠ old.description ∨ new.occurredAt ≠ old.occurredAt ∨ new.createdAt ≠ old.createdAt ∨
          new.idempotencyKey ≠ old.idempotencyKey ∨ new.requestFingerprint ≠ old.requestFingerprint then
        some (.raised (text "journal_entries rows are append-only except for setting reversed_by_entry_id once"))
      else none

/-- `COALESCE(NEW.entry_id, OLD.entry_id)`. -/
def changedEntry : RowChange EntryLine → Uuid
  | .insert new => new.entryId
  | .update _ new => new.entryId
  | .delete old => old.entryId

/-- `AFTER INSERT OR UPDATE OR DELETE ON entry_lines`, deferred. -/
def checkEntryLinesBalance (tables : Tables) (change : RowChange EntryLine) : Option Error :=
  let entryId := changedEntry change
  let sum := entrySum tables.lines entryId
  if sum ≠ 0 then
    some (.raised (text "entry_lines for entry_id " ++ entryId.text ++ text " do not balance to zero (sum = " ++
      decimalInt sum ++ text ")"))
  else none

def Tables.apply (tables : Tables) : Write → Tables
  | .entry change => { tables with entries := change.apply (·.id) tables.entries }
  | .line change => { tables with lines := change.apply (·.id) tables.lines }

/-- At commit, the deferred trigger runs once for every changed line. -/
def deferred (tables : Tables) (log : List Write) : Option Error :=
  log.findSome? fun
    | .entry _ => none
    | .line change => checkEntryLinesBalance tables change

def engine : Engine Tables Write Error := ⟨Tables.apply, deferred⟩

@[simp] theorem engine_apply (tables : Tables) (w : Write) : engine.apply tables w = tables.apply w := rfl

abbrev Stmt (α : Type) := Statement Tables Write Lock Error Unit α

abbrev Tx (α : Type) := Program Tables Write Lock Error Unit α

/-! ## One row at a time -/

/-- What an `INSERT` does where a key is taken: an error, or nothing (`ON CONFLICT DO NOTHING`). -/
def onConflict (doNothing : Bool) (keys : List Lock) : Reply Write Lock Error Unit :=
  if doNothing then .done () [] [] keys else .error (.sql .uniqueViolation)

def insertEntry (doNothing : Bool) (row : JournalEntry) : Stmt Unit := fun _ tables =>
  let keys : List Lock := [.entry row.id, .entryKey row.tenantId row.idempotencyKey]
  if tables.entries.any fun e =>
      e.id = row.id || (e.tenantId = row.tenantId && e.idempotencyKey = row.idempotencyKey) then
    onConflict doNothing keys
  else .done () [.entry (.insert row)] keys []

def insertLine (doNothing : Bool) (row : EntryLine) : Stmt Unit := fun _ tables =>
  if tables.lines.any fun l => l.id = row.id then onConflict doNothing [.line row.id]
  else .done () [.line (.insert row)] [.line row.id] []

/-- Wait for a row, and lock it. -/
def lockRow (ℓ : Lock) : Stmt Unit := fun _ _ => .done () [] [ℓ] []

/-- Change the newest version of a row, if it still qualifies. -/
def changeEntry (id : Uuid) (change : JournalEntry → Option (RowChange JournalEntry)) : Stmt Unit := fun _ tables =>
  match (tables.entries.find? fun e => e.id = id).bind change with
  | none => .done () [] [] []
  | some c =>
      match rejectJournalEntriesMutation c with
      | some e => .error e
      | none => .done () [.entry c] [] []

def changeLine (id : Uuid) (change : EntryLine → Option (RowChange EntryLine)) : Stmt Unit := fun _ tables =>
  match (tables.lines.find? fun l => l.id = id).bind change with
  | none => .done () [] [] []
  | some c =>
      match rejectEntryLinesMutation c with
      | some e => .error e
      | none => .done () [.line c] [] []

/-! ## Statements and sessions -/

/-- A statement on one of the tables: its rows, or its `WHERE` and `SET`. -/
inductive Dml where
  | insertEntries (doNothing : Bool) (rows : List JournalEntry)
  | updateEntries (condition : JournalEntry → Bool) (set : JournalEntry → JournalEntry)
  | deleteEntries (condition : JournalEntry → Bool)
  | insertLines (doNothing : Bool) (rows : List EntryLine)
  | updateLines (condition : EntryLine → Bool) (set : EntryLine → EntryLine)
  | deleteLines (condition : EntryLine → Bool)

/-- What a statement does, row by row, to the rows it found in `snapshot`. -/
def Dml.rows (snapshot : Tables) : Dml → List (Tx Unit)
  | .insertEntries doNothing rows => rows.map fun row => Program.statement (insertEntry doNothing row)
  | .updateEntries condition set => (snapshot.entries.filter condition).map fun row => do
      Program.statement (lockRow (.entry row.id))
      Program.statement (changeEntry row.id fun old => if condition old then some (.update old (set old)) else none)
  | .deleteEntries condition => (snapshot.entries.filter condition).map fun row => do
      Program.statement (lockRow (.entry row.id))
      Program.statement (changeEntry row.id fun old => if condition old then some (.delete old) else none)
  | .insertLines doNothing rows => rows.map fun row => Program.statement (insertLine doNothing row)
  | .updateLines condition set => (snapshot.lines.filter condition).map fun row => do
      Program.statement (lockRow (.line row.id))
      Program.statement (changeLine row.id fun old => if condition old then some (.update old (set old)) else none)
  | .deleteLines condition => (snapshot.lines.filter condition).map fun row => do
      Program.statement (lockRow (.line row.id))
      Program.statement (changeLine row.id fun old => if condition old then some (.delete old) else none)

def inOrder : List (Tx Unit) → Tx Unit
  | [] => return ()
  | p :: ps => do
      p
      inOrder ps

/-- A transaction: statement after statement, each depending on all that was read before. -/
inductive Session where
  | commit
  | execute (statement : Tables → Dml) (next : Tables → Session)

def snapshot : Stmt Tables := fun _ tables => .done tables [] [] []

def Session.program : Session → Tx Unit
  | .commit => return ()
  | .execute statement next => do
      let tables ← Program.statement snapshot
      inOrder ((statement tables).rows tables)
      (next tables).program

abbrev Sys := System Tables Write Lock Error Unit Session Unit

abbrev Event := Label Session Unit

def init : Sys := ⟨⟨[], []⟩, 0, []⟩

/-- Any number of sessions, in any interleaving. -/
abbrev Reaches (s : Sys) : Prop := System.Reachable engine Session.program (fun _ _ => True) init s

end FinSight.Raw
