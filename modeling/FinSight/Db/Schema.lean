import FinSight.Db.Types
import FinSight.ReadCommitted.Program

/-!
# The database (`src/infrastructure/db/schema.js`, `drizzle/`)

* one structure per table row, one list per table, rows in the order their inserts committed;
* `Write`, `Db.apply` : the entries of a redo log;
* `Lock` : row locks and entries of unique indexes;
* `deferred` : the constraint trigger of migration 0007.

Tenants, users and memberships are in `FinSight.Identity`, the document tables in `FinSight.Documents`.
-/

namespace FinSight

inductive AccountType where
  | asset | liability | equity | revenue | expense
  deriving DecidableEq, Repr

inductive InvoiceStatus where
  | draft | issued | partiallyPaid | paid | overdue | void
  deriving DecidableEq, Repr

structure Account where
  id : Uuid
  tenantId : Uuid
  name : Text
  type : AccountType
  currency : Text
  createdAt : Timestamp
  deriving DecidableEq

structure JournalEntry where
  id : Uuid
  tenantId : Uuid
  description : Text
  occurredAt : Timestamp
  createdAt : Timestamp
  idempotencyKey : Text
  requestFingerprint : Text
  reversedByEntryId : Option Uuid
  deriving DecidableEq

structure EntryLine where
  id : Uuid
  entryId : Uuid
  accountId : Uuid
  tenantId : Uuid
  amountMinor : Int
  createdAt : Timestamp
  deriving DecidableEq

structure Invoice where
  id : Uuid
  tenantId : Uuid
  invoiceNumber : Text
  sequenceNumber : Nat
  customerName : Text
  status : InvoiceStatus
  currency : Text
  issueDate : Option Timestamp
  dueDate : Option Timestamp
  totalAmountMinor : Int
  issueJournalEntryId : Option Uuid
  createdAt : Timestamp
  updatedAt : Timestamp
  deriving DecidableEq

structure InvoiceItem where
  id : Uuid
  invoiceId : Uuid
  description : Text
  quantity : Int
  unitPriceMinor : Int
  createdAt : Timestamp
  deriving DecidableEq

structure InvoicePayment where
  id : Uuid
  invoiceId : Uuid
  amountMinor : Int
  paidAt : Timestamp
  journalEntryId : Option Uuid
  createdAt : Timestamp
  tenantId : Uuid
  idempotencyKey : Text
  requestFingerprint : Text
  deriving DecidableEq

structure StatusHistory where
  id : Uuid
  invoiceId : Uuid
  fromStatus : Option InvoiceStatus
  toStatus : InvoiceStatus
  changedAt : Timestamp
  reason : Text
  deriving DecidableEq

structure InvoiceSequence where
  tenantId : Uuid
  lastValue : Nat
  updatedAt : Timestamp
  deriving DecidableEq

structure Db where
  accounts : List Account
  entries : List JournalEntry
  lines : List EntryLine
  invoices : List Invoice
  items : List InvoiceItem
  payments : List InvoicePayment
  history : List StatusHistory
  sequences : List InvoiceSequence
  deriving DecidableEq

def Db.empty : Db := ⟨[], [], [], [], [], [], [], []⟩

/-! ## Redo logs -/

/-- The columns of an invoice that its updates set. -/
structure InvoiceState where
  status : InvoiceStatus
  issueDate : Option Timestamp
  issueJournalEntryId : Option Uuid
  updatedAt : Timestamp
  deriving DecidableEq

def Invoice.state (i : Invoice) : InvoiceState := ⟨i.status, i.issueDate, i.issueJournalEntryId, i.updatedAt⟩

def Invoice.set (i : Invoice) (s : InvoiceState) : Invoice :=
  { i with
    status := s.status
    issueDate := s.issueDate
    issueJournalEntryId := s.issueJournalEntryId
    updatedAt := s.updatedAt }

inductive Write where
  | account (row : Account)
  | entry (row : JournalEntry)
  | line (row : EntryLine)
  | invoice (row : Invoice)
  | item (row : InvoiceItem)
  | payment (row : InvoicePayment)
  | history (row : StatusHistory)
  | sequence (row : InvoiceSequence)
  | updateInvoice (id : Uuid) (state : InvoiceState)
  | linkPayment (id : Uuid) (journalEntryId : Uuid)
  deriving DecidableEq

/-- A row of `invoice_sequences` replaces the tenant's row. -/
def upsertSequence (row : InvoiceSequence) (rows : List InvoiceSequence) : List InvoiceSequence :=
  if rows.any fun r => r.tenantId = row.tenantId
  then rows.map fun r => if r.tenantId = row.tenantId then row else r
  else rows ++ [row]

def Db.apply (db : Db) : Write → Db
  | .account row => { db with accounts := db.accounts ++ [row] }
  | .entry row => { db with entries := db.entries ++ [row] }
  | .line row => { db with lines := db.lines ++ [row] }
  | .invoice row => { db with invoices := db.invoices ++ [row] }
  | .item row => { db with items := db.items ++ [row] }
  | .payment row => { db with payments := db.payments ++ [row] }
  | .history row => { db with history := db.history ++ [row] }
  | .sequence row => { db with sequences := upsertSequence row db.sequences }
  | .updateInvoice id state =>
      { db with invoices := db.invoices.map fun i => if i.id = id then i.set state else i }
  | .linkPayment id entryId =>
      { db with payments := db.payments.map fun p =>
          if p.id = id then { p with journalEntryId := some entryId } else p }

/-! ## Errors -/

/-- SQLSTATE classes of the errors the statements meet. -/
inductive SqlState where
  /-- 22P02 -/
  | invalidTextRepresentation
  /-- 22021 -/
  | characterNotInRepertoire
  /-- 22003 -/
  | numericValueOutOfRange
  /-- 22007, 22008 -/
  | datetime
  /-- 22001 -/
  | stringDataRightTruncation
  /-- 23514 -/
  | checkViolation
  /-- 23505 -/
  | uniqueViolation
  deriving DecidableEq, Repr

/-- `src/lib/AppError.js`. -/
structure AppError where
  message : Text
  status : Nat
  code : Text
  deriving DecidableEq

inductive Failure where
  | app (e : AppError)
  | sql (s : SqlState)
  | error (message : Text)
  deriving DecidableEq

/-! ## Locks and the engine -/

inductive Lock where
  | account (id : Uuid)
  | accountName (tenantId : Uuid) (name : Text)
  | entry (id : Uuid)
  | entryKey (tenantId : Uuid) (idempotencyKey : Text)
  | line (id : Uuid)
  | invoice (id : Uuid)
  | invoiceNumber (tenantId : Uuid) (invoiceNumber : Text)
  | sequenceNumber (tenantId : Uuid) (sequenceNumber : Nat)
  | item (id : Uuid)
  | payment (id : Uuid)
  | paymentKey (tenantId : Uuid) (idempotencyKey : Text)
  | history (id : Uuid)
  | sequence (tenantId : Uuid)
  deriving DecidableEq

/-- The amounts of the lines of one entry. -/
def entrySum (lines : List EntryLine) (entryId : Uuid) : Int :=
  ((lines.filter fun l => l.entryId = entryId).map (·.amountMinor)).sum

/-- `check_entry_lines_balance`, for every line the transaction inserted. -/
def deferred (db : Db) (log : List Write) : Option Failure :=
  if log.any fun
    | .line row => entrySum db.lines row.entryId ≠ 0
    | _ => false
  then some (.sql .checkViolation) else none

def engine : ReadCommitted.Engine Db Write Failure := ⟨Db.apply, deferred⟩

@[simp] theorem engine_apply (db : Db) (w : Write) : engine.apply db w = db.apply w := rfl

/-- What the database chooses for a statement: generated uuids, and the order of rows. -/
structure Choice where
  fresh : Nat → Uuid
  order : List Nat

abbrev Stmt (α : Type) := ReadCommitted.Statement Db Write Lock Failure Choice α

/-- A service function, inside `db.transaction`. -/
abbrev Tx (α : Type) := ReadCommitted.Program Db Write Lock Failure Choice α

end FinSight
