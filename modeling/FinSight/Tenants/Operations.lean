import FinSight.Documents.Machine
import FinSight.ReadCommitted.Product
import FinSight.ReadCommitted.Sessions
import FinSight.Tenants.Documents
import FinSight.Tenants.Services

/-!
# All operations of the tenants

The operations on accounts, ledger, invoices and documents, side by side: any number of clients, each with one operation,
whose transactions run against the ledger tables and the document tables under one clock. What comes from outside (the
queue, random uuids, PDF extraction, the tokenizer, the embedding model) is answered to each client by itself.

* `Transaction`, `program` : the transactions, `Transaction.tenantId` : for whom;
* `Operation`, `Progress`, `behaviour` : what a client does with their answers;
* `confined_program`, `loyal` : each transaction is confined to its tenant, and clients begin no others.
-/

namespace FinSight.Tenants

open ReadCommitted Documents

/-- What the operations are given from outside the repository. -/
structure Environment where
  sha256 : Text → Text
  digest : List UInt8 → Text
  collation : Collation
  buffers : Buffers
  dates : DateParser
  zone : Zone
  pgvector : Pgvector
  describe : SqlState → Text

/-! ## Transactions -/

inductive LedgerCall where
  | createAccount (r : AccountRequest)
  | listAccounts (q : AccountQuery)
  | createJournalEntry (r : EntryRequest)
  | listEntries (q : EntryQuery)
  | getAccountBalance (tenantId : Uuid) (accountId : Text) (asOf : Option Date)
  | listAccountBalances (tenantId : Uuid) (asOf : Option Date)
  | createInvoice (r : InvoiceRequest)
  | issueInvoice (r : IssueRequest)
  | createInvoicePayment (r : PaymentRequest)
  | voidInvoice (r : VoidRequest)
  | listInvoices (q : InvoiceQuery)
  | getInvoice (tenantId : Uuid) (invoiceId : Text)

inductive DocumentRead where
  | listDocuments (q : DocumentQuery)
  | getDocumentFile (r : DocumentRequest)
  | searchChunks (r : SearchRequest)

inductive Transaction where
  | ledger (q : LedgerCall)
  | read (q : DocumentRead)
  | document (q : Documents.Request)

inductive Answer where
  | account (row : Account)
  | accounts (rows : List Account)
  | entry (result : EntryResult)
  | entries (page : ListResult EntryView)
  | balance (balance : AccountBalanceAt)
  | balances (balances : List AccountBalance)
  | invoice (row : Option Invoice)
  | payment (result : PaymentResult)
  | invoices (page : ListResult InvoiceRow)
  | invoiceView (view : InvoiceView)
  | documents (page : ListResult DocumentRow)
  | file (file : StoredFile)
  | hits (hits : List (Hit × Option Rat))
  | response (response : Documents.Response)
  | reply (reply : Documents.Reply)
  | marked

def LedgerCall.tenantId : LedgerCall → Uuid
  | .createAccount r => r.tenantId
  | .listAccounts q => q.tenantId
  | .createJournalEntry r => r.tenantId
  | .listEntries q => q.tenantId
  | .getAccountBalance tenantId _ _ | .listAccountBalances tenantId _ | .getInvoice tenantId _ => tenantId
  | .createInvoice r => r.tenantId
  | .issueInvoice r => r.tenantId
  | .createInvoicePayment r => r.tenantId
  | .voidInvoice r => r.tenantId
  | .listInvoices q => q.tenantId

def DocumentRead.tenantId : DocumentRead → Uuid
  | .listDocuments q => q.tenantId
  | .getDocumentFile r => r.tenantId
  | .searchChunks r => r.tenantId

def Transaction.tenantId : Transaction → Uuid
  | .ledger q => q.tenantId
  | .read q => q.tenantId
  | .document q => q.tenantId

/-- The ledger tables and the document tables. -/
abbrev Tables := FinSight.Db × Documents.Db

abbrev Writes := FinSight.Write ⊕ Documents.Write

abbrev Locks := FinSight.Lock ⊕ Documents.Lock

section
variable (env : Environment)

def ledgerProgram : LedgerCall → FinSight.Tx Answer
  | .createAccount r => do return .account (← createAccount r)
  | .listAccounts q => do return .accounts (← listAccounts env.collation q)
  | .createJournalEntry r => do
      return .entry (← createJournalEntry env.sha256 r.tenantId r.idempotencyKey r.data)
  | .listEntries q => do return .entries (← listEntries env.buffers env.dates q)
  | .getAccountBalance tenantId accountId asOf => do return .balance (← getAccountBalance tenantId accountId asOf)
  | .listAccountBalances tenantId asOf => do
      return .balances (← Program.statement (selectAccountBalances env.collation tenantId asOf))
  | .createInvoice r => do return .invoice (some (← createInvoice r))
  | .issueInvoice r => do return .invoice (← issueInvoice env.sha256 r)
  | .createInvoicePayment r => do return .payment (← createInvoicePayment env.sha256 r)
  | .voidInvoice r => do return .invoice (← voidInvoice r)
  | .listInvoices q => do return .invoices (← listInvoices env.buffers q)
  | .getInvoice tenantId invoiceId => do return .invoiceView (← getInvoice tenantId invoiceId)

def readProgram : DocumentRead → Documents.Tx Answer
  | .listDocuments q => do return .documents (← listDocuments env.buffers env.zone q)
  | .getDocumentFile r => do return .file (← getDocumentFile r)
  | .searchChunks r => do return .hits (← searchChunks env.pgvector r)

def program : Transaction → Program Tables Writes Locks Failure Choice Answer
  | .ledger q => (ledgerProgram env q).left
  | .read q => (readProgram env q).right
  | .document q => (do return .response (← Documents.program env.digest q) : Documents.Tx Answer).right

end

def engine : Engine Tables Writes Failure := FinSight.engine.prod Documents.engine

/-! ## Operations -/

inductive Operation where
  | ledger (q : LedgerCall)
  | read (q : DocumentRead)
  | request (c : ClientRequest)
  | ingest (r : DocumentRequest)
  | markFailed (r : DocumentRequest) (error : Thrown)
  /-- An attempt of a job: ingestion, and what its failure leads to. -/
  | process (data : DocumentRequest) (attemptsMade attempts : Nat)

def Operation.tenantId : Operation → Uuid
  | .ledger q => q.tenantId
  | .read q => q.tenantId
  | .request c => c.request.tenantId
  | .ingest r | .markFailed r _ | .process r _ _ => r.tenantId

/-- Where an operation is: it has one transaction to make, or a service to go on with. -/
inductive Progress where
  | begins (q : Transaction)
  | service (p : Service Answer)

/-- Answers from outside. -/
inductive Outside where
  | enqueue (result : Except Thrown Unit)
  | randomUuid (u : Uuid)
  | extract (result : Except Thrown (List Ingest.Page))
  | tokenCounter (result : Except Thrown (Text → Nat))
  | embed (result : Except Thrown (List Embedding))

def Answer.toResponse : Answer → Except Thrown Documents.Response
  | .response r => .ok r
  | _ => .error (.failure (.error (text "answer to another request")))

def Operation.start (env : Environment) : Operation → Progress
  | .ledger q => .begins (.ledger q)
  | .read q => .begins (.read q)
  | .request c => .service do return .reply (← c.service)
  | .ingest r => .service do return .reply (.ingested (← Service.ingestDocument r))
  | .markFailed r error => .service do
      Service.markDocumentsFailed env.describe r error
      return .marked
  | .process data attemptsMade attempts => .service do
      return .reply (.ingested (← Service.processDocumentJob env.describe data attemptsMade attempts))

def Progress.transaction : Progress → Option (Transaction × (Except Thrown Answer → Progress))
  | .begins q => some (q, fun r => .service (.answer r))
  | .service (.transact q next) => some (.document q, fun r => .service (next (r.bind Answer.toResponse)))
  | .service _ => none

def Progress.answer : Progress → Outside → Option Progress
  | .service (.enqueue _ _ next), .enqueue result => some (.service (next result))
  | .service (.randomUuid next), .randomUuid u => some (.service (next u))
  | .service (.extract _ next), .extract result => some (.service (next result))
  | .service (.tokenCounter next), .tokenCounter result => some (.service (next result))
  | .service (.embed _ next), .embed result => some (.service (next result))
  | _, _ => none

/-- The result of an operation that has ended. -/
def Progress.result : Progress → Option (Except Thrown Answer)
  | .service (.ret a) => some (.ok a)
  | .service (.throw e) => some (.error e)
  | _ => none

def behaviour (env : Environment) : Behaviour Failure Transaction Answer Operation Progress Thrown Outside where
  start := Operation.start env
  transaction := Progress.transaction
  answer := Progress.answer
  thrown := .failure

abbrev Sys := Sessions Tables Writes Locks Failure Choice Transaction Answer Operation Progress Thrown

abbrev Event := ReadCommitted.Move Operation Transaction Choice Thrown Outside

def init : Sys := ⟨⟨(FinSight.Db.empty, Documents.Db.empty), 0, []⟩, []⟩

def run (env : Environment) (events : List Event) : Option Sys :=
  Sessions.run engine (program env) (behaviour env) init events

/-! ## Each tenant by itself -/

variable {issuer : Uuid → Uuid} {env : Environment}

def division (issuer : Uuid → Uuid) : Division engine Choice Uuid :=
  (FinSight.division issuer).prod (Documents.division issuer)

theorem confined_ledgerProgram (q : LedgerCall) :
    (ledgerProgram env q).Confined (FinSight.division issuer) q.tenantId fun _ => True := by
  cases q with
  | createAccount r => exact (confined_createAccount r).bind fun _ _ => trivial
  | listAccounts q => exact (confined_listAccounts _ q).bind fun _ _ => trivial
  | createJournalEntry r => exact (confined_createJournalEntry _ _ _).bind fun _ _ => trivial
  | listEntries q => exact (confined_listEntries _ _ q).bind fun _ _ => trivial
  | getAccountBalance tenantId accountId asOf => exact (confined_getAccountBalance _ _).bind fun _ _ => trivial
  | listAccountBalances tenantId asOf =>
      exact Program.Confined.statement (confines_selectAccountBalances _ _) fun _ _ => trivial
  | createInvoice r => exact (confined_createInvoice r).bind fun _ _ => trivial
  | issueInvoice r => exact (confined_issueInvoice _ r).bind fun _ _ => trivial
  | createInvoicePayment r => exact (confined_createInvoicePayment _ r).bind fun _ _ => trivial
  | voidInvoice r => exact (confined_voidInvoice r).bind fun _ _ => trivial
  | listInvoices q => exact (confined_listInvoices _ q).bind fun _ _ => trivial
  | getInvoice tenantId invoiceId => exact (confined_getInvoice invoiceId).bind fun _ _ => trivial

theorem confined_readProgram (q : DocumentRead) :
    (readProgram env q).Confined (Documents.division issuer) q.tenantId fun _ => True := by
  cases q with
  | listDocuments q => exact (confined_listDocuments _ _ q).bind fun _ _ => trivial
  | getDocumentFile r => exact (confined_getDocumentFile r).bind fun _ _ => trivial
  | searchChunks r => exact (confined_searchChunks _ r).bind fun _ _ => trivial

theorem confined_program (q : Transaction) : (program env q).Confined (division issuer) q.tenantId fun _ => True := by
  cases q with
  | ledger q => exact (confined_ledgerProgram q).left
  | read q => exact (confined_readProgram q).right
  | document q => exact Program.Confined.right ((Documents.confined_program env.digest q).bind fun _ _ => trivial)

/-- All that a client may still begin is its tenant's. -/
def Progress.Of (t : Uuid) : Progress → Prop
  | .begins q => q.tenantId = t
  | .service p => p.Every fun q => q.tenantId = t

theorem loyal : (behaviour env).Loyal Operation.tenantId Transaction.tenantId Progress.Of where
  start op := by
    cases op with
    | ledger q => rfl
    | read q => rfl
    | request c => exact Service.Every.bind (every_service rfl) fun _ => trivial
    | ingest r => exact Service.Every.bind (every_ingestDocument rfl rfl fun w hw => congrArg DocumentRequest.tenantId hw) fun _ => trivial
    | markFailed r error => exact Service.Every.bind (Service.every_transaction rfl) fun _ => trivial
    | process data attemptsMade attempts =>
        refine Service.Every.bind (Service.Every.tryCatch ?_ fun e => every_attemptFailed rfl) fun _ => trivial
        exact every_ingestDocument rfl rfl fun w hw => congrArg DocumentRequest.tenantId hw
  transaction := by
    intro t p q next hp h
    cases p with
    | begins q₀ =>
        cases h
        exact ⟨hp, fun r => Service.every_answer r⟩
    | service p =>
        cases p with
        | transact q₀ next₀ =>
            cases h
            exact ⟨hp.1, fun r => hp.2 _⟩
        | ret _ | throw _ | enqueue _ _ _ | randomUuid _ | extract _ _ | tokenCounter _ | embed _ _ => cases h
  answer := by
    intro t p y p' hp h
    cases p with
    | begins q => cases h
    | service p =>
        cases p with
        | ret _ | throw _ | transact _ _ => cases h
        | enqueue _ _ next | randomUuid next | extract _ next | tokenCounter next | embed _ next =>
            cases y <;> cases h
            exact hp _

end FinSight.Tenants
