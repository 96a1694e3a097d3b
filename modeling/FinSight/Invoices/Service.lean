import FinSight.Invoices.State
import FinSight.Ledger.Service

/-!
# Invoices (`src/modules/invoices/invoice.service.js`)

The service functions as programs. What they read from the clock with `new Date()` is an argument, and so is
SHA-256. Invoice ids are the raw `:id` of the path; account ids have passed the request schemas.
-/

namespace FinSight

open ReadCommitted Sql

def invalidInvoice : AppError := ⟨text "Invoice must have atleast one item", 422, text "INVALID_INVOICE"⟩

def notFound : AppError := ⟨text "Invoice not found", 404, text "NOT_FOUND"⟩

def invalidAccountType : AppError :=
  ⟨text "The receivable account must be an ASSET and the revenue account a REVENUE account", 422,
    text "INVALID_ACCOUNT_TYPE"⟩

def issueCurrencyMismatch : AppError := currencyMismatch (text "Issue accounts must match the invoice currency")

def paymentCurrencyMismatch : AppError := currencyMismatch (text "Payment accounts must match the invoice currency")

def receivableMismatch : AppError :=
  ⟨text "Payment must credit the receivable account used when the invoice was issued", 422,
    text "RECEIVABLE_ACCOUNT_MISMATCH"⟩

def paymentExceedsRemaining : AppError :=
  ⟨text "Payment exceeds remaining invoice amount", 422, text "PAYMENT_EXCEEDS_REMAINING"⟩

def notPayable (status : InvoiceStatus) : AppError :=
  ⟨text "Cannot make payment on " ++ status.text ++ text " invoice", 422, text "NOT_PAYABLE"⟩

def invoiceHasPayments : AppError :=
  ⟨text "Cannot void an invoice that has payments recorded; issue a credit note instead", 422,
    text "INVOICE_HAS_PAYMENTS"⟩

/-- The plain error of an issue entry without a positive line. -/
def noReceivableLine (entryId invoiceId : Uuid) : Failure :=
  .error (text "Issue journal entry " ++ entryId.text ++ text " for invoice " ++ invoiceId.text ++
    text " has no receivable line")

/-! ## createInvoice -/

structure InvoiceRequest where
  tenantId : Uuid
  customerName : Text
  currency : Text
  dueDate : Date
  items : List ItemValues
  deriving DecidableEq

def invoiceTotal (items : List ItemValues) : Int := (items.map fun item => item.quantity * item.unitPriceMinor).sum

/-- ``INV-${String(sequence).padStart(6, "0")}``. -/
def invoiceNumber (sequence : Nat) : Text := text "INV-" ++ padStart 6 (decimal sequence)

def createInvoice (r : InvoiceRequest) : Tx Invoice :=
  if r.items = [] then .throw (.app invalidInvoice)
  else do
    let sequence ← Program.statement (nextSequence r.tenantId)
    let invoice ← Program.statement
      (insertInvoice ⟨r.tenantId, invoiceNumber sequence, sequence, r.customerName, r.currency, r.dueDate,
        invoiceTotal r.items⟩)
    Program.statement (insertItems invoice.id r.items)
    Program.statement (insertHistory invoice.id none .draft (text "Invoice created"))
    return invoice

/-! ## issueInvoice -/

structure IssueRequest where
  invoiceId : Text
  tenantId : Uuid
  receivableAccountId : UuidText
  revenueAccountId : UuidText
  issueDate : Reading
  deriving DecidableEq

def issueKey (invoiceId : Uuid) : Text := text "invoice-issue:" ++ invoiceId.text

/-- The entry that issuing posts: debit the receivable, credit revenue. -/
def issueData (invoice : Invoice) (receivable revenue : UuidText) (issueDate : Date) : EntryData where
  description := text "Invoice " ++ invoice.invoiceNumber ++ text " issued"
  occurredAt := issueDate
  lines := [⟨receivable, invoice.totalAmountMinor⟩, ⟨revenue, -invoice.totalAmountMinor⟩]
  twoLines := le_refl 2

section
variable (sha256 : Text → Text)

/-- Posting, and the invoice's new state. -/
def issueTx (r : IssueRequest) (invoice : Invoice) : Tx (Option Invoice) := do
  let result ← createJournalEntryTx sha256 r.tenantId (issueKey invoice.id)
    (issueData invoice r.receivableAccountId r.revenueAccountId r.issueDate.date)
  let now := r.issueDate.date.timestamp
  let updatedInvoice ← Program.statement
    (updateInvoice r.invoiceId r.tenantId fun _ => ⟨.issued, some now, some result.entry.id, now⟩)
  Program.statement (insertHistory invoice.id (some invoice.status) .issued (text "Invoice issued"))
  return updatedInvoice

def issueInvoice (r : IssueRequest) : Tx (Option Invoice) := do
  let invoice ← Program.statement (selectInvoiceForUpdate r.invoiceId r.tenantId)
  match invoice with
  | none => .throw (.app notFound)
  | some invoice =>
    if canTransition invoice.status .issued = false then .throw (.app (illegalTransition invoice.status .issued))
    else do
      let receivableAccount ← Program.statement (selectAccount r.receivableAccountId r.tenantId)
      let revenueAccount ← Program.statement (selectAccount r.revenueAccountId r.tenantId)
      match receivableAccount, revenueAccount with
      | some receivableAccount, some revenueAccount =>
        if receivableAccount.type ≠ .asset ∨ revenueAccount.type ≠ .revenue then .throw (.app invalidAccountType)
        else if receivableAccount.currency ≠ invoice.currency ∨ revenueAccount.currency ≠ invoice.currency then
          .throw (.app issueCurrencyMismatch)
        else issueTx sha256 r invoice
      | _, _ => .throw (.app invalidAccount)

/-! ## createInvoicePayment -/

structure PaymentRequest where
  invoiceId : Text
  tenantId : Uuid
  amountMinor : Int
  paidAt : Option Date
  bankAccountId : UuidText
  accountReceivableAccountId : UuidText
  idempotencyKey : IdempotencyKey
  /-- `new Date()` where the request has no `paidAt`. -/
  paidNow : Reading
  /-- `new Date()` of the invoice update. -/
  updatedAt : Reading
  deriving DecidableEq

/-- The object whose fingerprint identifies a payment request. -/
def PaymentRequest.toJs (r : PaymentRequest) : JsVal :=
  .obj [(text "invoiceId", .str r.invoiceId), (text "amountMinor", .bigint r.amountMinor),
    (text "paidAt", match r.paidAt with | some d => .date d | none => .undefined),
    (text "bankAccountId", .str r.bankAccountId.text),
    (text "accountReceivableAccountId", .str r.accountReceivableAccountId.text)]

def PaymentRequest.effectivePaidAt (r : PaymentRequest) : Date := r.paidAt.getD r.paidNow.date

def paymentKey (paymentId : Uuid) : Text := text "payment: " ++ paymentId.text

/-- The entry of a payment: debit the bank account, credit the receivable. -/
def paymentData (r : PaymentRequest) (invoice : Invoice) : EntryData where
  description := text "Payment for invoice " ++ invoice.invoiceNumber
  occurredAt := r.effectivePaidAt
  lines := [⟨r.bankAccountId, r.amountMinor⟩, ⟨r.accountReceivableAccountId, -r.amountMinor⟩]
  twoLines := le_refl 2

structure PaymentResult where
  payment : Option InvoicePayment
  invoice : Option Invoice
  journalEntry : Option JournalEntry
  replayed : Bool
  deriving DecidableEq

def replayPayment (tenantId : Uuid) (idempotencyKey requestFingerprint : Text) : Tx PaymentResult := do
  let existing ← Program.statement (selectPaymentByKey tenantId idempotencyKey)
  match existing with
  | none => .throw undefinedRow
  | some existing =>
    if existing.requestFingerprint ≠ requestFingerprint then .throw (.app idempotencyKeyReused)
    else do
      let invoice ← Program.statement (selectInvoiceById existing.invoiceId)
      match existing.journalEntryId with
      | some entryId => do
          let journalEntry ← Program.statement (selectEntry entryId)
          return ⟨some existing, invoice, journalEntry, true⟩
      | none => return ⟨some existing, invoice, none, true⟩

/-- The payment must credit the account that the issue entry debited. -/
def checkReceivable (r : PaymentRequest) (invoice : Invoice) : Tx Unit :=
  match invoice.issueJournalEntryId with
  | none => return ()
  | some entryId => do
      let issueLine ← Program.statement (selectIssueLine entryId r.tenantId)
      match issueLine with
      | none => .throw (noReceivableLine entryId invoice.id)
      | some issueLine =>
        if issueLine.accountId.spelled ≠ r.accountReceivableAccountId then .throw (.app receivableMismatch)
        else return ()

/-- Posting, and the invoice's new state. -/
def settleTx (r : PaymentRequest) (invoice : Invoice) (payment : InvoicePayment) (targetStatus : InvoiceStatus) :
    Tx PaymentResult := do
  let result ← createJournalEntryTx sha256 r.tenantId (paymentKey payment.id) (paymentData r invoice)
  let linkedPayment ← Program.statement (linkPayment payment.id result.entry.id)
  if targetStatus ≠ invoice.status then
    Program.statement (insertHistory invoice.id (some invoice.status) targetStatus (text "Payment received"))
  let updatedInvoice ← Program.statement (updateInvoice r.invoiceId r.tenantId fun s =>
    { s with status := targetStatus, updatedAt := r.updatedAt.date.timestamp })
  return ⟨linkedPayment, updatedInvoice, some result.entry, false⟩

/-- What follows once the payment row is in. -/
def payTx (r : PaymentRequest) (invoice : Invoice) (payment : InvoicePayment) : Tx PaymentResult := do
  let bankAccount ← Program.statement (selectAccount r.bankAccountId r.tenantId)
  let receivableAccount ← Program.statement (selectAccount r.accountReceivableAccountId r.tenantId)
  match bankAccount, receivableAccount with
  | some bankAccount, some receivableAccount =>
    if bankAccount.currency ≠ invoice.currency ∨ receivableAccount.currency ≠ invoice.currency then
      .throw (.app paymentCurrencyMismatch)
    else do
      checkReceivable r invoice
      let allPayments ← Program.statement (selectPayments r.invoiceId)
      let paidAmountMinor := (allPayments.map (·.amountMinor)).sum
      if invoice.totalAmountMinor < paidAmountMinor then .throw (.app paymentExceedsRemaining)
      else
        let targetStatus := if paidAmountMinor = invoice.totalAmountMinor then .paid else .partiallyPaid
        if canTransition invoice.status targetStatus = false then .throw (.app (notPayable invoice.status))
        else settleTx sha256 r invoice payment targetStatus
  | _, _ => .throw (.app invalidAccount)

def createInvoicePayment (r : PaymentRequest) : Tx PaymentResult := do
  let invoice ← Program.statement (selectInvoiceForUpdate r.invoiceId r.tenantId)
  match invoice with
  | none => .throw (.app notFound)
  | some invoice => do
      let requestFingerprint := fingerprint sha256 r.toJs
      let payment ← Program.statement (insertPayment
        ⟨r.invoiceId, r.tenantId, r.amountMinor, r.effectivePaidAt, r.idempotencyKey.text, requestFingerprint⟩)
      match payment with
      | none => replayPayment r.tenantId r.idempotencyKey.text requestFingerprint
      | some payment => payTx sha256 r invoice payment

end

/-! ## voidInvoice, markOverdueInvoices -/

structure VoidRequest where
  invoiceId : Text
  tenantId : Uuid
  updatedAt : Reading
  deriving DecidableEq

def voidInvoice (r : VoidRequest) : Tx (Option Invoice) := do
  let invoice ← Program.statement (selectInvoiceForUpdate r.invoiceId r.tenantId)
  match invoice with
  | none => .throw (.app notFound)
  | some invoice =>
    if canTransition invoice.status .void = false then .throw (.app (illegalTransition invoice.status .void))
    else do
      let payments ← Program.statement (selectPayments r.invoiceId)
      if 0 < (payments.map (·.amountMinor)).sum then .throw (.app invoiceHasPayments)
      else do
        let updatedInvoice ← Program.statement (updateInvoice r.invoiceId r.tenantId fun s =>
          { s with status := .void, updatedAt := r.updatedAt.date.timestamp })
        Program.statement (insertHistory invoice.id (some invoice.status) .void (text "Invoice voided"))
        return updatedInvoice

def overdueSources : List InvoiceStatus := statusThatCanReach .overdue

/-- The loop over the candidates: the condition is checked again by each update, the status that goes into the
history is the one the first query saw. -/
def markOverdueLoop (now : Timestamp) : List Invoice → List Invoice → Tx (List Invoice)
  | [], updatedInvoices => return updatedInvoices
  | invoice :: rest, updatedInvoices => do
      let updatedInvoice ← Program.statement (updateInvoices
        (fun i => i.id = invoice.id && overdueSources.contains i.status)
        fun s => { s with status := .overdue, updatedAt := now })
      match updatedInvoice with
      | none => markOverdueLoop now rest updatedInvoices
      | some updatedInvoice => do
          Program.statement (insertHistory invoice.id (some invoice.status) .overdue (text "Invoice due date passed"))
          markOverdueLoop now rest (updatedInvoices ++ [updatedInvoice])

def markOverdueInvoices (now : Reading) : Tx (List Invoice) := do
  let overdueCandidates ← Program.statement (selectOverdueCandidates overdueSources now.date.timestamp)
  markOverdueLoop now.date.timestamp overdueCandidates []

/-! ## getInvoice -/

structure InvoiceView where
  invoice : Invoice
  paidAmountMinor : Text
  outstandingMinor : Text
  items : List (InvoiceItem × Text)
  payments : List InvoicePayment
  statusHistory : List StatusHistory
  deriving DecidableEq

/-- Reads only, each statement on its own. -/
def getInvoice (tenantId : Uuid) (invoiceId : Text) : Tx InvoiceView := do
  let invoice ← Program.statement (selectInvoice invoiceId tenantId)
  match invoice with
  | none => .throw (.app notFound)
  | some invoice => do
      let items ← Program.statement (selectItems invoiceId)
      let payments ← Program.statement (selectPaymentsByCreation invoiceId)
      let history ← Program.statement (selectHistory invoiceId)
      let paid := (payments.map (·.amountMinor)).sum
      return {
        invoice
        paidAmountMinor := decimalInt paid
        outstandingMinor := decimalInt (invoice.totalAmountMinor - paid)
        items := items.map fun i => (i, decimalInt (i.unitPriceMinor * i.quantity))
        payments
        statusHistory := history }

end FinSight
