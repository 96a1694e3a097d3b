import FinSight.Db.Schema
import FinSight.ReadCommitted.Rules

/-!
# The statements of the services

One definition for each SQL statement, as Drizzle builds it. A statement answers from the transaction's view
of the database; `checked` lists what Postgres verifies before it writes. Inserts lock the entries they add to
unique indexes, updates and `FOR UPDATE` lock the row. `ON CONFLICT DO NOTHING` waits for whoever holds the key
and answers no row when the key is taken.
-/

namespace FinSight.Sql

open ReadCommitted

def firstFailure : List (Bool × SqlState) → Option SqlState
  | [] => none
  | (ok, state) :: rest => if ok then firstFailure rest else some state

/-- The reply, unless one of the checks fails; `fail` is the error of a failed check. -/
def checkedBy {W L E α : Type} (fail : SqlState → E) (checks : List (Bool × SqlState)) (reply : Reply W L E α) :
    Reply W L E α :=
  match firstFailure checks with
  | some state => .error (fail state)
  | none => reply

abbrev checked {W L α : Type} (checks : List (Bool × SqlState)) (reply : Reply W L Failure α) : Reply W L Failure α :=
  checkedBy .sql checks reply

theorem firstFailure_none {checks : List (Bool × SqlState)} (h : firstFailure checks = none) :
    ∀ c ∈ checks, c.1 = true := by
  induction checks with
  | nil => simp
  | cons c cs ih =>
      simp only [firstFailure] at h
      split at h
      · next hc => exact List.forall_mem_cons.mpr ⟨hc, ih h⟩
      · cases h

theorem firstFailure_of_all {checks : List (Bool × SqlState)} (h : ∀ c ∈ checks, c.1 = true) :
    firstFailure checks = none := by
  induction checks with
  | nil => rfl
  | cons c cs ih =>
      rw [List.forall_mem_cons] at h
      simp [firstFailure, h.1, ih h.2]

section
variable {W L E α : Type}

theorem checked_of_all {checks : List (Bool × SqlState)} (reply : Reply W L Failure α) (h : ∀ c ∈ checks, c.1 = true) :
    checked checks reply = reply := by
  rw [checked, checkedBy, firstFailure_of_all h]

theorem firstFailure_some {checks : List (Bool × SqlState)} {state : SqlState} (h : firstFailure checks = some state) :
    (false, state) ∈ checks := by
  induction checks with
  | nil => cases h
  | cons c cs ih =>
      obtain ⟨ok, s⟩ := c
      simp only [firstFailure] at h
      cases ok with
      | true => exact List.mem_cons_of_mem _ (ih h)
      | false =>
          cases h
          exact List.mem_cons_self

/-- A checked statement fails with the error of a check that fails, or passes all its checks. -/
theorem checkedBy_cases (fail : SqlState → E) (checks : List (Bool × SqlState)) (reply : Reply W L E α) :
    (∃ state, (false, state) ∈ checks ∧ checkedBy fail checks reply = .error (fail state)) ∨
      ((∀ c ∈ checks, c.1 = true) ∧ checkedBy fail checks reply = reply) := by
  cases h : firstFailure checks with
  | none => exact Or.inr ⟨firstFailure_none h, by rw [checkedBy, h]⟩
  | some state => exact Or.inl ⟨state, firstFailure_some h, by rw [checkedBy, h]⟩

theorem checked_cases (checks : List (Bool × SqlState)) (reply : Reply W L Failure α) :
    (∃ state, (false, state) ∈ checks ∧ checked checks reply = .error (.sql state)) ∨
      ((∀ c ∈ checks, c.1 = true) ∧ checked checks reply = reply) :=
  checkedBy_cases .sql checks reply

/-- A checked statement fails, or goes on as its reply does. -/
theorem continues_checked {Db C β : Type} {G : Engine Db W E} {P : Protocol Db L} {now : Nat} {fin : Db}
    {A : Program Db W L E C β → Db → Prop} {Q : β → Db → List W → List L → Prop} {F : E → List W → List L → Prop}
    {k : α → Program Db W L E C β} {db : Db} {log : List W} {locks : List L} {fail : SqlState → E}
    {checks : List (Bool × SqlState)} {reply : Reply W L E α}
    (hfail : ∀ state, (false, state) ∈ checks → F (fail state) log locks)
    (h : (∀ c ∈ checks, c.1 = true) → Continues G P now fin A Q F k db log locks reply) :
    Continues G P now fin A Q F k db log locks (checkedBy fail checks reply) := by
  rcases checkedBy_cases fail checks reply with ⟨state, hfails, heq⟩ | ⟨hall, heq⟩
  · rw [heq]
    exact hfail state hfails
  · rw [heq]
    exact h hall

/-- A checked statement that is done has passed its checks. -/
theorem done_of_checked {checks : List (Bool × SqlState)} {reply : Reply W L Failure α} {r : α} {ws : List W}
    {ls waits : List L} (h : checked checks reply = .done r ws ls waits) : reply = .done r ws ls waits := by
  rcases checked_cases checks reply with ⟨state, -, hfailed⟩ | ⟨-, hpassed⟩
  · rw [hfailed] at h
    cases h
  · rw [← hpassed]
    exact h

end

/-! ## accounts -/

def insertAccount (tenantId : Uuid) (name : Text) (type : AccountType) (currency : Text) : Stmt Account :=
  fun ctx db =>
    let row : Account := ⟨ctx.choice.fresh 0, tenantId, toWellFormed name, type, toWellFormed currency, ctx.now⟩
    checked
      [(nulFree name && nulFree currency, .characterNotInRepertoire),
        (row.currency.length ≤ 3, .stringDataRightTruncation), (isCurrency row.currency, .checkViolation),
        (db.accounts.all fun a => a.id ≠ row.id && !(a.tenantId = tenantId && a.name = row.name), .uniqueViolation)]
      (.done row [.account row] [.account row.id, .accountName tenantId row.name] [])

def selectAccount (id : UuidText) (tenantId : Uuid) : Stmt (Option Account) := fun _ db =>
  .done (db.accounts.find? fun a => a.id = id.uuid && a.tenantId = tenantId) [] [] []

/-- `WHERE tenant_id = … AND id IN (…)`. -/
def selectAccounts (tenantId : Uuid) (ids : List UuidText) : Stmt (List Account) := fun ctx db =>
  .done (shuffle ctx.choice.order
    (db.accounts.filter fun a => a.tenantId = tenantId && ids.any fun id => id.uuid = a.id)) [] [] []

/-! ## journal_entries, entry_lines -/

structure EntryValues where
  tenantId : Uuid
  description : Text
  occurredAt : Date
  idempotencyKey : Text
  requestFingerprint : Text

/-- `INSERT … ON CONFLICT (tenant_id, idempotency_key) DO NOTHING RETURNING *`. -/
def insertEntry (v : EntryValues) : Stmt (Option JournalEntry) := fun ctx db =>
  let row : JournalEntry :=
    { id := ctx.choice.fresh 0
      tenantId := v.tenantId
      description := toWellFormed v.description
      occurredAt := v.occurredAt.timestamp
      createdAt := ctx.now
      idempotencyKey := v.idempotencyKey
      requestFingerprint := v.requestFingerprint
      reversedByEntryId := none }
  checked [(nulFree v.description, .characterNotInRepertoire), (v.occurredAt.storable, .datetime)]
    (if db.entries.any fun e => e.tenantId = v.tenantId && e.idempotencyKey = v.idempotencyKey then
      .done none [] [] [.entryKey v.tenantId v.idempotencyKey]
    else
      checked [(db.entries.all fun e => e.id ≠ row.id, .uniqueViolation)]
        (.done (some row) [.entry row] [.entry row.id, .entryKey v.tenantId v.idempotencyKey] []))

def selectEntryByKey (tenantId : Uuid) (idempotencyKey : Text) : Stmt (Option JournalEntry) := fun _ db =>
  .done (db.entries.find? fun e => e.tenantId = tenantId && e.idempotencyKey = idempotencyKey) [] [] []

def selectEntry (id : Uuid) : Stmt (Option JournalEntry) := fun _ db =>
  .done (db.entries.find? fun e => e.id = id) [] [] []

def selectLines (entryId : Uuid) : Stmt (List EntryLine) := fun ctx db =>
  .done (shuffle ctx.choice.order (db.lines.filter fun l => l.entryId = entryId)) [] [] []

structure LineValues where
  entryId : Uuid
  tenantId : Uuid
  accountId : UuidText
  amountMinor : Int

/-- Generated ids of a statement's rows: distinct, and new to the table. -/
def freshIds {α : Type} (id : α → Uuid) (rows table : List α) : Bool :=
  decide (rows.map id).Nodup && rows.all fun r => table.all fun x => id x ≠ id r

def insertLines (values : List LineValues) : Stmt (List EntryLine) := fun ctx db =>
  let rows : List EntryLine := values.zipIdx.map fun (v, k) =>
    { id := ctx.choice.fresh k
      entryId := v.entryId
      accountId := v.accountId.uuid
      tenantId := v.tenantId
      amountMinor := v.amountMinor
      createdAt := ctx.now }
  checked [(rows.all fun l => inInt8 l.amountMinor, .numericValueOutOfRange),
      (freshIds (·.id) rows db.lines, .uniqueViolation)]
    (.done rows (rows.map .line) (rows.map fun l => .line l.id) [])

/-- The line of an issue entry that debits the receivable; nothing orders the rows. -/
def selectIssueLine (entryId tenantId : Uuid) : Stmt (Option EntryLine) := fun ctx db =>
  .done (shuffle ctx.choice.order
    (db.lines.filter fun l => l.entryId = entryId && l.tenantId = tenantId && decide (0 < l.amountMinor))).head?
    [] [] []

/-! ## invoice_sequences, invoices, invoice_items -/

/-- The upsert of `allocateInvoiceNumber`. -/
def nextSequence (tenantId : Uuid) : Stmt Nat := fun ctx db =>
  let row : InvoiceSequence :=
    match db.sequences.find? fun r => r.tenantId = tenantId with
    | none => ⟨tenantId, 1, ctx.now⟩
    | some r => ⟨tenantId, r.lastValue + 1, ctx.now⟩
  checked [(inInt8 row.lastValue, .numericValueOutOfRange)]
    (.done row.lastValue [.sequence row] [.sequence tenantId] [])

structure InvoiceValues where
  tenantId : Uuid
  invoiceNumber : Text
  sequenceNumber : Nat
  customerName : Text
  currency : Text
  dueDate : Date
  totalAmountMinor : Int

def insertInvoice (v : InvoiceValues) : Stmt Invoice := fun ctx db =>
  let row : Invoice :=
    { id := ctx.choice.fresh 0
      tenantId := v.tenantId
      invoiceNumber := v.invoiceNumber
      sequenceNumber := v.sequenceNumber
      customerName := toWellFormed v.customerName
      status := .draft
      currency := toWellFormed v.currency
      issueDate := none
      dueDate := some v.dueDate.timestamp
      totalAmountMinor := v.totalAmountMinor
      issueJournalEntryId := none
      createdAt := ctx.now
      updatedAt := ctx.now }
  checked
    [(nulFree v.customerName && nulFree v.currency, .characterNotInRepertoire),
      (inInt8 v.totalAmountMinor, .numericValueOutOfRange), (v.dueDate.storable, .datetime),
      (row.currency.length ≤ 3, .stringDataRightTruncation), (isCurrency row.currency, .checkViolation),
      (db.invoices.all fun i => i.id ≠ row.id && !(i.tenantId = v.tenantId && i.invoiceNumber = v.invoiceNumber) &&
        !(i.tenantId = v.tenantId && i.sequenceNumber = v.sequenceNumber), .uniqueViolation)]
    (.done row [.invoice row]
      [.invoice row.id, .invoiceNumber v.tenantId v.invoiceNumber, .sequenceNumber v.tenantId v.sequenceNumber] [])

structure ItemValues where
  description : Text
  quantity : Int
  unitPriceMinor : Int
  deriving DecidableEq

def insertItems (invoiceId : Uuid) (values : List ItemValues) : Stmt Unit := fun ctx db =>
  let rows : List InvoiceItem := values.zipIdx.map fun (v, k) =>
    { id := ctx.choice.fresh k
      invoiceId
      description := toWellFormed v.description
      quantity := v.quantity
      unitPriceMinor := v.unitPriceMinor
      createdAt := ctx.now }
  checked
    [(values.all fun v => nulFree v.description, .characterNotInRepertoire),
      (values.all fun v => inInt4 v.quantity && inInt8 v.unitPriceMinor, .numericValueOutOfRange),
      (values.all fun v => 0 < v.quantity && 0 < v.unitPriceMinor, .checkViolation),
      (freshIds (·.id) rows db.items, .uniqueViolation)]
    (.done () (rows.map .item) (rows.map fun r => .item r.id) [])

def insertHistory (invoiceId : Uuid) (fromStatus : Option InvoiceStatus) (toStatus : InvoiceStatus) (reason : Text) :
    Stmt Unit := fun ctx db =>
  let row : StatusHistory := ⟨ctx.choice.fresh 0, invoiceId, fromStatus, toStatus, ctx.now, reason⟩
  checked [(db.history.all fun h => h.id ≠ row.id, .uniqueViolation)]
    (.done () [.history row] [.history row.id] [])

/-- `WHERE id = … AND tenant_id = … FOR UPDATE LIMIT 1`. -/
def selectInvoiceForUpdate (invoiceId : Text) (tenantId : Uuid) : Stmt (Option Invoice) := fun _ db =>
  match uuidIn invoiceId with
  | none => .error (.sql .invalidTextRepresentation)
  | some id =>
    match db.invoices.find? fun i => i.id = id && i.tenantId = tenantId with
    | none => .done none [] [] []
    | some i => .done (some i) [] [.invoice i.id] []

/-- `WHERE id = … AND tenant_id = …`, without a lock. -/
def selectInvoice (invoiceId : Text) (tenantId : Uuid) : Stmt (Option Invoice) := fun _ db =>
  match uuidIn invoiceId with
  | none => .error (.sql .invalidTextRepresentation)
  | some id => .done (db.invoices.find? fun i => i.id = id && i.tenantId = tenantId) [] [] []

def selectInvoiceById (id : Uuid) : Stmt (Option Invoice) := fun _ db =>
  .done (db.invoices.find? fun i => i.id = id) [] [] []

/-- `UPDATE invoices SET … WHERE … RETURNING *`: a blocked update reads the newest row, and no row that fails
the condition by then is updated or locked. -/
def updateInvoices (condition : Invoice → Bool) (set : InvoiceState → InvoiceState) : Stmt (Option Invoice) :=
  fun _ db =>
    match db.invoices.find? condition with
    | none => .done none [] [] []
    | some i => .done (some (i.set (set i.state))) [.updateInvoice i.id (set i.state)] [.invoice i.id] []

/-- `WHERE id = … AND tenant_id = …`. -/
def updateInvoice (invoiceId : Text) (tenantId : Uuid) (set : InvoiceState → InvoiceState) : Stmt (Option Invoice) :=
  fun ctx db =>
    match uuidIn invoiceId with
    | none => .error (.sql .invalidTextRepresentation)
    | some id => updateInvoices (fun i => i.id = id && i.tenantId = tenantId) set ctx db

def selectOverdueCandidates (sources : List InvoiceStatus) (now : Timestamp) : Stmt (List Invoice) := fun ctx db =>
  .done (shuffle ctx.choice.order
    (db.invoices.filter fun i => sources.contains i.status && i.dueDate.any fun d => d < now)) [] [] []

/-! ## invoice_payments, invoice_status_history -/

structure PaymentValues where
  invoiceId : Text
  tenantId : Uuid
  amountMinor : Int
  paidAt : Date
  idempotencyKey : Text
  requestFingerprint : Text

/-- `INSERT … ON CONFLICT (tenant_id, idempotency_key) DO NOTHING RETURNING *`, without a journal entry yet. -/
def insertPayment (v : PaymentValues) : Stmt (Option InvoicePayment) := fun ctx db =>
  match uuidIn v.invoiceId with
  | none => .error (.sql .invalidTextRepresentation)
  | some invoiceId =>
    let row : InvoicePayment :=
      { id := ctx.choice.fresh 0
        invoiceId
        amountMinor := v.amountMinor
        paidAt := v.paidAt.timestamp
        journalEntryId := none
        createdAt := ctx.now
        tenantId := v.tenantId
        idempotencyKey := v.idempotencyKey
        requestFingerprint := v.requestFingerprint }
    checked
      [(inInt8 v.amountMinor, .numericValueOutOfRange), (v.paidAt.storable, .datetime),
        (0 < v.amountMinor, .checkViolation)]
      (if db.payments.any fun p => p.tenantId = v.tenantId && p.idempotencyKey = v.idempotencyKey then
        .done none [] [] [.paymentKey v.tenantId v.idempotencyKey]
      else
        checked [(db.payments.all fun p => p.id ≠ row.id, .uniqueViolation)]
          (.done (some row) [.payment row] [.payment row.id, .paymentKey v.tenantId v.idempotencyKey] []))

def selectPaymentByKey (tenantId : Uuid) (idempotencyKey : Text) : Stmt (Option InvoicePayment) := fun _ db =>
  .done (db.payments.find? fun p => p.tenantId = tenantId && p.idempotencyKey = idempotencyKey) [] [] []

def selectPayments (invoiceId : Text) : Stmt (List InvoicePayment) := fun ctx db =>
  match uuidIn invoiceId with
  | none => .error (.sql .invalidTextRepresentation)
  | some id => .done (shuffle ctx.choice.order (db.payments.filter fun p => p.invoiceId = id)) [] [] []

/-- `UPDATE invoice_payments SET journal_entry_id = … WHERE id = … RETURNING *`. -/
def linkPayment (id journalEntryId : Uuid) : Stmt (Option InvoicePayment) := fun _ db =>
  match db.payments.find? fun p => p.id = id with
  | none => .done none [] [] []
  | some p =>
      .done (some { p with journalEntryId := some journalEntryId }) [.linkPayment p.id journalEntryId]
        [.payment p.id] []

/-- Rows by decreasing key; rows of one key in any order. -/
def orderByDesc {α : Type} (key : α → Timestamp) (order : List Nat) (rows : List α) : List α :=
  (shuffle order rows).insertionSort fun a b => key b ≤ key a

def selectItems (invoiceId : Text) : Stmt (List InvoiceItem) := fun ctx db =>
  match uuidIn invoiceId with
  | none => .error (.sql .invalidTextRepresentation)
  | some id => .done (shuffle ctx.choice.order (db.items.filter fun r => r.invoiceId = id)) [] [] []

def selectPaymentsByCreation (invoiceId : Text) : Stmt (List InvoicePayment) := fun ctx db =>
  match uuidIn invoiceId with
  | none => .error (.sql .invalidTextRepresentation)
  | some id =>
      .done (orderByDesc (·.createdAt) ctx.choice.order (db.payments.filter fun p => p.invoiceId = id)) [] [] []

def selectHistory (invoiceId : Text) : Stmt (List StatusHistory) := fun ctx db =>
  match uuidIn invoiceId with
  | none => .error (.sql .invalidTextRepresentation)
  | some id =>
      .done (orderByDesc (·.changedAt) ctx.choice.order (db.history.filter fun h => h.invoiceId = id)) [] [] []

end FinSight.Sql
