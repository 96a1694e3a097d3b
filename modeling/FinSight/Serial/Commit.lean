import FinSight.Serial.Protocol
import FinSight.System

/-!
# What each call commits

The serial meaning of the calls: `Commit db now q r log` says that the request `q`, in a transaction that began
at `now`, commits the writes `log` on top of the committed database `db` and answers `r`. It mentions neither
statements nor locks.

* `Booked` : an entry is posted, or the entry that has the key is replayed;
* `Created`, `Issued`, `Paid`, `Voided`, `OverdueRun` : the invoice operations;
* `Commit.grows` : what every commit leaves in place.
-/

namespace FinSight

open ReadCommitted

variable (sha256 : Text → Text)

/-! ## Entries -/

/-- Entry, tenant, account and amount of a line. -/
def EntryLine.posting (l : EntryLine) : Uuid × Uuid × Uuid × Int := (l.entryId, l.tenantId, l.accountId, l.amountMinor)

def LineData.posting (e : JournalEntry) (d : LineData) : Uuid × Uuid × Uuid × Int :=
  (e.id, e.tenantId, d.accountId.uuid, d.amountMinor)

def entryLines (db : Db) (entryId : Uuid) : List EntryLine := db.lines.filter fun l => l.entryId = entryId

/-- The accounts of the lines exist, are the tenant's, and have one currency. -/
def OneCurrency (accounts : List Account) (tenantId : Uuid) (lines : List LineData) : Prop :=
  ∃ c, ∀ d ∈ lines, ∃ a ∈ accounts, a.id = d.accountId.uuid ∧ a.tenantId = tenantId ∧ a.currency = c

/-- `e` with the lines `ls` is what posting `data` under `key` adds to `db`. -/
structure Posting (db : Db) (tenantId : Uuid) (key : Text) (data : EntryData) (e : JournalEntry)
    (ls : List EntryLine) : Prop where
  balanced : (data.lines.map (·.amountMinor)).sum = 0
  tenant : e.tenantId = tenantId
  named : e.idempotencyKey = key
  occurred : e.occurredAt = data.occurredAt.timestamp
  body : e.requestFingerprint = fingerprint sha256 data.toJs
  freshId : ∀ x ∈ db.entries, x.id ≠ e.id
  freshKey : ∀ x ∈ db.entries, ¬ (x.tenantId = tenantId ∧ x.idempotencyKey = key)
  lines : ls.map EntryLine.posting = data.lines.map (LineData.posting e)
  lineIds : (ls.map (·.id)).Nodup ∧ ∀ l ∈ ls, ∀ x ∈ db.lines, x.id ≠ l.id
  accounts : OneCurrency db.accounts tenantId data.lines

/-- What `createJournalEntryTx` returns, and the rows it adds. -/
inductive Booked (db : Db) (tenantId : Uuid) (key : Text) (data : EntryData) :
    EntryResult → List JournalEntry → List EntryLine → Prop
  | posted {e : JournalEntry} {ls : List EntryLine} : Posting sha256 db tenantId key data e ls →
      Booked db tenantId key data ⟨e, ls, false⟩ [e] ls
  | replayed {e : JournalEntry} {ls : List EntryLine} : (data.lines.map (·.amountMinor)).sum = 0 →
      e ∈ db.entries → e.tenantId = tenantId → e.idempotencyKey = key →
      e.requestFingerprint = fingerprint sha256 data.toJs → ls.Perm (entryLines db e.id) →
      Booked db tenantId key data ⟨e, ls, true⟩ [] []

/-- The writes of a posting. -/
def posts (es : List JournalEntry) (ls : List EntryLine) : List Write := es.map .entry ++ ls.map .line

def Db.post (db : Db) (es : List JournalEntry) (ls : List EntryLine) : Db :=
  { db with entries := db.entries ++ es, lines := db.lines ++ ls }

/-! ## Invoices -/

/-- The sequence row that an allocation writes. -/
def Allocates (db : Db) (tenantId : Uuid) (row : InvoiceSequence) : Prop :=
  row.tenantId = tenantId ∧
    ((row.lastValue = 1 ∧ ∀ r ∈ db.sequences, r.tenantId ≠ tenantId) ∨
      ∃ r ∈ db.sequences, r.tenantId = tenantId ∧ row.lastValue = r.lastValue + 1)

/-- A history row that a transaction which began at `now` adds to `rows`. -/
structure Records (rows : List StatusHistory) (h : StatusHistory) (now : Timestamp) (invoiceId : Uuid)
    (src : Option InvoiceStatus) (dst : InvoiceStatus) : Prop where
  freshId : ∀ x ∈ rows, x.id ≠ h.id
  invoice : h.invoiceId = invoiceId
  fromStatus : h.fromStatus = src
  toStatus : h.toStatus = dst
  changedAt : h.changedAt = now

structure Created (db : Db) (now : Timestamp) (r : InvoiceRequest) (seq : InvoiceSequence) (i : Invoice)
    (items : List InvoiceItem) (h : StatusHistory) : Prop where
  sequence : Allocates db r.tenantId seq
  tenant : i.tenantId = r.tenantId
  sequenceNumber : i.sequenceNumber = seq.lastValue
  number : i.invoiceNumber = invoiceNumber seq.lastValue
  draft : i.status = .draft
  unissued : i.issueJournalEntryId = none
  total : i.totalAmountMinor = invoiceTotal r.items
  totalRange : inInt8 i.totalAmountMinor = true
  freshId : ∀ x ∈ db.invoices, x.id ≠ i.id
  nonempty : r.items ≠ []
  positive : ∀ v ∈ r.items, 0 < v.quantity ∧ 0 < v.unitPriceMinor
  itemRange : ∀ v ∈ r.items, inInt4 v.quantity = true ∧ inInt8 v.unitPriceMinor = true
  items : items.map (fun r => (r.invoiceId, r.quantity, r.unitPriceMinor)) =
    r.items.map fun v => (i.id, v.quantity, v.unitPriceMinor)
  history : Records db.history h now i.id none .draft

/-- The row that a request names. -/
structure Names (db : Db) (invoiceId : Text) (tenantId : Uuid) (i : Invoice) : Prop where
  mem : i ∈ db.invoices
  id : uuidIn invoiceId = some i.id
  tenant : i.tenantId = tenantId

def HasAccount (db : Db) (id : UuidText) (tenantId : Uuid) (currency : Text) (type : Option AccountType) : Prop :=
  ∃ a ∈ db.accounts, a.id = id.uuid ∧ a.tenantId = tenantId ∧ a.currency = currency ∧ ∀ t ∈ type, a.type = t

structure Issued (db : Db) (now : Timestamp) (r : IssueRequest) (i : Invoice) (result : EntryResult)
    (es : List JournalEntry) (ls : List EntryLine) (h : StatusHistory) : Prop where
  names : Names db r.invoiceId r.tenantId i
  draft : i.status = .draft
  receivable : HasAccount db r.receivableAccountId r.tenantId i.currency (some .asset)
  revenue : HasAccount db r.revenueAccountId r.tenantId i.currency (some .revenue)
  booked : Booked sha256 db r.tenantId (issueKey i.id)
    (issueData i r.receivableAccountId r.revenueAccountId r.issueDate.date) result es ls
  history : Records db.history h now i.id (some .draft) .issued

/-- The state an issued invoice gets. -/
def issuedState (r : IssueRequest) (result : EntryResult) : InvoiceState :=
  ⟨.issued, some r.issueDate.date.timestamp, some result.entry.id, r.issueDate.date.timestamp⟩

def paidMinor (db : Db) (invoiceId : Uuid) : Int := (paidAmounts db.payments invoiceId).sum

/-- The status after a payment. -/
def targetStatus (db : Db) (r : PaymentRequest) (i : Invoice) : InvoiceStatus :=
  if paidMinor db i.id + r.amountMinor = i.totalAmountMinor then .paid else .partiallyPaid

/-- The amount and the date of a payment fit their columns. -/
def PaymentRequest.fits (r : PaymentRequest) : Bool :=
  inInt8 r.amountMinor && r.effectivePaidAt.storable && decide (0 < r.amountMinor)

theorem PaymentRequest.positive_of_fits {r : PaymentRequest} (h : r.fits = true) : 0 < r.amountMinor := by
  simp only [PaymentRequest.fits, Bool.and_eq_true, decide_eq_true_iff] at h
  exact h.2

structure Paid (db : Db) (now : Timestamp) (r : PaymentRequest) (i : Invoice) (p : InvoicePayment)
    (result : EntryResult) (es : List JournalEntry) (ls : List EntryLine) (hs : List StatusHistory) : Prop where
  names : Names db r.invoiceId r.tenantId i
  invoice : p.invoiceId = i.id
  amount : p.amountMinor = r.amountMinor
  tenant : p.tenantId = r.tenantId
  named : p.idempotencyKey = r.idempotencyKey.text
  body : p.requestFingerprint = fingerprint sha256 r.toJs
  fits : r.fits = true
  freshId : ∀ x ∈ db.payments, x.id ≠ p.id
  freshKey : ∀ x ∈ db.payments, ¬ (x.tenantId = r.tenantId ∧ x.idempotencyKey = r.idempotencyKey.text)
  bank : HasAccount db r.bankAccountId r.tenantId i.currency none
  receivable : HasAccount db r.accountReceivableAccountId r.tenantId i.currency none
  issueLine : ∀ e ∈ i.issueJournalEntryId, ∃ l ∈ entryLines db e, 0 < l.amountMinor ∧
    l.accountId.spelled = r.accountReceivableAccountId
  remaining : paidMinor db i.id + r.amountMinor ≤ i.totalAmountMinor
  edge : canTransition i.status (targetStatus db r i) = true
  booked : Booked sha256 db r.tenantId (paymentKey p.id) (paymentData r i) result es ls
  history : if targetStatus db r i = i.status then hs = []
    else ∃ h, hs = [h] ∧ Records db.history h now i.id (some i.status) (targetStatus db r i)

/-- The state of an invoice after a payment. -/
def paidState (db : Db) (r : PaymentRequest) (i : Invoice) : InvoiceState :=
  { i.state with status := targetStatus db r i, updatedAt := r.updatedAt.date.timestamp }

/-- The payment that already has the key, when the request was the same. -/
structure Replayed (db : Db) (r : PaymentRequest) (p : InvoicePayment) (result : PaymentResult) : Prop where
  mem : p ∈ db.payments
  tenant : p.tenantId = r.tenantId
  named : p.idempotencyKey = r.idempotencyKey.text
  body : p.requestFingerprint = fingerprint sha256 r.toJs
  payment : result.payment = some p
  entry : ∀ id ∈ p.journalEntryId, ∃ e ∈ db.entries, e.id = id ∧ result.journalEntry = some e
  replayed : result.replayed = true

structure Voided (db : Db) (now : Timestamp) (r : VoidRequest) (i : Invoice) (h : StatusHistory) : Prop where
  names : Names db r.invoiceId r.tenantId i
  edge : canTransition i.status .void = true
  unpaid : paidMinor db i.id ≤ 0
  history : Records db.history h now i.id (some i.status) .void

def voidState (r : VoidRequest) (i : Invoice) : InvoiceState :=
  { i.state with status := .void, updatedAt := r.updatedAt.date.timestamp }

def overdueState (updatedAt : Timestamp) (i : Invoice) : InvoiceState :=
  { i.state with status := .overdue, updatedAt }

/-- The updates of the overdue job, one invoice after the other. `strict` is a condition under which the
history records the status that the update replaced, and not the one a query saw before. -/
inductive OverdueRun (strict : Prop) (now updatedAt : Timestamp) (db : Db) : List Write → List Invoice → Prop
  | nil : OverdueRun strict now updatedAt db [] []
  | snoc {log : List Write} {rows : List Invoice} {i : Invoice} {src : InvoiceStatus} {h : StatusHistory} :
      OverdueRun strict now updatedAt db log rows → i ∈ (engine.view log db).invoices → i.status ∈ overdueSources →
      src ∈ overdueSources → (strict → src = i.status) →
      Records (engine.view log db).history h now i.id (some src) .overdue →
      OverdueRun strict now updatedAt db
        (log ++ [.updateInvoice i.id (overdueState updatedAt i), .history h])
        (rows ++ [i.set (overdueState updatedAt i)])

/-! ## Commits -/

/-- What a call commits. -/
inductive Commit (strict : Prop) (db : Db) (now : Timestamp) : Request → Response → List Write → Prop
  | createAccount {r : AccountRequest} {row : Account} : row.tenantId = r.tenantId → row.type = r.type →
      (∀ a ∈ db.accounts, a.id ≠ row.id) →
      Commit strict db now (.createAccount r) (.account row) [.account row]
  | createJournalEntry {r : EntryRequest} {result : EntryResult} {es : List JournalEntry} {ls : List EntryLine} :
      Booked sha256 db r.tenantId r.idempotencyKey.text r.data result es ls →
      Commit strict db now (.createJournalEntry r) (.entry result) (posts es ls)
  | createInvoice {r : InvoiceRequest} {seq : InvoiceSequence} {i : Invoice} {items : List InvoiceItem}
      {h : StatusHistory} : Created db now r seq i items h →
      Commit strict db now (.createInvoice r) (.invoice (some i))
        (.sequence seq :: .invoice i :: (items.map .item ++ [.history h]))
  | issueInvoice {r : IssueRequest} {i : Invoice} {result : EntryResult} {es : List JournalEntry}
      {ls : List EntryLine} {h : StatusHistory} : Issued sha256 db now r i result es ls h →
      Commit strict db now (.issueInvoice r) (.invoice (some (i.set (issuedState r result))))
        (posts es ls ++ [.updateInvoice i.id (issuedState r result), .history h])
  | pay {r : PaymentRequest} {i : Invoice} {p : InvoicePayment} {result : EntryResult} {es : List JournalEntry}
      {ls : List EntryLine} {hs : List StatusHistory} : Paid sha256 db now r i p result es ls hs →
      Commit strict db now (.createInvoicePayment r)
        (.payment ⟨some { p with journalEntryId := some result.entry.id }, some (i.set (paidState db r i)),
          some result.entry, false⟩)
        (.payment p :: (posts es ls ++ .linkPayment p.id result.entry.id :: (hs.map .history ++
          [.updateInvoice i.id (paidState db r i)])))
  | replayPayment {r : PaymentRequest} {p : InvoicePayment} {result : PaymentResult} :
      Replayed sha256 db r p result → Commit strict db now (.createInvoicePayment r) (.payment result) []
  | voidInvoice {r : VoidRequest} {i : Invoice} {h : StatusHistory} : Voided db now r i h →
      Commit strict db now (.voidInvoice r) (.invoice (some (i.set (voidState r i))))
        [.updateInvoice i.id (voidState r i), .history h]
  | markOverdue {updatedAt : Reading} {log : List Write} {rows : List Invoice} :
      OverdueRun strict now updatedAt.date.timestamp db log rows →
      Commit strict db now (.markOverdueInvoices updatedAt) (.invoices rows) log

theorem Commit.entry {strict : Prop} {db : Db} {now : Timestamp} {r : EntryRequest} {result : EntryResult}
    {log : List Write} (h : Commit sha256 strict db now (.createJournalEntry r) (.entry result) log) :
    ∃ es ls, Booked sha256 db r.tenantId r.idempotencyKey.text r.data result es ls ∧ log = posts es ls := by
  cases h with
  | createJournalEntry hb => exact ⟨_, _, hb, rfl⟩

/-- A payment request pays, or is answered with the payment that has its key. -/
theorem Commit.payment {strict : Prop} {db : Db} {now : Timestamp} {r : PaymentRequest} {resp : Response}
    {log : List Write} (h : Commit sha256 strict db now (.createInvoicePayment r) resp log) :
    (∃ i p result es ls hs, Paid sha256 db now r i p result es ls hs) ∨
      ∃ p result, Replayed sha256 db r p result ∧ resp = .payment result := by
  cases h with
  | pay hpaid => exact Or.inl ⟨_, _, _, _, _, _, hpaid⟩
  | replayPayment hreplayed => exact Or.inr ⟨_, _, hreplayed, rfl⟩

/-! ## Views -/

@[simp] theorem view_entries (es : List JournalEntry) (db : Db) :
    engine.view (es.map .entry) db = { db with entries := db.entries ++ es } := by
  induction es generalizing db with
  | nil => simp
  | cons e es ih => rw [List.map_cons, Engine.view_cons, ih]; simp [Db.apply]

@[simp] theorem view_lines (ls : List EntryLine) (db : Db) :
    engine.view (ls.map .line) db = { db with lines := db.lines ++ ls } := by
  induction ls generalizing db with
  | nil => simp
  | cons l ls ih => rw [List.map_cons, Engine.view_cons, ih]; simp [Db.apply]

@[simp] theorem view_items (rows : List InvoiceItem) (db : Db) :
    engine.view (rows.map .item) db = { db with items := db.items ++ rows } := by
  induction rows generalizing db with
  | nil => simp
  | cons r rows ih => rw [List.map_cons, Engine.view_cons, ih]; simp [Db.apply]

@[simp] theorem view_histories (hs : List StatusHistory) (db : Db) :
    engine.view (hs.map .history) db = { db with history := db.history ++ hs } := by
  induction hs generalizing db with
  | nil => simp
  | cons h hs ih => rw [List.map_cons, Engine.view_cons, ih]; simp [Db.apply]

@[simp] theorem view_posts (es : List JournalEntry) (ls : List EntryLine) (db : Db) :
    engine.view (posts es ls) db = db.post es ls := by
  rw [posts, Engine.view_append, view_entries, view_lines, Db.post]

/-- Setting the state of the invoice with an id. -/
def setInvoice (id : Uuid) (state : InvoiceState) (rows : List Invoice) : List Invoice :=
  rows.map fun i => if i.id = id then i.set state else i

theorem Created.view {db : Db} {now : Timestamp} {r : InvoiceRequest} {seq : InvoiceSequence} {i : Invoice}
    {items : List InvoiceItem} {h : StatusHistory} (_ : Created db now r seq i items h) :
    engine.view (.sequence seq :: .invoice i :: (items.map .item ++ [.history h])) db =
      { db with
        sequences := upsertSequence seq db.sequences
        invoices := db.invoices ++ [i]
        items := db.items ++ items
        history := db.history ++ [h] } := by
  simp [Db.apply]

theorem Issued.view {db : Db} {now : Timestamp} {r : IssueRequest} {i : Invoice} {result : EntryResult}
    {es : List JournalEntry} {ls : List EntryLine} {h : StatusHistory}
    (_ : Issued sha256 db now r i result es ls h) :
    engine.view (posts es ls ++ [.updateInvoice i.id (issuedState r result), .history h]) db =
      { db.post es ls with
        invoices := setInvoice i.id (issuedState r result) db.invoices
        history := db.history ++ [h] } := by
  simp [Db.apply, Db.post, setInvoice]

theorem Paid.view {db : Db} {now : Timestamp} {r : PaymentRequest} {i : Invoice} {p : InvoicePayment}
    {result : EntryResult} {es : List JournalEntry} {ls : List EntryLine} {hs : List StatusHistory}
    (h : Paid sha256 db now r i p result es ls hs) :
    engine.view (.payment p :: (posts es ls ++ .linkPayment p.id result.entry.id :: (hs.map .history ++
        [.updateInvoice i.id (paidState db r i)]))) db =
      { db.post es ls with
        payments := db.payments ++ [{ p with journalEntryId := some result.entry.id }]
        invoices := setInvoice i.id (paidState db r i) db.invoices
        history := db.history ++ hs } := by
  have hothers : (db.payments.map fun x =>
      if x.id = p.id then { x with journalEntryId := some result.entry.id } else x) = db.payments := by
    conv_rhs => rw [← List.map_id db.payments]
    exact List.map_congr_left fun x hx => if_neg (h.freshId x hx)
  simp [Db.apply, Db.post, setInvoice, hothers]

theorem Voided.view {db : Db} {now : Timestamp} {r : VoidRequest} {i : Invoice} {h : StatusHistory}
    (_ : Voided db now r i h) :
    engine.view [.updateInvoice i.id (voidState r i), .history h] db =
      { db with
        invoices := setInvoice i.id (voidState r i) db.invoices
        history := db.history ++ [h] } := rfl

/-- The overdue job writes invoices and their history only. -/
theorem OverdueRun.view {strict : Prop} {now updatedAt : Timestamp} {db : Db} {log : List Write} {rows : List Invoice}
    (h : OverdueRun strict now updatedAt db log rows) :
    ∃ invoices history, engine.view log db = { db with invoices, history } := by
  induction h with
  | nil => exact ⟨db.invoices, db.history, rfl⟩
  | snoc _ _ _ _ _ _ ih =>
      obtain ⟨invoices, history, heq⟩ := ih
      rw [Engine.view_append, heq]
      exact ⟨_, _, rfl⟩

/-! ## What every commit leaves in place -/

variable {sha256}

/-- A posted line belongs to the entry and comes from the body. -/
theorem Posting.line {db : Db} {tenantId : Uuid} {key : Text} {data : EntryData} {e : JournalEntry}
    {ls : List EntryLine} (h : Posting sha256 db tenantId key data e ls) {l : EntryLine} (hl : l ∈ ls) :
    ∃ d ∈ data.lines, l.entryId = e.id ∧ l.tenantId = e.tenantId ∧ l.accountId = d.accountId.uuid ∧
      l.amountMinor = d.amountMinor := by
  have hmem : l.posting ∈ data.lines.map (LineData.posting e) := h.lines ▸ List.mem_map_of_mem hl
  obtain ⟨d, hd, heq⟩ := List.mem_map.mp hmem
  simp only [LineData.posting, EntryLine.posting, Prod.mk.injEq] at heq
  obtain ⟨h₁, h₂, h₃, h₄⟩ := heq
  exact ⟨d, hd, h₁.symm, h₂.symm, h₃.symm, h₄.symm⟩

theorem Booked.grows {db : Db} {tenantId : Uuid} {key : Text} {data : EntryData} {result : EntryResult}
    {es : List JournalEntry} {ls : List EntryLine} (h : Booked sha256 db tenantId key data result es ls) :
    Grows db (db.post es ls) := by
  cases h with
  | replayed => exact ⟨fun _ h => h, by simp [Db.post], by simp [Db.post], fun _ h => h, fun i hi => ⟨i, hi, rfl, rfl⟩⟩
  | posted hp =>
      refine ⟨fun _ h => h, List.subset_append_left _ _, fun x hx => ?_, fun _ h => h, fun i hi => ⟨i, hi, rfl, rfl⟩⟩
      have hnone : ls.filter (fun l => l.entryId = x.id) = [] := by
        rw [List.filter_eq_nil_iff]
        intro l hl
        obtain ⟨d, -, hentry, -⟩ := hp.line hl
        simpa [hentry] using fun heq => hp.freshId x hx heq.symm
      rw [show (db.post [_] ls).lines = db.lines ++ ls from rfl, List.filter_append, hnone, List.append_nil]

theorem Grows.entryLines {a b : Db} (h : Grows a b) {e : JournalEntry} (he : e ∈ a.entries) :
    entryLines b e.id = entryLines a e.id := h.lines e he

/-- Changes outside the ledger. -/
theorem Grows.beside {db db₁ db' : Db} (h : Grows db db₁) (haccounts : db'.accounts = db₁.accounts)
    (hentries : db'.entries = db₁.entries) (hlines : db'.lines = db₁.lines) (hpayments : db₁.payments ⊆ db'.payments)
    (hinvoices : ∀ i ∈ db₁.invoices, ∃ j ∈ db'.invoices, j.id = i.id ∧ j.tenantId = i.tenantId) : Grows db db' :=
  h.trans ⟨by rw [haccounts]; exact fun _ h => h, by rw [hentries]; exact fun _ h => h,
    fun _ _ => by rw [hlines], hpayments, hinvoices⟩

theorem setInvoice_keeps (id : Uuid) (state : InvoiceState) (rows : List Invoice) :
    ∀ i ∈ rows, ∃ j ∈ setInvoice id state rows, j.id = i.id ∧ j.tenantId = i.tenantId := by
  intro i hi
  refine ⟨_, List.mem_map_of_mem hi, ?_, ?_⟩
  · split <;> rfl
  · split <;> rfl

theorem OverdueRun.grows {strict : Prop} {now updatedAt : Timestamp} {db : Db} {log : List Write} {rows : List Invoice}
    (h : OverdueRun strict now updatedAt db log rows) : Grows db (engine.view log db) := by
  induction h with
  | nil => exact Grows.refl db
  | snoc _ _ _ _ _ _ ih =>
      rw [Engine.view_append]
      exact ih.beside rfl rfl rfl (fun _ h => h) (setInvoice_keeps _ _ _)

/-- What commits never take back. -/
theorem Commit.grows {strict : Prop} {db : Db} {now : Timestamp} {q : Request} {r : Response} {log : List Write}
    (h : Commit sha256 strict db now q r log) : Grows db (engine.view log db) := by
  cases h with
  | createAccount _ _ _ =>
      exact ⟨List.subset_append_left _ _, fun _ h => h, fun _ _ => rfl, fun _ h => h, fun i hi => ⟨i, hi, rfl, rfl⟩⟩
  | createJournalEntry hb =>
      rw [view_posts]
      exact hb.grows
  | createInvoice hc =>
      rw [hc.view]
      exact (Grows.refl db).beside rfl rfl rfl (fun _ h => h)
        fun i hi => ⟨i, List.mem_append_left _ hi, rfl, rfl⟩
  | issueInvoice hi =>
      rw [hi.view]
      exact hi.booked.grows.beside rfl rfl rfl (fun _ h => h) (setInvoice_keeps _ _ _)
  | pay hp =>
      rw [hp.view]
      exact hp.booked.grows.beside rfl rfl rfl (List.subset_append_left _ _) (setInvoice_keeps _ _ _)
  | replayPayment _ => exact Grows.refl db
  | voidInvoice hv =>
      rw [hv.view]
      exact (Grows.refl db).beside rfl rfl rfl (fun _ h => h) (setInvoice_keeps _ _ _)
  | markOverdue ho => exact ho.grows

end FinSight
