import FinSight.Guarantees.Spelling

/-!
# The spelling of account ids in a payment

* `PaymentRequest.Respells` : one payment in two spellings; `PaymentSplits` : where the two end differently;
* `collects_alone`, `refused_alone` : a payment up to the check of the receivable;
* `receive_alone`, `overpaid_alone` : from there to posting the entry; `settle_alike`;
* `spelling_iff` : two spellings of an entry or a payment end alike exactly where they do not split.
-/

namespace FinSight

open ReadCommitted

variable {sha256 : Text → Text}

structure PaymentRequest.Respells (r r' : PaymentRequest) : Prop where
  invoiceId : r.invoiceId = r'.invoiceId
  tenantId : r.tenantId = r'.tenantId
  amountMinor : r.amountMinor = r'.amountMinor
  paidAt : r.paidAt = r'.paidAt
  bankAccountId : r.bankAccountId.Respells r'.bankAccountId
  accountReceivableAccountId : r.accountReceivableAccountId.Respells r'.accountReceivableAccountId
  paidNow : r.paidNow = r'.paidNow
  updatedAt : r.updatedAt = r'.updatedAt

theorem PaymentRequest.Respells.symm {r r' : PaymentRequest} (h : r.Respells r') : r'.Respells r where
  invoiceId := h.invoiceId.symm
  tenantId := h.tenantId.symm
  amountMinor := h.amountMinor.symm
  paidAt := h.paidAt.symm
  bankAccountId := Eq.symm h.bankAccountId
  accountReceivableAccountId := Eq.symm h.accountReceivableAccountId
  paidNow := h.paidNow.symm
  updatedAt := h.updatedAt.symm

/-- The payment is inserted, and its accounts are in the currency of the invoice. -/
structure Collects (db : Db) (r : PaymentRequest) (i : Invoice) (choice : Choice) : Prop where
  names : Names db r.invoiceId r.tenantId i
  fits : r.fits = true
  freshId : ∀ p ∈ db.payments, p.id ≠ choice.fresh 0
  bank : HasAccount db r.bankAccountId r.tenantId i.currency none
  receivable : HasAccount db r.accountReceivableAccountId r.tenantId i.currency none

/-- The line that `selectIssueLine` finds. -/
def foundIssueLine (db : Db) (entryId tenantId : Uuid) (choice : Choice) : Option EntryLine :=
  (shuffle choice.order
    (db.lines.filter fun l => l.entryId = entryId && l.tenantId = tenantId && decide (0 < l.amountMinor))).head?

/-- The receivable of the payment is the one the invoice was issued to. -/
def CreditsReceivable (db : Db) (r : PaymentRequest) (i : Invoice) (choice : Choice) : Prop :=
  ∃ x l, i.issueJournalEntryId = some x ∧ foundIssueLine db x r.tenantId choice = some l ∧
    l.accountId = r.accountReceivableAccountId.uuid

/-- What is left of the invoice covers the payment. -/
structure Receives (db : Db) (r : PaymentRequest) (i : Invoice) : Prop where
  remaining : paidMinor db i.id + r.amountMinor ≤ i.totalAmountMinor
  edge : canTransition i.status (targetStatus db r i) = true

/-- Either exactly one receivable is in lower case; or both are, the bank account is the receivable too, and exactly one bank
account is in lower case. -/
def PaymentSplits (db : Db) (r r' : PaymentRequest) (choices : Nat → Choice) : Prop :=
  ∃ i, Collects db r i (choices 1) ∧ CreditsReceivable db r i (choices 4) ∧
    (¬ (r.accountReceivableAccountId.Lower ↔ r'.accountReceivableAccountId.Lower) ∨
      r.accountReceivableAccountId.Lower ∧ r'.accountReceivableAccountId.Lower ∧ Receives db r i ∧
        (∀ e ∈ db.entries, e.id ≠ (choices 6).fresh 0) ∧
        r.bankAccountId.uuid = r.accountReceivableAccountId.uuid ∧ ¬ (r.bankAccountId.Lower ↔ r'.bankAccountId.Lower))

/-! ## Up to the receivable -/

variable {db : Db} {log log' : List Write} {now : Nat} {choices : Nat → Choice} {r r' : PaymentRequest} {i : Invoice}
  {p p' : InvoicePayment}

variable (sha256) in
/-- `payTx`, after the check of the receivable. -/
def receive (r : PaymentRequest) (invoice : Invoice) (payment : InvoicePayment) : Tx PaymentResult := do
  let allPayments ← Program.statement (Sql.selectPayments r.invoiceId)
  let paidAmountMinor := (allPayments.map (·.amountMinor)).sum
  if invoice.totalAmountMinor < paidAmountMinor then .throw (.app paymentExceedsRemaining)
  else
    let targetStatus := if paidAmountMinor = invoice.totalAmountMinor then .paid else .partiallyPaid
    if canTransition invoice.status targetStatus = false then .throw (.app (notPayable invoice.status))
    else settleTx sha256 r invoice payment targetStatus

theorem payTx_eq (r : PaymentRequest) (i : Invoice) (p : InvoicePayment) :
    payTx sha256 r i p = Program.statement (Sql.selectAccount r.bankAccountId r.tenantId) >>= fun bank =>
      Program.statement (Sql.selectAccount r.accountReceivableAccountId r.tenantId) >>= fun receivable =>
        match bank, receivable with
        | some bank, some receivable =>
            if bank.currency ≠ i.currency ∨ receivable.currency ≠ i.currency then .throw (.app paymentCurrencyMismatch)
            else checkReceivable r i >>= fun _ => receive sha256 r i p
        | _, _ => .throw (.app invalidAccount) := rfl

/-- No payment has the key. -/
def PaymentKeyUnused (db : Db) (tenantId : Uuid) (key : Text) : Prop :=
  ∀ p ∈ db.payments, ¬ (p.tenantId = tenantId ∧ p.idempotencyKey = key)

variable (sha256) in
/-- The row that the payment inserts. -/
def paymentRow (r : PaymentRequest) (i : Invoice) (now : Timestamp) (choice : Choice) : InvoicePayment where
  id := choice.fresh 0
  invoiceId := i.id
  amountMinor := r.amountMinor
  paidAt := r.effectivePaidAt.timestamp
  journalEntryId := none
  createdAt := now
  tenantId := r.tenantId
  idempotencyKey := r.idempotencyKey.text
  requestFingerprint := fingerprint sha256 r.toJs

variable (sha256) in
def insertPaymentOf (r : PaymentRequest) : Stmt (Option InvoicePayment) :=
  Sql.insertPayment ⟨r.invoiceId, r.tenantId, r.amountMinor, r.effectivePaidAt, r.idempotencyKey.text,
    fingerprint sha256 r.toJs⟩

/-- The checks of `insertPayment`. -/
def paymentChecks (r : PaymentRequest) : List (Bool × SqlState) :=
  [(inInt8 r.amountMinor, .numericValueOutOfRange), (r.effectivePaidAt.storable, .datetime),
    (decide (0 < r.amountMinor), .checkViolation)]

def paymentIdChecks (db : Db) (choice : Choice) : List (Bool × SqlState) :=
  [(db.payments.all fun p => p.id ≠ choice.fresh 0, .uniqueViolation)]

variable (sha256) in
theorem insertPayment_eq (hid : uuidIn r.invoiceId = some i.id)
    (hkey : PaymentKeyUnused db r.tenantId r.idempotencyKey.text) (ctx : Context Choice) :
    insertPaymentOf sha256 r ctx db = Sql.checked (paymentChecks r) (Sql.checked (paymentIdChecks db ctx.choice)
      (.done (some (paymentRow sha256 r i ctx.now ctx.choice)) [.payment (paymentRow sha256 r i ctx.now ctx.choice)]
        [.payment (ctx.choice.fresh 0), .paymentKey r.tenantId r.idempotencyKey.text] [])) := by
  have hnone : ¬ (db.payments.any fun p => p.tenantId = r.tenantId && p.idempotencyKey = r.idempotencyKey.text) = true := by
    intro hany
    obtain ⟨p, hp, heq⟩ := List.any_eq_true.mp hany
    rw [Bool.and_eq_true, decide_eq_true_iff, decide_eq_true_iff] at heq
    exact hkey p hp heq
  unfold insertPaymentOf Sql.insertPayment
  rw [hid]
  dsimp only
  rw [if_neg hnone]
  rfl

theorem paymentChecks_iff : (∀ c ∈ paymentChecks r, c.1 = true) ↔ r.fits = true := by
  simp [paymentChecks, PaymentRequest.fits, and_assoc]

theorem paymentIdChecks_iff {choice : Choice} :
    (∀ c ∈ paymentIdChecks db choice, c.1 = true) ↔ ∀ p ∈ db.payments, p.id ≠ choice.fresh 0 := by
  simp [paymentIdChecks]

theorem createInvoicePayment_eq (r : PaymentRequest) :
    createInvoicePayment sha256 r = Program.statement (Sql.selectInvoiceForUpdate r.invoiceId r.tenantId) >>= fun invoice =>
      match invoice with
      | none => .throw (.app notFound)
      | some invoice => Program.statement (insertPaymentOf sha256 r) >>= fun payment =>
          match payment with
          | none => replayPayment r.tenantId r.idempotencyKey.text (fingerprint sha256 r.toJs)
          | some payment => payTx sha256 r invoice payment := rfl

/-- The payment gets to the check of the receivable. -/
theorem collects_alone (hc : Consistent sha256 db) (hkey : PaymentKeyUnused db r.tenantId r.idempotencyKey.text)
    (h : Collects db r i (choices 1)) :
    (createInvoicePayment sha256 r).alone engine now db [] choices =
      (checkReceivable r i >>= fun _ => receive sha256 r i (paymentRow sha256 r i now (choices 1))).alone engine now db
        [.payment (paymentRow sha256 r i now (choices 1))] fun n => choices (n + 4) := by
  have hinvoice : Sql.selectInvoiceForUpdate r.invoiceId r.tenantId ⟨now, choices 0⟩ db =
      .done (some i) [] [.invoice i.id] [] := by
    simp only [Sql.selectInvoiceForUpdate, h.names.id, find_named hc.billing.invoiceIds h.names]
  have hpayment := insertPayment_eq sha256 h.names.id hkey ⟨now, choices 1⟩
  rw [Sql.checked_of_all _ (paymentChecks_iff.mpr h.fits), Sql.checked_of_all _ (paymentIdChecks_iff.mpr h.freshId)]
    at hpayment
  obtain ⟨bank, hbank, hcurrency, -⟩ := selectAccount_found hc.ledger.accountIds h.bank ⟨now, choices 2⟩
  obtain ⟨receivable, hreceivable, hcurrency', -⟩ := selectAccount_found hc.ledger.accountIds h.receivable ⟨now, choices 3⟩
  rw [createInvoicePayment_eq, Program.alone_statement hinvoice]
  dsimp only
  rw [Program.alone_statement hpayment]
  dsimp only
  rw [payTx_eq, Program.alone_statement hbank, Program.alone_statement hreceivable]
  dsimp only
  rw [if_neg (by simp [hcurrency, hcurrency'])]
  rfl

def findAccount (db : Db) (id tenantId : Uuid) : Option Account :=
  db.accounts.find? fun a => a.id = id && a.tenantId = tenantId

/-- Why a payment does not get to the check of the receivable. -/
def collectFailure (db : Db) (r : PaymentRequest) (choice : Choice) : Option Failure :=
  match uuidIn r.invoiceId with
  | none => some (.sql .invalidTextRepresentation)
  | some id =>
    match db.invoices.find? fun i => i.id = id && i.tenantId = r.tenantId with
    | none => some (.app notFound)
    | some i =>
      match Sql.firstFailure (paymentChecks r), Sql.firstFailure (paymentIdChecks db choice) with
      | some state, _ | none, some state => some (.sql state)
      | none, none =>
        match findAccount db r.bankAccountId.uuid r.tenantId, findAccount db r.accountReceivableAccountId.uuid r.tenantId with
        | some bank, some receivable =>
            if bank.currency ≠ i.currency ∨ receivable.currency ≠ i.currency then some (.app paymentCurrencyMismatch) else none
        | _, _ => some (.app invalidAccount)

theorem collectFailure_respells (h : r.Respells r') (choice : Choice) :
    collectFailure db r choice = collectFailure db r' choice := by
  have hpaid : r.effectivePaidAt = r'.effectivePaidAt := by
    rw [PaymentRequest.effectivePaidAt, PaymentRequest.effectivePaidAt, h.paidAt, h.paidNow]
  rw [collectFailure, collectFailure, paymentChecks, paymentChecks, h.invoiceId, h.tenantId, h.amountMinor, hpaid,
    h.bankAccountId.uuid, h.accountReceivableAccountId.uuid]

theorem collects_of_none {choice : Choice} (h : collectFailure db r choice = none) : ∃ i, Collects db r i choice := by
  unfold collectFailure at h
  split at h
  · cases h
  · next id hid =>
    split at h
    · cases h
    · next i hi =>
      have hmatch : (i.id = id ∧ i.tenantId = r.tenantId) := by simpa using List.find?_some hi
      split at h
      · cases h
      · cases h
      · next hvalues hids =>
        split at h
        · next bank receivable hbank hreceivable =>
          split at h
          · cases h
          · next hcurrency =>
            rw [not_or, not_not, not_not] at hcurrency
            have haccount : ∀ {id a}, findAccount db id.uuid r.tenantId = some a → a.currency = i.currency →
                HasAccount db id r.tenantId i.currency none := fun hfind hsame =>
              hsame ▸ hasAccount_of_find hfind (List.Subset.refl _) fun t ht => absurd ht (Option.not_mem_none t)
            exact ⟨i, ⟨List.mem_of_find?_eq_some hi, by rw [hid, hmatch.1], hmatch.2⟩,
              paymentChecks_iff.mp (Sql.firstFailure_none hvalues), paymentIdChecks_iff.mp (Sql.firstFailure_none hids),
              haccount hbank hcurrency.1, haccount hreceivable hcurrency.2⟩
        · cases h

theorem refused_alone (hkey : PaymentKeyUnused db r.tenantId r.idempotencyKey.text) {f : Failure}
    (h : collectFailure db r (choices 1) = some f) :
    ((createInvoicePayment sha256 r).alone engine now db [] choices).1 = .error f := by
  have hinvoice : ∀ {id}, uuidIn r.invoiceId = some id → ∃ locks,
      Sql.selectInvoiceForUpdate r.invoiceId r.tenantId ⟨now, choices 0⟩ db =
        .done (db.invoices.find? fun i => i.id = id && i.tenantId = r.tenantId) [] locks [] := by
    intro id hid
    simp only [Sql.selectInvoiceForUpdate, hid]
    split
    · next hi => exact ⟨[], by rw [hi]⟩
    · next i hi => exact ⟨[.invoice i.id], by rw [hi]⟩
  rw [createInvoicePayment_eq]
  unfold collectFailure at h
  split at h
  · next hid =>
    obtain rfl := Option.some.inj h
    have hread : Sql.selectInvoiceForUpdate r.invoiceId r.tenantId ⟨now, choices 0⟩ db =
        .error (.sql .invalidTextRepresentation) := by
      simp only [Sql.selectInvoiceForUpdate, hid]
    rw [Program.alone_error hread]
  · next id hid =>
    obtain ⟨locks, hread⟩ := hinvoice hid
    split at h
    · next hi =>
      obtain rfl := Option.some.inj h
      rw [Program.alone_statement hread, hi]
      rfl
    · next i hi =>
      have hmatch : (i.id = id ∧ i.tenantId = r.tenantId) := by simpa using List.find?_some hi
      have hpayment := insertPayment_eq sha256 (hmatch.1.symm ▸ hid) hkey ⟨now, choices 1⟩
      rw [Program.alone_statement hread, hi]
      dsimp only
      split at h
      · next state _ hvalues =>
        obtain rfl := Option.some.inj h
        rw [Sql.checked, Sql.checkedBy, hvalues] at hpayment
        rw [Program.alone_error hpayment]
      · next state hvalues hids =>
        obtain rfl := Option.some.inj h
        rw [Sql.checked, Sql.checkedBy, hvalues] at hpayment
        dsimp only at hpayment
        rw [Sql.checked, Sql.checkedBy, hids] at hpayment
        rw [Program.alone_error hpayment]
      · next hvalues hids =>
        rw [Sql.checked, Sql.checkedBy, hvalues] at hpayment
        dsimp only at hpayment
        rw [Sql.checked, Sql.checkedBy, hids] at hpayment
        rw [Program.alone_statement hpayment]
        dsimp only
        rw [payTx_eq, Program.alone_statement (r := findAccount db r.bankAccountId.uuid r.tenantId) rfl,
          Program.alone_statement (r := findAccount db r.accountReceivableAccountId.uuid r.tenantId) rfl]
        split at h
        · next bank receivable hbank hreceivable =>
          split at h
          · next hcurrency =>
            obtain rfl := Option.some.inj h
            rw [if_pos hcurrency]
            rfl
          · cases h
        · obtain rfl := Option.some.inj h
          rfl

/-! ## The receivable -/

theorem spelled_eq_iff {u : Uuid} {t : UuidText} : u.spelled = t ↔ u = t.uuid ∧ t.Lower := by
  constructor
  · rintro rfl
    exact ⟨(Uuid.uuid_spelled u).symm, by rw [UuidText.Lower, Uuid.uuid_spelled]⟩
  · rintro ⟨rfl, hlower⟩
    exact hlower

/-- What the check of the receivable comes to, where the invoice has its issue entry. -/
def receivableCheck (db : Db) (r : PaymentRequest) (i : Invoice) (entryId : Uuid) (choice : Choice) : Except Failure Unit :=
  match foundIssueLine db entryId r.tenantId choice with
  | none => .error (noReceivableLine entryId i.id)
  | some l =>
      if l.accountId = r.accountReceivableAccountId.uuid ∧ r.accountReceivableAccountId.Lower then .ok ()
      else .error (.app receivableMismatch)

theorem checkReceivable_alone (hlines : (engine.view log db).lines = db.lines) {x : Uuid}
    (hx : i.issueJournalEntryId = some x) :
    (checkReceivable r i).alone engine now db log choices =
      (receivableCheck db r i x (choices 0), log, fun n => choices (n + 1)) := by
  have hfound : Sql.selectIssueLine x r.tenantId ⟨now, choices 0⟩ (engine.view log db) =
      .done (foundIssueLine db x r.tenantId (choices 0)) [] [] [] := by
    unfold Sql.selectIssueLine foundIssueLine
    rw [hlines]
  unfold checkReceivable receivableCheck
  rw [hx]
  dsimp only
  rw [Program.alone_statement hfound, List.append_nil]
  cases foundIssueLine db x r.tenantId (choices 0) with
  | none => rfl
  | some l =>
      dsimp only
      by_cases hspelled : l.accountId.spelled = r.accountReceivableAccountId
      · rw [if_neg (not_not.mpr hspelled), if_pos (spelled_eq_iff.mp hspelled)]
        rfl
      · rw [if_pos hspelled, if_neg (mt spelled_eq_iff.mpr hspelled)]
        rfl

/-! ## From the receivable to the entry -/

theorem receive_alone (hid : uuidIn r.invoiceId = some i.id) (hinvoice : p.invoiceId = i.id)
    (hamount : p.amountMinor = r.amountMinor) :
    (receive sha256 r i p).alone engine now db [.payment p] choices =
      if i.totalAmountMinor < paidMinor db i.id + r.amountMinor then
        (.error (.app paymentExceedsRemaining), [.payment p], fun n => choices (n + 1))
      else if canTransition i.status (targetStatus db r i) = false then
        (.error (.app (notPayable i.status)), [.payment p], fun n => choices (n + 1))
      else (settleTx sha256 r i p (targetStatus db r i)).alone engine now db [.payment p] fun n => choices (n + 1) := by
  have hpaid : ((shuffle (choices 0).order ((engine.view [.payment p] db).payments.filter fun q => q.invoiceId = i.id)).map
      (·.amountMinor)).sum = paidMinor db i.id + r.amountMinor := by
    have hrows : (engine.view [.payment p] db).payments = db.payments ++ [p] := rfl
    have hlast : [p].filter (fun q => q.invoiceId = i.id) = [p] := by simp [hinvoice]
    rw [((shuffle_perm _ _).map _).sum_eq, hrows, List.filter_append, hlast, List.map_append, List.sum_append,
      List.map_singleton, List.sum_singleton, hamount]
    rfl
  unfold receive
  rw [Program.alone_statement (selectPayments_eq hid ⟨now, choices 0⟩ _)]
  simp only [hpaid]
  rw [show (if paidMinor db i.id + r.amountMinor = i.totalAmountMinor then InvoiceStatus.paid else .partiallyPaid) =
    targetStatus db r i from rfl]
  split
  · rfl
  · split <;> rfl

variable (sha256) in
/-- `settleTx`, after the entry. -/
def linkTx (r : PaymentRequest) (invoice : Invoice) (payment : InvoicePayment) (targetStatus : InvoiceStatus)
    (result : EntryResult) : Tx PaymentResult := do
  let linkedPayment ← Program.statement (Sql.linkPayment payment.id result.entry.id)
  if targetStatus ≠ invoice.status then
    Program.statement (Sql.insertHistory invoice.id (some invoice.status) targetStatus (text "Payment received"))
  let updatedInvoice ← Program.statement (Sql.updateInvoice r.invoiceId r.tenantId fun s =>
    { s with status := targetStatus, updatedAt := r.updatedAt.date.timestamp })
  return ⟨linkedPayment, updatedInvoice, some result.entry, false⟩

theorem settleTx_eq (r : PaymentRequest) (i : Invoice) (p : InvoicePayment) (t : InvoiceStatus) :
    settleTx sha256 r i p t = createJournalEntryTx sha256 r.tenantId (paymentKey p.id) (paymentData r i) >>=
      linkTx r i p t := rfl

theorem linkPayment_alike {db db' : Db} (h : db.unkeyed = db'.unkeyed) {id entryId : Uuid} (ctx : Context Choice) :
    (Sql.linkPayment id entryId ctx db).Alike Write.unkeyed (fun _ _ => True) (Sql.linkPayment id entryId ctx db') := by
  have hfind : ∀ d : Db, (d.payments.find? fun p => p.id = id).map InvoicePayment.unkeyed =
      d.unkeyed.payments.find? fun p => p.id = id := by
    intro d
    show _ = (d.payments.map InvoicePayment.unkeyed).find? _
    rw [List.find?_map]
    rfl
  have hboth := (hfind db).trans ((congrArg (fun d : Db => d.payments.find? fun p => p.id = id) h).trans (hfind db').symm)
  unfold Sql.linkPayment
  cases hp : db.payments.find? fun p => p.id = id with
  | none =>
      rw [hp, Option.map_none, eq_comm, Option.map_eq_none_iff] at hboth
      rw [hboth]
      exact .done trivial rfl
  | some p =>
      rw [hp, Option.map_some, eq_comm, Option.map_eq_some_iff] at hboth
      obtain ⟨p', hp', heq⟩ := hboth
      have hid := InvoicePayment.id_of_unkeyed heq
      rw [hp']
      refine .done trivial ?_
      rw [hid]

theorem linkTx_alike (h : r.Respells r') (hp : p.unkeyed = p'.unkeyed) {t : InvoiceStatus} {result result' : EntryResult}
    (hresult : result.Same result') (hlog : log.map Write.unkeyed = log'.map Write.unkeyed) :
    Alike Write.unkeyed (fun _ _ => True) ((linkTx r i p t result).alone engine now db log choices)
      ((linkTx r' i p' t result').alone engine now db log' choices) := by
  have hid := InvoicePayment.id_of_unkeyed hp
  have hentry := JournalEntry.id_of_unkeyed hresult.entry
  unfold linkTx
  rw [← h.invoiceId, ← h.tenantId, ← h.updatedAt, ← hid, ← hentry]
  refine Alike.call hlog (linkPayment_alike (forgets_unkeyed.view hlog rfl) _) fun _ _ l l' _ hl => ?_
  dsimp only
  split
  · refine Alike.blind forgets_unkeyed (fun _ _ => rfl) hl fun _ l l' hl => ?_
    exact Alike.blind forgets_unkeyed (fun _ _ => rfl) hl fun _ l l' hl => Alike.ret trivial hl
  · exact Alike.blind forgets_unkeyed (fun _ _ => rfl) hl fun _ l l' hl => Alike.ret trivial hl

theorem paymentData_respells (h : r.Respells r') (i : Invoice) : (paymentData r i).Respells (paymentData r' i) where
  description := rfl
  occurredAt := by
    show r.effectivePaidAt = r'.effectivePaidAt
    rw [PaymentRequest.effectivePaidAt, PaymentRequest.effectivePaidAt, h.paidAt, h.paidNow]
  lines := .cons ⟨h.bankAccountId, h.amountMinor⟩
    (.cons ⟨h.accountReceivableAccountId, congrArg Neg.neg h.amountMinor⟩ .nil)

theorem settleTx_alike (hids : (db.accounts.map (·.id)).Nodup) (h : r.Respells r') (hp : p.unkeyed = p'.unkeyed)
    (hkey : EntryKeyUnused db r.tenantId (paymentKey p.id)) {t : InvoiceStatus}
    (hsplit : ¬ EntrySplits db r.tenantId (paymentData r i) (paymentData r' i) (choices 0)) :
    Alike Write.unkeyed (fun _ _ => True) ((settleTx sha256 r i p t).alone engine now db [.payment p] choices)
      ((settleTx sha256 r' i p' t).alone engine now db [.payment p'] choices) := by
  have hlog : [Write.payment p].map Write.unkeyed = [Write.payment p'].map Write.unkeyed := by
    rw [List.map_singleton, List.map_singleton, Write.unkeyed, Write.unkeyed, hp]
  rw [settleTx_eq, settleTx_eq, ← h.tenantId, ← InvoicePayment.id_of_unkeyed hp]
  refine Alike.bind (post_alike hids (paymentData_respells h i) hlog rfl rfl rfl hkey hkey hsplit) ?_
  intro result result' l l' choices hresult hl
  exact linkTx_alike h hp hresult hl

/-- Why the amount is refused. -/
def receiveFailure (db : Db) (r : PaymentRequest) (i : Invoice) : Failure :=
  if i.totalAmountMinor < paidMinor db i.id + r.amountMinor then .app paymentExceedsRemaining else .app (notPayable i.status)

variable (sha256) in
/-- The payment's row, in a database where it is inserted. -/
abbrev rowOf (r : PaymentRequest) (i : Invoice) (now : Nat) (choices : Nat → Choice) : InvoicePayment :=
  paymentRow sha256 r i now (choices 1)

theorem receiveFailure_respells (h : r.Respells r') (i : Invoice) : receiveFailure db r i = receiveFailure db r' i := by
  rw [receiveFailure, receiveFailure, h.amountMinor]

theorem receive_refused (hid : uuidIn r.invoiceId = some i.id) (hinvoice : p.invoiceId = i.id)
    (hamount : p.amountMinor = r.amountMinor) (h : ¬ Receives db r i) :
    (receive sha256 r i p).alone engine now db [.payment p] choices =
      (.error (receiveFailure db r i), [.payment p], fun n => choices (n + 1)) := by
  rw [receive_alone hid hinvoice hamount, receiveFailure]
  split
  · rfl
  · next hle =>
    have hedge : canTransition i.status (targetStatus db r i) = false := by
      by_contra hedge
      exact h ⟨not_lt.mp hle, Bool.not_eq_false _ ▸ hedge⟩
    rw [if_pos hedge]

theorem receive_settles (hid : uuidIn r.invoiceId = some i.id) (hinvoice : p.invoiceId = i.id)
    (hamount : p.amountMinor = r.amountMinor) (h : Receives db r i) :
    (receive sha256 r i p).alone engine now db [.payment p] choices =
      (settleTx sha256 r i p (targetStatus db r i)).alone engine now db [.payment p] fun n => choices (n + 1) := by
  rw [receive_alone hid hinvoice hamount, if_neg (not_lt.mpr h.remaining), if_neg (by rw [h.edge]; decide)]

/-! ## The whole payment -/

theorem Collects.respells {choice : Choice} (hcollects : Collects db r i choice) (h : r.Respells r') :
    Collects db r' i choice where
  names := h.invoiceId ▸ h.tenantId ▸ hcollects.names
  fits := by
    have hfits := hcollects.fits
    rw [PaymentRequest.fits, PaymentRequest.effectivePaidAt] at hfits ⊢
    rw [← h.amountMinor, ← h.paidAt, ← h.paidNow]
    exact hfits
  freshId := hcollects.freshId
  bank := by
    have hbank := hcollects.bank
    rw [HasAccount, h.bankAccountId.uuid, h.tenantId] at hbank
    exact hbank
  receivable := by
    have hreceivable := hcollects.receivable
    rw [HasAccount, h.accountReceivableAccountId.uuid, h.tenantId] at hreceivable
    exact hreceivable

theorem CreditsReceivable.respells {choice : Choice} (hcredits : CreditsReceivable db r i choice) (h : r.Respells r') :
    CreditsReceivable db r' i choice := by
  rw [CreditsReceivable, ← h.tenantId, ← h.accountReceivableAccountId.uuid]
  exact hcredits

theorem Receives.respells (hreceives : Receives db r i) (h : r.Respells r') : Receives db r' i where
  remaining := h.amountMinor ▸ hreceives.remaining
  edge := by
    rw [targetStatus, ← h.amountMinor]
    exact hreceives.edge

/-- The payment is on the receivable of the invoice: its spelling decides. -/
theorem credits_alone (hc : Consistent sha256 db) (hkey : PaymentKeyUnused db r.tenantId r.idempotencyKey.text)
    (hcollects : Collects db r i (choices 1)) (hcredits : CreditsReceivable db r i (choices 4)) :
    (createInvoicePayment sha256 r).alone engine now db [] choices =
      if r.accountReceivableAccountId.Lower then
        (receive sha256 r i (rowOf sha256 r i now choices)).alone engine now db [.payment (rowOf sha256 r i now choices)]
          fun n => choices (n + 5)
      else (.error (.app receivableMismatch), [.payment (rowOf sha256 r i now choices)], fun n => choices (n + 5)) := by
  obtain ⟨x, l, hx, hl, hid⟩ := hcredits
  rw [collects_alone hc hkey hcollects, Program.alone_bind, checkReceivable_alone rfl hx, receivableCheck, hl]
  dsimp only
  by_cases hlower : r.accountReceivableAccountId.Lower
  · rw [if_pos ⟨hid, hlower⟩, if_pos hlower]
  · rw [if_neg fun h => hlower h.2, if_neg hlower]

/-- The payment is on another account. -/
theorem uncredited_alone (hc : Consistent sha256 db) (hkey : PaymentKeyUnused db r.tenantId r.idempotencyKey.text)
    (hcollects : Collects db r i (choices 1)) {x : Uuid} (hx : i.issueJournalEntryId = some x)
    (hcredits : ¬ CreditsReceivable db r i (choices 4)) :
    ((createInvoicePayment sha256 r).alone engine now db [] choices).1 =
      .error (if foundIssueLine db x r.tenantId (choices 4) = none then noReceivableLine x i.id
        else .app receivableMismatch) := by
  rw [collects_alone hc hkey hcollects, Program.alone_bind, checkReceivable_alone rfl hx, receivableCheck]
  cases hl : foundIssueLine db x r.tenantId (choices 4) with
  | none => rw [if_pos rfl]
  | some l =>
      dsimp only
      rw [if_neg fun h => hcredits ⟨x, l, hx, hl, h.1⟩, if_neg (Option.some_ne_none l)]

/-- The invoice has no issue entry. -/
theorem unissued_alone (hc : Consistent sha256 db) (hkey : PaymentKeyUnused db r.tenantId r.idempotencyKey.text)
    (hcollects : Collects db r i (choices 1)) (hx : i.issueJournalEntryId = none) :
    ((createInvoicePayment sha256 r).alone engine now db [] choices).1 = .error (receiveFailure db r i) := by
  have hreceives : ¬ Receives db r i := by
    intro h
    have hedge := h.edge
    have hissued := (hc.billing.standing i hcollects.names.mem).issued
    rw [targetStatus] at hedge
    refine hissued ?_ hx
    revert hedge
    cases i.status <;> split <;> decide
  rw [collects_alone hc hkey hcollects, checkReceivable, hx]
  dsimp only
  rw [Program.pure_eq, Program.ret_bind, receive_refused hcollects.names.id rfl rfl hreceives]

/-! ## Where two spellings differ -/

/-- Not answered with the code of `receivableMismatch`. -/
def NotMismatch (f : Failure) : Prop := (classify f).code ≠ receivableMismatch.code
  deriving Decidable

theorem notMismatch_sql (state : SqlState) : NotMismatch (.sql state) := by
  cases state <;> decide

theorem replayEntry_fails (tenantId : Uuid) (key print : Text) : (replayEntry tenantId key print).Fails NotMismatch := by
  refine ⟨fun _ _ _ h => (by cases h), fun existing => ?_⟩
  cases existing with
  | none => exact (by decide : NotMismatch undefinedRow)
  | some existing =>
      show Program.Fails NotMismatch (if _ then _ else _)
      split
      · exact (by decide : NotMismatch (.app idempotencyKeyReused))
      · exact ⟨fun _ _ _ h => (by cases h), fun _ => trivial⟩

theorem postLines_fails (tenantId : Uuid) (lines : List LineData) (e : JournalEntry) :
    (postLines tenantId lines e).Fails NotMismatch := by
  rw [postLines_eq]
  refine ⟨fun _ _ _ h => (by cases h), fun rows => ?_⟩
  show Program.Fails NotMismatch (if _ then _ else _)
  split
  · exact (by decide : NotMismatch (.app invalidAccount))
  · exact bookLines_fails tenantId lines e rows notMismatch_sql (by decide)

theorem createJournalEntryTx_fails (tenantId : Uuid) (key : Text) (data : EntryData) :
    (createJournalEntryTx sha256 tenantId key data).Fails NotMismatch := by
  unfold createJournalEntryTx
  split
  · exact (by decide : NotMismatch (.app journalEntryUnbalanced))
  · refine fails_statement (onlySql_insertEntry _) notMismatch_sql fun entry => ?_
    cases entry with
    | none => exact replayEntry_fails _ _ _
    | some e => exact postLines_fails _ _ e

theorem linkTx_fails (r : PaymentRequest) (i : Invoice) (p : InvoicePayment) (t : InvoiceStatus) (result : EntryResult)
    {P : Failure → Prop} (hsql : ∀ state, P (.sql state)) : (linkTx r i p t result).Fails P := by
  have hupdate : ∀ linked, (Program.statement (Sql.updateInvoice r.invoiceId r.tenantId fun s =>
      { s with status := t, updatedAt := r.updatedAt.date.timestamp }) >>= fun updatedInvoice =>
        (pure ⟨linked, updatedInvoice, some result.entry, false⟩ : Tx PaymentResult)).Fails P :=
    fun _ => fails_statement (onlySql_updateInvoice _ _ _) hsql fun _ => trivial
  refine fails_statement (onlySql_linkPayment _ _) hsql fun linked => ?_
  dsimp only
  split
  · exact fails_statement (onlySql_insertHistory _ _ _ _) hsql fun _ => hupdate linked
  · exact hupdate linked

theorem settleTx_fails (r : PaymentRequest) (i : Invoice) (p : InvoicePayment) (t : InvoiceStatus) :
    (settleTx sha256 r i p t).Fails NotMismatch := by
  rw [settleTx_eq]
  exact (createJournalEntryTx_fails _ _ _).bind fun result => linkTx_fails r i p t result notMismatch_sql

theorem receive_fails (r : PaymentRequest) (i : Invoice) (p : InvoicePayment) : (receive sha256 r i p).Fails NotMismatch := by
  refine fails_statement (onlySql_selectPayments _) notMismatch_sql fun rows => ?_
  dsimp only
  split
  · exact (by decide : NotMismatch (.app paymentExceedsRemaining))
  · generalize (if (rows.map (·.amountMinor)).sum = i.totalAmountMinor then InvoiceStatus.paid else .partiallyPaid) = t
    split
    · show text "NOT_PAYABLE" ≠ text "RECEIVABLE_ACCOUNT_MISMATCH"
      decide
    · exact settleTx_fails r i p t

/-- One receivable is in lower case, the other is not. -/
theorem lower_differs (hc : Consistent sha256 db) (hkey : PaymentKeyUnused db r.tenantId r.idempotencyKey.text)
    (hkey' : PaymentKeyUnused db r'.tenantId r'.idempotencyKey.text) (hcollects : Collects db r i (choices 1))
    (hcollects' : Collects db r' i (choices 1)) (hcredits : CreditsReceivable db r i (choices 4))
    (hcredits' : CreditsReceivable db r' i (choices 4)) (hlower : ¬ r.accountReceivableAccountId.Lower)
    (hlower' : r'.accountReceivableAccountId.Lower) :
    ¬ SameOutcome (outcome (createInvoicePayment sha256 r) now db choices)
      (outcome (createInvoicePayment sha256 r') now db choices) := by
  have hrefused : ((createInvoicePayment sha256 r).alone engine now db [] choices).1 = .error (.app receivableMismatch) := by
    rw [credits_alone hc hkey hcollects hcredits, if_neg hlower]
  refine not_sameOutcome hrefused (by decide) fun f hf => ?_
  rw [credits_alone hc hkey' hcollects' hcredits', if_pos hlower'] at hf
  exact (receive_fails r' i _).alone hf

/-- Where the receivable is in lower case, the lines of the payment are uniform unless the bank account is the receivable too,
in another spelling. -/
theorem uniform_payment (i : Invoice) (hlower : r.accountReceivableAccountId.Lower) :
    Uniform (paymentData r i).lines ↔
      (r.bankAccountId.uuid = r.accountReceivableAccountId.uuid → r.bankAccountId.Lower) := by
  have hbank : r.bankAccountId.uuid = r.accountReceivableAccountId.uuid →
      (r.bankAccountId = r.accountReceivableAccountId ↔ r.bankAccountId.Lower) := by
    intro heq
    rw [UuidText.Lower, heq, hlower]
    exact eq_comm
  constructor
  · intro huniform heq
    exact (hbank heq).mp (huniform _ List.mem_cons_self _ (List.mem_cons_of_mem _ List.mem_cons_self) heq)
  · intro himp l hl m hm heq
    simp only [paymentData, List.mem_cons, List.not_mem_nil, or_false] at hl hm
    rcases hl with rfl | rfl <;> rcases hm with rfl | rfl
    · rfl
    · exact (hbank heq).mpr (himp heq)
    · exact ((hbank heq.symm).mpr (himp heq.symm)).symm
    · rfl

theorem nulFree_paymentDescription (n : Nat) : nulFree (text "Payment for invoice " ++ invoiceNumber n) = true := by
  have hdigits : 0 ∉ padStart 6 (decimal n) := fun h => absurd (isDigit_of_mem_padStart h).1 (by decide)
  simp only [nulFree, invoiceNumber, Bool.not_eq_true', List.contains_eq_mem, decide_eq_false_iff_not, List.mem_append,
    not_or]
  exact ⟨by decide, by decide, hdigits⟩

/-- The entries of the two payments split where their spellings do. -/
theorem Collects.entrySplits (hc : Consistent sha256 db) {choice choice' : Choice} (hcollects : Collects db r i choice)
    (hfresh : ∀ e ∈ db.entries, e.id ≠ choice'.fresh 0)
    (hspelled : ¬ (Uniform (paymentData r i).lines ↔ Uniform (paymentData r' i).lines)) :
    EntrySplits db r.tenantId (paymentData r i) (paymentData r' i) choice' where
  balanced := by simp [paymentData]
  fits := by
    have hfits := hcollects.fits
    rw [PaymentRequest.fits, Bool.and_eq_true, Bool.and_eq_true] at hfits
    have hdescription : nulFree (paymentData r i).description = true := by
      show nulFree (text "Payment for invoice " ++ i.invoiceNumber) = true
      rw [hc.numbering.text i hcollects.names.mem]
      exact nulFree_paymentDescription _
    rw [EntryData.fits, hdescription, Bool.true_and]
    exact hfits.1.2
  freshId := hfresh
  found := by
    have hnamed : ∀ {id}, HasAccount db id r.tenantId i.currency none →
        ∃ a ∈ db.accounts, a.id = id.uuid ∧ a.tenantId = r.tenantId := by
      intro id h
      obtain ⟨a, ha, hid, htenant, -⟩ := h
      exact ⟨a, ha, hid, htenant⟩
    intro l hl
    simp only [paymentData, List.mem_cons, List.not_mem_nil, or_false] at hl
    rcases hl with rfl | rfl
    · exact hnamed hcollects.bank
    · exact hnamed hcollects.receivable
  spelled := hspelled

/-- The receivable is the bank account too, and one request spells it in two ways. -/
theorem bank_differs (hc : Consistent sha256 db) (h : r.Respells r')
    (hkey : PaymentKeyUnused db r.tenantId r.idempotencyKey.text)
    (hkey' : PaymentKeyUnused db r'.tenantId r'.idempotencyKey.text)
    (hentry : EntryKeyUnused db r.tenantId (paymentKey ((choices 1).fresh 0)))
    (hcollects : Collects db r i (choices 1)) (hcredits : CreditsReceivable db r i (choices 4))
    (hlower : r.accountReceivableAccountId.Lower) (hlower' : r'.accountReceivableAccountId.Lower)
    (hreceives : Receives db r i) (hfresh : ∀ e ∈ db.entries, e.id ≠ (choices 6).fresh 0)
    (hmixed : ¬ Uniform (paymentData r i).lines) (huniform : Uniform (paymentData r' i).lines) :
    ¬ SameOutcome (outcome (createInvoicePayment sha256 r) now db choices)
      (outcome (createInvoicePayment sha256 r') now db choices) := by
  have hspelled : ¬ (Uniform (paymentData r i).lines ↔ Uniform (paymentData r' i).lines) :=
    fun hiff => hmixed (hiff.mpr huniform)
  have hsplit := hcollects.entrySplits hc hfresh hspelled
  have hcollects' := hcollects.respells h
  have hreceives' := hreceives.respells h
  have hposted : ((createJournalEntryTx sha256 r.tenantId (paymentKey ((choices 1).fresh 0)) (paymentData r i)).alone engine now
      db [.payment (rowOf sha256 r i now choices)] fun n => choices (n + 6)).1 = .error (.app invalidAccount) :=
    post_mixed sha256 now hc.ledger.accountIds rfl rfl hentry hsplit hmixed
  have hrefused : ((createInvoicePayment sha256 r).alone engine now db [] choices).1 = .error (.app invalidAccount) := by
    rw [credits_alone hc hkey hcollects hcredits, if_pos hlower, receive_settles hcollects.names.id rfl rfl hreceives,
      settleTx_eq]
    exact Program.alone_bind_error hposted
  refine not_sameOutcome hrefused (by decide) fun f hf => ?_
  rw [credits_alone hc hkey' hcollects' (hcredits.respells h), if_pos hlower',
    receive_settles hcollects'.names.id rfl rfl hreceives', settleTx_eq] at hf
  rcases Program.error_of_alone_bind hf with hf | ⟨result, log', rest, hf⟩
  · rw [← h.tenantId] at hf
    exact post_uniform hc.ledger.accountIds rfl rfl hentry (hsplit.symm (paymentData_respells h i)) huniform hf
  · exact (linkTx_fails r' i _ _ result (P := fun f => (classify f).code ≠ invalidAccount.code)
      classify_sql_ne_invalidAccount).alone hf

/-- Both receivables are in lower case. -/
theorem lower_sameOutcome (hc : Consistent sha256 db) (h : r.Respells r')
    (hkey : PaymentKeyUnused db r.tenantId r.idempotencyKey.text)
    (hkey' : PaymentKeyUnused db r'.tenantId r'.idempotencyKey.text)
    (hentry : EntryKeyUnused db r.tenantId (paymentKey ((choices 1).fresh 0)))
    (hcollects : Collects db r i (choices 1)) (hcredits : CreditsReceivable db r i (choices 4))
    (hlower : r.accountReceivableAccountId.Lower) (hlower' : r'.accountReceivableAccountId.Lower)
    (hsplit : ¬ PaymentSplits db r r' choices) :
    SameOutcome (outcome (createInvoicePayment sha256 r) now db choices)
      (outcome (createInvoicePayment sha256 r') now db choices) := by
  have hcollects' := hcollects.respells h
  have hcredits' := hcredits.respells h
  by_cases hreceives : Receives db r i
  · have hspelled : ¬ EntrySplits db r.tenantId (paymentData r i) (paymentData r' i) (choices 6) := by
      intro hentries
      have heqs : r'.bankAccountId.uuid = r'.accountReceivableAccountId.uuid ↔
          r.bankAccountId.uuid = r.accountReceivableAccountId.uuid := by
        rw [h.bankAccountId.uuid, h.accountReceivableAccountId.uuid]
      have hdiffer := hentries.spelled
      rw [uniform_payment i hlower, uniform_payment i hlower', heqs] at hdiffer
      have heq : r.bankAccountId.uuid = r.accountReceivableAccountId.uuid := by
        by_contra hne
        exact hdiffer (iff_of_true (fun heq => absurd heq hne) fun heq => absurd heq hne)
      refine hsplit ⟨i, hcollects, hcredits, Or.inr ⟨hlower, hlower', hreceives, hentries.freshId, heq, fun hbanks => ?_⟩⟩
      exact hdiffer ⟨fun hb _ => hbanks.mp (hb heq), fun hb _ => hbanks.mpr (hb heq)⟩
    have htarget : targetStatus db r' i = targetStatus db r i := by
      rw [targetStatus, targetStatus, h.amountMinor]
    have hrow : (rowOf sha256 r i now choices).unkeyed = (rowOf sha256 r' i now choices).unkeyed := by
      rw [InvoicePayment.unkeyed, InvoicePayment.unkeyed, rowOf, rowOf, paymentRow, paymentRow,
        PaymentRequest.effectivePaidAt, PaymentRequest.effectivePaidAt, h.amountMinor, h.paidAt, h.paidNow, h.tenantId]
    refine Alike.sameOutcome (R := fun _ _ => True) ?_
    rw [credits_alone hc hkey hcollects hcredits, if_pos hlower, credits_alone hc hkey' hcollects' hcredits', if_pos hlower',
      receive_settles hcollects.names.id rfl rfl hreceives,
      receive_settles hcollects'.names.id rfl rfl (hreceives.respells h), htarget]
    exact settleTx_alike hc.ledger.accountIds h hrow hentry hspelled
  · have hreceives' : ¬ Receives db r' i := fun hr => hreceives (hr.respells h.symm)
    have hrefused : ((createInvoicePayment sha256 r).alone engine now db [] choices).1 = .error (receiveFailure db r i) := by
      rw [credits_alone hc hkey hcollects hcredits, if_pos hlower, receive_refused hcollects.names.id rfl rfl hreceives]
    have hrefused' : ((createInvoicePayment sha256 r').alone engine now db [] choices).1 =
        .error (receiveFailure db r i) := by
      rw [credits_alone hc hkey' hcollects' hcredits', if_pos hlower', receiveFailure_respells h i,
        receive_refused hcollects'.names.id rfl rfl hreceives']
    rw [outcome_error hrefused, outcome_error hrefused']
    exact rfl

/-- **Two spellings of a payment end alike** exactly where they do not split. -/
theorem payment_sameOutcome_iff (hc : Consistent sha256 db) (h : r.Respells r')
    (hkey : PaymentKeyUnused db r.tenantId r.idempotencyKey.text)
    (hkey' : PaymentKeyUnused db r'.tenantId r'.idempotencyKey.text)
    (hentry : EntryKeyUnused db r.tenantId (paymentKey ((choices 1).fresh 0))) :
    SameOutcome (outcome (createInvoicePayment sha256 r) now db choices)
        (outcome (createInvoicePayment sha256 r') now db choices) ↔ ¬ PaymentSplits db r r' choices := by
  have hrefused : ∀ f, ((createInvoicePayment sha256 r).alone engine now db [] choices).1 = .error f →
      ((createInvoicePayment sha256 r').alone engine now db [] choices).1 = .error f →
      SameOutcome (outcome (createInvoicePayment sha256 r) now db choices)
        (outcome (createInvoicePayment sha256 r') now db choices) := by
    intro f hf hf'
    rw [outcome_error hf, outcome_error hf']
    exact rfl
  constructor
  · rintro hsame ⟨i, hcollects, hcredits, hspelled⟩
    have hcollects' := hcollects.respells h
    have hcredits' := hcredits.respells h
    rcases hspelled with hspelled | ⟨hlower, hlower', hreceives, hfresh, heq, hbanks⟩
    · by_cases hlower : r.accountReceivableAccountId.Lower
      · have hlower' : ¬ r'.accountReceivableAccountId.Lower := fun hl => hspelled (iff_of_true hlower hl)
        exact lower_differs hc hkey' hkey hcollects' hcollects hcredits' hcredits hlower' hlower hsame.symm
      · have hlower' : r'.accountReceivableAccountId.Lower := by
          by_contra hl
          exact hspelled (iff_of_false hlower hl)
        exact lower_differs hc hkey hkey' hcollects hcollects' hcredits hcredits' hlower hlower' hsame
    · have heq' : r'.bankAccountId.uuid = r'.accountReceivableAccountId.uuid :=
        h.bankAccountId.uuid.symm.trans (heq.trans h.accountReceivableAccountId.uuid)
      have huniform := uniform_payment i hlower
      have huniform' := uniform_payment i hlower'
      by_cases hbank : r.bankAccountId.Lower
      · have hbank' : ¬ r'.bankAccountId.Lower := fun hb => hbanks (iff_of_true hbank hb)
        exact bank_differs hc h.symm hkey' hkey (h.tenantId ▸ hentry) hcollects' hcredits' hlower' hlower
          (hreceives.respells h) hfresh (fun hu => hbank' (huniform'.mp hu heq')) (huniform.mpr fun _ => hbank) hsame.symm
      · have hbank' : r'.bankAccountId.Lower := by
          by_contra hb
          exact hbanks (iff_of_false hbank hb)
        exact bank_differs hc h hkey hkey' hentry hcollects hcredits hlower hlower' hreceives hfresh
          (fun hu => hbank (huniform.mp hu heq)) (huniform'.mpr fun _ => hbank') hsame
  · intro hsplit
    cases hfailure : collectFailure db r (choices 1) with
    | some f => exact hrefused f (refused_alone hkey hfailure) (refused_alone hkey' (collectFailure_respells h _ ▸ hfailure))
    | none =>
        obtain ⟨i, hcollects⟩ := collects_of_none hfailure
        have hcollects' := hcollects.respells h
        cases hx : i.issueJournalEntryId with
        | none =>
            exact hrefused _ (unissued_alone hc hkey hcollects hx)
              (receiveFailure_respells h i ▸ unissued_alone hc hkey' hcollects' hx)
        | some x =>
            by_cases hcredits : CreditsReceivable db r i (choices 4)
            · have hcredits' := hcredits.respells h
              by_cases hspelled : r.accountReceivableAccountId.Lower ↔ r'.accountReceivableAccountId.Lower
              · by_cases hlower : r.accountReceivableAccountId.Lower
                · exact lower_sameOutcome hc h hkey hkey' hentry hcollects hcredits hlower (hspelled.mp hlower) hsplit
                · have hlower' := mt hspelled.mpr hlower
                  refine hrefused (.app receivableMismatch) ?_ ?_
                  · rw [credits_alone hc hkey hcollects hcredits, if_neg hlower]
                  · rw [credits_alone hc hkey' hcollects' hcredits', if_neg hlower']
              · exact absurd ⟨i, hcollects, hcredits, Or.inl hspelled⟩ hsplit
            · have hcredits' : ¬ CreditsReceivable db r' i (choices 4) := fun hc' => hcredits (hc'.respells h.symm)
              exact hrefused _ (uncredited_alone hc hkey hcollects hx hcredits)
                (h.tenantId ▸ uncredited_alone hc hkey' hcollects' hx hcredits')

/-! ## Every reachable state -/

/-- **The spelling of account ids** changes the outcome of an entry or a payment exactly where the requests split. -/
theorem spelling_iff {s : Sys} (h : Reaches sha256 anyStep s) (now : Nat) (choices : Nat → Choice) :
    (∀ (tenantId : Uuid) (key key' : IdempotencyKey) (data data' : EntryData), data.Respells data' →
      EntryKeyUnused s.db tenantId key.text → EntryKeyUnused s.db tenantId key'.text →
      (SameOutcome (outcome (createJournalEntry sha256 tenantId key data) now s.db choices)
          (outcome (createJournalEntry sha256 tenantId key' data') now s.db choices) ↔
        ¬ EntrySplits s.db tenantId data data' (choices 0))) ∧
    ∀ r r' : PaymentRequest, r.Respells r' → PaymentKeyUnused s.db r.tenantId r.idempotencyKey.text →
      PaymentKeyUnused s.db r'.tenantId r'.idempotencyKey.text →
      EntryKeyUnused s.db r.tenantId (paymentKey ((choices 1).fresh 0)) →
      (SameOutcome (outcome (createInvoicePayment sha256 r) now s.db choices)
          (outcome (createInvoicePayment sha256 r') now s.db choices) ↔ ¬ PaymentSplits s.db r r' choices) := by
  have hc := consistent_of_reaches h
  exact ⟨fun _ _ _ _ _ hdata hkey hkey' => entry_sameOutcome_iff hc.ledger.accountIds hdata hkey hkey',
    fun _ _ hr hkey hkey' hentry => payment_sameOutcome_iff hc hr hkey hkey' hentry⟩

namespace Day

/-- The bank account in capital letters. -/
def BANK : UuidText := ⟨text "000000000000400080000000000000C8", by decide⟩

/-- From one account to itself. -/
def transfer (x y : UuidText) : EntryData := ⟨text "Transfer", ⟨0⟩, [⟨x, 100⟩, ⟨y, -100⟩], two_le_two⟩

/-- The bank account is the receivable of the invoice. -/
def issued : List Event := opening ++ alone 4 8 (.issueInvoice { issue with receivableAccountId := bank.spelled })

def collection (x : UuidText) (k : Fin 10) : PaymentRequest :=
  { payment receivable 70 k with accountReceivableAccountId := x }

def later (n : Nat) : Choice := choice (500 + 10 * n)

/-- The keys of all entries and payments. -/
def keys (s : Sys) : List (Uuid × Text) :=
  s.db.entries.map (fun e => (e.tenantId, e.idempotencyKey)) ++ s.db.payments.map fun p => (p.tenantId, p.idempotencyKey)

theorem entryKeyUnused {s : Sys} {ks : List (Uuid × Text)} (h : keys s = ks) {t : Uuid} {k : Text} (hk : (t, k) ∉ ks) :
    EntryKeyUnused s.db t k := by
  rintro e he ⟨rfl, rfl⟩
  exact hk (h ▸ List.mem_append_left _ (List.mem_map_of_mem (f := fun e : JournalEntry => (e.tenantId, e.idempotencyKey)) he))

theorem paymentKeyUnused {s : Sys} {ks : List (Uuid × Text)} (h : keys s = ks) {t : Uuid} {k : Text} (hk : (t, k) ∉ ks) :
    PaymentKeyUnused s.db t k := by
  rintro p hp ⟨rfl, rfl⟩
  exact hk (h ▸ List.mem_append_right _
    (List.mem_map_of_mem (f := fun p : InvoicePayment => (p.tenantId, p.idempotencyKey)) hp))

theorem bank_respells : bank.spelled.Respells BANK := by decide

end Day

set_option maxRecDepth 100000 in
/-- A transfer, and a payment of the invoice, in two spellings. -/
theorem spelling_of_day : ∃ s : Sys, s.db.invoices.map (·.status) = [.issued] ∧
    SameOutcome
      (outcome (createJournalEntry (fun t => t) Day.tenant (Day.key 0) (Day.transfer Day.bank.spelled Day.bank.spelled)) 6
        s.db Day.later)
      (outcome (createJournalEntry (fun t => t) Day.tenant (Day.key 1) (Day.transfer Day.BANK Day.BANK)) 6 s.db Day.later) ∧
    (SameOutcome (outcome (createInvoicePayment (fun t => t) (Day.collection Day.bank.spelled 0)) 6 s.db Day.later)
        (outcome (createInvoicePayment (fun t => t) (Day.collection Day.BANK 1)) 6 s.db Day.later) ↔
      ¬ PaymentSplits s.db (Day.collection Day.bank.spelled 0) (Day.collection Day.BANK 1) Day.later) := by
  obtain ⟨s, hs, hf⟩ := Day.reaches Day.issued (fun s => (s.db.invoices.map (·.status), Day.keys s))
    (a := ([.issued], [(Day.tenant, issueKey Day.invoice)])) (by decide)
  obtain ⟨hstatus, hkeys⟩ := Prod.mk.inj hf
  have huniform : ∀ x, Uniform (Day.transfer x x).lines := by
    intro x l hl m hm _
    simp only [Day.transfer, List.mem_cons, List.not_mem_nil, or_false] at hl hm
    rcases hl with rfl | rfl <;> rcases hm with rfl | rfl <;> rfl
  obtain ⟨hentry, hpayment⟩ := spelling_iff hs 6 Day.later
  refine ⟨s, hstatus, (hentry _ _ _ _ _ ?_ (Day.entryKeyUnused hkeys (by decide)) (Day.entryKeyUnused hkeys (by decide))).mpr
    fun hsplit => hsplit.spelled (iff_of_true (huniform _) (huniform _)), ?_⟩
  · exact ⟨rfl, rfl, .cons ⟨Day.bank_respells, rfl⟩ (.cons ⟨Day.bank_respells, rfl⟩ .nil)⟩
  · exact hpayment _ _ ⟨rfl, rfl, rfl, rfl, rfl, Day.bank_respells, rfl, rfl⟩ (Day.paymentKeyUnused hkeys (by decide))
      (Day.paymentKeyUnused hkeys (by decide)) (Day.entryKeyUnused hkeys (by decide))

/-- The code a request is answered with. -/
def outcomeCode : Except Failure (List Write) → Option Text
  | .ok _ => none
  | .error e => some (classify e).code

theorem SameOutcome.code {x y : Except Failure (List Write)} (h : SameOutcome x y) : outcomeCode x = outcomeCode y := by
  cases x <;> cases y
  · exact congrArg some h
  · exact absurd h id
  · exact absurd h id
  · rfl

namespace Day

/-- How two spellings of a transfer and of a payment end. -/
def codes (s : Sys) : List (Option Text) :=
  [outcomeCode (outcome (createJournalEntry (fun t => t) tenant (key 0) (transfer bank.spelled bank.spelled)) 6 s.db later),
    outcomeCode (outcome (createJournalEntry (fun t => t) tenant (key 1) (transfer bank.spelled BANK)) 6 s.db later),
    outcomeCode (outcome (createInvoicePayment (fun t => t) (collection bank.spelled 0)) 6 s.db later),
    outcomeCode (outcome (createInvoicePayment (fun t => t) (collection BANK 1)) 6 s.db later)]

end Day

set_option maxRecDepth 100000 in
/-- The transfer is refused where it names the account in two ways, and the payment where the receivable is in capital
letters. -/
theorem spelling_matters : ∃ s : Sys, Reaches (fun t => t) anyStep s ∧
    (∃ key key' data data', EntryData.Respells data data' ∧ (∀ l ∈ data.lines ++ data'.lines, l.accountId.Versioned) ∧
      EntryKeyUnused s.db Day.tenant (IdempotencyKey.text key) ∧
      EntryKeyUnused s.db Day.tenant (IdempotencyKey.text key') ∧
      ¬ SameOutcome (outcome (createJournalEntry (fun t => t) Day.tenant key data) 6 s.db Day.later)
        (outcome (createJournalEntry (fun t => t) Day.tenant key' data') 6 s.db Day.later)) ∧
    ∃ r r', PaymentRequest.Respells r r' ∧ (∀ q ∈ [r, r'], q.bankAccountId.Versioned ∧ q.accountReceivableAccountId.Versioned) ∧
      PaymentKeyUnused s.db r.tenantId r.idempotencyKey.text ∧
      PaymentKeyUnused s.db r'.tenantId r'.idempotencyKey.text ∧
      EntryKeyUnused s.db r.tenantId (paymentKey ((Day.later 1).fresh 0)) ∧
      ¬ SameOutcome (outcome (createInvoicePayment (fun t => t) r) 6 s.db Day.later)
        (outcome (createInvoicePayment (fun t => t) r') 6 s.db Day.later) := by
  obtain ⟨s, hs, hf⟩ := Day.reaches Day.issued (fun s => (Day.keys s, Day.codes s))
    (a := ([(Day.tenant, issueKey Day.invoice)],
      [none, some (text "INVALID_ACCOUNT"), none, some (text "RECEIVABLE_ACCOUNT_MISMATCH")])) (by decide)
  obtain ⟨hkeys, hcodes⟩ := Prod.mk.inj hf
  obtain ⟨hlower, hcodes⟩ := List.cons.inj hcodes
  obtain ⟨hmixed, hcodes⟩ := List.cons.inj hcodes
  obtain ⟨hpaid, hcodes⟩ := List.cons.inj hcodes
  obtain ⟨hrefused, -⟩ := List.cons.inj hcodes
  refine ⟨s, hs, ⟨Day.key 0, Day.key 1, Day.transfer Day.bank.spelled Day.bank.spelled,
    Day.transfer Day.bank.spelled Day.BANK, ?_, ?_, Day.entryKeyUnused hkeys (by decide), Day.entryKeyUnused hkeys (by decide),
    fun hsame => ?_⟩, Day.collection Day.bank.spelled 0, Day.collection Day.BANK 1,
    ⟨rfl, rfl, rfl, rfl, rfl, Day.bank_respells, rfl, rfl⟩, ?_, Day.paymentKeyUnused hkeys (by decide),
    Day.paymentKeyUnused hkeys (by decide), Day.entryKeyUnused hkeys (by decide), fun hsame => ?_⟩
  · exact ⟨rfl, rfl, .cons ⟨rfl, rfl⟩ (.cons ⟨Day.bank_respells, rfl⟩ .nil)⟩
  · decide
  · have hcode := hsame.code
    rw [hlower, hmixed] at hcode
    cases hcode
  · decide
  · have hcode := hsame.code
    rw [hpaid, hrefused] at hcode
    cases hcode

end FinSight
