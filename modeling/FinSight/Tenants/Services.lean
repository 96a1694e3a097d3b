import FinSight.System
import FinSight.Tenants.Statements

/-!
# The ledger services are confined

Each service function runs on the rows of its tenant: the ids it uses without naming the tenant come from rows that it has
read, or are new.

* `confined_*` : one lemma for each function, with what its callers know of the result.
-/

namespace FinSight

open ReadCommitted Sql

variable {issuer : Uuid → Uuid} {t : Uuid}

theorem confined_createAccount (r : AccountRequest) :
    (createAccount r).Confined (division issuer) r.tenantId fun _ => True :=
  Program.Confined.one (confines_insertAccount _ _ _)

theorem confined_listAccounts (c : Collation) (q : AccountQuery) :
    (listAccounts c q).Confined (division issuer) q.tenantId fun _ => True :=
  Program.Confined.one (confines_selectAccountsOf c rfl)

/-! ## Journal entries -/

section
variable (sha256 : Text → Text)

theorem confined_replayEntry (key requestFingerprint : Text) :
    (replayEntry t key requestFingerprint).Confined (division issuer) t fun result => issuer result.entry.id = t := by
  unfold replayEntry
  refine Program.Confined.statement (confines_selectEntryByKey key) fun existing hexisting => ?_
  cases existing with
  | none => trivial
  | some existing =>
      have hid := (hexisting existing rfl).2
      dsimp only
      split
      · trivial
      · exact Program.Confined.statement (confines_selectLines hid) fun _ _ => hid

theorem confined_postLines (lines : List LineData) {entry : JournalEntry} (hentry : entry.Of issuer t) :
    (postLines t lines entry).Confined (division issuer) t fun result => issuer result.entry.id = t := by
  unfold postLines
  refine Program.Confined.statement (confines_selectAccounts _) fun tenantAccounts _ => ?_
  split
  · trivial
  · split
    · trivial
    · refine Program.Confined.statement (confines_insertLines fun v hv => ?_) fun _ _ => hentry.2
      obtain ⟨l, _, rfl⟩ := List.mem_map.mp hv
      exact ⟨rfl, hentry.2⟩

theorem confined_createJournalEntryTx (key : Text) (data : EntryData) :
    (createJournalEntryTx sha256 t key data).Confined (division issuer) t fun result => issuer result.entry.id = t := by
  unfold createJournalEntryTx
  split
  · trivial
  · refine Program.Confined.statement (confines_insertEntry rfl) fun entry hentry => ?_
    cases entry with
    | none => exact confined_replayEntry _ _
    | some entry => exact confined_postLines _ (hentry entry rfl)

theorem confined_createJournalEntry (key : IdempotencyKey) (data : EntryData) :
    (createJournalEntry sha256 t key data).Confined (division issuer) t fun _ => True :=
  (confined_createJournalEntryTx sha256 key.text data).mono fun _ _ => trivial

/-! ## Invoices -/

theorem confined_createInvoice (r : InvoiceRequest) :
    (createInvoice r).Confined (division issuer) r.tenantId fun _ => True := by
  unfold createInvoice
  split
  · trivial
  · refine Program.Confined.statement confines_nextSequence fun sequence _ => ?_
    refine Program.Confined.statement (confines_insertInvoice rfl) fun invoice hinvoice => ?_
    refine Program.Confined.statement (confines_insertItems hinvoice.2 _) fun _ _ => ?_
    exact Program.Confined.statement (confines_insertHistory hinvoice.2 _ _ _) fun _ _ => trivial

theorem confined_issueTx (r : IssueRequest) {invoice : Invoice} (hinvoice : invoice.Of issuer r.tenantId) :
    (issueTx sha256 r invoice).Confined (division issuer) r.tenantId fun _ => True := by
  unfold issueTx
  refine (confined_createJournalEntryTx sha256 _ _).bind fun result _ => ?_
  refine Program.Confined.statement (confines_updateInvoice _ _) fun updated _ => ?_
  exact Program.Confined.statement (confines_insertHistory hinvoice.2 _ _ _) fun _ _ => trivial

theorem confined_issueInvoice (r : IssueRequest) :
    (issueInvoice sha256 r).Confined (division issuer) r.tenantId fun _ => True := by
  unfold issueInvoice
  refine Program.Confined.statement (confines_selectInvoiceForUpdate _) fun invoice hinvoice => ?_
  cases invoice with
  | none => trivial
  | some invoice =>
      dsimp only
      split
      · trivial
      · refine Program.Confined.statement (confines_selectAccount _) fun receivableAccount _ => ?_
        refine Program.Confined.statement (confines_selectAccount _) fun revenueAccount _ => ?_
        split
        · split
          · trivial
          · split
            · trivial
            · exact confined_issueTx sha256 r (hinvoice invoice rfl).1
        · trivial

/-! ## Payments -/

theorem confined_replayPayment (key requestFingerprint : Text) :
    (replayPayment t key requestFingerprint).Confined (division issuer) t fun _ => True := by
  unfold replayPayment
  refine Program.Confined.statement (confines_selectPaymentByKey key) fun existing hexisting => ?_
  cases existing with
  | none => trivial
  | some existing =>
      have hof := hexisting existing rfl
      dsimp only
      split
      · trivial
      · refine Program.Confined.statement (confines_selectInvoiceById hof.2.2.1) fun invoice _ => ?_
        cases hentry : existing.journalEntryId with
        | none => trivial
        | some entryId => exact Program.Confined.statement (confines_selectEntry (hof.2.2.2 _ hentry)) fun _ _ => trivial

theorem confined_checkReceivable (r : PaymentRequest) (invoice : Invoice) :
    (checkReceivable r invoice).Confined (division issuer) r.tenantId fun _ => True := by
  unfold checkReceivable
  cases invoice.issueJournalEntryId with
  | none => trivial
  | some entryId =>
      refine Program.Confined.last (confines_selectIssueLine entryId) fun issueLine _ => ?_
      cases issueLine with
      | none => exact Or.inr ⟨_, rfl⟩
      | some issueLine =>
          by_cases haccount : issueLine.accountId.spelled ≠ r.accountReceivableAccountId
          · exact Or.inr ⟨_, if_pos haccount⟩
          · exact Or.inl ⟨(), if_neg haccount, trivial⟩

theorem confined_settleTx (r : PaymentRequest) {invoice : Invoice} (hinvoice : invoice.Of issuer r.tenantId)
    {payment : InvoicePayment} (hpayment : payment.Of issuer r.tenantId) (targetStatus : InvoiceStatus) :
    (settleTx sha256 r invoice payment targetStatus).Confined (division issuer) r.tenantId fun _ => True := by
  unfold settleTx
  refine (confined_createJournalEntryTx sha256 _ _).bind fun result hresult => ?_
  refine Program.Confined.statement (confines_linkPayment hpayment.2.1 hresult) fun linked _ => ?_
  split
  · refine Program.Confined.statement (confines_insertHistory hinvoice.2 _ _ _) fun _ _ => ?_
    exact Program.Confined.statement (confines_updateInvoice _ _) fun _ _ => trivial
  · exact Program.Confined.statement (confines_updateInvoice _ _) fun _ _ => trivial

theorem confined_payTx (r : PaymentRequest) {invoice : Invoice} (hinvoice : invoice.Of issuer r.tenantId)
    (hid : InvoiceOf issuer r.tenantId r.invoiceId) {payment : InvoicePayment} (hpayment : payment.Of issuer r.tenantId) :
    (payTx sha256 r invoice payment).Confined (division issuer) r.tenantId fun _ => True := by
  unfold payTx
  refine Program.Confined.statement (confines_selectAccount _) fun bankAccount _ => ?_
  refine Program.Confined.statement (confines_selectAccount _) fun receivableAccount _ => ?_
  split
  · split
    · trivial
    · refine (confined_checkReceivable r invoice).bind fun _ _ => ?_
      refine Program.Confined.statement (confines_selectPayments hid) fun allPayments _ => ?_
      dsimp only
      split
      · trivial
      · split
        · split
          · trivial
          · exact confined_settleTx sha256 r hinvoice hpayment _
        · split
          · trivial
          · exact confined_settleTx sha256 r hinvoice hpayment _
  · trivial

theorem confined_createInvoicePayment (r : PaymentRequest) :
    (createInvoicePayment sha256 r).Confined (division issuer) r.tenantId fun _ => True := by
  unfold createInvoicePayment
  refine Program.Confined.statement (confines_selectInvoiceForUpdate _) fun invoice hinvoice => ?_
  cases invoice with
  | none => trivial
  | some invoice =>
      obtain ⟨hof, hid⟩ := hinvoice invoice rfl
      refine Program.Confined.statement (confines_insertPayment rfl hid) fun payment hpayment => ?_
      cases payment with
      | none => exact confined_replayPayment _ _
      | some payment => exact confined_payTx sha256 r hof hid (hpayment payment rfl)

end

theorem confined_voidInvoice (r : VoidRequest) : (voidInvoice r).Confined (division issuer) r.tenantId fun _ => True := by
  unfold voidInvoice
  refine Program.Confined.statement (confines_selectInvoiceForUpdate _) fun invoice hinvoice => ?_
  cases invoice with
  | none => trivial
  | some invoice =>
      obtain ⟨hof, hid⟩ := hinvoice invoice rfl
      dsimp only
      split
      · trivial
      · refine Program.Confined.statement (confines_selectPayments hid) fun payments _ => ?_
        split
        · trivial
        · refine Program.Confined.statement (confines_updateInvoice _ _) fun updated _ => ?_
          exact Program.Confined.statement (confines_insertHistory hof.2 _ _ _) fun _ _ => trivial

theorem confined_getInvoice (invoiceId : Text) :
    (getInvoice t invoiceId).Confined (division issuer) t fun _ => True := by
  unfold getInvoice
  refine Program.Confined.statement (confines_selectInvoice _) fun invoice hinvoice => ?_
  cases invoice with
  | none => trivial
  | some invoice =>
      obtain ⟨_, hid⟩ := hinvoice invoice rfl
      refine Program.Confined.statement (confines_selectItems hid) fun items _ => ?_
      refine Program.Confined.statement (confines_selectPaymentsByCreation hid) fun payments _ => ?_
      exact Program.Confined.statement (confines_selectHistory hid) fun _ _ => trivial

/-! ## Lists and balances -/

theorem confined_listEntries (B : Buffers) (P : DateParser) (q : EntryQuery) :
    (listEntries B P q).Confined (division issuer) q.tenantId fun _ => True := by
  unfold listEntries
  split
  · trivial
  · refine Program.Confined.statement (confines_selectEntriesPage rfl _) fun rows _ => ?_
    dsimp only
    split
    · trivial
    · exact Program.Confined.statement (confines_selectLinesOf _) fun _ _ => trivial

theorem confined_listInvoices (B : Buffers) (q : InvoiceQuery) :
    (listInvoices B q).Confined (division issuer) q.tenantId fun _ => True := by
  unfold listInvoices
  split
  · trivial
  · refine Program.Confined.statement (confines_selectInvoicesPage rfl _) fun rows hrows => ?_
    dsimp only
    split
    · trivial
    · refine Program.Confined.statement (confines_selectPaidSums fun id hid => ?_) fun _ _ => trivial
      obtain ⟨i, hi, rfl⟩ := List.mem_map.mp hid
      exact (hrows i (Keyset.mem_of_page hi)).2

theorem confined_getAccountBalance (accountId : Text) (asOf : Option Date) :
    (getAccountBalance t accountId asOf).Confined (division issuer) t fun _ => True := by
  unfold getAccountBalance
  refine Program.Confined.statement (confines_selectTenantAccount _) fun account _ => ?_
  cases account with
  | none => trivial
  | some account => exact Program.Confined.statement (confines_selectAccountBalance _ _) fun _ _ => trivial

end FinSight
