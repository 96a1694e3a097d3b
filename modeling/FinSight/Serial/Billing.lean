import FinSight.Serial.Ledger

/-!
# Invoices and their payments

`Billing db` : what the status of an invoice says about its payments (`Standing`), which entry an issued invoice
points to (`IssuedWith`), and which entry and request a payment stands for (`Settles`). `Billing.update` is the
one step that all invoice operations after creation take: some payments are added, and the state is set.
-/

namespace FinSight

open ReadCommitted

variable {sha256 : Text → Text}

theorem find_named {db : Db} (hids : (db.invoices.map (·.id)).Nodup) {invoiceId : Text} {tenantId : Uuid} {i : Invoice}
    (h : Names db invoiceId tenantId i) :
    db.invoices.find? (fun j => j.id = i.id && j.tenantId = tenantId) = some i :=
  Keyed.find?_eq_some hids h.mem (by simp [h.tenant]) fun j hj => by
    simp only [Bool.and_eq_true, decide_eq_true_iff] at hj
    exact hj.1

/-- Invoice `i` with payments that sum to `sum`. -/
structure Standing (i : Invoice) (sum : Int) : Prop where
  total : 0 < i.totalAmountMinor
  range : inInt8 i.totalAmountMinor = true
  nonneg : 0 ≤ sum
  le : sum ≤ i.totalAmountMinor
  paid : i.status = .paid ↔ sum = i.totalAmountMinor
  partiallyPaid : i.status = .partiallyPaid → 0 < sum ∧ sum < i.totalAmountMinor
  overdue : i.status = .overdue → sum < i.totalAmountMinor
  unpaid : i.status = .draft ∨ i.status = .issued ∨ i.status = .void → sum = 0
  issued : i.status ∈ [InvoiceStatus.issued, .partiallyPaid, .paid, .overdue] → i.issueJournalEntryId ≠ none

/-- `id` names the entry that issuing `i` booked. -/
def IssuedWith (sha256 : Text → Text) (db : Db) (i : Invoice) (id : Uuid) : Prop :=
  ∃ e ∈ db.entries, e.id = id ∧ e.tenantId = i.tenantId ∧ e.idempotencyKey = issueKey i.id ∧
    ∃ receivable revenue date,
      e.requestFingerprint = fingerprint sha256 (issueData i receivable revenue date).toJs ∧
      HasAccount db receivable i.tenantId i.currency (some .asset) ∧
      HasAccount db revenue i.tenantId i.currency (some .revenue)

/-- `p` is a payment of `i`, made by the request `r` and booked in the entry `e`. -/
structure Settles (sha256 : Text → Text) (db : Db) (i : Invoice) (p : InvoicePayment) (r : PaymentRequest)
    (e : JournalEntry) : Prop where
  invoice : p.invoiceId = i.id
  invoiceTenant : p.tenantId = i.tenantId
  fits : r.fits = true
  amount : r.amountMinor = p.amountMinor
  tenant : r.tenantId = p.tenantId
  names : uuidIn r.invoiceId = some i.id
  body : p.requestFingerprint = fingerprint sha256 r.toJs
  mem : e ∈ db.entries
  link : p.journalEntryId = some e.id
  entryTenant : e.tenantId = p.tenantId
  named : e.idempotencyKey = paymentKey p.id
  entryBody : e.requestFingerprint = fingerprint sha256 (paymentData r i).toJs
  issueLine : ∀ x ∈ i.issueJournalEntryId, ∃ l ∈ entryLines db x, 0 < l.amountMinor ∧
    l.accountId.spelled = r.accountReceivableAccountId

structure Billing (sha256 : Text → Text) (db : Db) : Prop where
  invoiceIds : (db.invoices.map (·.id)).Nodup
  paymentIds : (db.payments.map (·.id)).Nodup
  paymentKeys : ∀ p ∈ db.payments, ∀ p' ∈ db.payments, p.tenantId = p'.tenantId →
    p.idempotencyKey = p'.idempotencyKey → p = p'
  standing : ∀ i ∈ db.invoices, Standing i (paidMinor db i.id)
  issue : ∀ i ∈ db.invoices, ∀ id ∈ i.issueJournalEntryId, IssuedWith sha256 db i id
  settles : ∀ p ∈ db.payments, ∃ i ∈ db.invoices, ∃ r e, Settles sha256 db i p r e

theorem Settles.positive {db : Db} {i : Invoice} {p : InvoicePayment} {r : PaymentRequest} {e : JournalEntry}
    (h : Settles sha256 db i p r e) : 0 < p.amountMinor := h.amount ▸ PaymentRequest.positive_of_fits h.fits

theorem Billing.empty : Billing sha256 Db.empty :=
  ⟨List.nodup_nil, List.nodup_nil, fun _ h => absurd h List.not_mem_nil, fun _ h => absurd h List.not_mem_nil,
    fun _ h => absurd h List.not_mem_nil, fun _ h => absurd h List.not_mem_nil⟩

/-! ## Growth of the ledger -/

theorem HasAccount.mono {db db' : Db} {id : UuidText} {tenantId : Uuid} {currency : Text} {type : Option AccountType}
    (h : HasAccount db id tenantId currency type) (hsub : db.accounts ⊆ db'.accounts) :
    HasAccount db' id tenantId currency type := by
  obtain ⟨a, ha, hrest⟩ := h
  exact ⟨a, hsub ha, hrest⟩

theorem IssuedWith.grows {db db' : Db} {i : Invoice} {id : Uuid} (h : IssuedWith sha256 db i id) (hgrow : Grows db db') :
    IssuedWith sha256 db' i id := by
  obtain ⟨e, he, hid, ht, hk, receivable, revenue, date, hf, hrec, hrev⟩ := h
  exact ⟨e, hgrow.entries he, hid, ht, hk, receivable, revenue, date, hf, hrec.mono hgrow.accounts,
    hrev.mono hgrow.accounts⟩

theorem Settles.grows {db db' : Db} {i : Invoice} {p : InvoicePayment} {r : PaymentRequest} {e : JournalEntry}
    (h : Settles sha256 db i p r e) (hissue : ∀ id ∈ i.issueJournalEntryId, IssuedWith sha256 db i id)
    (hgrow : Grows db db') : Settles sha256 db' i p r e :=
  { h with
    mem := hgrow.entries h.mem
    issueLine := fun x hx => by
      obtain ⟨l, hl, hrest⟩ := h.issueLine x hx
      obtain ⟨y, hy, rfl, -⟩ := hissue x hx
      refine ⟨l, ?_, hrest⟩
      rw [hgrow.entryLines hy]
      exact hl }

/-- Commits beside invoices and payments. -/
theorem Billing.grows {db db' : Db} (h : Billing sha256 db) (hgrow : Grows db db')
    (hinvoices : db'.invoices = db.invoices) (hpayments : db'.payments = db.payments) : Billing sha256 db' where
  invoiceIds := hinvoices ▸ h.invoiceIds
  paymentIds := hpayments ▸ h.paymentIds
  paymentKeys := hpayments ▸ h.paymentKeys
  standing := by
    rw [hinvoices]
    simp only [paidMinor, hpayments]
    exact h.standing
  issue := by
    rw [hinvoices]
    exact fun i hi id hid => (h.issue i hi id hid).grows hgrow
  settles := by
    rw [hinvoices, hpayments]
    intro p hp
    obtain ⟨i, hi, r, e, hs⟩ := h.settles p hp
    exact ⟨i, hi, r, e, hs.grows (h.issue i hi) hgrow⟩

/-! ## Steps -/

theorem Billing.unpaid_of_fresh {db : Db} (h : Billing sha256 db) {id : Uuid} (hfresh : ∀ x ∈ db.invoices, x.id ≠ id) :
    paidAmounts db.payments id = [] := by
  rw [paidAmounts, List.map_eq_nil_iff, List.filter_eq_nil_iff]
  intro p hp
  obtain ⟨i, hi, r, e, hs⟩ := h.settles p hp
  simpa [hs.invoice] using hfresh i hi

theorem Billing.create {db : Db} (h : Billing sha256 db) {i : Invoice} (hfresh : ∀ x ∈ db.invoices, x.id ≠ i.id)
    (hstanding : Standing i 0) (hunissued : i.issueJournalEntryId = none) :
    Billing sha256 { db with invoices := db.invoices ++ [i] } where
  invoiceIds := Keyed.nodup_concat h.invoiceIds hfresh
  paymentIds := h.paymentIds
  paymentKeys := h.paymentKeys
  standing := by
    intro x hx
    rcases List.mem_append.mp hx with hx | hx
    · exact h.standing x hx
    · rw [List.mem_singleton.mp hx]
      simpa [paidMinor, h.unpaid_of_fresh hfresh] using hstanding
  issue := by
    intro x hx id hid
    rcases List.mem_append.mp hx with hx | hx
    · exact h.issue x hx id hid
    · rw [List.mem_singleton.mp hx, hunissued] at hid
      cases hid
  settles := by
    intro p hp
    obtain ⟨x, hx, r, e, hs⟩ := h.settles p hp
    exact ⟨x, List.mem_append_left _ hx, r, e, { hs with }⟩

@[simp] theorem set_id (i : Invoice) (s : InvoiceState) : (i.set s).id = i.id := rfl
@[simp] theorem set_tenantId (i : Invoice) (s : InvoiceState) : (i.set s).tenantId = i.tenantId := rfl
@[simp] theorem set_status (i : Invoice) (s : InvoiceState) : (i.set s).status = s.status := rfl
@[simp] theorem set_issueJournalEntryId (i : Invoice) (s : InvoiceState) :
    (i.set s).issueJournalEntryId = s.issueJournalEntryId := rfl
@[simp] theorem set_totalAmountMinor (i : Invoice) (s : InvoiceState) :
    (i.set s).totalAmountMinor = i.totalAmountMinor := rfl
@[simp] theorem set_sequenceNumber (i : Invoice) (s : InvoiceState) :
    (i.set s).sequenceNumber = i.sequenceNumber := rfl
@[simp] theorem set_invoiceNumber (i : Invoice) (s : InvoiceState) :
    (i.set s).invoiceNumber = i.invoiceNumber := rfl

@[simp] theorem map_id_setInvoice (id : Uuid) (s : InvoiceState) (rows : List Invoice) :
    (setInvoice id s rows).map (·.id) = rows.map (·.id) := by
  rw [setInvoice, List.map_map]
  refine List.map_congr_left fun i _ => ?_
  simp only [Function.comp_apply]
  split <;> rfl

/-- A row after an update is an old row of another id, or the updated row. -/
theorem mem_setInvoice {i : Invoice} {s : InvoiceState} {rows : List Invoice} (hids : (rows.map (·.id)).Nodup)
    (hi : i ∈ rows) {x : Invoice} :
    x ∈ setInvoice i.id s rows ↔ (x ∈ rows ∧ x.id ≠ i.id) ∨ x = i.set s := by
  rw [setInvoice, List.mem_map]
  constructor
  · rintro ⟨y, hy, rfl⟩
    by_cases hid : y.id = i.id
    · rw [if_pos hid, Keyed.eq_of_key_eq hids hy hi hid]
      exact Or.inr rfl
    · rw [if_neg hid]
      exact Or.inl ⟨hy, hid⟩
  · rintro (⟨hx, hid⟩ | rfl)
    · exact ⟨x, hx, if_neg hid⟩
    · exact ⟨i, hi, if_pos rfl⟩

/-- Payments of `i` are added and its state is set. -/
theorem Billing.update {db : Db} (h : Billing sha256 db) {i : Invoice} (hi : i ∈ db.invoices) {s : InvoiceState}
    {ps : List InvoicePayment} {hs : List StatusHistory}
    (hids : ((db.payments ++ ps).map (·.id)).Nodup)
    (hkeys : ∀ p ∈ db.payments ++ ps, ∀ p' ∈ db.payments ++ ps, p.tenantId = p'.tenantId →
      p.idempotencyKey = p'.idempotencyKey → p = p')
    (hstanding : Standing (i.set s) (paidMinor db i.id + (ps.map (·.amountMinor)).sum))
    (hissue : ∀ id ∈ s.issueJournalEntryId, IssuedWith sha256 db i id)
    (hkeep : s.issueJournalEntryId = i.issueJournalEntryId ∨ ∀ p ∈ db.payments, p.invoiceId ≠ i.id)
    (hps : ∀ p ∈ ps, ∃ r e, Settles sha256 db (i.set s) p r e) :
    Billing sha256 { db with
      payments := db.payments ++ ps
      invoices := setInvoice i.id s db.invoices
      history := hs } where
  invoiceIds := by simpa using h.invoiceIds
  paymentIds := hids
  paymentKeys := hkeys
  standing := by
    have hown : ps.filter (fun p => p.invoiceId = i.id) = ps := by
      rw [List.filter_eq_self]
      intro p hp
      obtain ⟨r, e, hsettles⟩ := hps p hp
      simpa using hsettles.invoice
    intro x hx
    rcases (mem_setInvoice h.invoiceIds hi).mp hx with ⟨hx, hid⟩ | rfl
    · have hother : ps.filter (fun p => p.invoiceId = x.id) = [] := by
        rw [List.filter_eq_nil_iff]
        intro p hp
        obtain ⟨r, e, hsettles⟩ := hps p hp
        simpa [hsettles.invoice] using fun heq => hid (Eq.symm heq)
      rw [paidMinor, paidAmounts, List.filter_append, hother, List.append_nil]
      exact h.standing x hx
    · rw [paidMinor, paidAmounts, set_id, List.filter_append, hown, List.map_append, List.sum_append]
      exact hstanding
  issue := by
    intro x hx id hid
    rcases (mem_setInvoice h.invoiceIds hi).mp hx with ⟨hx, -⟩ | rfl
    · exact h.issue x hx id hid
    · exact hissue id hid
  settles := by
    intro p hmem
    rcases List.mem_append.mp hmem with hp | hp
    · obtain ⟨x, hx, r, e, hsettles⟩ := h.settles p hp
      by_cases hid : x.id = i.id
      · obtain rfl := Keyed.eq_of_key_eq h.invoiceIds hx hi hid
        refine ⟨x.set s, (mem_setInvoice h.invoiceIds hx).mpr (Or.inr rfl), r, e, { hsettles with issueLine := ?_ }⟩
        rcases hkeep with hkeep | hnone
        · exact fun y hy => hsettles.issueLine y (hkeep ▸ hy)
        · exact absurd hsettles.invoice (hnone p hp)
      · exact ⟨x, (mem_setInvoice h.invoiceIds hi).mpr (Or.inl ⟨hx, hid⟩), r, e, { hsettles with }⟩
    · obtain ⟨r, e, hsettles⟩ := hps p hp
      exact ⟨i.set s, (mem_setInvoice h.invoiceIds hi).mpr (Or.inr rfl), r, e, { hsettles with }⟩

end FinSight
