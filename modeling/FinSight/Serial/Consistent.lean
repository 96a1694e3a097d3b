import FinSight.Serial.Numbering
import Mathlib.Algebra.Order.BigOperators.Group.List

/-!
# The invariant of all commits

`Consistent db` : the ledger, the invoices and the invoice numbers are in order. Every commit keeps it
(`Commit.consistent`), and changes each invoice's status along an edge of `allowedTransitions`
(`Commit.transitions`).
-/

namespace FinSight

open ReadCommitted Sql

variable {sha256 : Text → Text}

structure Consistent (sha256 : Text → Text) (db : Db) : Prop where
  ledger : Ledger sha256 db
  billing : Billing sha256 db
  numbering : Numbering db

theorem Consistent.empty : Consistent sha256 Db.empty := ⟨Ledger.empty, Billing.empty, Numbering.empty⟩

/-! ## Standing after each operation -/

theorem Standing.create {i : Invoice} (hdraft : i.status = .draft) (htotal : 0 < i.totalAmountMinor)
    (hrange : inInt8 i.totalAmountMinor = true) : Standing i 0 where
  total := htotal
  range := hrange
  nonneg := le_refl 0
  le := htotal.le
  paid := by simp only [hdraft, reduceCtorEq, false_iff]; omega
  partiallyPaid := by simp [hdraft]
  overdue := by simp [hdraft]
  unpaid _ := rfl
  issued := by simp [hdraft]

theorem Standing.issue {i : Invoice} {sum : Int} (h : Standing i sum) (hdraft : i.status = .draft) {s : InvoiceState}
    (hs : s.status = .issued) (hentry : s.issueJournalEntryId ≠ none) : Standing (i.set s) sum where
  total := h.total
  range := h.range
  nonneg := h.nonneg
  le := h.le
  paid := by
    have hzero := h.unpaid (Or.inl hdraft)
    have htotal := h.total
    simp only [set_status, hs, set_totalAmountMinor, reduceCtorEq, false_iff]
    omega
  partiallyPaid := by simp [hs]
  overdue := by simp [hs]
  unpaid _ := h.unpaid (Or.inl hdraft)
  issued _ := hentry

theorem Standing.pay {i : Invoice} {sum amount : Int} (h : Standing i sum) {s : InvoiceState}
    (hpositive : 0 < amount) (hle : sum + amount ≤ i.totalAmountMinor)
    (hs : s.status = if sum + amount = i.totalAmountMinor then .paid else .partiallyPaid)
    (hentry : s.issueJournalEntryId = i.issueJournalEntryId) (hedge : canTransition i.status s.status = true) :
    Standing (i.set s) (sum + amount) := by
  have hnonneg := h.nonneg
  have hissued : s.issueJournalEntryId ≠ none := by
    rw [hentry]
    refine h.issued ?_
    revert hedge
    rw [hs]
    split <;> cases i.status <;> decide
  by_cases hfull : sum + amount = i.totalAmountMinor
  · rw [if_pos hfull] at hs
    exact ⟨h.total, h.range, by omega, hle, by simp [hs, hfull], by simp [hs], by simp [hs], by simp [hs],
      fun _ => hissued⟩
  · rw [if_neg hfull] at hs
    refine ⟨h.total, h.range, by omega, hle, by simp [hs, hfull], fun _ => ⟨by omega, ?_⟩, by simp [hs], by simp [hs],
      fun _ => hissued⟩
    show sum + amount < i.totalAmountMinor
    omega

theorem Standing.void {i : Invoice} {sum : Int} (h : Standing i sum) (hunpaid : sum ≤ 0) {s : InvoiceState}
    (hs : s.status = .void) : Standing (i.set s) sum where
  total := h.total
  range := h.range
  nonneg := h.nonneg
  le := h.le
  paid := by
    have htotal := h.total
    simp only [set_status, hs, set_totalAmountMinor, reduceCtorEq, false_iff]
    omega
  partiallyPaid := by simp [hs]
  overdue := by simp [hs]
  unpaid _ := le_antisymm hunpaid h.nonneg
  issued := by simp [hs]

theorem Standing.overdueMarked {i : Invoice} {sum : Int} (h : Standing i sum) (hsource : i.status ∈ overdueSources)
    {s : InvoiceState} (hs : s.status = .overdue) (hentry : s.issueJournalEntryId = i.issueJournalEntryId) :
    Standing (i.set s) sum := by
  have htotal := h.total
  rcases mem_overdueSources.mp hsource with hissued | hpart
  · have hzero := h.unpaid (Or.inr (Or.inl hissued))
    refine ⟨h.total, h.range, h.nonneg, h.le, ?_, by simp [hs], fun _ => ?_, by simp [hs], fun _ => ?_⟩
    · simp only [set_status, hs, set_totalAmountMinor, reduceCtorEq, false_iff]
      omega
    · show sum < i.totalAmountMinor
      omega
    · rw [set_issueJournalEntryId, hentry]
      exact h.issued (by simp [hissued])
  · have hlt := h.partiallyPaid hpart
    refine ⟨h.total, h.range, h.nonneg, h.le, ?_, by simp [hs], fun _ => hlt.2, by simp [hs], fun _ => ?_⟩
    · simp only [set_status, hs, set_totalAmountMinor, reduceCtorEq, false_iff]
      omega
    · rw [set_issueJournalEntryId, hentry]
      exact h.issued (by simp [hpart])

/-! ## Every commit keeps the invariant -/

theorem invoiceTotal_pos {items : List ItemValues} (hne : items ≠ [])
    (hpos : ∀ v ∈ items, 0 < v.quantity ∧ 0 < v.unitPriceMinor) : 0 < invoiceTotal items := by
  have hnonneg : ∀ vs : List ItemValues, (∀ v ∈ vs, 0 < v.quantity ∧ 0 < v.unitPriceMinor) → 0 ≤ invoiceTotal vs := by
    intro vs hvs
    refine List.sum_nonneg fun z hz => ?_
    obtain ⟨v, hv, rfl⟩ := List.mem_map.mp hz
    exact (Int.mul_pos (hvs v hv).1 (hvs v hv).2).le
  cases items with
  | nil => exact absurd rfl hne
  | cons v vs =>
      have hv := hpos v List.mem_cons_self
      have hmul := Int.mul_pos hv.1 hv.2
      have hrest := hnonneg vs fun w hw => hpos w (List.mem_cons_of_mem v hw)
      have hsum : invoiceTotal (v :: vs) = v.quantity * v.unitPriceMinor + invoiceTotal vs := by
        simp [invoiceTotal]
      omega

/-- No payment is recorded for an invoice whose payments sum to nothing. -/
theorem Billing.no_payment {db : Db} (h : Billing sha256 db) {i : Invoice} (hzero : paidMinor db i.id = 0) :
    ∀ p ∈ db.payments, p.invoiceId ≠ i.id := by
  have hpos : ∀ z ∈ paidAmounts db.payments i.id, 0 < z := by
    intro z hz
    obtain ⟨p, hp, rfl⟩ := List.mem_map.mp hz
    obtain ⟨x, -, r, e, hs⟩ := h.settles p (List.mem_of_mem_filter hp)
    exact hs.positive
  intro p hp hinvoice
  have hmem : p.amountMinor ∈ paidAmounts db.payments i.id :=
    List.mem_map_of_mem (List.mem_filter.mpr ⟨hp, by simpa using hinvoice⟩)
  have hle := List.single_le_sum (fun z hz => (hpos z hz).le) _ hmem
  have := hpos _ hmem
  rw [paidMinor] at hzero
  omega

theorem Consistent.post {db : Db} (h : Consistent sha256 db) {tenantId : Uuid} {key : Text} {data : EntryData}
    {result : EntryResult} {es : List JournalEntry} {ls : List EntryLine}
    (hb : Booked sha256 db tenantId key data result es ls) : Consistent sha256 (db.post es ls) where
  ledger := h.ledger.booked hb
  billing := h.billing.grows hb.grows rfl rfl
  numbering := h.numbering.congr rfl rfl

/-- An update of one invoice, with the payments it comes with. -/
theorem Consistent.update {db : Db} (h : Consistent sha256 db) {i : Invoice} (hi : i ∈ db.invoices) {s : InvoiceState}
    {ps : List InvoicePayment} {hs : List StatusHistory}
    (hids : ((db.payments ++ ps).map (·.id)).Nodup)
    (hkeys : ∀ p ∈ db.payments ++ ps, ∀ p' ∈ db.payments ++ ps, p.tenantId = p'.tenantId →
      p.idempotencyKey = p'.idempotencyKey → p = p')
    (hstanding : Standing (i.set s) (paidMinor db i.id + (ps.map (·.amountMinor)).sum))
    (hissue : ∀ id ∈ s.issueJournalEntryId, IssuedWith sha256 db i id)
    (hkeep : s.issueJournalEntryId = i.issueJournalEntryId ∨ ∀ p ∈ db.payments, p.invoiceId ≠ i.id)
    (hps : ∀ p ∈ ps, ∃ r e, Settles sha256 db (i.set s) p r e) :
    Consistent sha256 { db with
      payments := db.payments ++ ps
      invoices := setInvoice i.id s db.invoices
      history := hs } where
  ledger := h.ledger.congr rfl rfl rfl
  billing := h.billing.update hi hids hkeys hstanding hissue hkeep hps
  numbering := h.numbering.setInvoice rfl rfl

/-- An update without a payment. -/
theorem Consistent.setState {db : Db} (h : Consistent sha256 db) {i : Invoice} (hi : i ∈ db.invoices)
    {s : InvoiceState} {hs : List StatusHistory} (hstanding : Standing (i.set s) (paidMinor db i.id))
    (hissue : ∀ id ∈ s.issueJournalEntryId, IssuedWith sha256 db i id)
    (hkeep : s.issueJournalEntryId = i.issueJournalEntryId ∨ ∀ p ∈ db.payments, p.invoiceId ≠ i.id) :
    Consistent sha256 { db with invoices := setInvoice i.id s db.invoices, history := hs } := by
  have hupdate : Consistent sha256 { db with
      payments := db.payments ++ [], invoices := setInvoice i.id s db.invoices, history := hs } :=
    h.update hi (by simpa using h.billing.paymentIds) (by simpa using h.billing.paymentKeys)
      (by simpa using hstanding) hissue hkeep (fun p hp => absurd hp List.not_mem_nil)
  rw [List.append_nil] at hupdate
  exact hupdate

theorem Created.consistent {db : Db} {now : Timestamp} {r : InvoiceRequest} {seq : InvoiceSequence} {i : Invoice}
    {items : List InvoiceItem} {hist : StatusHistory} (hc : Created db now r seq i items hist)
    (h : Consistent sha256 db) : Consistent sha256 { db with
      sequences := upsertSequence seq db.sequences
      invoices := db.invoices ++ [i]
      items := db.items ++ items
      history := db.history ++ [hist] } where
  ledger := h.ledger.congr rfl rfl rfl
  billing :=
    have htotal : 0 < i.totalAmountMinor := hc.total ▸ invoiceTotal_pos hc.nonempty hc.positive
    (h.billing.create hc.freshId (Standing.create hc.draft htotal hc.totalRange) hc.unissued).grows
      ((Grows.refl _).beside rfl rfl rfl (fun _ h => h) fun i hi => ⟨i, hi, rfl, rfl⟩) rfl rfl
  numbering := h.numbering.create (hc.tenant ▸ hc.sequence) hc.sequenceNumber hc.number rfl rfl

theorem Issued.consistent {db : Db} {now : Timestamp} {r : IssueRequest} {i : Invoice} {result : EntryResult}
    {es : List JournalEntry} {ls : List EntryLine} {hist : StatusHistory}
    (hi : Issued sha256 db now r i result es ls hist) (h : Consistent sha256 db) :
    Consistent sha256 { db.post es ls with
      invoices := setInvoice i.id (issuedState r result) db.invoices
      history := db.history ++ [hist] } := by
  have hstanding := h.billing.standing i hi.names.mem
  have hzero := hstanding.unpaid (Or.inl hi.draft)
  obtain ⟨he, ht, hk, hf⟩ := hi.booked.entry
  refine (h.post hi.booked).setState (i := i) hi.names.mem
    (hstanding.issue hi.draft rfl (Option.some_ne_none _)) ?_ (Or.inr (h.billing.no_payment hzero))
  rintro id ⟨⟩
  exact ⟨result.entry, he, rfl, ht.trans hi.names.tenant.symm, hk, r.receivableAccountId, r.revenueAccountId,
    r.issueDate.date, hf, hi.names.tenant ▸ hi.receivable, hi.names.tenant ▸ hi.revenue⟩

theorem Paid.consistent {db : Db} {now : Timestamp} {r : PaymentRequest} {i : Invoice} {p : InvoicePayment}
    {result : EntryResult} {es : List JournalEntry} {ls : List EntryLine} {hs : List StatusHistory}
    (hp : Paid sha256 db now r i p result es ls hs) (h : Consistent sha256 db) :
    Consistent sha256 { db.post es ls with
      payments := db.payments ++ [{ p with journalEntryId := some result.entry.id }]
      invoices := setInvoice i.id (paidState db r i) db.invoices
      history := db.history ++ hs } := by
  have hpost := h.post hp.booked
  obtain ⟨he, ht, hk, hf⟩ := hp.booked.entry
  have hissue := hpost.billing.issue i hp.names.mem
  refine hpost.update (i := i) hp.names.mem ?_ ?_ ?_ hissue (Or.inl rfl) ?_
  · exact Keyed.nodup_concat h.billing.paymentIds hp.freshId
  · intro x hx y hy hxy hkey
    rcases List.mem_append.mp hx with hx | hx
    · rcases List.mem_append.mp hy with hy | hy
      · exact h.billing.paymentKeys x hx y hy hxy hkey
      · rw [List.mem_singleton.mp hy] at hxy hkey
        exact absurd ⟨hxy.trans hp.tenant, hkey.trans hp.named⟩ (hp.freshKey x hx)
    · rcases List.mem_append.mp hy with hy | hy
      · rw [List.mem_singleton.mp hx] at hxy hkey
        exact absurd ⟨hxy.symm.trans hp.tenant, hkey.symm.trans hp.named⟩ (hp.freshKey y hy)
      · rw [List.mem_singleton.mp hx, List.mem_singleton.mp hy]
  · rw [List.map_singleton, List.sum_singleton, hp.amount]
    exact (h.billing.standing i hp.names.mem).pay (PaymentRequest.positive_of_fits hp.fits) hp.remaining rfl rfl hp.edge
  · intro x hx
    rw [List.mem_singleton.mp hx]
    refine ⟨r, result.entry, ?_⟩
    exact {
      invoice := hp.invoice
      invoiceTenant := hp.tenant.trans hp.names.tenant.symm
      fits := hp.fits
      amount := hp.amount.symm
      tenant := hp.tenant.symm
      names := hp.names.id
      body := hp.body
      mem := he
      link := rfl
      entryTenant := ht.trans hp.tenant.symm
      named := hk
      entryBody := hf
      issueLine := fun x hx => by
        obtain ⟨l, hl, hrest⟩ := hp.issueLine x hx
        obtain ⟨y, hy, rfl, -⟩ := h.billing.issue i hp.names.mem x hx
        refine ⟨l, ?_, hrest⟩
        rw [hp.booked.grows.entryLines hy]
        exact hl }

theorem Voided.consistent {db : Db} {now : Timestamp} {r : VoidRequest} {i : Invoice} {hist : StatusHistory}
    (hv : Voided db now r i hist) (h : Consistent sha256 db) :
    Consistent sha256 { db with
      invoices := setInvoice i.id (voidState r i) db.invoices
      history := db.history ++ [hist] } :=
  h.setState hv.names.mem ((h.billing.standing i hv.names.mem).void hv.unpaid rfl)
    (h.billing.issue i hv.names.mem) (Or.inl rfl)

theorem OverdueRun.consistent {strict : Prop} {now updatedAt : Timestamp} {db : Db} {log : List Write}
    {rows : List Invoice} (ho : OverdueRun strict now updatedAt db log rows) (h : Consistent sha256 db) :
    Consistent sha256 (engine.view log db) := by
  induction ho with
  | nil => exact h
  | @snoc log rows i src hist _ hi hsource _ _ _ ih =>
      rw [Engine.view_append]
      exact ih.setState hi ((ih.billing.standing i hi).overdueMarked hsource rfl rfl) (ih.billing.issue i hi)
        (Or.inl rfl)

/-- **Every commit keeps the invariant.** -/
theorem Commit.consistent {strict : Prop} {db : Db} {now : Timestamp} {q : Request} {r : Response} {log : List Write}
    (hc : Commit sha256 strict db now q r log) (h : Consistent sha256 db) : Consistent sha256 (engine.view log db) := by
  have hgrow := hc.grows
  cases hc with
  | createAccount _ _ hfresh =>
      exact ⟨h.ledger.account hfresh, h.billing.grows hgrow rfl rfl, h.numbering.congr rfl rfl⟩
  | createJournalEntry hb =>
      rw [view_posts]
      exact h.post hb
  | createInvoice hcreated =>
      rw [hcreated.view]
      exact hcreated.consistent h
  | issueInvoice hi =>
      rw [hi.view]
      exact hi.consistent h
  | pay hp =>
      rw [hp.view]
      exact hp.consistent h
  | replayPayment _ => exact h
  | voidInvoice hv =>
      rw [hv.view]
      exact hv.consistent h
  | markOverdue ho => exact ho.consistent h

/-! ## Changes of status -/

/-- No invoice changes its status but along an edge. -/
def Moves (db db' : Db) : Prop :=
  ∀ i ∈ db.invoices, ∀ j ∈ db'.invoices, j.id = i.id → j.status = i.status ∨ canTransition i.status j.status = true

theorem Moves.same {db db' : Db} (hids : (db.invoices.map (·.id)).Nodup) (h : ∀ j ∈ db'.invoices, j ∈ db.invoices) :
    Moves db db' := by
  intro i hi j hj hid
  rw [Keyed.eq_of_key_eq hids (h j hj) hi hid]
  exact Or.inl rfl

theorem Moves.setInvoice {db : Db} (hids : (db.invoices.map (·.id)).Nodup) {i : Invoice} (hi : i ∈ db.invoices)
    {s : InvoiceState} (hedge : canTransition i.status s.status = true) {db' : Db}
    (hinvoices : db'.invoices = setInvoice i.id s db.invoices) : Moves db db' := by
  intro x hx j hj hid
  rw [hinvoices, mem_setInvoice hids hi] at hj
  rcases hj with ⟨hj, -⟩ | rfl
  · rw [Keyed.eq_of_key_eq hids hj hx hid]
    exact Or.inl rfl
  · rw [Keyed.eq_of_key_eq hids hx hi hid.symm]
    exact Or.inr hedge

/-- A row that is still a source has not been updated. -/
theorem OverdueRun.unchanged {strict : Prop} {now updatedAt : Timestamp} {fin : Db} {log : List Write}
    {rows : List Invoice} (h : OverdueRun strict now updatedAt fin log rows) (db : Db) {x : Invoice}
    (hx : x ∈ (engine.view log db).invoices) (hsource : x.status ∈ overdueSources) : x ∈ db.invoices := by
  induction h generalizing x with
  | nil => exact hx
  | @snoc log rows i src hist _ _ _ _ _ _ ih =>
      rw [Engine.view_append] at hx
      obtain ⟨y, hy, rfl⟩ := List.mem_map.mp hx
      by_cases hid : y.id = i.id
      · rw [if_pos hid, set_status] at hsource
        exact absurd hsource (by show InvoiceStatus.overdue ∉ overdueSources; decide)
      · rw [if_neg hid] at hsource ⊢
        exact ih hy hsource

/-- The overdue job leaves a row as it was, or marks one that was issued or partially paid. -/
theorem OverdueRun.row {strict : Prop} {now updatedAt : Timestamp} {db : Db} {log : List Write} {rows : List Invoice}
    (ho : OverdueRun strict now updatedAt db log rows) {j : Invoice} (hj : j ∈ (engine.view log db).invoices) :
    j ∈ db.invoices ∨ ∃ i ∈ db.invoices, i.id = j.id ∧ i.status ∈ overdueSources ∧ j.status = .overdue := by
  induction ho generalizing j with
  | nil => exact Or.inl hj
  | @snoc log rows i src hist hrun hi hsource _ _ _ ih =>
      rw [Engine.view_append] at hj
      obtain ⟨x, hx, rfl⟩ := List.mem_map.mp hj
      by_cases hid : x.id = i.id
      · rw [if_pos hid]
        exact Or.inr ⟨i, hrun.unchanged db hi hsource, hid.symm, hsource, rfl⟩
      · rw [if_neg hid]
        exact ih hx

theorem OverdueRun.moves {strict : Prop} {now updatedAt : Timestamp} {db : Db} {log : List Write} {rows : List Invoice}
    (ho : OverdueRun strict now updatedAt db log rows) (hids : (db.invoices.map (·.id)).Nodup) :
    Moves db (engine.view log db) := by
  intro i hi j hj hid
  rcases ho.row hj with hold | ⟨x, hx, hxid, hsource, hstatus⟩
  · rw [Keyed.eq_of_key_eq hids hold hi hid]
    exact Or.inl rfl
  · obtain rfl := Keyed.eq_of_key_eq hids hx hi (hxid.trans hid)
    rw [hstatus]
    rcases mem_overdueSources.mp hsource with h | h
    · exact Or.inr (h ▸ rfl)
    · exact Or.inr (h ▸ rfl)

/-- **Every commit changes an invoice's status along an edge.** -/
theorem Commit.transitions {strict : Prop} {db : Db} {now : Timestamp} {q : Request} {r : Response} {log : List Write}
    (hc : Commit sha256 strict db now q r log) (h : Consistent sha256 db) : Moves db (engine.view log db) := by
  have hids := h.billing.invoiceIds
  cases hc with
  | createAccount _ _ _ => exact .same hids fun _ hj => hj
  | createJournalEntry _ =>
      rw [view_posts]
      exact .same hids fun _ hj => hj
  | createInvoice hcreated =>
      rw [hcreated.view]
      intro i hi j hj hid
      rcases List.mem_append.mp hj with hj | hj
      · rw [Keyed.eq_of_key_eq hids hj hi hid]
        exact Or.inl rfl
      · rw [List.mem_singleton.mp hj] at hid
        exact absurd hid.symm (hcreated.freshId i hi)
  | issueInvoice hissued =>
      rw [hissued.view]
      exact .setInvoice hids hissued.names.mem (hissued.draft ▸ rfl) rfl
  | pay hp =>
      rw [hp.view]
      exact .setInvoice hids hp.names.mem hp.edge rfl
  | replayPayment _ => exact .same hids fun _ hj => hj
  | voidInvoice hv =>
      rw [hv.view]
      exact .setInvoice hids hv.names.mem hv.edge rfl
  | markOverdue ho => exact ho.moves hids

/-! ## What a commit adds -/

/-- The requests that post entries of their own. -/
def Posts : Request → Prop
  | .issueInvoice _ | .createInvoicePayment _ => True
  | _ => False

instance : DecidablePred Posts
  | .issueInvoice _ | .createInvoicePayment _ => isTrue trivial
  | .createAccount _ | .createJournalEntry _ | .createInvoice _ | .voidInvoice _ | .markOverdueInvoices _ =>
      isFalse not_false

/-- Beside those, only `createJournalEntry` adds entries. -/
theorem Commit.entries {strict : Prop} {db : Db} {now : Timestamp} {q : Request} {r : Response} {log : List Write}
    (hc : Commit sha256 strict db now q r log) (hq : ¬ Posts q) : (engine.view log db).entries = db.entries ∨
      ∃ er e ls, q = .createJournalEntry er ∧ r = .entry ⟨e, ls, false⟩ ∧
        Posting sha256 db er.tenantId er.idempotencyKey.text er.data e ls ∧ engine.view log db = db.post [e] ls := by
  cases hc with
  | createAccount _ _ _ => exact Or.inl rfl
  | createJournalEntry hb =>
      rw [view_posts]
      cases hb with
      | posted hp => exact Or.inr ⟨_, _, _, rfl, rfl, hp, rfl⟩
      | replayed _ _ _ _ _ _ => exact Or.inl (List.append_nil _)
  | createInvoice hcreated =>
      rw [hcreated.view]
      exact Or.inl rfl
  | issueInvoice _ => exact absurd trivial hq
  | pay _ => exact absurd trivial hq
  | replayPayment _ => exact absurd trivial hq
  | voidInvoice hv =>
      rw [hv.view]
      exact Or.inl rfl
  | markOverdue ho =>
      obtain ⟨invoices, history, heq⟩ := ho.view
      rw [heq]
      exact Or.inl rfl

/-- A commit adds the payment of its request, or none. -/
theorem Commit.payments {strict : Prop} {db : Db} {now : Timestamp} {q : Request} {r : Response} {log : List Write}
    (hc : Commit sha256 strict db now q r log) : (engine.view log db).payments = db.payments ∨
      ∃ pr i p result es ls hs, q = .createInvoicePayment pr ∧ Paid sha256 db now pr i p result es ls hs ∧
        (engine.view log db).payments = db.payments ++ [{ p with journalEntryId := some result.entry.id }] := by
  cases hc with
  | createAccount _ _ _ => exact Or.inl rfl
  | createJournalEntry _ =>
      rw [view_posts]
      exact Or.inl rfl
  | createInvoice hcreated =>
      rw [hcreated.view]
      exact Or.inl rfl
  | issueInvoice hissued =>
      rw [hissued.view]
      exact Or.inl rfl
  | pay hp =>
      rw [hp.view]
      exact Or.inr ⟨_, _, _, _, _, _, _, rfl, hp, rfl⟩
  | replayPayment _ => exact Or.inl rfl
  | voidInvoice hv =>
      rw [hv.view]
      exact Or.inl rfl
  | markOverdue ho =>
      obtain ⟨invoices, history, heq⟩ := ho.view
      rw [heq]
      exact Or.inl rfl

end FinSight
