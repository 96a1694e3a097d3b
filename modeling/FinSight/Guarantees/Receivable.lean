import FinSight.Guarantees.Invoices
import FinSight.Serial.Fingerprints

/-!
# The receivable of an invoice

* `sumOn db (invoiceEntries db i) R` : the lines on the account `R`, over the issue entry and the payments of `i`;
* `receivable_sum` : on the receivable they come to what is outstanding, and to all that was paid from the
  receivable itself;
* `Nets` : they come to what is outstanding; it fails where a payment names the receivable as its bank account
  (`not_nets`), and nowhere else (`nets_iff`).
-/

namespace FinSight

open ReadCommitted Grouping

variable {sha256 : Text → Text}

/-- The issue entry, and the entries of the payments. -/
def invoiceEntries (db : Db) (i : Invoice) : List Uuid :=
  i.issueJournalEntryId.toList ++ (db.payments.filter fun p => p.invoiceId = i.id).filterMap (·.journalEntryId)

/-- The lines of some entries on one account. -/
def sumOn (db : Db) (entryIds : List Uuid) (accountId : Uuid) : Int :=
  ((db.lines.filter fun l => l.accountId = accountId && entryIds.contains l.entryId).map (·.amountMinor)).sum

theorem sumOn_eq {db : Db} {entryIds : List Uuid} (h : entryIds.Nodup) (accountId : Uuid) :
    sumOn db entryIds accountId = (entryIds.map fun id => amountOn db id accountId).sum := by
  have hgroups := sum_groupSum h (fun l : EntryLine => l.entryId) (·.amountMinor)
    (db.lines.filter fun l => l.accountId = accountId)
  have hsame : (entryIds.map fun id => amountOn db id accountId) = entryIds.map
      (groupSum (fun l : EntryLine => l.entryId) (·.amountMinor) (db.lines.filter fun l => l.accountId = accountId)) := by
    refine List.map_congr_left fun id _ => ?_
    rw [amountOn, groupSum, groupSum, entryLines, List.filter_filter, List.filter_filter]
    simp only [Bool.and_comm]
  rw [sumOn, hsame, hgroups, List.filter_filter]
  congr 2
  exact List.filter_congr fun l _ => by simp [Bool.and_comm]

/-- No two of them share an entry. -/
theorem invoiceEntries_nodup {db : Db} (h : Consistent sha256 db) {i : Invoice} (hi : i ∈ db.invoices) :
    (invoiceEntries db i).Nodup := by
  have hkeys : ∀ p ∈ db.payments, ∀ x ∈ p.journalEntryId, ∃ e ∈ db.entries, e.id = x ∧
      e.idempotencyKey = paymentKey p.id := by
    intro p hp x hx
    obtain ⟨j, -, r, e, hs⟩ := h.billing.settles p hp
    rw [hs.link, Option.mem_some_iff] at hx
    exact ⟨e, hs.mem, hx, hs.named⟩
  rw [invoiceEntries, List.nodup_append]
  refine ⟨Option.toList_nodup _, ?_, ?_⟩
  · have hids := h.billing.paymentIds
    rw [List.Nodup, List.pairwise_map] at hids
    rw [List.Nodup, List.pairwise_filterMap]
    refine (hids.sublist List.filter_sublist).imp_of_mem fun hp hp' hne x hx x' hx' heq => hne ?_
    obtain ⟨e, he, hid, hkey⟩ := hkeys _ (List.mem_of_mem_filter hp) x hx
    obtain ⟨e', he', hid', hkey'⟩ := hkeys _ (List.mem_of_mem_filter hp') x' hx'
    have hee := Keyed.eq_of_key_eq h.ledger.entryIds he he' (hid.trans (heq.trans hid'.symm))
    exact paymentKey_injective (hkey.symm.trans (hee ▸ hkey'))
  · intro x hx y hy heq
    obtain ⟨p, hp, hy⟩ := List.mem_filterMap.mp hy
    obtain ⟨e, he, hid, hkey⟩ := hkeys p (List.mem_of_mem_filter hp) y hy
    obtain ⟨e', he', hid', -, hkey', -⟩ := h.billing.issue i hi x (Option.mem_toList.mp hx)
    have hee := Keyed.eq_of_key_eq h.ledger.entryIds he he' (hid.trans (heq.symm.trans hid'.symm))
    exact issueKey_ne_paymentKey i.id p.id (hkey'.symm.trans (hee ▸ hkey))

/-- The issue entry debits one account, by the total. -/
theorem issue_entry (hsha : Function.Injective sha256) {db : Db} (h : Consistent sha256 db) {i : Invoice}
    (hi : i ∈ db.invoices) {x : Uuid} (hx : x ∈ i.issueJournalEntryId) :
    ∃ R, (∀ R', Debits db x R' ↔ R' = R) ∧ amountOn db x R = i.totalAmountMinor := by
  obtain ⟨e, he, rfl, -, -, receivable, revenue, date, hbody, hreceivable, hrevenue⟩ := h.billing.issue i hi x hx
  obtain ⟨data, hbooks⟩ := h.ledger.books e he
  have hlines := hbooks.postings hsha hbody
  have htotal := (h.billing.standing i hi).total
  refine ⟨receivable.uuid, debits_two htotal hlines, ?_⟩
  have hne : revenue.uuid ≠ receivable.uuid := by
    obtain ⟨a, ha, haid, -, -, hat⟩ := hreceivable
    obtain ⟨b, hb, hbid, -, -, hbt⟩ := hrevenue
    intro heq
    have hab := Keyed.eq_of_key_eq h.ledger.accountIds ha hb (haid.trans (heq.symm.trans hbid.symm))
    have hasset := hat _ rfl
    rw [hab, hbt _ rfl] at hasset
    cases hasset
  rw [amountOn_two hlines, if_pos rfl, if_neg hne]
  omega

/-- The entry of a payment credits the receivable, and debits the bank account. -/
theorem payment_entry (hsha : Function.Injective sha256) {db : Db} (h : Consistent sha256 db) {i : Invoice}
    {p : InvoicePayment} {r : PaymentRequest} {e : JournalEntry} (hs : Settles sha256 db i p r e) {x R : Uuid}
    (hx : x ∈ i.issueJournalEntryId) (hR : ∀ R', Debits db x R' ↔ R' = R) :
    (∀ R', Debits db e.id R' ↔ R' = r.bankAccountId.uuid) ∧ r.accountReceivableAccountId.uuid = R ∧
      amountOn db e.id R = (if Debits db e.id R then p.amountMinor else 0) - p.amountMinor := by
  obtain ⟨data, hbooks⟩ := h.ledger.books e hs.mem
  have hlines := hbooks.postings hsha hs.entryBody
  obtain ⟨l, hl, hpositive, hspelled⟩ := hs.issueLine x hx
  have hreceivable : r.accountReceivableAccountId.uuid = R := by
    rw [← hspelled, Uuid.uuid_spelled]
    exact (hR _).mp ⟨l, hl, hpositive, rfl⟩
  have hdebits := debits_two (hs.amount ▸ hs.positive : 0 < r.amountMinor) hlines
  refine ⟨hdebits, hreceivable, ?_⟩
  rw [amountOn_two hlines, if_pos hreceivable, hs.amount]
  by_cases hbank : r.bankAccountId.uuid = R
  · rw [if_pos hbank, if_pos ((hdebits R).mpr hbank.symm)]
  · rw [if_neg hbank, if_neg fun hd => hbank ((hdebits R).mp hd).symm]

/-- The payments that debit an account. -/
def paidFrom (db : Db) (i : Invoice) (accountId : Uuid) : List InvoicePayment :=
  (db.payments.filter fun p => p.invoiceId = i.id).filter fun p =>
    p.journalEntryId.any fun x => decide (Debits db x accountId)

/-- **The lines on the receivable** come to what is outstanding, and to all that was paid from the receivable. -/
theorem receivable_sum (hsha : Function.Injective sha256) {db : Db} (h : Consistent sha256 db) {i : Invoice}
    (hi : i ∈ db.invoices) {x : Uuid} (hx : x ∈ i.issueJournalEntryId) {R : Uuid}
    (hR : ∀ R', Debits db x R' ↔ R' = R) (hissue : amountOn db x R = i.totalAmountMinor) :
    sumOn db (invoiceEntries db i) R =
      i.totalAmountMinor - paidMinor db i.id + ((paidFrom db i R).map (·.amountMinor)).sum := by
  have hrows : ∀ ps : List InvoicePayment, (∀ p ∈ ps, p ∈ db.payments ∧ p.invoiceId = i.id) →
      ((ps.filterMap (·.journalEntryId)).map fun id => amountOn db id R).sum =
        ((ps.filter fun p => p.journalEntryId.any fun x => decide (Debits db x R)).map (·.amountMinor)).sum -
          (ps.map (·.amountMinor)).sum := by
    intro ps hps
    induction ps with
    | nil => rfl
    | cons p ps ih =>
        rw [List.forall_mem_cons] at hps
        obtain ⟨j, hj, r, e, hs⟩ := h.billing.settles p hps.1.1
        obtain rfl := Keyed.eq_of_key_eq h.billing.invoiceIds hj hi (hs.invoice.symm.trans hps.1.2)
        have hamount := (payment_entry hsha h hs hx hR).2.2
        have hrest := ih hps.2
        rw [List.filterMap_cons, List.filter_cons, hs.link, List.map_cons, List.map_cons, List.sum_cons, List.sum_cons,
          hrest, hamount]
        by_cases hdebit : Debits db e.id R
        · simp [hdebit]
        · simp [hdebit]
          omega
  rw [sumOn_eq (invoiceEntries_nodup h hi), invoiceEntries, List.map_append, List.sum_append,
    hrows _ fun p hp => by simpa using List.mem_filter.mp hp, paidFrom]
  rw [Option.mem_def.mp hx]
  have hpaid : ((db.payments.filter fun p => p.invoiceId = i.id).map (·.amountMinor)).sum = paidMinor db i.id := rfl
  rw [hpaid]
  simp only [Option.toList_some, List.map_cons, List.map_nil, List.sum_cons, List.sum_nil, hissue]
  omega

/-! ## When the receivable nets to what is outstanding -/

/-- The lines on the receivable come to what is outstanding; to nothing, once the invoice is paid. -/
def Nets (db : Db) : Prop :=
  ∀ i ∈ db.invoices, i.status ≠ .void → ∀ x ∈ i.issueJournalEntryId, ∀ R, Debits db x R →
    sumOn db (invoiceEntries db i) R = i.totalAmountMinor - paidMinor db i.id ∧
      (i.status = .paid → sumOn db (invoiceEntries db i) R = 0)

/-- A payment request names two accounts. -/
def DistinctAccounts : Request → Prop
  | .createInvoicePayment r => r.bankAccountId.uuid ≠ r.accountReceivableAccountId.uuid
  | _ => True

/-- Every payment was requested so. -/
def Apart (sha256 : Text → Text) (db : Db) : Prop :=
  ∀ p ∈ db.payments, ∃ r : PaymentRequest, p.requestFingerprint = fingerprint sha256 r.toJs ∧
    r.bankAccountId.uuid ≠ r.accountReceivableAccountId.uuid

theorem Serial.apart {strict : Prop} {db : Db} (h : Serial sha256 strict DistinctAccounts db) : Apart sha256 db := by
  induction h with
  | empty => exact fun _ hp => absurd hp List.not_mem_nil
  | commit _ hq hc ih =>
      intro p hp
      rcases hc.payments with heq | ⟨r, i, p₀, result, es, ls, hs, rfl, hpaid, heq⟩
      · exact ih p (heq ▸ hp)
      · rw [heq] at hp
        rcases List.mem_append.mp hp with hp | hp
        · exact ih p hp
        · rw [List.mem_singleton.mp hp]
          exact ⟨r, hpaid.body, hq⟩

theorem nets_of_apart (hsha : Function.Injective sha256) {db : Db} (h : Consistent sha256 db) (hapart : Apart sha256 db) :
    Nets db := by
  intro i hi _ x hx R hdebit
  obtain ⟨R₀, hR, hissue⟩ := issue_entry hsha h hi hx
  obtain rfl := (hR R).mp hdebit
  have hnone : paidFrom db i R = [] := by
    rw [paidFrom, List.filter_eq_nil_iff]
    intro p hp hfrom
    simp only [List.mem_filter, decide_eq_true_iff] at hp
    obtain ⟨j, hj, r, e, hs⟩ := h.billing.settles p hp.1
    obtain rfl := Keyed.eq_of_key_eq h.billing.invoiceIds hj hi (hs.invoice.symm.trans hp.2)
    obtain ⟨hdebits, hreceivable, -⟩ := payment_entry hsha h hs hx hR
    obtain ⟨r', hbody, hne⟩ := hapart p hp.1
    have hsame := PaymentRequest.same_of_print hsha (hs.body.symm.trans hbody)
    rw [hs.link, Option.any_some, decide_eq_true_iff, hdebits] at hfrom
    rw [← hsame.bankAccountId, ← hsame.accountReceivableAccountId] at hne
    exact hne (hfrom.symm.trans hreceivable.symm)
  have hsum := receivable_sum hsha h hi hx hR hissue
  rw [hnone, List.map_nil, List.sum_nil, Int.add_zero] at hsum
  refine ⟨hsum, fun hpaid => ?_⟩
  rw [hsum, ((h.billing.standing i hi).paid).mp hpaid]
  omega

/-- **The receivable nets to what is outstanding** in every run whose payments name two accounts; in any run, it
does so for an invoice exactly when no payment of the invoice debits the receivable. -/
theorem nets_iff (hsha : Function.Injective sha256) :
    (∀ s : Sys, Reaches sha256 (requesting DistinctAccounts) s → Nets s.db) ∧
      ∀ s : Sys, Reaches sha256 anyStep s → ∀ i ∈ s.db.invoices, ∀ x ∈ i.issueJournalEntryId,
        ∃ R, (∀ R', Debits s.db x R' ↔ R' = R) ∧
          (sumOn s.db (invoiceEntries s.db i) R = i.totalAmountMinor - paidMinor s.db i.id ↔
            ∀ p ∈ s.db.payments, p.invoiceId = i.id → ∀ y ∈ p.journalEntryId, ¬ Debits s.db y R) := by
  refine ⟨fun s h => nets_of_apart hsha (consistent_of_reaches h)
    (serial_of_reaches (requesting_begin _) h).apart, fun s h i hi x hx => ?_⟩
  have hc := consistent_of_reaches h
  obtain ⟨R, hR, hissue⟩ := issue_entry hsha hc hi hx
  refine ⟨R, hR, ?_⟩
  rw [receivable_sum hsha hc hi hx hR hissue]
  have hpositive : ∀ z ∈ (paidFrom s.db i R).map (·.amountMinor), 0 < z := by
    intro z hz
    obtain ⟨p, hp, rfl⟩ := List.mem_map.mp hz
    obtain ⟨j, -, r, e, hs⟩ := hc.billing.settles p (List.mem_of_mem_filter (List.mem_of_mem_filter hp))
    exact hs.positive
  constructor
  · intro hsum p hp hinvoice y hy hdebit
    have hmem : p ∈ paidFrom s.db i R := by
      rw [paidFrom, List.mem_filter, List.mem_filter]
      exact ⟨⟨hp, decide_eq_true hinvoice⟩, by rw [Option.mem_def.mp hy, Option.any_some]; exact decide_eq_true hdebit⟩
    have hle := List.single_le_sum (fun z hz => (hpositive z hz).le) _ (List.mem_map_of_mem (f := (·.amountMinor)) hmem)
    have := hpositive _ (List.mem_map_of_mem (f := (·.amountMinor)) hmem)
    omega
  · intro hnone
    have hempty : paidFrom s.db i R = [] := by
      rw [paidFrom, List.filter_eq_nil_iff]
      intro p hp hfrom
      obtain ⟨y, hy, hdebit⟩ := (Option.any_eq_true _ _).mp hfrom
      rw [List.mem_filter, decide_eq_true_iff] at hp
      exact hnone p hp.1 hp.2 y hy (of_decide_eq_true hdebit)
    rw [hempty, List.map_nil, List.sum_nil, Int.add_zero]

instance : DecidablePred DistinctAccounts
  | .createInvoicePayment r => inferInstanceAs (Decidable (r.bankAccountId.uuid ≠ r.accountReceivableAccountId.uuid))
  | .createAccount _ | .createJournalEntry _ | .createInvoice _ | .issueInvoice _ | .voidInvoice _ | .markOverdueInvoices _ =>
      isTrue trivial

/-- The invoices of a day, and what is on the receivable for each. -/
def receivableOf (db : Db) : List (InvoiceStatus × Bool × Int) :=
  db.invoices.map fun i => (i.status, i.issueJournalEntryId.any fun x => decide (Debits db x Day.receivable),
    sumOn db (invoiceEntries db i) Day.receivable)

set_option maxRecDepth 100000 in
/-- An invoice of 100 is paid in two parts, from the bank. -/
theorem nets_iff_of_day : ∃ s : Sys, receivableOf s.db = [(.paid, true, 0)] ∧
    s.db.payments.map (·.amountMinor) = [60, 40] ∧ Nets s.db ∧
      ∀ i ∈ s.db.invoices, ∀ x ∈ i.issueJournalEntryId, ∃ R, (∀ R', Debits s.db x R' ↔ R' = R) ∧
        (sumOn s.db (invoiceEntries s.db i) R = i.totalAmountMinor - paidMinor s.db i.id ↔
          ∀ p ∈ s.db.payments, p.invoiceId = i.id → ∀ y ∈ p.journalEntryId, ¬ Debits s.db y R) := by
  obtain ⟨s, hs, hshown⟩ := Day.reaches_of
    (Day.opening ++ Day.alone 4 8 (.issueInvoice Day.issue) ++
      Day.alone 5 12 (.createInvoicePayment (Day.payment Day.bank 60 0)) ++
      Day.alone 6 12 (.createInvoicePayment (Day.payment Day.bank 40 1)))
    (requesting_of_begun (P := DistinctAccounts) (by decide))
    (fun s => (receivableOf s.db, s.db.payments.map (·.amountMinor))) (a := ([(.paid, true, 0)], [60, 40])) (by decide)
  obtain ⟨hrows, hpayments⟩ := Prod.mk.inj hshown
  have hidentity : Function.Injective fun t : Text => t := fun _ _ h => h
  obtain ⟨hnets, hiff⟩ := nets_iff hidentity
  exact ⟨s, hrows, hpayments, hnets s hs, hiff s (hs.mono fun _ _ _ => trivial)⟩

set_option maxRecDepth 100000 in
/-- A payment from the receivable to itself settles the invoice, and leaves the receivable as it was. -/
theorem not_nets : ¬ ∀ s : Sys, Reaches (fun t => t) anyStep s → Nets s.db := by
  intro hnets
  obtain ⟨s, hs, hrows⟩ := Day.reaches
    (Day.opening ++ Day.alone 4 8 (.issueInvoice Day.issue) ++
      Day.alone 5 12 (.createInvoicePayment (Day.payment Day.receivable 100 0)))
    (fun s => receivableOf s.db) (a := [(.paid, true, 100)]) (by decide)
  obtain ⟨i, hi, hrow⟩ := List.mem_map.mp (hrows ▸ List.mem_cons_self : (.paid, true, 100) ∈ receivableOf s.db)
  rw [Prod.mk.injEq, Prod.mk.injEq] at hrow
  obtain ⟨hpaid, hany, hsum⟩ := hrow
  obtain ⟨x, hx, hdebit⟩ := (Option.any_eq_true _ _).mp hany
  have hzero := (hnets s hs i hi (by simp [hpaid]) x hx Day.receivable (of_decide_eq_true hdebit)).2 hpaid
  rw [hsum] at hzero
  exact absurd hzero (by decide)

end FinSight
