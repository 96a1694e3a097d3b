import FinSight.Guarantees.Invoices

/-!
# The issue line of an invoice

* `issue_lines` : in every reachable state the issue entry of an invoice has one line that `createInvoicePayment` can find,
  so that no payment ends with a plain `Error`.
-/

namespace FinSight

open ReadCommitted

variable {sha256 : Text → Text}

/-- The issue line query answers with `l`, whatever the order of the rows. -/
def FindsIssueLine (db : Db) (i : Invoice) (x : Uuid) (l : EntryLine) : Prop :=
  ∀ ctx, Sql.selectIssueLine x i.tenantId ctx db = .done (some l) [] [] []

/-- The issue entry `x` of `i` has one line with a positive amount, the total, on an asset account of the tenant in the
currency of the invoice. -/
structure HasIssueLine (db : Db) (i : Invoice) (x : Uuid) (l : EntryLine) : Prop where
  entry : ∃ e ∈ db.entries, e.id = x ∧ e.tenantId = i.tenantId
  only : (entryLines db x).filter (fun l => 0 < l.amountMinor) = [l]
  total : l.amountMinor = i.totalAmountMinor
  account : ∃ a ∈ db.accounts, a.id = l.accountId ∧ a.tenantId = i.tenantId ∧ a.type = .asset ∧ a.currency = i.currency

theorem hasIssueLine (hsha : Function.Injective sha256) {db : Db} (h : Consistent sha256 db) {i : Invoice}
    (hi : i ∈ db.invoices) {x : Uuid} (hx : i.issueJournalEntryId = some x) :
    ∃ l, HasIssueLine db i x l ∧ FindsIssueLine db i x l := by
  obtain ⟨e, he, hid, htenant, l, hline, hlt, htotal, haccount⟩ := h.issueLine hsha hi hx
  refine ⟨l, ⟨⟨e, he, hid, htenant⟩, hline, htotal, haccount⟩, fun ctx => ?_⟩
  unfold Sql.selectIssueLine
  rw [issueLines_eq hline hlt, head?_shuffle_singleton]

/-- **Every issued invoice has its issue line**, in every reachable state, and no payment throws a plain `Error`. -/
theorem issue_lines (hsha : Function.Injective sha256) {s : Sys} (h : Reaches sha256 anyStep s) :
    (∀ i ∈ s.db.invoices, ∀ x, i.issueJournalEntryId = some x →
      ∃ l, HasIssueLine s.db i x l ∧ FindsIssueLine s.db i x l) ∧
    (∀ t call tx r, s.Running t call tx → call.request = .createInvoicePayment r →
      ∀ message, tx.program ≠ .throw (.error message)) ∧
    ∀ l s', s.step engine (program sha256) l = some s' → ∀ t call tx e r, s.Ends s' t call tx (.failed e) →
      call.request = .createInvoicePayment r → ∀ message, e ≠ .error message := by
  have hplain : ∀ {q : Request} {r origin e locks}, q = .createInvoicePayment r →
      Failed sha256 q origin e locks s.db → ∀ message, e ≠ .error message := by
    rintro q r origin e locks rfl hfailed message rfl
    exact PaymentFailed.handled hsha hfailed
  refine ⟨fun i hi x hx => hasIssueLine hsha (consistent_of_reaches h) hi hx, ?_, ?_⟩
  · intro t call tx r hrun hr message hthrow
    exact hplain hr (failed_of_thrown h hrun hthrow) message rfl
  · intro l s' hstep t call tx e r hends hr
    exact hplain hr (failed_of_finish h hstep hends)

set_option maxRecDepth 100000 in
/-- The invoice of the day. -/
theorem issue_lines_of_day : ∃ s : Sys, s.db.invoices.map (·.status) = [.partiallyPaid] ∧
    ∀ i ∈ s.db.invoices, ∀ x, i.issueJournalEntryId = some x →
      ∃ l, HasIssueLine s.db i x l ∧ FindsIssueLine s.db i x l := by
  obtain ⟨s, hs, hstatus⟩ := Day.reaches
    (Day.opening ++ Day.alone 4 8 (.issueInvoice Day.issue) ++
      Day.alone 5 12 (.createInvoicePayment (Day.payment Day.bank 70 0)))
    (fun s => s.db.invoices.map (·.status)) (a := [.partiallyPaid]) (by decide)
  exact ⟨s, hstatus, (issue_lines (fun _ _ heq => heq) hs).1⟩

end FinSight
