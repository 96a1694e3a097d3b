import FinSight.Invoices.Service
import FinSight.Lib.Listing

/-!
# Invoices that are listed (`listInvoices` of `src/modules/invoices/invoice.service.js`)
-/

namespace FinSight

open ReadCommitted

structure InvoiceQuery where
  tenantId : Uuid
  limit : PageLimit
  cursor : Option Text
  status : Option (List InvoiceStatus)
  dueBefore : Option FilterDate
  deriving DecidableEq

/-- The filters other than the cursor; an invoice without a due date is not due before any. -/
def InvoiceQuery.admits (q : InvoiceQuery) (i : Invoice) : Bool :=
  i.tenantId = q.tenantId && (q.status.all fun statuses => statuses.contains i.status) &&
    q.dueBefore.all fun d => i.dueDate.any fun due => decide (due < d.date.timestamp)

def invoiceKey (i : Invoice) : Int := i.sequenceNumber

/-- `WHERE … AND sequence_number < … ORDER BY sequence_number DESC LIMIT …`. -/
def selectInvoicesPage (q : InvoiceQuery) (after : Option Int) : Stmt (List Invoice) := fun _ db =>
  Sql.checked [(after.all inInt8, .numericValueOutOfRange)]
    (.done (Keyset.probe invoiceKey q.limit.value after (db.invoices.filter q.admits)) [] [] [])

/-- `SELECT invoice_id, SUM(amount_minor) … WHERE invoice_id IN (…) GROUP BY invoice_id`. -/
def selectPaidSums (invoiceIds : List Uuid) : Stmt (List (Uuid × Int)) := fun ctx db =>
  let rows := db.payments.filter fun p => invoiceIds.contains p.invoiceId
  let sums := (rows.map (·.invoiceId)).dedup.map fun id =>
    (id, ((rows.filter fun p => p.invoiceId = id).map (·.amountMinor)).sum)
  .done (shuffle ctx.choice.order sums) [] [] []

structure InvoiceRow where
  invoice : Invoice
  paidAmountMinor : Text
  outstandingMinor : Text
  deriving DecidableEq

def listInvoices (B : Buffers) (q : InvoiceQuery) : Tx (ListResult InvoiceRow) :=
  match readCursor (Cursor.decodeSequenceCursor B) q.cursor with
  | none => .throw (.app invalidCursor)
  | some after => do
      let rows ← Program.statement (selectInvoicesPage q after)
      let page := Keyset.page q.limit.value rows
      let paidByInvoice ← if page = [] then pure [] else Program.statement (selectPaidSums (page.map (·.id)))
      return {
        data := page.map fun inv =>
          let paid := ((paidByInvoice.find? fun s => s.1 = inv.id).map Prod.snd).getD 0
          { invoice := inv
            paidAmountMinor := decimalInt paid
            outstandingMinor := decimalInt (inv.totalAmountMinor - paid) }
        nextCursor := Keyset.next q.limit.value (fun i => Cursor.encodeSequenceCursor B i.sequenceNumber) rows }

end FinSight
