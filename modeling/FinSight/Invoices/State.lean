import FinSight.Db.Schema

/-! # Invoice states (`src/modules/invoices/invoice.state.js`) -/

namespace FinSight

def allowedTransitions : InvoiceStatus → List InvoiceStatus
  | .draft => [.issued, .void]
  | .issued => [.partiallyPaid, .paid, .overdue, .void]
  | .partiallyPaid => [.partiallyPaid, .paid, .overdue, .void]
  | .overdue => [.partiallyPaid, .paid, .void]
  | .paid => []
  | .void => []

def canTransition (src dst : InvoiceStatus) : Bool := (allowedTransitions src).contains dst

/-- `Object.keys(allowedTransitions)`. -/
def allStatuses : List InvoiceStatus := [.draft, .issued, .partiallyPaid, .overdue, .paid, .void]

def statusThatCanReach (dst : InvoiceStatus) : List InvoiceStatus := allStatuses.filter fun src => canTransition src dst

def InvoiceStatus.text : InvoiceStatus → Text
  | .draft => FinSight.text "DRAFT"
  | .issued => FinSight.text "ISSUED"
  | .partiallyPaid => FinSight.text "PARTIALLY_PAID"
  | .paid => FinSight.text "PAID"
  | .overdue => FinSight.text "OVERDUE"
  | .void => FinSight.text "VOID"

/-- What `assertTransition` throws. -/
def illegalTransition (src dst : InvoiceStatus) : AppError :=
  ⟨text "Cannot transition invoice from " ++ src.text ++ text " to " ++ dst.text, 422, text "ILLEGAL_TRANSITION"⟩

/-- Overdue invoices are reached from issued and partially paid ones only. -/
theorem mem_overdueSources {s : InvoiceStatus} :
    s ∈ statusThatCanReach .overdue ↔ s = .issued ∨ s = .partiallyPaid := by
  cases s <;> decide

end FinSight
