import FinSight.Invoices.Service
import FinSight.ReadCommitted.Interleaving

/-!
# The service as a system of transactions

`Request` lists the calls that write, `program` gives each its transaction; `System` is any number of calls in
flight against one database, from the empty one.
-/

namespace FinSight

open ReadCommitted

structure AccountRequest where
  tenantId : Uuid
  name : Text
  type : AccountType
  currency : Text
  deriving DecidableEq

structure EntryRequest where
  tenantId : Uuid
  idempotencyKey : IdempotencyKey
  data : EntryData
  deriving DecidableEq

inductive Request where
  | createAccount (r : AccountRequest)
  | createJournalEntry (r : EntryRequest)
  | createInvoice (r : InvoiceRequest)
  | issueInvoice (r : IssueRequest)
  | createInvoicePayment (r : PaymentRequest)
  | voidInvoice (r : VoidRequest)
  | markOverdueInvoices (now : Reading)
  deriving DecidableEq

/-- The overdue job. -/
def Marks : Request → Prop
  | .markOverdueInvoices _ => True
  | _ => False

instance : DecidablePred Marks
  | .markOverdueInvoices _ => isTrue trivial
  | .createAccount _ | .createJournalEntry _ | .createInvoice _ | .issueInvoice _ | .createInvoicePayment _
  | .voidInvoice _ => isFalse not_false

inductive Response where
  | account (row : Account)
  | entry (result : EntryResult)
  | invoice (row : Option Invoice)
  | payment (result : PaymentResult)
  | invoices (rows : List Invoice)
  deriving DecidableEq

/-- `src/modules/accounts/account.service.js`. -/
def createAccount (r : AccountRequest) : Tx Account :=
  Program.statement (Sql.insertAccount r.tenantId r.name r.type r.currency)

variable (sha256 : Text → Text)

def program : Request → Tx Response
  | .createAccount r => do return .account (← createAccount r)
  | .createJournalEntry r => do return .entry (← createJournalEntry sha256 r.tenantId r.idempotencyKey r.data)
  | .createInvoice r => do return .invoice (some (← createInvoice r))
  | .issueInvoice r => do return .invoice (← issueInvoice sha256 r)
  | .createInvoicePayment r => do return .payment (← createInvoicePayment sha256 r)
  | .voidInvoice r => do return .invoice (← voidInvoice r)
  | .markOverdueInvoices now => do return .invoices (← markOverdueInvoices now)

abbrev Sys := System Db Write Lock Failure Choice Request Response

abbrev Event := Label Request Choice

def init : Sys := ⟨Db.empty, 0, []⟩

/-- States of all runs whose steps satisfy `ok`. -/
abbrev Reaches (ok : Sys → Event → Prop) (s : Sys) : Prop :=
  System.Reachable engine (program sha256) ok init s

/-- No condition on the steps of a run. -/
abbrev anyStep : Sys → Event → Prop := fun _ _ => True

/-- Runs in which every call's request satisfies `P`. -/
def requesting (P : Request → Prop) : Sys → Event → Prop := fun _ l => ∀ q, l = .begin q → P q

/-- The requests of a list of steps. -/
def begun (events : List Event) : List Request :=
  events.filterMap fun
    | .begin q => some q
    | _ => none

theorem requesting_of_begun {P : Request → Prop} {events : List Event} (h : ∀ q ∈ begun events, P q) :
    ∀ l ∈ events, ∀ s, requesting P s l := by
  intro l hl s q hq
  subst hq
  exact h q (List.mem_filterMap.mpr ⟨_, hl, rfl⟩)

theorem requesting_begin (P : Request → Prop) : ∀ (s : Sys) (q : Request), requesting P s (.begin q) → P q :=
  fun _ q h => h q rfl

end FinSight
