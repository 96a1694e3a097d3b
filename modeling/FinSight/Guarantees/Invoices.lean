import FinSight.Serial.Refinement

/-!
# What holds of the invoices in every reachable state

* `standing_of_reaches` : status, payments and issue entry of an invoice agree, and its status only moves along
  the edges of `allowedTransitions`;
* `Day` : a run of one tenant, for the witnesses of this and the next modules.
-/

namespace FinSight

open ReadCommitted

variable {sha256 : Text → Text}

/-- The invoice with the id of `i` is still there. -/
def Kept (P : InvoiceStatus → InvoiceStatus → Prop) (db db' : Db) : Prop :=
  ∀ i ∈ db.invoices, ∃ j ∈ db'.invoices, j.id = i.id ∧ P i.status j.status

/-- A step leaves the status of an invoice, or moves it along an edge. -/
def Along (src dst : InvoiceStatus) : Prop := dst = src ∨ canTransition src dst = true

/-- No edge leaves a paid or void invoice. -/
def Final (src dst : InvoiceStatus) : Prop := src = .paid ∨ src = .void → dst = src

theorem Along.final {src dst : InvoiceStatus} (h : Along src dst) : Final src dst := by
  rintro (rfl | rfl)
  · exact h.resolve_right (by cases dst <;> decide)
  · exact h.resolve_right (by cases dst <;> decide)

theorem kept_of_step {ok : Sys → Event → Prop} {s s' : Sys} {l : Event} (h : Reaches sha256 ok s)
    (hstep : s.step engine (program sha256) l = some s') : Kept Along s.db s'.db := by
  intro i hi
  cases commit_of_step h hstep with
  | quiet hdb => exact ⟨i, hdb ▸ hi, rfl, Or.inl rfl⟩
  | commit _ _ _ hcommit hs' =>
      obtain ⟨j, hj, hid, -⟩ := hcommit.grows.invoices i hi
      have hmoves := hcommit.transitions (consistent_of_reaches h) i hi j hj hid
      rw [hs']
      exact ⟨j, hj, hid, hmoves⟩

theorem kept_of_run {ok : Sys → Event → Prop} {s s' : Sys} (h : Reaches sha256 ok s)
    (hrun : System.Reachable engine (program sha256) ok s s') : Kept Final s.db s'.db := by
  induction hrun with
  | refl => exact fun i hi => ⟨i, hi, rfl, fun _ => rfl⟩
  | step hrun _ hstep ih =>
      intro i hi
      obtain ⟨j, hj, hid, hfinal⟩ := ih i hi
      obtain ⟨k, hk, hid', halong⟩ := kept_of_step (h.trans hrun) hstep j hj
      refine ⟨k, hk, hid'.trans hid, fun hi' => ?_⟩
      have hj' := hfinal hi'
      rw [halong.final (hj' ▸ hi'), hj']

/-- **The invoices of every reachable state.** Each stands as its payments say, every step moves its status along
an edge, and a paid or void invoice stays so in every later state. -/
theorem standing_of_reaches {s : Sys} (h : Reaches sha256 anyStep s) :
    (∀ i ∈ s.db.invoices, Standing i (paidMinor s.db i.id)) ∧
      (∀ l s', s.step engine (program sha256) l = some s' → Kept Along s.db s'.db) ∧
      ∀ s', System.Reachable engine (program sha256) anyStep s s' → Kept Final s.db s'.db :=
  ⟨(consistent_of_reaches h).billing.standing, fun _ _ hstep => kept_of_step h hstep, fun _ hrun => kept_of_run h hrun⟩

/-! ## A run -/

namespace Day

/-- Number `n` among the uuids of version 4. -/
def uuid (n : Nat) : Uuid := ⟨BitVec.ofNat 128 (0x40008000000000000000 + n)⟩

/-- Generated ids are numbered from `n`, rows come in the order of the table. -/
def choice (n : Nat) : Choice := ⟨fun k => uuid (n + k), []⟩

theorem two_le_two : 2 ≤ 2 := le_refl 2

def clock (t : Nat) : Reading := ⟨⟨min t 1000⟩, by simp [Date.storable]⟩

instance tenKeys : NeZero 10 := ⟨by decide⟩

def key (n : Fin 10) : IdempotencyKey :=
  ⟨text "key " ++ decimal n.val, by revert n; decide, by revert n; decide⟩

/-- Call number `t`, its `n` statements with nothing in between. -/
def alone (t n : Nat) (q : Request) : List Event :=
  .begin q :: ((List.range n).map fun k => .exec t (choice (100 * t + 10 * k))) ++ [.prepare t, .commit t]

def tenant : Uuid := uuid 1

/-- The ids of the accounts of calls 0, 1 and 2, and of the invoice of call 3. -/
def receivable : Uuid := uuid 0
def revenue : Uuid := uuid 100
def bank : Uuid := uuid 200
def invoice : Uuid := uuid 310

def opening : List Event :=
  alone 0 1 (.createAccount ⟨tenant, text "Receivable", .asset, text "USD"⟩) ++
  alone 1 1 (.createAccount ⟨tenant, text "Revenue", .revenue, text "USD"⟩) ++
  alone 2 1 (.createAccount ⟨tenant, text "Bank", .asset, text "USD"⟩) ++
  alone 3 4 (.createInvoice ⟨tenant, text "Customer", text "USD", ⟨0⟩, [⟨text "Work", 2, 50⟩]⟩)

def issue : IssueRequest := ⟨invoice.text, tenant, receivable.spelled, revenue.spelled, clock 1⟩

def payment (bankAccount : Uuid) (amount : Int) (k : Fin 10) : PaymentRequest :=
  ⟨invoice.text, tenant, amount, none, bankAccount.spelled, receivable.spelled, key k, clock 2, clock 2⟩

/-- What an executed run shows, with SHA-256 replaced by the identity. -/
def shows {α : Type} (f : Sys → α) (events : List Event) : Option α :=
  (System.run engine (program fun t => t) init events).map f

theorem reaches_of {ok : Sys → Event → Prop} {α : Type} (events : List Event) (hok : ∀ l ∈ events, ∀ s, ok s l)
    (f : Sys → α) {a : α} (h : shows f events = some a) : ∃ s, Reaches (fun t => t) ok s ∧ f s = a := by
  obtain ⟨s, hrun, hs⟩ := Option.map_eq_some_iff.mp h
  exact ⟨s, System.reachable_of_run hok hrun, hs⟩

theorem reaches {α : Type} (events : List Event) (f : Sys → α) {a : α} (h : shows f events = some a) :
    ∃ s, Reaches (fun t => t) anyStep s ∧ f s = a := reaches_of events (fun _ _ _ => trivial) f h

end Day

set_option maxRecDepth 100000 in
/-- The invoice is issued and paid in full. -/
theorem standing_of_day : ∃ s : Sys, s.db.invoices.map (·.status) = [.paid] ∧
    (∀ i ∈ s.db.invoices, Standing i (paidMinor s.db i.id)) ∧
      (∀ l s', s.step engine (program fun t => t) l = some s' → Kept Along s.db s'.db) ∧
      ∀ s', System.Reachable engine (program fun t => t) anyStep s s' → Kept Final s.db s'.db := by
  obtain ⟨s, hs, hpaid⟩ := Day.reaches
    (Day.opening ++ Day.alone 4 8 (.issueInvoice Day.issue) ++
      Day.alone 5 12 (.createInvoicePayment (Day.payment Day.bank 100 0)))
    (fun s => s.db.invoices.map (·.status)) (a := [.paid]) (by decide)
  exact ⟨s, hpaid, standing_of_reaches hs⟩

end FinSight
