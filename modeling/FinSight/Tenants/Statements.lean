import FinSight.Accounts.Listing
import FinSight.Invoices.Listing
import FinSight.Ledger.Listing
import FinSight.Tenants.Ledger

/-!
# The statements of the ledger services are confined

For a tenant's choices each statement answers from the tenant's rows, and writes no others: queries name the tenant, or an
id that is the tenant's already; keys are unique for each tenant, and ids are never those of another.

* `confines_*` : one lemma for each statement, with what its rows are known for.
-/

namespace FinSight

open ReadCommitted Shares Sql

variable {issuer : Uuid → Uuid} {t : Uuid} {α : Type} {P : α → Prop}

/-! ## Checks -/

theorem Replies.checked {Db W L C T : Type} {G : Engine Db W Failure} {D : Division G C T} {t : T}
    {checks : List (Bool × SqlState)} {reply : Reply W L Failure α} (h : D.Replies t P reply) :
    D.Replies t P (checked checks reply) := by
  rcases checked_cases checks reply with ⟨state, -, heq⟩ | ⟨-, heq⟩
  · rw [heq]
    trivial
  · rwa [heq]

/-- An id of another tenant's row is not an id of this tenant. -/
theorem ne_of_issuer {id id' owner : Uuid} (hid : issuer id = owner) (howner : owner ≠ t) (hid' : issuer id' = t) :
    id ≠ id' := by
  rintro rfl
  exact howner (hid.symm.trans hid')

/-- New ids are new to all rows where they are new to the tenant's. -/
theorem all_fresh {ρ : Type} {id owner : ρ → Uuid} {rows : List ρ} (hrows : ∀ r ∈ rows, issuer (id r) = owner r) {u : Uuid}
    (hu : issuer u = t) : (owned owner t rows).all (fun r => id r ≠ u) = rows.all fun r => id r ≠ u :=
  all_owned fun r hr howner => decide_eq_true (ne_of_issuer (hrows r hr) howner hu)

theorem freshIds_owned {ρ : Type} {id owner : ρ → Uuid} {rows table : List ρ} (htable : ∀ r ∈ table, issuer (id r) = owner r)
    (hrows : ∀ r ∈ rows, issuer (id r) = t) : freshIds id rows (owned owner t table) = freshIds id rows table := by
  unfold freshIds
  congr 1
  rw [Bool.eq_iff_iff, List.all_eq_true, List.all_eq_true]
  refine forall₂_congr fun r hr => ?_
  rw [all_fresh htable (hrows r hr)]

/-! ## accounts -/

theorem confines_insertAccount (name : Text) (type : AccountType) (currency : Text) :
    (division issuer).Confines t (fun _ => True) (insertAccount t name type currency) := by
  intro ctx db hctx hdb
  have hunique (name : Text) : (db.share issuer t).accounts.all (fun a => a.id ≠ ctx.choice.fresh 0 &&
      !(a.tenantId = t && a.name = name)) = db.accounts.all fun a => a.id ≠ ctx.choice.fresh 0 &&
      !(a.tenantId = t && a.name = name) :=
    all_owned fun a ha hne => by simp [ne_of_issuer (hdb.accounts a ha).2 hne (hctx 0), hne]
  refine ⟨?_, Replies.checked (Division.Replies.one ⟨rfl, hctx 0⟩ trivial)⟩
  unfold insertAccount
  dsimp only
  rw [show ((division issuer).share t db).accounts.all _ = _ from hunique (toWellFormed name)]

theorem confines_selectAccount (id : UuidText) :
    (division issuer).Confines t (fun _ => True) (selectAccount id t) :=
  Division.Confines.read fun _ _ _ => ⟨find?_owned fun _ _ ha => by simpa using (Bool.and_eq_true_iff.mp ha).2, trivial⟩

theorem confines_selectAccounts (ids : List UuidText) :
    (division issuer).Confines t (fun _ => True) (selectAccounts t ids) :=
  Division.Confines.read fun _ _ _ =>
    ⟨congrArg _ (filter_owned fun _ _ ha => of_decide_eq_true (Bool.and_eq_true_iff.mp ha).1), trivial⟩

/-! ## journal_entries, entry_lines -/

theorem confines_insertEntry {v : EntryValues} (hv : v.tenantId = t) :
    (division issuer).Confines t (fun r => ∀ e, r = some e → e.Of issuer t) (insertEntry v) := by
  intro ctx db hctx hdb
  have hkey : (db.share issuer t).entries.any (fun e => e.tenantId = v.tenantId && e.idempotencyKey = v.idempotencyKey) =
      db.entries.any fun e => e.tenantId = v.tenantId && e.idempotencyKey = v.idempotencyKey :=
    any_owned fun e _ he => (of_decide_eq_true (Bool.and_eq_true_iff.mp he).1).trans hv
  have hfresh := all_fresh (fun e he => (hdb.entries e he).2) (hctx 0)
  constructor
  · unfold insertEntry
    dsimp only
    rw [show ((division issuer).share t db).entries.any _ = _ from hkey,
      show ((division issuer).share t db).entries.all _ = _ from hfresh]
  · unfold insertEntry
    refine Replies.checked ?_
    split
    · exact Division.Replies.nothing fun e he => by cases he
    · exact Replies.checked (Division.Replies.one ⟨hv, hctx 0⟩ fun e he => Option.some.inj he ▸ ⟨hv, hctx 0⟩)

theorem confines_selectEntryByKey (key : Text) :
    (division issuer).Confines t (fun r => ∀ e, r = some e → e.Of issuer t) (selectEntryByKey t key) := by
  refine Division.Confines.read fun _ db hdb => ?_
  have hkey : ∀ e ∈ db.entries, (decide (e.tenantId = t) && decide (e.idempotencyKey = key)) = true → e.tenantId = t :=
    fun _ _ he => of_decide_eq_true (Bool.and_eq_true_iff.mp he).1
  refine ⟨find?_owned hkey, fun e he => ?_⟩
  obtain ⟨hmem, hq⟩ := find?_spec he
  exact hkey e hmem hq ▸ hdb.entries e hmem

theorem confines_selectEntry {id : Uuid} (hid : issuer id = t) :
    (division issuer).Confines t (fun _ => True) (selectEntry id) :=
  Division.Confines.read fun _ _ hdb =>
    ⟨find?_owned fun e he heq => (hdb.entries e he).2.symm.trans (of_decide_eq_true heq ▸ hid), trivial⟩

theorem confines_selectLines {entryId : Uuid} (hentry : issuer entryId = t) :
    (division issuer).Confines t (fun _ => True) (selectLines entryId) :=
  Division.Confines.read fun _ _ hdb =>
    ⟨congrArg _ (filter_owned fun l hl heq => (hdb.lines l hl).2.2.symm.trans (of_decide_eq_true heq ▸ hentry)), trivial⟩

theorem confines_insertLines {values : List LineValues} (hvalues : ∀ v ∈ values, v.tenantId = t ∧ issuer v.entryId = t) :
    (division issuer).Confines t (fun _ => True) (insertLines values) := by
  intro ctx db hctx hdb
  unfold insertLines
  dsimp only
  generalize hmade : values.zipIdx.map _ = rows
  have hrows : ∀ l ∈ rows, l.Of issuer t := by
    subst hmade
    intro l hl
    obtain ⟨⟨v, k⟩, hv, rfl⟩ := List.mem_map.mp hl
    have hvalue := hvalues v (List.fst_mem_of_mem_zipIdx hv)
    exact ⟨hvalue.1, hctx k, hvalue.2⟩
  constructor
  · rw [show freshIds EntryLine.id _ ((division issuer).share t db).lines = _ from
      freshIds_owned (fun l hl => (hdb.lines l hl).2.1) fun l hl => (hrows l hl).2.1]
  · refine Replies.checked ⟨fun w hw => ?_, trivial⟩
    obtain ⟨l, hl, rfl⟩ := List.mem_map.mp hw
    exact hrows l hl

theorem confines_selectIssueLine (entryId : Uuid) :
    (division issuer).Confines t (fun _ => True) (selectIssueLine entryId t) :=
  Division.Confines.read fun _ _ _ =>
    ⟨congrArg _ (congrArg _ (filter_owned fun _ _ hl =>
      of_decide_eq_true (Bool.and_eq_true_iff.mp (Bool.and_eq_true_iff.mp hl).1).2)), trivial⟩

/-! ## invoice_sequences, invoices, invoice_items -/

theorem confines_nextSequence : (division issuer).Confines t (fun _ => True) (nextSequence t) := by
  intro ctx db hctx hdb
  have hfind : (db.share issuer t).sequences.find? (fun r => r.tenantId = t) = db.sequences.find? fun r => r.tenantId = t :=
    find?_owned fun _ _ hr => of_decide_eq_true hr
  unfold nextSequence
  rw [show ((division issuer).share t db).sequences.find? _ = _ from hfind]
  refine ⟨rfl, Replies.checked (Division.Replies.one ?_ trivial)⟩
  show InvoiceSequence.tenantId _ = t
  split
  · rfl
  · rfl

theorem confines_insertInvoice {v : InvoiceValues} (hv : v.tenantId = t) :
    (division issuer).Confines t (fun i => i.Of issuer t) (insertInvoice v) := by
  intro ctx db hctx hdb
  have hunique : (db.share issuer t).invoices.all (fun i => i.id ≠ ctx.choice.fresh 0 &&
      !(i.tenantId = v.tenantId && i.invoiceNumber = v.invoiceNumber) &&
      !(i.tenantId = v.tenantId && i.sequenceNumber = v.sequenceNumber)) =
        db.invoices.all fun i => i.id ≠ ctx.choice.fresh 0 &&
          !(i.tenantId = v.tenantId && i.invoiceNumber = v.invoiceNumber) &&
          !(i.tenantId = v.tenantId && i.sequenceNumber = v.sequenceNumber) :=
    all_owned fun i hi hne => by simp [ne_of_issuer (hdb.invoices i hi).2 hne (hctx 0), hv, hne]
  refine ⟨?_, Replies.checked (Division.Replies.one ⟨hv, hctx 0⟩ ⟨hv, hctx 0⟩)⟩
  unfold insertInvoice
  dsimp only
  rw [show ((division issuer).share t db).invoices.all _ = _ from hunique]

theorem confines_insertItems {invoiceId : Uuid} (hinvoice : issuer invoiceId = t) (values : List ItemValues) :
    (division issuer).Confines t (fun _ => True) (insertItems invoiceId values) := by
  intro ctx db hctx hdb
  unfold insertItems
  dsimp only
  generalize hmade : values.zipIdx.map _ = rows
  have hrows : ∀ r ∈ rows, r.Of issuer t := by
    subst hmade
    intro r hr
    obtain ⟨⟨v, k⟩, hv, rfl⟩ := List.mem_map.mp hr
    exact ⟨hctx k, hinvoice⟩
  constructor
  · rw [show freshIds InvoiceItem.id _ ((division issuer).share t db).items = _ from
      freshIds_owned (fun r hr => (hdb.items r hr).1) fun r hr => (hrows r hr).1]
  · refine Replies.checked ⟨fun w hw => ?_, trivial⟩
    obtain ⟨r, hr, rfl⟩ := List.mem_map.mp hw
    exact hrows r hr

theorem confines_insertHistory {invoiceId : Uuid} (hinvoice : issuer invoiceId = t) (src : Option InvoiceStatus)
    (dst : InvoiceStatus) (reason : Text) :
    (division issuer).Confines t (fun _ => True) (insertHistory invoiceId src dst reason) := by
  intro ctx db hctx hdb
  have hfresh := all_fresh (fun h hh => (hdb.history h hh).1) (hctx 0)
  refine ⟨?_, Replies.checked (Division.Replies.one ⟨hctx 0, hinvoice⟩ trivial)⟩
  unfold insertHistory
  dsimp only
  rw [show ((division issuer).share t db).history.all _ = _ from hfresh]

/-- The id in the path is the id of an invoice of the tenant. -/
def InvoiceOf (issuer : Uuid → Uuid) (t : Uuid) (invoiceId : Text) : Prop := ∀ id, uuidIn invoiceId = some id → issuer id = t

section
variable {db : Db} {invoiceId : Text} {id : Uuid}

theorem find?_invoice (id : Uuid) : ((division issuer).share t db).invoices.find? (fun i => i.id = id && i.tenantId = t) =
    db.invoices.find? fun i => i.id = id && i.tenantId = t :=
  find?_owned fun _ _ hi => of_decide_eq_true (Bool.and_eq_true_iff.mp hi).2

/-- An invoice that is found is the tenant's, and so is the id it is found by. -/
theorem invoice_of_found (hdb : db.Owned issuer) (hid : uuidIn invoiceId = some id) {i : Invoice}
    (h : db.invoices.find? (fun i => i.id = id && i.tenantId = t) = some i) :
    i.Of issuer t ∧ InvoiceOf issuer t invoiceId := by
  obtain ⟨hmem, hq⟩ := find?_spec h
  obtain ⟨hq, ht⟩ := Bool.and_eq_true_iff.mp hq
  have hof := hdb.invoices i hmem
  rw [of_decide_eq_true ht] at hof
  refine ⟨hof, fun id' hid' => ?_⟩
  obtain rfl := Option.some.inj (hid.symm.trans hid')
  exact of_decide_eq_true hq ▸ hof.2

end

theorem confines_selectInvoiceForUpdate (invoiceId : Text) :
    (division issuer).Confines t (fun r => ∀ i, r = some i → i.Of issuer t ∧ InvoiceOf issuer t invoiceId)
      (selectInvoiceForUpdate invoiceId t) := by
  intro ctx db hctx hdb
  unfold selectInvoiceForUpdate
  cases hid : uuidIn invoiceId with
  | none => exact ⟨rfl, trivial⟩
  | some id =>
      dsimp only
      rw [find?_invoice]
      refine ⟨rfl, ?_⟩
      cases hi : db.invoices.find? fun i => i.id = id && i.tenantId = t with
      | none => exact Division.Replies.nothing fun _ h => by cases h
      | some i => exact Division.Replies.nothing fun i' h => Option.some.inj h ▸ invoice_of_found hdb hid hi

theorem confines_selectInvoice (invoiceId : Text) :
    (division issuer).Confines t (fun r => ∀ i, r = some i → i.Of issuer t ∧ InvoiceOf issuer t invoiceId)
      (selectInvoice invoiceId t) := by
  intro ctx db hctx hdb
  unfold selectInvoice
  cases hid : uuidIn invoiceId with
  | none => exact ⟨rfl, trivial⟩
  | some id =>
      dsimp only
      rw [find?_invoice]
      exact ⟨rfl, Division.Replies.nothing fun i hi => invoice_of_found hdb hid hi⟩

theorem confines_selectInvoiceById {id : Uuid} (hid : issuer id = t) :
    (division issuer).Confines t (fun _ => True) (selectInvoiceById id) :=
  Division.Confines.read fun _ _ hdb =>
    ⟨find?_owned fun i hi heq => (hdb.invoices i hi).2.symm.trans (of_decide_eq_true heq ▸ hid), trivial⟩

theorem confines_updateInvoices {condition : Invoice → Bool} (hcondition : ∀ i, condition i = true → i.tenantId = t)
    (set : InvoiceState → InvoiceState) : (division issuer).Confines t (fun _ => True) (updateInvoices condition set) := by
  intro ctx db hctx hdb
  have hfind : (db.share issuer t).invoices.find? condition = db.invoices.find? condition :=
    find?_owned fun i _ hi => hcondition i hi
  unfold updateInvoices
  rw [show ((division issuer).share t db).invoices.find? _ = _ from hfind]
  refine ⟨rfl, ?_⟩
  cases hi : db.invoices.find? condition with
  | none => exact Division.Replies.nothing trivial
  | some i =>
      obtain ⟨hmem, hq⟩ := find?_spec hi
      refine Division.Replies.one ?_ trivial
      show issuer i.id = t
      rw [(hdb.invoices i hmem).2, hcondition i hq]

theorem confines_updateInvoice (invoiceId : Text) (set : InvoiceState → InvoiceState) :
    (division issuer).Confines t (fun _ => True) (updateInvoice invoiceId t set) := by
  intro ctx db hctx hdb
  unfold updateInvoice
  cases uuidIn invoiceId with
  | none => exact ⟨rfl, trivial⟩
  | some id =>
      exact confines_updateInvoices (fun i hi => of_decide_eq_true (Bool.and_eq_true_iff.mp hi).2) set ctx db hctx hdb

/-! ## invoice_payments, invoice_status_history -/

theorem confines_insertPayment {v : PaymentValues} (hv : v.tenantId = t) (hinvoice : InvoiceOf issuer t v.invoiceId) :
    (division issuer).Confines t (fun r => ∀ p, r = some p → p.Of issuer t) (insertPayment v) := by
  intro ctx db hctx hdb
  have hkey : (db.share issuer t).payments.any (fun p => p.tenantId = v.tenantId && p.idempotencyKey = v.idempotencyKey) =
      db.payments.any fun p => p.tenantId = v.tenantId && p.idempotencyKey = v.idempotencyKey :=
    any_owned fun p _ hp => (of_decide_eq_true (Bool.and_eq_true_iff.mp hp).1).trans hv
  have hfresh := all_fresh (fun p hp => (hdb.payments p hp).2.1) (hctx 0)
  unfold insertPayment
  cases hid : uuidIn v.invoiceId with
  | none => exact ⟨rfl, trivial⟩
  | some id =>
      dsimp only
      constructor
      · rw [show ((division issuer).share t db).payments.any _ = _ from hkey,
          show ((division issuer).share t db).payments.all _ = _ from hfresh]
      · have hof : InvoicePayment.Of issuer t
            { id := ctx.choice.fresh 0
              invoiceId := id
              amountMinor := v.amountMinor
              paidAt := v.paidAt.timestamp
              journalEntryId := none
              createdAt := ctx.now
              tenantId := v.tenantId
              idempotencyKey := v.idempotencyKey
              requestFingerprint := v.requestFingerprint } :=
          ⟨hv, hctx 0, hinvoice id hid, fun _ he => by cases he⟩
        refine Replies.checked ?_
        split
        · exact Division.Replies.nothing fun _ hp => by cases hp
        · exact Replies.checked (Division.Replies.one hof fun p hp => Option.some.inj hp ▸ hof)

theorem confines_selectPaymentByKey (key : Text) :
    (division issuer).Confines t (fun r => ∀ p, r = some p → p.Of issuer t) (selectPaymentByKey t key) := by
  refine Division.Confines.read fun _ db hdb => ?_
  have hkey : ∀ p ∈ db.payments, (decide (p.tenantId = t) && decide (p.idempotencyKey = key)) = true → p.tenantId = t :=
    fun _ _ hp => of_decide_eq_true (Bool.and_eq_true_iff.mp hp).1
  refine ⟨find?_owned hkey, fun p hp => ?_⟩
  obtain ⟨hmem, hq⟩ := find?_spec hp
  exact hkey p hmem hq ▸ hdb.payments p hmem

theorem confines_linkPayment {id entryId : Uuid} (hid : issuer id = t) (hentry : issuer entryId = t) :
    (division issuer).Confines t (fun _ => True) (linkPayment id entryId) := by
  intro ctx db hctx hdb
  have hfind : (db.share issuer t).payments.find? (fun p => p.id = id) = db.payments.find? fun p => p.id = id :=
    find?_owned fun p hp heq => (hdb.payments p hp).2.1.symm.trans (of_decide_eq_true heq ▸ hid)
  unfold linkPayment
  rw [show ((division issuer).share t db).payments.find? _ = _ from hfind]
  refine ⟨rfl, ?_⟩
  cases hp : db.payments.find? fun p => p.id = id with
  | none => exact Division.Replies.nothing trivial
  | some p =>
      obtain ⟨_, hq⟩ := find?_spec hp
      exact Division.Replies.one ⟨of_decide_eq_true hq ▸ hid, hentry⟩ trivial

section
variable {db : Db} {id : Uuid}

/-- All payments of an invoice are its tenant's. -/
theorem filter_payments (hdb : db.Owned issuer) (hid : issuer id = t) :
    ((division issuer).share t db).payments.filter (fun p => p.invoiceId = id) = db.payments.filter fun p => p.invoiceId = id :=
  filter_owned fun p hp heq => (hdb.payments p hp).2.2.1.symm.trans (of_decide_eq_true heq ▸ hid)

theorem filter_items (hid : issuer id = t) :
    ((division issuer).share t db).items.filter (fun r => r.invoiceId = id) = db.items.filter fun r => r.invoiceId = id :=
  filter_owned fun r _ heq => show issuer r.invoiceId = t from of_decide_eq_true heq ▸ hid

theorem filter_history (hid : issuer id = t) :
    ((division issuer).share t db).history.filter (fun h => h.invoiceId = id) = db.history.filter fun h => h.invoiceId = id :=
  filter_owned fun h _ heq => show issuer h.invoiceId = t from of_decide_eq_true heq ▸ hid

end

/-- A query by the id of an invoice. -/
theorem confines_byInvoice {invoiceId : Text} (hinvoice : InvoiceOf issuer t invoiceId) {s : Stmt α}
    {f : Uuid → Context Choice → Db → α}
    (hs : ∀ ctx db, s ctx db = (uuidIn invoiceId).elim (.error (.sql .invalidTextRepresentation))
      fun id => .done (f id ctx db) [] [] [])
    (hf : ∀ id ctx db, db.Owned issuer → issuer id = t → f id ctx ((division issuer).share t db) = f id ctx db) :
    (division issuer).Confines t (fun _ => True) s := by
  intro ctx db hctx hdb
  rw [hs, hs]
  cases hid : uuidIn invoiceId with
  | none => exact ⟨rfl, trivial⟩
  | some id =>
      simp only [Option.elim]
      rw [hf id ctx db hdb (hinvoice id hid)]
      exact ⟨rfl, Division.Replies.nothing trivial⟩

theorem confines_selectPayments {invoiceId : Text} (hinvoice : InvoiceOf issuer t invoiceId) :
    (division issuer).Confines t (fun _ => True) (selectPayments invoiceId) := by
  refine confines_byInvoice hinvoice (f := fun id ctx db => shuffle ctx.choice.order (db.payments.filter fun p => p.invoiceId = id))
    (fun ctx db => ?_) fun id ctx db hdb hid => congrArg _ (filter_payments hdb hid)
  unfold selectPayments
  cases uuidIn invoiceId <;> rfl

theorem confines_selectItems {invoiceId : Text} (hinvoice : InvoiceOf issuer t invoiceId) :
    (division issuer).Confines t (fun _ => True) (selectItems invoiceId) := by
  refine confines_byInvoice hinvoice (f := fun id ctx db => shuffle ctx.choice.order (db.items.filter fun r => r.invoiceId = id))
    (fun ctx db => ?_) fun id ctx db _ hid => congrArg _ (filter_items hid)
  unfold selectItems
  cases uuidIn invoiceId <;> rfl

theorem confines_selectPaymentsByCreation {invoiceId : Text} (hinvoice : InvoiceOf issuer t invoiceId) :
    (division issuer).Confines t (fun _ => True) (selectPaymentsByCreation invoiceId) := by
  refine confines_byInvoice hinvoice (f := fun id ctx db => orderByDesc (·.createdAt) ctx.choice.order (db.payments.filter fun p => p.invoiceId = id))
    (fun ctx db => ?_) fun id ctx db hdb hid => congrArg _ (filter_payments hdb hid)
  unfold selectPaymentsByCreation
  cases uuidIn invoiceId <;> rfl

theorem confines_selectHistory {invoiceId : Text} (hinvoice : InvoiceOf issuer t invoiceId) :
    (division issuer).Confines t (fun _ => True) (selectHistory invoiceId) := by
  refine confines_byInvoice hinvoice (f := fun id ctx db => orderByDesc (·.changedAt) ctx.choice.order (db.history.filter fun h => h.invoiceId = id))
    (fun ctx db => ?_) fun id ctx db _ hid => congrArg _ (filter_history hid)
  unfold selectHistory
  cases uuidIn invoiceId <;> rfl

/-! ## Lists and balances -/

theorem confines_selectAccountsOf (c : Collation) {q : AccountQuery} (hq : q.tenantId = t) :
    (division issuer).Confines t (fun _ => True) (selectAccountsOf c q) :=
  Division.Confines.read fun _ _ _ =>
    ⟨congrArg _ (filter_owned fun _ _ ha => (of_decide_eq_true (Bool.and_eq_true_iff.mp ha).1).trans hq), trivial⟩

theorem confines_selectTenantAccount (accountId : Text) :
    (division issuer).Confines t (fun _ => True) (selectTenantAccount t accountId) := by
  intro ctx db hctx hdb
  unfold selectTenantAccount
  cases uuidIn accountId with
  | none => exact ⟨rfl, trivial⟩
  | some id =>
      have hfind : ((division issuer).share t db).accounts.find? (fun a => a.id = id && a.tenantId = t) =
          db.accounts.find? fun a => a.id = id && a.tenantId = t :=
        find?_owned fun _ _ ha => of_decide_eq_true (Bool.and_eq_true_iff.mp ha).2
      dsimp only
      rw [hfind]
      exact ⟨rfl, Division.Replies.nothing trivial⟩

/-- Copies of elements are looked at one by one. -/
theorem filter_copies {ρ : Type} {xs : List ρ} {q : ρ → Bool} {copies : ρ → List ρ} (h : ∀ x, ∀ y ∈ copies x, y = x) :
    (xs.flatMap copies).filter q = (xs.filter q).flatMap copies := by
  induction xs with
  | nil => rfl
  | cons x xs ih =>
      rw [List.flatMap_cons, List.filter_append, ih]
      cases hx : q x with
      | true =>
          rw [List.filter_cons_of_pos hx, List.flatMap_cons, List.filter_eq_self.mpr fun y hy => (h x y hy) ▸ hx]
      | false =>
          rw [List.filter_cons_of_neg (by simp [hx]),
            List.filter_eq_nil_iff.mpr fun y hy => by simp [h x y hy, hx], List.nil_append]

/-- Lines of the tenant, joined with entries by their id. -/
theorem filter_joined {db : Db} (hdb : db.Owned issuer) {q : EntryLine → Bool} (hq : ∀ el, q el = true → el.tenantId = t)
    {m : EntryLine → JournalEntry → Bool} (hm : ∀ el e, m el e = true → e.id = el.entryId) :
    (((division issuer).share t db).lines.flatMap fun el =>
        (((division issuer).share t db).entries.filter (m el)).map fun _ => el).filter q =
      (db.lines.flatMap fun el => (db.entries.filter (m el)).map fun _ => el).filter q := by
  have hcopies (entries : List JournalEntry) (el : EntryLine) :
      ∀ y ∈ (entries.filter (m el)).map (fun _ => el), y = el := by
    intro y hy
    obtain ⟨_, _, rfl⟩ := List.mem_map.mp hy
    rfl
  have hlines : ((division issuer).share t db).lines.filter q = db.lines.filter q := filter_owned fun el _ hel => hq el hel
  rw [filter_copies (hcopies _), filter_copies (hcopies _), hlines]
  refine List.flatMap_congr fun el hel => ?_
  obtain ⟨hel, helq⟩ := List.mem_filter.mp hel
  have hentries : ((division issuer).share t db).entries.filter (m el) = db.entries.filter (m el) :=
    filter_owned fun e he heq =>
      (hdb.entries e he).2.symm.trans ((congrArg issuer (hm el e heq)).trans ((hdb.lines el hel).2.2.trans (hq el helq)))
  rw [hentries]

theorem balanceLines_share {db : Db} (hdb : db.Owned issuer) (accountId : Uuid) (asOf : Option Date) :
    balanceLines ((division issuer).share t db) t accountId asOf = balanceLines db t accountId asOf := by
  have hq : ∀ el : EntryLine, (decide (el.tenantId = t) && decide (el.accountId = accountId)) = true → el.tenantId = t :=
    fun _ hel => of_decide_eq_true (Bool.and_eq_true_iff.mp hel).1
  unfold balanceLines joinedLines
  cases asOf with
  | none => exact filter_owned fun el _ hel => hq el hel
  | some d => exact filter_joined hdb hq fun _ _ h => of_decide_eq_true (Bool.and_eq_true_iff.mp h).1

theorem accountLines_share {db : Db} (hdb : db.Owned issuer) (asOf : Option Date) {a : Account} (ha : a.tenantId = t) :
    accountLines ((division issuer).share t db) asOf a = accountLines db asOf a := by
  have hq : ∀ el : EntryLine, (decide (el.accountId = a.id) && decide (el.tenantId = a.tenantId)) = true → el.tenantId = t :=
    fun _ hel => (of_decide_eq_true (Bool.and_eq_true_iff.mp hel).2).trans ha
  unfold accountLines linesUpTo
  cases asOf with
  | none => exact filter_owned fun el _ hel => hq el hel
  | some d =>
      exact filter_joined hdb hq fun _ _ h =>
        of_decide_eq_true (Bool.and_eq_true_iff.mp (Bool.and_eq_true_iff.mp h).1).1

theorem confines_selectAccountBalance (accountId : Text) (asOf : Option Date) :
    (division issuer).Confines t (fun _ => True) (selectAccountBalance t accountId asOf) := by
  intro ctx db hctx hdb
  unfold selectAccountBalance
  cases uuidIn accountId with
  | none => exact ⟨rfl, trivial⟩
  | some id =>
      dsimp only
      rw [balanceLines_share hdb]
      exact ⟨rfl, Replies.checked (Division.Replies.nothing trivial)⟩

theorem confines_selectAccountBalances (c : Collation) (asOf : Option Date) :
    (division issuer).Confines t (fun _ => True) (selectAccountBalances c t asOf) := by
  intro ctx db hctx hdb
  have haccounts : ((division issuer).share t db).accounts.filter (fun a => a.tenantId = t) =
      db.accounts.filter fun a => a.tenantId = t := filter_owned fun _ _ ha => of_decide_eq_true ha
  have hmem {a : Account} (ha : a ∈ db.accounts.filter fun a => a.tenantId = t) : a.tenantId = t :=
    of_decide_eq_true (List.mem_filter.mp ha).2
  have hcounts := all_congr_mem fun a ha => congrArg (fun lines : List EntryLine => inInt4 lines.length)
    (accountLines_share hdb asOf (hmem ha))
  have hlist : listAccountBalances c.le ((division issuer).share t db) t asOf = listAccountBalances c.le db t asOf := by
    unfold listAccountBalances
    rw [haccounts]
    refine List.map_congr_left fun a ha => ?_
    have ht := hmem ((List.perm_insertionSort _ _).mem_iff.mp ha)
    unfold accountBalance
    rw [accountLines_share hdb asOf ht]
  unfold selectAccountBalances
  rw [haccounts, hcounts, hlist]
  exact ⟨rfl, Replies.checked (Division.Replies.nothing trivial)⟩

theorem confines_selectEntriesPage {q : EntryQuery} (hq : q.tenantId = t) (after : Option Cursor.EntryKey) :
    (division issuer).Confines t (fun _ => True) (selectEntriesPage q after) := by
  intro ctx db hctx hdb
  have hof {db' : Db} {e : JournalEntry} (h : q.admits db' e = true) : e.tenantId = t :=
    (of_decide_eq_true (Bool.and_eq_true_iff.mp (Bool.and_eq_true_iff.mp (Bool.and_eq_true_iff.mp h).1).1).1).trans hq
  have hrows : ((division issuer).share t db).entries.filter (q.admits ((division issuer).share t db)) =
      db.entries.filter (q.admits db) := by
    refine Eq.trans (List.filter_congr fun e he => ?_) (filter_owned fun e _ he => hof he)
    obtain ⟨hmem, ht⟩ := mem_owned.mp he
    unfold EntryQuery.admits
    congr 1
    cases q.accountId with
    | none => rfl
    | some a =>
        exact any_owned fun l hl heq => (hdb.lines l hl).2.2.symm.trans
          ((congrArg issuer (of_decide_eq_true (Bool.and_eq_true_iff.mp heq).1)).trans ((hdb.entries e hmem).2.trans ht))
  unfold selectEntriesPage
  rw [hrows]
  cases after with
  | none => exact ⟨rfl, Division.Replies.nothing trivial⟩
  | some c =>
      dsimp only
      cases uuidIn c.id with
      | none => exact ⟨rfl, trivial⟩
      | some id => exact ⟨rfl, Division.Replies.nothing trivial⟩

theorem confines_selectLinesOf (entryIds : List Uuid) :
    (division issuer).Confines t (fun _ => True) (selectLinesOf t entryIds) :=
  Division.Confines.read fun _ _ _ =>
    ⟨congrArg _ (filter_owned fun _ _ hl => of_decide_eq_true (Bool.and_eq_true_iff.mp hl).1), trivial⟩

theorem confines_selectInvoicesPage {q : InvoiceQuery} (hq : q.tenantId = t) (after : Option Int) :
    (division issuer).Confines t (fun rows => ∀ i ∈ rows, i.Of issuer t) (selectInvoicesPage q after) := by
  intro ctx db hctx hdb
  have hof {i : Invoice} (h : q.admits i = true) : i.tenantId = t :=
    (of_decide_eq_true (Bool.and_eq_true_iff.mp (Bool.and_eq_true_iff.mp h).1).1).trans hq
  have hrows : ((division issuer).share t db).invoices.filter q.admits = db.invoices.filter q.admits :=
    filter_owned fun i _ hi => hof hi
  unfold selectInvoicesPage
  rw [hrows]
  refine ⟨rfl, Replies.checked (Division.Replies.nothing fun i hi => ?_)⟩
  obtain ⟨hmem, hadmits⟩ := List.mem_filter.mp (Keyset.mem_of_probe hi)
  exact hof hadmits ▸ hdb.invoices i hmem

theorem confines_selectPaidSums {invoiceIds : List Uuid} (hids : ∀ id ∈ invoiceIds, issuer id = t) :
    (division issuer).Confines t (fun _ => True) (selectPaidSums invoiceIds) := by
  intro ctx db hctx hdb
  have hrows : ((division issuer).share t db).payments.filter (fun p => invoiceIds.contains p.invoiceId) =
      db.payments.filter fun p => invoiceIds.contains p.invoiceId :=
    filter_owned fun p hp heq => (hdb.payments p hp).2.2.1.symm.trans (hids _ (List.contains_iff_mem.mp heq))
  unfold selectPaidSums
  rw [hrows]
  exact ⟨rfl, Division.Replies.nothing trivial⟩

end FinSight
