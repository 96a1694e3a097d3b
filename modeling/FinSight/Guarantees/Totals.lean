import FinSight.Guarantees.Invoices
import FinSight.Guarantees.Pagination
import FinSight.Lists.Grouping
import FinSight.ReadCommitted.Alone
import FinSight.Serial.Alone

/-!
# The amounts of an invoice

* `Itemized` : the items of every invoice sum to its total; `itemized_of_reaches` : in every reachable state;
* `getInvoice_view`, `listInvoices_rows` : what the two reads show of an invoice;
* `Created.stored`, `changes_in_range` : what creating stores, and that nothing else than what fits its columns is;
* `amounts_agree` : all of it, in every reachable state.
-/

namespace FinSight

open ReadCommitted Keyset Grouping

variable {sha256 : Text → Text}

/-! ## Items -/

def itemsOf (db : Db) (invoiceId : Uuid) : List InvoiceItem := db.items.filter fun r => r.invoiceId = invoiceId

/-- `lineTotalMinor`. -/
def InvoiceItem.lineTotal (r : InvoiceItem) : Int := r.unitPriceMinor * r.quantity

structure Itemized (db : Db) : Prop where
  owned : ∀ r ∈ db.items, ∃ i ∈ db.invoices, i.id = r.invoiceId
  totals : ∀ i ∈ db.invoices, ((itemsOf db i.id).map InvoiceItem.lineTotal).sum = i.totalAmountMinor

theorem Itemized.empty : Itemized Db.empty := ⟨fun _ h => absurd h List.not_mem_nil, fun _ h => absurd h List.not_mem_nil⟩

theorem Itemized.congr {db db' : Db} (h : Itemized db) (hitems : db'.items = db.items)
    (hinvoices : db'.invoices = db.invoices) : Itemized db' where
  owned := by rw [hitems, hinvoices]; exact h.owned
  totals := by rw [hinvoices]; simpa only [itemsOf, hitems] using h.totals

theorem Itemized.setInvoice {db db' : Db} (h : Itemized db) (hitems : db'.items = db.items) {id : Uuid}
    {s : InvoiceState} (hinvoices : db'.invoices = setInvoice id s db.invoices) : Itemized db' where
  owned r hr := by
    obtain ⟨i, hi, hid⟩ := h.owned r (hitems ▸ hr)
    obtain ⟨j, hj, hji, -⟩ := setInvoice_keeps id s db.invoices i hi
    exact ⟨j, hinvoices ▸ hj, hji.trans hid⟩
  totals j hj := by
    rw [hinvoices] at hj
    obtain ⟨i, hi, rfl⟩ := List.mem_map.mp hj
    have htotal := h.totals i hi
    rw [itemsOf] at htotal ⊢
    rw [hitems]
    split <;> exact htotal

/-- The items of a new invoice are those of the request. -/
theorem Created.itemsOf {db : Db} {now : Timestamp} {r : InvoiceRequest} {seq : InvoiceSequence} {i : Invoice}
    {items : List InvoiceItem} {hist : StatusHistory} (hc : Created db now r seq i items hist) (h : Itemized db) :
    (db.items ++ items).filter (fun x => x.invoiceId = i.id) = items := by
  have hold : db.items.filter (fun x => x.invoiceId = i.id) = [] := by
    rw [List.filter_eq_nil_iff]
    intro x hx heq
    obtain ⟨j, hj, hid⟩ := h.owned x hx
    exact hc.freshId j hj (hid.trans (of_decide_eq_true heq))
  have hnew : items.filter (fun x => x.invoiceId = i.id) = items := by
    rw [List.filter_eq_self]
    intro x hx
    have hmem : (x.invoiceId, x.quantity, x.unitPriceMinor) ∈ r.items.map fun v => (i.id, v.quantity, v.unitPriceMinor) := by
      rw [← hc.items]
      exact List.mem_map_of_mem (f := fun x : InvoiceItem => (x.invoiceId, x.quantity, x.unitPriceMinor)) hx
    obtain ⟨v, -, heq⟩ := List.mem_map.mp hmem
    exact decide_eq_true (Prod.mk.inj heq).1.symm
  rw [List.filter_append, hold, hnew, List.nil_append]

theorem Created.lineTotals {db : Db} {now : Timestamp} {r : InvoiceRequest} {seq : InvoiceSequence} {i : Invoice}
    {items : List InvoiceItem} {hist : StatusHistory} (hc : Created db now r seq i items hist) :
    (items.map InvoiceItem.lineTotal).sum = invoiceTotal r.items := by
  have hproducts := congrArg (List.map fun x : Uuid × Int × Int => x.2.1 * x.2.2) hc.items
  rw [List.map_map, List.map_map] at hproducts
  rw [invoiceTotal, ← show r.items.map _ = _ from rfl]
  refine congrArg List.sum (Eq.trans (List.map_congr_left fun x _ => ?_) hproducts)
  exact Int.mul_comm _ _

theorem Itemized.created {db : Db} {now : Timestamp} {r : InvoiceRequest} {seq : InvoiceSequence} {i : Invoice}
    {items : List InvoiceItem} {hist : StatusHistory} (h : Itemized db) (hc : Created db now r seq i items hist)
    {db' : Db} (hinvoices : db'.invoices = db.invoices ++ [i]) (hitems : db'.items = db.items ++ items) : Itemized db' where
  owned x hx := by
    rw [hitems] at hx
    rw [hinvoices]
    rcases List.mem_append.mp hx with hx | hx
    · obtain ⟨j, hj, hid⟩ := h.owned x hx
      exact ⟨j, List.mem_append_left _ hj, hid⟩
    · rw [← hc.itemsOf h, List.mem_filter] at hx
      exact ⟨i, List.mem_append_right _ (List.mem_singleton_self i), (of_decide_eq_true hx.2).symm⟩
  totals j hj := by
    rw [hinvoices] at hj
    rw [FinSight.itemsOf, hitems]
    rcases List.mem_append.mp hj with hj | hj
    · have hnone : items.filter (fun x => x.invoiceId = j.id) = [] := by
        rw [List.filter_eq_nil_iff]
        intro x hx heq
        rw [← hc.itemsOf h, List.mem_filter] at hx
        exact hc.freshId j hj ((of_decide_eq_true heq).symm.trans (of_decide_eq_true hx.2))
      rw [List.filter_append, hnone, List.append_nil]
      exact h.totals j hj
    · rw [List.mem_singleton.mp hj, hc.itemsOf h, hc.lineTotals, hc.total]

theorem OverdueRun.itemized {strict : Prop} {now updatedAt : Timestamp} {db : Db} {log : List Write}
    {rows : List Invoice} (ho : OverdueRun strict now updatedAt db log rows) (h : Itemized db) :
    Itemized (engine.view log db) := by
  induction ho with
  | nil => exact h
  | snoc _ _ _ _ _ _ ih =>
      rw [Engine.view_append]
      exact ih.setInvoice rfl rfl

theorem Commit.itemized {strict : Prop} {db : Db} {now : Timestamp} {q : Request} {r : Response} {log : List Write}
    (hc : Commit sha256 strict db now q r log) (h : Itemized db) : Itemized (engine.view log db) := by
  cases hc with
  | createAccount _ _ _ => exact h.congr rfl rfl
  | createJournalEntry _ =>
      rw [view_posts]
      exact h.congr rfl rfl
  | createInvoice hcreated =>
      rw [hcreated.view]
      exact h.created hcreated rfl rfl
  | issueInvoice hissued =>
      rw [hissued.view]
      exact h.setInvoice rfl rfl
  | pay hp =>
      rw [hp.view]
      exact h.setInvoice rfl rfl
  | replayPayment _ => exact h
  | voidInvoice hv =>
      rw [hv.view]
      exact h.setInvoice rfl rfl
  | markOverdue ho => exact ho.itemized h

theorem Serial.itemized {strict : Prop} {P : Request → Prop} {db : Db} (h : Serial sha256 strict P db) : Itemized db := by
  induction h with
  | empty => exact Itemized.empty
  | commit _ _ hc ih => exact hc.itemized ih

theorem itemized_of_reaches {ok : Sys → Event → Prop} {s : Sys} (h : Reaches sha256 ok s) : Itemized s.db :=
  Serial.itemized (serial_of_reaches (P := fun _ => True) (fun _ _ _ => trivial) h)

/-! ## What getInvoice shows -/

theorem lineTotals_perm {rows rows' : List InvoiceItem} (h : rows.Perm rows') :
    (rows.map InvoiceItem.lineTotal).sum = (rows'.map InvoiceItem.lineTotal).sum := (h.map _).sum_eq

/-- The amounts of an invoice, from its row, its items and its payments. -/
structure Shows (db : Db) (i : Invoice) (view : InvoiceView) : Prop where
  invoice : view.invoice = i
  paid : view.paidAmountMinor = decimalInt (paidMinor db i.id)
  outstanding : view.outstandingMinor = decimalInt (i.totalAmountMinor - paidMinor db i.id)
  items : (view.items.map Prod.fst).Perm (itemsOf db i.id)
  lineTotals : ∀ x ∈ view.items, x.2 = decimalInt x.1.lineTotal

theorem getInvoice_view {db : Db} (hids : (db.invoices.map (·.id)).Nodup) {i : Invoice} (hi : i ∈ db.invoices)
    {invoiceId : Text} (hid : uuidIn invoiceId = some i.id) (now : Nat) (choices : Nat → Choice) :
    ∃ view, ((getInvoice i.tenantId invoiceId).alone engine now db [] choices).1 = .ok view ∧ Shows db i view := by
  have hinvoice : Sql.selectInvoice invoiceId i.tenantId ⟨now, choices 0⟩ (engine.view [] db) =
      .done (some i) [] [] [] := by
    simp only [Sql.selectInvoice, hid, Engine.view_nil, find_named hids ⟨hi, hid, rfl⟩]
  have hpaid : ((Sql.orderByDesc (·.createdAt) (choices 2).order (db.payments.filter fun p => p.invoiceId = i.id)).map
      (·.amountMinor)).sum = paidMinor db i.id :=
    (((List.perm_insertionSort _ _).trans (shuffle_perm _ _)).map _).sum_eq
  unfold getInvoice
  rw [Program.alone_statement hinvoice]
  dsimp only
  rw [Program.alone_statement (by simp only [Sql.selectItems, hid]; rfl),
    Program.alone_statement (by simp only [Sql.selectPaymentsByCreation, hid]; rfl),
    Program.alone_statement (by simp only [Sql.selectHistory, hid]; rfl)]
  refine ⟨_, rfl, rfl, congrArg decimalInt hpaid, ?_, ?_, ?_⟩
  · exact congrArg (fun paid => decimalInt (i.totalAmountMinor - paid)) hpaid
  · rw [List.map_map]
    exact (List.map_id _ ▸ shuffle_perm _ _)
  · intro x hx
    obtain ⟨r, -, rfl⟩ := List.mem_map.mp hx
    rfl

/-! ## What listInvoices shows -/

/-- The sum of an invoice, out of the sums of a page. -/
theorem paid_of_sums (db : Db) {invoiceIds : List Uuid} {id : Uuid} (hid : id ∈ invoiceIds) {sums : List (Uuid × Int)}
    {ctx : Context Choice} (hsums : selectPaidSums invoiceIds ctx db = .done sums [] [] []) :
    ((sums.find? fun s => s.1 = id).map Prod.snd).getD 0 = paidMinor db id := by
  rw [selectPaidSums] at hsums
  obtain ⟨rfl⟩ := hsums
  rw [find?_groups _ (shuffle_perm _ _)]
  have hrows : (db.payments.filter fun p => invoiceIds.contains p.invoiceId).filter (fun p => p.invoiceId = id) =
      db.payments.filter fun p => p.invoiceId = id := by
    rw [List.filter_filter]
    refine List.filter_congr fun p _ => ?_
    by_cases hp : p.invoiceId = id
    · simp [hp, hid]
    · simp [hp]
  split
  · rw [hrows]
    rfl
  · next hnone =>
    have hempty : db.payments.filter (fun p => p.invoiceId = id) = [] := by
      rw [List.filter_eq_nil_iff]
      intro p hp heq
      apply hnone
      rw [List.mem_dedup, List.mem_map]
      have hinvoice := of_decide_eq_true heq
      exact ⟨p, List.mem_filter.mpr ⟨hp, by simpa [hinvoice] using hid⟩, hinvoice⟩
    unfold paidMinor paidAmounts
    rw [hempty]
    rfl

theorem selectInvoicesPage_cases (q : InvoiceQuery) (after : Option Int) (ctx : Context Choice) (db : Db) :
    (∃ e, selectInvoicesPage q after ctx db = .error e) ∨
      ∃ rows, selectInvoicesPage q after ctx db = .done rows [] [] [] := by
  unfold selectInvoicesPage
  rcases Sql.checked_cases [(after.all inInt8, .numericValueOutOfRange)]
    (.done (probe invoiceKey q.limit.value after (db.invoices.filter q.admits)) [] [] []) with ⟨e, -, he⟩ | ⟨-, hdone⟩
  · exact Or.inl ⟨_, he⟩
  · exact Or.inr ⟨_, hdone⟩

theorem listInvoices_rows {B : Buffers} {q : InvoiceQuery} {db : Db} {now : Nat} {choices : Nat → Choice}
    {result : ListResult InvoiceRow} (h : ((listInvoices B q).alone engine now db [] choices).1 = .ok result) :
    ∀ row ∈ result.data, row.paidAmountMinor = decimalInt (paidMinor db row.invoice.id) ∧
      row.outstandingMinor = decimalInt (row.invoice.totalAmountMinor - paidMinor db row.invoice.id) := by
  unfold listInvoices at h
  split at h
  · cases h
  · next after _ =>
    rcases selectInvoicesPage_cases q after ⟨now, choices 0⟩ db with ⟨e, herror⟩ | ⟨rows, hrows⟩
    · rw [Program.statement_bind, Program.alone, Engine.view_nil, herror] at h
      cases h
    · rw [Program.alone_statement hrows] at h
      dsimp only at h
      by_cases hempty : page q.limit.value rows = []
      · rw [if_pos hempty, Program.pure_eq, Program.ret_bind, hempty] at h
        cases h
        intro row hrow
        exact absurd hrow List.not_mem_nil
      · have hsums : ∃ sums, selectPaidSums ((page q.limit.value rows).map (·.id)) ⟨now, choices 1⟩
            (engine.view ([] ++ []) db) = .done sums [] [] [] := ⟨_, rfl⟩
        obtain ⟨sums, hsums⟩ := hsums
        rw [if_neg hempty, Program.alone_statement hsums] at h
        cases h
        intro row hrow
        obtain ⟨i, hi, rfl⟩ := List.mem_map.mp hrow
        have hpaid := paid_of_sums db (List.mem_map_of_mem (f := fun i : Invoice => i.id) hi) hsums
        dsimp only
        rw [hpaid]
        exact ⟨rfl, rfl⟩

/-- An invoice that the query is about, before the cursor. -/
def Matches (q : InvoiceQuery) (after : Option Int) (i : Invoice) : Prop :=
  i.tenantId = q.tenantId ∧ (∀ statuses ∈ q.status, i.status ∈ statuses) ∧
    (∀ d ∈ q.dueBefore, ∃ due ∈ i.dueDate, due < d.date.timestamp) ∧ ∀ n ∈ after, (i.sequenceNumber : Int) < n
  deriving Decidable

/-- It matches, and less than a page of later ones do. -/
def OnPage (db : Db) (q : InvoiceQuery) (after : Option Int) (i : Invoice) : Prop :=
  Matches q after i ∧ db.invoices.countP (fun j => i.sequenceNumber < j.sequenceNumber ∧ Matches q after j) < q.limit.value

theorem matches_iff {q : InvoiceQuery} {after : Option Int} {i : Invoice} :
    Matches q after i ↔ q.admits i = true ∧ ∀ n ∈ after, invoiceKey i < n := by
  unfold Matches InvoiceQuery.admits
  simp only [Bool.and_eq_true, decide_eq_true_iff, Option.all_eq_true, List.contains_iff_mem, Option.any_eq_true]
  rw [← and_assoc, ← and_assoc]
  rfl

/-- The numbers of one tenant's invoices are distinct. -/
theorem Numbering.nodup_admitted {db : Db} (h : Numbering db) (q : InvoiceQuery) :
    ((db.invoices.filter q.admits).map invoiceKey).Nodup := by
  have hsub : db.invoices.filter q.admits = (db.invoices.filter fun i => i.tenantId = q.tenantId).filter q.admits := by
    rw [List.filter_filter]
    refine List.filter_congr fun i _ => ?_
    unfold InvoiceQuery.admits
    cases decide (i.tenantId = q.tenantId) <;> simp
  have hnumbers : (sequenceNumbers db q.tenantId).Nodup := by
    rw [h.numbers]
    exact List.nodup_range'
  have hkeys : ((db.invoices.filter fun i => i.tenantId = q.tenantId).map invoiceKey).Nodup := by
    have hcast := hnumbers.map (f := fun n : Nat => (n : Int)) Int.ofNat_injective
    rwa [sequenceNumbers, List.map_map] at hcast
  rw [hsub]
  exact hkeys.sublist (List.filter_sublist.map _)

/-- A call with a cursor in range lists the invoices that are on its page. -/
theorem listInvoices_lists {db : Db} (hnumbering : Numbering db) {B : Buffers} {q : InvoiceQuery} {after : Option Int}
    (hread : readCursor (Cursor.decodeSequenceCursor B) q.cursor = some after) (hafter : ∀ n ∈ after, inInt8 n = true)
    (now : Nat) (choices : Nat → Choice) {i : Invoice} (hi : i ∈ db.invoices) :
    ∃ result, ((listInvoices B q).alone engine now db [] choices).1 = .ok result ∧
      (OnPage db q after i ↔ ∃ row ∈ result.data, row.invoice = i) := by
  have hrows : selectInvoicesPage q after ⟨now, choices 0⟩ db =
      .done (probe invoiceKey q.limit.value after (db.invoices.filter q.admits)) [] [] [] := by
    rw [selectInvoicesPage, Sql.checked_of_all]
    simpa [Option.all_eq_true] using hafter
  obtain ⟨items, hitems, hlisted⟩ := listInvoices_alone hread hrows
  have hcount : (db.invoices.filter q.admits).countP (fun j => invoiceKey i < invoiceKey j ∧ ∀ n ∈ after, invoiceKey j < n) =
      db.invoices.countP fun j => i.sequenceNumber < j.sequenceNumber ∧ Matches q after j := by
    rw [List.countP_filter]
    refine List.countP_congr fun j _ => ?_
    simp only [matches_iff, Bool.and_eq_true, decide_eq_true_iff, invoiceKey, Int.ofNat_lt]
    tauto
  refine ⟨_, hlisted, ?_⟩
  rw [← List.mem_map, hitems, mem_page_probe (hnumbering.nodup_admitted q), hcount, List.mem_filter, OnPage, matches_iff]
  tauto

/-! ## What createInvoice stores -/

/-- The total, the quantities and the prices fit their columns. -/
def InvoiceRequest.InRange (r : InvoiceRequest) : Prop :=
  inInt8 (invoiceTotal r.items) = true ∧ ∀ v ∈ r.items, inInt4 v.quantity = true ∧ inInt8 v.unitPriceMinor = true

theorem Created.inRange {db : Db} {now : Timestamp} {r : InvoiceRequest} {seq : InvoiceSequence} {i : Invoice}
    {items : List InvoiceItem} {hist : StatusHistory} (hc : Created db now r seq i items hist) : r.InRange :=
  ⟨hc.total ▸ hc.totalRange, hc.itemRange⟩

/-- `createInvoice` has stored `i` with its items. -/
structure Stores (db : Db) (r : InvoiceRequest) (i : Invoice) : Prop where
  mem : i ∈ db.invoices
  total : i.totalAmountMinor = invoiceTotal r.items
  items : (itemsOf db i.id).map (fun x => (x.quantity, x.unitPriceMinor)) =
    r.items.map fun v => (v.quantity, v.unitPriceMinor)

theorem Created.stores {db : Db} {now : Timestamp} {r : InvoiceRequest} {seq : InvoiceSequence} {i : Invoice}
    {items : List InvoiceItem} {hist : StatusHistory} (hc : Created db now r seq i items hist) (h : Itemized db) :
    Stores (engine.view (.sequence seq :: .invoice i :: (items.map .item ++ [.history hist])) db) r i := by
  rw [hc.view]
  refine ⟨List.mem_append_right _ (List.mem_singleton_self i), hc.total, ?_⟩
  have hpairs := congrArg (List.map fun x : Uuid × Int × Int => x.2) hc.items
  rw [List.map_map, List.map_map] at hpairs
  unfold FinSight.itemsOf
  rw [hc.itemsOf h]
  exact hpairs

theorem stores_of_finish {ok : Sys → Event → Prop} {s s' : Sys} {l : Event} (h : Reaches sha256 ok s)
    (hstep : s.step engine (program sha256) l = some s') {t call tx resp}
    (hends : s.Ends s' t call tx (.returned resp)) {r : InvoiceRequest} (hr : call.request = .createInvoice r) :
    r.InRange ∧ ∃ i, resp = .invoice (some i) ∧ Stores s'.db r i := by
  cases finish_of_reaches h hstep hends with
  | returned hpost =>
      have hcommit := hpost.1
      rw [hr] at hcommit
      show r.InRange ∧ ∃ i, resp = .invoice (some i) ∧ Stores (engine.view tx.log s.db) r i
      generalize tx.log = log at hcommit
      cases hcommit with
      | createInvoice hcreated => exact ⟨hcreated.inRange, _, rfl, hcreated.stores (itemized_of_reaches h)⟩

/-- A step that changes the database is not of a request that is out of range. -/
theorem changes_in_range {ok : Sys → Event → Prop} {s s' : Sys} {l : Event} (h : Reaches sha256 ok s)
    (hstep : s.step engine (program sha256) l = some s') (hchanged : s'.db ≠ s.db) :
    ∃ t call, l = .commit t ∧ s.calls[t]? = some call ∧ ∀ r, call.request = .createInvoice r → r.InRange := by
  cases commit_of_step h hstep with
  | quiet hsame => exact absurd hsame hchanged
  | @commit t call tx resp hl hrun _ hcommit _ =>
      refine ⟨t, call, hl, hrun.get, fun r hr => ?_⟩
      rw [hr] at hcommit
      generalize tx.log = log at hcommit
      cases hcommit with
      | createInvoice hcreated => exact hcreated.inRange

/-! ## The amounts of every reachable state -/

theorem Shows.lineTotals_sum {db : Db} {i : Invoice} {view : InvoiceView} (h : Shows db i view) (hitems : Itemized db)
    (hi : i ∈ db.invoices) : (view.items.map fun x => decimalIntValue x.2).sum = i.totalAmountMinor := by
  have hvalues : (view.items.map fun x => decimalIntValue x.2) =
      (view.items.map Prod.fst).map InvoiceItem.lineTotal := by
    rw [List.map_map]
    refine List.map_congr_left fun x hx => ?_
    rw [h.lineTotals x hx, decimalIntValue_decimalInt]
    rfl
  rw [hvalues, lineTotals_perm h.items, hitems.totals i hi]

/-- **The amounts of an invoice agree**, in every reachable state: the list and the single view show the same, what is
outstanding is right, and the items sum to the total. An invoice is stored with the total of its items, and a request that
is out of range changes nothing. -/
theorem amounts_agree {s : Sys} (h : Reaches sha256 anyStep s) :
    (∀ i ∈ s.db.invoices, ∀ invoiceId, uuidIn invoiceId = some i.id → ∀ now choices, ∃ view,
      ((getInvoice i.tenantId invoiceId).alone engine now s.db [] choices).1 = .ok view ∧ view.invoice = i ∧
        (∀ B q now choices result, ((listInvoices B q).alone engine now s.db [] choices).1 = .ok result →
          ∀ row ∈ result.data, row.invoice = i →
            row.paidAmountMinor = view.paidAmountMinor ∧ row.outstandingMinor = view.outstandingMinor) ∧
        (∀ B q now choices after, readCursor (Cursor.decodeSequenceCursor B) q.cursor = some after →
          (∀ n ∈ after, inInt8 n = true) →
          ∃ result, ((listInvoices B q).alone engine now s.db [] choices).1 = .ok result ∧
            (OnPage s.db q after i ↔ ∃ row ∈ result.data, row.invoice = i)) ∧
        0 ≤ decimalIntValue view.outstandingMinor ∧ decimalIntValue view.outstandingMinor ≤ i.totalAmountMinor ∧
        (decimalIntValue view.outstandingMinor = 0 ↔ i.status = .paid) ∧
        (view.items.map fun x => decimalIntValue x.2).sum = i.totalAmountMinor) ∧
    ∀ l s', s.step engine (program sha256) l = some s' →
      (∀ t call tx resp r, s.Ends s' t call tx (.returned resp) → call.request = .createInvoice r →
        r.InRange ∧ ∃ i, resp = .invoice (some i) ∧ Stores s'.db r i) ∧
      (s'.db ≠ s.db →
        ∃ t call, l = .commit t ∧ s.calls[t]? = some call ∧ ∀ r, call.request = .createInvoice r → r.InRange) := by
  have hbilling := (consistent_of_reaches h).billing
  have hnumbering := (consistent_of_reaches h).numbering
  refine ⟨fun i hi invoiceId hid now choices => ?_, fun l s' hstep => ⟨?_, changes_in_range h hstep⟩⟩
  · obtain ⟨view, hview, hshows⟩ := getInvoice_view hbilling.invoiceIds hi hid now choices
    have hstanding := hbilling.standing i hi
    have hnonneg := hstanding.nonneg
    have hle := hstanding.le
    refine ⟨view, hview, hshows.invoice, ?_, fun B q now choices after hread hafter =>
      listInvoices_lists hnumbering hread hafter now choices hi, ?_⟩
    · intro B q now choices result hresult row hrow hinvoice
      obtain ⟨hpaid, houtstanding⟩ := listInvoices_rows hresult row hrow
      rw [hinvoice] at hpaid houtstanding
      exact ⟨hpaid.trans hshows.paid.symm, houtstanding.trans hshows.outstanding.symm⟩
    · rw [hshows.outstanding, decimalIntValue_decimalInt, hstanding.paid]
      exact ⟨by omega, by omega, by omega, hshows.lineTotals_sum (itemized_of_reaches h) hi⟩
  · intro t call tx resp r hends hr
    exact stores_of_finish h hstep hends hr

/-- The newest invoices of a tenant. -/
def Day.newest : InvoiceQuery := ⟨Day.tenant, ⟨20, by decide⟩, none, none, none⟩

set_option maxRecDepth 100000 in
/-- The invoice of the day is paid in part, and both views show it. -/
theorem amounts_agree_of_day : ∃ s : Sys, ∃ i ∈ s.db.invoices, ∃ view result,
    ((getInvoice i.tenantId i.id.text).alone engine 0 s.db [] fun _ => ⟨fun _ => i.id, []⟩).1 = .ok view ∧
      ((listInvoices .node Day.newest).alone engine 0 s.db [] fun _ => ⟨fun _ => i.id, []⟩).1 = .ok result ∧
      i.totalAmountMinor = 100 ∧ view.paidAmountMinor = text "70" ∧ view.outstandingMinor = text "30" ∧ i.status ≠ .paid ∧
      ∃ row ∈ result.data, row.invoice = i ∧ row.paidAmountMinor = text "70" ∧ row.outstandingMinor = text "30" := by
  obtain ⟨s, hs, hinvoices⟩ := Day.reaches
    (Day.opening ++ Day.alone 4 8 (.issueInvoice Day.issue) ++
      Day.alone 5 12 (.createInvoicePayment (Day.payment Day.bank 70 0)))
    (fun s => s.db.invoices.map fun i => (i.tenantId, i.totalAmountMinor, paidMinor s.db i.id))
    (a := [(Day.tenant, 100, 70)]) (by decide)
  obtain ⟨i, hone, hi⟩ := List.map_eq_singleton_iff.mp hinvoices
  obtain ⟨htenant, hi⟩ := Prod.mk.inj hi
  obtain ⟨htotal, hpaid⟩ := Prod.mk.inj hi
  have hmem : i ∈ s.db.invoices := hone ▸ List.mem_singleton_self i
  obtain ⟨view, hview, -, hagree, hlists, -, -, hstatus, -⟩ :=
    (amounts_agree hs).1 i hmem i.id.text (uuidIn_text i.id) 0 fun _ => ⟨fun _ => i.id, []⟩
  obtain ⟨result, hresult, hiff⟩ := hlists .node Day.newest 0 (fun _ => ⟨fun _ => i.id, []⟩) none rfl (by simp)
  have hpage : OnPage s.db Day.newest none i := by
    refine ⟨⟨htenant, by simp [Day.newest], by simp [Day.newest], by simp⟩, ?_⟩
    rw [hone]
    have hlimit : 1 < Day.newest.limit.value := by decide
    exact List.countP_le_length.trans_lt hlimit
  obtain ⟨row, hrow, hinvoice⟩ := hiff.mp hpage
  obtain ⟨hpaidRow, houtstandingRow⟩ := listInvoices_rows hresult row hrow
  obtain ⟨hpaidView, houtstandingView⟩ := hagree _ _ _ _ _ hresult row hrow hinvoice
  rw [hinvoice, hpaid] at hpaidRow
  rw [hinvoice, hpaid, htotal] at houtstandingRow
  refine ⟨s, i, hmem, view, result, hview, hresult, htotal, hpaidView ▸ hpaidRow, houtstandingView ▸ houtstandingRow, ?_,
    row, hrow, hinvoice, hpaidRow, houtstandingRow⟩
  rw [Ne, ← hstatus, ← houtstandingView, houtstandingRow, decimalIntValue_decimalInt]
  decide

end FinSight
