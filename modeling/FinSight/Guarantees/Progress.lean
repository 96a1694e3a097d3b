import FinSight.Guarantees.Invoices
import FinSight.ReadCommitted.Progress

/-!
# No call of the ledger waits for ever

The services lock the invoice first, then the payment, then the journal entry. The overdue job locks the invoices it
finds in any order.

* `lockOrder` : the levels of locks;
* `takes_*`, `rises_*` : what each statement locks;
* `ascends_*`, `sweeps_markOverdueInvoices` : the services lock in order;
* `concludes_of_reaches` : all calls in flight end, as long as one overdue job is among them;
* `not_concludes_of_jobs` : two of them can block each other.
-/

namespace FinSight

open ReadCommitted Sql

/-! ## Levels -/

def Lock.level : Lock → ℕ
  | .account _ | .accountName _ _ | .sequence _ | .line _ | .item _ | .history _ => 0
  | .invoice _ | .invoiceNumber _ _ | .sequenceNumber _ _ => 1
  | .payment _ | .paymentKey _ _ => 2
  | .entry _ | .entryKey _ _ => 3

/-- The generated id of the row. -/
def Lock.rowId : Lock → Option Uuid
  | .account id | .entry id | .line id | .invoice id | .item id | .payment id | .history id => some id
  | .accountName _ _ | .entryKey _ _ | .invoiceNumber _ _ | .sequenceNumber _ _ | .paymentKey _ _ | .sequence _ => none

def lockOrder : LockOrder Choice Lock where
  level := Lock.level
  fresh c ℓ := ∃ k, ℓ.rowId = some (c.fresh k)

/-! ## Statements -/

variable {α : Type} {n : ℕ} {held : List Lock} {P : α → List Lock → Prop}

/-- Only rows that are new are locked. -/
theorem rises_inserts {s : Stmt α}
    (hs : ∀ ctx db r ws ls waits, s ctx db = .done r ws ls waits →
      waits = [] ∧ ∀ ℓ ∈ ls, lockOrder.fresh ctx.choice ℓ)
    (hP : ∀ r ls, P r (held ++ ls)) : lockOrder.Rises held P s := by
  intro ctx db r ws ls waits h
  obtain ⟨rfl, hfresh⟩ := hs ctx db r ws ls waits h
  refine ⟨fun ℓ hℓ => Or.inr (Or.inl ?_), hP r ls⟩
  rw [List.append_nil] at hℓ
  exact hfresh ℓ hℓ

theorem rises_insertLines {P : List EntryLine → List Lock → Prop} (values : List LineValues) (hP : ∀ r ls, P r (held ++ ls)) :
    lockOrder.Rises held P (insertLines values) := by
  refine rises_inserts (fun ctx db r ws ls waits h => ?_) hP
  unfold insertLines at h
  cases done_of_checked h
  refine ⟨rfl, fun ℓ hℓ => ?_⟩
  obtain ⟨row, hrow, rfl⟩ := List.mem_map.mp hℓ
  obtain ⟨⟨v, k⟩, -, rfl⟩ := List.mem_map.mp hrow
  exact ⟨k, rfl⟩

theorem rises_insertItems {P : Unit → List Lock → Prop} (invoiceId : Uuid) (values : List ItemValues)
    (hP : ∀ r ls, P r (held ++ ls)) : lockOrder.Rises held P (insertItems invoiceId values) := by
  refine rises_inserts (fun ctx db r ws ls waits h => ?_) hP
  unfold insertItems at h
  cases done_of_checked h
  refine ⟨rfl, fun ℓ hℓ => ?_⟩
  obtain ⟨row, hrow, rfl⟩ := List.mem_map.mp hℓ
  obtain ⟨⟨v, k⟩, -, rfl⟩ := List.mem_map.mp hrow
  exact ⟨k, rfl⟩

theorem history_fresh {invoiceId : Uuid} {src : Option InvoiceStatus} {dst : InvoiceStatus} {reason : Text}
    {ctx : Context Choice} {db : Db} {r : Unit} {ws : List Write} {ls waits : List Lock}
    (h : insertHistory invoiceId src dst reason ctx db = .done r ws ls waits) :
    waits = [] ∧ ∀ ℓ ∈ ls, lockOrder.fresh ctx.choice ℓ := by
  unfold insertHistory at h
  cases done_of_checked h
  refine ⟨rfl, fun ℓ hℓ => ?_⟩
  cases List.mem_singleton.mp hℓ
  exact ⟨0, rfl⟩

theorem history_level {invoiceId : Uuid} {src : Option InvoiceStatus} {dst : InvoiceStatus} {reason : Text}
    {ctx : Context Choice} {db : Db} {r : Unit} {ws : List Write} {ls waits : List Lock}
    (h : insertHistory invoiceId src dst reason ctx db = .done r ws ls waits) : ∀ ℓ ∈ ls, ℓ.level ≤ 1 := by
  unfold insertHistory at h
  cases done_of_checked h
  intro ℓ hℓ
  cases List.mem_singleton.mp hℓ
  exact Nat.zero_le 1

theorem rises_insertHistory {P : Unit → List Lock → Prop} (invoiceId : Uuid) (src : Option InvoiceStatus) (dst : InvoiceStatus)
    (reason : Text) (hP : ∀ r ls, P r (held ++ ls)) : lockOrder.Rises held P (insertHistory invoiceId src dst reason) :=
  rises_inserts (fun _ _ _ _ _ _ h => history_fresh h) hP

theorem takes_insertEntry (v : EntryValues) : lockOrder.Takes 3 (fun _ _ => True) (insertEntry v) := by
  intro ctx db r ws ls waits h
  unfold insertEntry at h
  have hdone := done_of_checked h
  split at hdone
  · cases hdone
    refine ⟨fun ℓ hℓ => Or.inr ?_, trivial⟩
    cases List.mem_singleton.mp hℓ
    exact le_refl 3
  · cases done_of_checked hdone
    refine ⟨fun ℓ hℓ => ?_, trivial⟩
    simp only [List.append_nil, List.mem_cons, List.not_mem_nil, or_false] at hℓ
    rcases hℓ with rfl | rfl
    · exact Or.inl ⟨0, rfl⟩
    · exact Or.inr (le_refl 3)

theorem takes_insertAccount (tenantId : Uuid) (name : Text) (type : AccountType) (currency : Text) :
    lockOrder.Takes 0 (fun _ _ => True) (insertAccount tenantId name type currency) :=
  fun _ _ _ _ _ _ _ => ⟨fun _ _ => Or.inr (Nat.zero_le _), trivial⟩

theorem takes_nextSequence (tenantId : Uuid) :
    lockOrder.Takes 0 (fun _ ls => lockOrder.Below 1 ls) (nextSequence tenantId) := by
  intro ctx db r ws ls waits h
  unfold nextSequence at h
  cases done_of_checked h
  refine ⟨fun ℓ _ => Or.inr (Nat.zero_le _), fun ℓ hℓ => ?_⟩
  cases List.mem_singleton.mp hℓ
  exact Nat.zero_lt_one

theorem takes_insertInvoice (v : InvoiceValues) : lockOrder.Takes 1 (fun _ _ => True) (insertInvoice v) := by
  intro ctx db r ws ls waits h
  unfold insertInvoice at h
  cases done_of_checked h
  refine ⟨fun ℓ hℓ => ?_, trivial⟩
  simp only [List.append_nil, List.mem_cons, List.not_mem_nil, or_false] at hℓ
  rcases hℓ with rfl | rfl | rfl
  · exact Or.inl ⟨0, rfl⟩
  · exact Or.inr (le_refl 1)
  · exact Or.inr (le_refl 1)

/-- The invoice row of the request, as its id is read, is held. -/
def HoldsInvoice (invoiceId : Text) (held : List Lock) : Prop := ∀ id, uuidIn invoiceId = some id → .invoice id ∈ held

theorem takes_selectInvoiceForUpdate (invoiceId : Text) (tenantId : Uuid) :
    lockOrder.Takes 1 (fun r ls => lockOrder.Below 2 ls ∧ (r.isSome → HoldsInvoice invoiceId ls))
      (selectInvoiceForUpdate invoiceId tenantId) := by
  intro ctx db r ws ls waits h
  unfold selectInvoiceForUpdate at h
  split at h
  · cases h
  · next id hid =>
    split at h
    · cases h
      exact ⟨fun _ hℓ => absurd hℓ List.not_mem_nil, fun _ hℓ => absurd hℓ List.not_mem_nil, fun hnone => absurd hnone (by decide)⟩
    · next i hi =>
      cases h
      have hfound := List.find?_some hi
      simp only [Bool.and_eq_true, decide_eq_true_eq] at hfound
      refine ⟨fun ℓ hℓ => Or.inr ?_, fun ℓ hℓ => ?_, fun _ id' hid' => ?_⟩
      · cases List.mem_singleton.mp hℓ
        exact le_refl 1
      · cases List.mem_singleton.mp hℓ
        exact Nat.one_lt_two
      · rw [hid] at hid'
        rw [← Option.some.inj hid', hfound.1]
        exact List.mem_singleton_self _

theorem takes_updateInvoices (condition : Invoice → Bool) (set : InvoiceState → InvoiceState) :
    lockOrder.Takes 1 (fun _ ls => ∀ ℓ ∈ ls, ℓ.level ≤ 1) (updateInvoices condition set) := by
  intro ctx db r ws ls waits h
  unfold updateInvoices at h
  split at h
  · cases h
    exact ⟨fun _ hℓ => absurd hℓ List.not_mem_nil, fun _ hℓ => absurd hℓ List.not_mem_nil⟩
  · cases h
    refine ⟨fun ℓ hℓ => Or.inr ?_, fun ℓ hℓ => ?_⟩
    · cases List.mem_singleton.mp hℓ
      exact le_refl 1
    · cases List.mem_singleton.mp hℓ
      exact le_refl 1

/-- The row is held by now. -/
theorem rises_updateInvoice {P : Option Invoice → List Lock → Prop} {invoiceId : Text} (tenantId : Uuid)
    (set : InvoiceState → InvoiceState) (hheld : HoldsInvoice invoiceId held) (hP : ∀ r ls, P r (held ++ ls)) :
    lockOrder.Rises held P (updateInvoice invoiceId tenantId set) := by
  intro ctx db r ws ls waits h
  refine ⟨fun ℓ hℓ => Or.inl ?_, hP r ls⟩
  unfold updateInvoice at h
  split at h
  · cases h
  · next id hid =>
    unfold updateInvoices at h
    split at h
    · cases h
      cases hℓ
    · next i hi =>
      cases h
      have hfound := List.find?_some hi
      simp only [Bool.and_eq_true, decide_eq_true_eq] at hfound
      cases List.mem_singleton.mp hℓ
      exact hfound.1 ▸ hheld id hid

theorem takes_insertPayment (v : PaymentValues) :
    lockOrder.Takes 2 (fun r ls => lockOrder.Below 3 ls ∧ ∀ p, r = some p → .payment p.id ∈ ls) (insertPayment v) := by
  intro ctx db r ws ls waits h
  unfold insertPayment at h
  split at h
  · cases h
  · have hdone := done_of_checked h
    split at hdone
    · cases hdone
      refine ⟨fun ℓ hℓ => Or.inr ?_, fun _ hℓ => absurd hℓ List.not_mem_nil, fun _ hnone => by cases hnone⟩
      cases List.mem_singleton.mp hℓ
      exact le_refl 2
    · cases done_of_checked hdone
      refine ⟨fun ℓ hℓ => ?_, fun ℓ hℓ => ?_, fun p hp => ?_⟩
      · simp only [List.append_nil, List.mem_cons, List.not_mem_nil, or_false] at hℓ
        rcases hℓ with rfl | rfl
        · exact Or.inl ⟨0, rfl⟩
        · exact Or.inr (le_refl 2)
      · simp only [List.mem_cons, List.not_mem_nil, or_false] at hℓ
        rcases hℓ with rfl | rfl
        · exact Nat.lt_succ_self 2
        · exact Nat.lt_succ_self 2
      · cases hp
        exact List.mem_cons_self

theorem rises_linkPayment {P : Option InvoicePayment → List Lock → Prop} {id : Uuid} (journalEntryId : Uuid)
    (hheld : .payment id ∈ held) (hP : ∀ r ls, P r (held ++ ls)) :
    lockOrder.Rises held P (linkPayment id journalEntryId) := by
  intro ctx db r ws ls waits h
  refine ⟨fun ℓ hℓ => Or.inl ?_, hP r ls⟩
  unfold linkPayment at h
  split at h
  · cases h
    cases hℓ
  · next p hp =>
    cases h
    have hfound := List.find?_some hp
    simp only [decide_eq_true_eq] at hfound
    cases List.mem_singleton.mp hℓ
    exact hfound ▸ hheld

/-! ## Journal entries -/

section
variable (sha256 : Text → Text)

/-- Nothing is unlocked. -/
def Keeps (held : List Lock) : α → List Lock → Prop := fun _ held' => ∀ ℓ ∈ held, ℓ ∈ held'

theorem Keeps.append (held ls : List Lock) (a : α) : Keeps held a (held ++ ls) := fun _ => List.mem_append_left ls

theorem ascends_replayEntry (tenantId : Uuid) (key requestFingerprint : Text) :
    (replayEntry tenantId key requestFingerprint).Ascends lockOrder (Keeps held) held := by
  unfold replayEntry
  refine .statement (LockOrder.rises_query fun existing => ?_)
  cases existing with
  | none => trivial
  | some existing =>
      dsimp only
      split
      · trivial
      · exact .statement (LockOrder.rises_query fun _ _ hℓ => hℓ)

theorem ascends_postLines (tenantId : Uuid) (lines : List LineData) (entry : JournalEntry) :
    (postLines tenantId lines entry).Ascends lockOrder (Keeps held) held := by
  unfold postLines
  refine .statement (LockOrder.rises_query fun tenantAccounts => ?_)
  split
  · trivial
  · split
    · trivial
    · exact .statement (rises_insertLines _ fun _ ls => Keeps.append held ls _)

/-- Entries are locked after all but other entries. -/
theorem ascends_createJournalEntryTx (hheld : lockOrder.Below 3 held) (tenantId : Uuid) (key : Text) (data : EntryData) :
    (createJournalEntryTx sha256 tenantId key data).Ascends lockOrder (Keeps held) held := by
  unfold createJournalEntryTx
  split
  · trivial
  · refine .statement ((takes_insertEntry _).rises hheld fun entry ls _ => ?_)
    have hkeeps (result : EntryResult) (held' : List Lock) (h : Keeps (held ++ ls) result held') : Keeps held result held' :=
      fun ℓ hℓ => h ℓ (List.mem_append_left ls hℓ)
    cases entry with
    | none => exact (ascends_replayEntry tenantId _ _).mono hkeeps
    | some entry => exact (ascends_postLines tenantId _ entry).mono hkeeps

/-! ## Invoices and payments -/

theorem below_nil (n : ℕ) : lockOrder.Below n [] := fun _ h => absurd h List.not_mem_nil

theorem ascends_createInvoice (r : InvoiceRequest) : (createInvoice r).Ascends lockOrder (fun _ _ => True) [] := by
  unfold createInvoice
  split
  · trivial
  · refine .statement ((takes_nextSequence _).rises (below_nil 0) fun sequence ls hls => ?_)
    refine .statement ((takes_insertInvoice _).rises hls fun invoice _ _ => ?_)
    refine .statement (rises_insertItems _ _ fun _ _ => ?_)
    exact .statement (rises_insertHistory _ _ _ _ fun _ _ => trivial)

theorem HoldsInvoice.keeps {invoiceId : Text} {held' : List Lock} {a : α} (h : HoldsInvoice invoiceId held)
    (hkeeps : Keeps held a held') : HoldsInvoice invoiceId held' := fun id hid => hkeeps _ (h id hid)

theorem ascends_issueTx (r : IssueRequest) (invoice : Invoice) (hheld : lockOrder.Below 2 held)
    (hinvoice : HoldsInvoice r.invoiceId held) : (issueTx sha256 r invoice).Ascends lockOrder (fun _ _ => True) held := by
  unfold issueTx
  refine .bind ((ascends_createJournalEntryTx sha256 (fun h hh => Nat.lt_succ_of_lt (hheld h hh)) _ _ _).mono ?_)
  intro result held' hkeeps
  refine .statement (rises_updateInvoice _ _ (hinvoice.keeps hkeeps) fun updated _ => ?_)
  exact .statement (rises_insertHistory _ _ _ _ fun _ _ => trivial)

theorem ascends_issueInvoice (r : IssueRequest) : (issueInvoice sha256 r).Ascends lockOrder (fun _ _ => True) [] := by
  unfold issueInvoice
  refine .statement ((takes_selectInvoiceForUpdate _ _).rises (below_nil 1) fun invoice ls hls => ?_)
  cases invoice with
  | none => trivial
  | some invoice =>
      dsimp only
      split
      · trivial
      · refine .statement (LockOrder.rises_query fun receivable => ?_)
        refine .statement (LockOrder.rises_query fun revenue => ?_)
        split
        · split
          · trivial
          · split
            · trivial
            · exact ascends_issueTx sha256 r invoice hls.1 (hls.2 rfl)
        · trivial

theorem ascends_replayPayment (tenantId : Uuid) (key requestFingerprint : Text) :
    (replayPayment tenantId key requestFingerprint).Ascends lockOrder (fun _ _ => True) held := by
  unfold replayPayment
  refine .statement (LockOrder.rises_query fun existing => ?_)
  cases existing with
  | none => trivial
  | some existing =>
      dsimp only
      split
      · trivial
      · refine .statement (LockOrder.rises_query fun invoice => ?_)
        cases existing.journalEntryId with
        | none => trivial
        | some entryId => exact .statement (LockOrder.rises_query fun _ => trivial)

theorem ascends_checkReceivable (r : PaymentRequest) (invoice : Invoice) :
    (checkReceivable r invoice).Ascends lockOrder (fun _ held' => held' = held) held := by
  unfold checkReceivable
  cases invoice.issueJournalEntryId with
  | none => exact rfl
  | some entryId =>
      refine .statement (LockOrder.rises_query fun issueLine => ?_)
      cases issueLine with
      | none => trivial
      | some issueLine =>
          dsimp only
          -- `split` would evaluate the text of the id
          generalize issueLine.accountId.spelled = spelled
          split
          · trivial
          · exact .ret rfl

theorem ascends_settleTx (r : PaymentRequest) (invoice : Invoice) (payment : InvoicePayment) (targetStatus : InvoiceStatus)
    (hheld : lockOrder.Below 3 held) (hinvoice : HoldsInvoice r.invoiceId held) (hpayment : .payment payment.id ∈ held) :
    (settleTx sha256 r invoice payment targetStatus).Ascends lockOrder (fun _ _ => True) held := by
  unfold settleTx
  refine .bind ((ascends_createJournalEntryTx sha256 hheld _ _ _).mono fun result held' hkeeps => ?_)
  refine .statement (rises_linkPayment _ (hkeeps _ hpayment) fun linked ls => ?_)
  have hinvoice' : HoldsInvoice r.invoiceId (held' ++ ls) := (hinvoice.keeps hkeeps).keeps (Keeps.append held' ls linked)
  split
  · refine .statement (rises_insertHistory _ _ _ _ fun _ ls' => ?_)
    exact .statement (rises_updateInvoice _ _ (hinvoice'.keeps (Keeps.append _ ls' ())) fun _ _ => trivial)
  · exact .statement (rises_updateInvoice _ _ hinvoice' fun _ _ => trivial)

theorem reads_selectPayments {invoiceId : Text} {ctx : Context Choice} {db : Db} {r : List InvoicePayment} {ws : List Write}
    {ls waits : List Lock} (h : selectPayments invoiceId ctx db = .done r ws ls waits) : ls = [] ∧ waits = [] := by
  unfold selectPayments at h
  split at h
  · cases h
  · cases h
    exact ⟨rfl, rfl⟩

theorem ascends_payTx (r : PaymentRequest) (invoice : Invoice) (payment : InvoicePayment)
    (hheld : lockOrder.Below 3 held) (hinvoice : HoldsInvoice r.invoiceId held) (hpayment : .payment payment.id ∈ held) :
    (payTx sha256 r invoice payment).Ascends lockOrder (fun _ _ => True) held := by
  unfold payTx
  refine .statement (LockOrder.rises_query fun bankAccount => ?_)
  refine .statement (LockOrder.rises_query fun receivableAccount => ?_)
  split
  · split
    · trivial
    · refine .bind ((ascends_checkReceivable r invoice).mono ?_)
      rintro _ held' rfl
      refine .statement (LockOrder.rises_reads (fun _ _ _ _ _ _ => reads_selectPayments) fun allPayments => ?_)
      dsimp only
      split
      · trivial
      · split
        · split
          · trivial
          · exact ascends_settleTx sha256 r invoice payment .paid hheld hinvoice hpayment
        · split
          · trivial
          · exact ascends_settleTx sha256 r invoice payment .partiallyPaid hheld hinvoice hpayment
  · trivial

theorem ascends_createInvoicePayment (r : PaymentRequest) :
    (createInvoicePayment sha256 r).Ascends lockOrder (fun _ _ => True) [] := by
  unfold createInvoicePayment
  refine .statement ((takes_selectInvoiceForUpdate _ _).rises (below_nil 1) fun invoice ls hls => ?_)
  cases invoice with
  | none => trivial
  | some invoice =>
      refine .statement ((takes_insertPayment _).rises hls.1 fun payment ls' hls' => ?_)
      cases payment with
      | none => exact ascends_replayPayment _ _ _
      | some payment =>
          refine ascends_payTx sha256 r invoice payment (fun h hh => ?_) (fun id hid => ?_) ?_
          · rcases List.mem_append.mp hh with hh | hh
            · exact Nat.lt_succ_of_lt (hls.1 h hh)
            · exact hls'.1 h hh
          · exact List.mem_append_left ls' (hls.2 rfl id hid)
          · exact List.mem_append_right _ (hls'.2 payment rfl)

theorem ascends_voidInvoice (r : VoidRequest) : (voidInvoice r).Ascends lockOrder (fun _ _ => True) [] := by
  unfold voidInvoice
  refine .statement ((takes_selectInvoiceForUpdate _ _).rises (below_nil 1) fun invoice ls hls => ?_)
  cases invoice with
  | none => trivial
  | some invoice =>
      dsimp only
      split
      · trivial
      · refine .statement (LockOrder.rises_reads (fun _ _ _ _ _ _ => reads_selectPayments) fun payments => ?_)
        split
        · trivial
        · refine .statement (rises_updateInvoice _ _ (hls.2 rfl) fun updated _ => ?_)
          exact .statement (rises_insertHistory _ _ _ _ fun _ _ => trivial)

/-! ## The overdue job -/

theorem sweeps_markOverdueLoop (now : Timestamp) (candidates updatedInvoices : List Invoice) :
    (markOverdueLoop now candidates updatedInvoices).Sweeps lockOrder 1 := by
  induction candidates generalizing updatedInvoices with
  | nil => trivial
  | cons invoice rest ih =>
      refine ⟨takes_updateInvoices _ _, fun updatedInvoice => ?_⟩
      cases updatedInvoice with
      | none => exact ih updatedInvoices
      | some updatedInvoice =>
          refine ⟨fun ctx db r ws ls waits h => ?_, fun _ => ih _⟩
          obtain ⟨rfl, hfresh⟩ := history_fresh h
          rw [List.append_nil]
          exact ⟨fun ℓ hℓ => Or.inl (hfresh ℓ hℓ), history_level h⟩

theorem sweeps_markOverdueInvoices (now : Reading) : (markOverdueInvoices now).Sweeps lockOrder 1 := by
  refine ⟨fun ctx db r ws ls waits h => ?_, fun candidates => sweeps_markOverdueLoop _ candidates []⟩
  cases h
  exact ⟨fun _ hℓ => absurd hℓ List.not_mem_nil, fun _ hℓ => absurd hℓ List.not_mem_nil⟩

/-! ## Runs -/

theorem ascends_program (q : Request) (hq : ¬ Marks q) : (program sha256 q).Ascends lockOrder (fun _ _ => True) [] := by
  cases q with
  | createAccount r => exact .bind (.last ((takes_insertAccount _ _ _ _).rises (below_nil 0) fun _ _ _ => trivial))
  | createJournalEntry r => exact .bind ((ascends_createJournalEntryTx sha256 (below_nil 3) _ _ _).mono fun _ _ _ => trivial)
  | createInvoice r => exact .bind ((ascends_createInvoice r).mono fun _ _ _ => trivial)
  | issueInvoice r => exact .bind ((ascends_issueInvoice sha256 r).mono fun _ _ _ => trivial)
  | createInvoicePayment r => exact .bind ((ascends_createInvoicePayment sha256 r).mono fun _ _ _ => trivial)
  | voidInvoice r => exact .bind ((ascends_voidInvoice r).mono fun _ _ _ => trivial)
  | markOverdueInvoices now => exact absurd trivial hq

theorem sweeps_program (q : Request) (hq : Marks q) : (program sha256 q).Sweeps lockOrder 1 := by
  cases q with
  | markOverdueInvoices now => exact (sweeps_markOverdueInvoices now).bind fun _ => trivial
  | _ => exact absurd hq id

/-- Whatever is called, nobody waits for ever: as long as one overdue job is in flight, all calls in flight end, however
they are scheduled. -/
theorem concludes_of_reaches {s : Sys} (h : Reaches sha256 anyStep s) (hone : s.OneRoams Marks) :
    s.Concludes lockOrder engine (program sha256) :=
  (System.ordered_of_reachable (ascends_program sha256) (sweeps_program sha256) rfl h).concludes (ascends_program sha256)
    (sweeps_program sha256) hone

end

/-! ## Two runs -/

namespace Day

abbrev Running := Call Db Write Lock Failure Choice Request Response

def locksOf (call : Running) : Option (List Lock) :=
  match call.status with
  | .running tx => some tx.locks
  | .finished _ => none

/-- The calls in flight and what they hold. -/
def inFlight (s : Sys) : List (Nat × Request × List Lock) :=
  s.calls.zipIdx.filterMap fun p => (locksOf p.1).map fun locks => (p.2, p.1.request, locks)

theorem mem_inFlight {s : Sys} {t : Nat} {q : Request} {locks : List Lock} :
    (t, q, locks) ∈ inFlight s ↔ ∃ call tx, s.Running t call tx ∧ call.request = q ∧ tx.locks = locks := by
  unfold inFlight
  rw [List.mem_filterMap]
  constructor
  · rintro ⟨⟨call, u⟩, hmem, hlocks⟩
    obtain ⟨held, hheld, heq⟩ := Option.map_eq_some_iff.mp hlocks
    cases heq
    cases hst : call.status with
    | running tx =>
        rw [locksOf, hst] at hheld
        exact ⟨call, tx, ⟨List.mem_zipIdx_iff_getElem?.mp hmem, hst⟩, rfl, Option.some.inj hheld⟩
    | finished o =>
        rw [locksOf, hst] at hheld
        cases hheld
  · rintro ⟨call, tx, hrun, rfl, rfl⟩
    refine ⟨(call, t), List.mem_zipIdx_iff_getElem?.mpr hrun.get, ?_⟩
    rw [locksOf, hrun.status]
    rfl

/-- A payment comes while the overdue job holds its invoice. -/
def waiting : List Event :=
  opening ++ alone 4 8 (.issueInvoice issue) ++
    [.begin (.markOverdueInvoices (clock 5)), .exec 5 (choice 500), .exec 5 (choice 501),
      .begin (.createInvoicePayment (payment bank 40 0))]

/-- Two invoices, and two overdue jobs that find them in different orders. -/
def jobs : List Event :=
  opening ++ alone 4 4 (.createInvoice ⟨tenant, text "Customer", text "USD", ⟨0⟩, [⟨text "Work", 2, 50⟩]⟩) ++
    alone 5 8 (.issueInvoice issue) ++ alone 6 8 (.issueInvoice { issue with invoiceId := (uuid 410).text }) ++
    [.begin (.markOverdueInvoices (clock 5)), .begin (.markOverdueInvoices (clock 5)), .exec 7 (choice 700),
      .exec 8 { choice 800 with order := [1] }, .exec 7 (choice 701), .exec 8 (choice 801), .exec 7 (choice 702),
      .exec 8 (choice 802)]

/-- Every id that is generated is `uuid 999`. -/
def next : Choice := ⟨fun _ => uuid 999, []⟩

/-- No call can go on. -/
def stuck (s : Sys) : Bool :=
  (List.range s.calls.length).all fun t =>
    [Label.exec t next, .prepare t, .commit t, .rollback t].all fun l => (s.step engine (program fun t => t) l).isNone

theorem not_advances_of_stuck {s s' : Sys} (h : stuck s = true) : ¬ s.Advances engine (program fun t => t) next s' := by
  rintro ⟨l, hl, hstep⟩
  have hnone {t : Nat} {call : Running} {tx : Txn Db Write Lock Failure Choice Response} (hrun : s.Running t call tx)
      (hl : l ∈ [Label.exec t next, .prepare t, .commit t, .rollback t]) : False := by
    have ht := List.mem_range.mpr (List.getElem?_eq_some_iff.mp hrun.get).1
    have hall := List.all_eq_true.mp (List.all_eq_true.mp h t ht) l hl
    rw [hstep] at hall
    cases hall
  cases l with
  | tick d => exact hl
  | begin q => exact hl
  | abort t => exact hl
  | exec t c =>
      obtain ⟨call, tx, _, _, _, hrun, -⟩ := System.exec_inv hstep
      exact hnone hrun (by rw [show c = next from hl]; exact List.mem_cons_self)
  | prepare t =>
      obtain ⟨call, tx, _, hrun, -⟩ := System.prepare_inv hstep
      exact hnone hrun (List.mem_cons_of_mem _ List.mem_cons_self)
  | commit t =>
      obtain ⟨call, tx, _, hrun, -⟩ := System.commit_inv hstep
      exact hnone hrun (List.mem_cons_of_mem _ (List.mem_cons_of_mem _ List.mem_cons_self))
  | rollback t =>
      obtain ⟨call, tx, _, hrun, -⟩ := System.rollback_inv hstep
      exact hnone hrun (List.mem_cons_of_mem _ (List.mem_cons_of_mem _ (List.mem_cons_of_mem _ List.mem_cons_self)))

end Day

set_option maxRecDepth 100000 in
/-- The payment waits for the job, and the job for nobody. -/
theorem concludes_of_waiting : ∃ s : Sys, (Day.inFlight s).map (·.1) = [5, 6] ∧
    (s.step engine (program fun t => t) (.exec 6 Day.next)).isNone ∧ s.Concludes lockOrder engine (program fun t => t) := by
  obtain ⟨s, hs, hshown⟩ := Day.reaches Day.waiting
    (fun s => ((Day.inFlight s).map fun p => (p.1, p.2.1), (s.step engine (program fun t => t) (.exec 6 Day.next)).isNone))
    (a := ([(5, .markOverdueInvoices (Day.clock 5)), (6, .createInvoicePayment (Day.payment Day.bank 40 0))], true)) rfl
  obtain ⟨hcalls, hblocked⟩ := Prod.mk.inj hshown
  have hjob {t : Nat} {call : Day.Running} {tx : Txn Db Write Lock Failure Choice Response} (hrun : s.Running t call tx)
      (hq : Marks call.request) : t = 5 := by
    have hmem := List.mem_map_of_mem (f := fun p : Nat × Request × List Lock => (p.1, p.2.1))
      (Day.mem_inFlight.mpr ⟨call, tx, hrun, rfl, rfl⟩)
    rw [hcalls] at hmem
    rcases List.mem_pair.mp hmem with heq | heq
    · exact (Prod.mk.inj heq).1
    · have hpayment : call.request = .createInvoicePayment (Day.payment Day.bank 40 0) := (Prod.mk.inj heq).2
      rw [hpayment] at hq
      exact absurd hq id
  refine ⟨s, ?_, hblocked, concludes_of_reaches (fun t => t) hs fun t u call call' tx tx' hrun hrun' hq hq' => ?_⟩
  · have hnumbers := congrArg (List.map Prod.fst) hcalls
    rw [List.map_map] at hnumbers
    exact hnumbers
  · rw [hjob hrun hq, hjob hrun' hq']

set_option maxRecDepth 100000 in
/-- Two overdue jobs wait for each other; neither goes on until the other is aborted, as by the deadlock detector of Postgres. -/
theorem not_concludes_of_jobs :
    ∃ s : Sys, Reaches (fun t => t) anyStep s ∧ ¬ s.Concludes lockOrder engine (program fun t => t) := by
  obtain ⟨s, hs, hshown⟩ := Day.reaches Day.jobs
    (fun s => ((Day.inFlight s).map (·.1), Day.stuck s,
      (Day.inFlight s).all fun p => p.2.2.all fun ℓ => ℓ.rowId ≠ some (Day.uuid 999)))
    (a := ([7, 8], true, true)) rfl
  obtain ⟨hcalls, hrest⟩ := Prod.mk.inj hshown
  obtain ⟨hstuck, hids⟩ := Prod.mk.inj hrest
  refine ⟨s, hs, fun hconcludes => ?_⟩
  cases hconcludes with
  | intro hgo _ =>
      have hseven : 7 ∈ (Day.inFlight s).map (·.1) := hcalls ▸ List.mem_cons_self
      obtain ⟨⟨t, q, locks⟩, hmem, -⟩ := List.mem_map.mp hseven
      obtain ⟨call, tx, hrun, -, -⟩ := Day.mem_inFlight.mp hmem
      have hunlocked : s.Unlocked lockOrder Day.next := by
        rintro u call' tx' hrun' ℓ hℓ ⟨k, hk⟩
        have hall := List.all_eq_true.mp hids _ (Day.mem_inFlight.mpr ⟨call', tx', hrun', rfl, rfl⟩)
        exact of_decide_eq_true (List.all_eq_true.mp hall ℓ hℓ) hk
      obtain ⟨s', hstep⟩ := hgo Day.next hunlocked ⟨t, call, tx, hrun⟩
      exact Day.not_advances_of_stuck hstuck hstep

end FinSight
