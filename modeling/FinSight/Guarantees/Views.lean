import FinSight.Guarantees.History
import FinSight.Lists.Newest

/-!
# The history that is shown

`getInvoice` lists the changes of an invoice's status by decreasing `changed_at`, which is when the transaction
that made the change began.

* `LatestFirst` : the list is the history in reverse, the first row leads to the current status, and the rows chain;
* `latestFirst_iff` : so it is where the changes were committed in the order in which their transactions began, and
  only there;
* `not_latestFirst` : a payment that began first and waited for another one is listed below it.
-/

namespace FinSight

open ReadCommitted Trails Newest

variable {sha256 : Text → Text}

/-! ## getInvoice by itself -/

theorem getInvoice_alone {db : Db} (hids : (db.invoices.map (·.id)).Nodup) {i : Invoice} (hi : i ∈ db.invoices)
    {invoiceId : Text} (hid : uuidIn invoiceId = some i.id) (now : Nat) (choices : Nat → Choice) :
    ∃ view rest, (getInvoice i.tenantId invoiceId).alone engine now db [] choices = (.ok view, [], rest) ∧
      view.invoice = i ∧
      view.statusHistory = Sql.orderByDesc (·.changedAt) (choices 3).order (historyOf db i.id) := by
  have hinvoice : Sql.selectInvoice invoiceId i.tenantId ⟨now, choices 0⟩ (engine.view [] db) =
      .done (some i) [] [] [] := by
    simp only [Sql.selectInvoice, hid, Engine.view_nil, find_named hids ⟨hi, hid, rfl⟩]
  unfold getInvoice
  rw [Program.alone_statement hinvoice]
  dsimp only
  rw [Program.alone_statement (by simp only [Sql.selectItems, hid]; rfl),
    Program.alone_statement (by simp only [Sql.selectPaymentsByCreation, hid]; rfl),
    Program.alone_statement (by simp only [Sql.selectHistory, hid]; rfl)]
  exact ⟨_, _, rfl, rfl, rfl⟩

/-- `getInvoice` shows the changes of `i` in the reverse of the order in which they were made, by whatever text the
path names it: the first row leads to the current status, and each row starts where the next one ends. -/
def LatestFirst (db : Db) (i : Invoice) : Prop :=
  ∀ (invoiceId : Text) (now : Nat) (choices : Nat → Choice), uuidIn invoiceId = some i.id →
    ∃ view rest, (getInvoice i.tenantId invoiceId).alone engine now db [] choices = (.ok view, [], rest) ∧
      view.invoice = i ∧ view.statusHistory = (historyOf db i.id).reverse ∧
      view.statusHistory.head?.map (·.toStatus) = some i.status ∧
      view.statusHistory.IsChain fun h h' => h.fromStatus = some h'.toStatus

/-- The changes of an invoice were committed in the order in which their transactions began. -/
abbrev Increasing (db : Db) (invoiceId : Uuid) : Prop :=
  (historyOf db invoiceId).Pairwise fun h h' => h.changedAt < h'.changedAt

theorem latestFirst_of_increasing {db : Db} (hids : (db.invoices.map (·.id)).Nodup) (h : Faithful db) {i : Invoice}
    (hi : i ∈ db.invoices) (hincreasing : Increasing db i.id) : LatestFirst db i := by
  intro invoiceId now choices hid
  obtain ⟨view, rest, halone, hinvoice, hhistory⟩ := getInvoice_alone hids hi hid now choices
  have hreverse : view.statusHistory = (historyOf db i.id).reverse :=
    hhistory.trans (newest_first (shuffle_perm _ _) hincreasing)
  obtain ⟨hhead, hchain⟩ := (h.chronicle i hi).newest_first
  exact ⟨view, rest, halone, hinvoice, hreverse, hreverse ▸ hhead, hreverse ▸ hchain⟩

theorem increasing_of_latestFirst {db : Db} (hids : (db.invoices.map (·.id)).Nodup) (h : Faithful db) {i : Invoice}
    (hi : i ∈ db.invoices) (hlatest : LatestFirst db i) : Increasing db i.id := by
  -- the rows as the table has them, read under the invoice's own text
  have hid := uuidIn_text i.id
  obtain ⟨view, rest, halone, -, hreverse, -⟩ := hlatest i.id.text 0 (fun _ => ⟨fun _ => i.id, []⟩) hid
  obtain ⟨view', rest', halone', -, hhistory⟩ := getInvoice_alone hids hi hid 0 fun _ => ⟨fun _ => i.id, []⟩
  obtain rfl : view = view' := Except.ok.inj (congrArg Prod.fst (halone.symm.trans halone'))
  have hnodup : (historyOf db i.id).Nodup := (List.Nodup.of_map _ h.ids).filter _
  have hshuffle : shuffle [] (historyOf db i.id) = historyOf db i.id := by
    cases historyOf db i.id <;> rfl
  rw [hhistory, Sql.orderByDesc, hshuffle] at hreverse
  exact increasing_of_newest_first hnodup hreverse

/-! ## Changes in order -/

/-- The rows of history in a log. -/
def historyRows (log : List Write) : List StatusHistory :=
  log.filterMap fun
    | .history row => some row
    | _ => none

/-- A transaction that commits a change of an invoice's status began after those that made the earlier changes. -/
def commitsInOrder (s : Sys) : Event → Bool
  | .commit t =>
      match s.calls[t]? with
      | some ⟨_, startedAt, _, .running tx⟩ =>
          (historyRows tx.log).all fun row => (historyOf s.db row.invoiceId).all fun h => h.changedAt < startedAt
      | _ => true
  | _ => true

theorem began_after {s : Sys} {t : Nat} {call tx} (hrun : s.Running t call tx)
    (h : commitsInOrder s (.commit t) = true) {row : StatusHistory} (hrow : row ∈ historyRows tx.log)
    {x : StatusHistory} (hx : x ∈ historyOf s.db row.invoiceId) : x.changedAt < call.startedAt := by
  obtain ⟨q, now, origin, st⟩ := call
  obtain ⟨hget, hst⟩ := hrun
  change st = _ at hst
  subst hst
  rw [commitsInOrder, hget] at h
  exact of_decide_eq_true (List.all_eq_true.mp (List.all_eq_true.mp h row hrow) x hx)

/-- Without the overdue job, a commit adds one row of history at most, at the time its transaction began. -/
theorem Commit.history {strict : Prop} {db : Db} {now : Timestamp} {q : Request} {r : Response} {log : List Write}
    (h : Commit sha256 strict db now q r log) (hq : ¬ Marks q) :
    (engine.view log db).history = db.history ∨
      ∃ row ∈ historyRows log, row.changedAt = now ∧ (engine.view log db).history = db.history ++ [row] := by
  have hmem : ∀ {row : StatusHistory} {log : List Write}, .history row ∈ log → row ∈ historyRows log :=
    fun hrow => List.mem_filterMap.mpr ⟨_, hrow, rfl⟩
  cases h with
  | createAccount _ _ _ => exact Or.inl rfl
  | createJournalEntry _ =>
      rw [view_posts]
      exact Or.inl rfl
  | createInvoice hcreated =>
      rw [hcreated.view]
      exact Or.inr ⟨_, hmem (by simp), hcreated.history.changedAt, rfl⟩
  | issueInvoice hissued =>
      rw [hissued.view]
      exact Or.inr ⟨_, hmem (by simp), hissued.history.changedAt, rfl⟩
  | pay hpaid =>
      have hrows := hpaid.history
      rw [hpaid.view]
      split at hrows
      · subst hrows
        exact Or.inl (List.append_nil _)
      · obtain ⟨row, rfl, hrecords⟩ := hrows
        exact Or.inr ⟨row, hmem (by simp), hrecords.changedAt, rfl⟩
  | replayPayment _ => exact Or.inl rfl
  | voidInvoice hvoided =>
      rw [hvoided.view]
      exact Or.inr ⟨_, hmem (by simp), hvoided.history.changedAt, rfl⟩
  | markOverdue _ => exact absurd trivial hq

/-- The steps of a run without the overdue job, its changes in order. -/
def Ordered (s : Sys) (l : Event) : Prop := requesting (fun q => ¬ Marks q) s l ∧ commitsInOrder s l = true

theorem increasing_of_reaches {s : Sys} (h : Reaches sha256 Ordered s) (invoiceId : Uuid) :
    Increasing s.db invoiceId := by
  induction h with
  | refl => exact List.Pairwise.nil
  | @step s s' l hrun hok hstep ih =>
      cases commit_of_step hrun hstep with
      | quiet hdb =>
          rw [hdb]
          exact ih
      | @commit t call tx r hl hrunning _ hcommit hs' =>
          have hq : ¬ Marks call.request := hrun.request (fun s q hok => hok.1 q rfl) rfl hrunning.get
          subst hl
          rw [hs']
          show Increasing (engine.view tx.log s.db) invoiceId
          rcases hcommit.history hq with hsame | ⟨row, hrow, hchanged, hrows⟩
          · rw [Increasing, historyOf, hsame]
            exact ih
          · have hsingle : ∀ x ∈ [row], x.invoiceId = row.invoiceId := fun x hx => by rw [List.mem_singleton.mp hx]
            rw [Increasing, historyOf_append hrows hsingle]
            split
            · next hid =>
              rw [← hid] at ih ⊢
              refine List.pairwise_append.mpr ⟨ih, List.pairwise_singleton _ _, fun x hx y hy => ?_⟩
              rw [List.mem_singleton.mp hy, hchanged]
              exact began_after hrunning hok.2 hrow hx
            · rw [List.append_nil]
              exact ih

/-- **The latest change is shown first** in every run that commits the changes of an invoice in the order in which
their transactions began; in any run without the overdue job, it is so for an invoice exactly when its changes are in
that order. -/
theorem latestFirst_iff :
    (∀ s : Sys, Reaches sha256 Ordered s → ∀ i ∈ s.db.invoices, LatestFirst s.db i) ∧
      ∀ s : Sys, Reaches sha256 (requesting fun q => ¬ Marks q) s → ∀ i ∈ s.db.invoices,
        (LatestFirst s.db i ↔ Increasing s.db i.id) := by
  have hfaithful : ∀ {s : Sys}, Reaches sha256 (requesting fun q => ¬ Marks q) s → Faithful s.db :=
    fun h => faithful_of_reaches (current_of_requesting (fun _ hq => hq) h)
  refine ⟨fun s h i hi => ?_, fun s h i hi => ⟨fun hlatest => ?_, fun hincreasing => ?_⟩⟩
  · exact latestFirst_of_increasing (consistent_of_reaches h).billing.invoiceIds (hfaithful (h.mono fun _ _ h => h.1)) hi
      (increasing_of_reaches h i.id)
  · exact increasing_of_latestFirst (consistent_of_reaches h).billing.invoiceIds (hfaithful h) hi hlatest
  · exact latestFirst_of_increasing (consistent_of_reaches h).billing.invoiceIds (hfaithful h) hi hincreasing

/-! ## Two payments at once -/

instance (P : Request → Prop) [DecidablePred P] (s : Sys) : DecidablePred (requesting P s)
  | .begin q => decidable_of_iff (P q) ⟨fun h _ heq => Label.begin.inj heq ▸ h, fun h => h q rfl⟩
  | .tick _ | .exec _ _ | .prepare _ | .commit _ | .rollback _ | .abort _ => isTrue fun _ heq => nomatch heq

instance (s : Sys) : DecidablePred (Ordered s) :=
  fun l => inferInstanceAs (Decidable (requesting (fun q => ¬ Marks q) s l ∧ commitsInOrder s l = true))

namespace Day

/-- Payments 5 and 6 begin, one after the other. -/
def payers : List Event :=
  opening ++ .tick 1 :: alone 4 8 (.issueInvoice issue) ++
    [.tick 1, .begin (.createInvoicePayment (payment bank 60 0)), .tick 1,
      .begin (.createInvoicePayment (payment bank 40 1)), .tick 1]

/-- The statements and the commit of payment `t`. -/
def settle (t : Nat) : List Event :=
  ((List.range 12).map fun k => .exec t (choice (100 * t + 10 * k))) ++ [.prepare t, .commit t]

end Day

set_option maxRecDepth 100000 in
/-- The payments are made in the order in which they began. -/
theorem latestFirst_of_queue : ∃ s : Sys, s.db.invoices.map (·.status) = [.paid] ∧
    (∀ i ∈ s.db.invoices, LatestFirst s.db i) ∧
      ∀ i ∈ s.db.invoices, (LatestFirst s.db i ↔ Increasing s.db i.id) := by
  obtain ⟨s, hrun, hshown⟩ := Option.map_eq_some_iff.mp
    (by decide : Day.shows (fun s => s.db.invoices.map (·.status)) (Day.payers ++ Day.settle 5 ++ Day.settle 6) =
      some [.paid])
  have hs : Reaches (fun t => t) Ordered s := System.reachable_of_admitted (by decide) hrun
  exact ⟨s, hshown, latestFirst_iff.1 s hs, latestFirst_iff.2 s (hs.mono fun _ _ h => h.1)⟩

set_option maxRecDepth 100000 in
/-- The second payment is made first: the invoice is paid, and the history says that it became partially paid last. -/
theorem not_latestFirst : ¬ ∀ s : Sys, Reaches (fun t => t) (requesting fun q => ¬ Marks q) s →
    ∀ i ∈ s.db.invoices, LatestFirst s.db i := by
  intro hlatest
  obtain ⟨s, hs, hshown⟩ := Day.reaches_of (Day.payers ++ Day.settle 6 ++ Day.settle 5)
    (requesting_of_begun (P := fun q => ¬ Marks q) (by decide))
    (fun s => s.db.invoices.map fun i =>
      (i.status, (Sql.orderByDesc (·.changedAt) [] (historyOf s.db i.id)).map (·.toStatus)))
    (a := [(.paid, [.partiallyPaid, .paid, .issued, .draft])]) (by decide)
  obtain ⟨i, hi, hrow⟩ := List.mem_map.mp (hshown ▸ List.mem_cons_self)
  obtain ⟨hpaid, hrows⟩ := Prod.mk.inj hrow
  have hids := (consistent_of_reaches hs).billing.invoiceIds
  have hid := uuidIn_text i.id
  obtain ⟨view, rest, halone, -, -, hhead, -⟩ := hlatest s hs i hi i.id.text 0 (fun _ => ⟨fun _ => i.id, []⟩) hid
  obtain ⟨view', rest', halone', -, hhistory⟩ := getInvoice_alone hids hi hid 0 fun _ => ⟨fun _ => i.id, []⟩
  obtain rfl : view = view' := Except.ok.inj (congrArg Prod.fst (halone.symm.trans halone'))
  rw [← List.head?_map, hhistory, hrows, hpaid] at hhead
  exact absurd hhead (by decide)

end FinSight
