import FinSight.Guarantees.Invoices
import FinSight.Lists.Trail
import FinSight.ReadCommitted.Alone

/-!
# The status history

* `Faithful` : the history of every invoice is a trail from `DRAFT` to its status, along the edges;
* `faithful_of_reaches` : so it is in every run whose overdue updates replace the status that the job read;
* `not_faithful` : a payment between the job's query and its update leaves a history that is no trail.
-/

namespace FinSight

open ReadCommitted Trails

variable {sha256 : Text → Text}

/-- The history of an invoice, in commit order. -/
def historyOf (db : Db) (invoiceId : Uuid) : List StatusHistory := db.history.filter fun h => h.invoiceId = invoiceId

/-- The rows lead from `DRAFT` to `status`. -/
abbrev Chronicle (rows : List StatusHistory) (status : InvoiceStatus) : Prop :=
  Trail canTransition .draft StatusHistory.fromStatus StatusHistory.toStatus rows status

structure Faithful (db : Db) : Prop where
  ids : (db.history.map (·.id)).Nodup
  owned : ∀ h ∈ db.history, ∃ i ∈ db.invoices, i.id = h.invoiceId
  chronicle : ∀ i ∈ db.invoices, Chronicle (historyOf db i.id) i.status

theorem Faithful.empty : Faithful Db.empty :=
  ⟨List.nodup_nil, fun _ h => absurd h List.not_mem_nil, fun _ h => absurd h List.not_mem_nil⟩

theorem Faithful.congr {db db' : Db} (h : Faithful db) (hinvoices : db'.invoices = db.invoices)
    (hhistory : db'.history = db.history) : Faithful db' where
  ids := hhistory ▸ h.ids
  owned := by
    rw [hhistory, hinvoices]
    exact h.owned
  chronicle := by
    unfold historyOf
    rw [hhistory, hinvoices]
    exact h.chronicle

/-! ## Steps -/

/-- A new row goes to the history of its invoice. -/
theorem historyOf_append {db db' : Db} {rows : List StatusHistory} (hhistory : db'.history = db.history ++ rows)
    {invoiceId : Uuid} (hrows : ∀ x ∈ rows, x.invoiceId = invoiceId) (id : Uuid) :
    historyOf db' id = historyOf db id ++ if invoiceId = id then rows else [] := by
  rw [historyOf, hhistory, List.filter_append, ← historyOf]
  congr 1
  split
  · next hid => exact List.filter_eq_self.mpr fun x hx => decide_eq_true ((hrows x hx).trans hid)
  · next hid => exact List.filter_eq_nil_iff.mpr fun x hx heq => hid ((hrows x hx).symm.trans (of_decide_eq_true heq))

theorem Faithful.create {db : Db} (h : Faithful db) {i : Invoice} {row : StatusHistory} {now : Timestamp}
    (hfresh : ∀ x ∈ db.invoices, x.id ≠ i.id) (hdraft : i.status = .draft)
    (hrow : Records db.history row now i.id none .draft) {db' : Db}
    (hinvoices : db'.invoices = db.invoices ++ [i]) (hhistory : db'.history = db.history ++ [row]) : Faithful db' where
  ids := hhistory ▸ Keyed.nodup_concat h.ids hrow.freshId
  owned := by
    rw [hinvoices, hhistory]
    intro x hx
    rcases List.mem_append.mp hx with hx | hx
    · obtain ⟨j, hj, hid⟩ := h.owned x hx
      exact ⟨j, List.mem_append_left _ hj, hid⟩
    · rw [List.mem_singleton.mp hx, hrow.invoice]
      exact ⟨i, List.mem_append_right _ (List.mem_singleton_self i), rfl⟩
  chronicle := by
    have hrows : ∀ x ∈ [row], x.invoiceId = i.id := fun x hx => List.mem_singleton.mp hx ▸ hrow.invoice
    rw [hinvoices]
    intro j hj
    rw [historyOf_append hhistory hrows]
    rcases List.mem_append.mp hj with hj | hj
    · rw [if_neg (Ne.symm (hfresh j hj)), List.append_nil]
      exact h.chronicle j hj
    · obtain rfl := List.mem_singleton.mp hj
      have hnone : historyOf db j.id = [] := by
        rw [historyOf, List.filter_eq_nil_iff]
        intro x hx heq
        obtain ⟨y, hy, hid⟩ := h.owned x hx
        exact hfresh y hy (hid.trans (of_decide_eq_true heq))
      have hfirst : Trail canTransition row.toStatus StatusHistory.fromStatus StatusHistory.toStatus [row]
          row.toStatus := .single hrow.fromStatus
      rw [hrow.toStatus] at hfirst
      rw [hnone, if_pos rfl, hdraft]
      exact hfirst

/-- An invoice gets a new state, and a history row if its status changes. -/
theorem Faithful.update {db : Db} (h : Faithful db) (hids : (db.invoices.map (·.id)).Nodup) {i : Invoice}
    (hi : i ∈ db.invoices) {now : Timestamp} {s : InvoiceState} {rows : List StatusHistory}
    (hrows : (rows = [] ∧ s.status = i.status) ∨ ∃ row, rows = [row] ∧
      Records db.history row now i.id (some i.status) s.status ∧ canTransition i.status s.status = true) {db' : Db}
    (hinvoices : db'.invoices = setInvoice i.id s db.invoices) (hhistory : db'.history = db.history ++ rows) :
    Faithful db' := by
  have hinvoice : ∀ x ∈ rows, x.invoiceId = i.id := by
    intro x hx
    rcases hrows with ⟨rfl, -⟩ | ⟨row, rfl, hrow, -⟩
    · exact absurd hx List.not_mem_nil
    · exact List.mem_singleton.mp hx ▸ hrow.invoice
  refine ⟨?_, ?_, ?_⟩
  · rw [hhistory]
    rcases hrows with ⟨rfl, -⟩ | ⟨row, rfl, hrow, -⟩
    · rw [List.append_nil]
      exact h.ids
    · exact Keyed.nodup_concat h.ids hrow.freshId
  · rw [hinvoices, hhistory]
    intro x hx
    have hold : ∃ j ∈ db.invoices, j.id = x.invoiceId := by
      rcases List.mem_append.mp hx with hx | hx
      · exact h.owned x hx
      · exact ⟨i, hi, (hinvoice x hx).symm⟩
    obtain ⟨j, hj, hid⟩ := hold
    obtain ⟨k, hk, hkid, -⟩ := setInvoice_keeps i.id s db.invoices j hj
    exact ⟨k, hk, hkid.trans hid⟩
  · rw [hinvoices]
    intro j hj
    rw [mem_setInvoice hids hi] at hj
    rw [historyOf_append hhistory hinvoice]
    rcases hj with ⟨hj, hne⟩ | rfl
    · rw [if_neg (Ne.symm hne), List.append_nil]
      exact h.chronicle j hj
    · show Chronicle (historyOf db i.id ++ _) s.status
      rw [set_id, if_pos rfl]
      rcases hrows with ⟨rfl, hsame⟩ | ⟨row, rfl, hrow, hedge⟩
      · rw [List.append_nil, hsame]
        exact h.chronicle i hi
      · rw [← hrow.toStatus] at hedge ⊢
        exact (h.chronicle i hi).snoc hrow.fromStatus hedge

/-! ## Commits -/

theorem Faithful.overdue {now updatedAt : Timestamp} {db : Db} {log : List Write} {rows : List Invoice}
    (h : Faithful db) (hids : (db.invoices.map (·.id)).Nodup) (ho : OverdueRun True now updatedAt db log rows) :
    Faithful (engine.view log db) ∧ ((engine.view log db).invoices.map (·.id)).Nodup := by
  induction ho with
  | nil => exact ⟨h, hids⟩
  | @snoc log rows i src row _ hi hsource _ hread hrow ih =>
      rw [Engine.view_append]
      have hedge : canTransition i.status .overdue = true := by
        rcases mem_overdueSources.mp hsource with heq | heq
        · rw [heq]
          rfl
        · rw [heq]
          rfl
      refine ⟨ih.1.update ih.2 hi (Or.inr ⟨row, rfl, hread trivial ▸ hrow, hedge⟩) rfl rfl, ?_⟩
      show ((setInvoice i.id (overdueState updatedAt i) (engine.view log db).invoices).map (·.id)).Nodup
      rw [map_id_setInvoice]
      exact ih.2

theorem Commit.faithful {db : Db} {now : Timestamp} {q : Request} {r : Response} {log : List Write}
    (hc : Commit sha256 True db now q r log) (hids : (db.invoices.map (·.id)).Nodup) (h : Faithful db) :
    Faithful (engine.view log db) := by
  cases hc with
  | createAccount _ _ _ => exact h.congr rfl rfl
  | createJournalEntry _ =>
      rw [view_posts]
      exact h.congr rfl rfl
  | createInvoice hcreated =>
      rw [hcreated.view]
      exact h.create hcreated.freshId hcreated.draft hcreated.history rfl rfl
  | issueInvoice hissued =>
      rw [hissued.view]
      have hrow := hissued.history
      rw [← hissued.draft] at hrow
      exact h.update hids hissued.names.mem (Or.inr ⟨_, rfl, hrow, hissued.draft ▸ rfl⟩) rfl rfl
  | @pay r i p result es ls rows hp =>
      rw [hp.view]
      have hrows : (rows = [] ∧ targetStatus db r i = i.status) ∨ ∃ row, rows = [row] ∧
          Records db.history row now i.id (some i.status) (targetStatus db r i) ∧
            canTransition i.status (targetStatus db r i) = true := by
        have hhistory := hp.history
        split at hhistory
        · next hsame => exact Or.inl ⟨hhistory, hsame⟩
        · obtain ⟨row, hrow, hrecords⟩ := hhistory
          exact Or.inr ⟨row, hrow, hrecords, hp.edge⟩
      exact h.update hids hp.names.mem hrows rfl rfl
  | replayPayment _ => exact h
  | voidInvoice hv =>
      rw [hv.view]
      exact h.update hids hv.names.mem (Or.inr ⟨_, rfl, hv.history, hv.edge⟩) rfl rfl
  | markOverdue ho => exact (h.overdue hids ho).1

theorem Serial.faithful {P : Request → Prop} {db : Db} (h : Serial sha256 True P db) : Faithful db := by
  induction h with
  | empty => exact Faithful.empty
  | commit hserial _ hc ih => exact hc.faithful hserial.consistent.billing.invoiceIds ih

/-! ## Runs -/

/-- **The history is faithful** in every state of a run whose overdue updates replace the status that was read. -/
theorem faithful_of_reaches {s : Sys} (h : Reaches sha256 CurrentAt s) : Faithful s.db := by
  have hserial : Serial sha256 True (fun _ => True) s.db :=
    strictly_serial (fun _ _ _ hcurrent => hcurrent) (fun _ _ _ => trivial) h
  exact hserial.faithful

/-- Without the job, there is no condition. -/
theorem current_of_requesting {P : Request → Prop} (hP : ∀ q, P q → ¬ Marks q) {s : Sys}
    (h : Reaches sha256 (requesting P) s) : Reaches sha256 CurrentAt s := by
  induction h with
  | refl => exact .refl
  | step hrun _ hstep ih =>
      refine ih.step (fun t c call tx reading _ hrunning hq => ?_) hstep
      have hrequest := hP _ (hrun.request (requesting_begin P) rfl hrunning.get)
      rw [hq] at hrequest
      exact absurd trivial hrequest

/-! ## The overdue job by itself -/

section Job
variable {γ : Type} {invoice : Invoice}

/-- An issued invoice, and a database with no other. -/
def sample (id : Uuid) : Invoice := ⟨id, id, [], 1, [], .issued, [], none, none, 0, none, 0, 0⟩

def sampleDb (id : Uuid) : Db := { Db.empty with invoices := [sample id] }

def sampleContext : Context Choice := ⟨0, ⟨fun _ => ⟨0⟩, []⟩⟩

theorem updateInvoices_sample (condition : Invoice → Bool) (set : InvoiceState → InvoiceState) (id : Uuid) :
    (Sql.updateInvoices condition set sampleContext (sampleDb id)).writes =
      if condition (sample id) then [.updateInvoice id (set (sample id).state)] else [] := by
  unfold Sql.updateInvoices
  rw [show (sampleDb id).invoices = [sample id] from rfl, List.find?_cons]
  cases condition (sample id) with
  | false => rfl
  | true => rfl

theorem overdue_sample (id x : Uuid) :
    ((sample id).id = x && overdueSources.contains (sample id).status) = decide (id = x) := by
  rw [show overdueSources.contains (sample id).status = true from rfl, Bool.and_true]
  rfl

/-- Where the next statement is not an overdue update. -/
theorem not_nextOverdue {α : Type} {s : Stmt α} {k : α → Tx γ}
    (h : ∀ id state, (s sampleContext (sampleDb id)).writes ≠ [.updateInvoice id state]) :
    ¬ NextOverdue (.call s k) invoice := by
  rintro ⟨now, rest, updated, k', heq⟩
  have hwrites := Program.call_writes heq sampleContext (sampleDb invoice.id)
  rw [updateInvoices_sample, overdue_sample, if_pos (decide_eq_true rfl)] at hwrites
  exact h invoice.id _ hwrites

theorem nextOverdue_loop {now : Timestamp} {c : Invoice} {rest updated : List Invoice} {k : List Invoice → Tx γ}
    (h : NextOverdue (markOverdueLoop now (c :: rest) updated >>= k) invoice) :
    invoice.id = c.id ∧ invoice.status = c.status := by
  obtain ⟨now', rest', updated', k', heq⟩ := h
  have hid : invoice.id = c.id := by
    have hwrites := Program.call_writes heq sampleContext (sampleDb c.id)
    rw [updateInvoices_sample, updateInvoices_sample, overdue_sample, overdue_sample,
      if_pos (decide_eq_true rfl)] at hwrites
    by_contra hne
    rw [if_neg (by simpa using fun heq => hne heq.symm)] at hwrites
    cases hwrites
  have hrow := Program.call_writes (Program.call_next heq (some (sample c.id))) sampleContext Db.empty
  have hrows : [Write.history ⟨⟨0⟩, c.id, some c.status, .overdue, 0, text "Invoice due date passed"⟩] =
      [.history ⟨⟨0⟩, invoice.id, some invoice.status, .overdue, 0, text "Invoice due date passed"⟩] := hrow
  simp only [List.cons.injEq, Write.history.injEq, StatusHistory.mk.injEq, Option.some.injEq] at hrows
  exact ⟨hid, hrows.1.2.2.1.symm⟩

end Job

/-- Where a job stands that runs at `db`: it has read invoices of `db` only. -/
inductive JobPoint (db : Db) : Tx Response → List Write → Prop
  | query (reading : Reading) : JobPoint db (markOverdueInvoices reading >>= fun rows => .ret (.invoices rows)) []
  | loop (now : Timestamp) {candidates : List Invoice} (updated : List Invoice) (log : List Write) :
      (∀ c ∈ candidates, c ∈ db.invoices) →
      JobPoint db (markOverdueLoop now candidates updated >>= fun rows => .ret (.invoices rows)) log
  | row (now : Timestamp) (id : Uuid) (status : InvoiceStatus) {candidates : List Invoice} (updated : List Invoice)
      (log : List Write) : (∀ c ∈ candidates, c ∈ db.invoices) →
      JobPoint db (Program.statement (Sql.insertHistory id (some status) .overdue (text "Invoice due date passed")) >>=
        fun _ => markOverdueLoop now candidates updated >>= fun rows => .ret (.invoices rows)) log
  | ended (e : Failure) (log : List Write) : JobPoint db (.throw e) log

theorem JobPoint.readsCurrent {db : Db} (hids : (db.invoices.map (·.id)).Nodup) {p : Tx Response} {log : List Write}
    (h : JobPoint db p log) : ReadsCurrent p db := by
  intro invoice hnext i hi hid hsource
  cases h with
  | query reading => exact absurd hnext (not_nextOverdue fun _ _ => by simp [Sql.selectOverdueCandidates, Reply.writes])
  | @loop now candidates updated log hmem =>
      cases candidates with
      | nil =>
          obtain ⟨_, _, _, _, heq⟩ := hnext
          cases heq
      | cons c rest =>
          obtain ⟨hcid, hstatus⟩ := nextOverdue_loop hnext
          have hsame : i = c := Keyed.eq_of_key_eq hids hi (hmem c List.mem_cons_self) (hid.trans hcid)
          rw [hsame, hstatus]
  | row now id status updated log hmem =>
      refine absurd hnext (not_nextOverdue fun _ _ => ?_)
      simp [Sql.insertHistory, sampleDb, Db.empty, Sql.checked, Sql.checkedBy, Sql.firstFailure, Reply.writes]
  | ended e log =>
      obtain ⟨_, _, _, _, heq⟩ := hnext
      cases heq

/-- A statement of the job takes it to its next point. -/
theorem JobPoint.exec {db : Db} {p : Tx Response} {log : List Write} (h : JobPoint db p log) {α : Type} {s : Stmt α}
    {k : α → Tx Response} (hp : p = .call s k) {ctx : Context Choice} {r : α} {ws : List Write} {ls waits : List Lock}
    (hr : s ctx (engine.view log db) = .done r ws ls waits) : JobPoint db (k r) (log ++ ws) := by
  cases h with
  | query reading =>
      change Program.call _ _ = _ at hp
      cases hp
      cases hr
      refine .loop _ _ _ fun c hc => ?_
      exact List.mem_of_mem_filter (mem_shuffle.mp hc)
  | @loop now candidates updated log hmem =>
      cases candidates with
      | nil => cases hp
      | cons c rest =>
          have hrest : ∀ x ∈ rest, x ∈ db.invoices := fun x hx => hmem x (List.mem_cons_of_mem c hx)
          change Program.call _ _ = _ at hp
          cases hp
          cases r with
          | none => exact .loop now updated _ hrest
          | some row => exact .row now c.id c.status (updated ++ [row]) _ hrest
  | row now id status updated log hmem =>
      change Program.call _ _ = _ at hp
      cases hp
      exact .loop now updated _ hmem
  | ended e log => cases hp

/-- **A job that runs by itself reads current statuses.** -/
theorem reaches_job {s s' : Sys} (h : Reaches sha256 CurrentAt s) {t : Nat} {call tx} (hrun : s.Running t call tx)
    (hpoint : JobPoint s.db tx.program tx.log) (choices : List Choice)
    (hexecs : System.run engine (program sha256) s (choices.map fun c => .exec t c) = some s') :
    Reaches sha256 CurrentAt s' := by
  induction choices generalizing s call tx with
  | nil =>
      cases hexecs
      exact h
  | cons c choices ih =>
      obtain ⟨s₁, hstep, hrest⟩ := Option.bind_eq_some_iff.mp hexecs
      have hcurrent : CurrentAt s (.exec t c) := by
        rintro _ _ call' tx' _ ⟨⟩ hrun' -
        obtain rfl := hrun.call_eq hrun'
        obtain rfl := hrun.tx_eq hrun'
        exact hpoint.readsCurrent (consistent_of_reaches h).billing.invoiceIds
      obtain ⟨call', tx', β, stmt, next, hrun', hcall, ⟨e, -, rfl⟩ | ⟨r, ws, ls, waits, hr, -, rfl⟩⟩ :=
        System.exec_inv hstep
      · exact ih (h.step hcurrent hstep) (hrun'.setStatus _) (.ended e _) hrest
      · obtain rfl := hrun.call_eq hrun'
        obtain rfl := hrun.tx_eq hrun'
        exact ih (h.step hcurrent hstep) (hrun'.setStatus _) (hpoint.exec hcall hr) hrest

namespace Day

/-- The overdue job runs by itself. -/
def overdue : List Event := .begin (.markOverdueInvoices (clock 5)) :: [choice 500, choice 501, choice 502].map (.exec 5)

/-- A payment commits between the query of the overdue job and its update. -/
def raced : List Event :=
  opening ++ alone 4 8 (.issueInvoice issue) ++
    [.begin (.markOverdueInvoices (clock 5)), .exec 5 (choice 500)] ++
    alone 6 12 (.createInvoicePayment (payment bank 40 0)) ++
    [.exec 5 (choice 501), .exec 5 (choice 502), .prepare 5, .commit 5]

end Day

set_option maxRecDepth 100000 in
/-- The issued invoice is marked by the job. -/
theorem faithful_of_overdue : ∃ s : Sys, s.db.invoices.map (·.status) = [.overdue] ∧ Faithful s.db := by
  obtain ⟨s₀, hs₀, hshown⟩ := Day.reaches_of (Day.opening ++ Day.alone 4 8 (.issueInvoice Day.issue))
    (requesting_of_begun (P := fun q => ¬ Marks q) (by decide))
    (fun s => (s.calls.length, (System.run engine (program fun t => t) s
      (Day.overdue ++ [.prepare 5, .commit 5])).map fun s => s.db.invoices.map (·.status)))
    (a := (5, some [.overdue])) (by decide)
  rw [Prod.mk.injEq, Option.map_eq_some_iff] at hshown
  obtain ⟨hlength, s, hrun, hstatus⟩ := hshown
  have h₀ := current_of_requesting (fun _ hq => hq) hs₀
  rw [System.run_append] at hrun
  obtain ⟨s₁, hjob, hend⟩ := Option.bind_eq_some_iff.mp hrun
  let tx : Txn Db Write Lock Failure Choice Response :=
    ⟨program (fun t => t) (.markOverdueInvoices (Day.clock 5)), [], [], false⟩
  let begun : Sys :=
    { s₀ with calls := s₀.calls ++ [⟨.markOverdueInvoices (Day.clock 5), s₀.clock, s₀.db, .running tx⟩] }
  have hbegun : Reaches (fun t => t) CurrentAt begun :=
    h₀.step (l := .begin (.markOverdueInvoices (Day.clock 5))) (fun _ _ _ _ _ heq => nomatch heq) rfl
  have hget : begun.calls[s₀.calls.length]? =
      some ⟨.markOverdueInvoices (Day.clock 5), s₀.clock, s₀.db, .running tx⟩ := List.getElem?_concat_length
  have hrunning : begun.Running 5 ⟨.markOverdueInvoices (Day.clock 5), s₀.clock, s₀.db, .running tx⟩ tx :=
    ⟨hlength ▸ hget, rfl⟩
  have h₁ : Reaches (fun t => t) CurrentAt s₁ := reaches_job hbegun hrunning (.query (Day.clock 5)) _ hjob
  refine ⟨s, hstatus, faithful_of_reaches (h₁.trans (System.reachable_of_run (fun l hl s => ?_) hend))⟩
  rcases List.mem_pair.mp hl with rfl | rfl
  · exact fun _ _ _ _ _ heq => nomatch heq
  · exact fun _ _ _ _ _ heq => nomatch heq

set_option maxRecDepth 100000 in
/-- The history says that the invoice became overdue when it was issued; it was partially paid. -/
theorem not_faithful : ∃ s : Sys, Reaches (fun t => t) anyStep s ∧
    ∃ i ∈ s.db.invoices, i.status = .overdue ∧ (historyOf s.db i.id).map (fun h => (h.fromStatus, h.toStatus)) =
      [(none, .draft), (some .draft, .issued), (some .issued, .partiallyPaid), (some .issued, .overdue)] ∧
      ¬ Chronicle (historyOf s.db i.id) i.status := by
  obtain ⟨s, hs, hshown⟩ := Day.reaches Day.raced
    (fun s => decide (∃ i ∈ s.db.invoices, i.status = .overdue ∧
      (historyOf s.db i.id).map (fun h => (h.fromStatus, h.toStatus)) =
        [(none, .draft), (some .draft, .issued), (some .issued, .partiallyPaid), (some .issued, .overdue)] ∧
      ¬ Chronicle (historyOf s.db i.id) i.status)) (a := true) (by decide)
  exact ⟨s, hs, of_decide_eq_true hshown⟩

end FinSight
