import FinSight.ReadCommitted.Discipline
import FinSight.Serial.Services

/-!
# Every interleaving commits serially

* `discipline` : the service programs obey their locks, and each commits what `Commit` says;
* `Serial P db` : `db` is reached from the empty database by commits of requests in `P`, one after the other;
* `serial_of_reaches` : the committed database of every reachable state is serial;
* `consistent_of_reaches` : it is in order;
* `commit_of_step` : a step commits what `Commit` says, or leaves the committed database as it is.
-/

namespace FinSight

open ReadCommitted

/-- What is known when a call gives up. -/
def Failed (sha256 : Text → Text) (q : Request) (origin : Db) (e : Failure) (locks : List Lock) (db : Db) : Prop :=
  match q with
  | .createJournalEntry r => EntryFailed sha256 origin db r.tenantId r.idempotencyKey.text r.data locks e
  | .createInvoicePayment r => PaymentFailed sha256 origin db r locks e
  | _ => True

/-- The deferred check fails only for a call that posted, and holds its key. -/
theorem failed_of_deferred {sha256 : Text → Text} {strict : Prop} {db : Db} {now : Timestamp} {q : Request}
    {r : Response} {log : List Write} {locks : List Lock} (h : Commit sha256 strict db now q r log)
    (hcovered : Covered log locks) {db' : Db} {e : Failure} (hdeferred : deferred db' log = some e) (origin : Db) :
    Failed sha256 q origin e locks db := by
  have hhandled : e.Handled := by
    unfold deferred at hdeferred
    split at hdeferred
    · cases hdeferred
      trivial
    · cases hdeferred
  cases h with
  | createJournalEntry hb =>
      cases hb with
      | posted hp =>
          refine .rejected ?_ hp.freshKey hhandled
          have hlock := hcovered _ (List.mem_append_left _ List.mem_cons_self) _
            (List.mem_cons_of_mem _ List.mem_cons_self)
          rwa [hp.tenant, hp.named] at hlock
      | replayed => cases hdeferred
  | pay hp =>
      refine .rejected ?_ hp.freshKey fun _ => hhandled
      have hlock := hcovered _ List.mem_cons_self _ (List.mem_cons_of_mem _ List.mem_cons_self)
      rwa [hp.tenant, hp.named] at hlock
  | replayPayment _ => cases hdeferred
  | _ => trivial

variable (sha256 : Text → Text)

/-- What may be assumed where a statement runs. -/
def Assumes (strict : Prop) (q : Request) (p : Tx Response) (db : Db) : Prop :=
  Consistent sha256 db ∧ (strict → ∀ reading, q = .markOverdueInvoices reading → ReadsCurrent p db)

theorem program_meets (strict : Prop) (q : Request) (now : Nat) (origin fin : Db) :
    (program sha256 q).Meets engine protocol now fin (Assumes sha256 strict q)
      (fun r _ log locks => Commit sha256 strict fin now q r log ∧ Covered log locks)
      (fun e _ locks => Failed sha256 q origin e locks fin) origin [] [] := by
  cases q with
  | createAccount r =>
      refine Spec.insertAccount ledgerFree_nil (fun _ => trivial) fun db row _ ht htype hfresh => ?_
      refine Spec.done rfl ⟨.createAccount ht htype hfresh, fun w hw ℓ hℓ => ?_⟩
      rw [List.mem_singleton.mp hw] at hℓ
      exact hℓ
  | createJournalEntry r =>
      refine Program.Meets.bind ?_
      refine spec_createJournalEntryTx (fun _ _ h => h.1) ledgerFree_nil (fun e _ locks' _ h => h) ?_
      exact fun result es ls db locks' _ hcovered _ hbooked => ⟨.createJournalEntry hbooked, hcovered⟩
  | createInvoice r =>
      refine Program.Meets.bind (spec_createInvoice (fun _ _ _ => trivial) ?_)
      exact fun seq i items h db locks' hcreated hcovered => ⟨.createInvoice hcreated, hcovered⟩
  | issueInvoice r =>
      refine Program.Meets.bind (spec_issueInvoice (fun _ _ h => h.1) (fun _ _ _ => trivial) ?_)
      exact fun i result es ls h db locks' hissued hcovered => ⟨.issueInvoice hissued, hcovered⟩
  | createInvoicePayment r =>
      refine Program.Meets.bind (spec_createInvoicePayment (fun _ _ h => h.1) (fun e _ locks' h => h) ?_ ?_)
      · exact fun x result db locks' h => ⟨.replayPayment h, fun w hw => absurd hw List.not_mem_nil⟩
      · exact fun i p result es ls hs db locks' hpaid hcovered => ⟨.pay hpaid, hcovered⟩
  | voidInvoice r =>
      refine Program.Meets.bind (spec_voidInvoice (fun _ _ h => h.1) (fun _ _ _ => trivial) ?_)
      exact fun i h db locks' hvoided hcovered => ⟨.voidInvoice hvoided, hcovered⟩
  | markOverdueInvoices reading =>
      refine Program.Meets.bind (spec_markOverdueInvoices strict ?_ (fun _ _ _ => trivial) ?_)
      · exact fun c rest acc db h hstrict i hi hid hsource =>
          h.2 hstrict reading rfl c ⟨_, rest, acc, _, rfl⟩ i hi hid hsource
      · exact fun rows db log' locks' hrun hcovered => ⟨.markOverdue hrun, hcovered⟩

/-- The next update of an overdue job replaces the status that the job has read. -/
def CurrentAt (s : Sys) (l : Event) : Prop :=
  ∀ t c call tx reading, l = .exec t c → s.Running t call tx → call.request = .markOverdueInvoices reading →
    ReadsCurrent tx.program s.db

/-- The service obeys its locks. Under `strict`, only runs in which the overdue job reads current statuses are
admitted, and its history rows are right. -/
def discipline (strict : Prop) (ok : Sys → Event → Prop) (hok : strict → ∀ s l, ok s l → CurrentAt s l) :
    Discipline (L := Lock) (C := Choice) engine (program sha256) where
  protocol := protocol
  ok := ok
  inv := Consistent sha256
  assumes := Assumes sha256 strict
  post q now _ r log locks db := Commit sha256 strict db now q r log ∧ Covered log locks
  fail q _ origin e _ locks db := Failed sha256 q origin e locks db
  ok_exec h hrun hinv := ⟨hinv, fun hstrict reading hq => hok hstrict _ _ h _ _ _ _ reading rfl hrun hq⟩
  meets q now origin fin := program_meets sha256 strict q now origin fin
  deferred := by
    intro q now origin r e log locks db db₀ hpost _ hdeferred
    exact failed_of_deferred hpost.1 hpost.2 hdeferred origin
  commit h hpost _ := ⟨hpost.1.consistent h, guarantee_of_covered hpost.2 hpost.1.grows⟩

/-- The discipline of runs whose steps satisfy `ok`. -/
abbrev base (sha256 : Text → Text) (ok : Sys → Event → Prop) :
    Discipline (L := Lock) (C := Choice) engine (program sha256) :=
  discipline sha256 False ok fun h => h.elim

theorem sound_init {strict : Prop} {ok : Sys → Event → Prop} (hok : strict → ∀ s l, ok s l → CurrentAt s l) :
    (discipline sha256 strict ok hok).Sound init :=
  Discipline.sound_init _ rfl Consistent.empty

/-! ## Serial databases -/

/-- Reached from the empty database by commits of requests in `P`, one after the other. -/
inductive Serial (strict : Prop) (P : Request → Prop) : Db → Prop
  | empty : Serial strict P Db.empty
  | commit {db : Db} {now : Timestamp} {q : Request} {r : Response} {log : List Write} : Serial strict P db → P q →
      Commit sha256 strict db now q r log → Serial strict P (engine.view log db)

variable {sha256} {ok : Sys → Event → Prop}

theorem Serial.consistent {strict : Prop} {P : Request → Prop} {db : Db} (h : Serial sha256 strict P db) :
    Consistent sha256 db := by
  induction h with
  | empty => exact Consistent.empty
  | commit _ _ hc ih => exact hc.consistent ih

theorem sound_of_reaches {s : Sys} (h : Reaches sha256 ok s) : (base sha256 ok).Sound s :=
  Discipline.sound (sound_init sha256 fun h => h.elim) h

theorem strictly_serial {strict : Prop} {P : Request → Prop} (hok : strict → ∀ s l, ok s l → CurrentAt s l)
    (hP : ∀ s q, ok s (.begin q) → P q) {s : Sys} (h : Reaches sha256 ok s) : Serial sha256 strict P s.db :=
  Discipline.reachable_db (sound_init sha256 hok) rfl .empty hP
    (fun _ _ _ _ _ _ _ _ hserial hq hpost => hserial.commit hq hpost.1) h

/-- Every interleaving leaves a serial database. -/
theorem serial_of_reaches {P : Request → Prop} (hP : ∀ s q, ok s (.begin q) → P q) {s : Sys}
    (h : Reaches sha256 ok s) : Serial sha256 False P s.db := strictly_serial (fun h => h.elim) hP h

/-- **Every interleaving leaves the books, the invoices and the numbers in order.** -/
theorem consistent_of_reaches {s : Sys} (h : Reaches sha256 ok s) : Consistent sha256 s.db :=
  (sound_of_reaches h).inv

/-! ## Steps -/

/-- What is known when a call ends. -/
theorem finish_of_reaches {s s' : Sys} {l : Event} (h : Reaches sha256 ok s)
    (hstep : s.step engine (program sha256) l = some s') {t call tx o} (hends : s.Ends s' t call tx o) :
    (base sha256 ok).Finish s t call tx o s' := Discipline.finish (sound_of_reaches h) hstep hends

/-- No running transaction holds `ℓ`. -/
def Unlocked (s : Sys) (ℓ : Lock) : Prop := ∀ t call tx, s.Running t call tx → ℓ ∉ tx.locks

/-- What is known of the request when a call fails. -/
theorem failed_of_finish {s s' : Sys} {l : Event} (h : Reaches sha256 ok s)
    (hstep : s.step engine (program sha256) l = some s') {t call tx e} (hends : s.Ends s' t call tx (.failed e)) :
    Failed sha256 call.request call.origin e tx.locks s.db := by
  cases finish_of_reaches h hstep hends with
  | failed hfail => exact hfail

/-- What is known of the request where a call has thrown. -/
theorem failed_of_thrown {s : Sys} (h : Reaches sha256 ok s) {t call tx e} (hrun : s.Running t call tx)
    (hthrow : tx.program = .throw e) : Failed sha256 call.request call.origin e tx.locks s.db := by
  have hkeeps := (sound_of_reaches h).keeps hrun s.db (Protocol.Rely.refl _ _)
  rw [hthrow] at hkeeps
  exact hkeeps

/-- What a step does to the committed database. -/
inductive Step (sha256 : Text → Text) (s : Sys) (l : Event) (s' : Sys) : Prop
  | quiet : s'.db = s.db → Step sha256 s l s'
  | commit {t call tx r} : l = .commit t → s.Running t call tx → tx.program = .ret r →
      Commit sha256 False s.db call.startedAt call.request r tx.log →
      s' = { s.setStatus t (.finished (.returned r)) with db := engine.view tx.log s.db } → Step sha256 s l s'

theorem commit_of_step {s s' : Sys} {l : Event} (h : Reaches sha256 ok s)
    (hstep : s.step engine (program sha256) l = some s') : Step sha256 s l s' := by
  cases Discipline.event (sound_of_reaches h) hstep with
  | tick _ => exact .quiet rfl
  | begin _ => exact .quiet rfl
  | work _ => exact .quiet rfl
  | returned hrun hr hpost _ _ => exact .commit rfl hrun hr hpost.1 rfl
  | failed _ _ _ => exact .quiet rfl
  | aborted _ => exact .quiet rfl

end FinSight
