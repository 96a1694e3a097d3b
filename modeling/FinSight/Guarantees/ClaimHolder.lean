import FinSight.Documents.Machine
import FinSight.Guarantees.Lifecycle

/-!
# Who decides the fate of a document

* `Machine.holder` : the attempt whose claim has matched the document last;
* `Decides` : a step makes a document ready or failed;
* `Exclusive` : a claim matches only where the holder is done, and the claim of a last attempt is not cut off;
* `Knows` : what is known of a running task in such a run;
* `holder_decides`, `not_holder_decides`.
-/

namespace FinSight.Documents

open ReadCommitted

/-- The document that the transaction has claimed. -/
def Committed.claimed (c : Committed) : Option Uuid :=
  match c.response with
  | .claimed (some d) => some d.id
  | _ => none

def Machine.holder (s : Machine) (id : Uuid) : Option Nat :=
  (s.history.find? fun c => c.claimed = some id).map (·.task)

/-- The step commits a write that answers `true`, or a mark that changes the row. -/
inductive Decides (s s' : Machine) (k : Nat) (id : Uuid) : Prop
  | wrote {w : WriteRequest} : s'.history = ⟨k, .writeChunks w, .written true⟩ :: s.history →
      w.document.documentId.uuid = id → Decides s s' k id
  | marked {r : DocumentRequest} {message : Text} :
      s'.history = ⟨k, .markDocumentsFailed r message, .marked⟩ :: s.history → s'.db ≠ s.db →
      r.documentId.uuid = id → Decides s s' k id

/-! ## What a service may still request -/

theorem Service.Every.answered {α : Type} {P : Request → Prop} {p p' : Service α} (hp : p.Every P) (h : p.Answered p') :
    p'.Every P := by
  cases h with
  | randomUuid u => exact hp u
  | extract result => exact hp _
  | tokenCounter result => exact hp _
  | embed result => exact hp _

/-- The document that the request may make ready or failed. -/
def Request.decides : Request → Option Uuid
  | .writeChunks w => some w.document.documentId.uuid
  | .markDocumentsFailed r _ => some r.documentId.uuid
  | _ => none

def Request.isClaim : Request → Prop
  | .claimDocument _ => True
  | _ => False

/-- Neither claims nor decides. -/
def Request.Idle (q : Request) : Prop := ¬ q.isClaim ∧ q.decides = none

/-- Decides no other document. -/
def Request.Of (id : Uuid) (q : Request) : Prop := ¬ q.isClaim ∧ ∀ id', q.decides = some id' → id' = id

/-- No answer makes it claim or decide. -/
abbrev Service.Idle {α : Type} (p : Service α) : Prop := p.Every Request.Idle

/-- After its claim an attempt decides the claimed document only, and nothing where the claim has not matched. -/
structure Service.Claims {α : Type} (job : Job) (next : Except Thrown Response → Service α) : Prop where
  matched : ∀ d, (next (.ok (.claimed (some d)))).Every (Request.Of job.data.documentId.uuid)
  unmatched : (next (.ok (.claimed none))).Idle
  errors : ∀ e, (next (.error e)).Every (Request.Of job.data.documentId.uuid)
  failed : job.attemptsMade + 1 < queuePolicy.attempts → ∀ e, e.permanent = false → (next (.error e)).Idle

section
variable {describe : SqlState → Text}

/-- Where there is another attempt, nothing is marked. -/
theorem attemptFailed_again {r : DocumentRequest} {made attempts : Nat} {e : Thrown} (h : made + 1 < attempts)
    (he : e.permanent = false) : Service.attemptFailed describe r made attempts e = .throw e := by
  simp only [Service.attemptFailed, he, Nat.not_le.mpr h, decide_false, Bool.or_false]
  rfl

/-- An attempt first claims. -/
theorem attempt_claims (describe : SqlState → Text) (job : Job) :
    ∃ next, Machine.attempt describe job = .transact (.claimDocument job.data) next ∧
    Service.Claims job next := by
  refine ⟨_, rfl, fun d => ?_, trivial, fun e => ?_, fun hattempts e he => ?_⟩
  · have hclaimed : (Service.ingestClaimed job.data d).Every (Request.Of job.data.documentId.uuid) :=
      every_ingestClaimed ⟨id, fun _ h => by cases h⟩ fun w hw =>
        ⟨id, fun id' h => by rw [← hw]; exact (Option.some.inj h).symm⟩
    refine Service.Every.bind (Service.Every.tryCatch hclaimed fun e => ?_) fun _ => trivial
    exact every_attemptFailed ⟨id, fun id' h => (Option.some.inj h).symm⟩
  · refine Service.Every.bind ?_ fun _ => trivial
    exact every_attemptFailed ⟨id, fun id' h => (Option.some.inj h).symm⟩
  · show Service.Every _ (Service.attemptFailed describe job.data job.attemptsMade queuePolicy.attempts e >>=
      fun result => (Service.ret (.ingested result) : Service Reply))
    rw [attemptFailed_again hattempts he]
    trivial

end

/-! ## Runs -/

section
variable (digest : List UInt8 → Text) (describe : SqlState → Text)

/-- Task `k` will decide nothing any more. -/
def Machine.Done (s : Machine) (k : Nat) : Prop := ∀ job p, s.Running k job p → p.Idle

/-- A claim matches the row. -/
def Machine.Matching (s : Machine) (r : DocumentRequest) : Prop := ∃ d, Matches s.db r [.pending, .processing] d

/-- A claim matches only where the attempt that has claimed the document last is done, and the connection is not lost at
the claim of a last attempt. -/
structure Exclusive (s : Machine) (l : Move) : Prop where
  claims : ∀ k job r next choices, s.Running k job (.transact (.claimDocument r) next) →
    l = .transact k choices ∨ (∃ message, l = .disconnect k choices true message) → s.Matching r →
    ∀ k' ≠ k, s.holder r.documentId.uuid = some k' → s.Done k'
  lastClaims : ∀ k job r next choices message committed, s.Running k (some job) (.transact (.claimDocument r) next) →
    l = .disconnect k choices committed message → job.attemptsMade + 1 < queuePolicy.attempts ∨
      (committed = true ∧ s.Matching r)

end

variable {digest : List UInt8 → Text} {describe : SqlState → Text} {s s' : Machine} {l : Move}

/-- What is known of a running task: it will decide nothing, or it holds the only document that it may decide, or it is
about to claim. -/
inductive Knows (s : Machine) (k : Nat) (job : Option Job) : Service Reply → Prop
  | idle {p} : p.Idle → Knows s k job p
  | holds {p} (id : Uuid) : s.holder id = some k → p.Every (Request.Of id) → Knows s k job p
  | claims {j next} : job = some j → Service.Claims j next → Knows s k job (.transact (.claimDocument j.data) next)

/-- Requests of users neither claim nor decide. -/
theorem idle_request (c : ClientRequest) : c.service.Idle := by
  refine every_service ?_
  cases c with
  | upload r | get r | retry r | delete r => exact ⟨id, rfl⟩

theorem Knows.congr {k : Nat} {job : Option Job} {p : Service Reply} (h : Knows s k job p)
    (hhistory : s'.history = s.history) : Knows s' k job p := by
  cases h with
  | idle hidle => exact .idle hidle
  | holds id hholder hof => exact .holds id (by rw [Machine.holder, hhistory]; exact hholder) hof
  | claims hjob hclaims => exact .claims hjob hclaims

/-- A claim that matches is a claim of the document. -/
theorem claimed_of_commit {grow : Db → Db → Prop} {now : Timestamp} {q : Request} {r : Response} {log : List Write}
    (hc : Commit digest grow s.db now q r log) {k : Nat} {id : Uuid} (hid : Committed.claimed ⟨k, q, r⟩ = some id) :
    ∃ req, q = .claimDocument req ∧ req.documentId.uuid = id ∧ s.Matching req := by
  cases hc with
  | @claimed req d hm =>
      refine ⟨req, rfl, ?_, d, hm⟩
      rw [← (Document.is_iff.mp hm.is).1]
      exact Option.some.inj hid
  | created _ _ | existing _ _ | document _ | retried _ | deleted _ | unclaimed _ | file _ | written _ _ | lost _ | marked _
  | unmarked _ => cases hid

theorem holder_commit (s : Machine) (k : Nat) (q : Request) (r : Response) (log : List Write) (id : Uuid) :
    (s.commit k q r log).holder id =
      if Committed.claimed ⟨k, q, r⟩ = some id then some k else s.holder id := by
  unfold Machine.holder Machine.commit
  dsimp only
  rw [List.find?_cons]
  by_cases h : Committed.claimed ⟨k, q, r⟩ = some id
  · rw [if_pos h]
    simp [h]
  · rw [if_neg h]
    simp [h]

/-- An update whose values pass their checks answers. -/
theorem updateDocument_answers {checks : List (Bool × SqlState)} (hchecks : FinSight.Sql.firstFailure checks = none)
    (id t : Uuid) (statuses : List DocumentStatus) (set : Timestamp → DocumentState → DocumentState)
    (ctx : Context Choice) (db : Db) :
    ∃ row ws ls, Sql.updateDocument checks id t statuses set ctx db = .done row ws ls [] := by
  unfold Sql.updateDocument FinSight.Sql.checked FinSight.Sql.checkedBy
  rw [hchecks]
  dsimp only
  split
  · exact ⟨_, _, _, rfl⟩
  · exact ⟨_, _, _, rfl⟩

/-- A claim has no check that could fail. -/
theorem claim_answers {r : DocumentRequest} {now : Nat} {db : Db} {choices rest : Nat → Choice} {e : Failure}
    {log : List Write} : (program digest (.claimDocument r)).alone engine now db [] choices ≠ (.error e, log, rest) := by
  intro h
  have hnone : FinSight.Sql.firstFailure [] = none := rfl
  obtain ⟨row, ws, ls, hreply⟩ := updateDocument_answers hnone r.documentId.uuid r.tenantId [.pending, .processing]
    (fun now s => { s with status := .processing, error := none, updatedAt := now }) ⟨now, choices 0⟩ db
  have halone : (program digest (.claimDocument r)).alone engine now db [] choices =
      (.ok (.claimed row), ws, fun n => choices (n + 1)) := Program.alone_statement hreply
  rw [halone] at h
  cases h

/-- The other tasks, where task `k` commits. -/
theorem Knows.others {k u : Nat} {job : Option Job} {p : Service Reply} (h : Knows s u job p)
    (hrun : s.Running u job p) {q : Request} {r : Response} {log : List Write} {now : Timestamp}
    (hc : Commit digest Eq s.db now q r log)
    (hdone : ∀ req, q = .claimDocument req → s.Matching req → s.holder req.documentId.uuid = some u → s.Done u) :
    Knows (s.commit k q r log) u job p := by
  cases h with
  | idle hidle => exact .idle hidle
  | claims hjob hclaims => exact .claims hjob hclaims
  | holds id hholder hof =>
      by_cases hid : Committed.claimed ⟨k, q, r⟩ = some id
      · obtain ⟨req, hq, rfl, hmatch⟩ := claimed_of_commit hc hid
        exact .idle (hdone req hq hmatch hholder job p hrun)
      · refine .holds id ?_ hof
        rw [holder_commit, if_neg hid]
        exact hholder

/-- The task that has committed. -/
theorem Knows.answered {k : Nat} {job : Option Job} {q : Request} {next : Except Thrown Response → Service Reply}
    (h : Knows s k job (.transact q next)) {r : Response} {log : List Write} {now : Timestamp}
    (hc : Commit digest Eq s.db now q r log) : Knows (s.commit k q r log) k job (next (.ok r)) := by
  cases h with
  | idle hidle => exact .idle (hidle.2 _)
  | holds id hholder hof =>
      refine .holds id ?_ (hof.2 _)
      rw [holder_commit]
      split
      · rfl
      · exact hholder
  | @claims j _ hjob hclaims =>
      cases hc with
      | @claimed _ d hm =>
          refine .holds j.data.documentId.uuid ?_ (hclaims.matched _)
          rw [holder_commit, if_pos]
          exact congrArg some (Document.is_iff.mp hm.is).1
      | unclaimed _ => exact .idle hclaims.unmatched

/-- The task that is cut off after its commit. -/
theorem Knows.cutOff {k : Nat} {job : Option Job} {q : Request} {next : Except Thrown Response → Service Reply}
    (h : Knows s k job (.transact q next)) {r : Response} {log : List Write} {now : Timestamp}
    (hc : Commit digest Eq s.db now q r log) {message : Text}
    (hlast : ∀ j, job = some j → ∀ req, q = .claimDocument req →
      j.attemptsMade + 1 < queuePolicy.attempts ∨ s.Matching req) :
    Knows (s.commit k q r log) k job (next (.error (plain message))) := by
  cases h with
  | idle hidle => exact .idle (hidle.2 _)
  | holds id hholder hof =>
      refine .holds id ?_ (hof.2 _)
      rw [holder_commit]
      split
      · rfl
      · exact hholder
  | @claims j _ hjob hclaims =>
      cases hc with
      | @claimed _ d hm =>
          refine .holds j.data.documentId.uuid ?_ (hclaims.errors _)
          rw [holder_commit, if_pos]
          exact congrArg some (Document.is_iff.mp hm.is).1
      | unclaimed hno =>
          rcases hlast j hjob _ rfl with hattempts | ⟨d, hm⟩
          · exact .idle (hclaims.failed hattempts _ rfl)
          · obtain ⟨db, rfl, hno⟩ := hno
            exact absurd hm (hno d)

/-- The task whose transaction has not committed. -/
theorem Knows.failed {k : Nat} {job : Option Job} {q : Request} {next : Except Thrown Response → Service Reply}
    (h : Knows s k job (.transact q next)) {e : Thrown}
    (hlast : ∀ j, job = some j → ∀ req, q = .claimDocument req →
      j.attemptsMade + 1 < queuePolicy.attempts ∧ e.permanent = false) : Knows s k job (next (.error e)) := by
  cases h with
  | idle hidle => exact .idle (hidle.2 _)
  | holds id hholder hof => exact .holds id hholder (hof.2 _)
  | @claims j _ hjob hclaims =>
      obtain ⟨hattempts, he⟩ := hlast j hjob _ rfl
      exact .idle (hclaims.failed hattempts _ he)

theorem Knows.goesOn {k : Nat} {job : Option Job} {p p' : Service Reply} (h : Knows s k job p)
    (hp : ∀ P : Request → Prop, p.Every P → p'.Every P) (hclaim : ∀ r next, p ≠ .transact (.claimDocument r) next) :
    Knows s k job p' := by
  cases h with
  | idle hidle => exact .idle (hp _ hidle)
  | holds id hholder hof => exact .holds id hholder (hp _ hof)
  | claims _ _ => exact absurd rfl (hclaim _ _)

/-- Everything that is running is known. -/
def Known (s : Machine) : Prop := ∀ k job p, s.Running k job p → Knows s k job p

theorem Known.setTask {s₁ : Machine} {k : Nat} {job : Option Job} {p₀ : Service Reply} {state : TaskState}
    (htasks : s₁.tasks = s.tasks) (hrun : s.Running k job p₀)
    (hothers : ∀ u job p, u ≠ k → s.Running u job p → Knows s₁ u job p)
    (hself : ∀ p, state = .running p → Knows s₁ k job p) : Known (s₁.setTask k state) := by
  intro u job' p hrun'
  rcases Machine.running_setTask hrun' with ⟨hne, hrun'⟩ | ⟨rfl, hst, state₀, hget⟩
  · unfold Machine.Running at hrun'
    rw [htasks] at hrun'
    exact (hothers u job' p hne hrun').congr rfl
  · have hjob : job = job' := congrArg Task.job (Option.some.inj (hrun.symm.trans (htasks ▸ hget)))
    exact hjob ▸ (hself p hst).congr rfl

theorem Known.append {task : Task} {queue : Queue} (hknown : Known s)
    (hnew : ∀ p, task.state = .running p → Knows s s.tasks.length task.job p) :
    Known { s with tasks := s.tasks ++ [task], queue := queue } := by
  intro u job p hrun
  rcases Machine.running_append hrun with hrun | ⟨rfl, rfl⟩
  · exact (hknown u job p hrun).congr rfl
  · exact (hnew p rfl).congr rfl

theorem Known.step (hok : Exclusive s l) (h : Machine.Moves digest describe s l s') (hknown : Known s) : Known s' := by
  have hdone : ∀ {k job q next choices}, s.Running k job (.transact q next) →
      (l = .transact k choices ∨ ∃ message, l = .disconnect k choices true message) → ∀ u ≠ k, ∀ req,
      q = .claimDocument req → s.Matching req → s.holder req.documentId.uuid = some u → s.Done u := by
    rintro k job q next choices hrun hl u hne req rfl hmatch hholder
    exact hok.claims k job req next choices hrun hl hmatch u hne hholder
  cases h with
  | tick d => exact fun k job p hrun => (hknown k job p hrun).congr rfl
  | request c =>
      refine hknown.append fun p hp => ?_
      cases hp
      exact .idle (idle_request c)
  | @committed k choices job q next r log rest hrun _ hcommit =>
      refine Known.setTask rfl hrun (fun u job p hne hrunu => ?_) fun p hp => ?_
      · exact (hknown u job p hrunu).others hrunu hcommit (hdone hrun (Or.inl rfl) u hne)
      · cases hp
        exact (hknown k job _ hrun).answered hcommit
  | @cutOff k choices message job q next r log rest hrun _ hcommit =>
      refine Known.setTask rfl hrun (fun u job p hne hrunu => ?_) fun p hp => ?_
      · exact (hknown u job p hrunu).others hrunu hcommit (hdone hrun (Or.inr ⟨message, rfl⟩) u hne)
      · cases hp
        refine (hknown k job _ hrun).cutOff hcommit fun j hj req hq => ?_
        subst hj hq
        exact (hok.lastClaims k j req next choices message true hrun rfl).imp_right And.right
  | @refused k choices job q next e log rest hrun halone =>
      refine Known.setTask rfl hrun (fun u job p _ hrunu => hknown u job p hrunu) fun p hp => ?_
      cases hp
      refine (hknown k job _ hrun).failed fun j _ req hq => ?_
      subst hq
      exact absurd halone claim_answers
  | @disconnected k choices message job q next hrun =>
      refine Known.setTask rfl hrun (fun u job p _ hrunu => hknown u job p hrunu) fun p hp => ?_
      cases hp
      refine (hknown k job _ hrun).failed fun j hj req hq => ?_
      subst hj hq
      rcases hok.lastClaims k j req next choices message false hrun rfl with hattempts | ⟨hfalse, _⟩
      · exact ⟨hattempts, rfl⟩
      · cases hfalse
  | @enqueued k job jobId data next hrun =>
      refine Known.setTask rfl hrun (fun u job p _ hrunu => (hknown u job p hrunu).congr rfl) fun p hp => ?_
      cases hp
      exact ((hknown k job _ hrun).goesOn (fun P hP => hP _) fun r next h => by cases h).congr rfl
  | @enqueuedUnseen k message job jobId data next hrun =>
      refine Known.setTask rfl hrun (fun u job p _ hrunu => (hknown u job p hrunu).congr rfl) fun p hp => ?_
      cases hp
      exact ((hknown k job _ hrun).goesOn (fun P hP => hP _) fun r next h => by cases h).congr rfl
  | @dropped k message job jobId data next hrun =>
      refine Known.setTask rfl hrun (fun u job p _ hrunu => hknown u job p hrunu) fun p hp => ?_
      cases hp
      exact (hknown k job _ hrun).goesOn (fun P hP => hP _) fun r next h => by cases h
  | @answered _ k job p₀ p' _ hrun hanswered =>
      refine Known.setTask rfl hrun (fun u job p _ hrunu => hknown u job p hrunu) fun p hp => ?_
      cases hp
      refine (hknown k job _ hrun).goesOn (fun P hP => hP.answered hanswered) fun r next h => ?_
      subst h
      cases hanswered
  | @delivered job hmem hwaiting =>
      refine hknown.append fun p hp => ?_
      cases hp
      obtain ⟨next, hattempt, hclaims⟩ := attempt_claims describe job
      rw [hattempt]
      exact .claims rfl hclaims
  | promoted => exact fun k job p hrun => (hknown k job p hrun).congr rfl
  | stalled _ _ => exact fun k job p hrun => (hknown k job p hrun).congr rfl
  | returned hrun =>
      exact Known.setTask rfl hrun (fun u job p _ hrunu => (hknown u job p hrunu).congr rfl) fun p hp => by cases hp
  | threw hrun =>
      exact Known.setTask rfl hrun (fun u job p _ hrunu => (hknown u job p hrunu).congr rfl) fun p hp => by cases hp
  | crashed hrun =>
      exact Known.setTask rfl hrun (fun u job p _ hrunu => hknown u job p hrunu) fun p hp => by cases hp

theorem known_of_runs (h : Machine.Runs digest describe Exclusive s) : Known s := by
  induction h with
  | init =>
      intro k job p hrun
      simp [Machine.Running, Machine.init] at hrun
  | step hruns hok hstep ih =>
      exact ih.step hok (Machine.moves_of_step (Machine.consistent_of_runs hruns) hstep)

/-- Only a commit is recorded. -/
theorem committed_of_history (h : Machine.Moves digest describe s l s') {k : Nat} {q : Request} {r : Response}
    (hhistory : s'.history = ⟨k, q, r⟩ :: s.history) :
    ∃ job next log, s.Running k job (.transact q next) ∧ Commit digest Eq s.db s.now q r log ∧
      s'.db = engine.view log s.db := by
  cases h with
  | committed hrun _ hcommit =>
      obtain ⟨rfl, rfl, rfl⟩ := Committed.mk.inj (List.cons.inj hhistory).1
      exact ⟨_, _, _, hrun, hcommit, rfl⟩
  | cutOff hrun _ hcommit =>
      obtain ⟨rfl, rfl, rfl⟩ := Committed.mk.inj (List.cons.inj hhistory).1
      exact ⟨_, _, _, hrun, hcommit, rfl⟩
  | tick _ | request _ | refused _ _ | disconnected _ | enqueued _ | enqueuedUnseen _ | dropped _ | answered _ _ _
  | delivered _ _ | promoted | stalled _ _ | returned _ | threw _ | crashed _ =>
      exact absurd hhistory.symm (List.cons_ne_self _ _)

/-- **Where every claim waits for the holder to be done, only the holder decides.** -/
theorem holder_decides (digest : List UInt8 → Text) (describe : SqlState → Text) (s s' : Machine) (l : Move)
    (h : Machine.Runs digest describe Exclusive s) (hstep : s.step digest describe l = some s') (k : Nat) (id : Uuid)
    (hdecides : Decides s s' k id) : s.holder id = some k := by
  have hdecider : ∀ {job q next}, s.Running k job (.transact q next) → q.decides = some id → s.holder id = some k := by
    intro job q next hrun hq
    have hknows := known_of_runs h k job _ hrun
    generalize hp : Service.transact q next = p at hknows
    cases hknows with
    | idle hidle =>
        subst hp
        have hnone := hidle.1.2
        rw [hq] at hnone
        cases hnone
    | holds id' hholder hof =>
        subst hp
        exact hof.1.2 id hq ▸ hholder
    | claims _ _ =>
        cases hp
        cases hq
  have hmoves := Machine.moves_of_step (Machine.consistent_of_runs h) hstep
  cases hdecides with
  | wrote hhistory hid =>
      obtain ⟨job, next, _, hrun, _, _⟩ := committed_of_history hmoves hhistory
      exact hdecider hrun (congrArg some hid)
  | marked hhistory _ hid =>
      obtain ⟨job, next, _, hrun, _, _⟩ := committed_of_history hmoves hhistory
      exact hdecider hrun (congrArg some hid)

/-! ## Two runs -/

namespace Shift

/-- What the driver says of an SQL error. -/
def failedQuery (_ : SqlState) : Text := text "Failed query"

def choices (n : Nat) : Nat → Choice := fun k => Day.choice (100 * n + 10 * k)

/-- The job of the uploaded document. -/
def jobId : Text := ingestionJobId (Day.uuid 0).spelled

def uploaded : List Move := [.request (.upload Day.upload), .transact 0 (choices 0), .enqueue 0, .finish 0]

/-- Task `k` is an attempt, and claims. -/
def claimed (k : Nat) : List Move := [.deliver jobId, .transact k (choices k)]

def pages : List Ingest.Page :=
  [⟨1, text "1. Terms\nNet 30 days after the invoice date."⟩, ⟨2, text "2. Notice\nTwo months before the end of a term."⟩]

/-- Task `k` goes on to where it writes. -/
def prepared (k : Nat) : List Move :=
  [.transact k (choices k), .extract k (.ok pages), .tokenCounter k (.ok List.length),
    .embed k (.ok Day.write.vectors)]

theorem runs {α : Type} (P : Machine → Move → Prop) (ok : Machine → Move → Bool) (hok : ∀ s l, ok s l = true → P s l)
    (ls : List Move) (f : Machine → α) {a : α} (hall : Machine.Admits Day.hash failedQuery ok .init ls = true)
    (h : (Machine.run Day.hash failedQuery .init ls).map f = some a) :
    ∃ s, Machine.Runs Day.hash failedQuery P s ∧ f s = a := by
  obtain ⟨s, hrun, hs⟩ := Option.map_eq_some_iff.mp h
  exact ⟨s, Machine.runs_of_admits hok .init hall hrun, hs⟩

/-- No other task is running where one commits. -/
def solo (s : Machine) : Move → Bool
  | .transact k _ => s.tasks.zipIdx.all fun (task, u) => u = k || match task.state with
    | .running _ => false
    | .ended | .crashed => true
  | .disconnect _ _ _ _ => false
  | _ => true

theorem exclusive_of_solo (h : solo s l = true) : Exclusive s l where
  claims := by
    rintro k job r next choices hrun (rfl | ⟨message, rfl⟩) _ k' hne _ job' p hrun'
    · have htask := List.all_eq_true.mp h (⟨job', .running p⟩, k') (List.mem_zipIdx_iff_getElem?.mpr hrun')
      simp [hne] at htask
    · cases h
  lastClaims := by
    rintro k job r next choices message committed _ rfl
    cases h

/-- The step of task `k` is a write that answers `true`. -/
def writes (s : Machine) (k : Nat) : Bool :=
  ((s.step Day.hash failedQuery (.transact k (choices 9))).any fun s' => match s'.history with
    | ⟨u, .writeChunks w, .written true⟩ :: rest =>
        u = k && w.document.documentId.uuid = Day.uuid 0 && rest = s.history
    | _ => false)

theorem decides_of_writes {k : Nat} (h : writes s k = true) :
    ∃ s', s.step Day.hash failedQuery (.transact k (choices 9)) = some s' ∧ Decides s s' k (Day.uuid 0) := by
  obtain ⟨s', hstep, hs'⟩ := (Option.any_eq_true _ _).mp h
  refine ⟨s', hstep, ?_⟩
  split at hs'
  · next u w rest hhistory =>
    rw [Bool.and_eq_true, Bool.and_eq_true, decide_eq_true_iff, decide_eq_true_iff, decide_eq_true_iff] at hs'
    obtain ⟨⟨rfl, hid⟩, rfl⟩ := hs'
    exact .wrote hhistory hid
  · cases hs'

end Shift

set_option maxRecDepth 100000 in
/-- One attempt claims and writes. -/
theorem holder_decides_shift : ∃ s s' : Machine, Decides s s' 1 (Day.uuid 0) ∧ s.holder (Day.uuid 0) = some 1 := by
  obtain ⟨s, hs, hwrites⟩ := Shift.runs Exclusive Shift.solo (fun _ _ => Shift.exclusive_of_solo)
    (Shift.uploaded ++ Shift.claimed 1 ++ Shift.prepared 1) (fun s => Shift.writes s 1) (a := true)
    (by decide +kernel) (by decide +kernel)
  obtain ⟨s', hstep, hdecides⟩ := Shift.decides_of_writes hwrites
  exact ⟨s, s', hdecides, holder_decides Day.hash Shift.failedQuery s s' _ hs hstep 1 _ hdecides⟩

set_option maxRecDepth 100000 in
/-- **A job is delivered again while its first attempt runs on**: the second attempt claims the document, and the first one
makes it ready. -/
theorem not_holder_decides : ¬ ∀ s s' l, Machine.Runs Day.hash Shift.failedQuery (fun _ _ => True) s →
    s.step Day.hash Shift.failedQuery l = some s' → ∀ k id, Decides s s' k id → s.holder id = some k := by
  intro hall
  obtain ⟨s, hs, hpair⟩ := Shift.runs (fun _ _ => True) (fun _ _ => true) (fun _ _ _ => trivial)
    (Shift.uploaded ++ Shift.claimed 1 ++ [.stall Shift.jobId] ++ Shift.claimed 2 ++ Shift.prepared 1)
    (fun s => (Shift.writes s 1, s.holder (Day.uuid 0))) (a := (true, some 2)) (by decide +kernel) (by decide +kernel)
  obtain ⟨hwrites, hholder⟩ := Prod.mk.inj hpair
  obtain ⟨s', hstep, hdecides⟩ := Shift.decides_of_writes hwrites
  rw [hall s s' _ hs hstep 1 _ hdecides] at hholder
  cases hholder

end FinSight.Documents
