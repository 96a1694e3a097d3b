import FinSight.Guarantees.Deduplication
import FinSight.Guarantees.Stranded

/-!
# Pending documents

* `Machine.Retrying` : a retry of the document has yet to add its job;
* `Machine.Restarts` : a re-upload of the file by itself leaves a live job for the document;
* `Restartable` : each pending document has a live job, or a re-upload makes one;
* `UnusedIds`, `Tended` : generated ids are new, and a step that leaves a pending document without a job leaves the id of its
  first job free;
* `restartable_of_tended`, `not_restartable`.
-/

namespace FinSight.Documents

open ReadCommitted Documents.Sql

/-- The service is about to add a job of a retry. -/
def Service.Requeues {α : Type} (r : DocumentRequest) : Service α → Prop
  | .randomUuid next => ∀ u, (next u).Requeues r
  | .enqueue jobId data _ => data = r ∧ ∃ u, jobId = retryJobId r.documentId u
  | _ => False

namespace Machine

def Retrying (s : Machine) (d : Document) : Prop :=
  ∃ k j p r, s.Running k j p ∧ p.Requeues r ∧ d.is r.documentId.uuid r.tenantId = true

/-- The id of the first job of the document is not in use. -/
def Free (s : Machine) (d : Document) : Prop := ¬ s.queue.has (ingestionJobId d.id.spelled)

/-- Uploads of the file of `d`, with nothing in between, leave a live job. -/
def Restarts (digest : List UInt8 → Text) (describe : SqlState → Text) (s : Machine) (d : Document) : Prop :=
  ∀ r file, r.tenantId = d.tenantId → assertPdf r.file = .ok file → digest file.buffer = d.contentSha256 →
    nulFree (r.title.getD file.originalname) = true → ∀ choices,
      ∃ s', run digest describe s
        [.request (.upload r), .transact s.tasks.length choices, .enqueue s.tasks.length] = some s' ∧ s'.HasJob d

end Machine

/-- Every pending document, unless a retry of it is under way, has a live job or gets one where its file is uploaded
again. -/
def Restartable (digest : List UInt8 → Text) (describe : SqlState → Text) (s : Machine) : Prop :=
  ∀ d ∈ s.db.documents, d.status = .pending → ¬ s.Retrying d → s.HasJob d ∨ s.Restarts digest describe d

/-- Generated ids are not in use. -/
structure UnusedIds (s : Machine) (l : Move) : Prop where
  documents : ∀ k j r next choices, s.Running k j (.transact (.createDocument r) next) →
    (l = .transact k choices ∨ ∃ message, l = .disconnect k choices true message) →
      ¬ s.queue.has (ingestionJobId ((choices 0).fresh 0).spelled) ∧
      ∀ k j data next, ¬ s.Running k j (.enqueue (ingestionJobId ((choices 0).fresh 0).spelled) data next)
  jobs : ∀ k j r u next, s.Running k j (.enqueue (retryJobId r.documentId u) r next) →
    (l = .enqueue k ∨ ∃ message, l = .enqueueFails k true message) → ¬ s.queue.has (retryJobId r.documentId u)

/-- A step that takes the last job of a pending document away, or drops the job of its retry, leaves the id of its first
job free. -/
structure Tended (s : Machine) (l : Move) : Prop where
  unused : UnusedIds s l
  keeps : ∀ d ∈ s.db.documents, d.status = .pending → ∀ job, s.Serving d job → s.Loses l job →
    (∃ job', s.Serving d job' ∧ ¬ s.Loses l job') ∨ s.Free d
  drops : ∀ k j p r, s.Running k j p → p.Requeues r → (∃ message, l = .enqueueFails k false message) ∨ l = .crash k →
    ∀ d, Matches s.db r [.pending] d → s.Served d ∨ s.Free d
  cutOffs : ∀ k j r next choices message, s.Running k j (.transact (.retryDocument r) next) →
    l = .disconnect k choices true message → ∀ d, Matches s.db r [.failed] d →
      s.Free d ∨ ∃ job ∈ s.queue.jobs, d.is job.data.documentId.uuid job.data.tenantId = true ∧
        (job.state = .waiting ∨ job.state = .delayed)

variable {digest : List UInt8 → Text} {describe : SqlState → Text} {s s' : Machine} {l : Move} {d d' : Document}

/-! ## Uploads of the same file -/

theorem ingestionJobId_injective {u v : Uuid} (h : ingestionJobId u.spelled = ingestionJobId v.spelled) : u = v :=
  Uuid.text_injective (List.append_cancel_left h)

theorem Document.is_of_same (h : d'.id = d.id ∧ d'.tenantId = d.tenantId) {id t : Uuid} (his : d.is id t = true) :
    d'.is id t = true := by
  rw [Document.is_iff, h.1, h.2]
  exact Document.is_iff.mp his

/-- A re-upload meets the document. -/
theorem createDocument_alone (hconsistent : Consistent digest s.db) (hd : d ∈ s.db.documents) {r : UploadRequest}
    {file : File} (htenant : r.tenantId = d.tenantId) (hfile : assertPdf r.file = .ok file)
    (hdigest : digest file.buffer = d.contentSha256) (htitle : nulFree (r.title.getD file.originalname) = true)
    (choices : Nat → Choice) :
    ∃ rest, (program digest (.createDocument r)).alone engine s.now s.db [] choices =
      (.ok (.created ⟨some d, false⟩), [], rest) := by
  have hholds : d.Holds digest r file := ⟨htenant.symm, hdigest.symm⟩
  have htaken : (s.db.documents.any fun e => e.tenantId = r.tenantId && e.contentSha256 = digest file.buffer) = true :=
    List.any_eq_true.mpr ⟨d, hd, by simp [hholds.1, hholds.2]⟩
  have hinsert : Sql.insertDocument ⟨r.tenantId, r.title.getD file.originalname, digest file.buffer⟩
      ⟨s.now, choices 0⟩ s.db = .done none [] [] [.documentKey r.tenantId (digest file.buffer)] := by
    unfold Sql.insertDocument
    simp only [FinSight.Sql.checked, FinSight.Sql.checkedBy, FinSight.Sql.firstFailure, htitle, if_true, htaken]
  refine ⟨fun n => choices (n + 1 + 1), ?_⟩
  rw [program_create hfile, Program.alone, Engine.view_nil, hinsert]
  show Program.alone engine s.now s.db (afterInsert digest r file none) _ _ = _
  rw [afterInsert, Program.alone, Sql.selectDocumentByKey, List.append_nil, Engine.view_nil]
  dsimp only
  rw [hholds.find hconsistent hd]
  rfl

/-- What is left of an upload after its transaction. -/
def afterUpload (r : UploadRequest) (result : CreateResult) : Service Reply :=
  match result.wantsJob, result.document with
  | .ok true, some d => .enqueue (ingestionJobId d.id.spelled) ⟨r.tenantId, d.id.spelled⟩ fun a =>
      (Service.answer a).bind fun _ => .ret (.created result)
  | .ok _, _ => .ret (.created result)
  | .error e, _ => .throw (.failure e)

theorem upload_service (r : UploadRequest) : ∃ next, (ClientRequest.upload r).service = .transact (.createDocument r) next ∧
    (∀ result, next (.ok (.created result)) = afterUpload r result) ∧
    ∀ a, (∀ result, a ≠ .ok (.created result)) → ∃ e, next a = .throw e := by
  refine ⟨_, rfl, fun result => ?_, fun a ha => ?_⟩
  · obtain ⟨document, created⟩ := result
    show Service.bind (match CreateResult.wantsJob ⟨document, created⟩, document with
      | .ok true, some document => _
      | .ok _, _ => _
      | .error e, _ => _) _ = _
    unfold afterUpload
    cases CreateResult.wantsJob ⟨document, created⟩ with
    | error e => rfl
    | ok wants =>
        cases wants with
        | false => cases document <;> rfl
        | true =>
            cases document with
            | none => rfl
            | some d =>
                show Service.enqueue _ _ _ = Service.enqueue _ _ _
                congr 1
                funext a
                cases a <;> rfl
  · cases a with
    | error e => exact ⟨e, rfl⟩
    | ok response =>
        cases response with
        | created result => exact absurd rfl (ha result)
        | document _ | deleted | claimed _ | file _ | written _ | marked => exact ⟨_, rfl⟩

/-- Where the id of its first job is free, a re-upload gets a pending document going. -/
theorem restarts_of_free (hconsistent : Consistent digest s.db) (hd : d ∈ s.db.documents) (hpending : d.status = .pending)
    (hfree : s.Free d) : s.Restarts digest describe d := by
  intro r file htenant hfile hdigest htitle choices
  obtain ⟨rest, halone⟩ := createDocument_alone hconsistent hd htenant hfile hdigest htitle choices
  obtain ⟨next, hservice, hnext, _⟩ := upload_service r
  let s₁ : Machine := { s with tasks := s.tasks ++ [⟨none, .running (ClientRequest.upload r).service⟩] }
  have hrun₁ : s₁.Running s.tasks.length none (.transact (.createDocument r) next) := by
    show (s.tasks ++ [_])[s.tasks.length]? = _
    rw [List.getElem?_concat_length, hservice]
  have hafter : next (.ok (.created ⟨some d, false⟩)) =
      .enqueue (ingestionJobId d.id.spelled) ⟨r.tenantId, d.id.spelled⟩ fun a =>
        (Service.answer a).bind fun _ => .ret (.created ⟨some d, false⟩) := by
    have hwants : CreateResult.wantsJob ⟨some d, false⟩ = .ok true := by
      simp [CreateResult.wantsJob, hpending]
    rw [hnext]
    simp only [afterUpload, hwants]
  let s₂ := (s₁.commit s.tasks.length (.createDocument r) (.created ⟨some d, false⟩) []).setTask s.tasks.length
    (.running (next (.ok (.created ⟨some d, false⟩))))
  have hstep₂ : s₁.step digest describe (.transact s.tasks.length choices) = some s₂ := Machine.step_transact hrun₁ halone
  have hrun₂ : s₂.Running s.tasks.length none (next (.ok (.created ⟨some d, false⟩))) := Machine.setTask_self hrun₁ _
  rw [hafter] at hrun₂
  have hqueue : s₂.queue = s.queue := rfl
  let s₃ := (s₂.withQueue (s₂.queue.add (ingestionJobId d.id.spelled) ⟨r.tenantId, d.id.spelled⟩)).setTask s.tasks.length
    (.running ((Service.answer (.ok ())).bind fun _ => .ret (.created ⟨some d, false⟩)))
  refine ⟨s₃, ?_, ?_⟩
  · show (s₁.step digest describe (.transact s.tasks.length choices)).bind _ = _
    rw [hstep₂]
    show (s₂.step digest describe (.enqueue s.tasks.length)).bind _ = _
    rw [Machine.step_enqueue hrun₂]
    rfl
  · refine ⟨_, JobQueue.Queue.mem_add_new (hqueue ▸ hfree), ?_⟩
    exact Document.is_iff.mpr ⟨(Uuid.uuid_spelled d.id).symm, htenant.symm⟩

/-! ## What a service may still add -/

/-- All jobs that the service may come to add are jobs of retries, and it adds one after each retry that it has made. -/
def Service.Orderly {α : Type} : Service α → Prop
  | .ret _ | .throw _ => True
  | .transact q next =>
      (∀ r, q = .retryDocument r → ∀ d, (next (.ok (.document d))).Requeues r) ∧ ∀ a, (next a).Orderly
  | .enqueue jobId data next => (∃ u, jobId = retryJobId data.documentId u) ∧ ∀ a, (next a).Orderly
  | .randomUuid next => ∀ u, (next u).Orderly
  | .extract _ next => ∀ a, (next a).Orderly
  | .tokenCounter next => ∀ a, (next a).Orderly
  | .embed _ next => ∀ a, (next a).Orderly

section Orderly
variable {α β : Type} {p : Service α} {r : DocumentRequest}

theorem Service.Requeues.bind (h : p.Requeues r) (f : α → Service β) : (p >>= f).Requeues r := by
  induction p with
  | randomUuid next ih => exact fun u => ih u (h u)
  | enqueue _ _ _ _ => exact h
  | ret _ | throw _ | transact _ _ _ | extract _ _ _ | tokenCounter _ _ | embed _ _ _ => exact h.elim

theorem Service.Requeues.tryCatch (h : p.Requeues r) (handle : Thrown → Service α) : (p.tryCatch handle).Requeues r := by
  induction p with
  | randomUuid next ih => exact fun u => ih u (h u)
  | enqueue _ _ _ _ => exact h
  | ret _ | throw _ | transact _ _ _ | extract _ _ _ | tokenCounter _ _ | embed _ _ _ => exact h.elim

theorem Service.Orderly.bind {f : α → Service β} (hp : p.Orderly) (hf : ∀ a, (f a).Orderly) : (p >>= f).Orderly := by
  induction p with
  | ret a => exact hf a
  | throw e => trivial
  | transact q next ih => exact ⟨fun r hq d => (hp.1 r hq d).bind f, fun a => ih a (hp.2 a)⟩
  | enqueue _ _ next ih => exact ⟨hp.1, fun a => ih a (hp.2 a)⟩
  | randomUuid next ih | tokenCounter next ih => exact fun a => ih a (hp a)
  | extract _ next ih | embed _ next ih => exact fun a => ih a (hp a)

theorem Service.Orderly.tryCatch {handle : Thrown → Service α} (hp : p.Orderly) (hh : ∀ e, (handle e).Orderly) :
    (p.tryCatch handle).Orderly := by
  induction p with
  | ret a => trivial
  | throw e => exact hh e
  | transact q next ih => exact ⟨fun r hq d => (hp.1 r hq d).tryCatch handle, fun a => ih a (hp.2 a)⟩
  | enqueue _ _ next ih => exact ⟨hp.1, fun a => ih a (hp.2 a)⟩
  | randomUuid next ih | tokenCounter next ih => exact fun a => ih a (hp a)
  | extract _ next ih | embed _ next ih => exact fun a => ih a (hp a)

theorem Service.Orderly.answered {p' : Service α} (hp : p.Orderly) (h : p.Answered p') : p'.Orderly := by
  cases h with
  | randomUuid u => exact hp u
  | extract result | tokenCounter result | embed result => exact hp _

theorem Service.orderly_answer (a : Except Thrown α) : (Service.answer a : Service α).Orderly := by
  cases a <;> trivial

theorem Service.orderly_transaction {q : Request} {read : Response → Option α} (hq : ∀ r, q ≠ .retryDocument r) :
    (Service.transaction q read).Orderly := by
  refine ⟨fun r h => absurd h (hq r), fun a => ?_⟩
  rcases a with e | a
  · trivial
  · dsimp only
    split <;> trivial

theorem orderly_ingestClaimed (r : DocumentRequest) (d : Document) : (Service.ingestClaimed r d).Orderly := by
  refine (Service.orderly_transaction fun _ h => by cases h).bind fun file => ?_
  cases file with
  | none => trivial
  | some file =>
      refine Service.Orderly.bind (fun a => Service.orderly_answer a) fun pages => ?_
      refine Service.Orderly.bind (fun a => Service.orderly_answer a) fun countTokens => ?_
      dsimp only
      split
      · trivial
      · refine Service.Orderly.bind (fun a => Service.orderly_answer a) fun vectors => ?_
        refine (Service.orderly_transaction fun _ h => by cases h).bind fun written => ?_
        cases written <;> trivial

theorem orderly_attempt (describe : SqlState → Text) (job : Job) : (Machine.attempt describe job).Orderly := by
  refine Service.Orderly.bind (Service.Orderly.tryCatch ?_ fun e => ?_) fun _ => trivial
  · refine (Service.orderly_transaction fun _ h => by cases h).bind fun claimed => ?_
    cases claimed with
    | none => trivial
    | some d => exact orderly_ingestClaimed job.data d
  · unfold Service.attemptFailed
    dsimp only
    split
    · exact (Service.orderly_transaction fun _ h => by cases h).bind fun _ => trivial
    · exact trivial

theorem orderly_retry (r : DocumentRequest) : (ClientRequest.retry r).service.Orderly := by
  refine ⟨fun r' hr d => ?_, fun a => ?_⟩
  · cases hr
    exact fun u => ⟨rfl, u, rfl⟩
  · rcases a with e | a
    · trivial
    · cases a with
      | document d =>
          refine fun u => ⟨⟨u, rfl⟩, fun a => ?_⟩
          cases a <;> trivial
      | created _ | deleted | claimed _ | file _ | written _ | marked => trivial

end Orderly

/-- What a running task may still add: jobs of retries, or the first job of the document that its upload has answered. -/
inductive Adding (db : Db) : Service Reply → Prop
  | orderly {p} : p.Orderly → Adding db p
  | uploading {r next} : (∀ result, next (.ok (.created result)) = afterUpload r result) →
      (∀ a, (∀ result, a ≠ .ok (.created result)) → ∃ e, next a = .throw e) → Adding db (.transact (.createDocument r) next)
  | adding {id t next} : (∀ a, (next a).Orderly) → (∀ d ∈ db.documents, d.id = id → d.tenantId = t) →
      Adding db (.enqueue (ingestionJobId id.spelled) ⟨t, id.spelled⟩ next)

/-- An upload that has committed goes on to add the first job of its document. -/
theorem adding_afterUpload {db : Db} {log : List Write} (hconsistent : Consistent digest (engine.view log db))
    {now : Timestamp} {r : UploadRequest} {result : CreateResult}
    (hc : Commit digest Eq db now (.createDocument r) (.created result) log) :
    Adding (engine.view log db) (afterUpload r result) := by
  unfold afterUpload
  split
  · next d hwants hd =>
    refine .adding (fun a => ?_) fun e he hid => ?_
    · cases a <;> trivial
    · have hdoc : d ∈ (engine.view log db).documents ∧ d.tenantId = r.tenantId := by
        cases hc with
        | created _ hnew =>
            cases hd
            exact ⟨List.mem_append_right _ (List.mem_singleton_self _), by rw [hnew.row]⟩
        | existing _ hfound =>
            obtain ⟨_, rfl, rfl⟩ := hfound
            have hkey := List.find?_some hd
            rw [Bool.and_eq_true, decide_eq_true_iff] at hkey
            exact ⟨List.mem_of_find?_eq_some hd, hkey.1⟩
      rw [hconsistent.eq_of_id he hdoc.1 hid, hdoc.2]
  · exact .orderly trivial
  · exact .orderly trivial

/-- The row of a generated id. -/
theorem created_id {r : UploadRequest} {now : Nat} {db : Db} {choices rest : Nat → Choice} {res : Response} {log : List Write}
    (h : (program digest (.createDocument r)).alone engine now db [] choices = (.ok res, log, rest)) {d : Document}
    (hd : .document d ∈ log) : d.id = (choices 0).fresh 0 := by
  cases hfile : assertPdf r.file with
  | error e =>
      rw [program, createDocument, hfile] at h
      cases h
  | ok file =>
      rw [program_create hfile, Program.alone, Engine.view_nil] at h
      split at h
      · cases h
      · next created ws ls waits hinsert =>
        have hrow : .document d ∈ ws := by
          cases created with
          | none =>
              rw [afterInsert, Program.alone, Sql.selectDocumentByKey] at h
              cases h
              simpa using hd
          | some e =>
              rw [afterInsert, Program.alone] at h
              split at h
              · cases h
              · next _ ws' _ _ hfiled =>
                have hdone := FinSight.Sql.done_of_checked hfiled
                cases hdone
                cases h
                simpa using hd
        exact (addsNew_insertDocument _ _ _ _ _ _ _ hinsert d hrow).1

/-- A row is an older one, or one that an upload has inserted. -/
theorem row_of_commit {db : Db} {now : Timestamp} {q : Request} {res : Response} {log : List Write}
    (hconsistent : Consistent digest db) (hc : Commit digest Eq db now q res log)
    (hd' : d' ∈ (engine.view log db).documents) :
    (∃ d ∈ db.documents, d.id = d'.id ∧ d.tenantId = d'.tenantId) ∨ (∃ r, q = .createDocument r) ∧ .document d' ∈ log := by
  have hset : ∀ {d : Document} {state : DocumentState}, d ∈ db.documents → d' = d.set state →
      ∃ d ∈ db.documents, d.id = d'.id ∧ d.tenantId = d'.tenantId := by
    rintro d state hd rfl
    exact ⟨d, hd, rfl, rfl⟩
  cases evolves_of_commit hconsistent hc hd' with
  | same hd => exact Or.inl ⟨d', hd, rfl, rfl⟩
  | created _ _ hnew =>
      cases hc with
      | created _ _ =>
          rcases List.mem_append.mp hd' with hd' | hd'
          · exact absurd rfl (hnew d' hd')
          · rw [List.mem_singleton.mp hd']
            exact Or.inr ⟨⟨_, rfl⟩, List.mem_cons_self⟩
      | existing _ _ => exact absurd rfl (hnew d' hd')
  | retried hm hd _ => exact Or.inl (hset hm.mem hd)
  | claimed hm hd _ => exact Or.inl (hset hm.mem hd)
  | closed hm hd _ => exact Or.inl (hset hm.mem hd)

/-- Rows with an id that the task does not add a job for do not matter to it. -/
theorem Adding.rows {db db' : Db} {p : Service Reply} (h : Adding db p)
    (hrows : ∀ d' ∈ db'.documents, (∃ d ∈ db.documents, d.id = d'.id ∧ d.tenantId = d'.tenantId) ∨
      ∀ data next, p ≠ .enqueue (ingestionJobId d'.id.spelled) data next) : Adding db' p := by
  cases h with
  | orderly hp => exact .orderly hp
  | uploading hcreated hothers => exact .uploading hcreated hothers
  | adding hnext htenant =>
      refine .adding hnext fun d' hd' hid => ?_
      rcases hrows d' hd' with ⟨d, hd, hsame, ht⟩ | hno
      · exact ht ▸ htenant d hd (hsame.trans hid)
      · exact absurd rfl (hid ▸ hno _ _)

/-- An error ends an upload that has yet to commit. -/
theorem Adding.error {db : Db} {q : Request} {next : Except Thrown Response → Service Reply}
    (h : Adding db (.transact q next)) (e : Thrown) : Adding db (next (.error e)) := by
  cases h with
  | orderly hp => exact .orderly (hp.2 _)
  | uploading _ hothers =>
      obtain ⟨e', he'⟩ := hothers (.error e) fun _ h => by cases h
      rw [he']
      exact .orderly trivial

theorem Adding.requeues {db : Db} {r : DocumentRequest} {next : Except Thrown Response → Service Reply}
    (h : Adding db (.transact (.retryDocument r) next)) (d : Document) : (next (.ok (.document d))).Requeues r := by
  cases h with
  | orderly hp => exact hp.1 r rfl d

theorem Adding.enqueue {db : Db} {jobId : Text} {data : DocumentRequest} {next : Except Thrown Unit → Service Reply}
    (h : Adding db (.enqueue jobId data next)) (a : Except Thrown Unit) : Adding db (next a) := by
  cases h with
  | orderly hp => exact .orderly (hp.2 a)
  | adding hnext _ => exact .orderly (hnext a)

theorem Adding.answered {db : Db} {p p' : Service Reply} (h : Adding db p) (hp : p.Answered p') : Adding db p' := by
  cases h with
  | orderly horderly => exact .orderly (horderly.answered hp)
  | uploading _ _ | adding _ _ => cases hp

theorem adding_request (db : Db) (c : ClientRequest) : Adding db c.service := by
  cases c with
  | upload r =>
      obtain ⟨next, hservice, hcreated, hothers⟩ := upload_service r
      rw [hservice]
      exact .uploading hcreated hothers
  | get r => exact .orderly ((Service.orderly_transaction fun _ h => by cases h).bind fun _ => trivial)
  | retry r => exact .orderly (orderly_retry r)
  | delete r => exact .orderly ((Service.orderly_transaction fun _ h => by cases h).bind fun _ => trivial)

namespace Machine

/-- All that is running adds jobs as it should. -/
def Adds (s : Machine) : Prop := ∀ k j p, s.Running k j p → Adding s.db p

theorem Adds.setTask {s₁ : Machine} {k : Nat} {state : TaskState} (hadds : s₁.Adds)
    (hself : ∀ p, state = .running p → Adding s₁.db p) : (s₁.setTask k state).Adds := by
  intro u job p hrun
  rcases running_setTask hrun with ⟨_, hrun⟩ | ⟨rfl, hst, _⟩
  · exact hadds u job p hrun
  · exact hself p hst

theorem Adds.append {task : Task} {queue : Queue} (hadds : s.Adds) (hnew : ∀ p, task.state = .running p → Adding s.db p) :
    Adds { s with tasks := s.tasks ++ [task], queue := queue } := by
  intro u job p hrun
  rcases running_append hrun with hrun | ⟨_, rfl⟩
  · exact hadds u job p hrun
  · exact hnew p rfl

theorem Adds.commit {k : Nat} {choices rest : Nat → Choice} {job : Option Job} {q : Request}
    {next : Except Thrown Response → Service Reply} {res : Response} {log : List Write} (hadds : s.Adds)
    (hconsistent : Consistent digest s.db) (hrun : s.Running k job (.transact q next))
    (halone : (program digest q).alone engine s.now s.db [] choices = (.ok res, log, rest))
    (hc : Commit digest Eq s.db s.now q res log) (hunused : UnusedIds s l)
    (hl : l = .transact k choices ∨ ∃ message, l = .disconnect k choices true message) : (s.commit k q res log).Adds := by
  intro u job' p hrun'
  refine (hadds u job' p hrun').rows fun d' hd' => ?_
  refine (row_of_commit hconsistent hc hd').imp_right fun ⟨⟨r, hq⟩, hlogged⟩ data next' hp => ?_
  subst hq hp
  rw [created_id halone hlogged] at hrun'
  exact (hunused.documents k job r next choices hrun hl).2 u job' data next' hrun'

theorem Adds.step (hconsistent : Consistent digest s.db) (hok : UnusedIds s l) (hm : Moves digest describe s l s')
    (hadds : s.Adds) : s'.Adds := by
  cases hm with
  | tick d => exact hadds
  | request c =>
      refine hadds.append fun p hp => ?_
      cases hp
      exact adding_request s.db c
  | @committed _ _ _ _ _ res _ _ hrun halone hcommit =>
      refine (hadds.commit hconsistent hrun halone hcommit hok (Or.inl rfl)).setTask fun p hp => ?_
      cases hp
      have hself := hadds _ _ _ hrun
      cases hself with
      | orderly hp => exact .orderly (hp.2 _)
      | uploading hcreated _ =>
          have hanswer : ∃ result, res = Response.created result := by
            cases hcommit with
            | created _ _ => exact ⟨_, rfl⟩
            | existing _ _ => exact ⟨_, rfl⟩
          obtain ⟨result, rfl⟩ := hanswer
          rw [hcreated]
          exact adding_afterUpload (hcommit.consistent hconsistent) hcommit
  | cutOff hrun halone hcommit =>
      have hcommitted := hadds.commit hconsistent hrun halone hcommit hok (Or.inr ⟨_, rfl⟩)
      refine hcommitted.setTask fun p hp => ?_
      cases hp
      exact (hcommitted _ _ _ hrun).error _
  | refused hrun _ | disconnected hrun =>
      refine hadds.setTask fun p hp => ?_
      cases hp
      exact (hadds _ _ _ hrun).error _
  | enqueued hrun | enqueuedUnseen hrun | dropped hrun =>
      refine Adds.setTask hadds fun p hp => ?_
      cases hp
      exact (hadds _ _ _ hrun).enqueue _
  | answered _ hrun hanswered =>
      refine hadds.setTask fun p hp => ?_
      cases hp
      exact (hadds _ _ _ hrun).answered hanswered
  | delivered _ _ =>
      refine hadds.append fun p hp => ?_
      cases hp
      exact .orderly (orderly_attempt describe _)
  | promoted => exact hadds
  | stalled _ _ => exact hadds
  | returned hrun => exact Adds.setTask hadds fun p hp => by cases hp
  | threw hrun => exact Adds.setTask hadds fun p hp => by cases hp
  | crashed hrun => exact hadds.setTask fun p hp => by cases hp

end Machine

/-! ## Ids of jobs -/

theorem ingestionJobId_ne_retryJobId (id documentId : UuidText) (u : Uuid) : ingestionJobId id ≠ retryJobId documentId u := by
  intro h
  have hlength := congrArg List.length h
  simp only [ingestionJobId, retryJobId, List.length_append, UuidText.length_text] at hlength
  have hretry : (text "-retry-").length = 7 := by decide
  have hu : u.text.length = 36 := UuidText.length_text u.spelled
  omega

/-- A step takes no free id, unless its job is the first one of the document. -/
theorem Machine.Free.step (hm : Machine.Moves digest describe s l s')
    (hadds : s.Adds) (h : s.Free d) (hd : d ∈ s.db.documents) (hd' : d' ∈ s'.db.documents) (hid : d'.id = d.id)
    (htenant : d'.tenantId = d.tenantId) : s'.Free d' ∨ s'.Served d' := by
  have hkeeps : JobQueue.Queue.Keeps s.queue s'.queue → s'.Free d' := by
    intro hkeeps hhas
    rw [hid] at hhas
    exact h (hkeeps _ hhas)
  have hadd : ∀ {k j jobId data next}, s.Running k j (.enqueue jobId data next) → s'.queue = s.queue.add jobId data →
      s'.Free d' ∨ s'.Served d' := by
    intro k j jobId data next hrun hqueue
    by_cases hfirst : jobId = ingestionJobId d.id.spelled
    · subst hfirst
      have hadding := hadds k j _ hrun
      generalize hp : Service.enqueue (ingestionJobId d.id.spelled) data next = p at hadding
      cases hadding with
      | orderly horderly =>
          subst hp
          obtain ⟨⟨u, hretry⟩, _⟩ := horderly
          exact absurd hretry (ingestionJobId_ne_retryJobId _ _ _)
      | uploading _ _ => cases hp
      | @adding id t _ _ hrows =>
          obtain ⟨hjobId, rfl, _⟩ := Service.enqueue.inj hp
          have hsame : d.id = id := ingestionJobId_injective hjobId
          refine Or.inr ⟨⟨ingestionJobId d.id.spelled, ⟨t, id.spelled⟩, 0, 0, .waiting⟩, .idle ?_ ?_ (Or.inl rfl)⟩
          · rw [hqueue]
            exact JobQueue.Queue.mem_add_new h
          · rw [Document.is_iff, Uuid.uuid_spelled]
            exact ⟨hid.trans hsame, htenant.trans (hrows d hd hsame)⟩
    · refine Or.inl fun hhas => ?_
      rw [hqueue, hid] at hhas
      rcases JobQueue.Queue.has_add hhas with hhas | heq
      · exact h hhas
      · exact hfirst heq.symm
  cases hm with
  | tick _ | request _ | committed _ _ _ | refused _ _ | cutOff _ _ _ | disconnected _ | dropped _ | answered _ _ _
  | crashed _ => exact Or.inl (hkeeps fun _ hhas => hhas)
  | enqueued hrun => exact hadd hrun rfl
  | enqueuedUnseen hrun => exact hadd hrun rfl
  | delivered _ _ => exact Or.inl (hkeeps (JobQueue.Queue.keeps_change fun _ => rfl))
  | promoted => exact Or.inl (hkeeps (JobQueue.Queue.keeps_change fun _ => rfl))
  | stalled hmem _ => exact Or.inl (hkeeps (JobQueue.Queue.keeps_stall hmem))
  | @returned k job r hrun =>
      refine Or.inl (hkeeps ?_)
      cases job with
      | none => exact fun _ hhas => hhas
      | some job => exact JobQueue.Queue.keeps_complete
  | @threw k job e hrun =>
      refine Or.inl (hkeeps ?_)
      cases job with
      | none => exact fun _ hhas => hhas
      | some job =>
          show JobQueue.Queue.Keeps s.queue (if _ then _ else _)
          split
          · exact JobQueue.Queue.keeps_change fun _ => rfl
          · exact JobQueue.Queue.keeps_fail

/-! ## Pending documents -/

/-- A job goes on to serve a pending document, or leaves the id of its first job free. -/
theorem Machine.Served.step (hconsistent : Consistent digest s.db) (hok : Tended s l)
    (hm : Machine.Moves digest describe s l s') (h : s.Served d) (hd : d ∈ s.db.documents) (hd' : d ∈ s'.db.documents)
    (hpending : d.status = .pending) : s'.Served d ∨ s.Free d := by
  obtain ⟨job, hserving⟩ := h
  have hkept : (∃ job', s.Serving d job' ∧ ¬ s.Loses l job') ∨ s.Free d := by
    by_cases hlose : s.Loses l job
    · exact hok.keeps d hd hpending job hserving hlose
    · exact Or.inl ⟨job, hserving, hlose⟩
  rcases hkept with ⟨job', hserving', hkept⟩ | hfree
  · exact Or.inl (hserving'.step hconsistent hm hkept hd hd' rfl rfl (Or.inl hpending) (Or.inl rfl))
  · exact Or.inr hfree

/-- A retry goes on until it has added its job. -/
theorem Machine.Retrying.step (hok : Tended s l) (hm : Machine.Moves digest describe s l s') (h : s.Retrying d)
    (hd : d ∈ s.db.documents) (hpending : d.status = .pending) :
    s'.Retrying d ∨ s'.Served d ∨ s.Served d ∨ s.Free d := by
  obtain ⟨k, j, p, r, hrun, hrequeues, his⟩ := h
  have hmatch : Matches s.db r [.pending] d := ⟨hd, his, by simp [hpending]⟩
  have hstays : ∀ {s₁ : Machine} {u : Nat} {state : TaskState}, s₁.tasks = s.tasks → u ≠ k →
      (s₁.setTask u state).Retrying d := by
    intro s₁ u state htasks hne
    refine ⟨k, j, p, r, ?_, hrequeues, his⟩
    show (s₁.setTask u state).tasks[k]? = _
    rw [Machine.setTask_ne hne, htasks]
    exact hrun
  have happend : ∀ {task : Task} {queue : Queue},
      Machine.Retrying { s with tasks := s.tasks ++ [task], queue := queue } d := by
    intro task queue
    refine ⟨k, j, p, r, ?_, hrequeues, his⟩
    show (s.tasks ++ [task])[k]? = _
    rw [List.getElem?_append_left (List.getElem?_eq_some_iff.mp hrun).1]
    exact hrun
  -- the task that moves is the retry, or another one
  have hself : ∀ {u j' p'}, s.Running u j' p' → u = k → p' = p := by
    rintro u j' p' hrun' rfl
    exact TaskState.running.inj (congrArg Task.state (Option.some.inj (hrun'.symm.trans hrun)))
  have hadd : ∀ {u j' jobId data next} {state : TaskState}, s.Running u j' (.enqueue jobId data next) →
      (l = .enqueue u ∨ ∃ message, l = .enqueueFails u true message) →
      ((s.withQueue (s.queue.add jobId data)).setTask u state).Retrying d ∨
        ((s.withQueue (s.queue.add jobId data)).setTask u state).Served d := by
    intro u j' jobId data next state hrun' hl
    by_cases hu : u = k
    · subst hu
      obtain rfl := hself hrun' rfl
      obtain ⟨rfl, v, rfl⟩ := hrequeues
      have hnew := hok.unused.jobs u j' data v next hrun' hl
      exact Or.inr ⟨⟨retryJobId data.documentId v, data, 0, 0, .waiting⟩,
        .idle (JobQueue.Queue.mem_add_new hnew) his (Or.inl rfl)⟩
    · exact Or.inl (hstays rfl hu)
  cases hm with
  | tick _ => exact Or.inl ⟨k, j, p, r, hrun, hrequeues, his⟩
  | request _ => exact Or.inl happend
  | delivered _ _ => exact Or.inl happend
  | promoted => exact Or.inl ⟨k, j, p, r, hrun, hrequeues, his⟩
  | stalled _ _ => exact Or.inl ⟨k, j, p, r, hrun, hrequeues, his⟩
  | enqueued hrun' => exact (hadd hrun' (Or.inl rfl)).imp_right Or.inl
  | enqueuedUnseen hrun' => exact (hadd hrun' (Or.inr ⟨_, rfl⟩)).imp_right Or.inl
  | @dropped u message _ _ _ _ hrun' =>
      by_cases hu : u = k
      · subst hu
        exact Or.inr (Or.inr (hok.drops u j p r hrun hrequeues (Or.inl ⟨message, rfl⟩) d hmatch))
      · exact Or.inl (hstays rfl hu)
  | @crashed u _ _ hrun' =>
      by_cases hu : u = k
      · subst hu
        exact Or.inr (Or.inr (hok.drops u j p r hrun hrequeues (Or.inr rfl) d hmatch))
      · exact Or.inl (hstays rfl hu)
  | @answered _ u _ p' p'' _ hrun' hanswered =>
      by_cases hu : u = k
      · subst hu
        obtain rfl := hself hrun' rfl
        cases hanswered with
        | randomUuid v => exact Or.inl ⟨u, j, _, r, Machine.setTask_self hrun _, hrequeues v, his⟩
        | extract _ | tokenCounter _ | embed _ => exact hrequeues.elim
      · exact Or.inl (hstays rfl hu)
  | @committed u _ _ _ _ _ _ _ hrun' _ _ | @cutOff u _ _ _ _ _ _ _ _ hrun' _ _ | @refused u _ _ _ _ _ _ _ hrun' _
  | @disconnected u _ _ _ _ _ hrun' | @returned u _ _ hrun' | @threw u _ _ hrun' =>
      by_cases hu : u = k
      · obtain rfl := hself hrun' hu
        exact hrequeues.elim
      · exact Or.inl (hstays rfl hu)

/-- A row becomes pending by an upload or by a retry. -/
theorem pending_of_commit {db : Db} {now : Timestamp} {q : Request} {res : Response} {log : List Write}
    (hconsistent : Consistent digest db) (hc : Commit digest Eq db now q res log)
    (hd' : d' ∈ (engine.view log db).documents) (hnew : d' ∉ db.documents) (hpending : d'.status = .pending) :
    (∃ r, q = .createDocument r ∧ .document d' ∈ log) ∨
      ∃ r d, q = .retryDocument r ∧ Matches db r [.failed] d ∧ (d'.id = d.id ∧ d'.tenantId = d.tenantId) ∧
        ∃ row, res = .document row := by
  cases evolves_of_commit hconsistent hc hd' with
  | same hd => exact absurd hd hnew
  | @created r _ _ hfresh =>
      rcases row_of_commit hconsistent hc hd' with ⟨d, hd, hid, _⟩ | ⟨_, hlog⟩
      · exact absurd hid (hfresh d hd)
      · exact Or.inl ⟨r, rfl, hlog⟩
  | @retried r d state hm hset _ =>
      refine Or.inr ⟨r, d, rfl, hm, hset ▸ ⟨rfl, rfl⟩, ?_⟩
      cases hc with
      | retried _ => exact ⟨_, rfl⟩
  | claimed _ hset hstatus =>
      rw [hset] at hpending
      cases hstatus.symm.trans hpending
  | closed _ hset hstatus =>
      rw [hset] at hpending
      rcases hstatus with hstatus | hstatus
      · cases hstatus.symm.trans hpending
      · cases hstatus.symm.trans hpending

/-- **Every pending document has a job that will serve it, or can get its first job, or its retry is under way.** -/
theorem pending_of_tended (h : Machine.Runs digest describe Tended s) :
    s.Adds ∧ ∀ d ∈ s.db.documents, d.status = .pending → s.Served d ∨ s.Free d ∨ s.Retrying d := by
  induction h with
  | init =>
      refine ⟨fun k j p hrun => ?_, fun d hd => absurd hd List.not_mem_nil⟩
      simp [Machine.Running, Machine.init] at hrun
  | @step s s' l hruns hok hstep ih =>
      obtain ⟨hadds, ih⟩ := ih
      have hconsistent := Machine.consistent_of_runs hruns
      have hm := Machine.moves_of_step hconsistent hstep
      refine ⟨hadds.step hconsistent hok.unused hm, fun d' hd' hpending => ?_⟩
      by_cases hold : d' ∈ s.db.documents
      · have hfree : s.Free d' → s'.Served d' ∨ s'.Free d' ∨ s'.Retrying d' := fun hfree =>
          (hfree.step hm hadds hold hd' rfl rfl).elim (fun h => Or.inr (Or.inl h)) Or.inl
        have hserved : s.Served d' → s'.Served d' ∨ s'.Free d' ∨ s'.Retrying d' := fun hserved =>
          (hserved.step hconsistent hok hm hold hd' hpending).elim Or.inl hfree
        rcases ih d' hold hpending with h | h | h
        · exact hserved h
        · exact hfree h
        · rcases h.step hok hm hold hpending with h | h | h | h
          · exact Or.inr (Or.inr h)
          · exact Or.inl h
          · exact hserved h
          · exact hfree h
      · cases hm with
        | @committed k choices j q next res log rest hrun halone hcommit =>
            rcases pending_of_commit hconsistent hcommit hd' hold hpending with ⟨r, rfl, hlog⟩ | ⟨r, d, rfl, hmatch, hd, row, rfl⟩
            · refine Or.inr (Or.inl ?_)
              have hid := created_id halone hlog
              exact fun hhas => (hok.unused.documents k j r next choices hrun (Or.inl rfl)).1 (hid ▸ hhas)
            · refine Or.inr (Or.inr ⟨k, j, _, r, Machine.setTask_self hrun _, ?_, ?_⟩)
              · exact (hadds k j _ hrun).requeues row
              · exact Document.is_of_same hd hmatch.is
        | @cutOff k choices message j q next res log rest hrun halone hcommit =>
            rcases pending_of_commit hconsistent hcommit hd' hold hpending with ⟨r, rfl, hlog⟩ | ⟨r, d, rfl, hmatch, hd, row, rfl⟩
            · refine Or.inr (Or.inl ?_)
              have hid := created_id halone hlog
              exact fun hhas => (hok.unused.documents k j r next choices hrun (Or.inr ⟨message, rfl⟩)).1 (hid ▸ hhas)
            · rcases hok.cutOffs k j r next choices message hrun rfl d hmatch with hfree | ⟨job, hjob, his, hstate⟩
              · exact Or.inr (Or.inl fun hhas => hfree (hd.1 ▸ hhas))
              · exact Or.inl ⟨job, .idle hjob (Document.is_of_same hd his) hstate⟩
        | tick _ | request _ | refused _ _ | disconnected _ | enqueued _ | enqueuedUnseen _ | dropped _ | answered _ _ _
        | delivered _ _ | promoted | stalled _ _ | returned _ | threw _ | crashed _ => exact absurd hd' hold

/-- **A pending document can be set going again** where no step takes its last job, or drops the job of its retry, while
the id of its first job is kept. -/
theorem restartable_of_tended (digest : List UInt8 → Text) (describe : SqlState → Text) (s : Machine)
    (h : Machine.Runs digest describe Tended s) : Restartable digest describe s := by
  intro d hd hpending hretrying
  rcases (pending_of_tended h).2 d hd hpending with ⟨job, hserving⟩ | hfree | hr
  · exact Or.inl ⟨job, hserving.mem, hserving.is⟩
  · exact Or.inr (restarts_of_free (Machine.consistent_of_runs h) hd hpending hfree)
  · exact absurd hr hretrying

/-! ## Two runs -/

namespace Shift

/-- Nothing is lost but the job of an upload, and generated ids are new. -/
def calm (s : Machine) : Move → Bool
  | .transact k choices => match s.tasks[k]? with
    | some ⟨_, .running (.transact (.createDocument _) _)⟩ =>
        let jobId := ingestionJobId ((choices 0).fresh 0).spelled
        !decide (s.queue.has jobId) && s.tasks.all fun task => match task.state with
          | .running (.enqueue other _ _) => decide (other ≠ jobId)
          | _ => true
    | some ⟨_, .running (.transact (.markDocumentsFailed _ _) _)⟩ => false
    | _ => true
  | .enqueue k => match s.tasks[k]? with
    | some ⟨_, .running (.enqueue jobId _ _)⟩ => !decide (s.queue.has jobId)
    | _ => true
  | .enqueueFails k false _ => match s.tasks[k]? with
    | some ⟨_, .running (.enqueue jobId data _)⟩ => jobId = ingestionJobId data.documentId
    | _ => false
  | .enqueueFails _ true _ | .stall _ | .disconnect _ _ _ _ | .crash _ => false
  | _ => true

theorem tended_of_calm (h : calm s l = true) : Tended s l where
  unused := by
    refine ⟨fun k j r next choices hrun hl => ?_, fun k j r u next hrun hl => ?_⟩
    · rcases hl with rfl | ⟨message, rfl⟩
      · simp only [calm] at h
        rw [hrun] at h
        obtain ⟨hhas, htasks⟩ := Bool.and_eq_true_iff.mp h
        refine ⟨by simpa using hhas, fun u j' data next' hrun' => ?_⟩
        have hother := List.all_eq_true.mp htasks _ (List.mem_of_getElem? hrun')
        exact of_decide_eq_true hother rfl
      · cases h
    · rcases hl with rfl | ⟨message, rfl⟩
      · simp only [calm] at h
        rw [hrun] at h
        simpa using h
      · cases h
  keeps d _ _ job _ hlose := by
    cases hlose with
    | stalled hl _ _ =>
        subst hl
        cases h
    | unmarked _ hrun hl =>
        rcases hl with ⟨rfl, _⟩ | ⟨m, rfl⟩
        · simp only [calm] at h
          rw [hrun] at h
          cases h
        · cases h
  drops k j p r hrun hrequeues hl d _ := by
    rcases hl with ⟨message, rfl⟩ | rfl
    · simp only [calm] at h
      rw [hrun] at h
      cases p with
      | enqueue jobId data next =>
          obtain ⟨rfl, u, rfl⟩ := hrequeues
          exact absurd (of_decide_eq_true h).symm (ingestionJobId_ne_retryJobId _ _ _)
      | ret _ | throw _ | transact _ _ | randomUuid _ | extract _ _ | tokenCounter _ | embed _ _ => cases h
    · cases h
  cutOffs k j r next choices message hrun hl := by
    subst hl
    cases h

def isRunning (task : Task) : Bool :=
  match task.state with
  | .running _ => true
  | .ended | .crashed => false

theorem not_retrying (h : s.tasks.all (fun task => !isRunning task) = true) (d : Document) : ¬ s.Retrying d := by
  rintro ⟨k, j, p, r, hrun, _, _⟩
  have hended := List.all_eq_true.mp h _ (List.mem_of_getElem? hrun)
  cases hended

def lost : Text := text "Connection is closed."

/-- The statuses, how many jobs are live, and whether all tasks have ended. -/
def rest (s : Machine) : List DocumentStatus × Nat × Bool :=
  (s.db.documents.map (·.status), s.queue.jobs.length, s.tasks.all fun task => !isRunning task)

/-- How many jobs are live where the file is uploaded again. -/
def reuploaded (s : Machine) : Option Nat :=
  (Machine.run Day.hash failedQuery s
    [.request (.upload Day.upload), .transact s.tasks.length (choices 9), .enqueue s.tasks.length]).map
      (·.queue.jobs.length)

end Shift

set_option maxRecDepth 100000 in
/-- The job of an upload is not added; another upload of the file adds it. -/
theorem restartable_of_shift : ∃ s : Machine, ∃ d ∈ s.db.documents, d.status = .pending ∧ ¬ s.HasJob d ∧
    s.Restarts Day.hash Shift.failedQuery d := by
  obtain ⟨s, hs, hrest⟩ := Shift.runs Tended Shift.calm (fun _ _ => Shift.tended_of_calm)
    [.request (.upload Day.upload), .transact 0 (Shift.choices 0), .enqueueFails 0 false Shift.lost, .finish 0]
    Shift.rest (a := ([.pending], 0, true)) (by decide +kernel) (by decide +kernel)
  obtain ⟨hstatus, hrest⟩ := Prod.mk.inj hrest
  obtain ⟨hjobs, hended⟩ := Prod.mk.inj hrest
  have hmem : DocumentStatus.pending ∈ s.db.documents.map (·.status) := by simp [hstatus]
  obtain ⟨d, hd, hpending⟩ := List.mem_map.mp hmem
  have hnojob : ¬ s.HasJob d := by
    rintro ⟨job, hjob, _⟩
    rw [List.length_eq_zero_iff.mp hjobs] at hjob
    cases hjob
  have hrestartable := restartable_of_tended Day.hash Shift.failedQuery s hs d hd hpending (Shift.not_retrying hended d)
  exact ⟨s, d, hd, hpending, hnojob, hrestartable.resolve_left hnojob⟩

set_option maxRecDepth 100000 in
/-- **The job of a retry is lost**: the file cannot be read, its job is kept as failed, and the retry sets the document to
pending but adds no job. An upload of the file adds the id of the failed job, which the queue ignores. -/
theorem not_restartable : ¬ ∀ s, Machine.Runs Day.hash Shift.failedQuery (fun _ _ => True) s →
    Restartable Day.hash Shift.failedQuery s := by
  intro hall
  obtain ⟨s, hs, hpair⟩ := Shift.runs (fun _ _ => True) (fun _ _ => true) (fun _ _ _ => trivial)
    (Shift.uploaded ++ Shift.claimed 1 ++ [.transact 1 (Shift.choices 1),
      .extract 1 (.error (.unextractable (text "Password protected"))), .transact 1 (Shift.choices 1), .finish 1,
      .request (.retry Day.document), .transact 2 (Shift.choices 2), .randomUuid 2 (Day.uuid 5),
      .enqueueFails 2 false Shift.lost, .finish 2])
    (fun s => (Shift.rest s, Shift.reuploaded s, s.db.documents.map fun d => (d.tenantId, d.contentSha256)))
    (a := (([.pending], 0, true), some 0, [(Day.tenant, Day.hash pdfMagic)])) (by decide +kernel) (by decide +kernel)
  obtain ⟨hrest, hagain⟩ := Prod.mk.inj hpair
  obtain ⟨hagain, hkeys⟩ := Prod.mk.inj hagain
  obtain ⟨hstatus, hrest⟩ := Prod.mk.inj hrest
  obtain ⟨hjobs, hended⟩ := Prod.mk.inj hrest
  have hmem : DocumentStatus.pending ∈ s.db.documents.map (·.status) := by simp [hstatus]
  obtain ⟨d, hd, hpending⟩ := List.mem_map.mp hmem
  have hkey : (d.tenantId, d.contentSha256) ∈ s.db.documents.map fun d => (d.tenantId, d.contentSha256) :=
    List.mem_map_of_mem hd
  rw [hkeys, List.mem_singleton] at hkey
  obtain ⟨htenant, hdigest⟩ := Prod.mk.inj hkey
  rcases hall s hs d hd hpending (Shift.not_retrying hended d) with ⟨job, hjob, _⟩ | hrestarts
  · rw [List.length_eq_zero_iff.mp hjobs] at hjob
    cases hjob
  · obtain ⟨s', hrun, job, hjob, _⟩ := hrestarts Day.upload ⟨text "a.pdf", pdfMagic⟩ htenant.symm (by decide +kernel)
      hdigest.symm (by decide +kernel) (Shift.choices 9)
    rw [Shift.reuploaded, hrun] at hagain
    rw [List.length_eq_zero_iff.mp (Option.some.inj hagain)] at hjob
    cases hjob

end FinSight.Documents
