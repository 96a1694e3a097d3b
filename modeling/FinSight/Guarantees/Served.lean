import FinSight.Guarantees.ClaimHolder

/-!
# Jobs that will serve a document

* `Service.Serves` : whatever the answers, the attempt claims, writes or marks its document, or there is another attempt;
  `attempt_serves` : it does when it begins;
* `Machine.Serving` : a live job will serve the document;
* `Loses` : the step fails a job without its document being marked;
* `Serving.step` : all other steps keep a job serving, as long as the document is open.
-/

namespace FinSight.Documents

open ReadCommitted

/-- Where the document is in the status, the service comes to claim it, to write or to mark it, or throws an error with
`T`. -/
def Service.Serves {α : Type} (data : DocumentRequest) (T : Thrown → Prop) : Service α → DocumentStatus → Prop
  | .ret _, _ => False
  | .throw e, _ => T e
  | .transact q next, status =>
      match q with
      | .claimDocument r =>
          r = data ∧ (∀ e, (next (.error (.failure e))).Serves data T status) ∧
            ∀ d, (next (.ok (.claimed (some d)))).Serves data T .processing
      | .writeChunks w =>
          w.document = data ∧ status = .processing ∧ ∀ e, (next (.error (.failure e))).Serves data T status
      | .markDocumentsFailed r _ => r = data
      | _ => (∀ a, (next (.ok a)).Serves data T status) ∧ ∀ e, (next (.error (.failure e))).Serves data T status
  | .enqueue _ _ _, _ => False
  | .randomUuid _, _ => False
  | .extract _ next, status =>
      ∀ result : Except Ingest.ExtractError (List Ingest.Page), (next (result.mapError Thrown.ofExtract)).Serves data T status
  | .tokenCounter next, status =>
      ∀ result : Except Text (Text → Nat), (next (result.mapError plain)).Serves data T status
  | .embed _ next, status =>
      ∀ result : Except Text (List Embedding), (next (result.mapError plain)).Serves data T status

section Serves
variable {α β : Type} {data : DocumentRequest} {T T' : Thrown → Prop} {status : DocumentStatus} {p : Service α}

/-- A document that is being processed is served by what serves a pending one. -/
theorem Service.Serves.processing (h : p.Serves data T status) : p.Serves data T .processing := by
  induction p generalizing status with
  | ret _ => exact h
  | throw e => exact h
  | transact q next ih =>
      cases q with
      | claimDocument r => exact ⟨h.1, fun e => ih _ (h.2.1 e), h.2.2⟩
      | writeChunks w => exact ⟨h.1, rfl, fun e => ih _ (h.2.2 e)⟩
      | markDocumentsFailed r message => exact h
      | createDocument _ | getDocument _ | retryDocument _ | deleteDocument _ | selectFile _ =>
          exact ⟨fun a => ih _ (h.1 a), fun e => ih _ (h.2 e)⟩
  | enqueue _ _ _ _ => exact h
  | randomUuid _ _ => exact h
  | extract _ next ih | tokenCounter next ih | embed _ next ih => exact fun result => ih _ (h result)

theorem Service.Serves.bind (h : p.Serves data T status) (f : α → Service β) : (p >>= f).Serves data T status := by
  induction p generalizing status with
  | ret _ => exact h.elim
  | throw e => exact h
  | transact q next ih =>
      cases q with
      | claimDocument r => exact ⟨h.1, fun e => ih _ (h.2.1 e), fun d => ih _ (h.2.2 d)⟩
      | writeChunks w => exact ⟨h.1, h.2.1, fun e => ih _ (h.2.2 e)⟩
      | markDocumentsFailed r message => exact h
      | createDocument _ | getDocument _ | retryDocument _ | deleteDocument _ | selectFile _ =>
          exact ⟨fun a => ih _ (h.1 a), fun e => ih _ (h.2 e)⟩
  | enqueue _ _ _ _ => exact h
  | randomUuid _ _ => exact h
  | extract _ next ih | tokenCounter next ih | embed _ next ih => exact fun result => ih _ (h result)

theorem Service.Serves.tryCatch {handle : Thrown → Service α} (h : p.Serves data T status)
    (hh : ∀ e status, T e → (handle e).Serves data T' status) : (p.tryCatch handle).Serves data T' status := by
  induction p generalizing status with
  | ret _ => exact h.elim
  | throw e => exact hh e status h
  | transact q next ih =>
      cases q with
      | claimDocument r => exact ⟨h.1, fun e => ih _ (h.2.1 e), fun d => ih _ (h.2.2 d)⟩
      | writeChunks w => exact ⟨h.1, h.2.1, fun e => ih _ (h.2.2 e)⟩
      | markDocumentsFailed r message => exact h
      | createDocument _ | getDocument _ | retryDocument _ | deleteDocument _ | selectFile _ =>
          exact ⟨fun a => ih _ (h.1 a), fun e => ih _ (h.2 e)⟩
  | enqueue _ _ _ _ => exact h.elim
  | randomUuid _ _ => exact h.elim
  | extract _ next ih | tokenCounter next ih | embed _ next ih => exact fun result => ih _ (h result)

theorem Service.Serves.answered {p' : Service α} (h : p.Serves data T status) (hp : p.Answered p') :
    p'.Serves data T status := by
  cases hp with
  | randomUuid u => exact h.elim
  | extract result | tokenCounter result | embed result => exact h result

end Serves

/-- The attempt's errors that lead to another one. -/
abbrev Job.Again (job : Job) (e : Thrown) : Prop := Machine.retries job e = true

theorem attemptFailed_serves (describe : SqlState → Text) (job : Job) (e : Thrown) (status : DocumentStatus)
    (he : e.recoverable = true) :
    (Service.attemptFailed describe job.data job.attemptsMade queuePolicy.attempts e).Serves job.data (Job.Again job)
      status := by
  unfold Service.attemptFailed
  dsimp only
  split
  · exact rfl
  · next hfinal =>
    rw [Bool.not_eq_true, Bool.or_eq_false_iff, decide_eq_false_iff_not, Nat.not_le] at hfinal
    rw [hfinal.1, if_neg Bool.false_ne_true]
    show Machine.retries job e = true
    rw [Machine.retries, he, decide_eq_true hfinal.2]
    rfl

theorem ofExtract_recoverable (e : Ingest.ExtractError) : (Thrown.ofExtract e).recoverable = true := by
  cases e <;> rfl

/-- What follows a claim writes, or fails recoverably. -/
theorem ingestClaimed_serves (data : DocumentRequest) (d : Document) :
    (Service.ingestClaimed data d).Serves data (fun e => e.recoverable = true) .processing := by
  refine ⟨fun a => ?_, fun e => rfl⟩
  cases a with
  | file row =>
      cases row with
      | none => exact rfl
      | some file =>
          rintro (e | pages)
          · exact ofExtract_recoverable e
          · rintro (message | countTokens)
            · exact rfl
            · show Service.Serves data _ (if _ then _ else _) _
              split
              · exact rfl
              · rintro (message | vectors)
                · exact rfl
                · exact ⟨rfl, rfl, fun e => rfl⟩
  | created _ | document _ | deleted | claimed _ | written _ | marked => exact rfl

/-- **An attempt serves the document of its job.** -/
theorem attempt_serves (describe : SqlState → Text) (job : Job) (status : DocumentStatus) :
    (Machine.attempt describe job).Serves job.data (Job.Again job) status := by
  refine ⟨rfl, fun e => ?_, fun d => ?_⟩
  · exact Service.Serves.bind (attemptFailed_serves describe job (.failure e) status rfl) _
  · refine Service.Serves.bind ?_ _
    exact (ingestClaimed_serves job.data d).tryCatch fun e status => attemptFailed_serves describe job e status

/-! ## Serving jobs -/

namespace Machine

/-- The job is waiting or delayed, or it is active and its worker has crashed or will serve the document. -/
structure Serving (s : Machine) (d : Document) (job : Job) : Prop where
  mem : job ∈ s.queue.jobs
  is : d.is job.data.documentId.uuid job.data.tenantId = true
  active : ∀ k, job.state = .active k → (∃ j, s.tasks[k]? = some ⟨j, .crashed⟩) ∨
    ∃ j p, s.Running k (some j) p ∧ p.Serves job.data (Job.Again j) d.status

def Served (s : Machine) (d : Document) : Prop := ∃ job, s.Serving d job

/-- The step fails a job that has stalled too often, or the mark of its document fails. -/
inductive Loses (s : Machine) (l : Move) (job : Job) : Prop
  | stalled : l = .stall job.id → job.isActive = true → ¬ job.stalledCount < queuePolicy.maxStalledCount → Loses s l job
  | unmarked {k j r message next choices} : job.state = .active k →
      s.Running k j (.transact (.markDocumentsFailed r message) next) →
      (l = .transact k choices ∧ nulFree (message.take 1000) = false) ∨ (∃ m, l = .disconnect k choices false m) →
      Loses s l job

end Machine

variable {digest : List UInt8 → Text} {describe : SqlState → Text} {s s' : Machine} {l : Move} {d d' : Document}

/-- A mark is refused for a NUL in its message. -/
theorem nul_of_refused {r : DocumentRequest} {message : Text} {now : Nat} {db : Db} {choices rest : Nat → Choice}
    {e : Failure} {log : List Write}
    (h : (program digest (.markDocumentsFailed r message)).alone engine now db [] choices = (.error e, log, rest)) :
    nulFree (message.take 1000) = false := by
  by_contra hnul
  have hnone : FinSight.Sql.firstFailure [(nulFree (message.take 1000), SqlState.characterNotInRepertoire)] = none := by
    rw [Bool.eq_true_of_not_eq_false hnul]
    rfl
  obtain ⟨row, ws, ls, hreply⟩ := updateDocument_answers hnone r.documentId.uuid r.tenantId [.pending, .processing]
    (fun now s => { s with
      status := .failed
      error := some (toWellFormed (message.take 1000))
      updatedAt := now }) ⟨now, choices 0⟩ db
  let rest : Option Document → Tx Response := fun _ => .ret .marked
  have halone : (program digest (.markDocumentsFailed r message)).alone engine now db [] choices =
      (.ok .marked, ws, fun n => choices (n + 1)) := Program.alone_statement (f := rest) hreply
  rw [halone] at h
  cases h

/-- Where a committing attempt serves an open document that stays open, it goes on to serve it. -/
theorem Service.Serves.committed (hconsistent : Consistent digest s.db) {α : Type} {data : DocumentRequest}
    {T : Thrown → Prop} {q : Request} {next : Except Thrown Response → Service α}
    (h : (Service.transact q next).Serves data T d.status) {r : Response} {log : List Write} {now : Timestamp}
    (hc : Commit digest Eq s.db now q r log) (hd : d ∈ s.db.documents)
    (his : d.is data.documentId.uuid data.tenantId = true) (hd' : d' ∈ (engine.view log s.db).documents)
    (hid : d'.id = d.id) (hopen : d.status = .pending ∨ d.status = .processing)
    (hstays : d'.status = d.status ∨ d'.status = .processing) :
    (next (.ok r)).Serves data T d'.status ∧ ∀ e, (next (.error (.failure e))).Serves data T d'.status := by
  have hmono : ∀ {p : Service α}, p.Serves data T d.status → p.Serves data T d'.status := by
    intro p hp
    rcases hstays with hsame | hprocessing
    · rwa [hsame]
    · rw [hprocessing]
      exact hp.processing
  have hopen' : d'.status = .pending ∨ d'.status = .processing := hstays.elim (fun hsame => hsame ▸ hopen) Or.inr
  have hmatches : Matches s.db data [.pending, .processing] d := ⟨hd, his, by rcases hopen with h | h <;> simp [h]⟩
  -- the row that a request of this document finds is `d`, and `d'` is what it leaves
  have hrow : ∀ {statuses : List DocumentStatus} {e : Document} {state : DocumentState}, Matches s.db data statuses e →
      d' ∈ setDocument e.id state s.db.documents → d'.status = state.status := by
    intro statuses e state hm hmem
    have hed : e = d :=
      hconsistent.eq_of_id hm.mem hd ((Document.is_iff.mp hm.is).1.trans (Document.is_iff.mp his).1.symm)
    rcases (hconsistent.mem_update hm.mem).mp hmem with rfl | ⟨_, hne⟩
    · rfl
    · exact absurd (hid.trans (congrArg Document.id hed).symm) hne
  cases hc with
  | @claimed req e hm =>
      obtain ⟨rfl, herrors, hmatched⟩ := h
      have hprocessing : d'.status = .processing := hrow hm hd'
      rw [hprocessing]
      exact ⟨hmatched _, fun e => (herrors e).processing⟩
  | unclaimed hno =>
      obtain ⟨rfl, _, _⟩ := h
      obtain ⟨_, rfl, hno⟩ := hno
      exact absurd hmatches (hno d)
  | @written w e rows hm _ =>
      obtain ⟨rfl, _, _⟩ := h
      rw [Engine.view_cons, Engine.view_cons, view_chunks] at hd'
      have hready : d'.status = .ready := hrow hm hd'
      rcases hopen' with hpending | hprocessing
      · rw [hready] at hpending
        cases hpending
      · rw [hready] at hprocessing
        cases hprocessing
  | lost hno =>
      obtain ⟨rfl, hprocessing, _⟩ := h
      obtain ⟨_, rfl, hno⟩ := hno
      exact absurd ⟨hd, his, by simp [hprocessing]⟩ (hno d)
  | marked hm =>
      obtain rfl := h
      have hfailed : d'.status = .failed := hrow hm hd'
      rcases hopen' with hpending | hprocessing
      · rw [hfailed] at hpending
        cases hpending
      · rw [hfailed] at hprocessing
        cases hprocessing
  | unmarked hno =>
      obtain rfl := h
      obtain ⟨_, rfl, hno⟩ := hno
      exact absurd hmatches (hno d)
  | created _ _ | existing _ _ | document _ | retried _ | deleted _ | file _ =>
      exact ⟨hmono (h.1 _), fun e => hmono (h.2 e)⟩

/-- Where a document row comes from. -/
inductive Evolves (db : Db) (d' : Document) : Request → Prop
  | same {q} : d' ∈ db.documents → Evolves db d' q
  | created {r} : d'.status = .pending → d'.tenantId = r.tenantId → (∀ x ∈ db.documents, x.id ≠ d'.id) →
      Evolves db d' (.createDocument r)
  | retried {r d state} : Matches db r [.failed] d → d' = d.set state → state.status = .pending →
      Evolves db d' (.retryDocument r)
  | claimed {r d state} : Matches db r [.pending, .processing] d → d' = d.set state → state.status = .processing →
      Evolves db d' (.claimDocument r)
  | closed {q r statuses d state} : Matches db r statuses d → d' = d.set state →
      state.status = .ready ∨ state.status = .failed → Evolves db d' q

theorem evolves_of_commit {db : Db} (hconsistent : Consistent digest db) {grow : Db → Db → Prop} {now : Timestamp}
    {q : Request} {r : Response} {log : List Write} (hc : Commit digest grow db now q r log)
    (hd' : d' ∈ (engine.view log db).documents) : Evolves db d' q := by
  have hupdate : ∀ {e : Document} {state : DocumentState}, e ∈ db.documents → d' ∈ setDocument e.id state db.documents →
      d' = e.set state ∨ d' ∈ db.documents := fun he hmem => ((hconsistent.mem_update he).mp hmem).imp_right And.left
  cases hc with
  | created _ hnew =>
      rcases List.mem_append.mp hd' with hd' | hd'
      · exact .same hd'
      · rw [List.mem_singleton.mp hd']
        exact .created (by rw [hnew.row]) (by rw [hnew.row]) hnew.freshId
  | existing _ _ | document _ | unclaimed _ | file _ | lost _ | unmarked _ => exact .same hd'
  | deleted _ => exact .same (List.mem_filter.mp hd').1
  | retried hm => exact (hupdate hm.mem hd').elim (fun h => .retried hm h rfl) .same
  | claimed hm => exact (hupdate hm.mem hd').elim (fun h => .claimed hm h rfl) .same
  | marked hm => exact (hupdate hm.mem hd').elim (fun h => .closed hm h (Or.inr rfl)) .same
  | written hm _ =>
      rw [Engine.view_cons, Engine.view_cons, view_chunks] at hd'
      exact (hupdate hm.mem hd').elim (fun h => .closed hm h (Or.inl rfl)) .same

/-! ## Steps -/

namespace Machine

/-- Where task `k`, which a job has been handed to, goes on to `p'`, the others stay as they are. -/
theorem Serving.setTask {s₁ : Machine} {k : Nat} {job₀ : Option Job} {p₀ : Service Reply} {state : TaskState} {job : Job}
    (h : s.Serving d job) (htasks : s₁.tasks = s.tasks) (hrun : s.Running k job₀ p₀) (hmem : job ∈ s₁.queue.jobs)
    (his : d'.is job.data.documentId.uuid job.data.tenantId = true)
    (hmono : ∀ p : Service Reply, ∀ T, p.Serves job.data T d.status → p.Serves job.data T d'.status)
    (hself : job.state = .active k → ∀ j, job₀ = some j → p₀.Serves job.data (Job.Again j) d.status →
      state = .crashed ∨ ∃ p, state = .running p ∧ p.Serves job.data (Job.Again j) d'.status) :
    (s₁.setTask k state).Serving d' job where
  mem := hmem
  is := his
  active u hu := by
    by_cases hku : k = u
    · subst hku
      have hget : ∀ state₀, (s₁.setTask k state₀).tasks[k]? = some ⟨job₀, state₀⟩ := fun state₀ =>
        setTask_self (by rw [htasks]; exact hrun) state₀
      rcases h.active k hu with ⟨j, hcrashed⟩ | ⟨j, p, hrun', hserves⟩
      · have hstate := congrArg Task.state (Option.some.inj (hrun.symm.trans hcrashed))
        cases hstate
      · have htask := Option.some.inj (hrun.symm.trans hrun')
        have hjob : job₀ = some j := congrArg Task.job htask
        have hp : p₀ = p := TaskState.running.inj (congrArg Task.state htask)
        subst hp
        rcases hself hu j hjob hserves with rfl | ⟨p', rfl, hserves'⟩
        · exact Or.inl ⟨job₀, hget _⟩
        · exact Or.inr ⟨j, p', hjob ▸ hget _, hserves'⟩
    · have hsame : (s₁.setTask k state).tasks[u]? = s.tasks[u]? := by
        rw [setTask_ne hku, htasks]
      rcases h.active u hu with ⟨j, hcrashed⟩ | ⟨j, p, hrun', hserves⟩
      · exact Or.inl ⟨j, hsame.trans hcrashed⟩
      · exact Or.inr ⟨j, p, hsame.trans hrun', hmono p _ hserves⟩

theorem Serving.append {job : Job} {task : Task} {queue : Queue} (h : s.Serving d job) (hmem : job ∈ queue.jobs) :
    Serving { s with tasks := s.tasks ++ [task], queue := queue } d job where
  mem := hmem
  is := h.is
  active u hu := by
    have hleft : ∀ {t : Task}, s.tasks[u]? = some t → (s.tasks ++ [task])[u]? = some t := fun hget => by
      rw [List.getElem?_append_left (List.getElem?_eq_some_iff.mp hget).1, hget]
    rcases h.active u hu with ⟨j, hcrashed⟩ | ⟨j, p, hrun, hserves⟩
    · exact Or.inl ⟨j, hleft hcrashed⟩
    · exact Or.inr ⟨j, p, hleft hrun, hserves⟩

/-- A job that nobody holds. -/
theorem Serving.idle {job : Job} (hmem : job ∈ s.queue.jobs) (his : d.is job.data.documentId.uuid job.data.tenantId = true)
    (hstate : job.state = .waiting ∨ job.state = .delayed) : s.Serving d job where
  mem := hmem
  is := his
  active k hk := by
    rcases hstate with h | h
    · rw [h] at hk
      cases hk
    · rw [h] at hk
      cases hk

theorem Serves.error {α : Type} {data : DocumentRequest} {T : Thrown → Prop} {q : Request}
    {next : Except Thrown Response → Service α} {status : DocumentStatus} (h : (Service.transact q next).Serves data T status)
    (hq : ∀ r message, q ≠ .markDocumentsFailed r message) (e : Failure) :
    (next (.error (.failure e))).Serves data T status := by
  cases q with
  | claimDocument r => exact h.2.1 e
  | writeChunks w => exact h.2.2 e
  | markDocumentsFailed r message => exact absurd rfl (hq r message)
  | createDocument _ | getDocument _ | retryDocument _ | deleteDocument _ | selectFile _ => exact h.2 e

/-- **A job goes on to serve an open document**, unless the step loses it. -/
theorem Serving.step (hconsistent : Consistent digest s.db) (hm : Moves digest describe s l s') {job : Job}
    (h : s.Serving d job) (hkept : ¬ Loses s l job) (hd : d ∈ s.db.documents) (hd' : d' ∈ s'.db.documents)
    (hid : d'.id = d.id) (htenant : d'.tenantId = d.tenantId) (hopen : d.status = .pending ∨ d.status = .processing)
    (hstays : d'.status = d.status ∨ d'.status = .processing) : s'.Served d' := by
  have his' : d'.is job.data.documentId.uuid job.data.tenantId = true := by
    obtain ⟨h₁, h₂⟩ := Document.is_iff.mp h.is
    exact Document.is_iff.mpr ⟨hid.trans h₁, htenant.trans h₂⟩
  have hmono : ∀ p : Service Reply, ∀ T, p.Serves job.data T d.status → p.Serves job.data T d'.status := by
    intro p T hp
    rcases hstays with hsame | hprocessing
    · rwa [hsame]
    · rw [hprocessing]
      exact hp.processing
  have hsame : s'.db = s.db → d' = d := fun hdb => hconsistent.eq_of_id (hdb ▸ hd') hd hid
  cases hm with
  | tick n => exact ⟨job, h.mem, his', (hsame rfl ▸ h).active⟩
  | request c => exact ⟨job, hsame rfl ▸ h.append h.mem⟩
  | committed hrun _ hcommit =>
      refine ⟨job, h.setTask rfl hrun h.mem his' hmono fun _ j _ hserves => Or.inr ⟨_, rfl, ?_⟩⟩
      exact (hserves.committed hconsistent hcommit hd h.is hd' hid hopen hstays).1
  | cutOff hrun _ hcommit =>
      refine ⟨job, h.setTask rfl hrun h.mem his' hmono fun _ j _ hserves => Or.inr ⟨_, rfl, ?_⟩⟩
      exact (hserves.committed hconsistent hcommit hd h.is hd' hid hopen hstays).2 _
  | @refused k choices job₀ q next e log rest hrun halone =>
      refine ⟨job, h.setTask rfl hrun h.mem his' hmono fun hactive j _ hserves => Or.inr ⟨_, rfl, hmono _ _ ?_⟩⟩
      refine Serves.error hserves (fun r message hq => ?_) e
      subst hq
      exact hkept (.unmarked hactive hrun (Or.inl ⟨rfl, nul_of_refused halone⟩))
  | @disconnected k choices message job₀ q next hrun =>
      refine ⟨job, h.setTask rfl hrun h.mem his' hmono fun hactive j _ hserves => Or.inr ⟨_, rfl, hmono _ _ ?_⟩⟩
      refine Serves.error hserves (fun r text hq => ?_) _
      subst hq
      exact hkept (.unmarked hactive hrun (Or.inr ⟨message, rfl⟩))
  | enqueued hrun =>
      exact ⟨job, h.setTask rfl hrun (JobQueue.Queue.mem_add h.mem) his' hmono fun _ _ _ hserves => hserves.elim⟩
  | enqueuedUnseen hrun =>
      exact ⟨job, h.setTask rfl hrun (JobQueue.Queue.mem_add h.mem) his' hmono fun _ _ _ hserves => hserves.elim⟩
  | dropped hrun => exact ⟨job, h.setTask rfl hrun h.mem his' hmono fun _ _ _ hserves => hserves.elim⟩
  | answered _ hrun hanswered =>
      refine ⟨job, h.setTask rfl hrun h.mem his' hmono fun _ j _ hserves => Or.inr ⟨_, rfl, hmono _ _ ?_⟩⟩
      exact hserves.answered hanswered
  | @delivered job₁ hmem₁ hwaiting =>
      obtain rfl := hsame rfl
      by_cases hjob : job = job₁
      · subst hjob
        refine ⟨{ job with state := .active s.tasks.length }, JobQueue.Queue.mem_change hmem₁ (decide_eq_true rfl), h.is, ?_⟩
        intro k hk
        cases hk
        refine Or.inr ⟨job, attempt describe job, ?_, attempt_serves describe job _⟩
        show (s.tasks ++ [_])[s.tasks.length]? = _
        simp
      · exact ⟨job, h.append (JobQueue.Queue.mem_change_of_not h.mem (decide_eq_false hjob))⟩
  | @promoted jobId =>
      obtain rfl := hsame rfl
      by_cases hp : (decide (job.id = jobId) && decide (job.state = .delayed)) = true
      · exact ⟨{ job with state := .waiting }, .idle (JobQueue.Queue.mem_change h.mem hp) h.is (Or.inl rfl)⟩
      · exact ⟨job, JobQueue.Queue.mem_change_of_not h.mem (Bool.eq_false_of_not_eq_true hp), h.is, h.active⟩
  | @stalled job₁ hmem₁ hactive =>
      obtain rfl := hsame rfl
      by_cases hjob : job = job₁
      · subst hjob
        by_cases hcount : job.stalledCount < queuePolicy.maxStalledCount
        · refine ⟨{ job with stalledCount := job.stalledCount + 1, state := .waiting }, .idle ?_ h.is (Or.inl rfl)⟩
          rw [withQueue_queue, JobQueue.Queue.stall, if_pos hcount]
          exact JobQueue.Queue.mem_change hmem₁ (decide_eq_true rfl)
        · exact absurd (.stalled rfl hactive hcount) hkept
      · exact ⟨job, JobQueue.Queue.mem_stall h.mem hjob, h.is, h.active⟩
  | @returned k job₀ r hrun =>
      have hheld : job.state ≠ .active k := by
        intro hk
        rcases h.active k hk with ⟨j, hcrashed⟩ | ⟨j, p, hrun', hserves⟩
        · cases congrArg Task.state (Option.some.inj (hrun.symm.trans hcrashed))
        · obtain rfl := TaskState.running.inj (congrArg Task.state (Option.some.inj (hrun.symm.trans hrun')))
          exact hserves
      refine ⟨job, h.setTask rfl hrun ?_ his' hmono fun hk => absurd hk hheld⟩
      cases job₀ with
      | none => exact h.mem
      | some j => exact JobQueue.Queue.mem_others.mpr ⟨h.mem, hheld⟩
  | @threw k job₀ e hrun =>
      by_cases hheld : job.state = .active k
      · rcases h.active k hheld with ⟨j, hcrashed⟩ | ⟨j, p, hrun', hserves⟩
        · cases congrArg Task.state (Option.some.inj (hrun.symm.trans hcrashed))
        · have htask := Option.some.inj (hrun.symm.trans hrun')
          obtain rfl : job₀ = some j := congrArg Task.job htask
          obtain rfl := TaskState.running.inj (congrArg Task.state htask)
          refine ⟨{ job with attemptsMade := job.attemptsMade + 1, state := .delayed }, .idle ?_ his' (Or.inr rfl)⟩
          have hagain : retries j e = true := hserves
          rw [setTask_queue, withQueue_queue, settle, if_pos hagain]
          exact JobQueue.Queue.mem_change h.mem (decide_eq_true hheld)
      · refine ⟨job, h.setTask rfl hrun ?_ his' hmono fun hk => absurd hk hheld⟩
        cases job₀ with
        | none => exact h.mem
        | some j =>
            rw [withQueue_queue, settle]
            split
            · exact JobQueue.Queue.mem_change_of_not h.mem (decide_eq_false hheld)
            · exact JobQueue.Queue.mem_others.mpr ⟨h.mem, hheld⟩
  | crashed hrun => exact ⟨job, h.setTask rfl hrun h.mem his' hmono fun _ _ _ _ => Or.inl rfl⟩

end Machine

end FinSight.Documents
