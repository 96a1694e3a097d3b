import FinSight.Documents.Refinement
import FinSight.Documents.Worker
import FinSight.Ingest.Extract
import FinSight.JobQueue
import FinSight.ReadCommitted.Alone

/-!
# Requests, workers, database and queue

Any number of requests and of attempts of jobs, each stopping at its transactions, queue commands and library calls. A
transaction is one step: `Commit.atomic` says that one which writes commits what it would by itself. Its caller can be cut
off before or after the commit, a queue command can fail before or after it has been carried out, and anyone can crash
anywhere.

* `Machine.step` : the executable step function;
* `Running` : task `k` is about to do `p`, `Moves` : all that a step can do, `moves_of_step`;
* `Runs ok` : the machines of all runs whose steps satisfy `ok`.
-/

namespace FinSight.Documents

open ReadCommitted

/-- `attempts`, BullMQ's `maxStalledCount`, `removeOnComplete` and `removeOnFail`. -/
def queuePolicy : JobQueue.Policy where
  attempts := 3
  maxStalledCount := 1
  keepCompleted := 1000
  keepFailed := 5000

abbrev Job := JobQueue.Job Text DocumentRequest

abbrev Queue := JobQueue.Queue Text DocumentRequest

inductive Reply where
  | created (result : CreateResult)
  | document (row : Document)
  | deleted
  | ingested (result : Service.IngestResult)
  deriving DecidableEq

inductive TaskState where
  | running (p : Service Reply)
  | ended
  | crashed

/-- A request, or an attempt of a job, with the job as its worker has got it. -/
structure Task where
  job : Option Job
  state : TaskState

/-- A committed transaction and the task that has made it. -/
structure Committed where
  task : Nat
  request : Request
  response : Response
  deriving DecidableEq

/-- Only theorems read `history`, newest first. -/
structure Machine where
  db : Db
  now : Nat
  tasks : List Task
  queue : Queue
  history : List Committed

def Machine.init : Machine := ⟨Db.empty, 0, [], .empty, []⟩

inductive ClientRequest where
  | upload (r : UploadRequest)
  | get (r : DocumentRequest)
  | retry (r : DocumentRequest)
  | delete (r : DocumentRequest)
  deriving DecidableEq

def ClientRequest.service : ClientRequest → Service Reply
  | .upload r => do return .created (← Service.createDocument r)
  | .get r => do return .document (← Service.getDocument r)
  | .retry r => do return .document (← Service.retryDocument r)
  | .delete r => do
      Service.deleteDocument r
      return .deleted

/-- The one transaction of the request. -/
def ClientRequest.request : ClientRequest → Request
  | .upload r => .createDocument r
  | .get r => .getDocument r
  | .retry r => .retryDocument r
  | .delete r => .deleteDocument r

theorem every_service {P : Request → Prop} {c : ClientRequest} (h : P c.request) : c.service.Every P := by
  cases c with
  | upload r =>
      refine Service.Every.bind (Service.Every.bind (Service.every_transaction h) fun result => ?_) fun _ => trivial
      split
      · exact Service.Every.bind (fun r => Service.every_answer r) fun _ => trivial
      · trivial
      · trivial
  | get r => exact Service.Every.bind (Service.every_transaction h) fun _ => trivial
  | retry r =>
      refine Service.Every.bind (Service.Every.bind (Service.every_transaction h) fun doc => ?_) fun _ => trivial
      exact Service.Every.bind (fun _ => trivial) fun u => Service.Every.bind (fun r => Service.every_answer r) fun _ => trivial
  | delete r => exact Service.Every.bind (Service.every_transaction h) fun _ => trivial

/-- What extraction throws. -/
def Thrown.ofExtract : Ingest.ExtractError → Thrown
  | .unextractable message => .unextractable message
  | .error message => .failure (.error message)

/-- A plain `Error`: of a library, or of a lost connection. -/
abbrev plain (message : Text) : Thrown := .failure (.error message)

inductive Move where
  | tick (d : Nat)
  | request (c : ClientRequest)
  | transact (k : Nat) (choices : Nat → Choice)
  /-- The caller of a transaction loses its connection, before or after the commit. -/
  | disconnect (k : Nat) (choices : Nat → Choice) (committed : Bool) (message : Text)
  | enqueue (k : Nat)
  /-- A queue command answers an error, before or after the job has been added. -/
  | enqueueFails (k : Nat) (added : Bool) (message : Text)
  | randomUuid (k : Nat) (u : Uuid)
  | extract (k : Nat) (result : Except Ingest.ExtractError (List Ingest.Page))
  | tokenCounter (k : Nat) (result : Except Text (Text → Nat))
  | embed (k : Nat) (result : Except Text (List Embedding))
  | deliver (jobId : Text)
  | promote (jobId : Text)
  | stall (jobId : Text)
  | finish (k : Nat)
  | crash (k : Nat)

namespace Machine

def setTask (s : Machine) (k : Nat) (state : TaskState) : Machine :=
  { s with tasks := s.tasks.modify k fun task => { task with state } }

def commit (s : Machine) (k : Nat) (q : Request) (r : Response) (log : List Write) : Machine :=
  { s with
    db := engine.view log s.db
    history := ⟨k, q, r⟩ :: s.history }

def withQueue (s : Machine) (queue : Queue) : Machine := { s with queue }

/-- The error leads to another attempt of the job. -/
def retries (job : Job) (e : Thrown) : Bool := e.recoverable && job.attemptsMade + 1 < queuePolicy.attempts

/-- The queue after task `k` has ended; `job` is what the worker has got. -/
def settle (queue : Queue) (k : Nat) : Option Job → Except Thrown Unit → Queue
  | none, _ => queue
  | some _, .ok () => queue.complete queuePolicy k
  | some job, .error e => if retries job e then queue.retry k else queue.fail queuePolicy k

section
variable (digest : List UInt8 → Text) (describe : SqlState → Text)

/-- What the worker runs for a job. -/
def attempt (job : Job) : Service Reply := do
  return .ingested (← Service.processDocumentJob describe job.data job.attemptsMade queuePolicy.attempts)

def step (s : Machine) : Move → Option Machine
  | .tick d => some { s with now := s.now + d }
  | .request c => some { s with tasks := s.tasks ++ [⟨none, .running c.service⟩] }
  | .transact k choices =>
      match s.tasks[k]? with
      | some ⟨_, .running (.transact q next)⟩ =>
          match (program digest q).alone engine s.now s.db [] choices with
          | (.ok r, log, _) => some ((s.commit k q r log).setTask k (.running (next (.ok r))))
          | (.error e, _, _) => some (s.setTask k (.running (next (.error (.failure e)))))
      | _ => none
  | .disconnect k choices committed message =>
      match s.tasks[k]? with
      | some ⟨_, .running (.transact q next)⟩ =>
          let state := .running (next (.error (plain message)))
          if committed then
            match (program digest q).alone engine s.now s.db [] choices with
            | (.ok r, log, _) => some ((s.commit k q r log).setTask k state)
            | (.error _, _, _) => none
          else some (s.setTask k state)
      | _ => none
  | .enqueue k =>
      match s.tasks[k]? with
      | some ⟨_, .running (.enqueue jobId data next)⟩ =>
          some ((s.withQueue (s.queue.add jobId data)).setTask k (.running (next (.ok ()))))
      | _ => none
  | .enqueueFails k added message =>
      match s.tasks[k]? with
      | some ⟨_, .running (.enqueue jobId data next)⟩ =>
          some ((s.withQueue (if added then s.queue.add jobId data else s.queue)).setTask k
            (.running (next (.error (plain message)))))
      | _ => none
  | .randomUuid k u =>
      match s.tasks[k]? with
      | some ⟨_, .running (.randomUuid next)⟩ => some (s.setTask k (.running (next u)))
      | _ => none
  | .extract k result =>
      match s.tasks[k]? with
      | some ⟨_, .running (.extract _ next)⟩ =>
          some (s.setTask k (.running (next (result.mapError Thrown.ofExtract))))
      | _ => none
  | .tokenCounter k result =>
      match s.tasks[k]? with
      | some ⟨_, .running (.tokenCounter next)⟩ => some (s.setTask k (.running (next (result.mapError plain))))
      | _ => none
  | .embed k result =>
      match s.tasks[k]? with
      | some ⟨_, .running (.embed _ next)⟩ => some (s.setTask k (.running (next (result.mapError plain))))
      | _ => none
  | .deliver jobId =>
      match s.queue.waitingJob jobId with
      | some job =>
          some { s with
            tasks := s.tasks ++ [⟨some job, .running (attempt describe job)⟩]
            queue := s.queue.deliver job s.tasks.length }
      | none => none
  | .promote jobId => some (s.withQueue (s.queue.promote jobId))
  | .stall jobId =>
      match s.queue.activeJob jobId with
      | some job => some (s.withQueue (s.queue.stall queuePolicy job))
      | none => none
  | .finish k =>
      match s.tasks[k]? with
      | some ⟨job, .running (.ret _)⟩ => some ((s.withQueue (settle s.queue k job (.ok ()))).setTask k .ended)
      | some ⟨job, .running (.throw e)⟩ => some ((s.withQueue (settle s.queue k job (.error e))).setTask k .ended)
      | _ => none
  | .crash k =>
      match s.tasks[k]? with
      | some ⟨_, .running _⟩ => some (s.setTask k .crashed)
      | _ => none

def run : Machine → List Move → Option Machine
  | s, [] => some s
  | s, l :: ls => (s.step digest describe l).bind fun s' => run s' ls

/-- The machines of all runs whose steps satisfy `ok`. -/
inductive Runs (ok : Machine → Move → Prop) : Machine → Prop
  | init : Runs ok .init
  | step {s s' : Machine} {l : Move} : Runs ok s → ok s l → s.step digest describe l = some s' → Runs ok s'

/-- Every step of an executed list satisfies `ok`. -/
def Admits (ok : Machine → Move → Bool) : Machine → List Move → Bool
  | _, [] => true
  | s, l :: ls => ok s l && (s.step digest describe l).all fun s' => Admits ok s' ls

end

/-- Task `k` is about to do `p`. -/
def Running (s : Machine) (k : Nat) (job : Option Job) (p : Service Reply) : Prop :=
  s.tasks[k]? = some ⟨job, .running p⟩

end Machine

/-! ## What a step can do -/

/-- A library answers task `k`. -/
def Move.Answers (k : Nat) : Move → Prop
  | .randomUuid u _ | .extract u _ | .tokenCounter u _ | .embed u _ => u = k
  | _ => False

/-- The service goes on with an answer that changes neither database nor queue. -/
inductive Service.Answered {α : Type} : Service α → Service α → Prop
  | randomUuid {next} (u : Uuid) : Answered (.randomUuid next) (next u)
  | extract {bytes next} (result : Except Ingest.ExtractError (List Ingest.Page)) :
      Answered (.extract bytes next) (next (result.mapError Thrown.ofExtract))
  | tokenCounter {next} (result : Except Text (Text → Nat)) : Answered (.tokenCounter next) (next (result.mapError plain))
  | embed {texts next} (result : Except Text (List Embedding)) : Answered (.embed texts next) (next (result.mapError plain))

namespace Machine

inductive Moves (digest : List UInt8 → Text) (describe : SqlState → Text) (s : Machine) : Move → Machine → Prop
  | tick (d : Nat) : Moves digest describe s (.tick d) { s with now := s.now + d }
  | request (c : ClientRequest) :
      Moves digest describe s (.request c) { s with tasks := s.tasks ++ [⟨none, .running c.service⟩] }
  | committed {k choices job q next r log rest} : s.Running k job (.transact q next) →
      (program digest q).alone engine s.now s.db [] choices = (.ok r, log, rest) → Commit digest Eq s.db s.now q r log →
      Moves digest describe s (.transact k choices) ((s.commit k q r log).setTask k (.running (next (.ok r))))
  | refused {k choices job q next e log rest} : s.Running k job (.transact q next) →
      (program digest q).alone engine s.now s.db [] choices = (.error e, log, rest) →
      Moves digest describe s (.transact k choices) (s.setTask k (.running (next (.error (.failure e)))))
  | cutOff {k choices message job q next r log rest} : s.Running k job (.transact q next) →
      (program digest q).alone engine s.now s.db [] choices = (.ok r, log, rest) → Commit digest Eq s.db s.now q r log →
      Moves digest describe s (.disconnect k choices true message)
        ((s.commit k q r log).setTask k (.running (next (.error (plain message)))))
  | disconnected {k choices message job q next} : s.Running k job (.transact q next) →
      Moves digest describe s (.disconnect k choices false message) (s.setTask k (.running (next (.error (plain message)))))
  | enqueued {k job jobId data next} : s.Running k job (.enqueue jobId data next) →
      Moves digest describe s (.enqueue k)
        ((s.withQueue (s.queue.add jobId data)).setTask k (.running (next (.ok ()))))
  | enqueuedUnseen {k message job jobId data next} : s.Running k job (.enqueue jobId data next) →
      Moves digest describe s (.enqueueFails k true message)
        ((s.withQueue (s.queue.add jobId data)).setTask k (.running (next (.error (plain message)))))
  | dropped {k message job jobId data next} : s.Running k job (.enqueue jobId data next) →
      Moves digest describe s (.enqueueFails k false message) (s.setTask k (.running (next (.error (plain message)))))
  | answered {l k job p p'} : l.Answers k → s.Running k job p → p.Answered p' →
      Moves digest describe s l (s.setTask k (.running p'))
  | delivered {job} : job ∈ s.queue.jobs → job.state = .waiting →
      Moves digest describe s (.deliver job.id)
        { s with
          tasks := s.tasks ++ [⟨some job, .running (attempt describe job)⟩]
          queue := s.queue.deliver job s.tasks.length }
  | promoted {jobId} : Moves digest describe s (.promote jobId) (s.withQueue (s.queue.promote jobId))
  | stalled {job} : job ∈ s.queue.jobs → job.isActive = true →
      Moves digest describe s (.stall job.id) (s.withQueue (s.queue.stall queuePolicy job))
  | returned {k job r} : s.Running k job (.ret r) →
      Moves digest describe s (.finish k) ((s.withQueue (settle s.queue k job (.ok ()))).setTask k .ended)
  | threw {k job e} : s.Running k job (.throw e) →
      Moves digest describe s (.finish k) ((s.withQueue (settle s.queue k job (.error e))).setTask k .ended)
  | crashed {k job p} : s.Running k job p → Moves digest describe s (.crash k) (s.setTask k .crashed)

variable {digest : List UInt8 → Text} {describe : SqlState → Text} {s s' : Machine} {l : Move}

theorem moves_of_step (hconsistent : Consistent digest s.db) (h : s.step digest describe l = some s') :
    Moves digest describe s l s' := by
  cases l with
  | tick d =>
      cases h
      exact .tick d
  | request c =>
      cases h
      exact .request c
  | transact k choices =>
      simp only [step] at h
      split at h
      · next job q next hget =>
        split at h
        · next r log rest hrun =>
          cases h
          exact .committed hget hrun (commit_of_alone hconsistent hrun)
        · next e log rest hrun =>
          cases h
          exact .refused hget hrun
      · cases h
  | disconnect k choices committed message =>
      simp only [step] at h
      split at h
      · next job q next hget =>
        cases committed with
        | true =>
            rw [if_pos rfl] at h
            split at h
            · next r log rest hrun =>
              cases h
              exact .cutOff hget hrun (commit_of_alone hconsistent hrun)
            · cases h
        | false =>
            cases h
            exact .disconnected hget
      · cases h
  | enqueue k =>
      simp only [step] at h
      split at h
      · next job jobId data next hget =>
        cases h
        exact .enqueued hget
      · cases h
  | enqueueFails k added message =>
      simp only [step] at h
      split at h
      · next job jobId data next hget =>
        cases h
        cases added with
        | true => exact .enqueuedUnseen hget
        | false => exact .dropped hget
      · cases h
  | randomUuid k u =>
      simp only [step] at h
      split at h
      · next job next hget =>
        cases h
        exact .answered rfl hget (.randomUuid u)
      · cases h
  | extract k result =>
      simp only [step] at h
      split at h
      · next job bytes next hget =>
        cases h
        exact .answered rfl hget (.extract result)
      · cases h
  | tokenCounter k result =>
      simp only [step] at h
      split at h
      · next job next hget =>
        cases h
        exact .answered rfl hget (.tokenCounter result)
      · cases h
  | embed k result =>
      simp only [step] at h
      split at h
      · next job texts next hget =>
        cases h
        exact .answered rfl hget (.embed result)
      · cases h
  | deliver jobId =>
      simp only [step] at h
      split at h
      · next job hjob =>
        cases h
        have hp := List.find?_some hjob
        rw [Bool.and_eq_true, decide_eq_true_iff, decide_eq_true_iff] at hp
        exact hp.1 ▸ .delivered (List.mem_of_find?_eq_some hjob) hp.2
      · cases h
  | promote jobId =>
      cases h
      exact .promoted
  | stall jobId =>
      simp only [step] at h
      split at h
      · next job hjob =>
        cases h
        have hp := List.find?_some hjob
        rw [Bool.and_eq_true, decide_eq_true_iff] at hp
        exact hp.1 ▸ .stalled (List.mem_of_find?_eq_some hjob) hp.2
      · cases h
  | finish k =>
      simp only [step] at h
      split at h
      · next job r hget =>
        cases h
        exact .returned hget
      · next job e hget =>
        cases h
        exact .threw hget
      · cases h
  | crash k =>
      simp only [step] at h
      split at h
      · next job p hget =>
        cases h
        exact .crashed hget
      · cases h

/-! ## Tasks -/

@[simp] theorem setTask_db (s : Machine) (k : Nat) (state : TaskState) : (s.setTask k state).db = s.db := rfl

@[simp] theorem setTask_queue (s : Machine) (k : Nat) (state : TaskState) : (s.setTask k state).queue = s.queue := rfl

@[simp] theorem setTask_history (s : Machine) (k : Nat) (state : TaskState) : (s.setTask k state).history = s.history := rfl

@[simp] theorem withQueue_db (s : Machine) (queue : Queue) : (s.withQueue queue).db = s.db := rfl

@[simp] theorem withQueue_queue (s : Machine) (queue : Queue) : (s.withQueue queue).queue = queue := rfl

@[simp] theorem withQueue_tasks (s : Machine) (queue : Queue) : (s.withQueue queue).tasks = s.tasks := rfl

@[simp] theorem commit_tasks (s : Machine) (k : Nat) (q : Request) (r : Response) (log : List Write) :
    (s.commit k q r log).tasks = s.tasks := rfl

@[simp] theorem commit_queue (s : Machine) (k : Nat) (q : Request) (r : Response) (log : List Write) :
    (s.commit k q r log).queue = s.queue := rfl

theorem setTask_get (s : Machine) (k : Nat) (state : TaskState) (u : Nat) :
    (s.setTask k state).tasks[u]? =
      if k = u then (s.tasks[u]?).map fun task => { task with state } else s.tasks[u]? := by
  simp only [setTask, List.getElem?_modify]
  split <;> simp

theorem setTask_self {k : Nat} {job : Option Job} {state₀ : TaskState} (h : s.tasks[k]? = some ⟨job, state₀⟩)
    (state : TaskState) : (s.setTask k state).tasks[k]? = some ⟨job, state⟩ := by
  rw [setTask_get, if_pos rfl, h]
  rfl

theorem setTask_ne {k u : Nat} (h : k ≠ u) (state : TaskState) : (s.setTask k state).tasks[u]? = s.tasks[u]? := by
  rw [setTask_get, if_neg h]

theorem running_setTask {k u : Nat} {state : TaskState} {job : Option Job} {p : Service Reply}
    (h : (s.setTask k state).Running u job p) :
    (u ≠ k ∧ s.Running u job p) ∨ (u = k ∧ state = .running p ∧ ∃ state₀, s.tasks[k]? = some ⟨job, state₀⟩) := by
  unfold Running at h
  rw [setTask_get] at h
  split at h
  · next hu =>
    obtain ⟨task, htask, heq⟩ := Option.map_eq_some_iff.mp h
    obtain ⟨hjob, hstate⟩ := Task.mk.inj heq
    exact Or.inr ⟨hu.symm, hstate, task.state, by rw [hu, htask, ← hjob]⟩
  · next hu => exact Or.inl ⟨fun heq => hu heq.symm, h⟩

/-- A task of a longer list is one of the list, or the new one. -/
theorem running_append {task : Task} {u : Nat} {job : Option Job} {p : Service Reply}
    (h : (s.tasks ++ [task])[u]? = some ⟨job, .running p⟩) :
    s.Running u job p ∨ (u = s.tasks.length ∧ task = ⟨job, .running p⟩) := by
  rw [List.getElem?_append] at h
  split at h
  · exact Or.inl h
  · next hlen =>
    rw [List.getElem?_singleton] at h
    split at h
    · exact Or.inr ⟨by omega, Option.some.inj h⟩
    · cases h

/-! ## Runs -/

theorem step_transact {k : Nat} {job : Option Job} {q : Request} {next : Except Thrown Response → Service Reply}
    (hrun : s.Running k job (.transact q next)) {choices rest : Nat → Choice} {r : Response} {log : List Write}
    (halone : (program digest q).alone engine s.now s.db [] choices = (.ok r, log, rest)) :
    s.step digest describe (.transact k choices) = some ((s.commit k q r log).setTask k (.running (next (.ok r)))) := by
  unfold Running at hrun
  simp only [step, hrun, halone]

theorem step_enqueue {k : Nat} {job : Option Job} {jobId : Text} {data : DocumentRequest}
    {next : Except Thrown Unit → Service Reply} (hrun : s.Running k job (.enqueue jobId data next)) :
    s.step digest describe (.enqueue k) =
      some ((s.withQueue (s.queue.add jobId data)).setTask k (.running (next (.ok ())))) := by
  unfold Running at hrun
  simp only [step, hrun]

theorem run_append (s : Machine) (ls ls' : List Move) :
    run digest describe s (ls ++ ls') = (run digest describe s ls).bind fun s' => run digest describe s' ls' := by
  induction ls generalizing s with
  | nil => rfl
  | cons l ls ih =>
      rw [List.cons_append, run, run, Option.bind_assoc]
      exact congrArg _ (funext ih)

theorem runs_of_admits {P : Machine → Move → Prop} {ok : Machine → Move → Bool} (hok : ∀ s l, ok s l = true → P s l)
    {ls : List Move} (h : Runs digest describe P s) (hall : Admits digest describe ok s ls = true)
    (hrun : run digest describe s ls = some s') : Runs digest describe P s' := by
  induction ls generalizing s with
  | nil =>
      cases hrun
      exact h
  | cons l ls ih =>
      obtain ⟨s₁, hstep, hrest⟩ := Option.bind_eq_some_iff.mp hrun
      obtain ⟨hl, hls⟩ := Bool.and_eq_true_iff.mp hall
      rw [hstep] at hls
      exact ih (h.step (hok s l hl) hstep) hls hrest

/-- A step leaves the database as it is, or commits one transaction. -/
theorem db_of_moves (h : Moves digest describe s l s') :
    s'.db = s.db ∨ ∃ q r log, Commit digest Eq s.db s.now q r log ∧ s'.db = engine.view log s.db := by
  cases h with
  | committed _ _ hcommit => exact Or.inr ⟨_, _, _, hcommit, rfl⟩
  | cutOff _ _ hcommit => exact Or.inr ⟨_, _, _, hcommit, rfl⟩
  | tick _ | request _ | refused _ _ | disconnected _ | enqueued _ | enqueuedUnseen _ | dropped _ | answered _ _ _
  | delivered _ _ | promoted | stalled _ _ | returned _ | threw _ | crashed _ => exact Or.inl rfl

theorem consistent_of_runs {ok : Machine → Move → Prop} (h : Runs digest describe ok s) : Consistent digest s.db := by
  induction h with
  | init => exact Consistent.empty digest
  | step _ _ hstep ih =>
      rcases db_of_moves (moves_of_step ih hstep) with hdb | ⟨_, _, _, hcommit, hdb⟩
      · exact hdb ▸ ih
      · exact hdb ▸ hcommit.consistent ih

end Machine

end FinSight.Documents
