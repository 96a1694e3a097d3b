import FinSight.Guarantees.Served

/-!
# Documents in processing

* `HasJob` : a job of the document is active, waiting or delayed;
* `Attended` : no step loses the last job that serves a document in processing, and no claim moves a pending document that
  no job serves;
* `hasJob_of_attended`, `not_hasJob`.
-/

namespace FinSight.Documents

open ReadCommitted

/-- A job of the document is active, waiting or delayed. -/
def Machine.HasJob (s : Machine) (d : Document) : Prop :=
  ∃ job ∈ s.queue.jobs, d.is job.data.documentId.uuid job.data.tenantId = true

instance (s : Machine) (d : Document) : Decidable (s.HasJob d) :=
  inferInstanceAs (Decidable (∃ job ∈ s.queue.jobs, d.is job.data.documentId.uuid job.data.tenantId = true))

/-- The step runs the transaction of task `k`, and commits it if it does not fail. -/
def Move.Commits (l : Move) (k : Nat) : Prop :=
  ∃ choices, l = .transact k choices ∨ ∃ message, l = .disconnect k choices true message

structure Attended (s : Machine) (l : Move) : Prop where
  keeps : ∀ d ∈ s.db.documents, d.status = .processing → ∀ job, s.Serving d job → s.Loses l job →
    ∃ job', s.Serving d job' ∧ ¬ s.Loses l job'
  claims : ∀ k j r next, s.Running k j (.transact (.claimDocument r) next) → l.Commits k →
    ∀ d, Matches s.db r [.pending] d → s.Served d

variable {digest : List UInt8 → Text} {describe : SqlState → Text} {s s' : Machine} {l : Move} {d d' : Document}

/-- The task whose transaction has committed. -/
theorem running_of_evolves (hm : Machine.Moves digest describe s l s') (hconsistent : Consistent digest s.db)
    (hd' : d' ∈ s'.db.documents) (hnew : d' ∉ s.db.documents) :
    ∃ k j q next, s.Running k j (.transact q next) ∧ l.Commits k ∧ Evolves s.db d' q := by
  cases hm with
  | committed hrun _ hcommit =>
      exact ⟨_, _, _, _, hrun, ⟨_, Or.inl rfl⟩, evolves_of_commit hconsistent hcommit hd'⟩
  | cutOff hrun _ hcommit =>
      exact ⟨_, _, _, _, hrun, ⟨_, Or.inr ⟨_, rfl⟩⟩, evolves_of_commit hconsistent hcommit hd'⟩
  | tick _ | request _ | refused _ _ | disconnected _ | enqueued _ | enqueuedUnseen _ | dropped _ | answered _ _ _
  | delivered _ _ | promoted | stalled _ _ | returned _ | threw _ | crashed _ => exact absurd hd' hnew

/-- A claim loses no job. -/
theorem not_loses_of_claim {k : Nat} {j : Option Job} {r : DocumentRequest} {next : Except Thrown Response → Service Reply}
    (hrun : s.Running k j (.transact (.claimDocument r) next)) (hcommits : l.Commits k) {job : Job} : ¬ s.Loses l job := by
  obtain ⟨choices, hl⟩ := hcommits
  intro hlose
  cases hlose with
  | stalled hstall _ _ =>
      rcases hl with rfl | ⟨message, rfl⟩
      · cases hstall
      · cases hstall
  | @unmarked k' _ _ _ _ _ _ hrun' hl' =>
      have hk : k' = k := by
        rcases hl with rfl | ⟨message, rfl⟩
        · rcases hl' with ⟨h, _⟩ | ⟨m, h⟩
          · cases h
            rfl
          · cases h
        · rcases hl' with ⟨h, _⟩ | ⟨m, h⟩
          · cases h
          · cases h
      subst hk
      cases congrArg Task.state (Option.some.inj (hrun.symm.trans hrun'))

theorem served_of_attended (h : Machine.Runs digest describe Attended s) :
    ∀ d ∈ s.db.documents, d.status = .processing → s.Served d := by
  induction h with
  | init => exact fun d hd => absurd hd List.not_mem_nil
  | @step s s' l hruns hok hstep ih =>
      intro d' hd' hprocessing
      have hconsistent := Machine.consistent_of_runs hruns
      have hm := Machine.moves_of_step hconsistent hstep
      by_cases hold : d' ∈ s.db.documents
      · obtain ⟨job, hserving⟩ := ih d' hold hprocessing
        have hkept : ∃ job', s.Serving d' job' ∧ ¬ s.Loses l job' := by
          by_cases hlose : s.Loses l job
          · exact hok.keeps d' hold hprocessing job hserving hlose
          · exact ⟨job, hserving, hlose⟩
        obtain ⟨job', hserving', hkept⟩ := hkept
        exact hserving'.step hconsistent hm hkept hold hd' rfl rfl (Or.inr hprocessing) (Or.inl rfl)
      · obtain ⟨k, j, q, next, hrun, hcommits, hevolves⟩ := running_of_evolves hm hconsistent hd' hold
        cases hevolves with
        | same h => exact absurd h hold
        | created hpending _ _ =>
            rw [hprocessing] at hpending
            cases hpending
        | retried _ hset hpending =>
            rw [hset, Document.set, hpending] at hprocessing
            cases hprocessing
        | closed _ hset hclosed =>
            rw [hset] at hprocessing
            rcases hclosed with h | h
            · exact absurd (h.symm.trans hprocessing) (by decide)
            · exact absurd (h.symm.trans hprocessing) (by decide)
        | @claimed r d _ hmatch hset _ =>
            have hopen : d.status = .pending ∨ d.status = .processing := by simpa using hmatch.status
            obtain ⟨job, hserving⟩ : s.Served d := by
              rcases hopen with hpending | hprocessing
              · exact hok.claims k j r next hrun hcommits d ⟨hmatch.mem, hmatch.is, by simp [hpending]⟩
              · exact ih d hmatch.mem hprocessing
            refine hserving.step hconsistent hm (not_loses_of_claim hrun hcommits) hmatch.mem hd' ?_ ?_ hopen
              (Or.inr hprocessing)
            · rw [hset]
              rfl
            · rw [hset]
              rfl

/-- **No document is stranded in processing** where stalls and failing marks leave another job to serve it, and no claim
comes from an attempt that has lost its job when no other job is left. -/
theorem hasJob_of_attended (digest : List UInt8 → Text) (describe : SqlState → Text) (s : Machine)
    (h : Machine.Runs digest describe Attended s) : ∀ d ∈ s.db.documents, d.status = .processing → s.HasJob d := by
  intro d hd hprocessing
  obtain ⟨job, hserving⟩ := served_of_attended h d hd hprocessing
  exact ⟨job, hserving.mem, hserving.is⟩

/-! ## Two runs -/

namespace Shift

/-- Neither a claim, nor a step that could lose a job. -/
def steady (s : Machine) : Move → Bool
  | .stall _ | .disconnect _ _ _ _ => false
  | .transact k _ => match s.tasks[k]? with
    | some ⟨_, .running (.transact (.markDocumentsFailed _ _) _)⟩ => false
    | some ⟨_, .running (.transact (.claimDocument _) _)⟩ => false
    | _ => true
  | _ => true

theorem attended_of_steady (h : steady s l = true) : Attended s l where
  keeps d _ _ job _ hlose := by
    cases hlose with
    | stalled hl _ _ =>
        subst hl
        cases h
    | unmarked _ hrun hl =>
        rcases hl with ⟨rfl, _⟩ | ⟨m, rfl⟩
        · simp only [steady] at h
          rw [hrun] at h
          cases h
        · cases h
  claims k j r next hrun hcommits := by
    obtain ⟨choices, rfl | ⟨message, rfl⟩⟩ := hcommits
    · simp only [steady] at h
      rw [hrun] at h
      cases h
    · cases h

/-- An attempt whose job has just been delivered may claim. -/
theorem attended_of_delivered {jobId : Text} (hm : Machine.Moves digest describe s (.deliver jobId) s')
    (choices : Nat → Choice) : Attended s' (.transact s.tasks.length choices) := by
  cases hm with
  | @delivered job hmem _ =>
      obtain ⟨next, hattempt, _⟩ := attempt_claims describe job
      have hlast : ∀ {j p}, Machine.Running { s with
            tasks := s.tasks ++ [⟨some job, .running (Machine.attempt describe job)⟩]
            queue := s.queue.deliver job s.tasks.length } s.tasks.length j p → p = Machine.attempt describe job := by
        intro j p hrun
        rcases Machine.running_append hrun with hrun | ⟨_, htask⟩
        · have hlen := (List.getElem?_eq_some_iff.mp hrun).1
          omega
        · exact (TaskState.running.inj (congrArg Task.state htask)).symm
      refine ⟨fun d _ _ job' _ hlose => ?_, fun k j r next' hrun hcommits d hmatch => ?_⟩
      · cases hlose with
        | stalled hl _ _ => cases hl
        | @unmarked k _ _ _ _ _ _ hrun hl =>
            rcases hl with ⟨hl, _⟩ | ⟨m, hl⟩
            · cases hl
              have hp := (hlast hrun).trans hattempt
              cases hp
            · cases hl
      · obtain ⟨choices', hl | ⟨message, hl⟩⟩ := hcommits
        · cases hl
          have hp := (hlast hrun).trans hattempt
          obtain rfl : r = job.data := by
            cases hp
            rfl
          refine ⟨{ job with state := .active s.tasks.length },
            JobQueue.Queue.mem_change hmem (decide_eq_true rfl), hmatch.is, fun u hu => ?_⟩
          cases hu
          refine Or.inr ⟨job, Machine.attempt describe job, ?_, attempt_serves describe job _⟩
          show (s.tasks ++ [_])[s.tasks.length]? = _
          simp
        · cases hl
  | answered hl _ _ => exact hl.elim

/-- The statuses, and how many jobs are live and failed. -/
def summary (s : Machine) : List DocumentStatus × Nat × Nat :=
  (s.db.documents.map (·.status), s.queue.jobs.length, s.queue.failed.length)

end Shift

set_option maxRecDepth 100000 in
/-- A document is uploaded and claimed. -/
theorem hasJob_of_shift : ∃ s : Machine, ∃ d ∈ s.db.documents, d.status = .processing ∧ s.HasJob d := by
  have hsummary : (Machine.run Day.hash Shift.failedQuery .init (Shift.uploaded ++ Shift.claimed 1)).map Shift.summary =
      some ([.processing], 1, 0) := by decide +kernel
  obtain ⟨s₂, hrun, hs₂⟩ := Option.map_eq_some_iff.mp hsummary
  rw [Machine.run_append, Option.bind_eq_some_iff] at hrun
  obtain ⟨s₀, hrun₀, hrest⟩ := hrun
  obtain ⟨s₁, hdeliver, hrest⟩ := Option.bind_eq_some_iff.mp hrest
  obtain ⟨s₃, hclaim, hrest⟩ := Option.bind_eq_some_iff.mp hrest
  cases hrest
  have hruns₀ : Machine.Runs Day.hash Shift.failedQuery Attended s₀ :=
    Machine.runs_of_admits (fun _ _ => Shift.attended_of_steady) .init (by decide +kernel) hrun₀
  have hruns₁ := hruns₀.step (Shift.attended_of_steady (s := s₀) (l := .deliver Shift.jobId) rfl) hdeliver
  have htasks : (Machine.run Day.hash Shift.failedQuery .init Shift.uploaded).map (·.tasks.length) = some 1 := by
    decide +kernel
  rw [hrun₀] at htasks
  have hclaims : Attended s₁ (.transact 1 (Shift.choices 1)) := by
    have hmoves := Machine.moves_of_step (Machine.consistent_of_runs hruns₀) hdeliver
    exact Option.some.inj htasks ▸ Shift.attended_of_delivered hmoves (Shift.choices 1)
  have hprocessing : s₂.db.documents.map (·.status) = [.processing] := congrArg Prod.fst hs₂
  obtain ⟨d, hd, hstatus⟩ : ∃ d ∈ s₂.db.documents, d.status = .processing := by
    have hmem : DocumentStatus.processing ∈ s₂.db.documents.map (·.status) := by simp [hprocessing]
    simpa using hmem
  exact ⟨s₂, d, hd, hstatus, hasJob_of_attended Day.hash Shift.failedQuery s₂ (hruns₁.step hclaims hclaim) d hd hstatus⟩

set_option maxRecDepth 100000 in
/-- **A worker dies twice over one document.** Its job is moved to failed, and the document stays in processing. -/
theorem not_hasJob : ¬ ∀ s, Machine.Runs Day.hash Shift.failedQuery (fun _ _ => True) s →
    ∀ d ∈ s.db.documents, d.status = .processing → s.HasJob d := by
  intro hall
  obtain ⟨s, hs, hsummary⟩ := Shift.runs (fun _ _ => True) (fun _ _ => true) (fun _ _ _ => trivial)
    (Shift.uploaded ++ Shift.claimed 1 ++ [.crash 1, .stall Shift.jobId] ++ Shift.claimed 2 ++
      [.crash 2, .stall Shift.jobId])
    Shift.summary (a := ([.processing], 0, 1)) (by decide +kernel) (by decide +kernel)
  obtain ⟨hstatus, hcounts⟩ := Prod.mk.inj hsummary
  have hmem : DocumentStatus.processing ∈ s.db.documents.map (·.status) := by simp [hstatus]
  obtain ⟨d, hd, hprocessing⟩ := List.mem_map.mp hmem
  obtain ⟨job, hjob, _⟩ := hall s hs d hd hprocessing
  rw [List.length_eq_zero_iff.mp (Prod.mk.inj hcounts).1] at hjob
  cases hjob

end FinSight.Documents
