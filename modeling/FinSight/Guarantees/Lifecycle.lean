import FinSight.Documents.Refinement
import FinSight.ReadCommitted.Running

/-!
# The life of a document

* `Lifecycle s` : in the committed tables of `s`, status, error and chunks of each document belong together, and the
  chunks of a ready document are those of one call of `writeChunks`;
* `ready_of_commit` : where a ready document comes from, `ready_kept` : how it goes;
* `Retired` : what is known of the id of a deleted document;
* `lifecycle_of_reaches`.
-/

namespace FinSight.Documents

open ReadCommitted Documents.Sql

variable {digest : List UInt8 → Text} {ok : Sys → Event → Prop} {s s' : Sys} {l : Event}

/-- The chunk rows of a document. -/
def chunksOf (db : Db) (id : Uuid) : List DocumentChunk := db.chunks.filter fun c => c.documentId = id

/-- The chunks and the page count of `d` are those of one call of `writeChunks`, which answered `true`. -/
def WrittenOnce (s : Sys) (d : Document) : Prop :=
  ∃ call ∈ s.calls, ∃ w, call.request = .writeChunks w ∧ call.status = .finished (.returned (.written true)) ∧
    d.is w.document.documentId.uuid w.document.tenantId = true ∧ d.pageCount = some w.pageCount ∧
    StoresAll w (chunksOf s.db d.id)

structure Lifecycle (s : Sys) : Prop where
  owned : ∀ c ∈ s.db.chunks, ∃ d ∈ s.db.documents, c.of d.id d.tenantId = true
  chunks : ∀ d ∈ s.db.documents, (∃ c ∈ s.db.chunks, c.documentId = d.id) ↔ d.status = .ready
  ready : ∀ d ∈ s.db.documents, d.status = .ready → d.error = none ∧ WrittenOnce s d
  failed : ∀ d ∈ s.db.documents, d.status = .failed → d.error ≠ none
  inProgress : ∀ d ∈ s.db.documents, d.status = .pending ∨ d.status = .processing → d.error = none

/-- No row of any table names the document. -/
structure Gone (db : Db) (id : Uuid) : Prop where
  document : ∀ d ∈ db.documents, d.id ≠ id
  file : ∀ f ∈ db.files, f.documentId ≠ id
  chunks : ∀ c ∈ db.chunks, c.documentId ≠ id

/-- A call of `deleteDocument` has committed for the id. -/
def Deleted (s : Sys) (id : Uuid) : Prop :=
  ∃ call ∈ s.calls, ∃ r, call.request = .deleteDocument r ∧ call.status = .finished (.returned .deleted) ∧
    r.documentId.uuid = id

/-- The step commits a deletion of the id. -/
def Deletes (s s' : Sys) (id : Uuid) : Prop :=
  ∃ t call tx r, s.Ends s' t call tx (.returned .deleted) ∧ call.request = .deleteDocument r ∧ r.documentId.uuid = id

/-- An id that Postgres generates for a document is not that of a document deleted before. -/
def newIds (s : Sys) (l : Event) : Prop := ∀ t c, l = .exec t c → ¬ Deleted s (c.fresh 0)

/-! ## Ready documents -/

/-- **What a commit does to a ready document**: nothing, unless it deletes the document. -/
theorem ready_kept {db : Db} (h : Consistent digest db) {grow : Db → Db → Prop} {now : Timestamp} {q : Request}
    {r : Response} {log : List Write} (hc : Commit digest grow db now q r log) {d : Document} (hd : d ∈ db.documents)
    (hready : d.status = .ready) :
    (d ∈ (engine.view log db).documents ∧ chunksOf (engine.view log db) d.id = chunksOf db d.id) ∨
      ∃ req, q = .deleteDocument req ∧ r = .deleted ∧ req.documentId.uuid = d.id := by
  have hupdate : ∀ {req : DocumentRequest} {statuses : List DocumentStatus} {e : Document} {state : DocumentState},
      Matches db req statuses e → .ready ∉ statuses → d ∈ setDocument e.id state db.documents := by
    intro req statuses e state hm hnot
    refine (h.mem_update hm.mem).mpr (Or.inr ⟨hd, fun hid => hnot ?_⟩)
    rw [← hready, h.eq_of_id hd hm.mem hid]
    exact hm.status
  cases hc with
  | created _ hnew => exact Or.inl ⟨List.mem_append_left _ hd, rfl⟩
  | existing _ _ => exact Or.inl ⟨hd, rfl⟩
  | document _ => exact Or.inl ⟨hd, rfl⟩
  | retried hm => exact Or.inl ⟨hupdate hm (by decide), rfl⟩
  | @deleted req e hm =>
      by_cases hid : d.id = e.id
      · exact Or.inr ⟨req, rfl, rfl, (Document.is_iff.mp hm.is).1.symm.trans hid.symm⟩
      · refine Or.inl ⟨List.mem_filter.mpr ⟨hd, ?_⟩, ?_⟩
        · rw [Bool.not_eq_true', Bool.eq_false_iff]
          exact fun his => hid (Document.is_iff.mp his).1
        · have hother : ∀ c ∈ db.chunks, decide (c.documentId = d.id) = true → c.of e.id e.tenantId = false := by
            intro c _ hc
            simp [DocumentChunk.of, of_decide_eq_true hc, hid]
          show ((db.chunks.filter fun c => !c.of e.id e.tenantId).filter fun c => !c.of e.id e.tenantId).filter _ = _
          rw [filter_filter_not fun c hc hp => hother c (List.mem_filter.mp hc).1 hp, filter_filter_not hother]
          rfl
  | claimed hm => exact Or.inl ⟨hupdate hm (by decide), rfl⟩
  | unclaimed _ => exact Or.inl ⟨hd, rfl⟩
  | file _ => exact Or.inl ⟨hd, rfl⟩
  | @written w e rows hm hrows =>
      have hid : d.id ≠ e.id := by
        intro hid
        have hstatus := hm.status
        rw [← h.eq_of_id hd hm.mem hid, hready] at hstatus
        simp at hstatus
      rw [Engine.view_cons, Engine.view_cons, view_chunks]
      refine Or.inl ⟨hupdate hm (by decide), ?_⟩
      have hother : ∀ c ∈ db.chunks, decide (c.documentId = d.id) = true → c.of e.id e.tenantId = false := by
        intro c _ hc
        simp [DocumentChunk.of, of_decide_eq_true hc, hid]
      have hnone : rows.filter (fun c => c.documentId = d.id) = [] := by
        rw [List.filter_eq_nil_iff]
        intro c hc hp
        exact hid ((of_decide_eq_true hp).symm.trans (DocumentChunk.of_iff.mp (hrows.owner c hc)).1)
      show ((db.chunks.filter fun c => !c.of e.id e.tenantId) ++ rows).filter _ = _
      rw [List.filter_append, hnone, List.append_nil, filter_filter_not hother]
      rfl
  | lost _ => exact Or.inl ⟨hd, rfl⟩
  | marked hm => exact Or.inl ⟨hupdate hm (by decide), rfl⟩
  | unmarked _ => exact Or.inl ⟨hd, rfl⟩

/-- **Where a ready document comes from**: it was ready, or this commit has written its chunks. -/
theorem ready_of_commit {db : Db} (h : Consistent digest db) {grow : Db → Db → Prop} {now : Timestamp} {q : Request}
    {r : Response} {log : List Write} (hc : Commit digest grow db now q r log) {d : Document}
    (hd : d ∈ (engine.view log db).documents) (hready : d.status = .ready) :
    (d ∈ db.documents ∧ chunksOf (engine.view log db) d.id = chunksOf db d.id) ∨
      ∃ w, q = .writeChunks w ∧ r = .written true ∧ d.is w.document.documentId.uuid w.document.tenantId = true ∧
        d.pageCount = some w.pageCount ∧ StoresAll w (chunksOf (engine.view log db) d.id) := by
  have hold : ∀ {e : Document}, e ∈ db.documents → e = d →
      (d ∈ db.documents ∧ chunksOf (engine.view log db) d.id = chunksOf db d.id) := by
    rintro e he rfl
    rcases ready_kept h hc he hready with ⟨_, hchunks⟩ | ⟨req, rfl, rfl, hreq⟩
    · exact ⟨he, hchunks⟩
    · cases hc with
      | @deleted _ x hm =>
          have hx : x = e := h.eq_of_id hm.mem he ((Document.is_iff.mp hm.is).1.trans hreq)
          subst hx
          have his := (List.mem_filter.mp hd).2
          rw [Document.is_iff.mpr ⟨rfl, rfl⟩] at his
          cases his
  have hupdate : ∀ {req : DocumentRequest} {statuses : List DocumentStatus} {e : Document} {state : DocumentState},
      Matches db req statuses e → state.status ≠ .ready → d ∈ setDocument e.id state db.documents →
      (d ∈ db.documents ∧ chunksOf (engine.view log db) d.id = chunksOf db d.id) := by
    intro req statuses e state hm hstate hmem
    rcases (h.mem_update hm.mem).mp hmem with rfl | ⟨hmem, _⟩
    · exact absurd hready hstate
    · exact hold hmem rfl
  cases hc with
  | @created r _ x _ _ hnew =>
      rcases List.mem_append.mp hd with hd | hd
      · exact Or.inl (hold hd rfl)
      · rw [List.mem_singleton.mp hd, hnew.row] at hready
        cases hready
  | existing _ _ => exact Or.inl (hold hd rfl)
  | document _ => exact Or.inl (hold hd rfl)
  | retried hm => exact Or.inl (hupdate hm (by simp [retryState]) hd)
  | deleted hm => exact Or.inl (hold (List.mem_filter.mp hd).1 rfl)
  | claimed hm => exact Or.inl (hupdate hm (by simp [claimState]) hd)
  | unclaimed _ => exact Or.inl (hold hd rfl)
  | file _ => exact Or.inl (hold hd rfl)
  | @written w e rows hm hrows =>
      have hview : (engine.view (.updateDocument e.id (readyState now w.pageCount e) :: .deleteChunks e.id e.tenantId ::
          rows.map .chunk) db).documents = setDocument e.id (readyState now w.pageCount e) db.documents := by
        rw [Engine.view_cons, Engine.view_cons, view_chunks]
        rfl
      rw [hview] at hd
      rcases (h.mem_update hm.mem).mp hd with rfl | ⟨hd, _⟩
      · refine Or.inr ⟨w, rfl, rfl, hm.is, rfl, ?_⟩
        have hnone : db.chunks.filter (fun c => c.documentId = e.id) = [] := by
          rw [List.filter_eq_nil_iff]
          intro c hc hp
          refine h.no_chunks hm.mem ?_ hc (of_decide_eq_true hp)
          rw [List.mem_singleton.mp hm.status]
          decide
        have hall : rows.filter (fun c => c.documentId = e.id) = rows := by
          rw [List.filter_eq_self]
          exact fun c hc => decide_eq_true (DocumentChunk.of_iff.mp (hrows.owner c hc)).1
        have hold : (db.chunks.filter fun c => !c.of e.id e.tenantId).filter (fun c => c.documentId = e.id) = [] := by
          rw [List.filter_eq_nil_iff] at hnone ⊢
          exact fun c hc hp => hnone c (List.mem_filter.mp hc).1 hp
        rw [Engine.view_cons, Engine.view_cons, view_chunks]
        show StoresAll w (((db.chunks.filter fun c => !c.of e.id e.tenantId) ++ rows).filter fun c => c.documentId = e.id)
        rw [List.filter_append, hold, hall, List.nil_append]
        exact hrows.stores
      · exact Or.inl (hold hd rfl)
  | lost _ => exact Or.inl (hold hd rfl)
  | marked hm => exact Or.inl (hupdate hm (by simp [failedState]) hd)
  | unmarked _ => exact Or.inl (hold hd rfl)

/-! ## States -/

/-- A call that has ended is still there after a step. -/
theorem finished_kept (hstep : s.step engine (program digest) l = some s')
    {call : Call Db Write Lock Failure Choice Request Response}
    (hcall : call ∈ s.calls) {o : Outcome Failure Response} (ho : call.status = .finished o) : call ∈ s'.calls := by
  obtain ⟨t, hget⟩ := List.mem_iff_getElem?.mp hcall
  obtain ⟨st, hget', hst⟩ := System.step_keeps hstep hget
  rw [hst o ho] at hget'
  exact List.mem_iff_getElem?.mpr ⟨t, hget'⟩

theorem WrittenOnce.step (hstep : s.step engine (program digest) l = some s') {d : Document} (h : WrittenOnce s d)
    (hchunks : chunksOf s'.db d.id = chunksOf s.db d.id) : WrittenOnce s' d := by
  obtain ⟨call, hcall, w, hrequest, hstatus, his, hpages, hrows⟩ := h
  exact ⟨call, finished_kept hstep hcall hstatus, w, hrequest, hstatus, his, hpages, hchunks ▸ hrows⟩

theorem writtenOnce_of_reaches (h : Reaches digest ok s) : ∀ d ∈ s.db.documents, d.status = .ready → WrittenOnce s d := by
  induction h with
  | refl => exact fun d hd => absurd hd List.not_mem_nil
  | @step s s' l hrun _ hstep ih =>
      intro d hd hready
      have hconsistent := consistent_of_reaches hrun
      cases commit_of_step hrun hstep with
      | quiet hdb =>
          rw [hdb] at hd
          exact (ih d hd hready).step hstep (by rw [hdb])
      | @commit t call tx r hl hrunning _ hcommit hs' =>
          have hdb : s'.db = engine.view tx.log s.db := by rw [hs']
          rw [hdb] at hd
          rcases ready_of_commit hconsistent hcommit hd hready with ⟨hold, hchunks⟩ | ⟨w, hq, rfl, his, hpages, hrows⟩
          · exact (ih d hold hready).step hstep (by rw [hdb, hchunks])
          · refine ⟨{ call with status := .finished (.returned (.written true)) }, ?_, w, hq, rfl, his, hpages, ?_⟩
            · refine List.mem_iff_getElem?.mpr ⟨t, ?_⟩
              rw [hs']
              show (s.setStatus t _).calls[t]? = _
              rw [System.setStatus_get, if_pos rfl, hrunning.get]
              rfl
            · rw [hdb]
              exact hrows

/-- Status, error and chunks belong together in every committed state. -/
theorem lifecycle (h : Reaches digest ok s) : Lifecycle s where
  owned c hc := by
    obtain ⟨d, hd, hof, _⟩ := (consistent_of_reaches h).chunks c hc
    exact ⟨d, hd, hof⟩
  chunks d hd := by
    have hconsistent := consistent_of_reaches h
    constructor
    · rintro ⟨c, hc, hid⟩
      exact (hconsistent.chunk_of hd hc hid).2
    · intro hready
      obtain ⟨⟨c, hc, hof⟩, _⟩ := hconsistent.ready d hd hready
      exact ⟨c, hc, (DocumentChunk.of_iff.mp hof).1⟩
  ready d hd hready := ⟨((consistent_of_reaches h).ready d hd hready).2.1, writtenOnce_of_reaches h d hd hready⟩
  failed := (consistent_of_reaches h).failed
  inProgress := (consistent_of_reaches h).inProgress

/-- A ready document stays as it is until it is deleted. -/
theorem ready_of_step (h : Reaches digest ok s) (hstep : s.step engine (program digest) l = some s') {d : Document}
    (hd : d ∈ s.db.documents) (hready : d.status = .ready) : d ∈ s'.db.documents ∨ Deletes s s' d.id := by
  cases commit_of_step h hstep with
  | quiet hdb => exact Or.inl (hdb ▸ hd)
  | @commit t call tx r hl hrunning _ hcommit hs' =>
      rcases ready_kept (consistent_of_reaches h) hcommit hd hready with ⟨hkept, _⟩ | ⟨req, hq, rfl, hid⟩
      · rw [hs']
        exact Or.inl hkept
      · refine Or.inr ⟨t, call, tx, req, ⟨hrunning, ?_⟩, hq, hid⟩
        rw [hs']
        show (s.setStatus t _).calls[t]? = _
        rw [System.setStatus_get, if_pos rfl, hrunning.get]
        rfl

/-! ## Deleted documents -/

/-- A new document row has the id that Postgres has generated, and its lock. -/
def NewRows (ctx : Context Choice) (ws : List Write) (ls : List Lock) : Prop :=
  ∀ row, .document row ∈ ws → row.id = ctx.choice.fresh 0 ∧ .document row.id ∈ ls

theorem newRows_of_not_mem {ctx : Context Choice} {ws : List Write} {ls : List Lock}
    (h : ∀ row, .document row ∉ ws) : NewRows ctx ws ls := fun row hrow => absurd hrow (h row)

/-- Replies of the statement add rows with generated ids only. -/
abbrev AddsNew {α : Type} (s : Stmt α) : Prop :=
  ∀ ctx db r ws ls waits, s ctx db = .done r ws ls waits → NewRows ctx ws ls

theorem addsNew_insertDocument (v : DocumentValues) : AddsNew (insertDocument v) := by
  intro ctx db r ws ls waits h
  have hreply := FinSight.Sql.done_of_checked h
  split at hreply
  · cases hreply
    exact newRows_of_not_mem (by simp)
  · have hdone := FinSight.Sql.done_of_checked hreply
    cases hdone
    intro row hrow
    obtain rfl := Write.document.inj (List.mem_singleton.mp hrow)
    exact ⟨rfl, List.mem_cons_self⟩

theorem addsNew_insertFile (v : FileValues) : AddsNew (insertFile v) := by
  intro ctx db r ws ls waits h
  have hdone := FinSight.Sql.done_of_checked h
  cases hdone
  exact newRows_of_not_mem (by simp)

theorem addsNew_insertChunks (id t : Uuid) (values : List ChunkValues) : AddsNew (insertChunks id t values) := by
  intro ctx db r ws ls waits h
  have hdone := FinSight.Sql.done_of_checked h
  cases hdone
  exact newRows_of_not_mem (by simp)

theorem addsNew_updateDocument (checks : List (Bool × SqlState)) (id t : Uuid) (statuses : List DocumentStatus)
    (set : Timestamp → DocumentState → DocumentState) : AddsNew (updateDocument checks id t statuses set) := by
  intro ctx db r ws ls waits h
  have hreply := FinSight.Sql.done_of_checked h
  split at hreply
  · cases hreply
    exact newRows_of_not_mem (by simp)
  · cases hreply
    exact newRows_of_not_mem (by simp)

theorem addsNew_selectDocumentForUpdate (id t : Uuid) : AddsNew (selectDocumentForUpdate id t) := by
  intro ctx db r ws ls waits h
  unfold selectDocumentForUpdate at h
  split at h
  · cases h
    exact newRows_of_not_mem (by simp)
  · cases h
    exact newRows_of_not_mem (by simp)

/-- Statements whose writes are none of a new document. -/
theorem addsNew_of_done {α : Type} {s : Stmt α} {f : Context Choice → Db → α} {ws : List Write}
    {ls : Db → List Lock} (hs : ∀ ctx db, s ctx db = .done (f ctx db) ws (ls db) []) (hws : ∀ row, .document row ∉ ws) :
    AddsNew s := by
  intro ctx db r ws' ls' waits h
  rw [hs] at h
  cases h
  exact newRows_of_not_mem hws

theorem every_program (q : Request) : (program digest q).Every NewRows := by
  cases q with
  | createDocument r =>
      refine Program.Every.bind ?_ fun _ => trivial
      unfold createDocument
      split
      · exact trivial
      · refine Program.Every.call (addsNew_insertDocument _) fun created => ?_
        cases created with
        | none => exact Program.Every.call (addsNew_of_done (fun _ _ => rfl) (by simp)) fun _ => trivial
        | some d => exact Program.Every.call (addsNew_insertFile _) fun _ => trivial
  | getDocument r =>
      refine Program.Every.bind (Program.Every.call (addsNew_of_done (fun _ _ => rfl) (by simp)) fun d => ?_) fun _ => trivial
      cases d <;> exact trivial
  | retryDocument r =>
      refine Program.Every.bind (Program.Every.call (addsNew_updateDocument _ _ _ _ _) fun d => ?_) fun _ => trivial
      cases d with
      | none =>
          refine Program.Every.bind (Program.Every.call (addsNew_of_done (fun _ _ => rfl) (by simp)) fun d => ?_)
            fun _ => trivial
          cases d <;> exact trivial
      | some d => exact trivial
  | deleteDocument r =>
      refine Program.Every.bind (Program.Every.call (addsNew_selectDocumentForUpdate _ _) fun d => ?_) fun _ => trivial
      cases d with
      | none => exact trivial
      | some d =>
          dsimp only
          split
          · exact trivial
          · refine Program.Every.call (addsNew_of_done (fun _ _ => rfl) (by simp)) fun _ => ?_
            refine Program.Every.call (addsNew_of_done (fun _ _ => rfl) (by simp)) fun _ => ?_
            exact ⟨addsNew_of_done (fun _ _ => rfl) (by simp), fun _ => trivial⟩
  | claimDocument r =>
      exact Program.Every.bind (Program.Every.call (addsNew_updateDocument _ _ _ _ _) fun _ => trivial) fun _ => trivial
  | selectFile r =>
      refine Program.Every.bind ?_ fun _ => trivial
      exact ⟨addsNew_of_done (fun _ _ => rfl) (by simp), fun _ => trivial⟩
  | writeChunks w =>
      refine Program.Every.bind ?_ fun _ => trivial
      unfold writeChunks
      split
      · exact trivial
      · split
        · exact trivial
        · refine Program.Every.call (addsNew_updateDocument _ _ _ _ _) fun d => ?_
          cases d with
          | none => exact trivial
          | some d =>
              refine Program.Every.call (addsNew_of_done (fun _ _ => rfl) (by simp)) fun _ => ?_
              exact Program.Every.call (addsNew_insertChunks _ _ _) fun _ => trivial
  | markDocumentsFailed r message =>
      exact Program.Every.bind (Program.Every.call (addsNew_updateDocument _ _ _ _ _) fun _ => trivial) fun _ => trivial

/-- A deletion that is committed now holds the lock of the row, and takes all rows of the document. -/
theorem deletes_inv (h : Reaches digest ok s) (hstep : s.step engine (program digest) l = some s') {id : Uuid}
    (hdel : Deletes s s' id) :
    (∃ u call tx, s.Running u call tx ∧ Lock.document id ∈ tx.locks ∧
      ∀ t call' tx', s'.Running t call' tx' → t ≠ u ∧ s.Running t call' tx') ∧ Gone s'.db id := by
  obtain ⟨u, call, tx, r, hends, hq, hid⟩ := hdel
  have hfinish := Discipline.finish (sound_of_reaches h) hstep hends
  cases hfinish with
  | returned hpost =>
      obtain ⟨hcommit, hcovered⟩ := hpost
      have hconsistent := consistent_of_reaches h
      rw [hq] at hcommit
      generalize hlog : tx.log = log at hcommit hcovered
      cases hcommit with
      | @deleted _ d hm =>
          have hd : d.id = id := (Document.is_iff.mp hm.is).1.trans hid
          refine ⟨⟨u, call, tx, hends.running, ?_, fun t call' tx' hrun => ?_⟩, ?_⟩
          · exact hcovered.1 _ (by rw [← hd]; exact List.mem_cons_self)
          · rcases Discipline.running_setStatus (s := s) ⟨hrun.get, hrun.status⟩ with ⟨hne, hrun⟩ | ⟨_, hst, _⟩
            · exact ⟨hne, hrun⟩
            · cases hst
          · have hof : ∀ e ∈ s.db.documents, e.id = d.id → e.is d.id d.tenantId = true := by
              intro e he heid
              rw [hconsistent.eq_of_id he hm.mem heid]
              exact Document.is_iff.mpr ⟨rfl, rfl⟩
            rw [← hd]
            refine ⟨fun e he heid => ?_, fun f hf hfid => ?_, fun c hc hcid => ?_⟩
            · have hmem := List.mem_filter.mp he
              rw [hof e hmem.1 heid] at hmem
              cases hmem.2
            · have hmem := List.mem_filter.mp hf
              have hold := (List.mem_filter.mp hmem.1).1
              rw [hconsistent.file_of hm.mem hold hfid] at hmem
              cases hmem.2
            · have hmem := List.mem_filter.mp hc
              have hold := (List.mem_filter.mp hmem.1).1
              rw [(hconsistent.chunk_of hm.mem hold hcid).1] at hmem
              cases hmem.2

/-- A commit that inserts no row of a document that is gone brings none of its rows back. -/
theorem Gone.commit {db : Db} {id : Uuid} (h : Gone db id) {grow : Db → Db → Prop} {now : Timestamp} {q : Request}
    {r : Response} {log : List Write} (hc : Commit digest grow db now q r log)
    (hnew : ∀ row, .document row ∈ log → row.id ≠ id) : Gone (engine.view log db) id := by
  have hupdate : ∀ {u : Uuid} {state : DocumentState}, ∀ d ∈ setDocument u state db.documents, d.id ≠ id := by
    intro u state d hd
    rcases mem_setDocument.mp hd with ⟨e, he, _, rfl⟩ | ⟨hd, _⟩
    · exact h.document e he
    · exact h.document d hd
  cases hc with
  | created _ hup =>
      refine ⟨fun d hd => ?_, fun f hf => ?_, h.chunks⟩
      · rcases List.mem_append.mp hd with hd | hd
        · exact h.document d hd
        · exact hnew d (by simp [List.mem_singleton.mp hd])
      · rcases List.mem_append.mp hf with hf | hf
        · exact h.file f hf
        · rw [List.mem_singleton.mp hf, hup.file]
          exact hnew _ (by simp)
  | existing _ _ => exact h
  | document _ => exact h
  | retried _ => exact ⟨hupdate, h.file, h.chunks⟩
  | deleted _ =>
      refine ⟨fun d hd => h.document d (List.mem_filter.mp hd).1, fun f hf => ?_, fun c hc => ?_⟩
      · exact h.file f (List.mem_filter.mp (List.mem_filter.mp hf).1).1
      · exact h.chunks c (List.mem_filter.mp (List.mem_filter.mp hc).1).1
  | claimed _ => exact ⟨hupdate, h.file, h.chunks⟩
  | unclaimed _ => exact h
  | file _ => exact h
  | written hm hrows =>
      rw [Engine.view_cons, Engine.view_cons, view_chunks]
      refine ⟨hupdate, h.file, fun c hc => ?_⟩
      rcases List.mem_append.mp hc with hc | hc
      · exact h.chunks c (List.mem_filter.mp hc).1
      · rw [(DocumentChunk.of_iff.mp (hrows.owner c hc)).1]
        exact h.document _ hm.mem
  | lost _ => exact h
  | marked _ => exact ⟨hupdate, h.file, h.chunks⟩
  | unmarked _ => exact h

/-- What is known of the ids of deleted documents. -/
structure Retired (s : Sys) : Prop where
  locked : ∀ t call tx row, s.Running t call tx → .document row ∈ tx.log → Lock.document row.id ∈ tx.locks
  inFlight : ∀ t call tx row, s.Running t call tx → .document row ∈ tx.log → ¬ Deleted s row.id
  gone : ∀ id, Deleted s id → Gone s.db id

theorem deleted_of_step (hstep : s.step engine (program digest) l = some s') {id : Uuid} (h : Deleted s' id) :
    Deleted s id ∨ Deletes s s' id := by
  obtain ⟨call, hcall, r, hq, hst, hid⟩ := h
  obtain ⟨t, hget⟩ := List.mem_iff_getElem?.mp hcall
  rcases System.ends_of_finished hstep hget hst with hold | ⟨call₀, tx, hends, rfl⟩
  · exact Or.inl ⟨call, List.mem_iff_getElem?.mpr ⟨t, hold⟩, r, hq, hst, hid⟩
  · exact Or.inr ⟨t, call₀, tx, r, hends, hq, hid⟩

/-- A logged row was logged before, or is new. -/
theorem logged_of_step (h : Reaches digest ok s) (hstep : s.step engine (program digest) l = some s') {t : Nat}
    {call : Call Db Write Lock Failure Choice Request Response} {tx : Txn Db Write Lock Failure Choice Response}
    (hrun : s'.Running t call tx) {row : Document} (hrow : .document row ∈ tx.log) :
    (∃ call₀ tx₀, s.Running t call₀ tx₀ ∧ .document row ∈ tx₀.log ∧ ∀ ℓ ∈ tx₀.locks, ℓ ∈ tx.locks) ∨
      ∃ c, l = .exec t c ∧ row.id = c.fresh 0 ∧ Lock.document row.id ∈ tx.locks := by
  cases System.became hstep hrun with
  | stayed hrun => exact Or.inl ⟨_, _, hrun, hrow, fun _ h => h⟩
  | began _ _ _ htx =>
      rw [htx] at hrow
      cases hrow
  | raised _ hrun₀ _ _ _ htx =>
      rw [htx] at hrow ⊢
      exact Or.inl ⟨_, _, hrun₀, hrow, fun _ h => h⟩
  | replied hl hrun₀ hprog hreply _ _ htx =>
      have hevery := System.every_of_running every_program rfl h hrun₀
      rw [hprog] at hevery
      rw [htx] at hrow ⊢
      rcases List.mem_append.mp hrow with hrow | hrow
      · exact Or.inl ⟨_, _, hrun₀, hrow, fun _ h => List.mem_append_left _ h⟩
      · obtain ⟨hid, hlock⟩ := hevery.1 _ _ _ _ _ _ hreply row hrow
        exact Or.inr ⟨_, hl, hid, List.mem_append_right _ hlock⟩
  | refused _ hrun₀ _ _ htx =>
      rw [htx] at hrow ⊢
      exact Or.inl ⟨_, _, hrun₀, hrow, fun _ h => h⟩
  | prepared _ hrun₀ _ _ htx =>
      rw [htx] at hrow ⊢
      exact Or.inl ⟨_, _, hrun₀, hrow, fun _ h => h⟩

theorem Retired.step (h : Reaches digest ok s) (hok : newIds s l) (hstep : s.step engine (program digest) l = some s')
    (hr : Retired s) : Retired s' where
  locked t call tx row hrun hrow := by
    rcases logged_of_step h hstep hrun hrow with ⟨call₀, tx₀, hrun₀, hrow₀, hlocks⟩ | ⟨c, _, _, hlock⟩
    · exact hlocks _ (hr.locked t call₀ tx₀ row hrun₀ hrow₀)
    · exact hlock
  inFlight t call tx row hrun hrow hdel := by
    rcases deleted_of_step hstep hdel with hdel | hdel
    · rcases logged_of_step h hstep hrun hrow with ⟨call₀, tx₀, hrun₀, hrow₀, _⟩ | ⟨c, hl, hid, _⟩
      · exact hr.inFlight t call₀ tx₀ row hrun₀ hrow₀ hdel
      · exact hok t c hl (hid ▸ hdel)
    · -- the deletion holds the lock that the insert has taken
      obtain ⟨⟨u, call₁, tx₁, hrun₁, hlock₁, hstays⟩, _⟩ := deletes_inv h hstep hdel
      obtain ⟨hne, hrun₀⟩ := hstays t call tx hrun
      exact (sound_of_reaches h).disjoint hrun₀ hrun₁ hne _ (hr.locked t call tx row hrun₀ hrow) hlock₁
  gone id hdel := by
    rcases deleted_of_step hstep hdel with hdel | hdel
    · cases commit_of_step h hstep with
      | quiet hdb => exact hdb ▸ hr.gone id hdel
      | @commit t call tx r _ hrun _ hcommit hs' =>
          rw [hs']
          refine (hr.gone id hdel).commit hcommit fun row hrow hid => ?_
          exact hr.inFlight t call tx row hrun hrow (hid ▸ hdel)
    · exact (deletes_inv h hstep hdel).2

theorem retired_of_reaches (h : Reaches digest newIds s) : Retired s := by
  induction h with
  | refl =>
      refine ⟨fun t call tx row hrun => ?_, fun t call tx row hrun => ?_, fun id ⟨call, hcall, _⟩ => ?_⟩
      · exact absurd hrun (System.not_running_of_nil rfl)
      · exact absurd hrun (System.not_running_of_nil rfl)
      · cases hcall
  | step hrun hok hstep ih => exact ih.step hrun hok hstep

/-- **The life of a document.** In every committed state, status, error and chunks of each document belong together; a
ready document stays as it is until it is deleted; and no row of a deleted document ever exists again. -/
theorem lifecycle_of_reaches (digest : List UInt8 → Text) :
    (∀ s, Reaches digest (fun _ _ => True) s → Lifecycle s ∧
      ∀ l s', s.step engine (program digest) l = some s' →
        ∀ d ∈ s.db.documents, d.status = .ready → d ∈ s'.db.documents ∨ Deletes s s' d.id) ∧
      ∀ s, Reaches digest newIds s → ∀ id, Deleted s id → Gone s.db id :=
  ⟨fun _ h => ⟨lifecycle h, fun _ _ hstep _ hd hready => ready_of_step h hstep hd hready⟩,
    fun _ h => (retired_of_reaches h).gone⟩

/-! ## A run -/

instance (s : Sys) (id : Uuid) : Decidable (Deleted s id) :=
  decidable_of_iff (s.calls.any fun call => match call.request, call.status with
    | .deleteDocument r, .finished (.returned .deleted) => decide (r.documentId.uuid = id)
    | _, _ => false) <| by
    rw [List.any_eq_true]
    refine exists_congr fun call => and_congr_right fun _ => ?_
    constructor
    · intro h
      split at h
      · next r hq hst => exact ⟨r, hq, hst, of_decide_eq_true h⟩
      · cases h
    · rintro ⟨r, hq, hst, hid⟩
      rw [hq, hst]
      exact decide_eq_true hid

instance (s : Sys) : DecidablePred (newIds s)
  | .exec _ c => decidable_of_iff (¬ Deleted s (c.fresh 0)) ⟨fun h t' c' heq => by cases heq; exact h, fun h => h _ _ rfl⟩
  | .tick _ | .begin _ | .prepare _ | .commit _ | .rollback _ | .abort _ => isTrue fun _ _ heq => by cases heq

namespace Day

def uuid (n : Nat) : Uuid := ⟨BitVec.ofNat 128 n⟩

/-- Generated ids are numbered from `n`. -/
def choice (n : Nat) : Choice := ⟨fun k => uuid (n + k), []⟩

/-- Call number `t` begins and runs its `n` statements, with nothing in between. -/
def opens (t n : Nat) (q : Request) : List Event :=
  .begin q :: (List.range n).map fun k => .exec t (choice (100 * t + 10 * k))

/-- A whole call. -/
def alone (t n : Nat) (q : Request) : List Event := opens t n q ++ [.prepare t, .commit t]

/-- Bytes as the code units of a text. -/
def hash (bytes : List UInt8) : Text := bytes.map UInt8.toUInt16

def tenant : Uuid := uuid 1

/-- The document of call 0. -/
def document : DocumentRequest := ⟨tenant, (uuid 0).spelled⟩

def upload : UploadRequest := ⟨tenant, none, some ⟨text "a.pdf", pdfMagic⟩⟩

def write : WriteRequest where
  document := document
  pageCount := 2
  chunks := [(0, ⟨text "Terms", 1, 1, text "Net 30 days.", 4⟩), (1, ⟨text "Notice", 1, 2, text "Two months.", 3⟩)]
  vectors := [⟨List.replicate embeddingDimensions 0, List.length_replicate⟩,
    ⟨List.replicate embeddingDimensions 1, List.length_replicate⟩]

/-- Uploaded, claimed and written. -/
def ingested : List Event :=
  alone 0 2 (.createDocument upload) ++ alone 1 1 (.claimDocument document) ++ alone 2 3 (.writeChunks write)

theorem reaches {α : Type} (ok : Sys → Event → Prop) (events : List Event) (f : Sys → α) {a : α}
    (hok : System.Admitted engine (program hash) ok init events)
    (h : (System.run engine (program hash) init events).map f = some a) : ∃ s, Reaches hash ok s ∧ f s = a := by
  obtain ⟨s, hrun, hs⟩ := Option.map_eq_some_iff.mp h
  exact ⟨s, System.reachable_of_admitted hok hrun, hs⟩

end Day

set_option maxRecDepth 100000 in
/-- A document becomes ready with two chunks; then it is deleted. -/
theorem lifecycle_of_day : (∃ s : Sys, s.db.documents.map (·.status) = [.ready] ∧
    s.db.chunks.map (fun c => (c.ordinal, c.content)) = [(0, text "Net 30 days."), (1, text "Two months.")] ∧ Lifecycle s) ∧
    ∃ s : Sys, Deleted s (Day.uuid 0) ∧ Gone s.db (Day.uuid 0) := by
  obtain ⟨hlife, hgone⟩ := lifecycle_of_reaches Day.hash
  constructor
  · obtain ⟨s, hs, hready⟩ := Day.reaches (fun _ _ => True) Day.ingested
      (fun s => (s.db.documents.map (·.status), s.db.chunks.map fun c => (c.ordinal, c.content)))
      (a := ([.ready], [(0, text "Net 30 days."), (1, text "Two months.")])) (by decide +kernel) (by decide +kernel)
    obtain ⟨hready, hchunks⟩ := Prod.mk.inj hready
    exact ⟨s, hready, hchunks, (hlife s hs).1⟩
  · obtain ⟨s, hs, hdel⟩ := Day.reaches newIds (Day.ingested ++ Day.alone 3 4 (.deleteDocument Day.document))
      (fun s => decide (Deleted s (Day.uuid 0))) (a := true) (by decide +kernel) (by decide +kernel)
    exact ⟨s, of_decide_eq_true hdel, hgone s hs _ (of_decide_eq_true hdel)⟩

end FinSight.Documents
