import FinSight.Documents.Embed
import FinSight.Guarantees.Lifecycle

/-!
# Where chunks come from

* `originals` : the documents as they have been uploaded, from what has committed;
* `Service.Faithful` : a service writes only what ingestion makes of the file it has read;
* `faithful_attempt`, `faithful_service` : the services;
* `Sourced` : rows and tasks at any time; `Sourced.step`.
-/

namespace FinSight.Documents

open ReadCommitted Documents.Sql

/-! ## Uploads -/

def Committed.created (c : Committed) : Option Uuid :=
  match c.response with
  | .created ⟨some d, true⟩ => some d.id
  | _ => none

/-- The document `id` as it has been uploaded by this commit. -/
def Committed.original (c : Committed) (id : Uuid) : Option Original :=
  match c.request, c.response with
  | .createDocument r, .created ⟨some d, true⟩ => if d.id = id then r.file.map fun file => ⟨d.title, file.buffer⟩ else none
  | _, _ => none

def originals (history : List Committed) (id : Uuid) : Option Original := history.findSome? fun c => c.original id

/-- No id is given to two documents. -/
def DistinctIds (history : List Committed) : Prop := (history.filterMap Committed.created).Nodup

def Extends (known known' : Uuid → Option Original) : Prop := ∀ id o, known id = some o → known' id = some o

theorem created_of_original {c : Committed} {id : Uuid} {o : Original} (h : c.original id = some o) : c.created = some id := by
  obtain ⟨task, q, r⟩ := c
  unfold Committed.original at h
  dsimp only at h
  split at h
  · split at h
    · next hid => exact congrArg some hid
    · cases h
  · cases h

theorem DistinctIds.tail {c : Committed} {history : List Committed} (h : DistinctIds (c :: history)) : DistinctIds history := by
  unfold DistinctIds at h ⊢
  rw [List.filterMap_cons] at h
  split at h
  · exact h
  · exact (List.nodup_cons.mp h).2

theorem extends_cons {c : Committed} {history : List Committed} (h : DistinctIds (c :: history)) :
    Extends (originals history) (originals (c :: history)) := by
  intro id o ho
  obtain ⟨c', hc', hid⟩ := List.exists_of_findSome?_eq_some ho
  unfold originals
  rw [List.findSome?_cons]
  cases hc : c.original id with
  | none => exact ho
  | some o' =>
      unfold DistinctIds at h
      rw [List.filterMap_cons, created_of_original hc] at h
      exact absurd (List.mem_filterMap.mpr ⟨c', hc', created_of_original hid⟩) (List.nodup_cons.mp h).1

/-! ## Services -/

/-- What the answer to a transaction tells of an upload. -/
def Tells (known : Uuid → Option Original) : Request → Except Thrown Response → Prop
  | .claimDocument r, .ok (.claimed (some d)) => ∃ o, known r.documentId.uuid = some o ∧ o.title = d.title
  | .selectFile r, .ok (.file (some f)) => ∃ o, known r.documentId.uuid = some o ∧ o.bytes = f.bytes
  | _, _ => True

/-- What is written is what ingestion makes of the file. -/
def Request.Honest (L : Libraries) (known : Uuid → Option Original) : Request → Prop
  | .writeChunks w => ∃ o, known w.document.documentId.uuid = some o ∧ Ingests L o w
  | _ => True

/-- Whatever else commits, and whatever is answered that may be answered. -/
def Service.Faithful (L : Libraries) {α : Type} : Service α → (Uuid → Option Original) → Prop
  | .ret _, _ | .throw _, _ => True
  | .transact q next, known => q.Honest L known ∧
      ∀ known', Extends known known' → ∀ r, Tells known' q r → (next r).Faithful L known'
  | .enqueue _ _ next, known => ∀ r, (next r).Faithful L known
  | .randomUuid next, known => ∀ u, (next u).Faithful L known
  | .extract bytes next, known => ∀ r, (∀ pages, r = .ok pages → Ingest.extractDocumentText L.pdfjs bytes = .ok pages) →
      (next r).Faithful L known
  | .tokenCounter next, known => ∀ r, (∀ f, r = .ok f → f = L.countTokens) → (next r).Faithful L known
  | .embed texts next, known => ∀ r, (∀ vectors, r = .ok vectors → embedTexts L.extractor texts = .ok vectors) →
      (next r).Faithful L known

section Rules
variable {L : Libraries} {α β : Type} {known known' : Uuid → Option Original}

theorem Extends.refl (known : Uuid → Option Original) : Extends known known := fun _ _ h => h

theorem Extends.trans {known'' : Uuid → Option Original} (h : Extends known known') (h' : Extends known' known'') :
    Extends known known'' := fun id o ho => h' id o (h id o ho)

theorem Request.Honest.mono {q : Request} (h : q.Honest L known) (hext : Extends known known') : q.Honest L known' := by
  cases q with
  | writeChunks w =>
      obtain ⟨o, ho, hw⟩ := h
      exact ⟨o, hext _ _ ho, hw⟩
  | _ => trivial

theorem Service.Faithful.mono {p : Service α} (h : p.Faithful L known) (hext : Extends known known') : p.Faithful L known' := by
  induction p with
  | ret a => trivial
  | throw e => trivial
  | transact q next ih => exact ⟨h.1.mono hext, fun known'' hext' r hr => h.2 known'' (hext.trans hext') r hr⟩
  | enqueue jobId data next ih => exact fun r => ih r (h r)
  | randomUuid next ih => exact fun u => ih u (h u)
  | extract bytes next ih => exact fun r hr => ih r (h r hr)
  | tokenCounter next ih => exact fun r hr => ih r (h r hr)
  | embed texts next ih => exact fun r hr => ih r (h r hr)

theorem Service.Faithful.bind {p : Service α} {f : α → Service β} (hp : p.Faithful L known)
    (hf : ∀ known', Extends known known' → ∀ a, (f a).Faithful L known') : (p >>= f).Faithful L known := by
  show (p.bind f).Faithful L known
  induction p generalizing known with
  | ret a => exact hf known (Extends.refl known) a
  | throw e => trivial
  | transact q next ih =>
      refine ⟨hp.1, fun known' hext r hr => ih r (hp.2 known' hext r hr) fun known'' hext' a => hf known'' (hext.trans hext') a⟩
  | enqueue jobId data next ih => exact fun r => ih r (hp r) hf
  | randomUuid next ih => exact fun u => ih u (hp u) hf
  | extract bytes next ih => exact fun r hr => ih r (hp r hr) hf
  | tokenCounter next ih => exact fun r hr => ih r (hp r hr) hf
  | embed texts next ih => exact fun r hr => ih r (hp r hr) hf

theorem Service.Faithful.tryCatch {p : Service α} {handle : Thrown → Service α} (hp : p.Faithful L known)
    (hh : ∀ known', Extends known known' → ∀ e, (handle e).Faithful L known') : (p.tryCatch handle).Faithful L known := by
  induction p generalizing known with
  | ret a => trivial
  | throw e => exact hh known (Extends.refl known) e
  | transact q next ih =>
      refine ⟨hp.1, fun known' hext r hr => ih r (hp.2 known' hext r hr) fun known'' hext' e => hh known'' (hext.trans hext') e⟩
  | enqueue jobId data next ih => exact fun r => ih r (hp r) hh
  | randomUuid next ih => exact fun u => ih u (hp u) hh
  | extract bytes next ih => exact fun r hr => ih r (hp r hr) hh
  | tokenCounter next ih => exact fun r hr => ih r (hp r hr) hh
  | embed texts next ih => exact fun r hr => ih r (hp r hr) hh

/-- A transaction that neither writes chunks nor is of interest. -/
theorem faithful_transaction {q : Request} {read : Response → Option α} (hq : q.Honest L known) :
    (Service.transaction q read).Faithful L known := by
  refine ⟨hq, fun known' _ r _ => ?_⟩
  cases r with
  | error e => trivial
  | ok r =>
      dsimp only
      split <;> trivial

theorem faithful_answer (r : Except Thrown α) : (Service.answer r).Faithful L known := by
  cases r <;> trivial

end Rules

section Services
variable {L : Libraries} {known : Uuid → Option Original} {describe : SqlState → Text}

/-- After the claim, the file is read, and ingested. -/
theorem faithful_ingestClaimed {r : DocumentRequest} {d : Document} {o : Original} (ho : known r.documentId.uuid = some o)
    (htitle : o.title = d.title) : (Service.ingestClaimed r d).Faithful L known := by
  refine ⟨trivial, fun known₁ hext₁ answer htells => ?_⟩
  cases answer with
  | error e => trivial
  | ok response =>
      cases response with
      | file row =>
          cases row with
          | none => trivial
          | some f =>
              obtain ⟨o', ho', hbytes⟩ := htells
              obtain rfl : o = o' := Option.some.inj ((hext₁ _ _ ho).symm.trans ho')
              intro result hresult
              cases result with
              | error e => trivial
              | ok pages =>
                  intro counter hcounter
                  cases counter with
                  | error e => trivial
                  | ok countTokens =>
                      obtain rfl := hcounter countTokens rfl
                      have hchunks : ∃ pages', Ingest.extractDocumentText L.pdfjs o.bytes = .ok pages' ∧ pages.length = pages'.length ∧
                          Ingest.chunkDocument (Ingest.parseStructure pages) L.countTokens (fallbackTitle d.title)
                              Ingest.defaultOptions =
                            Ingest.chunkDocument (Ingest.parseStructure pages') L.countTokens (fallbackTitle o.title)
                              Ingest.defaultOptions :=
                        ⟨pages, hbytes ▸ hresult pages rfl, rfl, by rw [htitle]⟩
                      show Service.Faithful L (ite _ _ _) known₁
                      split
                      · trivial
                      · intro vectors hvectors
                        cases vectors with
                        | error e => trivial
                        | ok vectors =>
                            have hwrite : Request.Honest L known₁ (.writeChunks ⟨r, pages.length, _, vectors⟩) :=
                              ⟨o, ho', hchunks, hvectors vectors rfl⟩
                            refine ⟨hwrite, fun known₂ _ answer _ => ?_⟩
                            cases answer with
                            | error e => trivial
                            | ok response =>
                                cases response with
                                | written written => cases written <;> trivial
                                | created _ | document _ | deleted | claimed _ | file _ | marked => trivial
      | created _ | document _ | deleted | claimed _ | written _ | marked => trivial

theorem faithful_ingestDocument (r : DocumentRequest) : (Service.ingestDocument r).Faithful L known := by
  refine ⟨trivial, fun known₁ _ answer htells => ?_⟩
  cases answer with
  | error e => trivial
  | ok response =>
      cases response with
      | claimed row =>
          cases row with
          | none => trivial
          | some d =>
              obtain ⟨o, ho, htitle⟩ := htells
              exact faithful_ingestClaimed ho htitle
      | created _ | document _ | deleted | file _ | written _ | marked => trivial

theorem faithful_attempt (job : Job) : (Machine.attempt describe job).Faithful L known := by
  refine Service.Faithful.bind (Service.Faithful.tryCatch (faithful_ingestDocument job.data) fun known₁ _ e => ?_) fun _ _ _ => trivial
  unfold Service.attemptFailed
  dsimp only
  split
  · exact Service.Faithful.bind (faithful_transaction trivial) fun _ _ _ => trivial
  · trivial

theorem faithful_service (c : ClientRequest) : c.service.Faithful L known := by
  cases c with
  | upload r =>
      refine Service.Faithful.bind (Service.Faithful.bind (faithful_transaction trivial) fun known₁ _ result => ?_) fun _ _ _ => trivial
      split
      · exact Service.Faithful.bind (fun r => faithful_answer r) fun _ _ _ => trivial
      · trivial
      · trivial
  | get r => exact Service.Faithful.bind (faithful_transaction trivial) fun _ _ _ => trivial
  | retry r =>
      refine Service.Faithful.bind (Service.Faithful.bind (faithful_transaction trivial) fun known₁ _ doc => ?_) fun _ _ _ => trivial
      exact Service.Faithful.bind (fun _ => trivial) fun _ _ u => Service.Faithful.bind (fun r => faithful_answer r) fun _ _ _ => trivial
  | delete r => exact Service.Faithful.bind (faithful_transaction trivial) fun _ _ _ => trivial

end Services

/-! ## Commits -/

section Commits
variable {digest : List UInt8 → Text} {db : Db} {now : Timestamp} {q : Request} {r : Response} {log : List Write}

/-- The upload of a new document. -/
theorem original_created {u : UploadRequest} {file : File} {d : Document} (hfile : assertPdf u.file = .ok file) (k : Nat) :
    Committed.original ⟨k, .createDocument u, .created ⟨some d, true⟩⟩ d.id = some ⟨d.title, file.buffer⟩ := by
  have hsome : u.file = some file := by
    cases h : u.file with
    | none =>
        rw [h] at hfile
        cases hfile
    | some file' =>
        rw [h] at hfile
        unfold assertPdf at hfile
        dsimp only at hfile
        split at hfile
        · cases hfile
        · split at hfile
          · cases hfile
          · exact congrArg some (Except.ok.inj hfile)
  unfold Committed.original
  dsimp only
  rw [if_pos rfl, hsome]
  rfl

/-- A row after a commit has the title of a row before, or is new. -/
theorem title_of_commit (hc : Commit digest Eq db now q r log) (k : Nat) :
    ∀ d ∈ (engine.view log db).documents, (∃ e ∈ db.documents, e.id = d.id ∧ e.title = d.title) ∨
      ∃ bytes, Committed.original ⟨k, q, r⟩ d.id = some ⟨d.title, bytes⟩ := by
  have hupdate : ∀ {id : Uuid} {state : DocumentState} {d : Document}, d ∈ setDocument id state db.documents →
      ∃ e ∈ db.documents, e.id = d.id ∧ e.title = d.title := by
    intro id state d hd
    rcases mem_setDocument.mp hd with ⟨e, he, -, rfl⟩ | ⟨hd, -⟩
    · exact ⟨e, he, rfl, rfl⟩
    · exact ⟨d, hd, rfl, rfl⟩
  intro d hd
  cases hc with
  | @created u file e _ hfile _ =>
      rcases List.mem_append.mp hd with hd | hd
      · exact Or.inl ⟨d, hd, rfl, rfl⟩
      · obtain rfl := List.mem_singleton.mp hd
        exact Or.inr ⟨_, original_created hfile k⟩
  | existing _ _ | document _ | unclaimed _ | file _ | lost _ | unmarked _ => exact Or.inl ⟨d, hd, rfl, rfl⟩
  | retried _ | claimed _ | marked _ => exact Or.inl (hupdate hd)
  | deleted _ => exact Or.inl ⟨d, (List.mem_filter.mp hd).1, rfl, rfl⟩
  | written _ _ =>
      rw [Engine.view_cons, Engine.view_cons, view_chunks] at hd
      exact Or.inl (hupdate hd)

theorem file_of_commit (hc : Commit digest Eq db now q r log) (k : Nat) :
    ∀ f ∈ (engine.view log db).files, f ∈ db.files ∨
      ∃ title, Committed.original ⟨k, q, r⟩ f.documentId = some ⟨title, f.bytes⟩ := by
  intro f hf
  cases hc with
  | @created u file e _ hfile hnew =>
      rcases List.mem_append.mp hf with hf | hf
      · exact Or.inl hf
      · rw [List.mem_singleton.mp hf, hnew.file]
        exact Or.inr ⟨_, original_created hfile k⟩
  | existing _ _ | document _ | unclaimed _ | file _ | lost _ | unmarked _ | retried _ | claimed _ | marked _ => exact Or.inl hf
  | deleted _ => exact Or.inl (List.mem_filter.mp (List.mem_filter.mp hf).1).1
  | written _ _ =>
      rw [Engine.view_cons, Engine.view_cons, view_chunks] at hf
      exact Or.inl hf

end Commits

/-! ## Runs -/

section Runs
variable {L : Libraries} {digest : List UInt8 → Text} {describe : SqlState → Text} {s s' : Machine} {l : Move}

/-- Rows with the upload that they come from, and tasks that go on from there. -/
structure Sourced (L : Libraries) (s : Machine) : Prop where
  documents : ∀ d ∈ s.db.documents, ∃ o, originals s.history d.id = some o ∧ o.title = d.title
  files : ∀ f ∈ s.db.files, ∃ o, originals s.history f.documentId = some o ∧ o.bytes = f.bytes
  ready : ∀ d ∈ s.db.documents, d.status = .ready → ∃ o w, originals s.history d.id = some o ∧ Ingests L o w ∧
    d.pageCount = some w.pageCount ∧ StoresAll w (chunksOf s.db d.id)
  tasks : ∀ k job p, s.Running k job p → p.Faithful L (originals s.history)

/-- Neither the database nor the history changes. -/
theorem Sourced.of_tasks (h : Sourced L s) (hdb : s'.db = s.db) (hhistory : s'.history = s.history)
    (htasks : ∀ k job p, s'.Running k job p → p.Faithful L (originals s.history)) : Sourced L s' where
  documents := by rw [hdb, hhistory]; exact h.documents
  files := by rw [hdb, hhistory]; exact h.files
  ready := by rw [hdb, hhistory]; exact h.ready
  tasks := by rw [hhistory]; exact htasks

/-- Task `k` goes on. -/
theorem Sourced.setTask (h : Sourced L s) {k : Nat} {state : TaskState}
    (hstate : ∀ p, state = .running p → p.Faithful L (originals s.history)) : Sourced L (s.setTask k state) := by
  refine h.of_tasks rfl rfl fun u job p hrun => ?_
  rcases Machine.running_setTask hrun with ⟨-, hrun⟩ | ⟨-, hp, -⟩
  · exact h.tasks u job p hrun
  · exact hstate p hp

theorem Sourced.withQueue (h : Sourced L s) (queue : Queue) : Sourced L (s.withQueue queue) := h.of_tasks rfl rfl h.tasks

/-- A task more. -/
theorem Sourced.append (h : Sourced L s) {task : Task} {queue : Queue}
    (hnew : ∀ p, task.state = .running p → p.Faithful L (originals s.history)) :
    Sourced L { s with tasks := s.tasks ++ [task], queue := queue } := by
  refine h.of_tasks rfl rfl fun u job p hrun => ?_
  rcases Machine.running_append hrun with hrun | ⟨-, rfl⟩
  · exact h.tasks u job p hrun
  · exact hnew p rfl

/-- What a commit tells. -/
theorem Sourced.tells (h : Sourced L s) {q : Request} {r : Response} {log : List Write} {now : Timestamp}
    (hc : Commit digest Eq s.db now q r log) : Tells (originals s.history) q (.ok r) := by
  cases hc with
  | @claimed req d hm =>
      obtain ⟨o, ho, htitle⟩ := h.documents d hm.mem
      exact ⟨o, (Document.is_iff.mp hm.is).1 ▸ ho, htitle⟩
  | @file req f hread =>
      obtain ⟨db, rfl, hf⟩ := hread
      cases f with
      | none => trivial
      | some f =>
          obtain ⟨o, ho, hbytes⟩ := h.files f (List.mem_of_find?_eq_some hf.symm)
          exact ⟨o, (DocumentFile.of_iff.mp (List.find?_some hf.symm)).1 ▸ ho, hbytes⟩
  | _ => trivial

/-- A commit, before its caller goes on. -/
theorem Sourced.commit (h : Sourced L s) (hconsistent : Consistent digest s.db) {k : Nat} {job : Option Job} {q : Request}
    {next : Except Thrown Response → Service Reply} {r : Response} {log : List Write} {now : Timestamp}
    (hrun : s.Running k job (.transact q next)) (hc : Commit digest Eq s.db now q r log)
    (hids : DistinctIds (s.commit k q r log).history) : Sourced L (s.commit k q r log) := by
  have hext : Extends (originals s.history) (originals (s.commit k q r log).history) := extends_cons hids
  have hnew : ∀ {id : Uuid} {o : Original}, Committed.original ⟨k, q, r⟩ id = some o →
      originals (s.commit k q r log).history id = some o := by
    intro id o ho
    show List.findSome? _ (_ :: _) = _
    rw [List.findSome?_cons, ho]
  refine ⟨fun d hd => ?_, fun f hf => ?_, fun d hd hready => ?_, fun u job' p hrun' => ?_⟩
  · rcases title_of_commit hc k d hd with ⟨e, he, hid, htitle⟩ | ⟨bytes, ho⟩
    · obtain ⟨o, ho, hot⟩ := h.documents e he
      exact ⟨o, hext _ _ (hid ▸ ho), hot.trans htitle⟩
    · exact ⟨_, hnew ho, rfl⟩
  · rcases file_of_commit hc k f hf with hf | ⟨title, ho⟩
    · obtain ⟨o, ho, hbytes⟩ := h.files f hf
      exact ⟨o, hext _ _ ho, hbytes⟩
    · exact ⟨_, hnew ho, rfl⟩
  · rcases ready_of_commit hconsistent hc hd hready with ⟨hold, hchunks⟩ | ⟨w, rfl, rfl, his, hpages, hrows⟩
    · obtain ⟨o, w, ho, hw, hpages, hrows⟩ := h.ready d hold hready
      exact ⟨o, w, hext _ _ ho, hw, hpages, hchunks ▸ hrows⟩
    · obtain ⟨⟨o, ho, hw⟩, -⟩ := h.tasks k job _ hrun
      rw [← (Document.is_iff.mp his).1] at ho
      exact ⟨o, w, hext _ _ ho, hw, hpages, hrows⟩
  · exact (h.tasks u job' p hrun').mono hext

theorem Tells.mono {known known' : Uuid → Option Original} {q : Request} {r : Except Thrown Response} (h : Tells known q r)
    (hext : Extends known known') : Tells known' q r := by
  unfold Tells at h ⊢
  split at h
  · obtain ⟨o, ho, htitle⟩ := h
    exact ⟨o, hext _ _ ho, htitle⟩
  · obtain ⟨o, ho, hbytes⟩ := h
    exact ⟨o, hext _ _ ho, hbytes⟩
  · trivial

theorem tells_error (known : Uuid → Option Original) (q : Request) (e : Thrown) : Tells known q (.error e) := by
  cases q <;> trivial

/-- The answer of a transaction. -/
theorem Sourced.answered (h : Sourced L s) {k : Nat} {job : Option Job} {q : Request}
    {next : Except Thrown Response → Service Reply} (hrun : s.Running k job (.transact q next)) {s₁ : Machine}
    (hext : Extends (originals s.history) (originals s₁.history)) {r : Except Thrown Response} (htells : Tells (originals s₁.history) q r) :
    (next r).Faithful L (originals s₁.history) := (h.tasks k job _ hrun).2 _ hext r htells

end Runs

end FinSight.Documents
