import FinSight.Documents.Protocol
import FinSight.Documents.Service

/-!
# What each call of the document service commits

* `Consistent` : the rows of the three tables fit together, and with the status of their document;
* `Commit grow db now q r log` : the request `q`, in a transaction that began at `now`, commits the writes `log` on top of
  the committed database `db` and answers `r`. What it read without a lock held at some earlier database, `grow` before
  `db`;
* `Commit.consistent`, `Commit.covered` : a commit keeps the tables consistent, within its locks.
-/

namespace FinSight.Documents

open ReadCommitted Documents.Sql

/-! ## Consistent tables -/

structure Consistent (digest : List UInt8 → Text) (db : Db) : Prop where
  ids : (db.documents.map (·.id)).Nodup
  keys : (db.documents.map fun d => (d.tenantId, d.contentSha256)).Nodup
  files : ∀ f ∈ db.files, ∃ d ∈ db.documents, f.of d.id d.tenantId = true
  filed : ∀ d ∈ db.documents, ∃ f ∈ db.files, f.of d.id d.tenantId = true ∧ digest f.bytes = d.contentSha256
  chunks : ∀ c ∈ db.chunks, ∃ d ∈ db.documents, c.of d.id d.tenantId = true ∧ d.status = .ready
  ready : ∀ d ∈ db.documents, d.status = .ready →
    (∃ c ∈ db.chunks, c.of d.id d.tenantId = true) ∧ d.error = none ∧ d.pageCount ≠ none
  failed : ∀ d ∈ db.documents, d.status = .failed → d.error ≠ none
  inProgress : ∀ d ∈ db.documents, d.status = .pending ∨ d.status = .processing → d.error = none

theorem Consistent.empty (digest : List UInt8 → Text) : Consistent digest Db.empty :=
  ⟨.nil, .nil, by simp [Db.empty], by simp [Db.empty], by simp [Db.empty], by simp [Db.empty], by simp [Db.empty],
    by simp [Db.empty]⟩

theorem Document.is_iff {d : Document} {id t : Uuid} : d.is id t = true ↔ d.id = id ∧ d.tenantId = t := by
  rw [Document.is, Bool.and_eq_true, decide_eq_true_iff, decide_eq_true_iff]

theorem DocumentFile.of_iff {f : DocumentFile} {id t : Uuid} : f.of id t = true ↔ f.documentId = id ∧ f.tenantId = t := by
  rw [DocumentFile.of, Bool.and_eq_true, decide_eq_true_iff, decide_eq_true_iff]

theorem DocumentChunk.of_iff {c : DocumentChunk} {id t : Uuid} :
    c.of id t = true ↔ c.documentId = id ∧ c.tenantId = t := by
  rw [DocumentChunk.of, Bool.and_eq_true, decide_eq_true_iff, decide_eq_true_iff]

section Consistent
variable {digest : List UInt8 → Text} {db : Db} (h : Consistent digest db)
include h

/-- The row of an id. -/
theorem Consistent.eq_of_id {d e : Document} (hd : d ∈ db.documents) (he : e ∈ db.documents) (hid : d.id = e.id) :
    d = e := List.inj_on_of_nodup_map h.ids hd he hid

theorem Consistent.eq_of_key {d e : Document} (hd : d ∈ db.documents) (he : e ∈ db.documents)
    (ht : d.tenantId = e.tenantId) (hhash : d.contentSha256 = e.contentSha256) : d = e :=
  List.inj_on_of_nodup_map h.keys hd he (by rw [ht, hhash])

/-- A file or chunk that names the id names the tenant. -/
theorem Consistent.file_of {d : Document} (hd : d ∈ db.documents) {f : DocumentFile} (hf : f ∈ db.files)
    (hid : f.documentId = d.id) : f.of d.id d.tenantId = true := by
  obtain ⟨e, he, hof⟩ := h.files f hf
  have hde : e = d := h.eq_of_id he hd ((DocumentFile.of_iff.mp hof).1.symm.trans hid)
  exact hde ▸ hof

theorem Consistent.chunk_of {d : Document} (hd : d ∈ db.documents) {c : DocumentChunk} (hc : c ∈ db.chunks)
    (hid : c.documentId = d.id) : c.of d.id d.tenantId = true ∧ d.status = .ready := by
  obtain ⟨e, he, hof, hready⟩ := h.chunks c hc
  have hde : e = d := h.eq_of_id he hd ((DocumentChunk.of_iff.mp hof).1.symm.trans hid)
  exact hde ▸ ⟨hof, hready⟩

/-- Only ready documents have chunks. -/
theorem Consistent.no_chunks {d : Document} (hd : d ∈ db.documents) (hs : d.status ≠ .ready) {c : DocumentChunk}
    (hc : c ∈ db.chunks) : c.documentId ≠ d.id := fun hid => hs (h.chunk_of hd hc hid).2

end Consistent

/-! ## Commits -/

def retryState (now : Timestamp) (d : Document) : DocumentState :=
  { d.state with status := .pending, error := none, updatedAt := now }

def claimState (now : Timestamp) (d : Document) : DocumentState :=
  { d.state with status := .processing, error := none, updatedAt := now }

def readyState (now : Timestamp) (pageCount : Nat) (d : Document) : DocumentState :=
  { d.state with status := .ready, pageCount := some pageCount, updatedAt := now }

def failedState (now : Timestamp) (message : Text) (d : Document) : DocumentState :=
  { d.state with status := .failed, error := some (toWellFormed (message.take 1000)), updatedAt := now }

/-- The row that an update finds. -/
structure Matches (db : Db) (r : DocumentRequest) (statuses : List DocumentStatus) (d : Document) : Prop where
  mem : d ∈ db.documents
  is : d.is r.documentId.uuid r.tenantId = true
  status : d.status ∈ statuses

/-- `P` held of a database `grow` before `db`. -/
def Earlier (grow : Db → Db → Prop) (db : Db) (P : Db → Prop) : Prop := ∃ db₀, grow db₀ db ∧ P db₀

/-- No row is in one of the statuses. -/
def Unmatched (r : DocumentRequest) (statuses : List DocumentStatus) (db : Db) : Prop :=
  ∀ d, ¬ Matches db r statuses d

/-- The rows of a new document. -/
structure Uploaded (digest : List UInt8 → Text) (db : Db) (now : Timestamp) (tenantId : Uuid) (title : Text) (file : File)
    (d : Document) (f : DocumentFile) : Prop where
  row : d = ⟨d.id, tenantId, some (toWellFormed title), digest file.buffer, .pending, none, none, now, now⟩
  freshId : ∀ x ∈ db.documents, x.id ≠ d.id
  freshKey : ∀ x ∈ db.documents, ¬ (x.tenantId = tenantId ∧ x.contentSha256 = digest file.buffer)
  file : f = ⟨d.id, tenantId, text "application/pdf", file.size, file.buffer, now⟩

/-- The row holds a chunk, its ordinal and its vector. -/
structure Stores (ordinal : Nat) (c : Ingest.Chunk) (v : Embedding) (row : DocumentChunk) : Prop where
  ordinal : row.ordinal = ordinal
  sectionHeading : row.sectionHeading = some (toWellFormed c.sectionHeading)
  pageStart : row.pageStart = c.pageStart
  pageEnd : row.pageEnd = c.pageEnd
  content : row.content = toWellFormed c.content
  tokenCount : row.tokenCount = c.tokenCount
  embedding : row.embedding = v
  embeddingModel : row.embeddingModel = text "Xenova/bge-small-en-v1.5"

/-- One row for each chunk, in their order. -/
structure StoresAll (w : WriteRequest) (rows : List DocumentChunk) : Prop where
  chunks : rows.length = w.chunks.length
  vectors : rows.length = w.vectors.length
  each : ∀ (k : Nat) row ordinal c v, rows[k]? = some row → w.chunks[k]? = some (ordinal, c) → w.vectors[k]? = some v →
    Stores ordinal c v row

theorem StoresAll.exists_of_mem {w : WriteRequest} {rows : List DocumentChunk} (h : StoresAll w rows) {row : DocumentChunk}
    (hrow : row ∈ rows) : ∃ ordinal c v, (ordinal, c) ∈ w.chunks ∧ Stores ordinal c v row := by
  obtain ⟨k, hk, rfl⟩ := List.mem_iff_getElem.mp hrow
  have hchunk : k < w.chunks.length := h.chunks ▸ hk
  have hvector : k < w.vectors.length := h.vectors ▸ hk
  exact ⟨_, _, _, List.getElem_mem hchunk, h.each k _ _ _ _ (List.getElem?_eq_getElem hk) (List.getElem?_eq_getElem hchunk)
    (List.getElem?_eq_getElem hvector)⟩

/-- The chunk rows of a write. -/
structure Chunked (w : WriteRequest) (d : Document) (rows : List DocumentChunk) : Prop where
  stores : StoresAll w rows
  nonempty : rows ≠ []
  owner : ∀ c ∈ rows, c.of d.id d.tenantId = true

inductive Commit (digest : List UInt8 → Text) (grow : Db → Db → Prop) (db : Db) (now : Timestamp) :
    Request → Response → List Write → Prop
  | created {r : UploadRequest} {file : File} {d : Document} {f : DocumentFile} : assertPdf r.file = .ok file →
      Uploaded digest db now r.tenantId (r.title.getD file.originalname) file d f →
      Commit digest grow db now (.createDocument r) (.created ⟨some d, true⟩) [.document d, .file f]
  | existing {r : UploadRequest} {file : File} {existing : Option Document} : assertPdf r.file = .ok file →
      Earlier grow db (fun db₀ => existing = db₀.documents.find? fun d =>
        d.tenantId = r.tenantId && d.contentSha256 = digest file.buffer) →
      Commit digest grow db now (.createDocument r) (.created ⟨existing, false⟩) []
  | document {r : DocumentRequest} {d : Document} :
      Earlier grow db (fun db₀ => d ∈ db₀.documents ∧ d.is r.documentId.uuid r.tenantId = true) →
      Commit digest grow db now (.getDocument r) (.document d) []
  | retried {r : DocumentRequest} {d : Document} : Matches db r [.failed] d →
      Commit digest grow db now (.retryDocument r) (.document (d.set (retryState now d)))
        [.updateDocument d.id (retryState now d)]
  | deleted {r : DocumentRequest} {d : Document} : Matches db r [.pending, .ready, .failed] d →
      Commit digest grow db now (.deleteDocument r) .deleted
        [.deleteChunks d.id d.tenantId, .deleteFile d.id d.tenantId, .deleteDocument d.id d.tenantId]
  | claimed {r : DocumentRequest} {d : Document} : Matches db r [.pending, .processing] d →
      Commit digest grow db now (.claimDocument r) (.claimed (some (d.set (claimState now d))))
        [.updateDocument d.id (claimState now d)]
  | unclaimed {r : DocumentRequest} : Earlier grow db (Unmatched r [.pending, .processing]) →
      Commit digest grow db now (.claimDocument r) (.claimed none) []
  | file {r : DocumentRequest} {f : Option DocumentFile} :
      Earlier grow db (fun db₀ => f = db₀.files.find? (DocumentFile.of r.documentId.uuid r.tenantId)) →
      Commit digest grow db now (.selectFile r) (.file f) []
  | written {w : WriteRequest} {d : Document} {rows : List DocumentChunk} : Matches db w.document [.processing] d →
      Chunked w d rows →
      Commit digest grow db now (.writeChunks w) (.written true)
        (.updateDocument d.id (readyState now w.pageCount d) :: .deleteChunks d.id d.tenantId :: rows.map .chunk)
  | lost {w : WriteRequest} : Earlier grow db (Unmatched w.document [.processing]) →
      Commit digest grow db now (.writeChunks w) (.written false) []
  | marked {r : DocumentRequest} {message : Text} {d : Document} : Matches db r [.pending, .processing] d →
      Commit digest grow db now (.markDocumentsFailed r message) .marked
        [.updateDocument d.id (failedState now message d)]
  | unmarked {r : DocumentRequest} {message : Text} : Earlier grow db (Unmatched r [.pending, .processing]) →
      Commit digest grow db now (.markDocumentsFailed r message) .marked []

/-- What a transaction writes it has read at the database it commits on. -/
theorem Commit.atomic {digest : List UInt8 → Text} {grow : Db → Db → Prop} {db : Db} {now : Timestamp} {q : Request}
    {r : Response} {log : List Write} (hc : Commit digest grow db now q r log) (hlog : log ≠ []) :
    Commit digest Eq db now q r log := by
  cases hc with
  | created hfile hnew => exact .created hfile hnew
  | retried hm => exact .retried hm
  | deleted hm => exact .deleted hm
  | claimed hm => exact .claimed hm
  | written hm hrows => exact .written hm hrows
  | marked hm => exact .marked hm
  | existing _ _ | document _ | unclaimed _ | file _ | lost _ | unmarked _ => exact absurd rfl hlog

/-! ## What they leave -/

theorem view_chunks (rows : List DocumentChunk) (db : Db) :
    engine.view (rows.map .chunk) db = { db with chunks := db.chunks ++ rows } := by
  induction rows generalizing db with
  | nil => simp
  | cons c rows ih =>
      rw [List.map_cons, Engine.view_cons, ih]
      simp [Db.apply]

theorem mem_setDocument {id : Uuid} {state : DocumentState} {rows : List Document} {d : Document} :
    d ∈ setDocument id state rows ↔ (∃ e ∈ rows, e.id = id ∧ d = e.set state) ∨ (d ∈ rows ∧ d.id ≠ id) := by
  rw [setDocument, List.mem_map]
  constructor
  · rintro ⟨e, he, rfl⟩
    by_cases hid : e.id = id
    · rw [if_pos hid]
      exact Or.inl ⟨e, he, hid, rfl⟩
    · rw [if_neg hid]
      exact Or.inr ⟨he, hid⟩
  · rintro (⟨e, he, hid, rfl⟩ | ⟨hd, hid⟩)
    · exact ⟨e, he, if_pos hid⟩
    · exact ⟨d, hd, if_neg hid⟩

theorem setDocument_map {γ : Type} (g : Document → γ) (hg : ∀ (d : Document) s, g (d.set s) = g d) (id : Uuid)
    (state : DocumentState) (rows : List Document) : (setDocument id state rows).map g = rows.map g := by
  rw [setDocument, List.map_map]
  refine List.map_congr_left fun d _ => ?_
  dsimp only [Function.comp]
  split
  · exact hg d state
  · rfl

section
variable {digest : List UInt8 → Text} {db : Db} (h : Consistent digest db)
include h

/-- The rows after an update of `d`. -/
theorem Consistent.mem_update {d e : Document} (hd : d ∈ db.documents) {state : DocumentState} :
    e ∈ setDocument d.id state db.documents ↔ e = d.set state ∨ (e ∈ db.documents ∧ e.id ≠ d.id) := by
  rw [mem_setDocument]
  constructor
  · rintro (⟨x, hx, hid, rfl⟩ | he)
    · exact Or.inl (h.eq_of_id hx hd hid ▸ rfl)
    · exact Or.inr he
  · rintro (rfl | he)
    · exact Or.inl ⟨d, hd, rfl, rfl⟩
    · exact Or.inr he

/-- An update moves a document between statuses other than ready. -/
theorem Consistent.update {d : Document} (hd : d ∈ db.documents) {state : DocumentState} (hold : d.status ≠ .ready)
    (hnew : state.status ≠ .ready) (hfailed : state.status = .failed → state.error ≠ none)
    (hopen : state.status = .pending ∨ state.status = .processing → state.error = none) :
    Consistent digest (engine.view [.updateDocument d.id state] db) where
  ids := by
    show ((setDocument d.id state db.documents).map _).Nodup
    rw [setDocument_map _ fun _ _ => rfl]
    exact h.ids
  keys := by
    show ((setDocument d.id state db.documents).map _).Nodup
    rw [setDocument_map _ fun _ _ => rfl]
    exact h.keys
  files f hf := by
    obtain ⟨e, he, hof⟩ := h.files f hf
    by_cases hid : e.id = d.id
    · exact ⟨d.set state, (h.mem_update hd).mpr (Or.inl rfl), h.eq_of_id he hd hid ▸ hof⟩
    · exact ⟨e, (h.mem_update hd).mpr (Or.inr ⟨he, hid⟩), hof⟩
  filed e he := by
    rcases (h.mem_update hd).mp he with rfl | ⟨he, -⟩
    · have hfiled := h.filed d hd
      exact hfiled
    · exact h.filed e he
  chunks c hc := by
    obtain ⟨e, he, hof, hready⟩ := h.chunks c hc
    refine ⟨e, (h.mem_update hd).mpr (Or.inr ⟨he, fun hid => hold ?_⟩), hof, hready⟩
    exact h.eq_of_id he hd hid ▸ hready
  ready e he hs := by
    rcases (h.mem_update hd).mp he with rfl | ⟨he, -⟩
    · exact absurd hs hnew
    · exact h.ready e he hs
  failed e he hs := by
    rcases (h.mem_update hd).mp he with rfl | ⟨he, -⟩
    · exact hfailed hs
    · exact h.failed e he hs
  inProgress e he hs := by
    rcases (h.mem_update hd).mp he with rfl | ⟨he, -⟩
    · exact hopen hs
    · exact h.inProgress e he hs

/-- A write makes a document ready, with its chunks. -/
theorem Consistent.write {w : WriteRequest} {d : Document} {rows : List DocumentChunk} {now : Timestamp}
    (hm : Matches db w.document [.processing] d) (hrows : Chunked w d rows) :
    Consistent digest (engine.view (.updateDocument d.id (readyState now w.pageCount d) ::
      .deleteChunks d.id d.tenantId :: rows.map .chunk) db) := by
  have hd := hm.mem
  have hprocessing : d.status = .processing := List.mem_singleton.mp hm.status
  have hview : engine.view (.updateDocument d.id (readyState now w.pageCount d) ::
      .deleteChunks d.id d.tenantId :: rows.map .chunk) db =
      { documents := setDocument d.id (readyState now w.pageCount d) db.documents
        files := db.files
        chunks := db.chunks.filter (fun c => !c.of d.id d.tenantId) ++ rows } := by
    rw [Engine.view_cons, Engine.view_cons, view_chunks]
    rfl
  have hkeep : ∀ c ∈ db.chunks, c.of d.id d.tenantId = false := by
    intro c hc
    by_contra hof
    have hid := (DocumentChunk.of_iff.mp (Bool.eq_true_of_not_eq_false hof)).1
    exact h.no_chunks hd (by rw [hprocessing]; decide) hc hid
  have hchunks : db.chunks.filter (fun c => !c.of d.id d.tenantId) = db.chunks := by
    rw [List.filter_eq_self]
    intro c hc
    rw [hkeep c hc]
    rfl
  rw [hview, hchunks]
  refine ⟨?_, ?_, fun f hf => ?_, fun e he => ?_, fun c hc => ?_, fun e he hs => ?_, fun e he hs => ?_,
    fun e he hs => ?_⟩
  · show ((setDocument d.id _ db.documents).map _).Nodup
    rw [setDocument_map _ fun _ _ => rfl]
    exact h.ids
  · show ((setDocument d.id _ db.documents).map _).Nodup
    rw [setDocument_map _ fun _ _ => rfl]
    exact h.keys
  · obtain ⟨e, he, hof⟩ := h.files f hf
    by_cases hid : e.id = d.id
    · exact ⟨d.set _, (h.mem_update hd).mpr (Or.inl rfl), h.eq_of_id he hd hid ▸ hof⟩
    · exact ⟨e, (h.mem_update hd).mpr (Or.inr ⟨he, hid⟩), hof⟩
  · rcases (h.mem_update hd).mp he with rfl | ⟨he, -⟩
    · have hfiled := h.filed d hd
      exact hfiled
    · exact h.filed e he
  · rcases List.mem_append.mp hc with hc | hc
    · obtain ⟨e, he, hof, hready⟩ := h.chunks c hc
      refine ⟨e, (h.mem_update hd).mpr (Or.inr ⟨he, fun hid => ?_⟩), hof, hready⟩
      rw [h.eq_of_id he hd hid, hprocessing] at hready
      cases hready
    · exact ⟨d.set _, (h.mem_update hd).mpr (Or.inl rfl), hrows.owner c hc, rfl⟩
  · rcases (h.mem_update hd).mp he with rfl | ⟨he, -⟩
    · obtain ⟨c, hc⟩ := List.exists_mem_of_ne_nil rows hrows.nonempty
      refine ⟨⟨c, List.mem_append_right _ hc, hrows.owner c hc⟩, ?_, fun hnone => by cases hnone⟩
      exact h.inProgress d hd (Or.inr hprocessing)
    · obtain ⟨⟨c, hc, hof⟩, hrest⟩ := h.ready e he hs
      exact ⟨⟨c, List.mem_append_left _ hc, hof⟩, hrest⟩
  · rcases (h.mem_update hd).mp he with rfl | ⟨he, -⟩
    · cases hs
    · exact h.failed e he hs
  · rcases (h.mem_update hd).mp he with rfl | ⟨he, -⟩
    · rcases hs with hs | hs <;> cases hs
    · exact h.inProgress e he hs

/-- An upload adds a pending document with its file. -/
theorem Consistent.upload {now : Timestamp} {tenantId : Uuid} {title : Text} {file : File} {d : Document}
    {f : DocumentFile} (hnew : Uploaded digest db now tenantId title file d f) :
    Consistent digest (engine.view [.document d, .file f] db) := by
  have hrow := hnew.row
  have hfile : f.of d.id d.tenantId = true := by
    rw [DocumentFile.of_iff, hnew.file, hrow]
    exact ⟨rfl, rfl⟩
  have hpending : d.status = .pending := by rw [hrow]
  show Consistent digest ⟨db.documents ++ [d], db.files ++ [f], db.chunks⟩
  refine ⟨?_, ?_, fun g hg => ?_, fun e he => ?_, fun c hc => ?_, fun e he hs => ?_, fun e he hs => ?_,
    fun e he hs => ?_⟩
  · rw [List.map_append, List.map_singleton, List.nodup_append]
    refine ⟨h.ids, List.nodup_singleton _, fun u hu v hv huv => ?_⟩
    obtain ⟨x, hx, rfl⟩ := List.mem_map.mp hu
    exact hnew.freshId x hx (huv.trans (List.mem_singleton.mp hv))
  · rw [List.map_append, List.map_singleton, List.nodup_append]
    refine ⟨h.keys, List.nodup_singleton _, fun u hu v hv huv => ?_⟩
    obtain ⟨x, hx, rfl⟩ := List.mem_map.mp hu
    have hkey := Prod.mk.inj (huv.trans (List.mem_singleton.mp hv))
    refine hnew.freshKey x hx ⟨hkey.1.trans ?_, hkey.2.trans ?_⟩
    · rw [hrow]
    · rw [hrow]
  · rcases List.mem_append.mp hg with hg | hg
    · obtain ⟨e, he, hof⟩ := h.files g hg
      exact ⟨e, List.mem_append_left _ he, hof⟩
    · rw [List.mem_singleton.mp hg]
      exact ⟨d, by simp, hfile⟩
  · rcases List.mem_append.mp he with he | he
    · obtain ⟨g, hg, hof, hdigest⟩ := h.filed e he
      exact ⟨g, List.mem_append_left _ hg, hof, hdigest⟩
    · rw [List.mem_singleton.mp he]
      refine ⟨f, by simp, hfile, ?_⟩
      rw [hnew.file, hrow]
  · obtain ⟨e, he, hof⟩ := h.chunks c hc
    exact ⟨e, List.mem_append_left _ he, hof⟩
  · rcases List.mem_append.mp he with he | he
    · exact h.ready e he hs
    · rw [List.mem_singleton.mp he, hpending] at hs
      cases hs
  · rcases List.mem_append.mp he with he | he
    · exact h.failed e he hs
    · rw [List.mem_singleton.mp he, hpending] at hs
      cases hs
  · rcases List.mem_append.mp he with he | he
    · exact h.inProgress e he hs
    · rw [List.mem_singleton.mp he, hrow]

/-- A deletion takes all rows of the document. -/
theorem Consistent.delete {d : Document} (hd : d ∈ db.documents) :
    Consistent digest (engine.view
      [.deleteChunks d.id d.tenantId, .deleteFile d.id d.tenantId, .deleteDocument d.id d.tenantId] db) := by
  have hview : engine.view
      [.deleteChunks d.id d.tenantId, .deleteFile d.id d.tenantId, .deleteDocument d.id d.tenantId] db =
      { documents := db.documents.filter fun e => !e.is d.id d.tenantId
        files := db.files.filter fun f => !f.of d.id d.tenantId
        chunks := db.chunks.filter fun c => !c.of d.id d.tenantId } := by
    simp [Db.apply, List.filter_filter]
  have hstays : ∀ e ∈ db.documents, e.is d.id d.tenantId = false ↔ e.id ≠ d.id := by
    intro e he
    rw [Bool.eq_false_iff]
    refine not_congr ⟨fun his => (Document.is_iff.mp his).1, fun hid => ?_⟩
    rw [h.eq_of_id he hd hid, Document.is_iff]
    exact ⟨rfl, rfl⟩
  have hmem : ∀ e, e ∈ db.documents.filter (fun e => !e.is d.id d.tenantId) ↔ e ∈ db.documents ∧ e.id ≠ d.id := by
    intro e
    rw [List.mem_filter, Bool.not_eq_true']
    exact and_congr_right fun he => hstays e he
  rw [hview]
  refine ⟨?_, ?_, fun f hf => ?_, fun e he => ?_, fun c hc => ?_, fun e he hs => ?_, fun e he hs => ?_,
    fun e he hs => ?_⟩
  · exact h.ids.sublist (List.filter_sublist.map _)
  · exact h.keys.sublist (List.filter_sublist.map _)
  · rw [List.mem_filter, Bool.not_eq_true'] at hf
    obtain ⟨e, he, hof⟩ := h.files f hf.1
    refine ⟨e, (hmem e).mpr ⟨he, fun hid => ?_⟩, hof⟩
    rw [h.eq_of_id he hd hid, hf.2] at hof
    cases hof
  · obtain ⟨he, hid⟩ := (hmem e).mp he
    obtain ⟨f, hf, hof, hdigest⟩ := h.filed e he
    refine ⟨f, List.mem_filter.mpr ⟨hf, ?_⟩, hof, hdigest⟩
    rw [Bool.not_eq_true', Bool.eq_false_iff]
    exact fun hof' => hid ((DocumentFile.of_iff.mp hof).1.symm.trans (DocumentFile.of_iff.mp hof').1)
  · rw [List.mem_filter, Bool.not_eq_true'] at hc
    obtain ⟨e, he, hof, hready⟩ := h.chunks c hc.1
    refine ⟨e, (hmem e).mpr ⟨he, fun hid => ?_⟩, hof, hready⟩
    rw [h.eq_of_id he hd hid, hc.2] at hof
    cases hof
  · obtain ⟨he, hid⟩ := (hmem e).mp he
    obtain ⟨⟨c, hc, hof⟩, hrest⟩ := h.ready e he hs
    refine ⟨⟨c, List.mem_filter.mpr ⟨hc, ?_⟩, hof⟩, hrest⟩
    rw [Bool.not_eq_true', Bool.eq_false_iff]
    exact fun hof' => hid ((DocumentChunk.of_iff.mp hof).1.symm.trans (DocumentChunk.of_iff.mp hof').1)
  · exact h.failed e ((hmem e).mp he).1 hs
  · exact h.inProgress e ((hmem e).mp he).1 hs

/-- **Every commit keeps the tables consistent.** -/
theorem Commit.consistent {grow : Db → Db → Prop} {now : Timestamp} {q : Request} {r : Response} {log : List Write}
    (hc : Commit digest grow db now q r log) : Consistent digest (engine.view log db) := by
  have hopen : ∀ {d : Document} {r : DocumentRequest}, Matches db r [.pending, .processing] d → d.status ≠ .ready := by
    intro d r hm hs
    have := hm.status
    simp [hs] at this
  cases hc with
  | created _ hnew => exact h.upload hnew
  | existing _ _ => exact h
  | document _ => exact h
  | retried hm =>
      refine h.update hm.mem ?_ (by simp [retryState]) (by simp [retryState]) (by simp [retryState])
      rw [List.mem_singleton.mp hm.status]
      decide
  | deleted hm => exact h.delete hm.mem
  | claimed hm => exact h.update hm.mem (hopen hm) (by simp [claimState]) (by simp [claimState]) (by simp [claimState])
  | unclaimed _ => exact h
  | file _ => exact h
  | written hm hrows => exact h.write hm hrows
  | lost _ => exact h
  | marked hm =>
      exact h.update hm.mem (hopen hm) (by simp [failedState]) (by simp [failedState]) (by simp [failedState])
  | unmarked _ => exact h

end

end FinSight.Documents
