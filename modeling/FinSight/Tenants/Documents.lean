import FinSight.Documents.Listing
import FinSight.Documents.Retrieval
import FinSight.Tenants.Statements

/-!
# The documents of many tenants

As `FinSight.Tenants.Ledger`, `Statements` and `Services`, for the document tables and the document service.

* `Db.share`, `Db.Owned`, `Write.Of`, `division` : the division of the three tables;
* `confines_*`, `confined_*` : its statements and transactions are confined;
* `confined_program` : every request is, to the tenant that it names.
-/

namespace FinSight.Documents

open ReadCommitted Shares Documents.Sql
open FinSight.Sql (checked freshIds)

variable (issuer : Uuid → Uuid)

def Db.share (t : Uuid) (db : Db) : Db where
  documents := owned Document.tenantId t db.documents
  files := owned DocumentFile.tenantId t db.files
  chunks := owned DocumentChunk.tenantId t db.chunks

def Document.Of (t : Uuid) (d : Document) : Prop := d.tenantId = t ∧ issuer d.id = t

def DocumentFile.Of (t : Uuid) (f : DocumentFile) : Prop := f.tenantId = t ∧ issuer f.documentId = t

def DocumentChunk.Of (t : Uuid) (c : DocumentChunk) : Prop := c.tenantId = t ∧ issuer c.id = t ∧ issuer c.documentId = t

structure Db.Owned (db : Db) : Prop where
  documents : ∀ d ∈ db.documents, d.Of issuer d.tenantId
  files : ∀ f ∈ db.files, f.Of issuer f.tenantId
  chunks : ∀ c ∈ db.chunks, c.Of issuer c.tenantId

/-- Rows are deleted by the tenant, too. -/
def Write.Of (t : Uuid) : Write → Prop
  | .document row => row.Of issuer t
  | .file row => row.Of issuer t
  | .chunk row => row.Of issuer t
  | .updateDocument id _ => issuer id = t
  | .deleteChunks _ tenantId | .deleteFile _ tenantId | .deleteDocument _ tenantId => tenantId = t

variable {issuer} {t u : Uuid} {db : Db} {w : Write} {α : Type}

/-! ## Writes -/

theorem mem_of_filter {ρ : Type} {P : ρ → Prop} {rows : List ρ} {q : ρ → Bool} (h : ∀ r ∈ rows, P r) :
    ∀ r ∈ rows.filter q, P r :=
  fun r hr => h r (List.mem_of_mem_filter hr)

theorem Db.Owned.apply (hdb : db.Owned issuer) (hw : w.Of issuer t) : (db.apply w).Owned issuer := by
  cases w with
  | document row => exact { hdb with documents := forall_mem_concat hdb.documents (hw.1 ▸ hw) }
  | file row => exact { hdb with files := forall_mem_concat hdb.files (hw.1 ▸ hw) }
  | chunk row => exact { hdb with chunks := forall_mem_concat hdb.chunks (hw.1 ▸ hw) }
  | updateDocument id state =>
      refine { hdb with documents := fun d hd => ?_ }
      obtain ⟨d₀, hd₀, rfl⟩ := List.mem_map.mp hd
      have hrow := hdb.documents d₀ hd₀
      split
      · exact hrow
      · exact hrow
  | deleteChunks id tenantId => exact { hdb with chunks := mem_of_filter hdb.chunks }
  | deleteFile id tenantId => exact { hdb with files := mem_of_filter hdb.files }
  | deleteDocument id tenantId =>
      exact ⟨mem_of_filter hdb.documents, mem_of_filter hdb.files, mem_of_filter hdb.chunks⟩

theorem Document.tenantId_setWhere (id : Uuid) (state : DocumentState) (d : Document) :
    (if d.id = id then d.set state else d).tenantId = d.tenantId := by
  split <;> rfl

theorem share_apply_own (hw : w.Of issuer t) : (db.apply w).share t = (db.share t).apply w := by
  cases w with
  | document row => simp only [Db.share, Db.apply, owned_concat_own hw.1]
  | file row => simp only [Db.share, Db.apply, owned_concat_own hw.1]
  | chunk row => simp only [Db.share, Db.apply, owned_concat_own hw.1]
  | updateDocument id state =>
      simp only [Db.share, Db.apply, setDocument]
      rw [owned_map _ fun d _ => Document.tenantId_setWhere id state d]
  | deleteChunks id tenantId | deleteFile id tenantId | deleteDocument id tenantId =>
      simp only [Db.share, Db.apply, owned_filter]

/-- A deletion of one tenant keeps the rows of another. -/
theorem owned_filter_documents (id : Uuid) (hne : u ≠ t) :
    owned Document.tenantId t (db.documents.filter fun d => !d.is id u) = owned Document.tenantId t db.documents :=
  owned_filter_other fun d _ hd => by simp [Document.is, hd, hne.symm]

theorem owned_filter_files (id : Uuid) (hne : u ≠ t) :
    owned DocumentFile.tenantId t (db.files.filter fun f => !f.of id u) = owned DocumentFile.tenantId t db.files :=
  owned_filter_other fun f _ hf => by simp [DocumentFile.of, hf, hne.symm]

theorem owned_filter_chunks (id : Uuid) (hne : u ≠ t) :
    owned DocumentChunk.tenantId t (db.chunks.filter fun c => !c.of id u) = owned DocumentChunk.tenantId t db.chunks :=
  owned_filter_other fun c _ hc => by simp [DocumentChunk.of, hc, hne.symm]

theorem share_apply_other (hdb : db.Owned issuer) (hw : w.Of issuer u) (hne : u ≠ t) : (db.apply w).share t = db.share t := by
  cases w with
  | document row => simp only [Db.share, Db.apply, owned_concat_other (hw.1.trans_ne hne)]
  | file row => simp only [Db.share, Db.apply, owned_concat_other (hw.1.trans_ne hne)]
  | chunk row => simp only [Db.share, Db.apply, owned_concat_other (hw.1.trans_ne hne)]
  | updateDocument id state =>
      simp only [Db.share, Db.apply, setDocument]
      rw [owned_map_other _ fun d _ => Document.tenantId_setWhere id state d]
      intro d hd ht
      rw [if_neg fun hid => hne (hw.symm.trans ((congrArg issuer hid).symm.trans ((hdb.documents d hd).2.trans ht)))]
  | deleteChunks id tenantId =>
      obtain rfl : tenantId = u := hw
      simp only [Db.share, Db.apply, owned_filter_chunks id hne]
  | deleteFile id tenantId =>
      obtain rfl : tenantId = u := hw
      simp only [Db.share, Db.apply, owned_filter_files id hne]
  | deleteDocument id tenantId =>
      obtain rfl : tenantId = u := hw
      simp only [Db.share, Db.apply, owned_filter_documents id hne, owned_filter_files id hne, owned_filter_chunks id hne]

def division (issuer : Uuid → Uuid) : Division engine Choice Uuid where
  share := Db.share
  sound := Db.Owned issuer
  owns := Write.Of issuer
  supplies t c := ∀ k, issuer (c.fresh k) = t
  sound_apply := Db.Owned.apply
  share_own _ hw := share_apply_own hw
  share_other := share_apply_other
  deferred _ _ := rfl

/-! ## Statements -/

section
variable {id : Uuid}

theorem find?_document (id : Uuid) :
    ((division issuer).share t db).documents.find? (Document.is id t) = db.documents.find? (Document.is id t) :=
  find?_owned fun _ _ hd => of_decide_eq_true (Bool.and_eq_true_iff.mp hd).2

theorem filter_documents (id : Uuid) :
    ((division issuer).share t db).documents.filter (Document.is id t) = db.documents.filter (Document.is id t) :=
  filter_owned fun _ _ hd => of_decide_eq_true (Bool.and_eq_true_iff.mp hd).2

theorem filter_files (id : Uuid) :
    ((division issuer).share t db).files.filter (DocumentFile.of id t) = db.files.filter (DocumentFile.of id t) :=
  filter_owned fun _ _ hf => of_decide_eq_true (Bool.and_eq_true_iff.mp hf).2

theorem filter_chunks (id : Uuid) :
    ((division issuer).share t db).chunks.filter (DocumentChunk.of id t) = db.chunks.filter (DocumentChunk.of id t) :=
  filter_owned fun _ _ hc => of_decide_eq_true (Bool.and_eq_true_iff.mp hc).2

end

theorem confines_insertDocument {v : DocumentValues} (hv : v.tenantId = t) :
    (division issuer).Confines t (fun r => ∀ d, r = some d → issuer d.id = t) (insertDocument v) := by
  intro ctx db hctx hdb
  have hkey : (db.share t).documents.any (fun d => d.tenantId = v.tenantId && d.contentSha256 = v.contentSha256) =
      db.documents.any fun d => d.tenantId = v.tenantId && d.contentSha256 = v.contentSha256 :=
    any_owned fun d _ hd => (of_decide_eq_true (Bool.and_eq_true_iff.mp hd).1).trans hv
  have hfresh := all_fresh (fun d hd => (hdb.documents d hd).2) (hctx 0)
  constructor
  · unfold insertDocument
    dsimp only
    rw [show ((division issuer).share t db).documents.any _ = _ from hkey,
      show ((division issuer).share t db).documents.all _ = _ from hfresh]
  · unfold insertDocument
    refine Replies.checked ?_
    split
    · exact Division.Replies.nothing fun d hd => by cases hd
    · exact Replies.checked (Division.Replies.one ⟨hv, hctx 0⟩ fun d hd => Option.some.inj hd ▸ hctx 0)

theorem confines_selectDocumentByKey (contentSha256 : Text) :
    (division issuer).Confines t (fun _ => True) (selectDocumentByKey t contentSha256) :=
  Division.Confines.read fun _ _ _ =>
    ⟨find?_owned fun _ _ hd => of_decide_eq_true (Bool.and_eq_true_iff.mp hd).1, trivial⟩

theorem confines_selectDocument (id : Uuid) : (division issuer).Confines t (fun _ => True) (selectDocument id t) :=
  Division.Confines.read fun _ _ _ => ⟨find?_document id, trivial⟩

theorem confines_selectDocumentForUpdate (id : Uuid) :
    (division issuer).Confines t (fun _ => True) (selectDocumentForUpdate id t) := by
  intro ctx db hctx hdb
  unfold selectDocumentForUpdate
  rw [find?_document]
  refine ⟨rfl, ?_⟩
  cases db.documents.find? (Document.is id t) with
  | none => exact Division.Replies.nothing trivial
  | some d => exact Division.Replies.nothing trivial

/-- A document that is updated is the tenant's, and so is the id it is found by. -/
theorem confines_updateDocument (checks : List (Bool × SqlState)) (id : Uuid) (statuses : List DocumentStatus)
    (set : Timestamp → DocumentState → DocumentState) :
    (division issuer).Confines t (fun r => ∀ d, r = some d → issuer id = t) (updateDocument checks id t statuses set) := by
  intro ctx db hctx hdb
  have hfind : (db.share t).documents.find? (fun d => d.is id t && statuses.contains d.status) =
      db.documents.find? fun d => d.is id t && statuses.contains d.status :=
    find?_owned fun _ _ hd => of_decide_eq_true (Bool.and_eq_true_iff.mp (Bool.and_eq_true_iff.mp hd).1).2
  unfold updateDocument
  rw [show ((division issuer).share t db).documents.find? _ = _ from hfind]
  refine ⟨rfl, Replies.checked ?_⟩
  cases hd : db.documents.find? fun d => d.is id t && statuses.contains d.status with
  | none => exact Division.Replies.nothing fun d hd => by cases hd
  | some d =>
      obtain ⟨hmem, hq⟩ := find?_spec hd
      obtain ⟨hid, htenant⟩ := Bool.and_eq_true_iff.mp (Bool.and_eq_true_iff.mp hq).1
      have hof : issuer d.id = t := (hdb.documents d hmem).2.trans (of_decide_eq_true htenant)
      exact Division.Replies.one hof fun _ _ => of_decide_eq_true hid ▸ hof

theorem confines_deleteDocument (id : Uuid) : (division issuer).Confines t (fun _ => True) (Sql.deleteDocument id t) := by
  intro ctx db hctx hdb
  unfold Sql.deleteDocument
  rw [filter_documents]
  exact ⟨rfl, Division.Replies.one rfl trivial⟩

theorem confines_insertFile {v : FileValues} (hv : v.tenantId = t) (hid : issuer v.documentId = t) :
    (division issuer).Confines t (fun _ => True) (insertFile v) := by
  intro ctx db hctx hdb
  have hfresh : (db.share t).files.all (fun f => f.documentId ≠ v.documentId) =
      db.files.all fun f => f.documentId ≠ v.documentId := all_fresh (fun f hf => (hdb.files f hf).2) hid
  refine ⟨?_, Replies.checked (Division.Replies.one ⟨hv, hid⟩ trivial)⟩
  unfold insertFile
  dsimp only
  rw [show ((division issuer).share t db).files.all _ = _ from hfresh]

theorem confines_selectFile (documentId : Uuid) : (division issuer).Confines t (fun _ => True) (Sql.selectFile documentId t) :=
  Division.Confines.read fun _ _ _ =>
    ⟨find?_owned fun _ _ hf => of_decide_eq_true (Bool.and_eq_true_iff.mp hf).2, trivial⟩

theorem confines_deleteFile (documentId : Uuid) : (division issuer).Confines t (fun _ => True) (deleteFile documentId t) := by
  intro ctx db hctx hdb
  unfold deleteFile
  rw [filter_files]
  exact ⟨rfl, Division.Replies.one rfl trivial⟩

theorem confines_insertChunks {documentId : Uuid} (hid : issuer documentId = t) (values : List ChunkValues) :
    (division issuer).Confines t (fun _ => True) (insertChunks documentId t values) := by
  intro ctx db hctx hdb
  unfold insertChunks
  dsimp only
  generalize hmade : values.zipIdx.map _ = rows
  have hrows : ∀ c ∈ rows, c.Of issuer t := by
    subst hmade
    intro c hc
    obtain ⟨⟨v, k⟩, hv, rfl⟩ := List.mem_map.mp hc
    exact ⟨rfl, hctx k, hid⟩
  have hordinals (v : ChunkValues) : (db.share t).chunks.all (fun c => !(c.documentId = documentId && c.ordinal = v.ordinal)) =
      db.chunks.all fun c => !(c.documentId = documentId && c.ordinal = v.ordinal) :=
    all_owned fun c hc hne => by simp [ne_of_issuer (hdb.chunks c hc).2.2 hne hid]
  constructor
  · rw [show freshIds DocumentChunk.id _ ((division issuer).share t db).chunks = _ from
      freshIds_owned (fun c hc => (hdb.chunks c hc).2.1) fun c hc => (hrows c hc).2.1]
    simp only [show ∀ v : ChunkValues, ((division issuer).share t db).chunks.all (fun c =>
      !(c.documentId = documentId && c.ordinal = v.ordinal)) = _ from hordinals]
  · refine Replies.checked ⟨fun w hw => ?_, trivial⟩
    obtain ⟨c, hc, rfl⟩ := List.mem_map.mp hw
    exact hrows c hc

theorem confines_deleteChunks (documentId : Uuid) : (division issuer).Confines t (fun _ => True) (deleteChunks documentId t) := by
  intro ctx db hctx hdb
  unfold deleteChunks
  rw [filter_chunks]
  exact ⟨rfl, Division.Replies.one rfl trivial⟩

theorem confines_selectDocumentsPage {q : DocumentQuery} (hq : q.tenantId = t) (after : Option Cursor.DocumentKey) :
    (division issuer).Confines t (fun _ => True) (selectDocumentsPage q after) := by
  intro ctx db hctx hdb
  have hrows : ((division issuer).share t db).documents.filter q.admits = db.documents.filter q.admits :=
    filter_owned fun d _ hd => (of_decide_eq_true (Bool.and_eq_true_iff.mp hd).1).trans hq
  unfold selectDocumentsPage
  rw [hrows]
  dsimp only
  split
  · exact ⟨rfl, Division.Replies.nothing trivial⟩
  · split
    · exact ⟨rfl, trivial⟩
    · exact ⟨rfl, trivial⟩
    · exact ⟨rfl, Division.Replies.nothing trivial⟩

theorem confines_selectStoredFile (id : Uuid) : (division issuer).Confines t (fun _ => True) (selectStoredFile id t) := by
  refine Division.Confines.read fun ctx db hdb => ⟨?_, trivial⟩
  have hfiles : joinedFiles ((division issuer).share t db) id t = joinedFiles db id t := by
    unfold joinedFiles
    rw [filter_documents]
    refine List.flatMap_congr fun d hd => ?_
    obtain ⟨-, hd⟩ := List.mem_filter.mp hd
    obtain rfl : d.tenantId = t := of_decide_eq_true (Bool.and_eq_true_iff.mp hd).2
    rw [filter_files]
  rw [hfiles]

theorem confines_selectChunks (V : Pgvector) {r : SearchRequest} (hr : r.tenantId = t) :
    (division issuer).Confines t (fun _ => True) (selectChunks V r) := by
  intro ctx db hctx hdb
  have hjoined (vector : Embedding) :
      joinedChunks V ((division issuer).share t db) r.tenantId vector = joinedChunks V db r.tenantId vector := by
    have hchunks : ((division issuer).share t db).chunks.filter (fun c => c.tenantId = r.tenantId) =
        db.chunks.filter fun c => c.tenantId = r.tenantId :=
      filter_owned fun c _ hc => (of_decide_eq_true hc).trans hr
    unfold joinedChunks
    rw [hchunks]
    refine List.flatMap_congr fun c _ => congrArg (List.map _) (filter_owned fun d _ hd => ?_)
    exact (of_decide_eq_true (Bool.and_eq_true_iff.mp (Bool.and_eq_true_iff.mp hd).1).2).trans hr
  unfold selectChunks
  split
  · exact ⟨rfl, trivial⟩
  · rw [hjoined]
    exact ⟨rfl, Division.Replies.nothing trivial⟩

/-! ## Transactions -/

section
variable (digest : List UInt8 → Text)

theorem confined_createDocument (r : UploadRequest) :
    (createDocument digest r).Confined (division issuer) r.tenantId fun _ => True := by
  unfold createDocument
  split
  · trivial
  · refine Program.Confined.statement (confines_insertDocument rfl) fun created hcreated => ?_
    cases created with
    | none => exact Program.Confined.statement (confines_selectDocumentByKey _) fun _ _ => trivial
    | some d => exact Program.Confined.statement (confines_insertFile rfl (hcreated d rfl)) fun _ _ => trivial

end

theorem confined_getDocument (r : DocumentRequest) :
    (getDocument r).Confined (division issuer) r.tenantId fun _ => True := by
  unfold getDocument
  refine Program.Confined.statement (confines_selectDocument _) fun doc _ => ?_
  cases doc <;> trivial

theorem confined_retryDocument (r : DocumentRequest) :
    (retryDocument r).Confined (division issuer) r.tenantId fun _ => True := by
  unfold retryDocument
  refine Program.Confined.statement (confines_updateDocument _ _ _ _) fun doc _ => ?_
  cases doc with
  | none => exact (confined_getDocument r).bind fun _ _ => trivial
  | some doc => trivial

theorem confined_deleteDocument (r : DocumentRequest) :
    (deleteDocument r).Confined (division issuer) r.tenantId fun _ => True := by
  unfold deleteDocument
  refine Program.Confined.statement (confines_selectDocumentForUpdate _) fun doc _ => ?_
  cases doc with
  | none => trivial
  | some doc =>
      dsimp only
      split
      · trivial
      · refine Program.Confined.statement (confines_deleteChunks _) fun _ _ => ?_
        refine Program.Confined.statement (confines_deleteFile _) fun _ _ => ?_
        exact Program.Confined.one (confines_deleteDocument _)

theorem confined_writeChunks (r : WriteRequest) :
    (writeChunks r).Confined (division issuer) r.document.tenantId fun _ => True := by
  unfold writeChunks
  split
  · trivial
  · split
    · trivial
    · refine Program.Confined.statement (confines_updateDocument _ _ _ _) fun updated hupdated => ?_
      cases updated with
      | none => trivial
      | some d =>
          refine Program.Confined.statement (confines_deleteChunks _) fun _ _ => ?_
          exact Program.Confined.statement (confines_insertChunks (hupdated d rfl) _) fun _ _ => trivial

theorem confined_markDocumentsFailed (r : DocumentRequest) (message : Text) :
    (markDocumentsFailed r message).Confined (division issuer) r.tenantId fun _ => True :=
  Program.Confined.statement (confines_updateDocument _ _ _ _) fun _ _ => trivial

theorem confined_listDocuments (B : Buffers) (zone : Zone) (q : DocumentQuery) :
    (listDocuments B zone q).Confined (division issuer) q.tenantId fun _ => True := by
  unfold listDocuments
  split
  · trivial
  · exact Program.Confined.statement (confines_selectDocumentsPage rfl _) fun _ _ => trivial

theorem confined_getDocumentFile (r : DocumentRequest) :
    (getDocumentFile r).Confined (division issuer) r.tenantId fun _ => True := by
  unfold getDocumentFile
  refine Program.Confined.statement (confines_selectStoredFile _) fun file _ => ?_
  cases file <;> trivial

theorem confined_searchChunks (V : Pgvector) (r : SearchRequest) :
    (searchChunks V r).Confined (division issuer) r.tenantId fun _ => True := by
  unfold searchChunks
  split
  · trivial
  · exact Program.Confined.statement (confines_selectChunks V rfl) fun _ _ => trivial

/-- The tenant that a request names. -/
def Request.tenantId : Request → Uuid
  | .createDocument r => r.tenantId
  | .getDocument r | .retryDocument r | .deleteDocument r | .claimDocument r | .selectFile r
  | .markDocumentsFailed r _ => r.tenantId
  | .writeChunks r => r.document.tenantId

theorem confined_program (digest : List UInt8 → Text) (q : Request) :
    (program digest q).Confined (division issuer) q.tenantId fun _ => True := by
  cases q with
  | createDocument r => exact (confined_createDocument digest r).bind fun _ _ => trivial
  | getDocument r => exact (confined_getDocument r).bind fun _ _ => trivial
  | retryDocument r => exact (confined_retryDocument r).bind fun _ _ => trivial
  | deleteDocument r => exact (confined_deleteDocument r).bind fun _ _ => trivial
  | claimDocument r =>
      exact Program.Confined.bind (Program.Confined.one (confines_updateDocument _ _ _ _)) fun _ _ => trivial
  | selectFile r => exact Program.Confined.bind (Program.Confined.one (confines_selectFile _)) fun _ _ => trivial
  | writeChunks r => exact (confined_writeChunks r).bind fun _ _ => trivial
  | markDocumentsFailed r message => exact (confined_markDocumentsFailed r message).bind fun _ _ => trivial

end FinSight.Documents
