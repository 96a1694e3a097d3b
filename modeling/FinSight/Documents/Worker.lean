import FinSight.Documents.Service

/-!
# Around the transactions (`document.service.js`, `document.ingest.js`, `infrastructure/queue/document.worker.js`)

A `Service` issues one transaction, queue command or call of a library at a time, and continues with the answer, which may
be an error. What PDF extraction (`ingest/extract.js`), the tokenizer and the embedding model answer is left open.

* `createDocument`, `retryDocument` : with the queue command after the transaction;
* `ingestDocument`, `processDocumentJob` : one attempt of a job;
* `enqueueIngestion`, `ingestionJobId`, `retryJobId` : the ids of jobs (`infrastructure/queue/document.queue.js`);
* `Service.Every` : what all requests of a service have in common, whatever it is answered.
-/

namespace FinSight.Documents

/-- What is thrown outside a transaction. -/
inductive Thrown where
  | unextractable (message : Text)
  | unrecoverable (message : Text)
  | failure (e : Failure)
  deriving DecidableEq

/-- `error?.message ?? error`; `describe` is what the driver says of an SQL error. -/
def Thrown.message (describe : SqlState → Text) : Thrown → Text
  | .unextractable message => message
  | .unrecoverable message => message
  | .failure (.app e) => e.message
  | .failure (.sql s) => describe s
  | .failure (.error message) => message

/-- `error instanceof UnextractableDocumentError`. -/
def Thrown.permanent : Thrown → Bool
  | .unextractable _ => true
  | .unrecoverable _ | .failure _ => false

/-- BullMQ attempts a job again unless its error is an `UnrecoverableError`. -/
def Thrown.recoverable : Thrown → Bool
  | .unrecoverable _ => false
  | .unextractable _ | .failure _ => true

inductive Service (α : Type) where
  | ret (a : α)
  | throw (e : Thrown)
  | transact (q : Request) (next : Except Thrown Response → Service α)
  | enqueue (jobId : Text) (data : DocumentRequest) (next : Except Thrown Unit → Service α)
  | randomUuid (next : Uuid → Service α)
  | extract (bytes : List UInt8) (next : Except Thrown (List Ingest.Page) → Service α)
  | tokenCounter (next : Except Thrown (Text → Nat) → Service α)
  | embed (texts : List Text) (next : Except Thrown (List Embedding) → Service α)

namespace Service

def bind {α β : Type} : Service α → (α → Service β) → Service β
  | .ret a, f => f a
  | .throw e, _ => .throw e
  | .transact q next, f => .transact q fun r => (next r).bind f
  | .enqueue jobId data next, f => .enqueue jobId data fun r => (next r).bind f
  | .randomUuid next, f => .randomUuid fun u => (next u).bind f
  | .extract bytes next, f => .extract bytes fun r => (next r).bind f
  | .tokenCounter next, f => .tokenCounter fun r => (next r).bind f
  | .embed texts next, f => .embed texts fun r => (next r).bind f

instance : Monad Service where
  pure := .ret
  bind := bind

/-- `try { … } catch (error) { … }`. -/
def tryCatch {α : Type} : Service α → (Thrown → Service α) → Service α
  | .ret a, _ => .ret a
  | .throw e, handle => handle e
  | .transact q next, handle => .transact q fun r => (next r).tryCatch handle
  | .enqueue jobId data next, handle => .enqueue jobId data fun r => (next r).tryCatch handle
  | .randomUuid next, handle => .randomUuid fun u => (next u).tryCatch handle
  | .extract bytes next, handle => .extract bytes fun r => (next r).tryCatch handle
  | .tokenCounter next, handle => .tokenCounter fun r => (next r).tryCatch handle
  | .embed texts next, handle => .embed texts fun r => (next r).tryCatch handle

/-- An answer, its errors thrown. -/
def answer {α : Type} : Except Thrown α → Service α
  | .ok a => .ret a
  | .error e => .throw e

/-- A transaction; `read` finds its result in the answer, which is always one to this request. -/
def transaction {α : Type} (q : Request) (read : Response → Option α) : Service α :=
  .transact q fun
    | .ok r => match read r with
        | some a => .ret a
        | none => .throw (.failure (.error (text "answer to another request")))
    | .error e => .throw e

end Service

/-! ## Queue commands -/

def ingestionJobId (documentId : UuidText) : Text := text "ingest-" ++ documentId.text

def retryJobId (documentId : UuidText) (u : Uuid) : Text :=
  text "ingest-" ++ documentId.text ++ text "-retry-" ++ u.text

def enqueueIngestion (data : DocumentRequest) (jobId : Text) : Service Unit := .enqueue jobId data .answer

namespace Service

/-! ## Calls of the routes -/

/-- An upload, with its job. -/
def createDocument (r : UploadRequest) : Service CreateResult := do
  let result ← transaction (.createDocument r) fun | .created result => some result | _ => none
  match result.wantsJob, result.document with
  | .ok true, some document => do
      let documentId := document.id.spelled
      enqueueIngestion ⟨r.tenantId, documentId⟩ (ingestionJobId documentId)
      return result
  | .ok _, _ => return result
  | .error e, _ => .throw (.failure e)

def getDocument (r : DocumentRequest) : Service Document :=
  transaction (.getDocument r) fun | .document doc => some doc | _ => none

def retryDocument (r : DocumentRequest) : Service Document := do
  let doc ← transaction (.retryDocument r) fun | .document doc => some doc | _ => none
  let u ← Service.randomUuid .ret
  enqueueIngestion r (retryJobId r.documentId u)
  return doc

def deleteDocument (r : DocumentRequest) : Service Unit :=
  transaction (.deleteDocument r) fun | .deleted => some () | _ => none

/-! ## Ingestion -/

inductive IngestResult where
  | skipped
  | ingested (pageCount chunkCount : Nat)
  deriving DecidableEq

end Service

/-- `/\.pdf$/i`. -/
def endsInPdf (t : Text) : Bool :=
  match t.drop (t.length - 4) with
  | [dot, p, d, f] =>
      dot == unit '.' && (p == unit 'p' || p == unit 'P') && (d == unit 'd' || d == unit 'D') &&
        (f == unit 'f' || f == unit 'F')
  | _ => false

def withoutPdf (t : Text) : Text := if endsInPdf t then t.take (t.length - 4) else t

example : withoutPdf (text "Terms.PDF") = text "Terms" := by decide

/-- `claimed.title?.replace(/\.pdf$/i, "") || undefined`, where `chunkDocument` has a default. -/
def fallbackTitle (title : Option Text) : Text :=
  match title.map withoutPdf with
  | none | some [] => text "Untitled document"
  | some t => t

namespace Service

/-- What follows the claim. -/
def ingestClaimed (r : DocumentRequest) (claimed : Document) : Service IngestResult := do
  let file ← transaction (.selectFile r) fun | .file row => some row | _ => none
  match file with
  | none => .throw (.unextractable (text "Document file missing"))
  | some file => do
    let pages ← Service.extract file.bytes answer
    let countTokens ← Service.tokenCounter answer
    let chunks := Ingest.chunkDocument (Ingest.parseStructure pages) countTokens (fallbackTitle claimed.title)
      Ingest.defaultOptions
    if chunks.length = 0 then .throw (.unextractable (text "Document produced no chunkable text"))
    else do
      let vectors ← Service.embed (chunks.map fun (_, c) => c.content) answer
      let written ← transaction (.writeChunks ⟨r, pages.length, chunks, vectors⟩)
        fun | .written written => some written | _ => none
      if written then return .ingested pages.length chunks.length else return .skipped

def ingestDocument (r : DocumentRequest) : Service IngestResult := do
  let claimed ← transaction (.claimDocument r) fun | .claimed row => some row | _ => none
  match claimed with
  | none => return .skipped
  | some claimed => ingestClaimed r claimed

variable (describe : SqlState → Text)

def markDocumentsFailed (r : DocumentRequest) (error : Thrown) : Service Unit :=
  transaction (.markDocumentsFailed r (error.message describe)) fun | .marked => some () | _ => none

/-- The `catch` block. -/
def attemptFailed (data : DocumentRequest) (attemptsMade attempts : Nat) (error : Thrown) : Service IngestResult := do
  let isFinalAttempt := error.permanent || attempts ≤ attemptsMade + 1
  if isFinalAttempt then markDocumentsFailed describe data error
  .throw (if error.permanent then .unrecoverable (error.message describe) else error)

/-- One attempt of a job with this data. -/
def processDocumentJob (data : DocumentRequest) (attemptsMade attempts : Nat) : Service IngestResult :=
  (ingestDocument data).tryCatch (attemptFailed describe data attemptsMade attempts)

end Service

/-! ## What a service may still request -/

/-- All requests that the service may come to satisfy `P`. -/
def Service.Every {α : Type} (P : Request → Prop) : Service α → Prop
  | .ret _ | .throw _ => True
  | .transact q next => P q ∧ ∀ r, (next r).Every P
  | .enqueue _ _ next => ∀ r, (next r).Every P
  | .randomUuid next => ∀ u, (next u).Every P
  | .extract _ next => ∀ r, (next r).Every P
  | .tokenCounter next => ∀ r, (next r).Every P
  | .embed _ next => ∀ r, (next r).Every P

theorem Service.Every.mono {α : Type} {P P' : Request → Prop} (hP : ∀ q, P q → P' q) {p : Service α} (h : p.Every P) :
    p.Every P' := by
  induction p with
  | ret _ | throw _ => trivial
  | transact q next ih => exact ⟨hP q h.1, fun r => ih r (h.2 r)⟩
  | enqueue _ _ next ih | extract _ next ih | embed _ next ih => exact fun r => ih r (h r)
  | randomUuid next ih | tokenCounter next ih => exact fun r => ih r (h r)

theorem Service.Every.bind {α β : Type} {P : Request → Prop} {p : Service α} {f : α → Service β} (hp : p.Every P)
    (hf : ∀ a, (f a).Every P) : (p >>= f).Every P := by
  induction p with
  | ret a => exact hf a
  | throw e => trivial
  | transact q next ih => exact ⟨hp.1, fun r => ih r (hp.2 r)⟩
  | enqueue _ _ next ih | extract _ next ih | embed _ next ih => exact fun r => ih r (hp r)
  | randomUuid next ih | tokenCounter next ih => exact fun r => ih r (hp r)

theorem Service.Every.tryCatch {α : Type} {P : Request → Prop} {p : Service α} {handle : Thrown → Service α}
    (hp : p.Every P) (hh : ∀ e, (handle e).Every P) : (p.tryCatch handle).Every P := by
  induction p with
  | ret a => trivial
  | throw e => exact hh e
  | transact q next ih => exact ⟨hp.1, fun r => ih r (hp.2 r)⟩
  | enqueue _ _ next ih | extract _ next ih | embed _ next ih => exact fun r => ih r (hp r)
  | randomUuid next ih | tokenCounter next ih => exact fun r => ih r (hp r)

theorem Service.every_answer {α : Type} {P : Request → Prop} (r : Except Thrown α) :
    (Service.answer r : Service α).Every P := by
  cases r <;> trivial

theorem Service.every_transaction {α : Type} {P : Request → Prop} {q : Request} {read : Response → Option α} (hq : P q) :
    (Service.transaction q read).Every P := by
  refine ⟨hq, fun r => ?_⟩
  rcases r with e | r
  · trivial
  · dsimp only
    split <;> trivial

section
variable {describe : SqlState → Text}

theorem every_ingestClaimed {P : Request → Prop} {r : DocumentRequest} {d : Document} (hfile : P (.selectFile r))
    (hwrite : ∀ w, w.document = r → P (.writeChunks w)) : (Service.ingestClaimed r d).Every P := by
  refine (Service.every_transaction hfile).bind fun file => ?_
  cases file with
  | none => trivial
  | some file =>
      refine Service.Every.bind (fun r => Service.every_answer r) fun pages => ?_
      refine Service.Every.bind (fun r => Service.every_answer r) fun countTokens => ?_
      dsimp only
      split
      · trivial
      · refine Service.Every.bind (fun r => Service.every_answer r) fun vectors => ?_
        refine (Service.every_transaction (hwrite _ rfl)).bind fun written => ?_
        cases written <;> trivial

theorem every_ingestDocument {P : Request → Prop} {r : DocumentRequest} (hclaim : P (.claimDocument r))
    (hfile : P (.selectFile r)) (hwrite : ∀ w, w.document = r → P (.writeChunks w)) : (Service.ingestDocument r).Every P := by
  refine (Service.every_transaction hclaim).bind fun claimed => ?_
  cases claimed with
  | none => trivial
  | some claimed => exact every_ingestClaimed hfile hwrite

theorem every_attemptFailed {P : Request → Prop} {r : DocumentRequest} {made attempts : Nat} {e : Thrown}
    (hmark : P (.markDocumentsFailed r (e.message describe))) : (Service.attemptFailed describe r made attempts e).Every P := by
  unfold Service.attemptFailed
  dsimp only
  split
  · exact (Service.every_transaction hmark).bind fun _ => trivial
  · exact trivial

end

end FinSight.Documents
