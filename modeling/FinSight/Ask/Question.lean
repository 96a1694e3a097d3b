import FinSight.Ask.LlmBudget
import FinSight.Ask.Parse
import FinSight.Documents.Retrieval
import FinSight.Documents.Worker
import FinSight.Interaction.Basic
import FinSight.ReadCommitted.Alone

/-!
# Questions (`src/modules/ask/ask.service.js`, `src/infrastructure/llm/generator.js`, `retrieval/retrieve.js`)

A question is answered from the chunks that are nearest to it, by a language model outside of the repository.

* `Effect`, `Reply` : what a question stops at, and what it is answered;
* `retrieveChunks`, `callOnce`, `generate`, `askQuestion` : the functions;
* `May` : what the database answers.

The trace that is logged, and the times in it, are left out, as are `model`, `usage` and `finishReason` of a generation.
-/

namespace FinSight.Ask

open Documents ReadCommitted

/-! ## Effects -/

inductive Effect where
  | embedQuery (text : Text)
  | searchChunks (r : SearchRequest)
  | hasDocumentsInProgress (tenantId : Uuid)
  | consumeLlmBudget (tenantId : Text)
  | fetch (system prompt : Text)
  /-- `setTimeout`. -/
  | wait (ms : Rat)
  deriving DecidableEq

/-- The end of a `fetch`. `retryAfterSeconds` : the number in the header, where it is finite; `content` : the message of the
first choice, where it is a string. -/
inductive FetchResult where
  | timeout
  | unavailable
  | status (code : Nat) (retryAfterSeconds : Option Rat)
  | content (content : Option Text)
  deriving DecidableEq

/-- Only theorems read which database a statement has met, and the call that the counters have got. -/
def Reply : Effect → Type
  | .embedQuery _ => Except Thrown (List (Option Rat))
  | .searchChunks _ => Documents.Db × Except Failure (List (Hit × Option Rat))
  | .hasDocumentsInProgress _ => Documents.Db × Except Failure Bool
  | .consumeLlmBudget _ => Counters.Call Text × Option LlmBudget.LlmBudgetExceeded
  | .fetch _ _ => FetchResult
  | .wait _ => Unit

abbrev Event := Interaction.Event Reply

inductive Refusal where
  | app (e : AppError)
  | budget (e : LlmBudget.LlmBudgetExceeded)
  | database (e : Failure)
  | thrown (e : Thrown)
  | error (message : Text)
  deriving DecidableEq

abbrev Asking (α : Type) := Interaction Effect Reply Refusal α

def embed (query : Text) : Asking (List (Option Rat)) :=
  .perform (.embedQuery query) fun
    | .ok vector => .ret vector
    | .error e => .throw (.thrown e)

def search (r : SearchRequest) : Asking (List (Hit × Option Rat)) :=
  .perform (.searchChunks r) fun
    | (_, .ok hits) => .ret hits
    | (_, .error e) => .throw (.database e)

def documentsInProgress (tenantId : Uuid) : Asking Bool :=
  .perform (.hasDocumentsInProgress tenantId) fun
    | (_, .ok b) => .ret b
    | (_, .error e) => .throw (.database e)

def consumeLlmBudget (tenantId : Text) : Asking Unit :=
  .perform (.consumeLlmBudget tenantId) fun
    | (_, none) => .ret ()
    | (_, some e) => .throw (.budget e)

/-! ## Retrieval -/

structure AskRequest where
  tenantId : Uuid
  question : Text
  k : Option Nat
  deriving DecidableEq

def queryPrefix : Text := text "Represent this sentence for searching relevant passages: "

def askDefaultK : Nat := 5

/-- `k` is `askDefaultK` where the request has none. -/
def AskRequest.search (r : AskRequest) (vector : List (Option Rat)) : SearchRequest :=
  ⟨r.tenantId, vector, some (r.k.getD askDefaultK)⟩

def retrieveChunks (r : AskRequest) : Asking (List (Hit × Option Rat)) :=
  let q := trim r.question
  if q = [] then .throw (.error (text "question must be non-empty string"))
  else do
    let vector ← embed (queryPrefix ++ q)
    search (r.search vector)

/-! ## Generation -/

structure LlmError where
  error : AppError
  retryable : Bool
  retryAfterMs : Option Rat

def retryableStatus : List Nat := [429, 500, 502, 503, 504]

def retryDelayMs : Rat := 500

def maxRetryAfterMs : Rat := 5000

/-- `null` where the header has no positive number. -/
def retryAfterMs (retryAfterSeconds : Option Rat) : Option Rat :=
  retryAfterSeconds.bind fun s => if 0 < s then some (min (nearestDouble (s * 1000)) maxRetryAfterMs) else none

def upstreamError (message code : Text) (retryable : Bool) (retryAfterMs : Option Rat) : LlmError :=
  ⟨⟨message, 502, code⟩, retryable, retryAfterMs⟩

def callOnce (p : Prompt) : Asking (Except LlmError Text) :=
  .perform (.fetch p.system p.prompt) fun
    | .timeout => .ret (.error ⟨⟨text "The answer service timed out", 504, text "LLM_TIMEOUT"⟩, false, none⟩)
    | .unavailable =>
        .ret (.error (upstreamError (text "The answer service is unavailable") (text "LLM_UNAVAILABLE") true none))
    | .status code retryAfterSeconds =>
        .ret (.error (upstreamError (text "The answer service returned an error") (text "LLM_UPSTREAM_ERROR")
          (retryableStatus.contains code) (retryAfterMs retryAfterSeconds)))
    | .content none =>
        .ret (.error (upstreamError (text "The answer service returned an unexpected response") (text "LLM_BAD_RESPONSE")
          false none))
    | .content (some answer) => .ret (.ok answer)

/-- One more call where the error may pass. -/
def generate (p : Prompt) : Asking Text := do
  match ← callOnce p with
  | .ok answer => return answer
  | .error e =>
      if e.retryable = false then .throw (.app e.error)
      else
        .perform (.wait (e.retryAfterMs.getD retryDelayMs)) fun _ => do
          match ← callOnce p with
          | .ok answer => return answer
          | .error e => .throw (.app e.error)

/-! ## askQuestion -/

/-- `ASK_MIN_SCORE`, the double that is nearest to 0.55. -/
def askMinScore : Rat := nearestDouble (55 / 100)

def abstainMessage : Text := text "I couldn't find an answer to that in your documents."

inductive Reason where
  | noDocuments | documentsProcessing | belowScoreFloor
  | model (reason : AbstainReason)
  deriving DecidableEq

structure AskResult where
  abstained : Bool
  reason : Option Reason
  answer : Text
  citations : List Citation
  deriving DecidableEq

def abstain (reason : Reason) : AskResult := ⟨true, some reason, abstainMessage, []⟩

/-- The columns of a row that the prompt and the citations use. -/
def chunkOf (h : Hit) : RetrievedChunk where
  chunkId := h.chunkId
  documentId := h.documentId
  documentTitle := h.documentTitle
  sectionHeading := h.sectionHeading
  pageStart := h.pageStart
  pageEnd := h.pageEnd
  content := h.content

/-- `topScore < minScore`; a `NaN` is below nothing. -/
def belowFloor (score : Option Rat) : Bool := score.any fun s => s < askMinScore

def promptOf (r : AskRequest) (hits : List (Hit × Option Rat)) : Prompt :=
  buildPrompt r.question (hits.map fun h => chunkOf h.1) maxContextChars

def resultOf (parsed : ParsedAnswer) : AskResult :=
  match parsed with
  | .abstained reason _ => abstain (.model reason)
  | .answered a => ⟨false, none, a.answer, a.citations⟩

/-- `configured` : whether the environment has the address and the key of a model. -/
def askQuestion (configured : Bool) (r : AskRequest) : Asking AskResult := do
  let hits ← retrieveChunks r
  match hits.head? with
  | none => do
      let processing ← documentsInProgress r.tenantId
      return abstain (if processing then .documentsProcessing else .noDocuments)
  | some top =>
      if belowFloor top.2 then return abstain .belowScoreFloor
      else if configured = false then
        .throw (.app ⟨text "The answer service is not configured", 503, text "LLM_NOT_CONFIGURED"⟩)
      else do
        consumeLlmBudget r.tenantId.text
        let answer ← generate (promptOf r hits)
        return resultOf (parseAnswer (some answer) (promptOf r hits).used)

/-! ## The database -/

/-- `WHERE tenant_id = … AND status IN ('pending', 'processing')`. -/
def inProgress (db : Documents.Db) (tenantId : Uuid) : Bool :=
  db.documents.any fun d => d.tenantId = tenantId && (d.status = .pending || d.status = .processing)

/-- A statement answers for the database that it meets, or fails; the counters get the tenant. -/
def May (V : Pgvector) : Event → Prop
  | ⟨.searchChunks r, (db, .ok hits)⟩ =>
      ∃ now choices, ((searchChunks V r).alone Documents.engine now db [] choices).1 = .ok hits
  | ⟨.hasDocumentsInProgress tenantId, (db, .ok b)⟩ => b = inProgress db tenantId
  | ⟨.consumeLlmBudget tenantId, (call, _)⟩ => call.request = tenantId
  | _ => True

end FinSight.Ask
