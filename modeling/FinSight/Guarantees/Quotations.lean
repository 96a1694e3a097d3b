import FinSight.Guarantees.Grounding
import FinSight.Guarantees.Index
import FinSight.Ingest.Excerpts

/-!
# Citations quote the files

* `App`, `App.Runs` : documents and questions at once, over one database;
* `IndexedEvents` : every database that has been searched was indexed by its files;
* `Quotation` : the file, the pages and the words that a citation points at;
* `quoted_of_runs`.
-/

namespace FinSight.Ask

open Documents Documents.Sql Ingest Interaction

/-- The documents with their workers and users, and the questions. -/
structure App where
  documents : Machine
  questions : Questions

/-- A statement meets the database as it is. -/
def Meets (db : Documents.Db) : Crowd.Move Reply AskRequest → Prop
  | .go _ ⟨.searchChunks _, (db', _)⟩ | .go _ ⟨.hasDocumentsInProgress _, (db', _)⟩ => db' = db
  | _ => True

section
variable (L : Libraries) (V : Pgvector) (digest : List UInt8 → Text) (describe : SqlState → Text) (configured : Bool)

inductive App.Runs : App → Prop
  | init : Runs ⟨.init, Crowd.empty⟩
  | work {s l m} : Runs s → Agrees L s.documents l → s.documents.step digest describe l = some m → Runs ⟨m, s.questions⟩
  | ask {s m q} : Runs s → Allowed V m → Meets s.documents.db m → s.questions.step (askQuestion configured) m = some q →
      Runs ⟨s.documents, q⟩

end

/-- What a citation points at: a stored chunk that the model has been shown, with words that stand together in the file of a
document of the tenant, on the pages that the citation names. -/
structure Quotation (L : Libraries) (db : Documents.Db) (r : AskRequest) (hits : List (Hit × Option Rat)) (c : Citation)
    (row : DocumentChunk) (d : Document) (f : DocumentFile) (pages : List Page) (chunk : Chunk) (body : Text)
    (ws : List (Text × Int)) : Prop where
  supports : Supports db r hits c row d
  file : f ∈ db.files ∧ f.documentId = d.id ∧ f.tenantId = r.tenantId
  extracted : extractDocumentText L.pdfjs f.bytes = .ok pages
  excerpt : Excerpt pages ((parseStructure pages).title.getD (fallbackTitle d.title)) chunk body ws
  content : row.content = toWellFormed chunk.content
  heading : row.sectionHeading = some (toWellFormed chunk.sectionHeading)
  pageStart : row.pageStart = chunk.pageStart
  pageEnd : row.pageEnd = chunk.pageEnd

section Chunks
variable {L : Libraries} {V : Pgvector} {db : Documents.Db} {r : AskRequest} {hits : List (Hit × Option Rat)}

/-- A stored chunk is one of ingestion, as Postgres keeps it. -/
theorem exists_chunk {d : Document} (h : Indexed L db d) {row : DocumentChunk} (hrow : row ∈ db.chunks)
    (hid : d.id = row.documentId) :
    ∃ f ∈ db.files, f.of d.id d.tenantId = true ∧ ∃ pages chunk body ws, extractDocumentText L.pdfjs f.bytes = .ok pages ∧
      Excerpt pages ((parseStructure pages).title.getD (fallbackTitle d.title)) chunk body ws ∧
      row.pageStart = chunk.pageStart ∧ row.pageEnd = chunk.pageEnd ∧
      row.sectionHeading = some (toWellFormed chunk.sectionHeading) ∧ row.content = toWellFormed chunk.content := by
  obtain ⟨f, hf, hof, w, ⟨⟨pages, hpages, -, hchunks⟩, -⟩, -, hrows⟩ := h
  obtain ⟨ordinal, chunk, v, hchunk, hstores⟩ := hrows.exists_of_mem
    (List.mem_filter.mpr ⟨hrow, decide_eq_true hid.symm⟩)
  have hmem : chunk ∈ w.chunks.map Prod.snd := List.mem_map_of_mem hchunk
  rw [hchunks] at hmem
  obtain ⟨body, ws, hexcerpt⟩ := excerpt_of_chunk hmem
  exact ⟨f, hf, hof, pages, chunk, body, ws, hpages, hexcerpt, hstores.pageStart, hstores.pageEnd, hstores.sectionHeading,
    hstores.content⟩

theorem quotation_of_supports (hindexed : ∀ d ∈ db.documents, d.status = .ready → Indexed L db d) {c : Citation}
    {row : DocumentChunk} {d : Document} (h : Supports db r hits c row d) :
    ∃ f pages chunk body ws, Quotation L db r hits c row d f pages chunk body ws := by
  obtain ⟨f, hf, hof, pages, chunk, body, ws, hpages, hexcerpt, hstart, hend, hheading, hcontent⟩ :=
    exists_chunk (hindexed d h.ready.document h.ready.ready) h.ready.chunk h.ready.of
  obtain ⟨hid, htenant⟩ := DocumentFile.of_iff.mp hof
  exact ⟨f, pages, chunk, body, ws, h, ⟨hf, hid, htenant.trans h.ready.documentTenant⟩, hpages, hexcerpt, hcontent, hheading,
    hstart, hend⟩

end Chunks

section Runs
variable {L : Libraries} {V : Pgvector} {digest : List UInt8 → Text} {describe : SqlState → Text} {configured : Bool} {s : App}

theorem App.Runs.of_documents {m : Machine} (h : Machine.Runs digest describe (Agrees L) m) :
    (App.mk m Crowd.empty).Runs L V digest describe configured := by
  induction h with
  | init => exact .init
  | step _ hagrees hstep ih => exact ih.work hagrees hstep

theorem App.Runs.enter (h : s.Runs L V digest describe configured) (r : AskRequest) :
    (App.mk s.documents ⟨s.questions.members ++ [(r, askQuestion configured r)], s.questions.events⟩).Runs L V digest describe
      configured := h.ask (m := .enter r) trivial trivial rfl

theorem App.Runs.go (h : s.Runs L V digest describe configured) {i : Nat} {r : AskRequest} {e : Event}
    {p p' : Asking AskResult} (hget : s.questions.members[i]? = some (r, p)) (hafter : p.after e = some p')
    (hallowed : Allowed V (.go i e)) (hmeets : Meets s.documents.db (.go i e)) :
    (App.mk s.documents ⟨s.questions.members.set i (r, p'), s.questions.events ++ [(i, e)]⟩).Runs L V digest describe
      configured := by
  refine h.ask hallowed hmeets ?_
  rw [Crowd.step, hget, Option.bind_some, hafter, Option.map_some]

theorem App.Runs.documents (h : s.Runs L V digest describe configured) :
    Machine.Runs digest describe (Agrees L) s.documents := by
  induction h with
  | init => exact .init
  | work _ hagrees hstep ih => exact ih.step hagrees hstep
  | ask _ _ _ _ ih => exact ih

theorem App.Runs.questions (h : s.Runs L V digest describe configured) :
    s.questions.Reachable (askQuestion configured) fun _ => Allowed V := by
  induction h with
  | init => exact .init
  | work _ _ _ ih => exact ih
  | ask _ hallowed _ hstep ih => exact ih.step hallowed hstep

/-- Every ready document of a database that has been searched. -/
def IndexedEvents (L : Libraries) (s : Questions) : Prop :=
  ∀ o ∈ s.events, ∀ q db hits, o.2 = ⟨.searchChunks q, (db, .ok hits)⟩ → ∀ d ∈ db.documents, d.status = .ready → Indexed L db d

theorem indexedEvents_of_runs (h : s.Runs L V digest describe configured) (hids : DistinctIds s.documents.history) :
    IndexedEvents L s.questions := by
  induction h with
  | init => exact fun o ho => absurd ho List.not_mem_nil
  | work hruns _ hstep ih =>
      have hmoves := Machine.moves_of_step (Machine.consistent_of_runs hruns.documents) hstep
      exact ih (hids.before hmoves)
  | @ask s m q hruns _ hmeets hstep ih =>
      rcases Crowd.step_cases hstep with ⟨a, -, rfl⟩ | ⟨i, e, a, p, p', rfl, -, -, rfl⟩
      · exact ih hids
      · intro o ho r db hits heq
        rcases List.mem_append.mp ho with ho | ho
        · exact ih hids o ho r db hits heq
        · rw [List.mem_singleton.mp ho] at heq
          dsimp only at heq
          subst heq
          obtain rfl : db = s.documents.db := hmeets
          exact (sourced_of_runs hruns.documents hids).indexed (Machine.consistent_of_runs hruns.documents)

/-- **Every citation quotes a file of its tenant, on the pages that it names**, although documents are uploaded, ingested,
retried and deleted while questions are asked. -/
theorem quoted_of_runs (h : s.Runs L V digest describe configured) (hids : DistinctIds s.documents.history) {i : Nat}
    {r : AskRequest} {a : AskResult} (hget : s.questions.members[i]? = some (r, .ret a)) :
    ∀ c ∈ a.citations, ∃ db vector hits answer row d f pages chunk body ws,
      Searched V r (s.questions.own i) db vector hits ∧ Asked r (s.questions.own i) hits answer ∧
        Quotation L db r hits c row d f pages chunk body ws := by
  intro c hc
  obtain ⟨hthrifty, houtcome⟩ := keeps_of_reachable h.questions i r _ hget
  cases grounded_of_outcome hthrifty houtcome with
  | declined _ _ _ | below _ _ _ | empty _ _ _ => cases hc
  | @answered db vector hits answer _ hsearched hasked _ _ _ _ hsupports =>
      obtain ⟨row, d, hrow⟩ := hsupports c hc
      obtain ⟨query, hevent, -⟩ := id hsearched
      obtain ⟨o, ho, heq⟩ := List.mem_map.mp hevent
      have hindexed := indexedEvents_of_runs h hids o (List.mem_filter.mp ho).1 _ _ _ heq
      obtain ⟨f, pages, chunk, body, ws, hquotation⟩ := quotation_of_supports hindexed hrow
      exact ⟨db, vector, hits, answer, row, d, f, pages, chunk, body, ws, hsearched, hasked, hquotation⟩

end Runs

/-! ## A question about the terms -/

namespace Terms

def question : AskRequest := ⟨Day.tenant, text "When is an invoice due?", none⟩

def hits : List (Hit × Option Rat) := Shift.stored.chunks.map fun c => (hit c Shift.indexed, scoreOf (some 0))

def answer : Text := text "30 days after its date [1]."

def call : Counters.Call Text := ⟨Day.tenant.text, 0, 0, .inTime⟩

theorem may_search : May Rent.vectors ⟨.searchChunks (question.search (Rent.axis.map some)), (Shift.stored, .ok hits)⟩ := by
  refine ⟨0, fun _ => ⟨fun _ => Day.uuid 0, []⟩, ?_⟩
  rw [searchChunks, if_neg (Rent.dims question)]
  have hsorted : (((joinedChunks Rent.vectors Shift.stored question.tenantId ⟨Rent.axis, Rent.length_axis⟩).insertionSort
      fun h h' => hitLe h h').take 5).map (fun h => (h.1, scoreOf h.2)) = hits := by decide +kernel
  exact congrArg Except.ok hsorted

theorem exists_runs : ∃ s : App, ∃ a, s.Runs Shift.libraries Rent.vectors Day.hash Shift.failedQuery true ∧
    DistinctIds s.documents.history ∧ s.questions.members = [(question, .ret a)] ∧
    a.citations = [⟨1, Day.uuid 920, Day.uuid 0, some (text "a.pdf"), some (text "1. Terms"), 1, 1⟩] := by
  obtain ⟨m, hm, hids, hdb⟩ := Shift.exists_stored
  have hruns : (App.mk m Crowd.empty).Runs Shift.libraries Rent.vectors Day.hash Shift.failedQuery true :=
    .of_documents hm
  have h₁ := hruns.enter question
  have h₂ := h₁.go (i := 0) rfl (after_perform _ _ (.ok (Rent.axis.map some))) trivial trivial
  have hfound : Allowed Rent.vectors (.go 0 ⟨.searchChunks (question.search (Rent.axis.map some)), (Shift.stored, .ok hits)⟩) :=
    may_search
  have hpaid : Allowed Rent.vectors (.go 0 ⟨.consumeLlmBudget question.tenantId.text, (call, none)⟩) := rfl
  have h₃ := h₂.go rfl (after_perform _ _ _) hfound hdb.symm
  have h₄ := h₃.go rfl ((Rent.asks_budget question hits (call, none)).trans (after_perform _ _ _)) hpaid trivial
  have h₅ := h₄.go (i := 0) rfl (after_perform _ _ (.content (some answer))) trivial trivial
  exact ⟨_, _, h₅, hids, rfl, by decide +kernel⟩

end Terms

open Terms in
theorem quoted_of_terms : ∃ s : App, ∃ a, s.questions.members = [(question, .ret a)] ∧
    a.citations = [⟨1, Day.uuid 920, Day.uuid 0, some (text "a.pdf"), some (text "1. Terms"), 1, 1⟩] ∧
    ∀ c ∈ a.citations, ∃ db vector hits answer row d f pages chunk body ws,
      Searched Rent.vectors question (s.questions.own 0) db vector hits ∧ Asked question (s.questions.own 0) hits answer ∧
        Quotation Shift.libraries db question hits c row d f pages chunk body ws := by
  obtain ⟨s, a, h, hids, hmembers, hcitations⟩ := exists_runs
  have hget : s.questions.members[0]? = some (question, .ret a) := by rw [hmembers]; rfl
  exact ⟨s, a, hmembers, hcitations, quoted_of_runs h hids hget⟩

end FinSight.Ask
