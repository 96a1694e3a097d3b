import FinSight.Ask.Course
import FinSight.Documents.Nearest
import FinSight.Guarantees.Attribution

/-!
# Answers are grounded

* `Searched` : the search of a question, over the chunks of the ready documents of its tenant;
* `Supports` : a citation with the chunk that it points at, in the prompt that was sent;
* `Grounded` : an answer with its support, or an abstention with its cause;
* `grounded_of_reachable` : every question that returns, among any number of questions, and whatever they are answered.
-/

namespace FinSight.Ask

open Documents Interaction

/-- The questions of the process; `Allowed` : what the database may answer. -/
abbrev Questions := Crowd Reply Refusal AskResult AskRequest

def Allowed (V : Pgvector) : Crowd.Move Reply AskRequest → Prop
  | .enter _ => True
  | .go _ e => May V e

/-- The hits have the best scores of all that a search in `db` may find. -/
def Searched (V : Pgvector) (r : AskRequest) (es : List Event) (db : Documents.Db) (vector : Embedding)
    (hits : List (Hit × Option Rat)) : Prop :=
  ∃ query, (⟨.searchChunks (r.search query), (db, .ok hits)⟩ : Event) ∈ es ∧ V.input query = .ok vector ∧
    Best scoreGe (min (max (r.k.getD 5) 1) 20) (candidates V db r.tenantId vector) hits

/-- The model has been sent the prompt of the hits, and has answered. -/
def Asked (r : AskRequest) (es : List Event) (hits : List (Hit × Option Rat)) (answer : Text) : Prop :=
  Relevant hits ∧ (⟨.fetch (promptOf r hits).system (promptOf r hits).prompt, .content (some answer)⟩ : Event) ∈ es

/-- Neither the budget nor the model is called. -/
def Free (es : List Event) : Prop := es.countP isBudget = 0 ∧ es.countP isFetch = 0

/-- The chunk of a citation: of a ready document of the tenant, and shown to the model in the block of its number. -/
structure Supports (db : Documents.Db) (r : AskRequest) (hits : List (Hit × Option Rat)) (c : Citation) (chunk : DocumentChunk)
    (d : Document) : Prop where
  ready : Ready db r.tenantId chunk d
  chunkId : c.chunkId = chunk.id
  documentId : c.documentId = d.id
  documentTitle : c.documentTitle = d.title
  sectionHeading : c.sectionHeading = chunk.sectionHeading
  pageStart : c.pageStart = chunk.pageStart
  pageEnd : c.pageEnd = chunk.pageEnd
  block : ∃ block, block <:+: (promptOf r hits).prompt ∧ Shows c.marker
    ⟨chunk.id, d.id, d.title, chunk.sectionHeading, chunk.pageStart, chunk.pageEnd, chunk.content⟩ block

/-- The score of a chunk is less than the floor, or no number. -/
def BelowFloor (V : Pgvector) (vector : Embedding) (chunk : DocumentChunk) : Prop :=
  ∀ distance, V.distance chunk.embedding vector = some distance → nearestDouble (1 - distance) < nearestDouble (55 / 100)

/-- What the model's answer is where it is not shown. -/
def Declines (sent : Nat) (answer : Text) : AbstainReason → Prop
  | .emptyAnswer => answer = []
  | .modelInsufficientContext => insufficientContext <:+: answer
  | .noValidCitations => mentions sent answer = []

/-- A result with what it rests on. -/
inductive Grounded (V : Pgvector) (r : AskRequest) (es : List Event) : AskResult → Prop
  | answered {db vector hits answer} {a : AskResult} : Searched V r es db vector hits → Asked r es hits answer →
      a.abstained = false → a.reason = none → a.citations ≠ [] → (a.citations.map Citation.marker).Nodup →
      (∀ c ∈ a.citations, ∃ chunk d, Supports db r hits c chunk d) → Grounded V r es a
  | declined {db vector hits answer} {reason : AbstainReason} : Searched V r es db vector hits → Asked r es hits answer →
      Declines (promptOf r hits).used.length (trim answer) reason → Grounded V r es (abstain (.model reason))
  /-- No chunk of a ready document reaches the floor. -/
  | below {db vector hits} : Searched V r es db vector hits →
      (∀ chunk d, Ready db r.tenantId chunk d → BelowFloor V vector chunk) → Free es →
      Grounded V r es (abstain .belowScoreFloor)
  /-- No ready document has a chunk. -/
  | empty {db vector db'} : Searched V r es db vector [] → (∀ chunk d, ¬ Ready db r.tenantId chunk d) → Free es →
      Grounded V r es (abstain (if inProgress db' r.tenantId then .documentsProcessing else .noDocuments))

section Question
variable {V : Pgvector} {r : AskRequest} {es : List Event} {db : Documents.Db} {hits : List (Hit × Option Rat)}

theorem limit_search (r : AskRequest) (query : List (Option Rat)) : (r.search query).limit = min (max (r.k.getD 5) 1) 20 := by
  show (min (max ((r.k.getD askDefaultK : Nat) : Int) 1) maxK).toNat = _
  rw [show maxK = 20 from rfl, show askDefaultK = 5 from rfl]
  omega

theorem searched_of_retrieved (h : Thrifty V r es) (hretrieved : Retrieved r es db hits) :
    ∃ vector, Searched V r es db vector hits := by
  obtain ⟨query, hmem⟩ := hretrieved
  obtain ⟨now, choices, hsearch⟩ := h.may _ hmem
  obtain ⟨vector, hinput, hbest⟩ := best_of_searchChunks hsearch
  exact ⟨vector, query, hmem, hinput, limit_search r query ▸ hbest⟩

/-- No unit of the budget, no call of the model. -/
theorem free_of_unspent (h : Thrifty V r es) (hbudget : es.countP isBudget = 0) : Free es := by
  have hpasses : es.countP passes ≤ es.countP isBudget :=
    List.countP_mono_left fun e _ he => Option.isSome_of_any he
  have hpaid := h.paid
  exact ⟨hbudget, by omega⟩

theorem infix_intercalate {sep w : Text} {ws : List Text} (h : w ∈ ws) : w <:+: sep.intercalate ws := by
  induction ws with
  | nil => cases h
  | cons v ws ih =>
      cases ws with
      | nil =>
          rw [List.mem_singleton.mp h, List.intercalate_singleton]
      | cons u us =>
          rw [List.intercalate_cons_cons]
          rcases List.mem_cons.mp h with rfl | h
          · exact (List.prefix_append _ _).isInfix.trans (List.prefix_append _ _).isInfix
          · exact (ih h).trans (List.suffix_append _ _).isInfix

theorem block_in_prompt {question : Text} {chunks : List RetrievedChunk} {blocks : List Text} {maxChars : Nat} {p : Prompt}
    (h : Shown question chunks blocks maxChars p) {i : Nat} {block : Text} (hi : i < p.used.length)
    (hget : blocks[i]? = some block) : block <:+: p.prompt := by
  obtain ⟨asked, -, hprompt⟩ := h.prompt
  have hmem : block ∈ blocks.take p.used.length :=
    List.mem_of_getElem? ((List.getElem?_take_of_lt hi).trans hget)
  have hblock : block <:+: (text "\n\n").intercalate (blocks.take p.used.length) := infix_intercalate hmem
  rw [hprompt]
  exact ((hblock.trans (List.suffix_append _ _).isInfix).trans (List.prefix_append _ _).isInfix).trans
    (List.prefix_append _ _).isInfix

theorem declines_of_abstained {used : List RetrievedChunk} {answer : Text} {reason : AbstainReason} {invalid : Option Nat}
    (h : parseAnswer (some answer) used = .abstained reason invalid) : Declines used.length (trim answer) reason := by
  unfold parseAnswer at h
  simp only [Option.getD_some] at h
  split at h
  · next hempty =>
    cases h
    exact hempty
  · split at h
    · next hword =>
      cases h
      exact hword
    · split at h
      · next hnone =>
        cases h
        rw [List.filter_flatMap] at hnone
        have hfirsts : Firsts.firsts (mentions used.length (trim answer)) = [] := hnone
        refine List.eq_nil_iff_forall_not_mem.mpr fun n hn => ?_
        rw [← Firsts.mem_firsts, hfirsts] at hn
        cases hn
      · cases h

/-- The chunk of a citation is one of those that the search has found. -/
theorem supports_of_cited (h : ∀ c ∈ hits, ∃ chunk d, Ready db r.tenantId chunk d ∧ c.1 = hit chunk d) {a : Answer} {answer : Text}
    (hparsed : parseAnswer (some answer) (promptOf r hits).used = .answered a) :
    ∀ c ∈ a.citations, ∃ chunk d, Supports db r hits c chunk d := by
  intro c hc
  obtain ⟨i, shown, block, hused, hblock, hshows, hcites⟩ := (cited_of_answered hparsed).chunk c hc
  have hprompt := shown_buildPrompt r.question (hits.map fun h => chunkOf h.1) maxContextChars
  obtain ⟨row, hrow, rfl⟩ := List.mem_map.mp (hprompt.isPrefix.subset (List.mem_of_getElem? hused))
  obtain ⟨chunk, d, hready, hhit⟩ := h row hrow
  rw [hhit] at hshows hcites
  have hinfix : block <:+: (promptOf r hits).prompt :=
    block_in_prompt hprompt (List.getElem?_eq_some_iff.mp hused).1 hblock
  refine ⟨chunk, d, hready, hcites.chunkId, hcites.documentId.trans hready.of.symm, hcites.documentTitle,
    hcites.sectionHeading, hcites.pageStart, hcites.pageEnd, block, hinfix, ?_⟩
  rw [hcites.marker, hready.of]
  exact hshows

theorem ready_of_searched {vector : Embedding} (h : Searched V r es db vector hits) :
    ∀ c ∈ hits, ∃ chunk d, Ready db r.tenantId chunk d ∧ c.1 = hit chunk d := by
  obtain ⟨query, -, -, hbest⟩ := h
  intro c hc
  obtain ⟨row, hrow, rfl⟩ := List.mem_map.mp (hbest.mem hc)
  obtain ⟨chunk, d, hready, rfl⟩ := mem_joinedChunks.mp hrow
  exact ⟨chunk, d, hready, rfl⟩

theorem grounded_of_outcome (h : Thrifty V r es) {a : AskResult} (houtcome : Outcome r es a) : Grounded V r es a := by
  cases houtcome with
  | @empty db db' processing hretrieved hprogress hbudget =>
      obtain ⟨vector, hsearched⟩ := searched_of_retrieved h hretrieved
      obtain rfl : processing = inProgress db' r.tenantId := h.may _ hprogress
      refine .empty hsearched (fun chunk d hready => ?_) (free_of_unspent h hbudget)
      obtain ⟨query, -, -, hbest⟩ := hsearched
      have hnone := hbest.rows_nil (by omega)
      have hjoined : (hit chunk d, V.distance chunk.embedding vector) ∈ joinedChunks V db r.tenantId vector :=
        mem_joinedChunks.mpr ⟨chunk, d, hready, rfl⟩
      have hmem := List.mem_map_of_mem (f := scored) hjoined
      rw [candidates] at hnone
      rw [hnone] at hmem
      exact List.not_mem_nil hmem
  | @below db hits top hretrieved htop hbelow hbudget =>
      obtain ⟨vector, hsearched⟩ := searched_of_retrieved h hretrieved
      refine .below hsearched (fun chunk d hready distance hdistance => ?_) (free_of_unspent h hbudget)
      obtain ⟨query, -, -, hbest⟩ := hsearched
      have hmem : scored (hit chunk d, V.distance chunk.embedding vector) ∈ candidates V db r.tenantId vector :=
        List.mem_map_of_mem (mem_joinedChunks.mpr ⟨chunk, d, hready, rfl⟩)
      have hscore : (scored (hit chunk d, V.distance chunk.embedding vector)).2 = some (nearestDouble (1 - distance)) := by
        rw [scored, hdistance]
        rfl
      obtain ⟨s, hs, hle⟩ := hbest.first_le scoreGe_refl htop _ hmem _ hscore
      rw [Option.mem_def] at hs
      rw [belowFloor, hs, Option.any_some, decide_eq_true_iff] at hbelow
      exact hle.trans_lt hbelow
  | @generated db hits answer hretrieved hrelevant hpasses hanswer =>
      obtain ⟨vector, hsearched⟩ := searched_of_retrieved h hretrieved
      cases hparsed : parseAnswer (some answer) (promptOf r hits).used with
      | abstained reason invalid => exact .declined hsearched ⟨hrelevant, hanswer⟩ (declines_of_abstained hparsed)
      | answered b =>
          have hcited := cited_of_answered hparsed
          obtain ⟨-, horder, rfl⟩ := parseAnswer_answered.mp hparsed
          refine .answered hsearched ⟨hrelevant, hanswer⟩ rfl rfl (fun hnil => ?_) ?_
            (supports_of_cited (ready_of_searched hsearched) hparsed)
          · obtain ⟨n, hn⟩ := List.exists_mem_of_ne_nil _ horder
            have hmention := (hcited.mentioned n).mpr (Firsts.mem_firsts.mp hn)
            have hcitations : citations (promptOf r hits).used _ = [] := hnil
            rw [hcitations] at hmention
            cases hmention
          · exact hcited.inOrder.imp fun hlt heq => by
              rw [heq] at hlt
              exact Nat.lt_irrefl _ hlt

end Question

section Runs
variable {V : Pgvector} {configured : Bool} {s : Questions}

/-- Each question, among all the others. -/
theorem keeps_of_reachable (h : s.Reachable (askQuestion configured) fun _ => Allowed V) (i : Nat) (r : AskRequest)
    (p : Asking AskResult) (hget : s.members[i]? = some (r, p)) :
    Thrifty V r (s.own i) ∧ Course V r (Outcome r) (s.own i) p :=
  Crowd.keeps (fun _ => Thrifty.nil) (fun _ => keeps_askQuestion configured) (fun _ _ _ _ _ hmay _ => hmay) h i r p hget

end Runs

/-! ## Two questions at once -/

namespace Rent

def axis : List Rat := 1 :: List.replicate 383 0

theorem length_axis : axis.length = embeddingDimensions := by
  rw [axis, List.length_cons, List.length_replicate]
  rfl

/-- All vectors are one. -/
def vectors : Pgvector where
  input _ := .ok ⟨axis, length_axis⟩
  distance _ _ := some 0

def uuid (n : Nat) : Uuid := ⟨BitVec.ofNat 128 n⟩

def lease : Document := ⟨uuid 1, uuid 7, some (text "Lease"), [], .ready, none, some 1, 0, 0⟩

def clause : DocumentChunk :=
  ⟨uuid 2, uuid 7, uuid 1, 0, none, 1, 1, text "The rent is 900 euros.", 5, ⟨axis, length_axis⟩, [], 0⟩

def db : Documents.Db := ⟨[lease], [], [clause]⟩

def tenant : AskRequest := ⟨uuid 7, text "What is the rent?", none⟩

def neighbour : AskRequest := ⟨uuid 8, text "What is the rent?", none⟩

def hits : List (Hit × Option Rat) := [(hit clause lease, scoreOf (some 0))]

def answer : Text := text "It is 900 euros [1]."

def call : Counters.Call Text := ⟨(uuid 7).text, 0, 0, .inTime⟩

theorem not_below : belowFloor (scoreOf (some 0)) = false := by decide +kernel

theorem dims (r : AskRequest) : ¬ (r.search (axis.map some)).vector.length ≠ embeddingDimensions := by
  rw [not_not]
  exact (List.length_map _).trans length_axis

theorem may_tenant : May vectors ⟨.searchChunks (tenant.search (axis.map some)), (db, .ok hits)⟩ := by
  refine ⟨0, fun _ => ⟨fun _ => uuid 0, []⟩, ?_⟩
  rw [searchChunks, if_neg (dims tenant)]
  rfl

theorem may_neighbour : May vectors ⟨.searchChunks (neighbour.search (axis.map some)), (db, .ok [])⟩ := by
  refine ⟨0, fun _ => ⟨fun _ => uuid 0, []⟩, ?_⟩
  rw [searchChunks, if_neg (dims neighbour)]
  rfl

/-- What is left of a question after its search. -/
def rest (r : AskRequest) (hits : List (Hit × Option Rat)) : Asking AskResult := do
  consumeLlmBudget r.tenantId.text
  let answer ← generate (promptOf r hits)
  return resultOf (parseAnswer (some answer) (promptOf r hits).used)

theorem asks_budget (r : AskRequest) (hits : List (Hit × Option Rat)) (y : Reply (.consumeLlmBudget r.tenantId.text)) :
    (if belowFloor (scoreOf (some 0)) then return abstain .belowScoreFloor
      else if true = false then .throw (.app ⟨text "The answer service is not configured", 503, text "LLM_NOT_CONFIGURED"⟩)
      else rest r hits).after ⟨.consumeLlmBudget r.tenantId.text, y⟩ =
        (rest r hits).after ⟨.consumeLlmBudget r.tenantId.text, y⟩ := by
  rw [not_below, if_neg Bool.false_ne_true, if_neg (by decide)]

/-- What the two questions stop at. -/
def events : List (Nat × Event) :=
  [(0, ⟨.embedQuery (queryPrefix ++ trim tenant.question), .ok (axis.map some)⟩),
    (1, ⟨.embedQuery (queryPrefix ++ trim neighbour.question), .ok (axis.map some)⟩),
    (0, ⟨.searchChunks (tenant.search (axis.map some)), (db, .ok hits)⟩),
    (1, ⟨.searchChunks (neighbour.search (axis.map some)), (db, .ok [])⟩),
    (1, ⟨.hasDocumentsInProgress neighbour.tenantId, (db, .ok false)⟩),
    (0, ⟨.consumeLlmBudget tenant.tenantId.text, (call, none)⟩),
    (0, ⟨.fetch (promptOf tenant hits).system (promptOf tenant hits).prompt, .content (some answer)⟩)]

/-- The first tenant gets an answer, the second has no documents. -/
theorem exists_reachable : ∃ s : Questions, ∃ a b, s.Reachable (askQuestion true) (fun _ => Allowed vectors) ∧
    s.members = [(tenant, .ret a), (neighbour, .ret b)] ∧ a.abstained = false ∧
    a.citations = [⟨1, clause.id, lease.id, some (text "Lease"), none, 1, 1⟩] ∧ b = abstain .noDocuments ∧
    s.events = events := by
  have h₀ : Crowd.Reachable (askQuestion true) (fun _ => Allowed vectors) Crowd.empty := .init
  have h₁ := (h₀.enter tenant trivial).enter neighbour trivial
  have h₂ := h₁.go (i := 0) rfl (after_perform _ _ (.ok (axis.map some))) trivial
  have h₃ := h₂.go (i := 1) rfl (after_perform _ _ (.ok (axis.map some))) trivial
  have hfound : Allowed vectors (.go 0 ⟨.searchChunks (tenant.search (axis.map some)), (db, .ok hits)⟩) := may_tenant
  have hnone : Allowed vectors (.go 1 ⟨.searchChunks (neighbour.search (axis.map some)), (db, .ok [])⟩) := may_neighbour
  have hready : Allowed vectors (.go 1 ⟨.hasDocumentsInProgress neighbour.tenantId, (db, .ok false)⟩) := by
    show false = inProgress db neighbour.tenantId
    decide
  have hpaid : Allowed vectors (.go 0 ⟨.consumeLlmBudget tenant.tenantId.text, (call, none)⟩) := rfl
  have h₄ := h₃.go rfl (after_perform _ _ _) hfound
  have h₅ := h₄.go rfl (after_perform _ _ _) hnone
  have h₆ := h₅.go rfl (after_perform _ _ _) hready
  have h₇ := h₆.go rfl ((asks_budget tenant hits (call, none)).trans (after_perform _ _ _)) hpaid
  have h₈ := h₇.go (i := 0) rfl (after_perform _ _ (.content (some answer))) trivial
  exact ⟨_, _, _, h₈, rfl, rfl, by decide +kernel, rfl, rfl⟩

end Rent

end FinSight.Ask
