import FinSight.Documents.Provenance
import FinSight.Guarantees.ClaimHolder

/-!
# Every index is that of its file

* `Sourced.library`, `Sourced.step` : one step of the machine keeps `Sourced`;
* `Indexed` : the chunks of a document are what ingestion makes of its title and its stored file;
* `indexed_of_runs`.
-/

namespace FinSight.Documents

open ReadCommitted Documents.Sql

variable {L : Libraries} {digest : List UInt8 → Text} {describe : SqlState → Text} {s s' : Machine} {l : Move}

theorem ok_of_mapError {α ε ε' : Type} {f : ε → ε'} {r : Except ε α} {a : α} (h : r.mapError f = .ok a) : r = .ok a := by
  cases r with
  | error e => cases h
  | ok b => exact congrArg Except.ok (Except.ok.inj h)

/-- A library answers. -/
theorem Sourced.library (h : Sourced L s) {k : Nat} (hl : l.Answers k) (hagrees : Agrees L s l)
    (hstep : s.step digest describe l = some s') : Sourced L s' := by
  cases l with
  | randomUuid u uuid =>
      simp only [Machine.step] at hstep
      split at hstep
      · next job next hget =>
        cases hstep
        refine h.setTask fun p hp => ?_
        cases hp
        exact h.tasks u job _ hget uuid
      · cases hstep
  | extract u result =>
      simp only [Machine.step] at hstep
      split at hstep
      · next job bytes next hget =>
        cases hstep
        refine h.setTask fun p hp => ?_
        cases hp
        exact h.tasks u job _ hget _ fun pages hpages => hagrees job bytes next hget pages (ok_of_mapError hpages)
      · cases hstep
  | tokenCounter u result =>
      simp only [Machine.step] at hstep
      split at hstep
      · next job next hget =>
        cases hstep
        refine h.setTask fun p hp => ?_
        cases hp
        exact h.tasks u job _ hget _ fun f hf => hagrees f (ok_of_mapError hf)
      · cases hstep
  | embed u result =>
      simp only [Machine.step] at hstep
      split at hstep
      · next job texts next hget =>
        cases hstep
        refine h.setTask fun p hp => ?_
        cases hp
        exact h.tasks u job _ hget _ fun vectors hvectors => hagrees job texts next hget vectors (ok_of_mapError hvectors)
      · cases hstep
  | tick _ | request _ | transact _ _ | disconnect _ _ _ _ | enqueue _ | enqueueFails _ _ _ | deliver _ | promote _ | stall _
  | finish _ | crash _ => cases hl

theorem history_of_moves (h : Machine.Moves digest describe s l s') :
    s'.history = s.history ∨ ∃ c, s'.history = c :: s.history := by
  cases h with
  | committed _ _ _ | cutOff _ _ _ => exact Or.inr ⟨_, rfl⟩
  | tick _ | request _ | refused _ _ | disconnected _ | enqueued _ | enqueuedUnseen _ | dropped _ | answered _ _ _
  | delivered _ _ | promoted | stalled _ _ | returned _ | threw _ | crashed _ => exact Or.inl rfl

/-- Before a step no id was given twice either. -/
theorem DistinctIds.before (h : DistinctIds s'.history) (hmoves : Machine.Moves digest describe s l s') :
    DistinctIds s.history := by
  rcases history_of_moves hmoves with heq | ⟨c, hcons⟩
  · exact heq ▸ h
  · rw [hcons] at h
    exact h.tail

theorem Sourced.step (h : Sourced L s) (hconsistent : Consistent digest s.db) (hagrees : Agrees L s l)
    (hids : DistinctIds s'.history) (hstep : s.step digest describe l = some s') : Sourced L s' := by
  cases Machine.moves_of_step hconsistent hstep with
  | tick d => exact h.of_tasks rfl rfl h.tasks
  | request c =>
      refine h.append fun p hp => ?_
      cases hp
      exact faithful_service c
  | @committed k choices job q next r log rest hrun _ hcommit =>
      refine (h.commit hconsistent hrun hcommit hids).setTask fun p hp => ?_
      cases hp
      have hext : Extends (originals s.history) (originals (s.commit k q r log).history) := extends_cons hids
      exact h.answered hrun hext ((h.tells hcommit).mono hext)
  | @cutOff k choices message job q next r log rest hrun _ hcommit =>
      refine (h.commit hconsistent hrun hcommit hids).setTask fun p hp => ?_
      cases hp
      exact h.answered hrun (extends_cons hids) (tells_error _ _ _)
  | refused hrun _ | disconnected hrun =>
      refine h.setTask fun p hp => ?_
      cases hp
      exact h.answered hrun (Extends.refl _) (tells_error _ _ _)
  | enqueued hrun | enqueuedUnseen hrun =>
      refine (h.withQueue _).setTask fun p hp => ?_
      cases hp
      exact h.tasks _ _ _ hrun _
  | dropped hrun =>
      refine h.setTask fun p hp => ?_
      cases hp
      exact h.tasks _ _ _ hrun _
  | answered hl _ _ => exact h.library hl hagrees hstep
  | delivered _ _ =>
      refine h.append fun p hp => ?_
      cases hp
      exact faithful_attempt _
  | promoted => exact h.withQueue _
  | stalled _ _ => exact h.withQueue _
  | returned _ | threw _ =>
      refine (h.withQueue _).setTask fun p hp => ?_
      cases hp
  | crashed _ =>
      refine h.setTask fun p hp => ?_
      cases hp

theorem sourced_of_runs (h : Machine.Runs digest describe (Agrees L) s) (hids : DistinctIds s.history) : Sourced L s := by
  induction h with
  | init =>
      refine ⟨fun d hd => absurd hd List.not_mem_nil, fun f hf => absurd hf List.not_mem_nil,
        fun d hd => absurd hd List.not_mem_nil, fun k job p hrun => ?_⟩
      cases hrun
  | step hruns hagrees hstep ih =>
      have hconsistent := Machine.consistent_of_runs hruns
      exact (ih (hids.before (Machine.moves_of_step hconsistent hstep))).step hconsistent hagrees hids hstep

/-- The stored file of `d` gives its page count and its chunks, in the order of the table. -/
def Indexed (L : Libraries) (db : Db) (d : Document) : Prop :=
  ∃ f ∈ db.files, f.of d.id d.tenantId = true ∧ ∃ w, Ingests L ⟨d.title, f.bytes⟩ w ∧ d.pageCount = some w.pageCount ∧
    StoresAll w (chunksOf db d.id)

theorem Sourced.indexed (h : Sourced L s) (hconsistent : Consistent digest s.db) :
    ∀ d ∈ s.db.documents, d.status = .ready → Indexed L s.db d := by
  intro d hd hready
  obtain ⟨f, hf, hof, -⟩ := hconsistent.filed d hd
  obtain ⟨o, hknown, htitle⟩ := h.documents d hd
  obtain ⟨o', hknown', hbytes⟩ := h.files f hf
  obtain ⟨o'', w, hknown'', hw, hpages, hchunks⟩ := h.ready d hd hready
  rw [(DocumentFile.of_iff.mp hof).1] at hknown'
  obtain rfl : o = o' := Option.some.inj (hknown.symm.trans hknown')
  obtain rfl : o = o'' := Option.some.inj (hknown.symm.trans hknown'')
  exact ⟨f, hf, hof, w, htitle ▸ hbytes ▸ hw, hpages, hchunks⟩

/-- **Whatever the uploads, the attempts, the retries and the failures, a ready document is indexed by what ingestion makes
of its own file.** -/
theorem indexed_of_runs (L : Libraries) (digest : List UInt8 → Text) (describe : SqlState → Text) (s : Machine)
    (h : Machine.Runs digest describe (Agrees L) s) (hids : DistinctIds s.history) :
    ∀ d ∈ s.db.documents, d.status = .ready → Indexed L s.db d :=
  (sourced_of_runs h hids).indexed (Machine.consistent_of_runs h)

/-! ## A day's work -/

namespace Shift

def fragment (str : Text) (y : Rat) : Ingest.Item := .text ⟨str, 12, 0, 72, y, 200, true⟩

def items : List (List Ingest.Item) :=
  [[fragment (text "1. Terms") 700, fragment (text "Net 30 days after the invoice date.") 680],
    [fragment (text "2. Notice") 700, fragment (text "Two months before the end of a term.") 680]]

/-- The text of the file, a token for each code unit, and the length of a text in every place of its vector. -/
def libraries : Libraries where
  pdfjs := ⟨fun _ => .ok items, fun a _ => a, id⟩
  countTokens := List.length
  extractor := fun batch => .ok (batch.map fun t => List.replicate embeddingDimensions t.length)

/-- No token counter is loaded. -/
def agreed (s : Machine) : Move → Bool
  | .extract _ (.ok result) => result = pages
  | .embed k (.ok vectors) => s.tasks[k]?.all fun task => match task.state with
      | .running (.embed texts _) => decide ((embedTexts libraries.extractor texts).toOption = some vectors)
      | _ => true
  | .tokenCounter _ _ => false
  | _ => true

theorem agrees_of_agreed (h : agreed s l = true) : Agrees libraries s l := by
  cases l with
  | extract k result =>
      intro job bytes next _ result' hresult
      subst hresult
      obtain rfl : result' = pages := of_decide_eq_true h
      have hextract : Ingest.extractDocumentText libraries.pdfjs [] = .ok pages := by decide +kernel
      exact hextract
  | embed k result =>
      intro job texts next hrun vectors hresult
      subst hresult
      unfold Machine.Running at hrun
      simp only [agreed, hrun, Option.all_some] at h
      have hsome : (embedTexts libraries.extractor texts).toOption = some vectors := of_decide_eq_true h
      cases hembed : embedTexts libraries.extractor texts with
      | error e =>
          rw [hembed] at hsome
          cases hsome
      | ok vectors' =>
          rw [hembed] at hsome
          exact congrArg Except.ok (Option.some.inj hsome)
  | tokenCounter k result => cases h
  | tick _ | request _ | transact _ _ | disconnect _ _ _ _ | enqueue _ | enqueueFails _ _ _ | randomUuid _ _ | deliver _
  | promote _ | stall _ | finish _ | crash _ => trivial

theorem length_constant (x : Rat) : (List.replicate embeddingDimensions x).length = embeddingDimensions :=
  List.length_replicate

def vector (n : Nat) : Embedding := ⟨List.replicate embeddingDimensions n, length_constant n⟩

/-- What is embedded and written after the token counter has been loaded. -/
def written : List Move := [.embed 1 (.ok [vector 49, vector 51]), .transact 1 (choices 9)]

def indexed : Document :=
  ⟨Day.uuid 0, Day.tenant, some (text "a.pdf"), Day.hash pdfMagic, .ready, none, some 2, 0, 0⟩

def chunk (ordinal : Nat) (page : Int) (heading content : Text) (length : Nat) : DocumentChunk where
  id := Day.uuid (920 + ordinal)
  tenantId := Day.tenant
  documentId := Day.uuid 0
  ordinal
  sectionHeading := some heading
  pageStart := page
  pageEnd := page
  content
  tokenCount := length
  embedding := vector length
  embeddingModel := embeddingModel
  createdAt := 0

/-- The tables in the end. -/
def stored : Db where
  documents := [indexed]
  files := [⟨Day.uuid 0, Day.tenant, text "application/pdf", 5, pdfMagic, 0⟩]
  chunks :=
    [chunk 0 1 (text "1. Terms") (text "a — 1. Terms\n\nNet 30 days after the invoice date.") 49,
      chunk 1 2 (text "2. Notice") (text "a — 2. Notice\n\nTwo months before the end of a term.") 51]

set_option maxRecDepth 100000 in
/-- One document is uploaded and ingested. -/
theorem exists_stored : ∃ s : Machine, Machine.Runs Day.hash failedQuery (Agrees libraries) s ∧ DistinctIds s.history ∧
    s.db = stored := by
  obtain ⟨s₀, hs₀, hsummary⟩ := runs (Agrees libraries) agreed (fun _ _ => agrees_of_agreed)
    (uploaded ++ claimed 1 ++ [.transact 1 (choices 1), .extract 1 (.ok pages)])
    (fun s => (s.step Day.hash failedQuery (.tokenCounter 1 (.ok List.length))).map fun s =>
      (Machine.Admits Day.hash failedQuery agreed s written, (Machine.run Day.hash failedQuery s written).map fun s =>
        (s.db, s.history.filterMap Committed.created)))
    (a := some (true, some (stored, [Day.uuid 0]))) (by decide +kernel) (by decide +kernel)
  obtain ⟨s₁, hstep, hpair⟩ := Option.map_eq_some_iff.mp hsummary
  obtain ⟨hall, hrun⟩ := Prod.mk.inj hpair
  obtain ⟨s₂, hrun, hpair⟩ := Option.map_eq_some_iff.mp hrun
  obtain ⟨hdb, hcreated⟩ := Prod.mk.inj hpair
  have hagrees : Agrees libraries s₀ (.tokenCounter 1 (.ok List.length)) := fun f hf => (Except.ok.inj hf).symm
  refine ⟨s₂, Machine.runs_of_admits (fun _ _ => agrees_of_agreed) (hs₀.step hagrees hstep) hall hrun, ?_, hdb⟩
  unfold DistinctIds
  rw [hcreated]
  exact List.nodup_singleton _

end Shift

open Shift in
theorem indexed_of_shift : Indexed libraries stored indexed := by
  obtain ⟨s, hs, hids, hdb⟩ := exists_stored
  have hindexed := indexed_of_runs libraries Day.hash failedQuery s hs hids
  rw [hdb] at hindexed
  exact hindexed indexed (List.mem_singleton_self indexed) rfl

end FinSight.Documents
