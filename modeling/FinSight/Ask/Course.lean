import FinSight.Ask.Question

/-!
# The course of a question

* `isFetch`, `budgetCall`, `passes` : the calls of the model, and of the budget;
* `Thrifty` : what holds at any time;
* `Outcome`, `Refused` : what is known of the result, or of the error;
* `keeps_askQuestion` : all of it, whatever the database, the budget and the model answer.
-/

namespace FinSight.Ask

open Documents Interaction

/-! ## Events -/

def isFetch : Event → Bool
  | ⟨.fetch _ _, _⟩ => true
  | _ => false

/-- A call of the budget, with its error. -/
def budgetCall : Event → Option (Counters.Call Text × Option LlmBudget.LlmBudgetExceeded)
  | ⟨.consumeLlmBudget _, y⟩ => some y
  | _ => none

def isBudget (e : Event) : Bool := (budgetCall e).isSome

def passes (e : Event) : Bool := (budgetCall e).any fun y => y.2.isNone

/-- The hits that a question has found, with the database they come from. -/
def Retrieved (r : AskRequest) (es : List Event) (db : Documents.Db) (hits : List (Hit × Option Rat)) : Prop :=
  ∃ vector, (⟨.searchChunks (r.search vector), (db, .ok hits)⟩ : Event) ∈ es

/-- The best hit is good enough for the model. -/
def Relevant (hits : List (Hit × Option Rat)) : Prop := ∃ top, hits.head? = some top ∧ belowFloor top.2 = false

structure Thrifty (V : Pgvector) (r : AskRequest) (es : List Event) : Prop where
  may : ∀ e ∈ es, May V e
  /-- Each call of the model is paid, a second one by the same unit. -/
  paid : es.countP isFetch ≤ 2 * es.countP passes
  once : es.countP isBudget ≤ 1
  tenant : ∀ e ∈ es, ∀ call exceeded, budgetCall e = some (call, exceeded) → call.request = r.tenantId.text
  patient : ∀ ms, (⟨.wait ms, ()⟩ : Event) ∈ es → ms ≤ maxRetryAfterMs
  prompted : ∀ system prompt y, (⟨.fetch system prompt, y⟩ : Event) ∈ es → ∃ db hits, Retrieved r es db hits ∧ Relevant hits ∧
    system = (promptOf r hits).system ∧ prompt = (promptOf r hits).prompt

/-- The result of a question, read off its events. -/
inductive Outcome (r : AskRequest) (es : List Event) : AskResult → Prop
  | empty {db db' : Documents.Db} {processing : Bool} : Retrieved r es db [] →
      (⟨.hasDocumentsInProgress r.tenantId, (db', .ok processing)⟩ : Event) ∈ es → es.countP isBudget = 0 →
      Outcome r es (abstain (if processing then .documentsProcessing else .noDocuments))
  | below {db : Documents.Db} {hits : List (Hit × Option Rat)} {top : Hit × Option Rat} : Retrieved r es db hits →
      hits.head? = some top → belowFloor top.2 = true → es.countP isBudget = 0 → Outcome r es (abstain .belowScoreFloor)
  | generated {db : Documents.Db} {hits : List (Hit × Option Rat)} {answer : Text} : Retrieved r es db hits → Relevant hits →
      es.countP passes = 1 → (⟨.fetch (promptOf r hits).system (promptOf r hits).prompt, .content (some answer)⟩ : Event) ∈ es →
      Outcome r es (resultOf (parseAnswer (some answer) (promptOf r hits).used))

/-- A question that is refused before the model costs nothing, and one that the budget refuses does not reach it. -/
def Refused (es : List Event) : Refusal → Prop
  | .budget _ => es.countP isFetch = 0
  | .database _ | .thrown _ | .error _ => es.countP isBudget = 0
  | .app e => e.code = text "LLM_NOT_CONFIGURED" → es.countP isBudget = 0

/-! ## One event more -/

section Events
variable {V : Pgvector} {r : AskRequest} {es : List Event}

theorem Retrieved.append {db : Documents.Db} {hits : List (Hit × Option Rat)} (h : Retrieved r es db hits) (later : List Event) :
    Retrieved r (es ++ later) db hits := by
  obtain ⟨vector, hmem⟩ := h
  exact ⟨vector, List.mem_append_left _ hmem⟩

theorem Thrifty.nil : Thrifty V r [] where
  may _ h := absurd h List.not_mem_nil
  paid := Nat.zero_le _
  once := Nat.zero_le _
  tenant _ h := absurd h List.not_mem_nil
  patient _ h := absurd h List.not_mem_nil
  prompted _ _ _ h := absurd h List.not_mem_nil

theorem countP_concat (f : Event → Bool) (e : Event) : (es ++ [e]).countP f = es.countP f + if f e then 1 else 0 := by
  rw [List.countP_append, List.countP_singleton]

/-- One event more. -/
theorem Thrifty.concat (h : Thrifty V r es) {e : Event} (hmay : May V e)
    (hpaid : (es ++ [e]).countP isFetch ≤ 2 * (es ++ [e]).countP passes) (honce : (es ++ [e]).countP isBudget ≤ 1)
    (htenant : ∀ call exceeded, budgetCall e = some (call, exceeded) → call.request = r.tenantId.text)
    (hpatient : ∀ ms, e = ⟨.wait ms, ()⟩ → ms ≤ maxRetryAfterMs)
    (hprompted : ∀ system prompt y, e = ⟨.fetch system prompt, y⟩ → ∃ db hits, Retrieved r es db hits ∧ Relevant hits ∧
      system = (promptOf r hits).system ∧ prompt = (promptOf r hits).prompt) : Thrifty V r (es ++ [e]) where
  may := List.forall_mem_append.mpr ⟨h.may, List.forall_mem_singleton.mpr hmay⟩
  paid := hpaid
  once := honce
  tenant := List.forall_mem_append.mpr ⟨h.tenant, List.forall_mem_singleton.mpr htenant⟩
  patient ms hms := by
    rcases List.mem_append.mp hms with hms | hms
    · exact h.patient ms hms
    · exact hpatient ms (List.mem_singleton.mp hms).symm
  prompted system prompt y hy := by
    rcases List.mem_append.mp hy with hy | hy
    · obtain ⟨db, hits, hretrieved, hrest⟩ := h.prompted system prompt y hy
      exact ⟨db, hits, hretrieved.append _, hrest⟩
    · obtain ⟨db, hits, hretrieved, hrest⟩ := hprompted system prompt y (List.mem_singleton.mp hy).symm
      exact ⟨db, hits, hretrieved.append _, hrest⟩

/-- An event that costs nothing. -/
theorem Thrifty.free (h : Thrifty V r es) {e : Event} (hmay : May V e) (hfetch : isFetch e = false) (hbudget : budgetCall e = none)
    (hpatient : ∀ ms, e = ⟨.wait ms, ()⟩ → ms ≤ maxRetryAfterMs) : Thrifty V r (es ++ [e]) := by
  refine h.concat hmay ?_ ?_ (fun call exceeded hcall => ?_) hpatient fun system prompt y he => ?_
  · simpa [countP_concat, hfetch, passes, hbudget] using h.paid
  · simpa [countP_concat, isBudget, hbudget] using h.once
  · rw [hbudget] at hcall
    cases hcall
  · rw [he] at hfetch
    cases hfetch

theorem Thrifty.fetch (h : Thrifty V r es) {db : Documents.Db} {hits : List (Hit × Option Rat)} (hretrieved : Retrieved r es db hits)
    (hrelevant : Relevant hits) (hroom : es.countP isFetch < 2 * es.countP passes) (y : FetchResult) :
    Thrifty V r (es ++ [⟨.fetch (promptOf r hits).system (promptOf r hits).prompt, y⟩]) := by
  refine h.concat trivial ?_ ?_ (fun call exceeded hcall => by cases hcall) (fun ms he => by cases he) fun system prompt y' he => ?_
  · rw [countP_concat, countP_concat]
    exact Nat.succ_le_of_lt hroom
  · rw [countP_concat]
    exact h.once
  · cases he
    exact ⟨db, hits, hretrieved, hrelevant, rfl, rfl⟩

theorem Thrifty.budget (h : Thrifty V r es) (hunspent : es.countP isBudget = 0) {call : Counters.Call Text}
    {exceeded : Option LlmBudget.LlmBudgetExceeded} (hcall : call.request = r.tenantId.text) :
    Thrifty V r (es ++ [⟨.consumeLlmBudget r.tenantId.text, (call, exceeded)⟩]) := by
  refine h.concat hcall ?_ ?_ (fun call' exceeded' heq => ?_) (fun ms he => by cases he) fun system prompt y he => by cases he
  · rw [countP_concat, countP_concat]
    have hpaid := h.paid
    simp only [isFetch, Bool.false_eq_true, if_false]
    omega
  · rw [countP_concat, hunspent]
    exact Nat.le_refl 1
  · cases heq
    exact hcall

end Events

/-! ## The functions -/

section Functions
variable {V : Pgvector} {r : AskRequest} {es : List Event} {db : Documents.Db} {hits : List (Hit × Option Rat)}

abbrev Course {α : Type} (V : Pgvector) (r : AskRequest) (post : List Event → α → Prop) (es : List Event) (p : Asking α) : Prop :=
  p.Keeps (May V) (Thrifty V r) post Refused es

theorem retryAfterMs_le (seconds : Option Rat) : (retryAfterMs seconds).getD retryDelayMs ≤ maxRetryAfterMs := by
  have hdelay : retryDelayMs ≤ maxRetryAfterMs := by decide
  unfold retryAfterMs
  cases seconds with
  | none => exact hdelay
  | some s =>
      rw [Option.bind_some]
      split
      · exact min_le_right _ _
      · exact hdelay

/-- What one call of the model leaves. -/
structure Called (es es' : List Event) (p : Prompt) (result : Except LlmError Text) : Prop where
  events : ∃ y, es' = es ++ [⟨.fetch p.system p.prompt, y⟩] ∧ ∀ answer, result = .ok answer → y = .content (some answer)
  error : ∀ e, result = .error e → e.retryAfterMs.getD retryDelayMs ≤ maxRetryAfterMs ∧
    e.error.code ≠ text "LLM_NOT_CONFIGURED"

theorem course_callOnce (h : Thrifty V r es) (hretrieved : Retrieved r es db hits) (hrelevant : Relevant hits)
    (hroom : es.countP isFetch < 2 * es.countP passes) :
    Course V r (fun es' result => Thrifty V r es' ∧ Called es es' (promptOf r hits) result) es (callOnce (promptOf r hits)) := by
  intro y _
  have hthrifty := h.fetch hretrieved hrelevant hroom y
  refine ⟨hthrifty, ?_⟩
  have herror {e : LlmError} (hms : e.retryAfterMs.getD retryDelayMs ≤ maxRetryAfterMs)
      (hcode : e.error.code ≠ text "LLM_NOT_CONFIGURED") :
      Called es (es ++ [⟨.fetch (promptOf r hits).system (promptOf r hits).prompt, y⟩]) (promptOf r hits) (.error e) := by
    refine ⟨⟨y, rfl, fun answer hok => by cases hok⟩, fun e' he' => ?_⟩
    cases he'
    exact ⟨hms, hcode⟩
  have hdelay : (none : Option Rat).getD retryDelayMs ≤ maxRetryAfterMs := by decide
  cases y with
  | timeout => exact ⟨hthrifty, herror hdelay (by decide)⟩
  | unavailable => exact ⟨hthrifty, herror hdelay (by decide)⟩
  | status code seconds => 
      have hcode : text "LLM_UPSTREAM_ERROR" ≠ text "LLM_NOT_CONFIGURED" := by decide
      exact ⟨hthrifty, herror (retryAfterMs_le seconds) hcode⟩
  | content content =>
      cases content with
      | none => exact ⟨hthrifty, herror hdelay (by decide)⟩
      | some answer =>
          refine ⟨hthrifty, ⟨⟨_, rfl, fun answer' hok => ?_⟩, fun e he => by cases he⟩⟩
          cases hok
          rfl

theorem refused_app {es : List Event} {e : AppError} (h : e.code ≠ text "LLM_NOT_CONFIGURED") : Refused es (.app e) :=
  fun hcode => absurd hcode h

/-- The model is called once, or twice after an error that may pass. -/
theorem course_generate (h : Thrifty V r es) (hretrieved : Retrieved r es db hits) (hrelevant : Relevant hits)
    (hnone : es.countP isFetch = 0) (hpasses : es.countP passes = 1) :
    Course V r (fun es' answer => Retrieved r es' db hits ∧ es'.countP passes = 1 ∧
      (⟨.fetch (promptOf r hits).system (promptOf r hits).prompt, .content (some answer)⟩ : Event) ∈ es')
      es (generate (promptOf r hits)) := by
  have hroom : es.countP isFetch < 2 * es.countP passes := by omega
  refine (course_callOnce h hretrieved hrelevant hroom).seq ?_
  rintro es₁ result ⟨h₁, ⟨⟨y, rfl, hok⟩, herror⟩⟩
  have hretrieved₁ := hretrieved.append (r := r) [⟨.fetch (promptOf r hits).system (promptOf r hits).prompt, y⟩]
  cases result with
  | ok answer =>
      cases hok answer rfl
      refine ⟨hretrieved₁, ?_, List.mem_append_right _ (List.mem_singleton_self _)⟩
      rw [countP_concat, hpasses]
      rfl
  | error e =>
      obtain ⟨hms, hcode⟩ := herror e rfl
      dsimp only
      split
      · exact refused_app hcode
      · intro _ _
        have h₂ := h₁.free (e := ⟨.wait (e.retryAfterMs.getD retryDelayMs), ()⟩) trivial rfl rfl fun ms he => by
          cases he
          exact hms
        refine ⟨h₂, ?_⟩
        have hretrieved₂ := hretrieved₁.append (r := r) [⟨.wait (e.retryAfterMs.getD retryDelayMs), ()⟩]
        refine (course_callOnce h₂ hretrieved₂ hrelevant ?_).seq ?_
        · rw [countP_concat, countP_concat, countP_concat, countP_concat, hnone, hpasses]
          exact Nat.lt_succ_self 1
        · rintro es₂ result ⟨-, ⟨⟨y', rfl, hok'⟩, herror'⟩⟩
          cases result with
          | ok answer =>
              cases hok' answer rfl
              refine ⟨hretrieved₂.append _, ?_, List.mem_append_right _ (List.mem_singleton_self _)⟩
              rw [countP_concat, countP_concat, countP_concat, hpasses]
              rfl
          | error e' => exact refused_app (herror' e' rfl).2

theorem course_retrieveChunks :
    Course V r (fun es hits => Thrifty V r es ∧ es.countP isFetch = 0 ∧ es.countP isBudget = 0 ∧ es.countP passes = 0 ∧
      ∃ db, Retrieved r es db hits) [] (retrieveChunks r) := by
  unfold retrieveChunks
  dsimp only
  split
  · exact rfl
  · intro vector _
    have hembed : Thrifty V r [⟨.embedQuery (queryPrefix ++ trim r.question), vector⟩] :=
      Thrifty.nil.free trivial rfl rfl fun ms he => by cases he
    refine ⟨hembed, ?_⟩
    cases vector with
    | error e => exact rfl
    | ok vector =>
        intro y hmay
        have hsearch := hembed.free hmay rfl rfl fun ms he => by cases he
        refine ⟨hsearch, ?_⟩
        obtain ⟨db, hits⟩ := y
        cases hits with
        | error e => exact rfl
        | ok hits => exact ⟨hsearch, rfl, rfl, rfl, db, vector, List.mem_append_right _ (List.mem_singleton_self _)⟩

/-- **A question, whatever it is answered on its way.** -/
theorem keeps_askQuestion (configured : Bool) : Course V r (Outcome r) [] (askQuestion configured r) := by
  refine course_retrieveChunks.seq ?_
  rintro es hits ⟨hthrifty, hfetch, hbudget, hpasses, db, hretrieved⟩
  cases hhead : hits.head? with
  | none =>
      rw [List.head?_eq_none_iff] at hhead
      subst hhead
      intro y hmay
      have hprogress := hthrifty.free hmay rfl rfl fun ms he => by cases he
      refine ⟨hprogress, ?_⟩
      obtain ⟨db', result⟩ := y
      have hunspent : (es ++ [(⟨.hasDocumentsInProgress r.tenantId, (db', result)⟩ : Event)]).countP isBudget = 0 := by
        rw [countP_concat, hbudget]
        rfl
      cases result with
      | error e => exact hunspent
      | ok processing =>
          exact .empty (hretrieved.append _) (List.mem_append_right _ (List.mem_singleton_self _)) hunspent
  | some top =>
      dsimp only
      split
      · next hbelow => exact .below hretrieved hhead hbelow hbudget
      · next hbelow =>
        have hrelevant : Relevant hits := ⟨top, hhead, by simpa using hbelow⟩
        split
        · exact fun _ => hbudget
        · intro y hmay
          obtain ⟨call, exceeded⟩ := y
          have hpaid : Thrifty V r (_ ++ [⟨.consumeLlmBudget r.tenantId.text, (call, exceeded)⟩]) :=
            hthrifty.budget hbudget hmay
          refine ⟨hpaid, ?_⟩
          have hretrieved' := hretrieved.append (r := r) [⟨.consumeLlmBudget r.tenantId.text, (call, exceeded)⟩]
          cases exceeded with
          | some e =>
              show List.countP isFetch _ = 0
              rw [countP_concat, hfetch]
              rfl
          | none =>
              refine (course_generate hpaid hretrieved' hrelevant ?_ ?_).seq ?_
              · rw [countP_concat, hfetch]
                rfl
              · rw [countP_concat, hpasses]
                rfl
              · rintro es' answer ⟨hretrieved'', hpasses'', hanswer⟩
                exact .generated hretrieved'' hrelevant hpasses'' hanswer

end Functions

end FinSight.Ask
