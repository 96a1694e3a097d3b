import FinSight.Guarantees.Ledger

/-!
# Gapless invoice numbers

* `Gapless db tenantId` : the numbers `1..n`, the counter at `n`, distinct invoice numbers;
* `Commit.numbered` : commits add invoices, and never renumber one;
* `gapless_of_reaches` : in every reachable state, and later invoices have larger numbers.
-/

namespace FinSight

open ReadCommitted Grouping

variable {sha256 : Text → Text}

structure Gapless (db : Db) (tenantId : Uuid) (n : Nat) : Prop where
  numbers : sequenceNumbers db tenantId = List.range' 1 n
  counter : ((db.sequences.filter fun r => r.tenantId = tenantId).map (·.lastValue)) = if n = 0 then [] else [n]
  text : ((db.invoices.filter fun i => i.tenantId = tenantId).map (·.invoiceNumber)).Nodup

theorem invoiceNumber_injective : Function.Injective invoiceNumber := fun _ _ h =>
  padStart_decimal_injective 6 (List.append_cancel_left h)

theorem Numbering.gapless {db : Db} (h : Numbering db) (tenantId : Uuid) :
    Gapless db tenantId (lastValue db tenantId) where
  numbers := h.numbers tenantId
  counter := by
    unfold lastValue
    cases hfind : db.sequences.find? fun r => r.tenantId = tenantId with
    | none =>
        have hnone : db.sequences.filter (fun r => r.tenantId = tenantId) = [] := by
          rw [List.filter_eq_nil_iff]
          exact fun r hr => by simpa using List.find?_eq_none.mp hfind r hr
        rw [hnone]
        rfl
    | some r =>
        have hr := List.mem_of_find?_eq_some hfind
        have ht : r.tenantId = tenantId := by simpa using List.find?_some hfind
        have hone := filter_of_nodup (fun x : InvoiceSequence => x.tenantId) h.sequences hr fun _ => true
        rw [← ht]
        simp only [Bool.and_true, if_true] at hone
        have hpos := h.positive r hr
        rw [hone]
        simp
        omega
  text := by
    have hnumbers : ((db.invoices.filter fun i => i.tenantId = tenantId).map (·.invoiceNumber)) =
        (sequenceNumbers db tenantId).map invoiceNumber := by
      rw [sequenceNumbers, List.map_map]
      exact List.map_congr_left fun i hi => h.text i (List.mem_of_mem_filter hi)
    rw [hnumbers, h.numbers]
    exact List.Nodup.map invoiceNumber_injective List.nodup_range'

/-! ## Order -/

/-- What identifies an invoice and its number. -/
def Invoice.numbered (i : Invoice) : Uuid × Uuid × Nat := (i.id, i.tenantId, i.sequenceNumber)

/-- Commits add invoices, and never renumber one. -/
def Extends (db db' : Db) : Prop := db.invoices.map Invoice.numbered <+: db'.invoices.map Invoice.numbered

theorem Extends.refl (db : Db) : Extends db db := List.prefix_refl _

theorem Extends.setInvoice {db db' : Db} {id : Uuid} {s : InvoiceState}
    (hinvoices : db'.invoices = setInvoice id s db.invoices) : Extends db db' := by
  have hsame : db'.invoices.map Invoice.numbered = db.invoices.map Invoice.numbered := by
    rw [hinvoices, FinSight.setInvoice, List.map_map]
    refine List.map_congr_left fun i _ => ?_
    simp only [Function.comp_apply]
    split <;> rfl
  show db.invoices.map Invoice.numbered <+: db'.invoices.map Invoice.numbered
  exact hsame ▸ List.prefix_rfl

theorem OverdueRun.numbered {strict : Prop} {now updatedAt : Timestamp} {db : Db} {log : List Write}
    {rows : List Invoice} (ho : OverdueRun strict now updatedAt db log rows) : Extends db (engine.view log db) := by
  induction ho with
  | nil => exact .refl db
  | @snoc log rows i src hist _ _ _ _ _ _ ih =>
      rw [Engine.view_append]
      have hset : Extends (engine.view log db)
          (engine.view [.updateInvoice i.id (overdueState updatedAt i), .history hist] (engine.view log db)) :=
        .setInvoice rfl
      exact List.IsPrefix.trans ih hset

theorem Commit.numbered {strict : Prop} {db : Db} {now : Timestamp} {q : Request} {r : Response} {log : List Write}
    (hc : Commit sha256 strict db now q r log) : Extends db (engine.view log db) := by
  cases hc with
  | createAccount _ _ _ => exact .refl db
  | createJournalEntry _ =>
      rw [view_posts]
      exact .refl db
  | createInvoice hcreated =>
      rw [hcreated.view, Extends, List.map_append]
      exact List.prefix_append _ _
  | issueInvoice hissued =>
      rw [hissued.view]
      exact .setInvoice rfl
  | pay hp =>
      rw [hp.view]
      exact .setInvoice rfl
  | replayPayment _ => exact .refl db
  | voidInvoice hv =>
      rw [hv.view]
      exact .setInvoice rfl
  | markOverdue ho => exact ho.numbered

theorem numbered_of_run {ok : Sys → Event → Prop} {s s' : Sys} (h : Reaches sha256 ok s)
    (hrun : System.Reachable engine (program sha256) ok s s') : Extends s.db s'.db := by
  induction hrun with
  | refl => exact .refl _
  | step hrun _ hstep ih =>
      cases commit_of_step (h.trans hrun) hstep with
      | quiet hdb =>
          rw [hdb]
          exact ih
      | commit _ _ _ hcommit hs' =>
          rw [hs']
          exact ih.trans hcommit.numbered

/-- Numbers of a tenant in a list of identified invoices. -/
def numbersOf (tenantId : Uuid) (rows : List (Uuid × Uuid × Nat)) : List Nat :=
  (rows.filter fun x => x.2.1 = tenantId).map (·.2.2)

theorem numbersOf_numbered (db : Db) (tenantId : Uuid) :
    numbersOf tenantId (db.invoices.map Invoice.numbered) = sequenceNumbers db tenantId := by
  rw [numbersOf, List.filter_map, List.map_map]
  rfl

/-- An invoice that is not yet there gets a larger number than those that are. -/
theorem Extends.larger {db db' : Db} (h : Extends db db') (hnumbers : Numbering db') {i j : Invoice}
    (hi : i ∈ db'.invoices) (hnew : ∀ x ∈ db.invoices, x.id ≠ i.id) (hj : j ∈ db.invoices)
    (ht : j.tenantId = i.tenantId) : j.sequenceNumber < i.sequenceNumber := by
  obtain ⟨rest, hrest⟩ := h
  have hsorted : (sequenceNumbers db' i.tenantId).Pairwise (· < ·) := by
    rw [hnumbers.numbers]
    exact List.pairwise_lt_range'
  rw [← numbersOf_numbered, ← hrest, numbersOf, List.filter_append, List.map_append, List.pairwise_append] at hsorted
  refine hsorted.2.2 j.sequenceNumber ?_ i.sequenceNumber ?_
  · exact List.mem_map.mpr ⟨j.numbered, List.mem_filter.mpr ⟨List.mem_map_of_mem hj, decide_eq_true ht⟩, rfl⟩
  · have hmem : i.numbered ∈ db.invoices.map Invoice.numbered ++ rest := by
      rw [hrest]
      exact List.mem_map_of_mem hi
    rcases List.mem_append.mp hmem with hold | hnew'
    · obtain ⟨x, hx, heq⟩ := List.mem_map.mp hold
      exact absurd (congrArg Prod.fst heq) (hnew x hx)
    · exact List.mem_map.mpr ⟨i.numbered, List.mem_filter.mpr ⟨hnew', by simp [Invoice.numbered]⟩, rfl⟩

/-- **Gapless numbers in every reachable state,** whatever is in flight or was aborted; an invoice committed later
has a larger number. -/
theorem gapless_of_reaches {s : Sys} (h : Reaches sha256 anyStep s) (tenantId : Uuid) :
    (∃ n, Gapless s.db tenantId n) ∧
      ∀ s', System.Reachable engine (program sha256) anyStep s s' → ∀ i ∈ s'.db.invoices, i.tenantId = tenantId →
        (∀ x ∈ s.db.invoices, x.id ≠ i.id) → ∀ j ∈ s.db.invoices, j.tenantId = tenantId →
          j.sequenceNumber < i.sequenceNumber := by
  refine ⟨⟨_, (consistent_of_reaches h).numbering.gapless tenantId⟩, ?_⟩
  intro s' hrun i hi hit hnew j hj hjt
  exact (numbered_of_run h hrun).larger (consistent_of_reaches (h.trans hrun)).numbering hi hnew hj (hjt.trans hit.symm)

set_option maxRecDepth 100000 in
/-- Call 4 takes a number and is aborted; call 5 gets the number again. -/
theorem gapless_of_day : ∃ s : Sys, s.db.invoices.map (·.sequenceNumber) = [1, 2] ∧
    (∃ n, Gapless s.db Day.tenant n) ∧
      ∀ s', System.Reachable engine (program fun t => t) anyStep s s' → ∀ i ∈ s'.db.invoices,
        i.tenantId = Day.tenant → (∀ x ∈ s.db.invoices, x.id ≠ i.id) → ∀ j ∈ s.db.invoices,
          j.tenantId = Day.tenant → j.sequenceNumber < i.sequenceNumber := by
  obtain ⟨s, hs, hnumbers⟩ := Day.reaches
    (Day.opening ++
      [.begin (.createInvoice ⟨Day.tenant, text "Customer", text "USD", ⟨0⟩, [⟨text "Work", 1, 70⟩]⟩),
        .exec 4 (Day.choice 400), .exec 4 (Day.choice 410), .abort 4] ++
      Day.alone 5 4 (.createInvoice ⟨Day.tenant, text "Customer", text "USD", ⟨0⟩, [⟨text "Work", 1, 70⟩]⟩))
    (fun s => s.db.invoices.map (·.sequenceNumber)) (a := [1, 2]) (by decide)
  exact ⟨s, hnumbers, gapless_of_reaches hs Day.tenant⟩

end FinSight
