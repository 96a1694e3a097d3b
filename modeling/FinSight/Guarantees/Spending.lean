import FinSight.Guarantees.DailyBudget
import FinSight.Guarantees.Grounding
import Mathlib.Algebra.BigOperators.Ring.Finset
import Mathlib.Algebra.Order.BigOperators.Group.Finset

/-!
# What a tenant's questions cost

* `Questions.charges` : the calls of the budget, with their answers;
* `chargedTo` : a question whose call is of a tenant and a day;
* `spent_of_reachable` : the calls of the model for a tenant and a day, over all questions at once.
-/

namespace FinSight.Ask

open Documents Interaction LlmBudget

abbrev Charge := Counters.Call Text × Option LlmBudgetExceeded

def charges (s : Questions) : List Charge := s.events.filterMap fun o => budgetCall o.2

/-- The question `i` has called the budget for the tenant on the UTC day. -/
def chargedTo (tenant : Text) (day : Int) (s : Questions) (i : Nat) : Bool :=
  (s.own i).any fun e => (budgetCall e).any fun y => OfDay tenant day y.1

/-- The calls of the model that the questions of the tenant make on the day. -/
def modelCalls (tenant : Text) (day : Int) (s : Questions) : Nat :=
  s.events.countP fun o => chargedTo tenant day s o.1 && isFetch o.2

/-- An event that is a call of the budget for the tenant on the day, and passes. -/
def passesFor (tenant : Text) (day : Int) (e : Event) : Bool :=
  (budgetCall e).any fun y => OfDay tenant day y.1 && y.2.isNone

section Counts
variable {V : Pgvector} {r : AskRequest} {es : List Event} {tenant : Text} {day : Int}

/-- The one call of the budget is the one that passes. -/
theorem passes_le_passesFor (h : es.countP isBudget ≤ 1)
    (hcharged : es.any (fun e => (budgetCall e).any fun y => OfDay tenant day y.1) = true) :
    es.countP passes ≤ es.countP (passesFor tenant day) := by
  obtain ⟨e, he, hcall⟩ := List.any_eq_true.mp hcharged
  obtain ⟨y, hy, hday⟩ := (Option.any_eq_true _ _).mp hcall
  have hmem : e ∈ es.filter isBudget := List.mem_filter.mpr ⟨he, by rw [isBudget, hy]; rfl⟩
  rw [List.countP_eq_length_filter] at h
  obtain ⟨e', hsingle⟩ := List.length_eq_one_iff.mp (le_antisymm h (List.length_pos_of_mem hmem))
  rw [hsingle] at hmem
  obtain rfl := List.mem_singleton.mp hmem
  have hwithin : ∀ p : Event → Bool, (∀ e, p e = true → isBudget e = true) → es.countP p = [e].countP p := by
    intro p hp
    rw [← hsingle, List.countP_filter]
    exact List.countP_congr fun e _ => by simpa using hp e
  rw [hwithin passes fun e he => Option.isSome_of_any he, hwithin (passesFor tenant day) fun e he => Option.isSome_of_any he]
  refine List.countP_mono_left fun e' he' hpasses => ?_
  obtain rfl := List.mem_singleton.mp he'
  rw [passes, hy] at hpasses
  rw [passesFor, hy]
  exact Bool.and_eq_true_iff.mpr ⟨hday, hpasses⟩

/-- Two calls of the model at most for a call of the budget that passes. -/
theorem fetches_le (h : Thrifty V r es) (hcharged : es.any (fun e => (budgetCall e).any fun y => OfDay tenant day y.1) = true) :
    es.countP isFetch ≤ 2 * es.countP (passesFor tenant day) :=
  h.paid.trans (Nat.mul_le_mul_left 2 (passes_le_passesFor h.once hcharged))

end Counts

section Runs
variable {V : Pgvector} {configured : Bool} {s : Questions} {limit : Nat} {cs : List (Counters.Call Text)}

theorem countP_charges (tenant : Text) (day : Int) (s : Questions) :
    s.events.countP (fun o => passesFor tenant day o.2) =
      (charges s).countP fun y => OfDay tenant day y.1 && y.2.isNone := by
  unfold charges
  rw [List.countP_filterMap]
  refine List.countP_congr fun o _ => ?_
  unfold passesFor
  cases budgetCall o.2 <;> rfl

theorem modelCalls_le (h : s.Reachable (askQuestion configured) fun _ => Allowed V) (tenant : Text) (day : Int) :
    modelCalls tenant day s ≤ 2 * (charges s).countP fun y => OfDay tenant day y.1 && y.2.isNone := by
  have hlt := Crowd.lt_of_reachable h
  have hall : s.events.countP (fun o => passesFor tenant day o.2) =
      ∑ i ∈ Finset.range s.members.length, (s.own i).countP (passesFor tenant day) := by
    have hsum := s.countP_eq_sum (fun _ => true) (passesFor tenant day) hlt
    simpa only [Bool.true_and, if_true] using hsum
  rw [modelCalls, s.countP_eq_sum _ _ hlt, ← countP_charges, hall, Finset.mul_sum]
  refine Finset.sum_le_sum fun i hi => ?_
  split
  · next hcharged =>
    obtain ⟨⟨r, p⟩, hget⟩ : ∃ m, s.members[i]? = some m :=
      ⟨_, List.getElem?_eq_getElem (Finset.mem_range.mp hi)⟩
    exact fetches_le (keeps_of_reachable h i r p hget).1 hcharged
  · exact Nat.zero_le _

/-- The calls that pass on a day: those within the limit, and those that the counters have not answered in time. -/
theorem passed_of_day_le (h : Counters.Unlapsed budgetKey budgetTtl cs) (tenant : Text) (day : Int) :
    (run limit cs).countP (fun y => OfDay tenant day y.1 && y.2.isNone) ≤
      limit + cs.countP fun c => OfDay tenant day c ∧ c.reply ≠ .inTime := by
  have hbound := bound_of_unlapsed h limit tenant day
  have hlate : (run limit cs).countP (fun y => OfDay tenant day y.1 ∧ y.1.reply ≠ .inTime) =
      cs.countP fun c => OfDay tenant day c ∧ c.reply ≠ .inTime := by
    conv_rhs => rw [← Counters.map_fst_outcomes budgetKey budgetTtl (fun c => respond limit ⟨c.now⟩) cs]
    rw [List.countP_map]
    rfl
  rw [List.countP_eq_countP_filter_add _ _ fun y => decide (y.1.reply = .inTime), List.countP_filter, List.countP_filter]
  refine Nat.add_le_add (le_trans (List.countP_mono_left fun y _ hy => ?_) hbound)
    (le_trans (List.countP_mono_left fun y _ hy => ?_) hlate.le)
  · simp only [Bool.and_eq_true, decide_eq_true_iff, Option.isNone_iff_eq_none] at hy
    exact decide_eq_true ⟨hy.1.1, hy.2, hy.1.2⟩
  · simp only [Bool.and_eq_true, Bool.not_eq_true', decide_eq_true_iff, decide_eq_false_iff_not] at hy
    exact decide_eq_true ⟨hy.1.1, hy.2⟩

/-- A question that calls the model has been let pass by the budget of its own tenant. -/
theorem passed_of_fetch (h : s.Reachable (askQuestion configured) fun _ => Allowed V) {o : Nat × Event} (ho : o ∈ s.events)
    (hfetch : isFetch o.2 = true) : ∃ r p call, s.members[o.1]? = some (r, p) ∧ call.request = r.tenantId.text ∧
      (⟨.consumeLlmBudget r.tenantId.text, (call, none)⟩ : Event) ∈ s.own o.1 := by
  obtain ⟨⟨r, p⟩, hget⟩ : ∃ m, s.members[o.1]? = some m :=
    ⟨_, List.getElem?_eq_getElem (Crowd.lt_of_reachable h o ho)⟩
  obtain ⟨hthrifty, -⟩ := keeps_of_reachable h o.1 r p hget
  have hown : o.2 ∈ s.own o.1 := List.mem_map.mpr ⟨o, List.mem_filter.mpr ⟨ho, decide_eq_true rfl⟩, rfl⟩
  have hfetches : 0 < (s.own o.1).countP isFetch := List.countP_pos_iff.mpr ⟨o.2, hown, hfetch⟩
  have hpasses : 0 < (s.own o.1).countP passes := by
    have hpaid := hthrifty.paid
    omega
  obtain ⟨e, he, hpass⟩ := List.countP_pos_iff.mp hpasses
  obtain ⟨⟨call, exceeded⟩, hcall, hnone⟩ := (Option.any_eq_true _ _).mp hpass
  have htenant := hthrifty.tenant e he call exceeded hcall
  obtain rfl : exceeded = none := Option.isNone_iff_eq_none.mp hnone
  obtain ⟨effect, y⟩ := e
  cases effect with
  | consumeLlmBudget tenantId =>
      obtain rfl : y = (call, none) := Option.some.inj hcall
      have hrequest : call.request = tenantId := hthrifty.may _ he
      refine ⟨r, p, call, hget, htenant, ?_⟩
      rw [← htenant, hrequest]
      exact he
  | embedQuery _ | searchChunks _ | hasDocumentsInProgress _ | fetch _ _ | wait _ => cases hcall

/-- **A tenant's questions cost no more than twice its limit on a day**, but for the calls that the counters have not
answered in time; and every call of the model is paid by the budget of its tenant. -/
theorem spent_of_reachable (h : s.Reachable (askQuestion configured) fun _ => Allowed V)
    (hcharges : (charges s).Subperm (run limit cs)) :
    (∀ o ∈ s.events, isFetch o.2 = true → ∃ r p call, s.members[o.1]? = some (r, p) ∧ call.request = r.tenantId.text ∧
      (⟨.consumeLlmBudget r.tenantId.text, (call, none)⟩ : Event) ∈ s.own o.1) ∧
    (Counters.Unlapsed budgetKey budgetTtl cs → ∀ tenant day,
      modelCalls tenant day s ≤ 2 * (limit + cs.countP fun c => OfDay tenant day c ∧ c.reply ≠ .inTime)) ∧
    ∀ timeout ≤ 3600000, Counters.Timely timeout cs → (∀ c ∈ cs, 0 ≤ utcYear c.now ∧ utcYear c.now ≤ 9999) →
      Counters.Unlapsed budgetKey budgetTtl cs := by
  refine ⟨fun o ho hfetch => passed_of_fetch h ho hfetch, fun hunlapsed tenant day => ?_,
    fun timeout htimeout htimely hyears => unlapsed_of_timeout htimely hyears htimeout⟩
  exact (modelCalls_le h tenant day).trans
    (Nat.mul_le_mul_left 2 ((hcharges.countP_le _).trans (passed_of_day_le hunlapsed tenant day)))

end Runs

theorem timely_call : Counters.Timely 200 [Rent.call] := ⟨by simp [Rent.call], by simp [Rent.call]⟩

open Rent in
theorem spent_of_rent : ∃ s : Questions, ∃ a b, s.members = [(tenant, .ret a), (neighbour, .ret b)] ∧ a.abstained = false ∧
    b = abstain .noDocuments ∧ modelCalls (uuid 7).text 0 s = 1 ∧ modelCalls (uuid 7).text 0 s ≤ 2 ∧
    ∀ o ∈ s.events, isFetch o.2 = true → ∃ r p call, s.members[o.1]? = some (r, p) ∧ call.request = r.tenantId.text ∧
      (⟨.consumeLlmBudget r.tenantId.text, (call, none)⟩ : Event) ∈ s.own o.1 := by
  obtain ⟨s, a, b, h, hmembers, ha, -, hb, hevents⟩ := exists_reachable
  have hrun : (charges s).Subperm (run 1 [call]) := by
    rw [charges, hevents]
    exact List.Subperm.refl _
  have hcalls : modelCalls (uuid 7).text 0 s = 1 := by
    simp only [modelCalls, chargedTo, Crowd.own, hevents]
    decide +kernel
  obtain ⟨hpaid, hbound, hunlapsed⟩ := spent_of_reachable h hrun
  have hcost := hbound (hunlapsed 200 (by decide) timely_call (by decide)) (uuid 7).text 0
  exact ⟨s, a, b, hmembers, ha, hb, hcalls, hcost, hpaid⟩

end FinSight.Ask
