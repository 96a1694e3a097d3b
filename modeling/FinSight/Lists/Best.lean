import Mathlib.Data.List.Sort

/-!
# The best of a list

* `Best` : the first `k` rows by an order, or all where there are fewer;
* `best_take` : the first rows of a sort; `Best.map` : an image that keeps the order;
* `Best.first_le`, `Best.rows_nil` : no row is better than the first one, and where there is no best row there is none.
-/

variable {α β : Type} {r : α → α → Prop} {k : Nat} {rows best : List α}

/-- No row that is left out comes before one that is taken, and none is left out but for the bound. -/
structure Best (r : α → α → Prop) (k : Nat) (rows best : List α) : Prop where
  bounded : best.length ≤ k
  sorted : best.Pairwise r
  rest : ∃ rest, (best ++ rest).Perm rows ∧ (∀ a ∈ best, ∀ b ∈ rest, r a b) ∧ (rest ≠ [] → best.length = k)

theorem best_take [DecidableRel r] [Std.Total r] [IsTrans α r] (k : Nat) (rows : List α) :
    Best r k rows ((rows.insertionSort r).take k) := by
  have hsorted : (rows.insertionSort r).Pairwise r := List.pairwise_insertionSort r rows
  have hsplit := List.take_append_drop k (rows.insertionSort r)
  rw [← hsplit, List.pairwise_append] at hsorted
  refine ⟨List.length_take_le _ _, hsorted.1, (rows.insertionSort r).drop k, ?_, hsorted.2.2, fun hrest => ?_⟩
  · rw [hsplit]
    exact List.perm_insertionSort r rows
  · rw [List.length_take]
    rw [Ne, List.drop_eq_nil_iff] at hrest
    omega

namespace Best

theorem map {r' : β → β → Prop} {f : α → β} (h : Best r k rows best) (hf : ∀ a b, r a b → r' (f a) (f b)) :
    Best r' k (rows.map f) (best.map f) := by
  obtain ⟨rest, hperm, hle, hfull⟩ := h.rest
  refine ⟨by simpa using h.bounded, List.pairwise_map.mpr (h.sorted.imp (hf _ _)), rest.map f, ?_, ?_, fun hrest => ?_⟩
  · rw [← List.map_append]
    exact hperm.map f
  · intro a ha b hb
    obtain ⟨a', ha', rfl⟩ := List.mem_map.mp ha
    obtain ⟨b', hb', rfl⟩ := List.mem_map.mp hb
    exact hf a' b' (hle a' ha' b' hb')
  · rw [List.length_map]
    exact hfull fun hnil => hrest (by rw [hnil, List.map_nil])

theorem mem (h : Best r k rows best) {a : α} (ha : a ∈ best) : a ∈ rows := by
  obtain ⟨rest, hperm, -⟩ := h.rest
  exact hperm.subset (List.mem_append_left rest ha)

theorem first_le (h : Best r k rows best) (hrefl : ∀ a, r a a) {a : α} (ha : best.head? = some a) : ∀ b ∈ rows, r a b := by
  obtain ⟨rest, hperm, hle, -⟩ := h.rest
  obtain ⟨others, rfl⟩ := List.head?_eq_some_iff.mp ha
  intro b hb
  rcases List.mem_append.mp (hperm.symm.subset hb) with hb | hb
  · rcases List.mem_cons.mp hb with rfl | hb
    · exact hrefl b
    · exact List.rel_of_pairwise_cons h.sorted hb
  · exact hle a List.mem_cons_self b hb

theorem rows_nil (h : Best r k rows []) (hk : 0 < k) : rows = [] := by
  obtain ⟨rest, hperm, -, hfull⟩ := h.rest
  by_cases hrest : rest = []
  · subst hrest
    exact hperm.nil_eq.symm
  · exact absurd (hfull hrest) (Nat.ne_of_lt hk)

end Best
