import Mathlib.Algebra.BigOperators.Group.List.Basic

/-!
# Sums by key

* `groupSum key value rows k` : the sum of `value` over the rows with key `k` (`GROUP BY`);
* `sum_groupSum` : the groups of distinct keys add up to the rows they cover;
* `filter_of_nodup` : at most one row has a key that is unique; `flatMap_if` : a join with at most one row.
-/

namespace Grouping

variable {α κ M : Type} [DecidableEq κ]

section
variable [AddCommMonoid M]

def groupSum (key : α → κ) (value : α → M) (rows : List α) (k : κ) : M :=
  ((rows.filter fun x => key x = k).map value).sum

@[simp] theorem groupSum_nil (key : α → κ) (value : α → M) (k : κ) : groupSum key value [] k = 0 := rfl

theorem groupSum_cons (key : α → κ) (value : α → M) (x : α) (rows : List α) (k : κ) :
    groupSum key value (x :: rows) k = (if key x = k then value x else 0) + groupSum key value rows k := by
  unfold groupSum
  rw [List.filter_cons]
  by_cases h : key x = k
  · simp [h]
  · simp [h]

theorem groupSum_append (key : α → κ) (value : α → M) (xs ys : List α) (k : κ) :
    groupSum key value (xs ++ ys) k = groupSum key value xs k + groupSum key value ys k := by
  unfold groupSum
  rw [List.filter_append, List.map_append, List.sum_append]

theorem groupSum_map {β : Type} (key : α → κ) (value : α → M) (f : β → α) (rows : List β) (k : κ) :
    groupSum key value (rows.map f) k = groupSum (key ∘ f) (value ∘ f) rows k := by
  unfold groupSum
  rw [List.filter_map, List.map_map]
  rfl

/-- One of the distinct keys, or none, is the key `k₀`. -/
theorem sum_indicator {keys : List κ} (h : keys.Nodup) (k₀ : κ) (v : M) :
    (keys.map fun k => if k₀ = k then v else 0).sum = if k₀ ∈ keys then v else 0 := by
  induction keys with
  | nil => rfl
  | cons k keys ih =>
      obtain ⟨hk, hkeys⟩ := List.nodup_cons.mp h
      rw [List.map_cons, List.sum_cons, ih hkeys]
      by_cases heq : k₀ = k
      · subst heq
        simp [hk]
      · simp [heq]

/-- **The groups of distinct keys add up to the rows they cover.** -/
theorem sum_groupSum {keys : List κ} (h : keys.Nodup) (key : α → κ) (value : α → M) (rows : List α) :
    (keys.map (groupSum key value rows)).sum = ((rows.filter fun x => key x ∈ keys).map value).sum := by
  induction rows with
  | nil =>
      rw [show groupSum key value [] = fun _ => (0 : M) from rfl]
      simp
  | cons x rows ih =>
      have hsplit : groupSum key value (x :: rows) =
          fun k => (if key x = k then value x else 0) + groupSum key value rows k :=
        funext fun k => groupSum_cons key value x rows k
      rw [hsplit, List.sum_map_add, sum_indicator h, ih, List.filter_cons]
      by_cases hx : key x ∈ keys
      · simp [hx]
      · simp [hx]

end

/-- At most one row has a key that is unique. -/
theorem filter_of_nodup (key : α → κ) {rows : List α} (h : (rows.map key).Nodup) {x : α} (hx : x ∈ rows)
    (p : α → Bool) : (rows.filter fun y => key y = key x && p y) = if p x then [x] else [] := by
  induction rows with
  | nil => exact absurd hx List.not_mem_nil
  | cons y rows ih =>
      rw [List.map_cons, List.nodup_cons] at h
      have hnone : ∀ z ∈ rows, key z ≠ key y := fun z hz heq => h.1 (heq ▸ List.mem_map_of_mem hz)
      rcases List.mem_cons.mp hx with rfl | hx
      · have hrest : (rows.filter fun z => key z = key x && p z) = [] := by
          rw [List.filter_eq_nil_iff]
          exact fun z hz => by simp [hnone z hz]
        rw [List.filter_cons, hrest]
        simp
      · have hne : key y ≠ key x := fun heq => hnone x hx heq.symm
        rw [List.filter_cons, ih h.2 hx]
        simp [hne]

/-- The group of a key, out of the groups in any order. -/
theorem find?_groups {β : Type} {keys : List κ} (f : κ → β) {groups : List (κ × β)}
    (hperm : groups.Perm (keys.map fun k => (k, f k))) (k : κ) :
    (groups.find? fun g => g.1 = k).map Prod.snd = if k ∈ keys then some (f k) else none := by
  have hmem : ∀ g ∈ groups, g.1 ∈ keys ∧ g.2 = f g.1 := by
    intro g hg
    obtain ⟨k', hk', rfl⟩ := List.mem_map.mp (hperm.mem_iff.mp hg)
    exact ⟨hk', rfl⟩
  cases hfind : groups.find? fun g => g.1 = k with
  | none =>
      have hnone : k ∉ keys := by
        intro hk
        have hgroup : (k, f k) ∈ groups := hperm.mem_iff.mpr (List.mem_map_of_mem hk)
        simpa using List.find?_eq_none.mp hfind _ hgroup
      rw [if_neg hnone]
      rfl
  | some g =>
      have hkey : g.1 = k := by simpa using List.find?_some hfind
      obtain ⟨hk, hvalue⟩ := hmem g (List.mem_of_find?_eq_some hfind)
      rw [if_pos (hkey ▸ hk), Option.map_some, hvalue, hkey]

theorem flatMap_if (p : α → Bool) (rows : List α) : (rows.flatMap fun x => if p x then [x] else []) = rows.filter p := by
  induction rows with
  | nil => rfl
  | cons x rows ih =>
      rw [List.flatMap_cons, ih, List.filter_cons]
      by_cases hx : p x
      · simp [hx]
      · simp [hx]

end Grouping
