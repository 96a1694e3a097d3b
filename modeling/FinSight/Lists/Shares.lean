import Mathlib.Data.List.Basic

/-!
# One owner's part of a list

* `owned` : the elements of one owner, `rank` : the place in it of the element at a place of the list;
* `getElem?_owned`, `exists_rank` : they are the same element;
* `modify_owned`, `modify_others` : what a change of one element does to the part;
* `filter_owned`, `any_owned`, `all_owned`, `find?_owned` : questions that concern one owner only.
-/

namespace Shares

universe u v

variable {α : Type u} {τ : Type v} [DecidableEq τ] {owner : α → τ} {t : τ} {xs : List α} {k : Nat} {x : α}

def owned (owner : α → τ) (t : τ) (xs : List α) : List α := xs.filter fun x => owner x = t

/-- How many of the first `k` are the owner's. -/
def rank (t : τ) (owners : List τ) (k : Nat) : Nat := (owners.take k).count t

@[simp] theorem owned_nil : owned owner t ([] : List α) = [] := rfl

theorem owned_cons_own (h : owner x = t) : owned owner t (x :: xs) = x :: owned owner t xs :=
  List.filter_cons_of_pos (p := fun x => decide (owner x = t)) (decide_eq_true h)

theorem owned_cons_other (h : owner x ≠ t) : owned owner t (x :: xs) = owned owner t xs :=
  List.filter_cons_of_neg (p := fun x => decide (owner x = t)) (by simpa using h)

theorem mem_owned : x ∈ owned owner t xs ↔ x ∈ xs ∧ owner x = t := by
  rw [owned, List.mem_filter, decide_eq_true_iff]

theorem owned_append (xs ys : List α) : owned owner t (xs ++ ys) = owned owner t xs ++ owned owner t ys :=
  List.filter_append ..

theorem owned_own (h : ∀ x ∈ xs, owner x = t) : owned owner t xs = xs :=
  List.filter_eq_self.mpr fun x hx => decide_eq_true (h x hx)

theorem owned_other (h : ∀ x ∈ xs, owner x ≠ t) : owned owner t xs = [] :=
  List.filter_eq_nil_iff.mpr fun x hx hown => h x hx (of_decide_eq_true hown)

theorem owned_concat_own (h : owner x = t) : owned owner t (xs ++ [x]) = owned owner t xs ++ [x] := by
  rw [owned_append, owned_cons_own h, owned_nil]

theorem owned_concat_other (h : owner x ≠ t) : owned owner t (xs ++ [x]) = owned owner t xs := by
  rw [owned_append, owned_cons_other h, owned_nil, List.append_nil]

theorem owned_map (f : α → α) (hf : ∀ x ∈ xs, owner (f x) = owner x) : owned owner t (xs.map f) = (owned owner t xs).map f := by
  rw [owned, owned, List.filter_map]
  refine congrArg _ (List.filter_congr fun x hx => ?_)
  simp only [Function.comp, hf x hx]

/-- A change that leaves the owner's elements as they are. -/
theorem owned_map_other (f : α → α) (hf : ∀ x ∈ xs, owner (f x) = owner x) (hsame : ∀ x ∈ xs, owner x = t → f x = x) :
    owned owner t (xs.map f) = owned owner t xs := by
  rw [owned_map f hf]
  conv_rhs => rw [← List.map_id (owned owner t xs)]
  exact List.map_congr_left fun x hx => hsame x (mem_owned.mp hx).1 (mem_owned.mp hx).2

theorem owned_filter (q : α → Bool) : owned owner t (xs.filter q) = (owned owner t xs).filter q := List.filter_comm ..

/-- Elements of others are removed. -/
theorem owned_filter_other {q : α → Bool} (h : ∀ x ∈ xs, owner x = t → q x = true) :
    owned owner t (xs.filter q) = owned owner t xs := by
  rw [owned_filter, List.filter_eq_self]
  exact fun x hx => h x (mem_owned.mp hx).1 (mem_owned.mp hx).2

/-! ## Places -/

@[simp] theorem rank_zero (owners : List τ) : rank t owners 0 = 0 := by rw [rank, List.take_zero, List.count_nil]

theorem rank_cons (u : τ) (owners : List τ) (k : Nat) :
    rank t (u :: owners) (k + 1) = rank t owners k + if u = t then 1 else 0 := by
  rw [rank, List.take_succ_cons, List.count_cons]
  simp [rank]

/-- Owners that come later do not count. -/
theorem rank_append {owners : List τ} (h : k ≤ owners.length) (later : List τ) :
    rank t (owners ++ later) k = rank t owners k := by
  rw [rank, List.take_append_of_le_length h, rank]

theorem length_owned : (owned owner t xs).length = rank t (xs.map owner) xs.length := by
  induction xs with
  | nil => rfl
  | cons x xs ih =>
      rw [List.map_cons, List.length_cons, rank_cons, ← ih]
      by_cases hx : owner x = t
      · rw [owned_cons_own hx, if_pos hx, List.length_cons]
      · rw [owned_cons_other hx, if_neg hx, Nat.add_zero]

theorem getElem?_owned (h : xs[k]? = some x) (hx : owner x = t) : (owned owner t xs)[rank t (xs.map owner) k]? = some x := by
  induction xs generalizing k with
  | nil => cases h
  | cons y xs ih =>
      cases k with
      | zero =>
          obtain rfl : y = x := Option.some.inj h
          rw [rank_zero, owned_cons_own hx]
          rfl
      | succ k =>
          rw [List.map_cons, rank_cons]
          by_cases hy : owner y = t
          · rw [owned_cons_own hy, if_pos hy, List.getElem?_cons_succ]
            exact ih h
          · rw [owned_cons_other hy, if_neg hy]
            exact ih h

/-- And every element of the part is somewhere in the list. -/
theorem exists_rank {j : Nat} (h : (owned owner t xs)[j]? = some x) :
    ∃ k, xs[k]? = some x ∧ owner x = t ∧ rank t (xs.map owner) k = j := by
  induction xs generalizing j with
  | nil => cases h
  | cons y xs ih =>
      by_cases hy : owner y = t
      · rw [owned_cons_own hy] at h
        cases j with
        | zero =>
            obtain rfl : y = x := Option.some.inj h
            exact ⟨0, rfl, hy, rank_zero _⟩
        | succ j =>
            obtain ⟨k, hk, hx, hj⟩ := ih h
            exact ⟨k + 1, hk, hx, by rw [List.map_cons, rank_cons, hj, if_pos hy]⟩
      · rw [owned_cons_other hy] at h
        obtain ⟨k, hk, hx, hj⟩ := ih h
        exact ⟨k + 1, hk, hx, by rw [List.map_cons, rank_cons, hj, if_neg hy, Nat.add_zero]⟩

theorem modify_owned {f : α → α} (hf : ∀ x, owner (f x) = owner x) (h : xs[k]? = some x) (hx : owner x = t) :
    owned owner t (xs.modify k f) = (owned owner t xs).modify (rank t (xs.map owner) k) f := by
  induction xs generalizing k with
  | nil => cases h
  | cons y xs ih =>
      cases k with
      | zero =>
          obtain rfl : y = x := Option.some.inj h
          rw [rank_zero, List.modify_zero_cons, owned_cons_own hx, owned_cons_own ((hf y).trans hx), List.modify_zero_cons]
      | succ k =>
          rw [List.map_cons, rank_cons, List.modify_succ_cons]
          by_cases hy : owner y = t
          · rw [owned_cons_own hy, owned_cons_own hy, if_pos hy, List.modify_succ_cons, ih h]
          · rw [owned_cons_other hy, owned_cons_other hy, if_neg hy]
            exact ih h

/-- A change of an element of another owner. -/
theorem modify_others {f : α → α} (hf : ∀ x, owner (f x) = owner x) (h : xs[k]? = some x) (hx : owner x ≠ t) :
    owned owner t (xs.modify k f) = owned owner t xs := by
  induction xs generalizing k with
  | nil => cases h
  | cons y xs ih =>
      cases k with
      | zero =>
          obtain rfl : y = x := Option.some.inj h
          rw [List.modify_zero_cons, owned_cons_other hx, owned_cons_other ((hf y).trans_ne hx)]
      | succ k =>
          rw [List.modify_succ_cons]
          by_cases hy : owner y = t
          · rw [owned_cons_own hy, owned_cons_own hy, ih h]
          · rw [owned_cons_other hy, owned_cons_other hy, ih h]

omit [DecidableEq τ] in
/-- A change keeps the owners. -/
theorem map_owner_modify {f : α → α} (hf : ∀ x, owner (f x) = owner x) (xs : List α) (k : Nat) :
    (xs.modify k f).map owner = xs.map owner := by
  induction xs generalizing k with
  | nil => simp
  | cons y xs ih =>
      cases k with
      | zero => simp [hf]
      | succ k => simp [ih]

omit [DecidableEq τ] in
theorem map_modify {β : Type u} {f : α → α} {f' : β → β} {g : α → β} (h : ∀ x, g (f x) = f' (g x)) (xs : List α) (k : Nat) :
    (xs.modify k f).map g = (xs.map g).modify k f' := by
  induction xs generalizing k with
  | nil => simp
  | cons y xs ih =>
      cases k with
      | zero => simp [h]
      | succ k => simp [ih]

/-! ## Questions -/

section Questions
variable {q : α → Bool}

omit [DecidableEq τ] in
theorem any_congr_mem {q' : α → Bool} (h : ∀ x ∈ xs, q x = q' x) : xs.any q = xs.any q' := by
  rw [Bool.eq_iff_iff, List.any_eq_true, List.any_eq_true]
  exact exists_congr fun x => and_congr_right fun hx => by rw [h x hx]

omit [DecidableEq τ] in
theorem all_congr_mem {q' : α → Bool} (h : ∀ x ∈ xs, q x = q' x) : xs.all q = xs.all q' := by
  rw [Bool.eq_iff_iff, List.all_eq_true, List.all_eq_true]
  exact forall₂_congr fun x hx => by rw [h x hx]

theorem filter_owned (h : ∀ x ∈ xs, q x = true → owner x = t) : (owned owner t xs).filter q = xs.filter q := by
  rw [owned, List.filter_filter]
  refine List.filter_congr fun x hx => ?_
  cases hq : q x with
  | false => rfl
  | true => simp [h x hx hq]

theorem any_owned (h : ∀ x ∈ xs, q x = true → owner x = t) : (owned owner t xs).any q = xs.any q := by
  rw [Bool.eq_iff_iff, List.any_eq_true, List.any_eq_true]
  constructor
  · rintro ⟨x, hx, hq⟩
    exact ⟨x, (mem_owned.mp hx).1, hq⟩
  · rintro ⟨x, hx, hq⟩
    exact ⟨x, mem_owned.mpr ⟨hx, h x hx hq⟩, hq⟩

theorem all_owned (h : ∀ x ∈ xs, owner x ≠ t → q x = true) : (owned owner t xs).all q = xs.all q := by
  rw [Bool.eq_iff_iff, List.all_eq_true, List.all_eq_true]
  constructor
  · intro hall x hx
    by_cases hown : owner x = t
    · exact hall x (mem_owned.mpr ⟨hx, hown⟩)
    · exact h x hx hown
  · exact fun hall x hx => hall x (mem_owned.mp hx).1

theorem find?_owned (h : ∀ x ∈ xs, q x = true → owner x = t) : (owned owner t xs).find? q = xs.find? q := by
  rw [← List.head?_filter, ← List.head?_filter, filter_owned h]

omit [DecidableEq τ] in
theorem find?_spec (h : xs.find? q = some x) : x ∈ xs ∧ q x = true :=
  ⟨List.mem_of_find?_eq_some h, List.find?_some h⟩

end Questions

end Shares
