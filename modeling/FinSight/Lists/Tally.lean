import Mathlib

/-!
# Tallies

An insertion-ordered map counts in how many lists an element is.

* `bump`, `tally`, `frequent` : the map, and the elements with at least a number;
* `count_tally`, `mem_frequent` : what is counted; `mul_length_frequent_le` : short lists have few frequent elements.
-/

namespace Tally

variable {α : Type} [DecidableEq α]

def bump : List (α × Nat) → α → List (α × Nat)
  | [], a => [(a, 1)]
  | (b, n) :: rest, a => if b = a then (b, n + 1) :: rest else (b, n) :: bump rest a

def tally (sets : List (List α)) : List (α × Nat) := sets.foldl (fun counts s => s.foldl bump counts) []

def frequent (n : Nat) (counts : List (α × Nat)) : List α := (counts.filter fun c => n ≤ c.2).map Prod.fst

/-- The number under a key. -/
def count (counts : List (α × Nat)) (a : α) : Nat := (counts.find? fun c => c.1 = a).elim 0 Prod.snd

theorem count_bump (counts : List (α × Nat)) (a b : α) : count (bump counts a) b = count counts b + if a = b then 1 else 0 := by
  induction counts with
  | nil =>
      unfold bump count
      rw [List.find?_singleton]
      by_cases h : a = b <;> simp [h]
  | cons c counts ih =>
      unfold count at ih ⊢
      rw [bump]
      split
      · next hkey =>
        rw [List.find?_cons, List.find?_cons]
        by_cases h : a = b <;> simp [hkey, h]
      · next hkey =>
        rw [List.find?_cons, List.find?_cons]
        by_cases h : c.1 = b
        · subst h
          simp [Ne.symm hkey]
        · simpa [h] using ih

theorem keys_bump (counts : List (α × Nat)) (a : α) :
    (bump counts a).map Prod.fst = if a ∈ counts.map Prod.fst then counts.map Prod.fst else counts.map Prod.fst ++ [a] := by
  induction counts with
  | nil => rfl
  | cons c counts ih =>
      rw [bump, List.map_cons]
      by_cases hkey : c.1 = a
      · rw [if_pos hkey, if_pos (hkey ▸ List.mem_cons_self), List.map_cons]
      · rw [if_neg hkey, List.map_cons, ih]
        by_cases ha : a ∈ counts.map Prod.fst
        · rw [if_pos ha, if_pos (List.mem_cons_of_mem _ ha)]
        · rw [if_neg ha, if_neg (by simpa [Ne.symm hkey] using ha), List.cons_append]

theorem nodup_bump {counts : List (α × Nat)} (h : (counts.map Prod.fst).Nodup) (a : α) :
    ((bump counts a).map Prod.fst).Nodup := by
  rw [keys_bump]
  split
  · exact h
  · next ha => exact List.nodup_append.mpr ⟨h, List.nodup_singleton a, fun b hb c hc => by
      rw [List.mem_singleton.mp hc]
      exact fun heq => ha (heq ▸ hb)⟩

/-- One set more. -/
theorem count_foldl_bump {s : List α} (hs : s.Nodup) (counts : List (α × Nat)) (a : α) :
    count (s.foldl bump counts) a = count counts a + if a ∈ s then 1 else 0 := by
  induction s generalizing counts with
  | nil => rfl
  | cons b s ih =>
      obtain ⟨hb, hs⟩ := List.nodup_cons.mp hs
      rw [List.foldl_cons, ih hs, count_bump, Nat.add_assoc]
      congr 1
      by_cases h : b = a
      · subst h
        rw [if_pos rfl, if_neg hb, if_pos List.mem_cons_self]
      · rw [if_neg h, Nat.zero_add]
        exact if_congr (by simp [Ne.symm h]) rfl rfl

theorem nodup_foldl_bump {counts : List (α × Nat)} (h : (counts.map Prod.fst).Nodup) (s : List α) :
    ((s.foldl bump counts).map Prod.fst).Nodup := by
  induction s generalizing counts with
  | nil => exact h
  | cons a s ih => exact ih (nodup_bump h a)

theorem tally_inv {sets : List (List α)} (hsets : ∀ s ∈ sets, s.Nodup) (counts : List (α × Nat))
    (h : (counts.map Prod.fst).Nodup) :
    ((sets.foldl (fun counts s => s.foldl bump counts) counts).map Prod.fst).Nodup ∧
      ∀ a, count (sets.foldl (fun counts s => s.foldl bump counts) counts) a =
        count counts a + sets.countP fun s => a ∈ s := by
  induction sets generalizing counts with
  | nil => exact ⟨h, fun _ => rfl⟩
  | cons s sets ih =>
      obtain ⟨hs, hrest⟩ := List.forall_mem_cons.mp hsets
      obtain ⟨hnodup, hcount⟩ := ih hrest _ (nodup_foldl_bump h s)
      refine ⟨hnodup, fun a => ?_⟩
      rw [List.foldl_cons, hcount, count_foldl_bump hs, List.countP_cons]
      simp only [decide_eq_true_iff]
      omega

section Sets
variable {sets : List (List α)} (hsets : ∀ s ∈ sets, s.Nodup)
include hsets

theorem nodup_tally : ((tally sets).map Prod.fst).Nodup := (tally_inv hsets [] List.nodup_nil).1

theorem count_tally (a : α) : count (tally sets) a = sets.countP fun s => a ∈ s := by
  rw [tally, (tally_inv hsets [] List.nodup_nil).2]
  exact Nat.zero_add _

/-- The entry of a key. -/
theorem count_of_mem {c : α × Nat} (hc : c ∈ tally sets) : count (tally sets) c.1 = c.2 := by
  have hnodup := nodup_tally hsets
  generalize tally sets = counts at hc hnodup
  induction counts with
  | nil => cases hc
  | cons b counts ih =>
      obtain ⟨hb, hrest⟩ := List.nodup_cons.mp hnodup
      unfold count at ih ⊢
      rw [List.find?_cons]
      rcases List.mem_cons.mp hc with rfl | hc
      · simp
      · have hne : b.1 ≠ c.1 := fun heq => hb (heq ▸ List.mem_map_of_mem hc)
        simpa [hne] using ih hc hrest

theorem mem_frequent {n : Nat} (hn : 0 < n) (a : α) : a ∈ frequent n (tally sets) ↔ n ≤ sets.countP fun s => a ∈ s := by
  rw [← count_tally hsets, frequent, List.mem_map]
  constructor
  · rintro ⟨c, hc, rfl⟩
    obtain ⟨hmem, hle⟩ := List.mem_filter.mp hc
    rw [count_of_mem hsets hmem]
    exact of_decide_eq_true hle
  · intro hle
    cases hfind : (tally sets).find? fun c => c.1 = a with
    | none =>
        rw [count, hfind] at hle
        exact absurd hle (Nat.not_le_of_lt hn)
    | some c =>
        have hkey : c.1 = a := by simpa using List.find?_some hfind
        rw [count, hfind] at hle
        exact ⟨c, List.mem_filter.mpr ⟨List.mem_of_find?_eq_some hfind, decide_eq_true hle⟩, hkey⟩

omit hsets in
theorem sum_mem (keys s : List α) : (keys.map fun a => if a ∈ s then 1 else 0).sum = keys.countP fun a => a ∈ s := by
  induction keys with
  | nil => rfl
  | cons a keys ih =>
      rw [List.map_cons, List.sum_cons, List.countP_cons, ih, Nat.add_comm]
      simp only [decide_eq_true_iff]

omit hsets in
/-- Counted by the element, or by the list. -/
theorem sum_countP_mem (keys : List α) (sets : List (List α)) :
    (keys.map fun a => sets.countP fun s => a ∈ s).sum = (sets.map fun s => keys.countP fun a => a ∈ s).sum := by
  induction sets with
  | nil => simp
  | cons s sets ih =>
      have hsplit : ∀ a : α, (s :: sets).countP (fun s => a ∈ s) = (sets.countP fun s => a ∈ s) + if a ∈ s then 1 else 0 := by
        intro a
        rw [List.countP_cons]
        simp only [decide_eq_true_iff]
      simp only [hsplit]
      rw [List.sum_map_add, ih, List.map_cons, List.sum_cons, Nat.add_comm]
      congr 1
      exact sum_mem keys s

/-- Lists of at most `m` elements have no more than `m / n` elements that are in one list of `n`. -/
theorem mul_length_frequent_le {n m : Nat} (hn : 0 < n) (hm : ∀ s ∈ sets, s.length ≤ m) :
    n * (frequent n (tally sets)).length ≤ m * sets.length := by
  have hkeys : (frequent n (tally sets)).Nodup :=
    List.Nodup.sublist (List.filter_sublist.map _) (nodup_tally hsets)
  calc n * (frequent n (tally sets)).length
      = ((frequent n (tally sets)).map fun _ => n).sum := by simp [Nat.mul_comm]
    _ ≤ ((frequent n (tally sets)).map fun a => sets.countP fun s => a ∈ s).sum :=
        List.sum_le_sum fun a ha => (mem_frequent hsets hn a).mp ha
    _ = (sets.map fun s => (frequent n (tally sets)).countP fun a => a ∈ s).sum := sum_countP_mem _ _
    _ ≤ (sets.map fun _ => m).sum := by
        refine List.sum_le_sum fun s hs => ?_
        rw [List.countP_eq_length_filter]
        have hsub : (frequent n (tally sets)).filter (fun a => a ∈ s) ⊆ s := fun a ha =>
          of_decide_eq_true (List.mem_filter.mp ha).2
        exact (List.Nodup.subperm (hkeys.filter _) hsub).length_le.trans (hm s hs)
    _ = m * sets.length := by rw [List.map_const', List.sum_replicate_nat, Nat.mul_comm]

end Sets

end Tally
