import Mathlib.Data.List.Basic
import Mathlib.Data.List.Induction
import Mathlib.Data.List.Nodup

/-!
# First occurrences

* `addNew` : an element goes to the end of a list that does not have it;
* `firsts` : the elements of a list, without repeats;
* `mem_firsts`, `pairwise_firsts` : they are all there, in the order of their first occurrence.
-/

namespace Firsts

variable {α : Type} [DecidableEq α]

def addNew (seen : List α) (a : α) : List α := if a ∈ seen then seen else seen ++ [a]

def firsts (as : List α) : List α := as.foldl addNew []

theorem firsts_append (as : List α) (a : α) : firsts (as ++ [a]) = addNew (firsts as) a := by
  rw [firsts, List.foldl_append]
  rfl

theorem mem_addNew {seen : List α} {a b : α} : b ∈ addNew seen a ↔ b ∈ seen ∨ b = a := by
  unfold addNew
  split
  · next ha => exact ⟨Or.inl, fun h => h.elim id fun hb => hb ▸ ha⟩
  · rw [List.mem_append, List.mem_singleton]

theorem mem_firsts {as : List α} {b : α} : b ∈ firsts as ↔ b ∈ as := by
  induction as using List.reverseRecOn with
  | nil => exact Iff.rfl
  | append_singleton as a ih => rw [firsts_append, mem_addNew, ih, List.mem_append, List.mem_singleton]

theorem pairwise_firsts (as : List α) : (firsts as).Pairwise fun a b => as.idxOf a < as.idxOf b := by
  induction as using List.reverseRecOn with
  | nil => exact .nil
  | append_singleton as a ih =>
      have hold : (firsts as).Pairwise fun b c => (as ++ [a]).idxOf b < (as ++ [a]).idxOf c := by
        refine ih.imp_of_mem fun hb hc hlt => ?_
        rwa [List.idxOf_append_of_mem (mem_firsts.mp hb), List.idxOf_append_of_mem (mem_firsts.mp hc)]
      rw [firsts_append, addNew]
      split
      · exact hold
      · next hnew =>
        refine List.pairwise_append.mpr ⟨hold, List.pairwise_singleton _ _, fun b hb c hc => ?_⟩
        rw [List.mem_singleton.mp hc, List.idxOf_append_of_mem (mem_firsts.mp hb),
          List.idxOf_append_of_notMem (mt mem_firsts.mpr hnew)]
        exact Nat.lt_of_lt_of_le (List.idxOf_lt_length_of_mem (mem_firsts.mp hb)) (Nat.le_add_right _ _)

theorem nodup_firsts (as : List α) : (firsts as).Nodup :=
  (pairwise_firsts as).imp fun hlt heq => Nat.ne_of_lt hlt (congrArg (fun c => as.idxOf c) heq)

end Firsts
