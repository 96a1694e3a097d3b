import Mathlib.Data.List.Nodup
import Mathlib.Data.List.Sort

/-!
# Newest first

Rows are appended over time and listed by decreasing key.

* `newest_first` : where the keys increase, the list is the rows in reverse;
* `increasing_of_newest_first` : and only there.
-/

namespace Newest

variable {α κ : Type} [LinearOrder κ] {key : α → κ} {rows rows' : List α}

/-- Rows that come in both orders come twice. -/
theorem not_sublist_swap (hnodup : rows.Nodup) {a b : α} (hab : [a, b].Sublist rows) : ¬ [b, a].Sublist rows := by
  induction rows with
  | nil => cases hab
  | cons x rows ih =>
      rw [List.nodup_cons] at hnodup
      intro hba
      cases hab with
      | cons _ hab =>
          cases hba with
          | cons _ hba => exact ih hnodup.2 hab hba
          | cons_cons _ _ => exact hnodup.1 (hab.subset (by simp))
      | cons_cons _ hb =>
          cases hba with
          | cons _ hba => exact hnodup.1 (hba.subset (by simp))
          | cons_cons _ _ => exact hnodup.1 (hb.subset (by simp))

theorem newest_first (hperm : rows'.Perm rows) (h : rows.Pairwise fun a b => key a < key b) :
    rows'.insertionSort (fun a b => key b ≤ key a) = rows.reverse := by
  have hkeys : (rows.map key).Nodup := List.pairwise_map.mpr (h.imp fun hlt => hlt.ne)
  apply @List.Perm.eq_of_pairwise α (fun a b => key b ≤ key a)
  · intro a b ha hb hba hab
    have ha' : a ∈ rows := hperm.mem_iff.mp ((List.perm_insertionSort _ _).mem_iff.mp ha)
    exact List.inj_on_of_nodup_map hkeys ha' (List.mem_reverse.mp hb) (le_antisymm hab hba)
  · have htotal : Std.Total fun a b : α => key b ≤ key a := ⟨fun a b => le_total (key b) (key a)⟩
    have htrans : IsTrans α fun a b => key b ≤ key a := ⟨fun _ _ _ hab hbc => hbc.trans hab⟩
    exact List.pairwise_insertionSort _ _
  · exact List.pairwise_reverse.mpr (h.imp le_of_lt)
  · exact ((List.perm_insertionSort _ _).trans hperm).trans (List.reverse_perm _).symm

theorem increasing_of_newest_first (hnodup : rows.Nodup)
    (h : rows.insertionSort (fun a b => key b ≤ key a) = rows.reverse) : rows.Pairwise fun a b => key a < key b := by
  rw [List.pairwise_iff_forall_sublist]
  intro a b hab
  by_contra hle
  have hsub : [a, b].Sublist rows.reverse := h ▸ List.pair_sublist_insertionSort (not_lt.mp hle) hab
  exact not_sublist_swap hnodup hab (List.reverse_sublist.mp hsub)

end Newest
