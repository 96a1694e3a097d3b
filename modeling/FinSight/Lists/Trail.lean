import Mathlib.Data.List.Chain

/-!
# Trails

A log of state changes: each row has the state it found (`src`, none in the first row) and the state it left
(`dst`). `Trail` : the rows, oldest first, lead along edges from a start state to the current one.

* `Trail.single`, `Trail.snoc` : a trail grows at its end;
* `Trail.newest_first` : the rows in reverse.
-/

namespace Trails

variable {α σ : Type}

structure Trail (edge : σ → σ → Bool) (start : σ) (src : α → Option σ) (dst : α → σ) (rows : List α)
    (current : σ) : Prop where
  first : rows.head?.map (fun a => (src a, dst a)) = some (none, start)
  chain : rows.IsChain fun a b => src b = some (dst a)
  edges : ∀ a ∈ rows.tail, (src a).any (fun s => edge s (dst a)) = true
  last : rows.getLast?.map dst = some current

variable {edge : σ → σ → Bool} {start : σ} {src : α → Option σ} {dst : α → σ} {rows : List α} {s : σ}

instance [DecidableEq σ] : Decidable (Trail edge start src dst rows s) :=
  decidable_of_iff
    (rows.head?.map (fun a => (src a, dst a)) = some (none, start) ∧ (rows.IsChain fun a b => src b = some (dst a)) ∧
      rows.tail.all (fun a => (src a).any fun s => edge s (dst a)) = true ∧ rows.getLast?.map dst = some s)
    ⟨fun h => ⟨h.1, h.2.1, List.all_eq_true.mp h.2.2.1, h.2.2.2⟩,
      fun h => ⟨h.first, h.chain, List.all_eq_true.mpr h.edges, h.last⟩⟩

theorem Trail.single {a : α} (hsrc : src a = none) : Trail edge (dst a) src dst [a] (dst a) where
  first := by simp [hsrc]
  chain := List.isChain_singleton a
  edges := by simp
  last := rfl

theorem Trail.ne_nil (h : Trail edge start src dst rows s) : rows ≠ [] := by
  rintro rfl
  exact absurd h.last (by simp)

/-- A change of the current state. -/
theorem Trail.snoc (h : Trail edge start src dst rows s) {a : α} (hsrc : src a = some s)
    (hedge : edge s (dst a) = true) : Trail edge start src dst (rows ++ [a]) (dst a) where
  first := by
    rw [List.head?_append_of_ne_nil _ h.ne_nil]
    exact h.first
  chain := by
    refine List.isChain_append.mpr ⟨h.chain, List.isChain_singleton a, fun x hx y hy => ?_⟩
    have hlast := h.last
    rw [Option.mem_def.mp hx] at hlast
    obtain rfl : a = y := Option.some.inj hy
    rw [hsrc, ← Option.some.inj hlast]
  edges := by
    intro x hx
    rw [List.tail_append_of_ne_nil h.ne_nil] at hx
    rcases List.mem_append.mp hx with hx | hx
    · exact h.edges x hx
    · rw [List.mem_singleton.mp hx, hsrc]
      exact hedge
  last := by simp

/-- Newest first: the first row left the current state, and each row found what the next one left. -/
theorem Trail.newest_first (h : Trail edge start src dst rows s) :
    rows.reverse.head?.map dst = some s ∧ rows.reverse.IsChain fun a b => src a = some (dst b) := by
  refine ⟨?_, ?_⟩
  · rw [List.head?_reverse]
    exact h.last
  · rw [List.isChain_reverse]
    exact h.chain

end Trails
