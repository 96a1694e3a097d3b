import Mathlib.Data.List.Chain
import Mathlib.Data.List.TakeDrop

/-!
# Runs that cover a list

* `Run.slice xs r` : the places of `xs` from `r.start` to before `r.stop`;
* `Covers P n runs` : the runs go over `n` places in order and leave none out; two that overlap are related by `P`;
* `Covers.mem_slice` : everything in the list is in a run;
* `Covers.append`, `Covers.extend`, `Covers.restart` : how such runs are built;
* `foldl_induction` : what a loop over a list keeps, together with the part that it has gone over.
-/

namespace Runs

structure Run where
  start : Nat
  stop : Nat
  deriving DecidableEq

variable {α : Type}

def Run.slice (xs : List α) (r : Run) : List α := (xs.take r.stop).drop r.start

def Run.shift (n : Nat) (r : Run) : Run := ⟨n + r.start, n + r.stop⟩

theorem Run.slice_append_left {xs : List α} {r : Run} (h : r.stop ≤ xs.length) (ys : List α) :
    Run.slice (xs ++ ys) r = Run.slice xs r := by
  rw [slice, slice, List.take_append_of_le_length h]

theorem Run.slice_shift (xs ys : List α) (r : Run) :
    Run.slice (xs ++ ys) (r.shift xs.length) = Run.slice ys r := by
  rw [slice, shift, slice]
  show ((xs ++ ys).take (xs.length + r.stop)).drop (xs.length + r.start) = _
  rw [List.take_length_add_append, List.drop_length_add_append]

theorem Run.slice_all (xs : List α) : Run.slice xs ⟨0, xs.length⟩ = xs := by
  rw [slice, List.take_length, List.drop_zero]

theorem Run.slice_ne_nil {xs : List α} {r : Run} (hproper : r.start < r.stop) (hle : r.stop ≤ xs.length) :
    Run.slice xs r ≠ [] := by
  rw [← List.length_pos_iff, slice, List.length_drop, List.length_take]
  omega

/-- The run `r'` comes next after `r`: it goes further, and leaves nothing out. -/
structure Follows (P : Run → Run → Prop) (r r' : Run) : Prop where
  start : r.start < r'.start
  stop : r.stop < r'.stop
  near : r'.start ≤ r.stop
  overlap : r'.start < r.stop → P r r'

structure Covers (P : Run → Run → Prop) (n : Nat) (runs : List Run) : Prop where
  proper : ∀ r ∈ runs, r.start < r.stop
  first : ∀ r ∈ runs.head?, r.start = 0
  last : (runs.getLast?.map Run.stop).getD 0 = n
  follows : runs.IsChain (Follows P)

variable {P Q : Run → Run → Prop} {n m : Nat} {runs runs' : List Run}

theorem Covers.nil : Covers P 0 [] where
  proper := by rintro r ⟨⟩
  first := by rintro r ⟨⟩
  last := rfl
  follows := List.isChain_nil

theorem Covers.single (h : 0 < n) : Covers P n [⟨0, n⟩] where
  proper := by
    intro r hr
    rw [List.mem_singleton.mp hr]
    exact h
  first := by
    rintro r hr
    rw [← Option.some.inj hr]
  last := rfl
  follows := List.isChain_singleton _

theorem Covers.stop_le (h : Covers P n runs) : ∀ r ∈ runs, r.stop ≤ n := by
  have hlast : ∀ runs : List Run, runs.IsChain (Follows P) →
      ∀ r ∈ runs, r.stop ≤ (runs.getLast?.map Run.stop).getD 0 := by
    intro runs
    induction runs with
    | nil => rintro - r ⟨⟩
    | cons a rest ih =>
        intro hchain
        cases rest with
        | nil =>
            intro r hr
            rw [List.mem_singleton.mp hr]
            exact Nat.le_refl _
        | cons b rest =>
            obtain ⟨hfollows, hrest⟩ := List.isChain_cons_cons.mp hchain
            have ih := ih hrest
            rw [List.getLast?_cons_cons]
            intro r hr
            rcases List.mem_cons.mp hr with rfl | hr
            · exact (Nat.le_of_lt hfollows.stop).trans (ih b List.mem_cons_self)
            · exact ih r hr
  have hle := hlast runs h.follows
  rwa [h.last] at hle

theorem Covers.mono (h : Covers P n runs) (hPQ : ∀ r ∈ runs, ∀ r' ∈ runs, P r r' → Q r r') : Covers Q n runs where
  proper := h.proper
  first := h.first
  last := h.last
  follows := List.IsChain.imp_of_mem_imp (fun r r' hr hr' hf =>
    ⟨hf.start, hf.stop, hf.near, fun hover => hPQ r hr r' hr' (hf.overlap hover)⟩) h.follows

/-- Every place is in a run. -/
theorem Covers.exists_run (h : Covers P n runs) {i : Nat} (hi : i < n) : ∃ r ∈ runs, r.start ≤ i ∧ i < r.stop := by
  have hchain : ∀ runs : List Run, runs.IsChain (Follows P) → (∀ r ∈ runs.head?, r.start ≤ i) →
      i < (runs.getLast?.map Run.stop).getD 0 → ∃ r ∈ runs, r.start ≤ i ∧ i < r.stop := by
    intro runs
    induction runs with
    | nil => exact fun _ _ hlt => absurd hlt (Nat.not_lt_zero i)
    | cons a rest ih =>
        intro hchain hfirst hlt
        by_cases ha : i < a.stop
        · exact ⟨a, List.mem_cons_self, hfirst a rfl, ha⟩
        · cases rest with
          | nil => exact absurd hlt ha
          | cons b rest =>
              obtain ⟨hfollows, hrest⟩ := List.isChain_cons_cons.mp hchain
              rw [List.getLast?_cons_cons] at hlt
              obtain ⟨r, hr, hplace⟩ := ih hrest (fun r hr => by
                rw [← Option.some.inj hr]
                have hnear := hfollows.near
                omega) hlt
              exact ⟨r, List.mem_cons_of_mem _ hr, hplace⟩
  refine hchain runs h.follows (fun r hr => ?_) (by rwa [h.last])
  rw [h.first r hr]
  exact Nat.zero_le i

theorem Covers.mem_slice {xs : List α} (h : Covers P xs.length runs) {a : α} (ha : a ∈ xs) :
    ∃ r ∈ runs, a ∈ r.slice xs := by
  obtain ⟨i, hi, rfl⟩ := List.getElem_of_mem ha
  obtain ⟨r, hr, hstart, hstop⟩ := h.exists_run hi
  refine ⟨r, hr, ?_⟩
  have hplace : (r.slice xs)[i - r.start]? = some xs[i] := by
    rw [Run.slice, List.getElem?_drop, Nat.add_sub_cancel' hstart, List.getElem?_take_of_lt hstop,
      List.getElem?_eq_getElem hi]
  exact List.mem_of_getElem? hplace

/-- Covers of two lists, one after the other. -/
theorem Covers.append {P' : Run → Run → Prop} (h : Covers P n runs) (h' : Covers P' m runs')
    (hP : ∀ r ∈ runs, ∀ r' ∈ runs, P r r' → Q r r')
    (hP' : ∀ r ∈ runs', ∀ r' ∈ runs', P' r r' → Q (r.shift n) (r'.shift n)) :
    Covers Q (n + m) (runs ++ runs'.map (Run.shift n)) where
  proper := by
    intro r hr
    rcases List.mem_append.mp hr with hr | hr
    · exact h.proper r hr
    · obtain ⟨r', hr', rfl⟩ := List.mem_map.mp hr
      exact Nat.add_lt_add_left (h'.proper r' hr') n
  first := by
    cases hruns : runs with
    | cons a rest =>
        intro r hr
        exact h.first r (hruns ▸ hr)
    | nil =>
        have hzero : 0 = n := by
          rw [← h.last, hruns]
          rfl
        intro r hr
        rw [List.nil_append, List.head?_map] at hr
        obtain ⟨r', hr', rfl⟩ := Option.map_eq_some_iff.mp hr
        show n + r'.start = 0
        rw [h'.first r' hr', ← hzero]
  last := by
    cases hruns : runs' with
    | nil =>
        have hzero : 0 = m := by
          rw [← h'.last, hruns]
          rfl
        rw [List.map_nil, List.append_nil, h.last, ← hzero, Nat.add_zero]
    | cons a rest =>
        have hlast := h'.last
        rw [hruns, List.getLast?_eq_some_getLast (List.cons_ne_nil a rest), Option.map_some, Option.getD_some] at hlast
        rw [List.getLast?_append_of_ne_nil _ (by simp), List.getLast?_map,
          List.getLast?_eq_some_getLast (List.cons_ne_nil a rest), Option.map_some, Option.map_some, Option.getD_some, ← hlast]
        rfl
  follows := by
    refine List.IsChain.append (h.mono hP).follows ?_ ?_
    · refine (List.isChain_map _).mpr (List.IsChain.imp_of_mem_imp (fun r r' hr hr' hf => ?_) h'.follows)
      exact ⟨Nat.add_lt_add_left hf.start n, Nat.add_lt_add_left hf.stop n, Nat.add_le_add_left hf.near n,
        fun hover => hP' r hr r' hr' (hf.overlap (Nat.lt_of_add_lt_add_left hover))⟩
    · intro r hr r' hr'
      have hstop : r.stop = n := by
        have hlast := h.last
        rwa [hr, Option.map_some, Option.getD_some] at hlast
      rw [List.head?_map] at hr'
      obtain ⟨a, ha, rfl⟩ := Option.map_eq_some_iff.mp hr'
      have hstart : (a.shift n).start = n := by
        show n + a.start = n
        rw [h'.first a ha]
        rfl
      have hproper := h.proper r (List.mem_of_getLast? hr)
      have hproper' := h'.proper a (List.mem_of_head? ha)
      refine ⟨by omega, ?_, by omega, fun hover => by omega⟩
      show r.stop < n + a.stop
      omega

/-- The last run goes on for one more place. -/
theorem Covers.extend {s : Nat} (h : Covers P n (runs ++ [⟨s, n⟩])) (hP : ∀ r ∈ runs, P r ⟨s, n⟩ → P r ⟨s, n + 1⟩) :
    Covers P (n + 1) (runs ++ [⟨s, n + 1⟩]) where
  proper := by
    intro r hr
    rcases List.mem_append.mp hr with hr | hr
    · exact h.proper r (List.mem_append_left _ hr)
    · rw [List.mem_singleton.mp hr]
      exact Nat.lt_succ_of_lt (h.proper ⟨s, n⟩ (List.mem_append_right _ (List.mem_singleton_self _)))
  first := by
    cases runs with
    | nil =>
        intro r hr
        rw [← Option.some.inj hr]
        exact h.first ⟨s, n⟩ rfl
    | cons a rest => exact fun r hr => h.first r hr
  last := by
    rw [List.getLast?_concat]
    rfl
  follows := by
    obtain ⟨hruns, -, hnext⟩ := List.isChain_append.mp h.follows
    refine hruns.append (List.isChain_singleton _) fun r hr r' hr' => ?_
    obtain ⟨hstart, hstop, hnear, hover⟩ := hnext r hr ⟨s, n⟩ rfl
    rw [← Option.some.inj hr']
    exact ⟨hstart, Nat.lt_succ_of_lt hstop, hnear, fun h => hP r (List.mem_of_getLast? hr) (hover h)⟩

/-- A run is closed, and another one starts after its start and takes one more place. -/
theorem Covers.restart {s s' : Nat} (h : Covers P n (runs ++ [⟨s, n⟩])) (hstart : s < s') (hnear : s' ≤ n)
    (hP : s' < n → P ⟨s, n⟩ ⟨s', n + 1⟩) : Covers P (n + 1) (runs ++ [⟨s, n⟩] ++ [⟨s', n + 1⟩]) where
  proper := by
    intro r hr
    rcases List.mem_append.mp hr with hr | hr
    · exact h.proper r hr
    · rw [List.mem_singleton.mp hr]
      exact Nat.lt_succ_of_le hnear
  first := by
    cases runs with
    | nil => exact fun r hr => h.first r hr
    | cons a rest => exact fun r hr => h.first r hr
  last := by
    rw [List.getLast?_concat]
    rfl
  follows := by
    refine h.follows.append (List.isChain_singleton _) fun r hr r' hr' => ?_
    rw [List.getLast?_concat] at hr
    rw [← Option.some.inj hr, ← Option.some.inj hr']
    exact ⟨hstart, Nat.lt_succ_self n, hnear, hP⟩

theorem foldl_induction {σ : Type} {motive : List α → σ → Prop} {f : σ → α → σ} {init : σ} (hinit : motive [] init)
    (hstep : ∀ xs s a, motive xs s → motive (xs ++ [a]) (f s a)) (xs : List α) : motive xs (xs.foldl f init) := by
  induction xs using List.reverseRecOn with
  | nil => exact hinit
  | append_singleton xs a ih =>
      rw [List.foldl_append]
      exact hstep xs _ a ih

end Runs
