import FinSight.Scanning.Replace
import Mathlib.Data.List.Chain

/-!
# Rewriting

What a global replacement keeps, and what it leaves of runs of symbols of a kind.

* `foldl_replaceAll` : an automaton that cannot tell a match from what replaces it cannot tell the texts apart;
* `replaceAll_of_same`, `forall_mem_replaceAll` : matches that are replaced by themselves, or by symbols of a kind;
* `atLeast` : runs of at least `k` symbols; `RunsUpTo` : a text without longer runs;
* `runsUpTo_replaceAll`, `isChain_replaceAll` : runs that are replaced by a short one.
-/

namespace Scanning

variable {α β σ : Type} {m : Pattern α β} {f g : β → List α}

theorem Spells.text (hg : Spells m g) {a : α} {as : List α} {b : β} {n : Nat} (hm : m (a :: as) = some (b, n)) :
    a :: as = g b ++ as.drop n := by
  rw [(hg a as b n hm).2, List.cons_append, List.take_append_drop]

/-- The state after a text does not depend on what an automaton cannot tell apart. -/
theorem foldl_replaceAll (hg : Spells m g) {next : σ → α → σ}
    (h : ∀ a as b n, m (a :: as) = some (b, n) → ∀ s, (f b).foldl next s = (g b).foldl next s) (t : List α) (s : σ) :
    (replaceAll m f t).foldl next s = t.foldl next s := by
  refine scan_induction (P := fun t => ∀ s, (replaceAll m f t).foldl next s = t.foldl next s) m (fun _ => rfl) ?_ ?_ t s
  · intro a as b n hm ih s
    rw [replaceAll_match hm, List.foldl_append, h a as b n hm, ih, ← List.foldl_append, ← hg.text hm]
  · intro a as hm ih s
    rw [replaceAll_none hm, List.foldl_cons, ih, List.foldl_cons]

theorem replaceAll_of_same {t : List α}
    (h : ∀ a as b n, a :: as <:+ t → m (a :: as) = some (b, n) → f b = a :: as.take n) : replaceAll m f t = t := by
  refine scan_induction (P := fun s => s <:+ t → replaceAll m f s = s) m (fun _ => rfl) ?_ ?_ t List.suffix_rfl
  · intro a as b n hm ih hs
    have hrest : as.drop n <:+ t := ((List.drop_suffix n as).trans (List.suffix_cons a as)).trans hs
    rw [replaceAll_match hm, ih hrest, h a as b n hs hm, List.cons_append, List.take_append_drop]
  · intro a as hm ih hs
    rw [replaceAll_none hm, ih ((List.suffix_cons a as).trans hs)]

theorem forall_mem_replaceAll {P : α → Prop} {t : List α}
    (hmatch : ∀ a as b n, m (a :: as) = some (b, n) → (∀ x ∈ a :: as, P x) → ∀ x ∈ f b, P x) (ht : ∀ x ∈ t, P x) :
    ∀ x ∈ replaceAll m f t, P x := by
  refine scan_induction (P := fun t => (∀ x ∈ t, P x) → ∀ x ∈ replaceAll m f t, P x) m (fun _ x hx => (by cases hx))
    ?_ ?_ t ht
  · intro a as b n hm ih ht x hx
    rw [replaceAll_match hm, List.mem_append] at hx
    rcases hx with hx | hx
    · exact hmatch a as b n hm ht x hx
    · exact ih (fun y hy => ht y (List.mem_cons_of_mem a (List.mem_of_mem_drop hy))) x hx
  · intro a as hm ih ht x hx
    rw [replaceAll_none hm, List.mem_cons] at hx
    rcases hx with rfl | hx
    · exact ht x List.mem_cons_self
    · exact ih (fun y hy => ht y (List.mem_cons_of_mem a hy)) x hx

/-- Where nothing matches at the start, the first symbol stays. -/
theorem head?_replaceAll_none {t : List α} (h : m t = none) : (replaceAll m f t).head? = t.head? := by
  cases t with
  | nil => rfl
  | cons a as => rw [replaceAll_none h, List.head?_cons, List.head?_cons]

theorem isChain_inside {R : α → α → Prop} {s t : List α} (h : List.IsChain R t) (hs : s <:+: t) : List.IsChain R s := by
  obtain ⟨x, y, rfl⟩ := hs
  exact h.left_of_append.right_of_append

/-! ## Runs -/

/-- A run of at least `k` symbols of a kind, as long as it goes. -/
def atLeast (k : Nat) (p : α → Bool) : Pattern α (List α) := fun t =>
  if k ≤ (t.takeWhile p).length then some (t.takeWhile p, (t.takeWhile p).length - 1) else none

variable {k : Nat} {p : α → Bool} {t run r : List α} {n : Nat}

theorem atLeast_some (hk : 0 < k) (h : atLeast k p t = some (run, n)) :
    run = t.takeWhile p ∧ k ≤ run.length ∧ run.length = n + 1 := by
  rw [atLeast, Option.ite_none_right_eq_some] at h
  obtain ⟨hlength, h⟩ := h
  obtain ⟨rfl, rfl⟩ := Prod.mk.inj (Option.some.inj h)
  exact ⟨rfl, hlength, by omega⟩

theorem atLeast_none : atLeast k p t = none ↔ (t.takeWhile p).length < k := by
  rw [atLeast, ite_eq_right_iff, ← Nat.not_le]
  exact forall_congr' fun _ => iff_of_false (by simp) (by simp)

theorem spells_atLeast (hk : 0 < k) : Spells (atLeast k p) id := by
  refine spells_of_start fun a as run n h => ?_
  obtain ⟨rfl, -, hlength⟩ := atLeast_some hk h
  exact ⟨List.takeWhile_prefix p, hlength⟩

/-- After a match the run is over. -/
theorem drop_atLeast (hk : 0 < k) {a : α} {as : List α} (h : atLeast k p (a :: as) = some (run, n)) :
    as.drop n = (a :: as).dropWhile p := by
  obtain ⟨rfl, -, hlength⟩ := atLeast_some hk h
  rw [← drop_length_takeWhile, hlength, List.drop_succ_cons]

theorem takeWhile_dropWhile (t : List α) : (t.dropWhile p).takeWhile p = [] := by
  rw [List.takeWhile_eq_nil_iff]
  intro hlength
  have hnot := List.head?_dropWhile_not p t
  rw [List.head?_eq_getElem?, List.getElem?_eq_getElem hlength] at hnot
  simpa using hnot

/-- The run at the start of the text, after the replacement. -/
theorem length_takeWhile_replaceAll (hk : 0 < k) (hr : ∀ a ∈ r, p a = true) (t : List α) :
    ((replaceAll (atLeast k p) (fun _ => r) t).takeWhile p).length =
      if k ≤ (t.takeWhile p).length then r.length else (t.takeWhile p).length := by
  refine scan_induction (P := fun t => ((replaceAll (atLeast k p) (fun _ => r) t).takeWhile p).length =
    if k ≤ (t.takeWhile p).length then r.length else (t.takeWhile p).length) (atLeast k p) ?_ ?_ ?_ t
  · rw [replaceAll_nil, List.takeWhile_nil, List.length_nil, if_neg (by omega)]
  · intro a as run n hm ih
    obtain ⟨hrun, hlength, -⟩ := atLeast_some hk hm
    rw [drop_atLeast hk hm, takeWhile_dropWhile, List.length_nil, if_neg (by omega)] at ih
    rw [replaceAll_match hm, drop_atLeast hk hm, List.takeWhile_append_of_pos hr, List.length_append, ih, ← hrun,
      if_pos hlength, Nat.add_zero]
  · intro a as hm ih
    have hshort := atLeast_none.mp hm
    rw [replaceAll_none hm, if_neg (by omega)]
    cases ha : p a with
    | false => rw [List.takeWhile_cons_of_neg (by simp [ha]), List.takeWhile_cons_of_neg (by simp [ha])]
    | true =>
        rw [List.takeWhile_cons_of_pos ha, List.length_cons] at hshort
        rw [List.takeWhile_cons_of_pos ha, List.takeWhile_cons_of_pos ha, List.length_cons, List.length_cons, ih,
          if_neg (by omega)]

/-- No run of more than `n` symbols of a kind. -/
def RunsUpTo (p : α → Bool) (n : Nat) (t : List α) : Prop :=
  ∀ run, run <:+: t → (∀ a ∈ run, p a = true) → run.length ≤ n

theorem RunsUpTo.inside {s : List α} (h : RunsUpTo p n t) (hs : s <:+: t) : RunsUpTo p n s :=
  fun run hrun => h run (hrun.trans hs)

theorem length_le_takeWhile (hrun : run <+: t) (hall : ∀ a ∈ run, p a = true) : run.length ≤ (t.takeWhile p).length := by
  obtain ⟨rest, rfl⟩ := hrun
  rw [List.takeWhile_append_of_pos hall, List.length_append]
  omega

theorem runsUpTo_cons {a : α} :
    RunsUpTo p n (a :: t) ↔ ((a :: t).takeWhile p).length ≤ n ∧ RunsUpTo p n t := by
  constructor
  · intro h
    refine ⟨h _ (List.takeWhile_prefix p).isInfix fun b hb => List.mem_takeWhile_imp hb, ?_⟩
    exact h.inside (List.suffix_cons a t).isInfix
  · rintro ⟨hstart, hrest⟩ run hrun hall
    rcases List.infix_cons_iff.mp hrun with hrun | hrun
    · exact (length_le_takeWhile hrun hall).trans hstart
    · exact hrest run hrun hall

theorem runsUpTo_append {x y : List α} (hx : ∀ a ∈ x, p a = true) (hlength : x.length + (y.takeWhile p).length ≤ n)
    (hy : RunsUpTo p n y) : RunsUpTo p n (x ++ y) := by
  induction x with
  | nil => exact hy
  | cons a x ih =>
      rw [List.length_cons] at hlength
      rw [List.cons_append, runsUpTo_cons, ← List.cons_append, List.takeWhile_append_of_pos hx, List.length_append,
        List.length_cons]
      exact ⟨hlength, ih (fun b hb => hx b (List.mem_cons_of_mem a hb)) (by omega)⟩

/-- Long runs are replaced by a run that is not too long, and stay apart. -/
theorem runsUpTo_replaceAll (hk : 0 < k) (hr : ∀ a ∈ r, p a = true) (hkr : k ≤ r.length + 1) (t : List α) :
    RunsUpTo p r.length (replaceAll (atLeast k p) (fun _ => r) t) := by
  refine scan_induction (P := fun t => RunsUpTo p r.length (replaceAll (atLeast k p) (fun _ => r) t)) (atLeast k p)
    ?_ ?_ ?_ t
  · intro run hrun _
    rw [List.infix_nil.mp hrun]
    exact Nat.zero_le _
  · intro a as run n hm ih
    rw [replaceAll_match hm]
    refine runsUpTo_append hr ?_ ih
    rw [length_takeWhile_replaceAll hk hr, drop_atLeast hk hm, takeWhile_dropWhile, List.length_nil, if_neg (by omega)]
    omega
  · intro a as hm ih
    have hstart := length_takeWhile_replaceAll hk hr (a :: as)
    have hshort := atLeast_none.mp hm
    rw [if_neg (by omega), replaceAll_none hm] at hstart
    rw [replaceAll_none hm, runsUpTo_cons, hstart]
    exact ⟨by omega, ih⟩

/-- Neighbours stay fit where the first and the last symbol of the new run may stand for any of the old one. -/
theorem isChain_replaceAll {R : α → α → Prop} (hk : 0 < k) (hne : r ≠ []) (hr : List.IsChain R r)
    (hhead : ∀ y ∈ r.head?, ∀ x z, p z = true → R x z → R x y)
    (hlast : ∀ x ∈ r.getLast?, ∀ y z, p y = true → R y z → R x z) (ht : List.IsChain R t) :
    List.IsChain R (replaceAll (atLeast k p) (fun _ => r) t) := by
  refine (scan_induction (P := fun t => List.IsChain R t → List.IsChain R (replaceAll (atLeast k p) (fun _ => r) t) ∧
    ∀ x, (∀ z ∈ t.head?, R x z) → ∀ z ∈ (replaceAll (atLeast k p) (fun _ => r) t).head?, R x z) (atLeast k p)
    (fun _ => ⟨List.isChain_nil, fun x _ z hz => (by cases hz)⟩) ?_ ?_ t ht).1
  · intro a as run n hm ih ht
    obtain ⟨hrun, hlength, -⟩ := atLeast_some hk hm
    have htext : a :: as = run ++ as.drop n := (spells_atLeast hk).text hm
    have hrun_ne : run ≠ [] := fun hnil => by
      rw [hnil, List.length_nil] at hlength
      omega
    have hrun_all : ∀ a ∈ run, p a = true := fun a ha => by
      rw [hrun] at ha
      exact List.mem_takeWhile_imp ha
    rw [htext, List.isChain_append] at ht
    obtain ⟨-, hrest, hjoin⟩ := ht
    obtain ⟨hchain, hstart⟩ := ih hrest
    rw [replaceAll_match hm]
    refine ⟨List.isChain_append.mpr ⟨hr, hchain, fun x hx z hz => ?_⟩, fun x hx z hz => ?_⟩
    · refine hstart x (fun z hz => ?_) z hz
      refine hlast x hx _ z (hrun_all _ (List.getLast_mem hrun_ne)) ?_
      exact hjoin _ (List.getLast?_eq_some_getLast hrun_ne) z hz
    · rw [List.head?_append_of_ne_nil _ hne] at hz
      have ha : a ∈ (a :: as).head? := rfl
      refine hhead z hz x a (hrun_all a ?_) (hx a ha)
      rw [htext, List.head?_append_of_ne_nil _ hrun_ne] at ha
      exact List.mem_of_mem_head? ha
  · intro a as hm ih ht
    obtain ⟨hjoin, hrest⟩ := List.isChain_cons.mp ht
    obtain ⟨hchain, hstart⟩ := ih hrest
    rw [replaceAll_none hm]
    exact ⟨List.isChain_cons.mpr ⟨hstart a hjoin, hchain⟩, fun x hx z hz => hx z hz⟩

end Scanning
