import FinSight.Ask.Parse
import Mathlib.Data.List.Chain

/-!
# Tidied text

What the two white space rewrites and the trim of `parseAnswer` change, and what they do not.

* `keys_tidied` : the markers are the same, up to white space; `visible_tidied` : so is all other text;
* `infix_tidied` : no word without space and punctuation appears or disappears;
* `tidied_tidied` : tidied text stays as it is.
-/

namespace FinSight.Ask

open Scanning

/-! ## The two patterns -/

theorem isPoint_iff {u : CodeUnit} :
    isPoint u = true ↔ u = unit '.' ∨ u = unit ',' ∨ u = unit ';' ∨ u = unit ':' := by
  rw [isPoint, decide_eq_true_iff]
  show u ∈ [unit '.', unit ',', unit ';', unit ':'] ↔ _
  simp only [List.mem_cons, List.not_mem_nil, or_false]

theorem blanks_some {t : Text} {run : Text} {n : Nat} (h : blanks t = some (run, n)) :
    2 ≤ run.length ∧ n = run.length - 1 ∧ run = t.takeWhile isBlank := by
  unfold blanks at h
  dsimp only at h
  split at h
  · next hlength =>
    obtain ⟨rfl, rfl⟩ := Prod.mk.inj (Option.some.inj h)
    exact ⟨hlength, rfl, rfl⟩
  · cases h

theorem spells_blanks : Spells blanks id := by
  refine spells_of_start fun a as run n h => ?_
  obtain ⟨hlength, rfl, hrun⟩ := blanks_some h
  refine ⟨hrun ▸ List.takeWhile_prefix isBlank, ?_⟩
  show run.length = _
  omega

theorem spacesBeforePoint_some {t : Text} {p : Text × CodeUnit} {n : Nat} (h : spacesBeforePoint t = some (p, n)) :
    p.1 ≠ [] ∧ n = p.1.length ∧ p.1 = t.takeWhile (· == unit ' ') ∧ isPoint p.2 = true ∧ p.1 ++ [p.2] <+: t := by
  unfold spacesBeforePoint at h
  dsimp only at h
  split at h
  · next u rest hrest =>
    split at h
    · next hpoint =>
      obtain ⟨rfl, rfl⟩ := Prod.mk.inj (Option.some.inj h)
      refine ⟨hpoint.1, rfl, rfl, hpoint.2, rest, ?_⟩
      rw [List.append_assoc, List.singleton_append, ← hrest, List.takeWhile_append_dropWhile]
    · cases h
  · cases h

theorem spells_spacesBeforePoint : Spells spacesBeforePoint fun p => p.1 ++ [p.2] := by
  refine spells_of_start fun a as p n h => ?_
  obtain ⟨-, rfl, -, -, hstart⟩ := spacesBeforePoint_some h
  exact ⟨hstart, by rw [List.length_append, List.length_singleton]⟩

/-- Runs of blanks. -/
theorem isBlank_of_found {t run : Text} (h : .inl run ∈ scan blanks 0 t) :
    run ≠ [] ∧ ∀ u ∈ run, isBlank u = true := by
  refine forall_scan (P := fun run => run ≠ [] ∧ ∀ u ∈ run, isBlank u = true) ?_ t run h
  intro a as run n hm
  obtain ⟨hlength, -, rfl⟩ := blanks_some hm
  refine ⟨?_, fun u hu => List.mem_takeWhile_imp hu⟩
  rintro hnil
  rw [hnil] at hlength
  cases hlength

/-- Spaces, and the point after them. -/
theorem isPoint_of_found {t : Text} {p : Text × CodeUnit} (h : .inl p ∈ scan spacesBeforePoint 0 t) :
    (∀ u ∈ p.1, u = unit ' ') ∧ isPoint p.2 = true := by
  refine forall_scan (P := fun p => (∀ u ∈ p.1, u = unit ' ') ∧ isPoint p.2 = true) ?_ t p h
  intro a as p n hm
  obtain ⟨-, -, hrun, hpoint, -⟩ := spacesBeforePoint_some hm
  refine ⟨fun u hu => ?_, hpoint⟩
  rw [hrun] at hu
  simpa using List.mem_takeWhile_imp hu

/-! ## Markers -/

/-- Not white space. -/
def visible (u : CodeUnit) : Bool := !isSpace u

theorem sound_markers : markers.Sound where
  ne := by decide
  opening p := by cases p <;> decide
  closing p := by cases p <;> decide

/-- The markers of a text without their white space, the bracket that is open at its start included. -/
abbrev keys (s : Option (Place × Text)) (t : Text) : List Text := markers.emitted visible s t

theorem emit_of_ne {s : Option (Place × Text)} {u : CodeUnit} (h : u ≠ unit ']') : markers.emit s u = [] := by
  cases s with
  | none => rfl
  | some p => exact if_neg fun heq => h heq.1

theorem next_space (s : Option (Place × Text)) (u : CodeUnit) (hu : isBlank u = true) :
    markers.next visible s u = markers.next visible s (unit ' ') := by
  rcases isBlank_iff.mp hu with rfl | rfl
  · rfl
  · obtain _ | ⟨_ | _ | _ | _, w⟩ := s <;> rfl

theorem next_space_space (s : Option (Place × Text)) :
    markers.next visible (markers.next visible s (unit ' ')) (unit ' ') = markers.next visible s (unit ' ') := by
  obtain _ | ⟨_ | _ | _ | _, w⟩ := s <;> rfl

theorem next_space_point (s : Option (Place × Text)) {u : CodeUnit} (hu : isPoint u = true) :
    markers.next visible (markers.next visible s (unit ' ')) u = markers.next visible s u := by
  rcases isPoint_iff.mp hu with rfl | rfl | rfl | rfl <;> obtain _ | ⟨_ | _ | _ | _, w⟩ := s <;> rfl

theorem keys_eq_nil {t : Text} (h : unit ']' ∉ t) (s : Option (Place × Text)) : keys s t = [] := by
  induction t generalizing s with
  | nil => rfl
  | cons u t ih =>
      rw [List.mem_cons, not_or] at h
      rw [keys, Brackets.emitted, emit_of_ne (Ne.symm h.1), List.nil_append]
      exact ih h.2 _

theorem foldl_next_blanks {run : Text} (hne : run ≠ []) (hrun : ∀ u ∈ run, isBlank u = true)
    (s : Option (Place × Text)) : run.foldl (markers.next visible) s = markers.next visible s (unit ' ') := by
  induction run generalizing s with
  | nil => exact absurd rfl hne
  | cons u run ih =>
      rw [List.foldl_cons, next_space s u (hrun u List.mem_cons_self)]
      cases run with
      | nil => rfl
      | cons v run =>
          rw [ih (List.cons_ne_nil _ _) (fun w hw => hrun w (List.mem_cons_of_mem _ hw)), next_space_space]

theorem foldl_next_point {run : Text} (hrun : ∀ u ∈ run, u = unit ' ') {u : CodeUnit} (hu : isPoint u = true)
    (s : Option (Place × Text)) : (run ++ [u]).foldl (markers.next visible) s = markers.next visible s u := by
  induction run generalizing s with
  | nil => rfl
  | cons v run ih =>
      rw [List.cons_append, List.foldl_cons, ih fun w hw => hrun w (List.mem_cons_of_mem _ hw),
        hrun v List.mem_cons_self, next_space_point s hu]

theorem not_mem_blanks {run : Text} (hrun : ∀ u ∈ run, isBlank u = true) {u : CodeUnit} (hu : isBlank u = false) :
    u ∉ run := by
  intro hmem
  rw [hrun u hmem] at hu
  cases hu

theorem keys_squeezed (t : Text) (s : Option (Place × Text)) :
    keys s (replaceAll blanks (fun _ => text " ") t) = keys s t := by
  have hsame : keys s (replaceAll blanks (fun _ => text " ") t) = keys s (replaceAll blanks id t) := by
    refine Brackets.emitted_flatMap (fun run hfound s => ?_) s
    obtain ⟨hne, hrun⟩ := isBlank_of_found hfound
    refine ⟨?_, (foldl_next_blanks hne hrun s).symm⟩
    exact (keys_eq_nil (by decide) s).trans (keys_eq_nil (not_mem_blanks hrun (by decide)) s).symm
  rw [hsame, spells_blanks.replaceAll]

theorem keys_tightened (t : Text) (s : Option (Place × Text)) :
    keys s (replaceAll spacesBeforePoint (fun p => [p.2]) t) = keys s t := by
  have hsame : keys s (replaceAll spacesBeforePoint (fun p => [p.2]) t) =
      keys s (replaceAll spacesBeforePoint (fun p => p.1 ++ [p.2]) t) := by
    refine Brackets.emitted_flatMap (fun p hfound s => ?_) s
    obtain ⟨hrun, hpoint⟩ := isPoint_of_found hfound
    have hclosing : unit ']' ∉ [p.2] := by
      rw [List.mem_singleton]
      rintro heq
      rw [← heq] at hpoint
      exact absurd hpoint (by decide)
    have hclosing' : unit ']' ∉ p.1 ++ [p.2] := by
      rw [List.mem_append, not_or]
      exact ⟨fun h => absurd (hrun _ h) (by decide), hclosing⟩
    exact ⟨(keys_eq_nil hclosing s).trans (keys_eq_nil hclosing' s).symm, (foldl_next_point hrun hpoint s).symm⟩
  rw [hsame, spells_spacesBeforePoint.replaceAll]

theorem keys_space_append {x : Text} (hx : ∀ u ∈ x, isSpace u = true) (t : Text) :
    keys none (x ++ t) = keys none t := by
  induction x with
  | nil => rfl
  | cons u x ih =>
      have hu := hx u List.mem_cons_self
      have hopening : u ≠ markers.opening := by
        rintro rfl
        exact absurd hu (by decide)
      have hnext : markers.next visible none u = none := by
        rw [Brackets.next, if_neg hopening, Option.bind_none, ite_self]
      rw [List.cons_append, keys, Brackets.emitted, hnext]
      exact ih fun v hv => hx v (List.mem_cons_of_mem _ hv)

theorem keys_trim (t : Text) : keys none (trim t) = keys none t := by
  obtain ⟨x, y, ht, hx, hy⟩ := exists_trim t
  have hclosing : unit ']' ∉ y := fun h => absurd (hy _ h) (by decide)
  conv_rhs => rw [ht, List.append_assoc, keys_space_append hx, keys, Brackets.emitted_append]
  exact (List.append_nil _).symm.trans (congrArg _ (keys_eq_nil hclosing _).symm)

theorem keys_tidied (t : Text) : keys none (tidied t) = keys none t := by
  rw [tidied, keys_trim, keys_tightened, keys_squeezed]

/-! ## Other text -/

theorem visible_trim (t : Text) : (trim t).filter visible = t.filter visible := by
  have hspace : ∀ x : Text, (∀ u ∈ x, isSpace u = true) → x.filter visible = [] := by
    intro x hx
    refine List.filter_eq_nil_iff.mpr fun u hu => ?_
    rw [visible, hx u hu]
    decide
  obtain ⟨x, y, ht, hx, hy⟩ := exists_trim t
  conv_rhs => rw [ht, List.filter_append, List.filter_append, hspace x hx, hspace y hy]
  simp

theorem visible_blanks {run : Text} (hrun : ∀ u ∈ run, isBlank u = true) : run.filter visible = [] := by
  refine List.filter_eq_nil_iff.mpr fun u hu => ?_
  rcases isBlank_iff.mp (hrun u hu) with rfl | rfl <;> decide

theorem visible_tidied (t : Text) : (tidied t).filter visible = t.filter visible := by
  have hsqueezed : (replaceAll blanks (fun _ => text " ") t).filter visible = (replaceAll blanks id t).filter visible :=
    flatMap_filter fun run hfound => (visible_blanks (isBlank_of_found hfound).2).symm
  have htightened : ∀ t, (replaceAll spacesBeforePoint (fun p => [p.2]) t).filter visible =
      (replaceAll spacesBeforePoint (fun p => p.1 ++ [p.2]) t).filter visible := by
    intro t
    refine flatMap_filter fun p hfound => ?_
    have hrun : p.1.filter visible = [] := visible_blanks fun u hu => by
      rw [(isPoint_of_found hfound).1 u hu]
      decide
    rw [List.filter_append, hrun, List.nil_append]
  rw [tidied, visible_trim, htightened, spells_spacesBeforePoint.replaceAll, hsqueezed, spells_blanks.replaceAll]

theorem infix_append_spaces {w x y : Text} (hw : ∀ u ∈ w, isSpace u = false) (hx : ∀ u ∈ x, isSpace u = true) :
    w <:+: y ++ x ↔ w <:+: y := by
  constructor
  · intro h
    cases x with
    | nil => rwa [List.append_nil] at h
    | cons u x =>
        have hsep : ∀ a ∈ u :: x, a ∉ w := by
          intro a ha haw
          have hspace := hx a ha
          rw [hw a haw] at hspace
          cases hspace
        rw [← List.append_nil (u :: x), infix_append_separator (List.cons_ne_nil u x) hsep, List.infix_nil] at h
        rcases h with hy | rfl
        · exact hy
        · exact List.nil_infix
  · exact fun h => h.trans (List.prefix_append y x).isInfix

theorem infix_trim {w t : Text} (hw : ∀ u ∈ w, isSpace u = false) : w <:+: trim t ↔ w <:+: t := by
  obtain ⟨x, y, ht, hx, hy⟩ := exists_trim t
  constructor
  · exact fun h => h.trans (trim_isInfix t)
  · intro h
    rw [ht, infix_append_spaces hw hy, ← List.reverse_infix, List.reverse_append, infix_append_spaces, List.reverse_infix] at h
    · exact h
    · exact fun u hu => hw u (List.mem_reverse.mp hu)
    · exact fun u hu => hx u (List.mem_reverse.mp hu)

/-- A word without white space and points. -/
theorem infix_tidied {w t : Text} (hspace : ∀ u ∈ w, isSpace u = false) (hpoint : ∀ u ∈ w, isPoint u = false) :
    w <:+: tidied t ↔ w <:+: t := by
  have hblank : ∀ u, isBlank u = true → u ∉ w := by
    intro u hu hmem
    rcases isBlank_iff.mp hu with rfl | rfl
    · exact absurd (hspace _ hmem) (by decide)
    · exact absurd (hspace _ hmem) (by decide)
  have hsqueezed : w <:+: replaceAll blanks (fun _ => text " ") t ↔ w <:+: replaceAll blanks id t := by
    refine infix_flatMap (fun run hfound => Or.inr ⟨⟨by decide, fun u hu => ?_⟩, ?_⟩) []
    · exact hblank u (by rw [List.mem_singleton.mp hu]; decide)
    · obtain ⟨hne, hrun⟩ := isBlank_of_found hfound
      exact ⟨hne, fun u hu => hblank u (hrun u hu)⟩
  have htightened : ∀ t, w <:+: replaceAll spacesBeforePoint (fun p => [p.2]) t ↔
      w <:+: replaceAll spacesBeforePoint (fun p => p.1 ++ [p.2]) t := by
    intro t
    refine infix_flatMap (fun p hfound => Or.inr ?_) []
    obtain ⟨hrun, hp⟩ := isPoint_of_found hfound
    have hnot : p.2 ∉ w := fun hmem => by
      rw [hpoint _ hmem] at hp
      cases hp
    refine ⟨⟨List.cons_ne_nil _ _, fun u hu => by rwa [List.mem_singleton.mp hu]⟩, by simp, fun u hu => ?_⟩
    rcases List.mem_append.mp hu with hu | hu
    · exact hblank u (by rw [hrun u hu]; decide)
    · rwa [List.mem_singleton.mp hu]
  rw [tidied, infix_trim hspace, htightened, spells_spacesBeforePoint.replaceAll, hsqueezed, spells_blanks.replaceAll]

/-! ## Tidied text is tidy -/

/-- No two blanks in a row. -/
def NoRun (t : Text) : Prop := List.IsChain (fun u v => ¬ (isBlank u = true ∧ isBlank v = true)) t

/-- No space before a point. -/
def NoGap (t : Text) : Prop := List.IsChain (fun u v => ¬ (u = unit ' ' ∧ isPoint v = true)) t

theorem blanks_eq_none {u : CodeUnit} {t : Text} :
    blanks (u :: t) = none ↔ ∀ v ∈ t.head?, ¬ (isBlank u = true ∧ isBlank v = true) := by
  unfold blanks
  dsimp only
  rw [List.takeWhile_cons]
  cases hu : isBlank u with
  | false => simp
  | true =>
      cases t with
      | nil => simp
      | cons v t =>
          rw [List.takeWhile_cons]
          cases hv : isBlank v <;> simp [hv]

theorem spacesBeforePoint_eq_none {u : CodeUnit} {t : Text} :
    spacesBeforePoint (u :: t) = none ↔
      ∀ v ∈ (t.dropWhile (· == unit ' ')).head?, ¬ (u = unit ' ' ∧ isPoint v = true) := by
  unfold spacesBeforePoint
  dsimp only
  rw [List.takeWhile_cons, List.dropWhile_cons]
  by_cases hu : u = unit ' '
  · subst hu
    cases hrest : t.dropWhile (· == unit ' ') with
    | nil => simp
    | cons v rest => cases hv : isPoint v <;> simp [hv]
  · simp [hu]

theorem replaceAll_blanks {t : Text} (h : NoRun t) (f : Text → Text) : replaceAll blanks f t = t := by
  refine replaceAll_of_none fun s hs hne => ?_
  obtain ⟨u, s, rfl⟩ := List.exists_cons_of_ne_nil hne
  exact blanks_eq_none.mpr (List.isChain_cons.mp (h.suffix hs)).1

theorem replaceAll_spacesBeforePoint {t : Text} (h : NoGap t) (f : Text × CodeUnit → Text) :
    replaceAll spacesBeforePoint f t = t := by
  refine replaceAll_of_none fun s hs hne => ?_
  have hchain := h.suffix hs
  clear hs
  induction s with
  | nil => exact absurd rfl hne
  | cons u s ih =>
      rw [spacesBeforePoint_eq_none]
      intro v hv
      cases s with
      | nil => cases hv
      | cons w s =>
          by_cases hw : w = unit ' '
          · subst hw
            have hrest := spacesBeforePoint_eq_none.mp (ih (List.cons_ne_nil _ _) (List.isChain_cons.mp hchain).2)
            rintro ⟨-, hpoint⟩
            exact hrest v (by simpa using hv) ⟨rfl, hpoint⟩
          · rw [List.dropWhile_cons_of_neg (by simpa using hw)] at hv
            exact (List.isChain_cons.mp hchain).1 v hv

/-- The first unit of squeezed text is a blank where it was one before. -/
theorem noRun_squeezed (t : Text) :
    NoRun (replaceAll blanks (fun _ => text " ") t) ∧
      ∀ u ∈ (replaceAll blanks (fun _ => text " ") t).head?, isBlank u = true → ∃ v ∈ t.head?, isBlank v = true := by
  refine scan_induction (P := fun t => NoRun (replaceAll blanks (fun _ => text " ") t) ∧
    ∀ u ∈ (replaceAll blanks (fun _ => text " ") t).head?, isBlank u = true → ∃ v ∈ t.head?, isBlank v = true)
    blanks ⟨List.isChain_nil, by rintro u ⟨⟩⟩ ?_ ?_ t
  · rintro u t run n hm ⟨hchain, hhead⟩
    obtain ⟨hlength, rfl, hrun⟩ := blanks_some hm
    rw [replaceAll_match hm]
    have hblank : isBlank u = true := by
      by_contra hu
      rw [List.takeWhile_cons_of_neg hu] at hrun
      rw [hrun] at hlength
      cases hlength
    have hrest : t.drop (run.length - 1) = t.dropWhile isBlank := by
      rw [List.takeWhile_cons_of_pos hblank] at hrun
      rw [hrun, List.length_cons, Nat.add_sub_cancel]
      exact drop_length_takeWhile isBlank t
    refine ⟨List.isChain_cons.mpr ⟨fun v hv hboth => ?_, hchain⟩, fun v hv _ => ⟨u, rfl, hblank⟩⟩
    obtain ⟨w, hw, hblank'⟩ := hhead v hv hboth.2
    have hnot := List.head?_dropWhile_not isBlank t
    rw [hrest, Option.mem_def] at hw
    rw [hw] at hnot
    simp [hblank'] at hnot
  · rintro u t hm ⟨hchain, hhead⟩
    rw [replaceAll_none hm]
    refine ⟨List.isChain_cons.mpr ⟨fun v hv hboth => ?_, hchain⟩, fun v hv hblank => ⟨u, rfl, ?_⟩⟩
    · obtain ⟨w, hw, hblank⟩ := hhead v hv hboth.2
      exact blanks_eq_none.mp hm w hw ⟨hboth.1, hblank⟩
    · rw [Option.some.inj hv]
      exact hblank

/-- Text without runs, after its spaces before points are cut: where it starts with a blank or a point, it did before. -/
theorem tight_tightened {t : Text} (h : NoRun t) :
    let tightened := replaceAll spacesBeforePoint (fun p => [p.2]) t
    NoRun tightened ∧ NoGap tightened ∧
      ∀ u ∈ tightened.head?, (isBlank u = true → ∃ v ∈ t.head?, isBlank v = true) ∧
        (isPoint u = true → ∃ v ∈ (t.dropWhile (· == unit ' ')).head?, isPoint v = true) := by
  revert h
  refine scan_induction (P := fun t => NoRun t →
    let tightened := replaceAll spacesBeforePoint (fun p => [p.2]) t
    NoRun tightened ∧ NoGap tightened ∧
      ∀ u ∈ tightened.head?, (isBlank u = true → ∃ v ∈ t.head?, isBlank v = true) ∧
        (isPoint u = true → ∃ v ∈ (t.dropWhile (· == unit ' ')).head?, isPoint v = true))
    spacesBeforePoint (fun _ => ⟨List.isChain_nil, List.isChain_nil, by rintro u ⟨⟩⟩) ?_ ?_ t
  · intro u t p n hm ih hrun
    obtain ⟨hne, hn, hspaces, hpoint, ⟨rest, hstart⟩⟩ := spacesBeforePoint_some hm
    obtain ⟨hchain, hgap, -⟩ := ih ((hrun.suffix (List.suffix_cons u t)).suffix (List.drop_suffix n t))
    have hnot : isBlank p.2 = false := by
      rcases isPoint_iff.mp hpoint with h | h | h | h <;> rw [h] <;> decide
    have hspace : p.2 ≠ unit ' ' := by
      rintro heq
      rw [heq] at hpoint
      exact absurd hpoint (by decide)
    have hdrop : (u :: t).dropWhile (· == unit ' ') = p.2 :: rest := by
      have hall : ∀ v ∈ p.1, (v == unit ' ') = true := fun v hv => by
        rw [hspaces] at hv
        exact List.mem_takeWhile_imp (p := (· == unit ' ')) hv
      rw [← hstart, List.append_assoc, List.dropWhile_append_of_pos hall, List.singleton_append,
        List.dropWhile_cons_of_neg (by simpa using hspace)]
    rw [replaceAll_match hm]
    refine ⟨List.isChain_cons.mpr ⟨fun v _ hboth => ?_, hchain⟩, List.isChain_cons.mpr ⟨fun v _ hboth => ?_, hgap⟩,
      fun v hv => ?_⟩
    · rw [hnot] at hboth
      exact absurd hboth.1 (by decide)
    · exact hspace hboth.1
    · obtain rfl := Option.some.inj hv
      refine ⟨fun hblank => absurd hblank (by rw [hnot]; decide), fun _ => ⟨p.2, ?_, hpoint⟩⟩
      rw [hdrop]
      rfl
  · intro u t hm ih hrun
    obtain ⟨hpair, hrun'⟩ := List.isChain_cons.mp hrun
    obtain ⟨hchain, hgap, hhead⟩ := ih hrun'
    rw [replaceAll_none hm]
    refine ⟨List.isChain_cons.mpr ⟨fun v hv hboth => ?_, hchain⟩, List.isChain_cons.mpr ⟨fun v hv hboth => ?_, hgap⟩,
      fun v hv => ?_⟩
    · obtain ⟨w, hw, hblank⟩ := (hhead v hv).1 hboth.2
      exact hpair w hw ⟨hboth.1, hblank⟩
    · obtain ⟨w, hw, hpoint⟩ := (hhead v hv).2 hboth.2
      exact spacesBeforePoint_eq_none.mp hm w hw ⟨hboth.1, hpoint⟩
    · obtain rfl := Option.some.inj hv
      refine ⟨fun hblank => ⟨u, rfl, hblank⟩, fun hpoint => ⟨u, ?_, hpoint⟩⟩
      have hspace : u ≠ unit ' ' := by
        rintro rfl
        exact absurd hpoint (by decide)
      rw [List.dropWhile_cons_of_neg (by simpa using hspace)]
      rfl

/-- **Tidied text stays as it is.** -/
theorem tidied_tidied (t : Text) : tidied (tidied t) = tidied t := by
  obtain ⟨hrun, hgap, -⟩ := tight_tightened (noRun_squeezed t).1
  have hin := trim_isInfix (replaceAll spacesBeforePoint (fun p => [p.2]) (replaceAll blanks (fun _ => text " ") t))
  have hrun' : NoRun (tidied t) := List.IsChain.infix hrun hin
  have hgap' : NoGap (tidied t) := List.IsChain.infix hgap hin
  conv_lhs => rw [tidied]
  rw [replaceAll_blanks hrun', replaceAll_spacesBeforePoint hgap']
  exact trim_trim _

end FinSight.Ask
