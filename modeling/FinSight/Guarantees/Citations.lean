import FinSight.Ask.Tidied
import FinSight.Lists.Firsts

/-!
# Citation markers

* `accepts_decimal`, `numbers_decimal` : `[n]` is a marker with the number `n`;
* `plain_iff_made` : after the rewriting, the markers are plain exactly when the deletions make only plain markers;
* `validated_iff` : an answer is validated exactly when cutting out the markers without a source makes no other marker,
  cites nothing earlier and does not spell the word for an abstention.
-/

namespace FinSight.Ask

open Scanning

/-! ## Plain markers -/

theorem foldlM_digits {w : Text} (h : ∀ u ∈ w, IsDigit u) : w.foldlM Place.step .number = some .number := by
  induction w with
  | nil => rfl
  | cons u w ih =>
      rw [List.foldlM_cons, Place.step, if_pos (h u List.mem_cons_self)]
      exact ih fun v hv => h v (List.mem_cons_of_mem _ hv)

theorem accepts_decimal (n : Nat) : markers.Accepts (decimal n) := by
  refine ⟨.number, ?_, rfl⟩
  obtain ⟨u, w, hcons⟩ := List.exists_cons_of_ne_nil (decimal_ne_nil n)
  have hdigit : ∀ v ∈ u :: w, IsDigit v := fun v hv => isDigit_of_mem_decimal (n := n) (hcons ▸ hv)
  rw [hcons, List.foldlM_cons]
  show (Place.step .first u).bind _ = _
  rw [Place.step, if_pos (hdigit u List.mem_cons_self), Option.bind_some]
  exact foldlM_digits fun v hv => hdigit v (List.mem_cons_of_mem _ hv)

theorem visible_digits {w : Text} (h : ∀ u ∈ w, IsDigit u) : w.filter visible = w := by
  refine List.filter_eq_self.mpr fun u hu => ?_
  rw [visible, (h u hu).not_space]
  rfl

theorem visible_decimal (n : Nat) : (decimal n).filter visible = decimal n :=
  visible_digits fun _ => isDigit_of_mem_decimal

theorem trim_digits {w : Text} (h : ∀ u ∈ w, IsDigit u) : trim w = w :=
  trim_eq_self (fun u hu => (h u (List.mem_of_head? hu)).not_space)
    fun u hu => (h u (List.mem_of_getLast? hu)).not_space

theorem numbers_decimal (n : Nat) : numbers (decimal n) = [n] := by
  have hcomma : unit ',' ∉ decimal n := fun h => absurd (isDigit_of_mem_decimal h) (by decide)
  rw [numbers, List.splitOn_eq_singleton hcomma, List.map_singleton, trim_digits fun _ => isDigit_of_mem_decimal,
    decimalValue_decimal]

theorem foldlM_gap {w : Text} {p : Place} (h : w.foldlM Place.step .gap = some p) (hcomma : unit ',' ∉ w) :
    p = .gap := by
  induction w with
  | nil => exact (Option.some.inj h).symm
  | cons u w ih =>
      rw [List.mem_cons, not_or] at hcomma
      rw [List.foldlM_cons] at h
      obtain ⟨q, hq, h⟩ := Option.bind_eq_some_iff.mp h
      rw [Place.step] at hq
      split at hq
      · rw [← Option.some.inj hq] at h
        exact ih h hcomma.2
      · rw [if_neg (Ne.symm hcomma.1)] at hq
        cases hq

/-- Where there is no comma there is one number, and no space. -/
theorem digits_of_accepts {w : Text} (h : markers.Accepts w) (hcomma : unit ',' ∉ w) : ∀ u ∈ w, IsDigit u := by
  have hrest : ∀ w : Text, w.foldlM Place.step .number = some .number → unit ',' ∉ w → ∀ u ∈ w, IsDigit u := by
    intro w
    induction w with
    | nil => rintro - - u ⟨⟩
    | cons u w ih =>
        intro h hcomma
        rw [List.mem_cons, not_or] at hcomma
        rw [List.foldlM_cons] at h
        obtain ⟨q, hq, h⟩ := Option.bind_eq_some_iff.mp h
        rw [Place.step] at hq
        split at hq
        · next hdigit =>
          rw [← Option.some.inj hq] at h
          exact List.forall_mem_cons.mpr ⟨hdigit, ih h hcomma.2⟩
        · split at hq
          · rw [← Option.some.inj hq] at h
            cases foldlM_gap h hcomma.2
          · rw [if_neg (Ne.symm hcomma.1)] at hq
            cases hq
  obtain ⟨r, hr, hfinal⟩ := h
  obtain rfl : r = .number := of_decide_eq_true hfinal
  cases w with
  | nil => cases hr
  | cons u w =>
      rw [List.mem_cons, not_or] at hcomma
      rw [List.foldlM_cons] at hr
      obtain ⟨q, hq, hr⟩ := Option.bind_eq_some_iff.mp hr
      have hq : (if IsDigit u then some Place.number else none) = some q := hq
      split at hq
      · next hdigit =>
        rw [← Option.some.inj hq] at hr
        exact List.forall_mem_cons.mpr ⟨hdigit, hrest w hr hcomma.2⟩
      · cases hq

theorem eq_decimal_of_visible {w : Text} (h : markers.Accepts w) {n : Nat} (hw : w.filter visible = decimal n) :
    w = decimal n := by
  have hcomma : unit ',' ∉ w := by
    intro hmem
    have hmem' : unit ',' ∈ w.filter visible := List.mem_filter.mpr ⟨hmem, by decide⟩
    rw [hw] at hmem'
    exact absurd (isDigit_of_mem_decimal hmem') (by decide)
  rw [← hw, visible_digits (digits_of_accepts h hcomma)]

/-- `[n]` of a source `n`. -/
def isPlain (sent : Nat) (w : Text) : Bool := isSource sent (decimalValue w) && w == decimal (decimalValue w)

theorem isPlain_iff {sent : Nat} {w : Text} :
    isPlain sent w = true ↔ ∃ n, isSource sent n = true ∧ w = decimal n := by
  rw [isPlain, Bool.and_eq_true, beq_iff_eq]
  constructor
  · rintro ⟨hsource, heq⟩
    exact ⟨_, hsource, heq⟩
  · rintro ⟨n, hsource, rfl⟩
    rw [decimalValue_decimal]
    exact ⟨hsource, rfl⟩

theorem valid_decimal {sent n : Nat} (h : isSource sent n = true) : valid sent (decimal n) = [n] := by
  rw [valid, numbers_decimal, List.filter_cons_of_pos h, List.filter_nil]

/-! ## Rewritten text -/

/-- The text without its markers that have no source. -/
def cut (sent : Nat) (raw : Text) : Text :=
  replaceAll markers.pattern (fun list => if valid sent list = [] then [] else markers.spelled list) raw

/-- The numbers of sources in the order of their first appearance. -/
def order (sent : Nat) (t : Text) : List Nat := ((found markers.pattern t).flatMap (valid sent)).foldl cite []

/-- Markers of the rewritten text and of the cut text: those that had a source, and those that the deletions make. -/
theorem exists_made (sent : Nat) (raw : Text) :
    ∃ made : List (Text ⊕ Text),
      found markers.pattern (rewritten sent raw) =
          made.flatMap (Sum.elim (fun list => (valid sent list).map decimal) fun w => [w]) ∧
        found markers.pattern (cut sent raw) = made.map (Sum.elim id id) ∧
        made.filterMap Sum.getLeft? = (found markers.pattern raw).filter fun list => !(valid sent list).isEmpty := by
  have hweave := Brackets.exists_weave sound_markers (scan markers.pattern 0 raw)
    (f := fun list => (valid sent list).map decimal) (g := fun list => if valid sent list = [] then [] else [list])
    (fun list _ w hw => by
      obtain ⟨n, -, rfl⟩ := List.mem_map.mp hw
      exact accepts_decimal n)
    (fun list hlist w hw => by
      split at hw
      · cases hw
      · rw [List.mem_singleton.mp hw]
        exact Brackets.accepts_of_found (mem_found.mpr hlist))
    (fun list => by
      rw [List.map_eq_nil_iff]
      split
      · next h => simp [h]
      · next h => simp [h]) none
  obtain ⟨made, hrewritten, hcut, hkept⟩ := hweave
  have hempty : ∀ list, (if valid sent list = [] then [] else [list]).isEmpty = (valid sent list).isEmpty := by
    intro list
    split
    · next h =>
      rw [h]
      rfl
    · next h => exact (List.isEmpty_eq_false_iff.mpr h).symm
  simp only [hempty] at hkept
  have hkept_ne : ∀ list, .inl list ∈ made → valid sent list ≠ [] := by
    intro list hlist
    have hmem : list ∈ made.filterMap Sum.getLeft? := List.mem_filterMap.mpr ⟨_, hlist, rfl⟩
    rw [hkept] at hmem
    simpa using (List.mem_filter.mp hmem).2
  refine ⟨made, ?_, ?_, hkept⟩
  · simp only [List.flatMap_map] at hrewritten
    exact (Brackets.found_eq_emitted sound_markers _).trans hrewritten
  · have hspelled : ∀ list, (if valid sent list = [] then [] else [list]).flatMap markers.spelled =
        if valid sent list = [] then [] else markers.spelled list := by
      intro list
      split
      · rfl
      · exact List.flatMap_singleton ..
    simp only [hspelled] at hcut
    refine ((Brackets.found_eq_emitted sound_markers _).trans hcut).trans ?_
    rw [List.map_eq_flatMap]
    refine List.flatMap_congr fun x hx => ?_
    cases x with
    | inl list => exact if_neg (hkept_ne list hx)
    | inr w => rfl

theorem filter_made {made : List (Text ⊕ Text)} {p : Text → Bool} :
    (made.map (Sum.elim id id)).filter p = (made.filterMap Sum.getLeft?).filter p ↔
      ∀ w, .inr w ∈ made → p w = false := by
  have hle : ∀ made : List (Text ⊕ Text),
      ((made.filterMap Sum.getLeft?).filter p).length ≤ ((made.map (Sum.elim id id)).filter p).length := by
    intro made
    induction made with
    | nil => exact Nat.le_refl 0
    | cons x made ih =>
        cases x with
        | inl w =>
            simp only [List.map_cons, List.filterMap_cons, Sum.getLeft?_inl, Sum.elim_inl, id, List.filter_cons]
            split
            · exact Nat.succ_le_succ ih
            · exact ih
        | inr w =>
            simp only [List.map_cons, List.filterMap_cons, Sum.getLeft?_inr, Sum.elim_inr, id, List.filter_cons]
            split
            · exact Nat.le_succ_of_le ih
            · exact ih
  induction made with
  | nil => simp
  | cons x made ih =>
      cases x with
      | inl w =>
          simp only [List.map_cons, List.filterMap_cons, Sum.getLeft?_inl, Sum.elim_inl, id, List.filter_cons]
          split <;> simpa using ih
      | inr w =>
          simp only [List.map_cons, List.filterMap_cons, Sum.getLeft?_inr, Sum.elim_inr, id, List.filter_cons]
          split
          · next hw =>
            refine ⟨fun h => ?_, fun h => absurd hw (by simp [h w List.mem_cons_self])⟩
            have hlength := congrArg List.length h
            have hmade := hle made
            rw [List.length_cons] at hlength
            omega
          · next hw =>
            refine ih.trans ⟨fun h v hv => ?_, fun h v hv => h v (List.mem_cons_of_mem _ hv)⟩
            rcases List.mem_cons.mp hv with heq | hv
            · rw [Sum.inr.inj heq]
              exact Bool.eq_false_iff.mpr hw
            · exact h v hv

/-- **The rewritten markers are plain** exactly when those that the deletions make are. -/
theorem plain_iff_made (sent : Nat) (raw : Text) :
    (∀ w ∈ found markers.pattern (rewritten sent raw), isPlain sent w = true) ↔
      (found markers.pattern (cut sent raw)).filter (fun w => !isPlain sent w) =
        ((found markers.pattern raw).filter fun list => !(valid sent list).isEmpty).filter fun w => !isPlain sent w := by
  obtain ⟨made, hrewritten, hcut, hkept⟩ := exists_made sent raw
  rw [hrewritten, hcut, ← hkept, filter_made]
  constructor
  · intro h w hw
    rw [h w (List.mem_flatMap.mpr ⟨_, hw, List.mem_singleton_self w⟩)]
    rfl
  · intro h w hw
    obtain ⟨list | v, hx, hmem⟩ := List.mem_flatMap.mp hw
    · obtain ⟨n, hn, rfl⟩ := List.mem_map.mp hmem
      exact isPlain_iff.mpr ⟨n, (List.mem_filter.mp hn).2, rfl⟩
    · rw [List.mem_singleton.mp hmem]
      simpa using h v hx

theorem order_rewritten (sent : Nat) (raw : Text) : order sent (rewritten sent raw) = order sent (cut sent raw) := by
  obtain ⟨made, hrewritten, hcut, -⟩ := exists_made sent raw
  rw [order, order, hrewritten, hcut, List.flatMap_assoc, List.flatMap_map]
  congr 1
  refine List.flatMap_congr fun x _ => ?_
  cases x with
  | inr w => exact List.flatMap_singleton ..
  | inl list =>
      have hall : ∀ n ∈ valid sent list, valid sent (decimal n) = [n] := fun n hn =>
        valid_decimal (List.mem_filter.mp hn).2
      show ((valid sent list).map decimal).flatMap (valid sent) = valid sent list
      rw [List.flatMap_map, List.flatMap_congr hall, List.flatMap_singleton']

/-! ## The answer -/

theorem insufficientContext_space : ∀ u ∈ insufficientContext, isSpace u = false := by decide

theorem insufficientContext_point : ∀ u ∈ insufficientContext, isPoint u = false := by decide

theorem step_insufficientContext : ∀ u ∈ insufficientContext, ∀ p, Place.step p u = none := by
  intro u hu p
  revert u
  cases p <;> decide

theorem spelled_apart {w : Text} (h : markers.Accepts w) : ∀ u ∈ markers.spelled w, u ∉ insufficientContext := by
  intro u hu hmem
  rcases List.mem_cons.mp hu with rfl | hu
  · exact absurd hmem (by decide)
  · rcases List.mem_append.mp hu with hu | hu
    · exact h.not_mem (step_insufficientContext u hmem) hu
    · rw [List.mem_singleton.mp hu] at hmem
      exact absurd hmem (by decide)

/-- Markers have no part in the word for an abstention. -/
theorem insufficientContext_rewritten (sent : Nat) (raw : Text) :
    insufficientContext <:+: rewritten sent raw ↔ insufficientContext <:+: cut sent raw := by
  refine infix_flatMap (fun list hlist => ?_) []
  by_cases hvalid : valid sent list = []
  · left
    rw [hvalid, if_pos rfl]
    rfl
  · right
    rw [if_neg hvalid]
    obtain ⟨n, rest, hcons⟩ := List.exists_cons_of_ne_nil hvalid
    have haccepts := Brackets.accepts_of_found (mem_found.mpr hlist)
    refine ⟨⟨?_, fun u hu => ?_⟩, List.cons_ne_nil _ _, spelled_apart haccepts⟩
    · rw [hcons]
      exact List.cons_ne_nil _ _
    · obtain ⟨m, -, hm⟩ := List.mem_flatMap.mp hu
      exact spelled_apart (accepts_decimal m) u hm

/-- The answer has the markers of the rewritten text, up to white space. -/
theorem visible_found_tidied (t : Text) :
    (found markers.pattern (tidied t)).map (List.filter visible) = (found markers.pattern t).map (List.filter visible) := by
  rw [Brackets.found_eq_emitted sound_markers, Brackets.found_eq_emitted sound_markers, Brackets.emitted_filter,
    Brackets.emitted_filter]
  exact keys_tidied t

theorem found_of_visible {sent : Nat} {t t' : Text}
    (h : (found markers.pattern t).map (List.filter visible) = (found markers.pattern t').map (List.filter visible))
    (hplain : ∀ w ∈ found markers.pattern t, isPlain sent w = true) :
    found markers.pattern t' = found markers.pattern t := by
  have hleft : ∀ w ∈ found markers.pattern t, w.filter visible = w := by
    intro w hw
    obtain ⟨n, -, rfl⟩ := isPlain_iff.mp (hplain w hw)
    exact visible_decimal n
  have hright : ∀ w ∈ found markers.pattern t', w.filter visible = w := by
    intro w hw
    have hmem : w.filter visible ∈ (found markers.pattern t).map (List.filter visible) := h ▸ List.mem_map_of_mem hw
    obtain ⟨v, hv, heq⟩ := List.mem_map.mp hmem
    obtain ⟨n, -, rfl⟩ := isPlain_iff.mp (hplain v hv)
    rw [visible_decimal] at heq
    rw [eq_decimal_of_visible (Brackets.accepts_of_found hw) heq.symm, visible_decimal]
  rw [List.map_congr_left hleft, List.map_congr_left hright, List.map_id', List.map_id'] at h
  exact h.symm

/-- Text with plain markers is left as it is. -/
theorem rewritten_of_plain {sent : Nat} {t : Text} (h : ∀ w ∈ found markers.pattern t, isPlain sent w = true) :
    rewritten sent t = t := by
  have hspelled : replaceAll markers.pattern markers.spelled t = t := Brackets.spells_pattern.replaceAll t
  conv_rhs => rw [← hspelled]
  refine List.flatMap_congr fun x hx => ?_
  cases x with
  | inr u => rfl
  | inl w =>
      obtain ⟨n, hsource, rfl⟩ := isPlain_iff.mp (h w (mem_found.mpr hx))
      rw [Sum.elim_inl, Sum.elim_inl, valid_decimal hsource, List.flatMap_singleton]
      rfl

/-- The texts up to the first `c`. -/
theorem append_cons_inj {x x' y y' : Text} {c : CodeUnit} (hx : c ∉ x) (hx' : c ∉ x')
    (h : x ++ c :: y = x' ++ c :: y') : x = x' ∧ y = y' := by
  have htake : ∀ z z' : Text, c ∉ z → (z ++ c :: z').takeWhile (· ≠ c) = z := by
    intro z z' hz
    rw [List.takeWhile_append_of_pos fun u hu => by simpa using fun heq : u = c => hz (heq ▸ hu)]
    simp
  have hsame : x = x' := by rw [← htake x y hx, h, htake x' y' hx']
  rw [hsame] at h
  exact ⟨hsame, (List.cons.inj (List.append_cancel_left h)).2⟩

/-- Where a rewriting changes white space only, the markers are plain. -/
theorem plain_of_rewritten {sent : Nat} {t : Text}
    (hvalid : ∀ w ∈ found markers.pattern t, ∀ n ∈ numbers w, isSource sent n = true)
    (h : (rewritten sent t).filter visible = t.filter visible) :
    ∀ w ∈ found markers.pattern t, isPlain sent w = true := by
  have htokens : ∀ tokens : List (Text ⊕ CodeUnit),
      (∀ w, .inl w ∈ tokens → markers.Accepts w ∧ ∀ n ∈ numbers w, isSource sent n = true) →
      (tokens.flatMap (Sum.elim (fun list => (valid sent list).flatMap markerText) fun u => [u])).filter visible =
        (tokens.flatMap (Sum.elim markers.spelled fun u => [u])).filter visible →
      ∀ w, .inl w ∈ tokens → isPlain sent w = true := by
    intro tokens
    induction tokens with
    | nil => rintro - - w ⟨⟩
    | cons x tokens ih =>
        intro hall heq
        have ih := ih fun w hw => hall w (List.mem_cons_of_mem _ hw)
        rw [List.flatMap_cons, List.flatMap_cons, List.filter_append, List.filter_append] at heq
        cases x with
        | inr u =>
            intro w hw
            rcases List.mem_cons.mp hw with hw | hw
            · cases hw
            · exact ih (List.append_cancel_left heq) w hw
        | inl w =>
            obtain ⟨haccepts, hsource⟩ := hall w List.mem_cons_self
            have hnumbers : valid sent w = numbers w := List.filter_eq_self.mpr hsource
            obtain ⟨n, rest, hcons⟩ : ∃ n rest, numbers w = n :: rest :=
              List.exists_cons_of_ne_nil (by simp [numbers, List.splitOn_ne_nil])
            have hclosing : unit ']' ∉ decimal n := fun h => absurd (isDigit_of_mem_decimal h) (by decide)
            have hclosing' : unit ']' ∉ w.filter visible := fun h =>
              haccepts.not_mem (fun p => by cases p <;> decide) (List.mem_of_mem_filter h)
            have hfirst : ∀ v y : Text, (markers.spelled v).filter visible ++ y =
                unit '[' :: (v.filter visible ++ unit ']' :: y) := by
              intro v y
              show (unit '[' :: (v ++ [unit ']'])).filter visible ++ y = _
              rw [List.filter_cons_of_pos (by decide), List.filter_append, List.filter_cons_of_pos (by decide)]
              simp
            rw [Sum.elim_inl, Sum.elim_inl, hnumbers, hcons, List.flatMap_cons, List.filter_append, List.append_assoc,
              markerText, hfirst, hfirst, visible_decimal, List.cons.injEq] at heq
            obtain ⟨hdecimal, hrest⟩ := append_cons_inj hclosing hclosing' heq.2
            have hw : w = decimal n := eq_decimal_of_visible haccepts hdecimal.symm
            rw [hw, numbers_decimal, List.cons.injEq] at hcons
            rw [← hcons.2, List.flatMap_nil, List.filter_nil, List.nil_append] at hrest
            intro v hv
            rcases List.mem_cons.mp hv with hv | hv
            · rw [Sum.inl.inj hv, hw]
              exact isPlain_iff.mpr ⟨n, hsource n (by rw [hw, numbers_decimal]; exact List.mem_singleton_self n), rfl⟩
            · exact ih hrest v hv
  have hspelled : replaceAll markers.pattern markers.spelled t = t := Brackets.spells_pattern.replaceAll t
  intro w hw
  refine htokens (scan markers.pattern 0 t) (fun v hv => ?_) (h.trans (congrArg _ hspelled.symm)) w (mem_found.mp hw)
  exact ⟨Brackets.accepts_of_found (mem_found.mpr hv), hvalid v (mem_found.mpr hv)⟩

/-- The numbers of sources, as they are mentioned. -/
def mentions (sent : Nat) (t : Text) : List Nat := (found markers.pattern t).flatMap (valid sent)

theorem order_eq_firsts (sent : Nat) (t : Text) : order sent t = Firsts.firsts (mentions sent t) := rfl

theorem mem_order {sent : Nat} {t : Text} {n : Nat} :
    n ∈ order sent t ↔ ∃ w ∈ found markers.pattern t, n ∈ valid sent w := by
  rw [order_eq_firsts, Firsts.mem_firsts, mentions, List.mem_flatMap]

theorem marker_citations {used : List RetrievedChunk} {order : List Nat}
    (h : ∀ n ∈ order, isSource used.length n = true) : (citations used order).map Citation.marker = order := by
  induction order with
  | nil => rfl
  | cons n order ih =>
      have hsource := h n List.mem_cons_self
      rw [isSource, Bool.and_eq_true, decide_eq_true_iff, decide_eq_true_iff] at hsource
      have hchunk : used[n - 1]? = some used[n - 1] := List.getElem?_eq_getElem (by omega)
      rw [citations, List.filterMap_cons, hchunk, Option.map_some, List.map_cons]
      exact congrArg _ (ih fun m hm => h m (List.mem_cons_of_mem _ hm))

/-- When an answer is given, and what is in it. -/
theorem parseAnswer_answered {answerText : Option Text} {used : List RetrievedChunk} {a : Answer} :
    parseAnswer answerText used = .answered a ↔
      let raw := trim (answerText.getD [])
      ¬ insufficientContext <:+: raw ∧ order used.length raw ≠ [] ∧
        a = { answer := tidied (rewritten used.length raw), citations := citations used (order used.length raw),
              invalidMarkers := ((found markers.pattern raw).flatMap numbers).countP fun n => !isSource used.length n } := by
  generalize hraw : trim (answerText.getD []) = raw
  have horder : (((found markers.pattern raw).flatMap numbers).filter (isSource used.length)).foldl cite [] =
      order used.length raw := by
    rw [List.filter_flatMap]
    rfl
  unfold parseAnswer
  simp only [hraw, horder]
  split
  · next hnil =>
    subst hnil
    refine ⟨(fun h => nomatch h), fun h => absurd rfl h.2.1⟩
  · split
    · next hword => exact ⟨(fun h => nomatch h), fun h => absurd hword h.1⟩
    · next hword =>
      split
      · next hempty => exact ⟨(fun h => nomatch h), fun h => absurd hempty h.2.1⟩
      · next hne =>
        rw [ParsedAnswer.answered.injEq]
        exact ⟨fun h => ⟨hword, hne, h.symm⟩, fun h => h.2.2.symm⟩

/-- What the server promises of an answer. -/
structure Validated (used : List RetrievedChunk) (a : Answer) : Prop where
  sources : ∀ w ∈ found markers.pattern a.answer, ∀ n ∈ numbers w,
    (1 ≤ n ∧ n ≤ used.length) ∧ n ∈ a.citations.map Citation.marker
  cited : ∀ c ∈ a.citations, ∃ w ∈ found markers.pattern a.answer, c.marker ∈ numbers w
  again : parseAnswer (some a.answer) used = .answered { a with invalidMarkers := 0 }

/-- **When its markers without a source are cut out of the text**, they make no marker but `[n]` of a source `n`, no
number moves forward in the order of first appearance, and the word for an abstention is not there. -/
structure Clean (sent : Nat) (raw : Text) : Prop where
  made : (found markers.pattern (cut sent raw)).filter (fun w => !isPlain sent w) =
    ((found markers.pattern raw).filter fun list => !(valid sent list).isEmpty).filter fun w => !isPlain sent w
  order : order sent (cut sent raw) = order sent raw
  word : ¬ insufficientContext <:+: cut sent raw

/-- **An answer is validated exactly when its text is clean.** -/
theorem validated_iff {answerText : Option Text} {used : List RetrievedChunk} {a : Answer}
    (h : parseAnswer answerText used = .answered a) :
    Validated used a ↔ Clean used.length (trim (answerText.getD [])) := by
  obtain ⟨-, hne, rfl⟩ := parseAnswer_answered.mp h
  generalize trim (answerText.getD []) = raw at hne
  have hvisible := visible_found_tidied (rewritten used.length raw)
  have hword : insufficientContext <:+: tidied (rewritten used.length raw) ↔
      insufficientContext <:+: cut used.length raw :=
    (infix_tidied insufficientContext_space insufficientContext_point).trans (insufficientContext_rewritten _ raw)
  have htrim : trim (tidied (rewritten used.length raw)) = tidied (rewritten used.length raw) := trim_trim _
  have hsource : ∀ t, ∀ n ∈ order used.length t, isSource used.length n = true := by
    intro t n hn
    obtain ⟨w, -, hw⟩ := mem_order.mp hn
    exact (List.mem_filter.mp hw).2
  constructor
  · intro hvalidated
    obtain ⟨hnot, -, hagain⟩ := parseAnswer_answered.mp hvalidated.again
    simp only [Option.getD_some, htrim, Answer.mk.injEq] at hnot hagain
    obtain ⟨hanswer, hcitations, hzero⟩ := hagain
    generalize htidied : tidied (rewritten used.length raw) = answer at *
    have hvalid : ∀ w ∈ found markers.pattern answer, ∀ n ∈ numbers w, isSource used.length n = true := by
      intro w hw n hn
      simpa using List.countP_eq_zero.mp hzero.symm n (List.mem_flatMap.mpr ⟨w, hw, hn⟩)
    have hplain := plain_of_rewritten hvalid (by rw [← visible_tidied, ← hanswer])
    have hfound := found_of_visible hvisible hplain
    refine ⟨(plain_iff_made used.length raw).mp fun w hw => hplain w (hfound ▸ hw), ?_, fun h => hnot (hword.mpr h)⟩
    calc order used.length (cut used.length raw)
        = order used.length (rewritten used.length raw) := (order_rewritten used.length raw).symm
      _ = order used.length answer := by rw [order, order, hfound]
      _ = (citations used (order used.length answer)).map Citation.marker :=
          (marker_citations (hsource answer)).symm
      _ = (citations used (order used.length raw)).map Citation.marker := by rw [← hcitations]
      _ = order used.length raw := marker_citations (hsource raw)
  · rintro ⟨hmade, horder, hnot⟩
    have hplain := (plain_iff_made used.length raw).mpr hmade
    have hfound := found_of_visible hvisible.symm hplain
    have hsame : order used.length (tidied (rewritten used.length raw)) = order used.length raw := by
      rw [← horder, ← order_rewritten, order, order, hfound]
    generalize htidied : tidied (rewritten used.length raw) = answer at *
    rw [← hfound] at hplain
    have hnumbers : ∀ w ∈ found markers.pattern answer, ∀ n ∈ numbers w,
        isSource used.length n = true ∧ n ∈ valid used.length w := by
      intro w hw n hn
      obtain ⟨m, hm, rfl⟩ := isPlain_iff.mp (hplain w hw)
      rw [numbers_decimal, List.mem_singleton] at hn
      rw [hn, valid_decimal hm]
      exact ⟨hm, List.mem_singleton_self m⟩
    refine ⟨fun w hw n hn => ?_, fun c hc => ?_, ?_⟩
    · obtain ⟨hsent, hmem⟩ := hnumbers w hw n hn
      rw [isSource, Bool.and_eq_true, decide_eq_true_iff, decide_eq_true_iff] at hsent
      refine ⟨hsent, ?_⟩
      rw [marker_citations (hsource raw), ← hsame]
      exact mem_order.mpr ⟨w, hw, hmem⟩
    · have hmarker : c.marker ∈ (citations used (order used.length raw)).map Citation.marker := List.mem_map_of_mem hc
      rw [marker_citations (hsource raw), ← hsame] at hmarker
      obtain ⟨w, hw, hmem⟩ := mem_order.mp hmarker
      exact ⟨w, hw, (List.mem_filter.mp hmem).1⟩
    · refine parseAnswer_answered.mpr ?_
      simp only [Option.getD_some, htrim, hsame, Answer.mk.injEq, true_and]
      refine ⟨fun h => hnot (hword.mp h), hne, ?_, ?_⟩
      · rw [rewritten_of_plain hplain, ← htidied, tidied_tidied]
      · refine (List.countP_eq_zero.mpr fun n hn => ?_).symm
        obtain ⟨w, hw, hmem⟩ := List.mem_flatMap.mp hn
        rw [(hnumbers w hw n hmem).1]
        decide

/-- Page 4 of a contract. -/
def feeChunk : RetrievedChunk where
  chunkId := ⟨1⟩
  documentId := ⟨2⟩
  documentTitle := some (text "Services Agreement")
  sectionHeading := some (text "4. Fees")
  pageStart := 4
  pageEnd := 4
  content := text "The late fee is 2%."

theorem validated_iff_fee :
    Validated [feeChunk] ⟨text "The late fee is 2% [1].", [citation 1 feeChunk], 1⟩ ↔
      Clean 1 (text "The late fee is 2% [1] [9].") :=
  @validated_iff (some (text "The late fee is 2% [1] [9].")) [feeChunk] _ (by decide +kernel)

/-- Of `[[99]5]` the marker `[99]` is deleted, and `[5]` is served. -/
theorem not_validated :
    ¬ ∀ answerText used a, parseAnswer answerText used = .answered a → Validated used a := by
  intro h
  have hserved := h (some (text "The late fee is 2% [1] [[99]5].")) [feeChunk]
    ⟨text "The late fee is 2% [1] [5].", [citation 1 feeChunk], 1⟩ (by decide +kernel)
  exact absurd (hserved.sources (text "5") (by decide +kernel) 5 (by decide +kernel)).1.2 (by decide)

end FinSight.Ask
