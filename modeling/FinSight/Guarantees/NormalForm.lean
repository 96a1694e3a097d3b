import FinSight.Ingest.Normalize

/-!
# The normal form of extracted text

* `Seen` : an automaton that looks for a hyphen at the end of a line, with or without blanks next to the line break;
* `seen_squeezeBlanks`, `seen_trimBreaks`, `seen_limitBreaks`, `seen_trim` : it cannot tell these rewrites;
* `Survives` : a hyphen that `dehyphenate` leaves; `seen_dehyphenate` : it is the only one the automaton finds;
* `IsNormal` : the normal form; `normalizeText_isNormal` : `normalizeText` reaches it where nothing survives.
-/

namespace FinSight.Ingest

open Scanning

/-! ## Letters, blanks and line breaks -/

theorem isLower_range {u : CodeUnit} (h : isLower u = true) : 97 ≤ u.toNat ∧ u.toNat ≤ 122 := by
  rw [isLower, Bool.and_eq_true, decide_eq_true_iff, decide_eq_true_iff, UInt16.le_iff_toNat_le,
    UInt16.le_iff_toNat_le] at h
  exact h

theorem isNewline_iff {u : CodeUnit} : isNewline u = true ↔ u = unit '\n' := by
  rw [isNewline, beq_iff_eq]

theorem isLower_ne {u v : CodeUnit} (h : isLower u = true) (hv : isLower v = false) : u ≠ v := by
  rintro rfl
  rw [h] at hv
  cases hv

theorem isLower.not_blank {u : CodeUnit} (h : isLower u = true) : isBlank u = false := by
  rw [Bool.eq_false_iff]
  intro hblank
  rcases isBlank_iff.mp hblank with rfl | rfl
  · exact absurd h (by decide)
  · exact absurd h (by decide)

theorem not_lower_of_isSpace {u : CodeUnit} (h : isSpace u = true) : isLower u = false := by
  rw [Bool.eq_false_iff]
  intro hlower
  have hrange := isLower_range hlower
  have hspace := isSpace_range h
  omega

/-! ## What comes after a hyphen -/

/-- A letter after blanks. -/
def startsLetter (t : Text) : Prop := ∃ y b, (∀ u ∈ y, isBlank u = true) ∧ isLower b = true ∧ y ++ [b] <+: t

/-- A line break among blanks, and then a letter. -/
def startsBreak (t : Text) : Prop :=
  ∃ x y b, (∀ u ∈ x ++ y, isBlank u = true) ∧ isLower b = true ∧ x ++ unit '\n' :: (y ++ [b]) <+: t

/-- A hyphen before that. -/
def startsHyphen (t : Text) : Prop := ∃ rest, t = unit '-' :: rest ∧ startsBreak rest

theorem not_startsLetter_nil : ¬ startsLetter [] := by
  rintro ⟨y, b, -, -, h⟩
  simpa using h.length_le

theorem startsLetter_cons {u : CodeUnit} {t : Text} :
    startsLetter (u :: t) ↔ isLower u = true ∨ isBlank u = true ∧ startsLetter t := by
  constructor
  · rintro ⟨y, b, hy, hb, h⟩
    cases y with
    | nil => exact Or.inl ((List.cons_prefix_cons.mp h).1 ▸ hb)
    | cons v y =>
        obtain ⟨rfl, hrest⟩ := List.cons_prefix_cons.mp h
        rw [List.forall_mem_cons] at hy
        exact Or.inr ⟨hy.1, y, b, hy.2, hb, hrest⟩
  · rintro (hu | ⟨hu, y, b, hy, hb, h⟩)
    · exact ⟨[], u, by simp, hu, List.cons_prefix_cons.mpr ⟨rfl, List.nil_prefix⟩⟩
    · exact ⟨u :: y, b, List.forall_mem_cons.mpr ⟨hu, hy⟩, hb, List.cons_prefix_cons.mpr ⟨rfl, h⟩⟩

theorem not_startsBreak_nil : ¬ startsBreak [] := by
  rintro ⟨x, y, b, -, -, h⟩
  simpa using h.length_le

theorem startsBreak_cons {u : CodeUnit} {t : Text} :
    startsBreak (u :: t) ↔ u = unit '\n' ∧ startsLetter t ∨ isBlank u = true ∧ startsBreak t := by
  constructor
  · rintro ⟨x, y, b, hblanks, hb, h⟩
    cases x with
    | nil =>
        obtain ⟨rfl, hrest⟩ := List.cons_prefix_cons.mp h
        exact Or.inl ⟨rfl, y, b, hblanks, hb, hrest⟩
    | cons v x =>
        obtain ⟨rfl, hrest⟩ := List.cons_prefix_cons.mp h
        rw [List.cons_append, List.forall_mem_cons] at hblanks
        exact Or.inr ⟨hblanks.1, x, y, b, hblanks.2, hb, hrest⟩
  · rintro (⟨rfl, y, b, hy, hb, h⟩ | ⟨hu, x, y, b, hblanks, hb, h⟩)
    · exact ⟨[], y, b, hy, hb, List.cons_prefix_cons.mpr ⟨rfl, h⟩⟩
    · exact ⟨u :: x, y, b, List.forall_mem_cons.mpr ⟨hu, hblanks⟩, hb, List.cons_prefix_cons.mpr ⟨rfl, h⟩⟩

theorem not_startsHyphen_nil : ¬ startsHyphen [] := by
  rintro ⟨rest, h, -⟩
  cases h

theorem startsHyphen_cons {u : CodeUnit} {t : Text} : startsHyphen (u :: t) ↔ u = unit '-' ∧ startsBreak t := by
  constructor
  · rintro ⟨rest, h, hrest⟩
    obtain ⟨rfl, rfl⟩ := List.cons.inj h
    exact ⟨rfl, hrest⟩
  · rintro ⟨rfl, h⟩
    exact ⟨t, rfl, h⟩

/-- A letter, a hyphen, and then a letter on the next line, with any blanks next to the line break. -/
def Hyphenated (t : Text) : Prop := ∃ a rest, isLower a = true ∧ startsHyphen rest ∧ a :: rest <:+ t

theorem not_hyphenated_nil : ¬ Hyphenated [] := by
  rintro ⟨a, rest, -, -, h⟩
  simpa using h.length_le

theorem hyphenated_cons {u : CodeUnit} {t : Text} :
    Hyphenated (u :: t) ↔ (isLower u = true ∧ startsHyphen t) ∨ Hyphenated t := by
  constructor
  · rintro ⟨a, rest, ha, hrest, h⟩
    rcases List.suffix_cons_iff.mp h with heq | h
    · obtain ⟨rfl, rfl⟩ := List.cons.inj heq
      exact Or.inl ⟨ha, hrest⟩
    · exact Or.inr ⟨a, rest, ha, hrest, h⟩
  · rintro (⟨hu, ht⟩ | ⟨a, rest, ha, hrest, h⟩)
    · exact ⟨u, t, hu, ht, List.suffix_rfl⟩
    · exact ⟨a, rest, ha, hrest, h.trans (List.suffix_cons u t)⟩

/-! ## The automaton -/

/-- How far a text has come with a letter, a hyphen, a line break and a letter. -/
inductive Seen
  | nothing | letter | hyphen | newline | all
  deriving DecidableEq

/-- The state after a symbol that does not continue. -/
def Seen.restart (u : CodeUnit) : Seen := if isLower u then .letter else .nothing

def Seen.next : Seen → CodeUnit → Seen
  | .nothing, u => restart u
  | .letter, u => if u = unit '-' then .hyphen else restart u
  | .hyphen, u => if isBlank u then .hyphen else if u = unit '\n' then .newline else restart u
  | .newline, u => if isBlank u then .newline else if isLower u then .all else restart u
  | .all, _ => .all

/-- What the rest of the text has to have, where `P` says what it has to have after the start. -/
def Seen.Completes (P : Text → Prop) : Seen → Text → Prop
  | .nothing, t => P t
  | .letter, t => startsHyphen t ∨ P t
  | .hyphen, t => startsBreak t ∨ P t
  | .newline, t => startsLetter t ∨ P t
  | .all, _ => True

theorem completes_restart {P : Text → Prop} {u : CodeUnit} {t : Text}
    (hP : P (u :: t) ↔ (isLower u = true ∧ startsHyphen t) ∨ P t) : (Seen.restart u).Completes P t ↔ P (u :: t) := by
  rw [hP, Seen.restart]
  cases hu : isLower u with
  | false =>
      rw [if_neg (by decide)]
      exact ⟨Or.inr, fun h => h.resolve_left (by rintro ⟨h, -⟩; cases h)⟩
  | true =>
      rw [if_pos rfl]
      exact or_congr_left ⟨fun h => ⟨rfl, h⟩, fun h => h.2⟩

/-- One step of the automaton. -/
theorem completes_next {P : Text → Prop} {u : CodeUnit} {t : Text}
    (hP : P (u :: t) ↔ (isLower u = true ∧ startsHyphen t) ∨ P t) (s : Seen) :
    (s.next u).Completes P t ↔ s.Completes P (u :: t) := by
  have hdown : ∀ h : isLower u = false, P (u :: t) ↔ P t := fun h =>
    hP.trans ⟨fun h' => h'.resolve_left (by rw [h]; rintro ⟨h, -⟩; cases h), Or.inr⟩
  cases s with
  | nothing => exact completes_restart hP
  | all => exact Iff.rfl
  | letter =>
      show (if u = unit '-' then Seen.hyphen else Seen.restart u).Completes P t ↔ startsHyphen (u :: t) ∨ P (u :: t)
      rw [startsHyphen_cons]
      split
      · next hu =>
        rw [hdown (hu ▸ by decide)]
        exact or_congr_left ⟨fun h => ⟨hu, h⟩, fun h => h.2⟩
      · next hu =>
        rw [completes_restart hP]
        exact ⟨Or.inr, fun h => h.resolve_left fun h => hu h.1⟩
  | hyphen =>
      show (if isBlank u then Seen.hyphen else if u = unit '\n' then .newline else Seen.restart u).Completes P t ↔
        startsBreak (u :: t) ∨ P (u :: t)
      rw [startsBreak_cons]
      split
      · next hu =>
        have hne : u ≠ unit '\n' := by
          rintro rfl
          exact absurd hu (by decide)
        have hlower : isLower u = false := by
          rcases isBlank_iff.mp hu with rfl | rfl <;> decide
        rw [hdown hlower]
        exact or_congr_left ⟨fun h => Or.inr ⟨hu, h⟩, fun h => (h.resolve_left fun h => hne h.1).2⟩
      · next hu =>
        split
        · next hnew =>
          rw [hdown (hnew ▸ by decide)]
          exact or_congr_left ⟨fun h => Or.inl ⟨hnew, h⟩, fun h => (h.resolve_right fun h => hu h.1).2⟩
        · next hnew =>
          rw [completes_restart hP]
          exact ⟨Or.inr, fun h => h.resolve_left fun h => h.elim (fun h => hnew h.1) fun h => hu h.1⟩
  | newline =>
      show (if isBlank u then Seen.newline else if isLower u then .all else Seen.restart u).Completes P t ↔
        startsLetter (u :: t) ∨ P (u :: t)
      rw [startsLetter_cons]
      split
      · next hu =>
        have hlower : isLower u = false := by
          rcases isBlank_iff.mp hu with rfl | rfl <;> decide
        rw [hdown hlower]
        refine or_congr_left ⟨fun h => Or.inr ⟨hu, h⟩, fun h => (h.resolve_left ?_).2⟩
        rw [hlower]
        exact fun h => by cases h
      · next hu =>
        split
        · next hlower => exact iff_of_true trivial (Or.inl (Or.inl hlower))
        · next hlower =>
          rw [completes_restart hP]
          exact ⟨Or.inr, fun h => h.resolve_left fun h => h.elim hlower fun h => hu h.1⟩

theorem completes_nil {P : Text → Prop} (hP : ¬ P []) (s : Seen) : s.Completes P [] ↔ s = .all := by
  cases s with
  | nothing => exact iff_of_false hP (by simp)
  | letter => exact iff_of_false (fun h => h.elim not_startsHyphen_nil hP) (by simp)
  | hyphen => exact iff_of_false (fun h => h.elim not_startsBreak_nil hP) (by simp)
  | newline => exact iff_of_false (fun h => h.elim not_startsLetter_nil hP) (by simp)
  | all => exact iff_of_true trivial rfl

/-- What the automaton has seen of a text. -/
def seen (t : Text) : Seen := t.foldl Seen.next .nothing

theorem seen_eq_all {t : Text} : seen t = .all ↔ Hyphenated t := by
  have hfrom : ∀ s : Seen, t.foldl Seen.next s = .all ↔ s.Completes Hyphenated t := by
    induction t with
    | nil => exact fun s => (completes_nil not_hyphenated_nil s).symm
    | cons u t ih =>
        intro s
        rw [List.foldl_cons, ih]
        exact completes_next hyphenated_cons s
  exact hfrom .nothing

/-! ## Rewrites the automaton cannot tell -/

theorem next_blank (s : Seen) {u : CodeUnit} (hu : isBlank u = true) : s.next u = s.next (unit ' ') := by
  rcases isBlank_iff.mp hu with rfl | rfl
  · rfl
  · cases s <;> rfl

theorem next_space_space (s : Seen) : (s.next (unit ' ')).next (unit ' ') = s.next (unit ' ') := by
  cases s <;> rfl

theorem next_space_newline (s : Seen) : (s.next (unit ' ')).next (unit '\n') = s.next (unit '\n') := by
  cases s <;> rfl

theorem next_newline_space (s : Seen) : (s.next (unit '\n')).next (unit ' ') = s.next (unit '\n') := by
  cases s <;> rfl

theorem next_newlines (s : Seen) :
    ((s.next (unit '\n')).next (unit '\n')).next (unit '\n') = (s.next (unit '\n')).next (unit '\n') := by
  cases s <;> rfl

theorem foldl_blanks {run : Text} (hne : run ≠ []) (hrun : ∀ u ∈ run, isBlank u = true) (s : Seen) :
    run.foldl Seen.next s = s.next (unit ' ') := by
  induction run generalizing s with
  | nil => exact absurd rfl hne
  | cons u run ih =>
      rw [List.foldl_cons, next_blank s (hrun u List.mem_cons_self)]
      cases run with
      | nil => rfl
      | cons v run =>
          rw [ih (List.cons_ne_nil v run) (fun w hw => hrun w (List.mem_cons_of_mem u hw)), next_space_space]

theorem seen_squeezeBlanks (t : Text) : seen (squeezeBlanks t) = seen t := by
  have hone : 0 < 1 := Nat.one_pos
  refine foldl_replaceAll (spells_atLeast hone) (fun u t run n hm s => ?_) t Seen.nothing
  obtain ⟨rfl, hlength, -⟩ := atLeast_some hone hm
  refine (foldl_blanks (fun hnil => ?_) (fun u hu => List.mem_takeWhile_imp hu) s).symm
  rw [hnil] at hlength
  exact absurd hlength (by decide)

theorem lineBreak_some {t : Text} {sides : Text × Text} {n : Nat} (h : lineBreak t = some (sides, n)) :
    (∀ u ∈ sides.1 ++ sides.2, u = unit ' ') ∧ n = sides.1.length + sides.2.length ∧
      ∃ rest, t = sides.1 ++ unit '\n' :: rest ∧ sides.2 = rest.takeWhile (· == unit ' ') := by
  unfold lineBreak at h
  dsimp only at h
  split at h
  · next u rest hrest =>
    split at h
    · next hu =>
      obtain ⟨rfl, rfl⟩ := Prod.mk.inj (Option.some.inj h)
      refine ⟨fun v hv => ?_, rfl, rest, ?_, rfl⟩
      · rcases List.mem_append.mp hv with hv | hv <;> simpa using List.mem_takeWhile_imp hv
      · rw [← hu, ← hrest, List.takeWhile_append_dropWhile]
    · cases h
  · cases h

theorem spells_lineBreak : Spells lineBreak fun sides => sides.1 ++ unit '\n' :: sides.2 := by
  refine spells_of_start fun u t sides n h => ?_
  obtain ⟨-, rfl, rest, htext, hafter⟩ := lineBreak_some h
  refine ⟨?_, ?_⟩
  · rw [htext, hafter, List.prefix_append_right_inj]
    exact List.cons_prefix_cons.mpr ⟨rfl, List.takeWhile_prefix _⟩
  · rw [List.length_append, List.length_cons, Nat.add_assoc]

theorem foldl_spaces_newline {x : Text} (hx : ∀ u ∈ x, u = unit ' ') (s : Seen) :
    (x.foldl Seen.next s).next (unit '\n') = s.next (unit '\n') := by
  induction x generalizing s with
  | nil => rfl
  | cons u x ih =>
      rw [List.foldl_cons, ih (fun v hv => hx v (List.mem_cons_of_mem u hv)), hx u List.mem_cons_self,
        next_space_newline]

theorem foldl_newline_spaces {y : Text} (hy : ∀ u ∈ y, u = unit ' ') (s : Seen) :
    y.foldl Seen.next (s.next (unit '\n')) = s.next (unit '\n') := by
  induction y with
  | nil => rfl
  | cons u y ih =>
      rw [List.foldl_cons, hy u List.mem_cons_self, next_newline_space]
      exact ih fun v hv => hy v (List.mem_cons_of_mem u hv)

theorem seen_trimBreaks (t : Text) : seen (trimBreaks t) = seen t := by
  refine foldl_replaceAll spells_lineBreak (fun u t sides n hm s => ?_) t Seen.nothing
  obtain ⟨hspaces, -, -⟩ := lineBreak_some hm
  rw [List.foldl_append, List.foldl_cons, foldl_spaces_newline fun u hu => hspaces u (List.mem_append_left _ hu),
    foldl_newline_spaces fun u hu => hspaces u (List.mem_append_right _ hu)]
  rfl

theorem foldl_newlines (n : Nat) (s : Seen) :
    (List.replicate (n + 2) (unit '\n')).foldl Seen.next s = (s.next (unit '\n')).next (unit '\n') := by
  induction n generalizing s with
  | zero => rfl
  | succ n ih => rw [List.replicate_succ, List.foldl_cons, ih, next_newlines]

theorem takeWhile_isNewline (t : Text) :
    t.takeWhile isNewline = List.replicate (t.takeWhile isNewline).length (unit '\n') :=
  List.eq_replicate_of_mem fun _ hu => isNewline_iff.mp (List.mem_takeWhile_imp hu)

theorem seen_limitBreaks (t : Text) : seen (limitBreaks t) = seen t := by
  have hthree : 0 < 3 := by decide
  refine foldl_replaceAll (spells_atLeast hthree) (fun u t run n hm s => ?_) t Seen.nothing
  obtain ⟨rfl, hlength, -⟩ := atLeast_some hthree hm
  have hmany : (List.takeWhile isNewline (u :: t)).length - 2 + 2 = (List.takeWhile isNewline (u :: t)).length := by
    omega
  rw [id, takeWhile_isNewline, ← hmany, foldl_newlines]
  rfl

theorem foldl_spaces {x : Text} (hx : ∀ u ∈ x, isSpace u = true) : x.foldl Seen.next .nothing = .nothing := by
  induction x with
  | nil => rfl
  | cons u x ih =>
      have hu : Seen.next .nothing u = .nothing := by
        show (if isLower u then Seen.letter else .nothing) = _
        rw [not_lower_of_isSpace (hx u List.mem_cons_self)]
        rfl
      rw [List.foldl_cons, hu]
      exact ih fun v hv => hx v (List.mem_cons_of_mem u hv)

/-- White space does not complete anything. -/
theorem next_space_eq_all {s : Seen} {u : CodeUnit} (hu : isSpace u = true) : s.next u = .all ↔ s = .all := by
  have hlower := not_lower_of_isSpace hu
  have hrestart : Seen.restart u = .nothing := if_neg (by rw [hlower]; decide)
  cases s with
  | nothing => simp [Seen.next, hrestart]
  | letter =>
      rw [Seen.next, hrestart]
      split <;> simp
  | hyphen =>
      rw [Seen.next, hrestart]
      split
      · simp
      · split <;> simp
  | newline =>
      rw [Seen.next, hrestart, hlower]
      split <;> simp
  | all => simp [Seen.next]

theorem foldl_spaces_eq_all {y : Text} (hy : ∀ u ∈ y, isSpace u = true) (s : Seen) :
    y.foldl Seen.next s = .all ↔ s = .all := by
  induction y generalizing s with
  | nil => exact Iff.rfl
  | cons u y ih =>
      rw [List.foldl_cons, ih (fun v hv => hy v (List.mem_cons_of_mem u hv)), next_space_eq_all (hy u List.mem_cons_self)]

theorem seen_trim (t : Text) : seen (trim t) = .all ↔ seen t = .all := by
  obtain ⟨x, y, ht, hx, hy⟩ := exists_trim t
  conv_rhs => rw [ht, seen, List.foldl_append, List.foldl_append, foldl_spaces hx, foldl_spaces_eq_all hy]
  exact Iff.rfl

/-! ## What the first rewrite leaves -/

/-- A hyphen at the end of a line that is not taken: there are blanks next to the line break, or the next line is one
letter and a hyphen at its end, and the letter is taken with the hyphen before it. -/
def StaysBroken (w : Text) : Prop :=
  (∃ a x y b, isLower a = true ∧ isLower b = true ∧ (∀ u ∈ x ++ y, isBlank u = true) ∧ x ++ y ≠ [] ∧
      w = a :: unit '-' :: (x ++ unit '\n' :: (y ++ [b]))) ∨
    ∃ a b c, isLower a = true ∧ isLower b = true ∧ isLower c = true ∧
      w = [a, unit '-', unit '\n', b, unit '-', unit '\n', c]

def Survives (t : Text) : Prop := ∃ w, StaysBroken w ∧ w <:+: t

theorem brokenWord_iff {u : CodeUnit} {t : Text} :
    brokenWord (u :: t) ≠ none ↔
      ∃ b rest, t = unit '-' :: unit '\n' :: b :: rest ∧ isLower u = true ∧ isLower b = true := by
  constructor
  · intro h
    match t with
    | [] | [_] | [_, _] => exact absurd rfl h
    | v :: w :: b :: rest =>
        rw [brokenWord] at h
        split at h
        · next hall =>
          obtain ⟨hu, rfl, rfl, hb⟩ := hall
          exact ⟨b, rest, rfl, hu, hb⟩
        · exact absurd rfl h
  · rintro ⟨b, rest, rfl, hu, hb⟩
    rw [brokenWord, if_pos ⟨hu, rfl, rfl, hb⟩]
    simp

theorem StaysBroken.starts {w t : Text} {u : CodeUnit} (hw : StaysBroken w) (h : w <+: u :: t) :
    isLower u = true ∧ startsHyphen t := by
  rcases hw with ⟨a, x, y, b, ha, hb, hblanks, -, rfl⟩ | ⟨a, b, c, ha, hb, -, rfl⟩
  · obtain ⟨rfl, rest, hrest⟩ := List.cons_prefix_cons.mp h
    exact ⟨ha, _, hrest.symm, x, y, b, hblanks, hb, List.prefix_append _ rest⟩
  · obtain ⟨rfl, rest, hrest⟩ := List.cons_prefix_cons.mp h
    refine ⟨ha, _, hrest.symm, [], [], b, by simp, hb, ?_⟩
    exact List.cons_prefix_cons.mpr ⟨rfl, List.cons_prefix_cons.mpr ⟨rfl, List.nil_prefix⟩⟩

theorem survives_cons {u : CodeUnit} {t : Text} :
    Survives (u :: t) ↔ (∃ w, StaysBroken w ∧ w <+: u :: t) ∨ Survives t := by
  constructor
  · rintro ⟨w, hw, h⟩
    rcases List.infix_cons_iff.mp h with h | h
    · exact Or.inl ⟨w, hw, h⟩
    · exact Or.inr ⟨w, hw, h⟩
  · rintro (⟨w, hw, h⟩ | ⟨w, hw, h⟩)
    · exact ⟨w, hw, h.isInfix⟩
    · exact ⟨w, hw, h.trans (List.suffix_cons u t).isInfix⟩

theorem not_survives_nil : ¬ Survives [] := by
  rintro ⟨w, hw, h⟩
  rw [List.infix_nil.mp h] at hw
  rcases hw with ⟨a, x, y, b, -, -, -, -, h⟩ | ⟨a, b, c, -, -, -, h⟩ <;> cases h

/-- Where the first rewrite does not match, any hyphen at the end of the line survives. -/
theorem survives_none {u : CodeUnit} {t : Text} (hm : brokenWord (u :: t) = none) :
    Survives (u :: t) ↔ (isLower u = true ∧ startsHyphen t) ∨ Survives t := by
  rw [survives_cons]
  refine or_congr_left ⟨fun ⟨w, hw, h⟩ => hw.starts h, ?_⟩
  rintro ⟨hu, rest, rfl, x, y, b, hblanks, hb, hprefix⟩
  refine ⟨u :: unit '-' :: (x ++ unit '\n' :: (y ++ [b])), Or.inl ⟨u, x, y, b, hu, hb, hblanks, ?_, rfl⟩, ?_⟩
  · intro hnil
    obtain ⟨rfl, rfl⟩ := List.append_eq_nil_iff.mp hnil
    obtain ⟨rest, rfl⟩ := hprefix
    exact brokenWord_iff.mpr ⟨b, rest, rfl, hu, hb⟩ hm
  · exact List.cons_prefix_cons.mpr ⟨rfl, List.cons_prefix_cons.mpr ⟨rfl, hprefix⟩⟩

theorem not_starts {u : CodeUnit} {t : Text} (hu : isLower u = false) :
    ¬ ∃ w, StaysBroken w ∧ w <+: u :: t := by
  rintro ⟨w, hw, h⟩
  rw [(hw.starts h).1] at hu
  cases hu

/-- Where it matches, the letter after it may have a hyphen of its own. -/
theorem survives_match {a b : CodeUnit} {t : Text} (ha : isLower a = true) (hb : isLower b = true) :
    Survives (a :: unit '-' :: unit '\n' :: b :: t) ↔ startsHyphen t ∨ Survives t := by
  rw [survives_cons, survives_cons, survives_cons, survives_cons]
  have hnot : isBlank b = false := isLower.not_blank hb
  constructor
  · rintro (⟨w, hw, h⟩ | h | h | ⟨w, hw, h⟩ | h)
    · rcases hw with ⟨a, x, y, c, -, hc, hblanks, hne, rfl⟩ | ⟨a, b, c, -, -, hc, rfl⟩
      · -- no blanks stand next to this line break
        have hrest := (List.cons_prefix_cons.mp (List.cons_prefix_cons.mp h).2).2
        cases x with
        | cons v x =>
            obtain ⟨rfl, -⟩ := List.cons_prefix_cons.mp hrest
            exact absurd (hblanks (unit '\n') List.mem_cons_self) (by decide)
        | nil =>
            cases y with
            | nil => exact absurd rfl hne
            | cons v y =>
                obtain ⟨rfl, -⟩ := List.cons_prefix_cons.mp (List.cons_prefix_cons.mp hrest).2
                rw [hblanks v List.mem_cons_self] at hnot
                cases hnot
      · obtain ⟨rest, hrest⟩ := h
        simp only [List.cons_append, List.nil_append, List.cons.injEq, true_and] at hrest
        obtain ⟨-, -, rfl⟩ := hrest
        refine Or.inl ⟨_, rfl, [], [], c, by simp, hc, ?_⟩
        exact List.cons_prefix_cons.mpr ⟨rfl, List.cons_prefix_cons.mpr ⟨rfl, List.nil_prefix⟩⟩
    · exact absurd h (not_starts (by decide))
    · exact absurd h (not_starts (by decide))
    · exact Or.inl (hw.starts h).2
    · exact Or.inr h
  · rintro (⟨rest, rfl, x, y, c, hblanks, hc, hprefix⟩ | h)
    · by_cases hne : x ++ y = []
      · obtain ⟨rfl, rfl⟩ := List.append_eq_nil_iff.mp hne
        refine Or.inl ⟨_, Or.inr ⟨a, b, c, ha, hb, hc, rfl⟩, ?_⟩
        obtain ⟨rest, rfl⟩ := hprefix
        exact ⟨rest, rfl⟩
      · refine Or.inr (Or.inr (Or.inr (Or.inl ⟨_, Or.inl ⟨b, x, y, c, hb, hc, hblanks, hne, rfl⟩, ?_⟩)))
        exact List.cons_prefix_cons.mpr ⟨rfl, List.cons_prefix_cons.mpr ⟨rfl, hprefix⟩⟩
    · exact Or.inr (Or.inr (Or.inr (Or.inr h)))

theorem next_lower {a : CodeUnit} (ha : isLower a = true) (s : Seen) :
    s.next a = if s = .newline ∨ s = .all then Seen.all else Seen.letter := by
  have hblank := isLower.not_blank ha
  have hhyphen : a ≠ unit '-' := isLower_ne ha (by decide)
  have hnewline : a ≠ unit '\n' := isLower_ne ha (by decide)
  cases s <;> simp [Seen.next, Seen.restart, ha, hblank, hhyphen, hnewline]

/-- Both letters of a match, without what is between them. -/
theorem completes_match {a b : CodeUnit} {t : Text} (ha : isLower a = true) (hb : isLower b = true) (s : Seen) :
    ((s.next a).next b).Completes Survives t ↔ s.Completes Survives (a :: unit '-' :: unit '\n' :: b :: t) := by
  have hwhole := survives_match (t := t) ha hb
  have hblank := isLower.not_blank ha
  have hhyphen : a ≠ unit '-' := isLower_ne ha (by decide)
  have hnewline : a ≠ unit '\n' := isLower_ne ha (by decide)
  rw [next_lower hb, next_lower ha]
  cases s with
  | nothing => exact hwhole.symm
  | all => exact Iff.rfl
  | newline => exact iff_of_true trivial (Or.inl (startsLetter_cons.mpr (Or.inl ha)))
  | letter =>
      refine hwhole.symm.trans ⟨Or.inr, fun h => h.resolve_left ?_⟩
      exact fun h => hhyphen (startsHyphen_cons.mp h).1
  | hyphen =>
      refine hwhole.symm.trans ⟨Or.inr, fun h => h.resolve_left ?_⟩
      rw [startsBreak_cons, hblank]
      rintro (⟨h, -⟩ | ⟨h, -⟩)
      · exact hnewline h
      · cases h

/-- The automaton finds in the rewritten text what survives. -/
theorem seen_dehyphenate {t : Text} : seen (dehyphenate t) = .all ↔ Survives t := by
  have hfrom : ∀ s : Seen, (dehyphenate t).foldl Seen.next s = .all ↔ s.Completes Survives t := by
    refine scan_induction (P := fun t => ∀ s : Seen, (dehyphenate t).foldl Seen.next s = .all ↔ s.Completes Survives t)
      brokenWord (fun s => (completes_nil not_survives_nil s).symm) ?_ ?_ t
    · intro a as groups n hm ih s
      obtain ⟨b, rest, rfl, ha, hb⟩ := brokenWord_iff.mp (by rw [hm]; simp)
      rw [brokenWord, if_pos ⟨ha, rfl, rfl, hb⟩] at hm
      obtain ⟨rfl, rfl⟩ := Prod.mk.inj (Option.some.inj hm)
      have hmatch : brokenWord (a :: unit '-' :: unit '\n' :: b :: rest) = some ((a, b), 3) := by
        rw [brokenWord, if_pos ⟨ha, rfl, rfl, hb⟩]
      rw [dehyphenate, replaceAll_match hmatch, List.foldl_append, List.foldl_cons, List.foldl_cons, List.foldl_nil]
      exact (ih _).trans (completes_match ha hb s)
    · intro u t hm ih s
      rw [dehyphenate, replaceAll_none hm, List.foldl_cons]
      exact (ih _).trans (completes_next (survives_none hm) s)
  exact hfrom .nothing

/-! ## Blanks and line breaks -/

/-- Symbols that may stand next to each other: no two blanks, no blank and line break. -/
def Apart (u v : CodeUnit) : Prop :=
  ¬ (isBlank u = true ∧ isBlank v = true) ∧ ¬ (isBlank u = true ∧ isNewline v = true) ∧
    ¬ (isNewline u = true ∧ isBlank v = true)

theorem space_of_squeezed {t : Text} {u : CodeUnit} (hu : u ∈ squeezeBlanks t) (hblank : isBlank u = true) :
    u = unit ' ' := by
  rw [squeezeBlanks, replaceAll, List.mem_flatMap] at hu
  obtain ⟨token, htoken, hu⟩ := hu
  cases token with
  | inl run => exact List.mem_singleton.mp hu
  | inr v =>
      obtain ⟨rest, hm⟩ := mem_scan_inr htoken
      obtain rfl : u = v := List.mem_singleton.mp hu
      rw [atLeast_none, List.takeWhile_cons_of_pos hblank, List.length_cons] at hm
      omega

theorem squeezed_apart (t : Text) :
    List.IsChain (fun u v => ¬ (isBlank u = true ∧ isBlank v = true)) (squeezeBlanks t) := by
  refine List.isChain_iff_forall_rel_of_append_cons_cons.mpr fun u v x y htext hboth => ?_
  have hruns : RunsUpTo isBlank (text " ").length (squeezeBlanks t) :=
    runsUpTo_replaceAll Nat.one_pos (by decide) (by decide) t
  have hpair : [u, v] <:+: squeezeBlanks t := ⟨x, y, by rw [htext]; simp⟩
  have hshort : 2 ≤ 1 := hruns [u, v] hpair (by simp [hboth])
  omega

theorem lineBreak_newline (t : Text) : lineBreak (unit '\n' :: t) ≠ none := by
  unfold lineBreak
  dsimp only
  rw [List.dropWhile_cons_of_neg (by decide)]
  dsimp only
  rw [if_pos rfl]
  simp

/-- Spaces before a line break belong to it. -/
theorem lineBreak_space {t : Text} (h : lineBreak t ≠ none) : lineBreak (unit ' ' :: t) ≠ none := by
  unfold lineBreak at h ⊢
  dsimp only at h ⊢
  rw [List.dropWhile_cons_of_pos (by decide)]
  cases hrest : t.dropWhile (· == unit ' ') with
  | nil =>
      rw [hrest] at h
      exact absurd rfl h
  | cons u rest =>
      rw [hrest] at h
      dsimp only at h ⊢
      split
      · simp
      · next hu => exact absurd (if_neg hu) h

/-- Spaces after it, too. -/
theorem lineBreak_rest {u : CodeUnit} {t : Text} {sides : Text × Text} {n : Nat}
    (hm : lineBreak (u :: t) = some (sides, n)) : ∀ v ∈ (t.drop n).head?, v ≠ unit ' ' := by
  obtain ⟨-, -, rest, hrest, hafter⟩ := lineBreak_some hm
  have htext := spells_lineBreak.text hm
  rw [hrest, List.append_assoc, List.append_cancel_left_eq, List.cons_append, List.cons.injEq] at htext
  have hsame : sides.2 ++ t.drop n = sides.2 ++ rest.dropWhile (· == unit ' ') := by
    rw [← htext.2, hafter, List.takeWhile_append_dropWhile]
  have hnot := List.head?_dropWhile_not (· == unit ' ') rest
  rw [← List.append_cancel_left hsame] at hnot
  intro v hv
  rw [hv] at hnot
  simpa using hnot

theorem head?_trimBreaks {t : Text} {v : CodeUnit} (hv : v ∈ (trimBreaks t).head?) :
    (v = unit '\n' ∧ lineBreak t ≠ none) ∨ (lineBreak t = none ∧ v ∈ t.head?) := by
  cases hm : lineBreak t with
  | none =>
      rw [trimBreaks, head?_replaceAll_none hm] at hv
      exact Or.inr ⟨rfl, hv⟩
  | some found =>
      cases t with
      | nil => cases hv
      | cons u t =>
          rw [trimBreaks, replaceAll_match hm] at hv
          exact Or.inl ⟨(Option.some.inj hv).symm, by simp⟩

/-- Where the line breaks are rewritten in text whose blanks are single spaces, no space is left next to one. -/
theorem trimmed_apart {t : Text} (hchain : List.IsChain (fun u v => ¬ (isBlank u = true ∧ isBlank v = true)) t)
    (hspace : ∀ u ∈ t, isBlank u = true → u = unit ' ') : List.IsChain Apart (trimBreaks t) := by
  revert hchain hspace
  refine scan_induction (P := fun t => List.IsChain (fun u v => ¬ (isBlank u = true ∧ isBlank v = true)) t →
    (∀ u ∈ t, isBlank u = true → u = unit ' ') → List.IsChain Apart (trimBreaks t)) lineBreak
    (fun _ _ => List.isChain_nil) ?_ ?_ t
  · intro u t sides n hm ih hchain hspace
    have hdrop : t.drop n <:+ u :: t := (List.drop_suffix n t).trans (List.suffix_cons u t)
    rw [trimBreaks, replaceAll_match hm]
    refine List.isChain_cons.mpr ⟨fun v hv => ?_, ih (hchain.suffix hdrop) fun w hw => hspace w (hdrop.subset hw)⟩
    refine ⟨fun h => absurd h.1 (by decide), fun h => absurd h.1 (by decide), fun ⟨_, hblank⟩ => ?_⟩
    rcases head?_trimBreaks hv with ⟨rfl, -⟩ | ⟨-, hv⟩
    · exact absurd hblank (by decide)
    · exact lineBreak_rest hm v hv (hspace v (hdrop.subset (List.mem_of_mem_head? hv)) hblank)
  · intro u t hm ih hchain hspace
    obtain ⟨hpair, hrest⟩ := List.isChain_cons.mp hchain
    have hu : isNewline u = true → False := fun h => by
      rw [isNewline_iff.mp h] at hm
      exact lineBreak_newline t hm
    rw [trimBreaks, replaceAll_none hm]
    refine List.isChain_cons.mpr ⟨fun v hv => ?_, ih hrest fun w hw => hspace w (List.mem_cons_of_mem u hw)⟩
    rcases head?_trimBreaks hv with ⟨rfl, hmatch⟩ | ⟨hnone, hv⟩
    · refine ⟨fun h => absurd h.2 (by decide), fun ⟨hblank, _⟩ => ?_, fun h => hu h.1⟩
      rw [hspace u List.mem_cons_self hblank] at hm
      exact lineBreak_space hmatch hm
    · refine ⟨hpair v hv, fun ⟨_, hnew⟩ => ?_, fun h => hu h.1⟩
      cases t with
      | nil => cases hv
      | cons w t =>
          obtain rfl : w = v := Option.some.inj hv
          rw [isNewline_iff.mp hnew] at hnone
          exact lineBreak_newline t hnone

theorem limited_apart {t : Text} (h : List.IsChain Apart t) : List.IsChain Apart (limitBreaks t) := by
  refine isChain_replaceAll (by decide) (by decide) ?_ ?_ ?_ h
  · show List.IsChain Apart [unit '\n', unit '\n']
    rw [List.isChain_pair, Apart]
    decide
  · rintro y hy x z hz hxz
    rw [isNewline_iff.mp hz] at hxz
    exact (Option.some.inj hy).symm ▸ hxz
  · rintro x hx y z hy hyz
    rw [isNewline_iff.mp hy] at hyz
    exact (Option.some.inj hx).symm ▸ hyz

theorem limited_runs (t : Text) : RunsUpTo isNewline 2 (limitBreaks t) :=
  runsUpTo_replaceAll (r := text "\n\n") (by decide) (by decide) (by decide) t

/-! ## The normal form -/

/-- Code units below 128. -/
def IsAscii (t : Text) : Prop := ∀ u ∈ t, u.toNat < 128

instance decidableIsAscii (t : Text) : Decidable (IsAscii t) := decidableForallMem t

/-- A line break after a letter and a hyphen, and before a letter. -/
def HasBrokenWord (t : Text) : Prop :=
  ∃ a b, isLower a = true ∧ isLower b = true ∧ [a, unit '-', unit '\n', b] <:+: t

/-- No word broken at the end of a line, no run of blanks, no blank next to a line break, no three line breaks, and no
white space at the ends. -/
structure IsNormal (t : Text) : Prop where
  words : ¬ HasBrokenWord t
  blanks : RunsUpTo isBlank 1 t
  sides : ∀ u, isBlank u = true → ¬ [u, unit '\n'] <:+: t ∧ ¬ [unit '\n', u] <:+: t
  breaks : RunsUpTo isNewline 2 t
  head : ∀ u ∈ t.head?, isSpace u = false
  last : ∀ u ∈ t.getLast?, isSpace u = false

theorem blanks_of_apart {t : Text} (h : List.IsChain Apart t) : RunsUpTo isBlank 1 t := by
  intro run hrun hall
  have hchain := isChain_inside h hrun
  match run with
  | [] | [_] => simp
  | u :: v :: run =>
      rw [List.forall_mem_cons, List.forall_mem_cons] at hall
      exact absurd ⟨hall.1, hall.2.1⟩ (List.isChain_cons_cons.mp hchain).1.1

theorem sides_of_apart {t : Text} (h : List.IsChain Apart t) {u : CodeUnit} (hu : isBlank u = true) :
    ¬ [u, unit '\n'] <:+: t ∧ ¬ [unit '\n', u] <:+: t := by
  constructor
  · intro hpair
    exact (List.isChain_pair.mp (isChain_inside h hpair)).2.1 ⟨hu, by decide⟩
  · intro hpair
    exact (List.isChain_pair.mp (isChain_inside h hpair)).2.2 ⟨by decide, hu⟩

theorem hyphenated_of_brokenWord {t : Text} (h : HasBrokenWord t) : Hyphenated t := by
  obtain ⟨a, b, ha, hb, x, y, rfl⟩ := h
  refine ⟨a, unit '-' :: unit '\n' :: b :: y, ha, ⟨_, rfl, [], [], b, by simp, hb, ?_⟩, x, by simp⟩
  exact List.cons_prefix_cons.mpr ⟨rfl, List.cons_prefix_cons.mpr ⟨rfl, List.nil_prefix⟩⟩

/-- Without blanks next to line breaks, they are the same. -/
theorem brokenWord_of_hyphenated {t : Text} (hchain : List.IsChain Apart t) (h : Hyphenated t) : HasBrokenWord t := by
  obtain ⟨a, rest, ha, ⟨rest, rfl, x, y, b, hblanks, hb, rest', rfl⟩, hsuffix⟩ := h
  have hinfix : x ++ unit '\n' :: (y ++ [b]) <:+: t := by
    refine List.IsInfix.trans ?_ hsuffix.isInfix
    exact ⟨[a, unit '-'], rest', by simp⟩
  have hx : x = [] := by
    rcases List.eq_nil_or_concat x with hnil | ⟨x', u, rfl⟩
    · exact hnil
    · refine absurd (List.IsInfix.trans ?_ hinfix) (sides_of_apart hchain (hblanks u (by simp))).1
      exact ⟨x', y ++ [b], by simp⟩
  have hy : y = [] := by
    cases y with
    | nil => rfl
    | cons u y =>
        refine absurd (List.IsInfix.trans ?_ hinfix) (sides_of_apart hchain (hblanks u (by simp))).2
        exact ⟨x, y ++ [b], by simp⟩
  subst hx hy
  refine ⟨a, b, ha, hb, List.IsInfix.trans ?_ hsuffix.isInfix⟩
  exact ⟨[], rest', by simp⟩

theorem apart_rewritten (t : Text) :
    List.IsChain Apart (trim (limitBreaks (trimBreaks (squeezeBlanks t)))) :=
  isChain_inside (limited_apart (trimmed_apart (squeezed_apart t) fun _ => space_of_squeezed)) (trim_isInfix _)

/-- All laws but the one about hyphens. -/
theorem isNormal_rewritten (t : Text) :
    IsNormal (trim (limitBreaks (trimBreaks (squeezeBlanks t)))) ↔
      ¬ HasBrokenWord (trim (limitBreaks (trimBreaks (squeezeBlanks t)))) := by
  refine ⟨IsNormal.words, fun hwords => ?_⟩
  exact
    { words := hwords
      blanks := blanks_of_apart (apart_rewritten t)
      sides := fun _ => sides_of_apart (apart_rewritten t)
      breaks := (limited_runs _).inside (trim_isInfix _)
      head := fun _ => head?_trim
      last := fun _ => getLast?_trim }

theorem hasBrokenWord_rewritten (t : Text) :
    HasBrokenWord (trim (limitBreaks (trimBreaks (squeezeBlanks (dehyphenate t))))) ↔ Survives t := by
  have hsame : Hyphenated (trim (limitBreaks (trimBreaks (squeezeBlanks (dehyphenate t))))) ↔ Survives t := by
    rw [← seen_eq_all, seen_trim, seen_limitBreaks, seen_trimBreaks, seen_squeezeBlanks, seen_dehyphenate]
  exact ⟨fun h => hsame.mp (hyphenated_of_brokenWord h), fun h => brokenWord_of_hyphenated (apart_rewritten _) (hsame.mpr h)⟩

/-! ## Normal text stays -/

theorem dehyphenate_normal {t : Text} (h : ¬ HasBrokenWord t) : dehyphenate t = t := by
  refine replaceAll_of_none fun s hs hne => ?_
  obtain ⟨u, s, rfl⟩ := List.exists_cons_of_ne_nil hne
  by_contra hm
  obtain ⟨b, rest, rfl, hu, hb⟩ := brokenWord_iff.mp hm
  refine h ⟨u, b, hu, hb, List.IsInfix.trans ?_ hs.isInfix⟩
  exact ⟨[], rest, rfl⟩

theorem squeezeBlanks_normal {t : Text} (h : RunsUpTo isBlank 1 t) (hspace : ∀ u ∈ t, isBlank u = true → u = unit ' ') :
    squeezeBlanks t = t := by
  refine replaceAll_of_same fun u as run n hs hm => ?_
  obtain ⟨hrun, hlength, hn⟩ := atLeast_some Nat.one_pos hm
  have hshort : run.length ≤ 1 := by
    rw [hrun]
    exact h _ ((List.takeWhile_prefix _).isInfix.trans hs.isInfix) fun v hv => List.mem_takeWhile_imp hv
  obtain rfl : n = 0 := by omega
  have hu : isBlank u = true := by
    by_contra hnot
    rw [List.takeWhile_cons_of_neg hnot] at hrun
    rw [hrun] at hlength
    exact absurd hlength (by decide)
  rw [hspace u (hs.subset List.mem_cons_self) hu]
  rfl

theorem trimBreaks_normal {t : Text}
    (h : ∀ u, isBlank u = true → ¬ [u, unit '\n'] <:+: t ∧ ¬ [unit '\n', u] <:+: t) : trimBreaks t = t := by
  refine replaceAll_of_same fun u as sides n hs hm => ?_
  obtain ⟨hspaces, hn, -⟩ := lineBreak_some hm
  have htext := spells_lineBreak.text hm
  have hinfix : sides.1 ++ unit '\n' :: sides.2 <:+: t := by
    refine List.IsInfix.trans ?_ hs.isInfix
    exact ⟨[], as.drop n, by rw [htext]; simp⟩
  have hbefore : sides.1 = [] := by
    rcases List.eq_nil_or_concat sides.1 with hnil | ⟨x, v, hx⟩
    · exact hnil
    · have hv : v = unit ' ' := hspaces v (by simp [hx])
      refine absurd (List.IsInfix.trans ?_ hinfix) (h v (hv ▸ by decide)).1
      exact ⟨x, sides.2, by simp [hx]⟩
  have hafter : sides.2 = [] := by
    rcases hy : sides.2 with _ | ⟨v, y⟩
    · rfl
    · have hv : v = unit ' ' := hspaces v (by simp [hy])
      refine absurd (List.IsInfix.trans ?_ hinfix) (h v (hv ▸ by decide)).2
      exact ⟨sides.1, y, by simp [hy]⟩
  rw [hbefore, hafter] at htext
  obtain rfl : n = 0 := by rw [hn, hbefore, hafter]; rfl
  rw [List.take_zero, (List.cons.inj htext).1]
  rfl

theorem limitBreaks_normal {t : Text} (h : RunsUpTo isNewline 2 t) : limitBreaks t = t := by
  refine replaceAll_of_none fun s hs _ => atLeast_none.mpr ?_
  have := h _ ((List.takeWhile_prefix _).isInfix.trans hs.isInfix) fun u hu => List.mem_takeWhile_imp hu
  omega

/-- What the rewrites put in. -/
theorem forall_mem_rewritten {P : CodeUnit → Prop} (hnewline : P (unit '\n')) {t : Text} (ht : ∀ u ∈ t, P u) :
    ∀ u ∈ trim (limitBreaks (trimBreaks t)), P u := by
  have htrimmed : ∀ u ∈ trimBreaks t, P u :=
    forall_mem_replaceAll (fun _ _ _ _ _ _ u hu => List.mem_singleton.mp hu ▸ hnewline) ht
  have hlimited : ∀ u ∈ limitBreaks (trimBreaks t), P u := by
    refine forall_mem_replaceAll (fun _ _ _ _ _ _ u hu => ?_) htrimmed
    have hboth : u ∈ [unit '\n', unit '\n'] := hu
    rw [List.mem_pair, or_self] at hboth
    exact hboth ▸ hnewline
  exact fun u hu => hlimited u ((trim_isInfix _).subset hu)

theorem isAscii_normalized {t : Text} (ht : IsAscii t) :
    IsAscii (trim (limitBreaks (trimBreaks (squeezeBlanks (dehyphenate t))))) := by
  have hjoined : IsAscii (dehyphenate t) := by
    refine forall_mem_replaceAll (fun u as groups n hm hall v hv => ?_) ht
    obtain ⟨b, rest, rfl, hu, hb⟩ := brokenWord_iff.mp (by rw [hm]; simp)
    rw [brokenWord, if_pos ⟨hu, rfl, rfl, hb⟩] at hm
    obtain ⟨rfl, -⟩ := Prod.mk.inj (Option.some.inj hm)
    rcases List.mem_pair.mp hv with rfl | rfl
    · exact hall v List.mem_cons_self
    · exact hall v (by simp)
  have hsqueezed : IsAscii (squeezeBlanks (dehyphenate t)) :=
    forall_mem_replaceAll (fun _ _ _ _ _ _ u hu => (List.mem_singleton.mp hu).symm ▸ (by decide)) hjoined
  exact forall_mem_rewritten (by decide) hsqueezed

/-! ## normalizeText -/

theorem normalizeText_ascii {nfkc : Text → Text} (hnfkc : ∀ t, IsAscii t → nfkc t = t) {t : Text} (ht : IsAscii t) :
    normalizeText nfkc t = trim (limitBreaks (trimBreaks (squeezeBlanks (dehyphenate t)))) := by
  rw [normalizeText, hnfkc t ht]

/-- Normal text stays as it is. -/
theorem normalizeText_normal {nfkc : Text → Text} (hnfkc : ∀ t, IsAscii t → nfkc t = t) {t : Text} (ht : IsAscii t)
    (hspace : ∀ u ∈ t, isBlank u = true → u = unit ' ') (h : IsNormal t) : normalizeText nfkc t = t := by
  rw [normalizeText_ascii hnfkc ht, dehyphenate_normal h.words, squeezeBlanks_normal h.blanks hspace,
    trimBreaks_normal h.sides, limitBreaks_normal h.breaks, trim_eq_self h.head h.last]

/-- **`normalizeText` reaches the normal form, and stays there, where no hyphen at the end of a line survives.** -/
theorem normalizeText_isNormal {nfkc : Text → Text} (hnfkc : ∀ t, IsAscii t → nfkc t = t) {t : Text} (ht : IsAscii t) :
    (IsNormal (normalizeText nfkc t) ∧ normalizeText nfkc (normalizeText nfkc t) = normalizeText nfkc t) ↔
      ¬ Survives t := by
  have hstart := normalizeText_ascii hnfkc ht
  have hnormal : IsNormal (normalizeText nfkc t) ↔ ¬ Survives t := by
    rw [hstart, isNormal_rewritten, hasBrokenWord_rewritten]
  refine ⟨fun h => hnormal.mp h.1, fun h => ⟨hnormal.mpr h, ?_⟩⟩
  refine normalizeText_normal hnfkc (hstart ▸ isAscii_normalized ht) ?_ (hnormal.mpr h)
  rw [hstart]
  exact forall_mem_rewritten (by decide) fun u => space_of_squeezed

/-- A word that is cut at the end of a line, and blanks. -/
theorem normalizeText_isNormal_cooperate :
    normalizeText id (text "to co-\noperate \t\n\n \nwell\n") = text "to cooperate\n\nwell" ∧
      ((IsNormal (normalizeText id (text "to co-\noperate \t\n\n \nwell\n")) ∧
        normalizeText id (normalizeText id (text "to co-\noperate \t\n\n \nwell\n")) =
          normalizeText id (text "to co-\noperate \t\n\n \nwell\n")) ↔
        ¬ Survives (text "to co-\noperate \t\n\n \nwell\n")) :=
  ⟨by decide, normalizeText_isNormal (fun _ _ => rfl) (by decide)⟩

/-- A space between the hyphen and the line break: it goes after the hyphens were looked for. -/
theorem normalizeText_not_isNormal :
    ¬ ∀ nfkc : Text → Text, (∀ t, IsAscii t → nfkc t = t) → ∀ t, IsAscii t →
      IsNormal (normalizeText nfkc t) ∧ normalizeText nfkc (normalizeText nfkc t) = normalizeText nfkc t := by
  intro h
  obtain ⟨-, hagain⟩ := h id (fun _ _ => rfl) (text "agree- \nment") (by decide)
  have honce : normalizeText id (text "agree- \nment") = text "agree-\nment" := by decide
  have htwice : normalizeText id (text "agree-\nment") = text "agreement" := by decide
  rw [honce, htwice] at hagain
  exact absurd hagain (by decide)

end FinSight.Ingest
