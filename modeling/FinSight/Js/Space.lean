import FinSight.Js.Canonical
import FinSight.Scanning.Replace
import Mathlib.Data.List.DropRight
import Mathlib.Data.List.TakeWhile

/-!
# White space

* `isBlank` : a space or a tab;
* `isSpace_range`, `isSpace_digit` : where the white space of `trim` and `\s` lies among the code units;
* `exists_trim`, `trim_eq_self`, `trim_trim` : what `trim` leaves;
* `words` : the words between white space; `words_append_spaces`, `words_trim`, `words_splitSpaces` : what keeps them.
-/

namespace FinSight

/-- `[ \t]`. -/
def isBlank (u : CodeUnit) : Bool := u == unit ' ' || u == unit '\t'

theorem isBlank_iff {u : CodeUnit} : isBlank u = true ↔ u = unit ' ' ∨ u = unit '\t' := by
  rw [isBlank, Bool.or_eq_true, beq_iff_eq, beq_iff_eq]

theorem isSpace_range {u : CodeUnit} (h : isSpace u = true) : u.toNat ≤ 32 ∨ 160 ≤ u.toNat := by
  simp only [isSpace, Bool.or_eq_true, Bool.and_eq_true, decide_eq_true_iff, beq_iff_eq, UInt16.le_iff_toNat_le,
    ← UInt16.toNat_inj, UInt16.toNat_ofNat] at h
  omega

theorem IsDigit.not_space {u : CodeUnit} (h : IsDigit u) : isSpace u = false := by
  by_contra hspace
  have hrange := isSpace_range (Bool.not_eq_false _ ▸ hspace)
  obtain ⟨hlow, hhigh⟩ := h
  omega

theorem trim_eq_rdropWhile (t : Text) : trim t = (t.dropWhile isSpace).rdropWhile isSpace := rfl

/-- What is cut off is white space. -/
theorem exists_trim (t : Text) :
    ∃ x y, t = x ++ trim t ++ y ∧ (∀ u ∈ x, isSpace u = true) ∧ ∀ u ∈ y, isSpace u = true := by
  refine ⟨t.takeWhile isSpace, (t.dropWhile isSpace).rtakeWhile isSpace, ?_,
    fun u hu => List.mem_takeWhile_imp hu, fun u hu => List.mem_rtakeWhile_imp hu⟩
  rw [trim_eq_rdropWhile, List.append_assoc, List.rdropWhile_append_rtakeWhile, List.takeWhile_append_dropWhile]

theorem trim_isInfix (t : Text) : trim t <:+: t := by
  obtain ⟨x, y, h, -, -⟩ := exists_trim t
  exact ⟨x, y, h.symm⟩

theorem trim_eq_self {t : Text} (hhead : ∀ u, t.head? = some u → isSpace u = false)
    (hlast : ∀ u, t.getLast? = some u → isSpace u = false) : trim t = t := by
  have hstart : t.dropWhile isSpace = t := by
    cases t with
    | nil => rfl
    | cons u t => exact List.dropWhile_cons_of_neg (by rw [hhead u rfl]; decide)
  rw [trim_eq_rdropWhile, hstart, List.rdropWhile_eq_self_iff]
  intro hne
  rw [hlast _ (List.getLast?_eq_some_getLast hne)]
  decide

theorem head?_trim {t : Text} {u : CodeUnit} (h : (trim t).head? = some u) : isSpace u = false := by
  have hstart : trim t <+: t.dropWhile isSpace := List.rdropWhile_prefix _ _
  obtain ⟨rest, hrest⟩ := hstart
  have hnot := List.head?_dropWhile_not isSpace t
  rw [← hrest, List.head?_append, h] at hnot
  simpa using hnot

theorem getLast?_trim {t : Text} {u : CodeUnit} (h : (trim t).getLast? = some u) : isSpace u = false := by
  have hne : trim t ≠ [] := by
    intro hnil
    rw [hnil] at h
    cases h
  rw [List.getLast?_eq_some_getLast hne, Option.some.injEq] at h
  rw [← h]
  exact Bool.eq_false_iff.mpr (List.rdropWhile_last_not isSpace (t.dropWhile isSpace) hne)

theorem trim_trim (t : Text) : trim (trim t) = trim t := trim_eq_self (fun _ => head?_trim) fun _ => getLast?_trim

/-- White space at the ends is cut off. -/
theorem trim_append_spaces {x t y : Text} (hx : ∀ u ∈ x, isSpace u = true) (hy : ∀ u ∈ y, isSpace u = true) :
    trim (x ++ t ++ y) = trim t := by
  have hend : ∀ z : Text, (z ++ y).rdropWhile isSpace = z.rdropWhile isSpace := by
    intro z
    have hy : ∀ u ∈ y.reverse, isSpace u = true := fun u hu => hy u (List.mem_reverse.mp hu)
    rw [List.rdropWhile, List.reverse_append, List.dropWhile_append_of_pos hy, List.rdropWhile]
  rw [trim_eq_rdropWhile, List.append_assoc, List.dropWhile_append_of_pos hx, List.dropWhile_append, trim_eq_rdropWhile]
  split
  · next hempty =>
    rw [List.isEmpty_iff.mp hempty, List.dropWhile_eq_nil_iff.mpr hy]
  · exact hend _

/-! ## Words -/

open Scanning

/-- `/\s+/`. -/
def spaces : Pattern CodeUnit Text
  | [] => none
  | u :: rest => if isSpace u then some (u :: rest.takeWhile isSpace, (rest.takeWhile isSpace).length) else none

/-- `t.split(/\s+/)`. -/
def splitSpaces (t : Text) : List Text := split spaces (fun _ => []) t

/-- The words of a text, without the white space. -/
def words (t : Text) : List Text := (t.splitOnP isSpace).filter fun w => !w.isEmpty

@[simp] theorem words_nil : words [] = [] := rfl

theorem words_append_space (x : Text) {u : CodeUnit} (hu : isSpace u = true) (y : Text) :
    words (x ++ u :: y) = words x ++ words y := by
  rw [words, List.splitOnP_append_cons x y hu, List.filter_append]
  rfl

theorem words_append_spaces {run : Text} (hne : run ≠ []) (hrun : ∀ u ∈ run, isSpace u = true) (x y : Text) :
    words (x ++ (run ++ y)) = words x ++ words y := by
  induction run generalizing x with
  | nil => exact absurd rfl hne
  | cons u run ih =>
      rw [List.cons_append, words_append_space x (hrun u List.mem_cons_self)]
      cases run with
      | nil => rfl
      | cons v run =>
          have hrest := ih (List.cons_ne_nil _ _) (fun w hw => hrun w (List.mem_cons_of_mem _ hw)) []
          rw [List.nil_append, words_nil, List.nil_append] at hrest
          rw [hrest]

theorem words_trim (t : Text) : words (trim t) = words t := by
  obtain ⟨x, y, ht, hx, hy⟩ := exists_trim t
  have hleft : ∀ z, words (x ++ z) = words z := by
    intro z
    cases x with
    | nil => rfl
    | cons u x => simpa using words_append_spaces (List.cons_ne_nil u x) hx [] z
  have hright : ∀ z, words (z ++ y) = words z := by
    intro z
    cases y with
    | nil => rw [List.append_nil]
    | cons u y => simpa using words_append_spaces (List.cons_ne_nil u y) hy z []
  conv_rhs => rw [ht, List.append_assoc, hleft, hright]

theorem spaces_some {u : CodeUnit} {t run : Text} {n : Nat} (h : spaces (u :: t) = some (run, n)) :
    run ≠ [] ∧ (∀ v ∈ run, isSpace v = true) ∧ run <+: u :: t ∧ run.length = n + 1 := by
  rw [spaces] at h
  split at h
  · next hu =>
    obtain ⟨rfl, rfl⟩ := Prod.mk.inj (Option.some.inj h)
    refine ⟨List.cons_ne_nil _ _, ?_, ?_, rfl⟩
    · exact List.forall_mem_cons.mpr ⟨hu, fun v hv => List.mem_takeWhile_imp hv⟩
    · exact List.cons_prefix_cons.mpr ⟨rfl, List.takeWhile_prefix isSpace⟩
  · cases h

theorem words_splitSpaces (t : Text) : (splitSpaces t).flatMap words = words t := by
  refine split_flatMap (g := id) (spells_of_start fun u as run n h => (spaces_some h).2.2) ?_ t
  intro u as run n h x y
  obtain ⟨hne, hrun, -, -⟩ := spaces_some h
  rw [id, words_append_spaces hne hrun, List.append_nil]

theorem words_of_not_space {t : Text} (h : ∀ u ∈ t, isSpace u = false) :
    words t = if t.isEmpty then [] else [t] := by
  rw [words, List.splitOnP_eq_singleton h, List.filter_cons]
  cases t <;> rfl

theorem not_space_of_mem_splitSpaces {t w : Text} (hw : w ∈ splitSpaces t) {u : CodeUnit} (hu : u ∈ w) :
    isSpace u = false := by
  rcases mem_split hw hu with ⟨run, -, hrun⟩ | hu
  · cases hrun
  · obtain ⟨rest, hnone⟩ := mem_scan_inr hu
    rw [spaces] at hnone
    split at hnone
    · cases hnone
    · next hspace => exact Bool.eq_false_iff.mpr hspace

/-- The pieces between white space are the words, and empty texts. -/
theorem filter_splitSpaces (t : Text) : ((splitSpaces t).filter fun w => !w.isEmpty) = words t := by
  have hpiece : ∀ w ∈ splitSpaces t, words w = if w.isEmpty then [] else [w] :=
    fun w hw => words_of_not_space fun u hu => not_space_of_mem_splitSpaces hw hu
  rw [← words_splitSpaces, List.flatMap_congr hpiece]
  induction splitSpaces t with
  | nil => rfl
  | cons w ws ih =>
      rw [List.filter_cons, List.flatMap_cons, ih]
      cases w <;> rfl

/-- The first word, where the text does not start with white space. -/
theorem exists_first_word (t : Text) :
    (∀ u ∈ t, isSpace u = false) ∨
      ∃ x u y, t = x ++ u :: y ∧ (∀ v ∈ x, isSpace v = false) ∧ isSpace u = true := by
  rcases hrest : t.dropWhile (fun u => !isSpace u) with _ | ⟨u, rest⟩
  · left
    simpa using List.dropWhile_eq_nil_iff.mp hrest
  · right
    refine ⟨t.takeWhile fun u => !isSpace u, u, rest, ?_, fun v hv => by simpa using List.mem_takeWhile_imp hv, ?_⟩
    · rw [← hrest, List.takeWhile_append_dropWhile]
    · have hnot := List.head?_dropWhile_not (fun u => !isSpace u) t
      rw [hrest] at hnot
      simpa using hnot

theorem infix_of_mem_words {t w : Text} (h : w ∈ words t) : w <:+: t := by
  have hword : ∀ {x : Text}, (∀ u ∈ x, isSpace u = false) → w ∈ words x → w = x := by
    intro x hx hw
    rw [words_of_not_space hx] at hw
    split at hw
    · cases hw
    · exact List.mem_singleton.mp hw
  induction hlength : t.length using Nat.strong_induction_on generalizing t with
  | _ n ih =>
      rcases exists_first_word t with hall | ⟨x, u, y, rfl, hx, hu⟩
      · rw [hword hall h]
      · rw [words_append_space x hu, List.mem_append] at h
        rcases h with h | h
        · rw [hword hx h]
          exact (List.prefix_append x _).isInfix
        · have hshort : y.length < n := by
            rw [← hlength, List.length_append, List.length_cons]
            omega
          have hin := ih y.length hshort h rfl
          exact hin.trans ((List.suffix_cons u y).trans (List.suffix_append x _)).isInfix

theorem words_ne_nil {t : Text} (hne : t ≠ []) (hhead : ∀ u, t.head? = some u → isSpace u = false) :
    words t ≠ [] := by
  rcases exists_first_word t with hall | ⟨x, u, y, rfl, hx, hu⟩
  · rw [words_of_not_space hall, if_neg (by simpa using hne)]
    exact List.cons_ne_nil _ _
  · cases x with
    | nil => exact absurd hu (by rw [hhead u rfl]; decide)
    | cons v x =>
        rw [words_append_space _ hu, words_of_not_space hx]
        exact List.cons_ne_nil _ _

end FinSight
