import FinSight.Serial.Fingerprints

/-!
# What canonical forms tell apart

* `JsVal.Same` : equal up to the order of object keys, undefined and null, a bigint and its decimal string, a date and its
  ISO string;
* `norm_of_same`, `same_of_norm` : these are the values that `norm` identifies;
* `canonicalise_unambiguous`.
-/

namespace FinSight

/-! ## Equal values -/

def JsVal.isNull : JsVal → Bool
  | .undefined | .null => true
  | _ => false

/-- The string that a string, a bigint or a date is. -/
def JsVal.asText : JsVal → Option Text
  | .str t => some t
  | .bigint z => some (decimalInt z)
  | .date d => some d.isoString
  | _ => none

mutual

inductive JsVal.Same : JsVal → JsVal → Prop
  | null {v w : JsVal} : v.isNull = true → w.isNull = true → JsVal.Same v w
  | bool (b : Bool) : JsVal.Same (.bool b) (.bool b)
  | int (n : JsInteger) : JsVal.Same (.int n) (.int n)
  | text {v w : JsVal} {t : Text} : v.asText = some t → w.asText = some t → JsVal.Same v w
  | arr {vs ws : List JsVal} : SameAll vs ws → JsVal.Same (.arr vs) (.arr ws)
  | obj {fields fields' reordered : List (Text × JsVal)} : reordered.Perm fields' → SameFields fields reordered →
      JsVal.Same (.obj fields) (.obj fields')

inductive SameAll : List JsVal → List JsVal → Prop
  | nil : SameAll [] []
  | cons {v w : JsVal} {vs ws : List JsVal} : JsVal.Same v w → SameAll vs ws → SameAll (v :: vs) (w :: ws)

inductive SameFields : List (Text × JsVal) → List (Text × JsVal) → Prop
  | nil : SameFields [] []
  | cons {k : Text} {v w : JsVal} {fields fields' : List (Text × JsVal)} : JsVal.Same v w → SameFields fields fields' →
      SameFields ((k, v) :: fields) ((k, w) :: fields')

end

mutual

/-- No object has two fields of one key. -/
def JsVal.DistinctKeys : JsVal → Prop
  | .arr vs => JsVal.DistinctKeysAll vs
  | .obj fields => (fields.map Prod.fst).Nodup ∧ JsVal.DistinctKeysFields fields
  | _ => True

def JsVal.DistinctKeysAll : List JsVal → Prop
  | [] => True
  | v :: vs => v.DistinctKeys ∧ JsVal.DistinctKeysAll vs

def JsVal.DistinctKeysFields : List (Text × JsVal) → Prop
  | [] => True
  | (_, v) :: fields => v.DistinctKeys ∧ JsVal.DistinctKeysFields fields

end

/-! ## The order of keys -/

/-- The first units that differ decide. -/
theorem codeUnitLe_cons {u v : CodeUnit} {s t : Text} :
    codeUnitLe (u :: s) (v :: t) = true ↔ u < v ∨ (u = v ∧ codeUnitLe s t = true) := by
  rw [codeUnitLe]
  split
  · next h => exact ⟨fun _ => Or.inl h, fun _ => rfl⟩
  · next h =>
    split
    · next heq => exact ⟨fun hle => Or.inr ⟨heq, hle⟩, fun hle => (hle.resolve_left h).2⟩
    · next hne => exact ⟨(fun hle => by cases hle), fun hle => absurd (hle.resolve_left h).1 hne⟩

theorem codeUnitLe_total (s t : Text) : codeUnitLe s t = true ∨ codeUnitLe t s = true := by
  induction s generalizing t with
  | nil => exact Or.inl rfl
  | cons u s ih =>
      cases t with
      | nil => exact Or.inr rfl
      | cons v t =>
          rw [codeUnitLe_cons, codeUnitLe_cons]
          rcases Nat.lt_trichotomy u.toNat v.toNat with h | h | h
          · exact Or.inl (Or.inl h)
          · obtain rfl := UInt16.toNat_inj.mp h
            exact (ih t).imp (fun hle => Or.inr ⟨rfl, hle⟩) fun hle => Or.inr ⟨rfl, hle⟩
          · exact Or.inr (Or.inl h)

theorem codeUnitLe_trans {s t r : Text} (h : codeUnitLe s t = true) (h' : codeUnitLe t r = true) :
    codeUnitLe s r = true := by
  induction s generalizing t r with
  | nil => rfl
  | cons u s ih =>
      cases t with
      | nil => cases h
      | cons v t =>
          cases r with
          | nil => cases h'
          | cons w r =>
              rw [codeUnitLe_cons] at h h' ⊢
              rcases h with h | ⟨rfl, h⟩
              · rcases h' with h' | ⟨rfl, _⟩
                · exact Or.inl (UInt16.lt_trans h h')
                · exact Or.inl h
              · exact h'.imp_right fun ⟨heq, hle⟩ => ⟨heq, ih h hle⟩

theorem codeUnitLe_antisymm {s t : Text} (h : codeUnitLe s t = true) (h' : codeUnitLe t s = true) : s = t := by
  induction s generalizing t with
  | nil =>
      cases t with
      | nil => rfl
      | cons v t => cases h'
  | cons u s ih =>
      cases t with
      | nil => cases h
      | cons v t =>
          rw [codeUnitLe_cons] at h h'
          rcases h with h | ⟨rfl, h⟩
          · rcases h' with h' | ⟨rfl, _⟩
            · exact absurd h' (UInt16.lt_asymm h)
            · exact absurd h (UInt16.lt_irrefl _)
          · rw [ih h (h'.resolve_left (UInt16.lt_irrefl _)).2]

/-- Fields with distinct keys have one order. -/
theorem sortKeys_eq_of_perm {α : Type} {fields fields' : List (Text × α)} (h : fields.Perm fields')
    (hkeys : (fields.map Prod.fst).Nodup) : sortKeys fields = sortKeys fields' := by
  have hsorted : ∀ rows : List (Text × α), (sortKeys rows).Pairwise fun a b => codeUnitLe a.1 b.1 = true := by
    intro rows
    have htotal : Std.Total fun a b : Text × α => codeUnitLe a.1 b.1 = true := ⟨fun a b => codeUnitLe_total a.1 b.1⟩
    have htrans : IsTrans (Text × α) fun a b => codeUnitLe a.1 b.1 = true := ⟨fun _ _ _ => codeUnitLe_trans⟩
    exact List.pairwise_insertionSort _ rows
  have hperm : (sortKeys fields).Perm (sortKeys fields') :=
    ((List.perm_insertionSort _ fields).trans h).trans (List.perm_insertionSort _ fields').symm
  refine List.Perm.eq_of_pairwise (fun a b ha hb hab hba => ?_) (hsorted fields) (hsorted fields') hperm
  have hmem : ∀ c, c ∈ sortKeys fields → c ∈ fields := fun c => (List.perm_insertionSort _ fields).mem_iff.mp
  exact List.inj_on_of_nodup_map hkeys (hmem a ha) (hmem b (hperm.mem_iff.mpr hb)) (codeUnitLe_antisymm hab hba)

/-! ## Values that are the same -/

theorem norm_isNull {v : JsVal} (h : v.isNull = true) : v.norm = .null := by
  cases v with
  | undefined => rfl
  | null => rfl
  | bool _ | int _ | str _ | bigint _ | date _ | arr _ | obj _ => cases h

theorem norm_asText {v : JsVal} {t : Text} (h : v.asText = some t) : v.norm = .str t := by
  cases v with
  | str t' => rw [JsVal.norm, Option.some.inj h]
  | bigint z => rw [JsVal.norm, Option.some.inj h]
  | date d => rw [JsVal.norm, Option.some.inj h]
  | undefined | null | bool _ | int _ | arr _ | obj _ => cases h

theorem distinctKeysFields_iff (fields : List (Text × JsVal)) :
    JsVal.DistinctKeysFields fields ↔ ∀ f ∈ fields, f.2.DistinctKeys := by
  induction fields with
  | nil => simp [JsVal.DistinctKeysFields]
  | cons f fields ih => rw [JsVal.DistinctKeysFields, ih, List.forall_mem_cons]

theorem normFields_keys (fields : List (Text × JsVal)) :
    (JsVal.normFields fields).map Prod.fst = fields.map Prod.fst := by
  rw [normFields_eq, List.map_map]
  rfl

mutual

theorem norm_of_same : ∀ {v w : JsVal}, v.Same w → v.DistinctKeys → w.DistinctKeys → v.norm = w.norm
  | _, _, .null hv hw, _, _ => (norm_isNull hv).trans (norm_isNull hw).symm
  | _, _, .bool _, _, _ => rfl
  | _, _, .int _, _, _ => rfl
  | _, _, .text hv hw, _, _ => (norm_asText hv).trans (norm_asText hw).symm
  | _, _, .arr h, hv, hw => congrArg Canon.arr (normAll_of_same h hv hw)
  | _, _, @JsVal.Same.obj fields fields' reordered hperm h, hv, hw => by
      rw [JsVal.norm, JsVal.norm]
      have hreordered : JsVal.DistinctKeysFields reordered := by
        rw [distinctKeysFields_iff]
        exact fun f hf => (distinctKeysFields_iff fields').mp hw.2 f (hperm.mem_iff.mp hf)
      rw [normFields_of_same h hv.2 hreordered]
      refine congrArg Canon.obj (sortKeys_eq_of_perm ?_ ?_)
      · rw [normFields_eq, normFields_eq]
        exact hperm.map _
      · rw [normFields_keys]
        exact (hperm.map Prod.fst).nodup_iff.mpr hw.1

theorem normAll_of_same : ∀ {vs ws : List JsVal}, SameAll vs ws → JsVal.DistinctKeysAll vs → JsVal.DistinctKeysAll ws →
    JsVal.normAll vs = JsVal.normAll ws
  | _, _, .nil, _, _ => rfl
  | _, _, .cons h hs, hv, hw => by
      rw [JsVal.normAll, JsVal.normAll, norm_of_same h hv.1 hw.1, normAll_of_same hs hv.2 hw.2]

theorem normFields_of_same : ∀ {fields fields' : List (Text × JsVal)}, SameFields fields fields' →
    JsVal.DistinctKeysFields fields → JsVal.DistinctKeysFields fields' →
    JsVal.normFields fields = JsVal.normFields fields'
  | _, _, .nil, _, _ => rfl
  | _, _, .cons h hs, hv, hw => by
      rw [JsVal.normFields, JsVal.normFields, norm_of_same h hv.1 hw.1, normFields_of_same hs hv.2 hw.2]

end

theorem isNull_of_norm {v : JsVal} (h : v.norm = .null) : v.isNull = true := by
  cases v with
  | undefined | null => rfl
  | bool _ | int _ | str _ | bigint _ | date _ | arr _ | obj _ => cases h

theorem asText_of_norm {v : JsVal} {t : Text} (h : v.norm = .str t) : v.asText = some t := by
  cases v with
  | str _ | bigint _ | date _ =>
      rw [JsVal.norm, Canon.str.injEq] at h
      rw [JsVal.asText, h]
  | undefined | null | bool _ | int _ | arr _ | obj _ => cases h

/-- The fields of the second object, in the order of the first one. -/
theorem exists_reordered {fields fields' : List (Text × JsVal)} (h : (JsVal.obj fields).norm = (JsVal.obj fields').norm) :
    ∃ reordered : List (Text × JsVal), reordered.Perm fields' ∧ JsVal.normFields fields = JsVal.normFields reordered := by
  have hperm := perm_of_norm h
  rw [normFields_eq fields'] at hperm
  have hcomp := congrFun₂ (List.eq_map_comp_perm fun f : Text × JsVal => (f.1, f.2.norm)) (JsVal.normFields fields) fields'
  obtain ⟨reordered, hmap, hreordered⟩ := hcomp.mpr hperm
  exact ⟨reordered, hreordered, hmap.trans (normFields_eq reordered).symm⟩

mutual

theorem same_of_norm : ∀ {v w : JsVal}, v.norm = w.norm → v.Same w
  | .undefined, _, h => .null rfl (isNull_of_norm h.symm)
  | .null, _, h => .null rfl (isNull_of_norm h.symm)
  | .str _, _, h => .text rfl (asText_of_norm h.symm)
  | .bigint _, _, h => .text rfl (asText_of_norm h.symm)
  | .date _, _, h => .text rfl (asText_of_norm h.symm)
  | .bool b, w, h => by
      cases w with
      | bool b' =>
          cases h
          exact .bool b
      | undefined | null | int _ | str _ | bigint _ | date _ | arr _ | obj _ => cases h
  | .int n, w, h => by
      cases w with
      | int n' =>
          cases h
          exact .int n
      | undefined | null | bool _ | str _ | bigint _ | date _ | arr _ | obj _ => cases h
  | .arr vs, w, h => by
      cases w with
      | arr ws => exact .arr (sameAll_of_norm (Canon.arr.inj h))
      | undefined | null | bool _ | int _ | str _ | bigint _ | date _ | obj _ => cases h
  | .obj fields, w, h => by
      cases w with
      | obj fields' =>
          obtain ⟨reordered, hperm, hfields⟩ := exists_reordered h
          exact .obj hperm (sameFields_of_norm hfields)
      | undefined | null | bool _ | int _ | str _ | bigint _ | date _ | arr _ => cases h

theorem sameAll_of_norm : ∀ {vs ws : List JsVal}, JsVal.normAll vs = JsVal.normAll ws → SameAll vs ws
  | [], [], _ => .nil
  | [], _ :: _, h => by cases h
  | _ :: _, [], h => by cases h
  | _ :: _, _ :: _, h => .cons (same_of_norm (List.cons.inj h).1) (sameAll_of_norm (List.cons.inj h).2)

theorem sameFields_of_norm : ∀ {fields fields' : List (Text × JsVal)},
    JsVal.normFields fields = JsVal.normFields fields' → SameFields fields fields'
  | [], [], _ => .nil
  | [], _ :: _, h => by cases h
  | _ :: _, [], h => by cases h
  | (_, _) :: _, (_, _) :: _, h => by
      obtain ⟨hfirst, hrest⟩ := List.cons.inj h
      obtain ⟨rfl, hvalue⟩ := Prod.mk.inj hfirst
      exact .cons (same_of_norm hvalue) (sameFields_of_norm hrest)

end

/-- **Canonical forms are unambiguous.** Two values have one canonical form exactly when they are the same up to the order
of keys, undefined and null, bigints and their decimals, dates and their ISO strings; two bodies of journal entries, or two
payment requests, only when their fields are equal. -/
theorem canonicalise_unambiguous :
    (∀ v w : JsVal, v.DistinctKeys → w.DistinctKeys → (canonicalise v = canonicalise w ↔ v.Same w)) ∧
      (∀ data data' : EntryData, canonicalise data.toJs = canonicalise data'.toJs → data = data') ∧
      ∀ r r' : PaymentRequest, canonicalise r.toJs = canonicalise r'.toJs → r.Same r' := by
  refine ⟨fun v w hv hw => ⟨fun h => same_of_norm (norm_eq_of_canonicalise_eq h), fun h => ?_⟩,
    fun data data' h => EntryData.eq_of_print Function.injective_id h,
    fun r r' h => PaymentRequest.same_of_print Function.injective_id h⟩
  rw [canonicalise_eq_render, canonicalise_eq_render, norm_of_same h hv hw]

/-- Keys in another order, a bigint and its decimal, and a date and its ISO string have one canonical form. -/
theorem canonicalise_unambiguous_pair :
    JsVal.Same (.obj [(text "b", .bigint 7), (text "a", .arr [.undefined, .date ⟨0⟩])])
      (.obj [(text "a", .arr [.null, .str (text "1970-01-01T00:00:00.000Z")]), (text "b", .str (text "7"))]) := by
  have hv : JsVal.DistinctKeys (.obj [(text "b", .bigint 7), (text "a", .arr [.undefined, .date ⟨0⟩])]) := by
    refine ⟨by decide, ?_⟩
    simp [JsVal.DistinctKeysFields, JsVal.DistinctKeys, JsVal.DistinctKeysAll]
  have hw : JsVal.DistinctKeys
      (.obj [(text "a", .arr [.null, .str (text "1970-01-01T00:00:00.000Z")]), (text "b", .str (text "7"))]) := by
    refine ⟨by decide, ?_⟩
    simp [JsVal.DistinctKeysFields, JsVal.DistinctKeys, JsVal.DistinctKeysAll]
  exact (canonicalise_unambiguous.1 _ _ hv hw).mp (by decide +kernel)

end FinSight
