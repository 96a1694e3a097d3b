import FinSight.Documents.Retrieval
import FinSight.Lists.Best
import FinSight.ReadCommitted.Alone
import Mathlib.Data.Prod.Lex

/-!
# The nearest chunks

* `roundHalfEven_mono`, `nearestDouble_mono` : rounding keeps the order;
* `Ready` : a chunk of a ready document of a tenant; `mem_joinedChunks` : the rows of the join;
* `best_of_searchChunks` : the hits have the best scores of all chunks of ready documents.
-/

namespace FinSight.Documents

open ReadCommitted

/-! ## Rounding -/

theorem floor_le_roundHalfEven (x : Rat) : ⌊x⌋ ≤ roundHalfEven x ∧ roundHalfEven x ≤ ⌊x⌋ + 1 := by
  unfold roundHalfEven
  split <;> omega

theorem roundHalfEven_mono {x y : Rat} (h : x ≤ y) : roundHalfEven x ≤ roundHalfEven y := by
  have hfloor : ⌊x⌋ ≤ ⌊y⌋ := Int.floor_mono h
  obtain ⟨-, hx⟩ := floor_le_roundHalfEven x
  obtain ⟨hy, -⟩ := floor_le_roundHalfEven y
  rcases hfloor.lt_or_eq with hlt | heq
  · omega
  · unfold roundHalfEven
    rw [← heq]
    split
    · split <;> omega
    · next hup =>
      rw [not_or, not_and] at hup
      -- the fraction of `y` is not less
      rw [if_neg]
      rintro (hlt | ⟨hhalf, heven⟩)
      · exact hup.1 (by linarith)
      · exact hup.2 (le_antisymm (by linarith) (le_of_not_gt hup.1)) heven

theorem roundHalfEven_intCast (n : Int) : roundHalfEven n = n := by
  rw [roundHalfEven, Int.floor_intCast, sub_self]
  exact if_pos (Or.inl (by norm_num))

/-- The distance of the doubles about `x`. -/
def ulpOf (x : Rat) : Rat := 2 ^ (Int.log 2 |x| - 52)

theorem ulpOf_pos (x : Rat) : 0 < ulpOf x := zpow_pos two_pos _

theorem nearestDouble_eq {x : Rat} (h : x ≠ 0) : nearestDouble x = roundHalfEven (x / ulpOf x) * ulpOf x := if_neg h

/-- Of one binade. -/
theorem nearestDouble_mono_of_log {x y : Rat} (h : x ≤ y) (hx : x ≠ 0) (hy : y ≠ 0) (hlog : Int.log 2 |x| = Int.log 2 |y|) :
    nearestDouble x ≤ nearestDouble y := by
  have hulp : ulpOf x = ulpOf y := by rw [ulpOf, ulpOf, hlog]
  rw [nearestDouble_eq hx, nearestDouble_eq hy, hulp]
  refine mul_le_mul_of_nonneg_right ?_ (ulpOf_pos y).le
  have hdiv : x / ulpOf y ≤ y / ulpOf y := div_le_div_of_nonneg_right h (ulpOf_pos y).le
  exact_mod_cast roundHalfEven_mono hdiv

theorem grid_le_nearestDouble {x : Rat} (hx : x ≠ 0) {n : Int} (h : n * ulpOf x ≤ x) : n * ulpOf x ≤ nearestDouble x := by
  rw [nearestDouble_eq hx]
  refine mul_le_mul_of_nonneg_right ?_ (ulpOf_pos x).le
  have hround : roundHalfEven n ≤ roundHalfEven (x / ulpOf x) := roundHalfEven_mono ((le_div_iff₀ (ulpOf_pos x)).mpr h)
  rw [roundHalfEven_intCast] at hround
  exact_mod_cast hround

theorem nearestDouble_le_grid {x : Rat} (hx : x ≠ 0) {n : Int} (h : x ≤ n * ulpOf x) : nearestDouble x ≤ n * ulpOf x := by
  rw [nearestDouble_eq hx]
  refine mul_le_mul_of_nonneg_right ?_ (ulpOf_pos x).le
  have hround : roundHalfEven (x / ulpOf x) ≤ roundHalfEven n := roundHalfEven_mono ((div_le_iff₀ (ulpOf_pos x)).mpr h)
  rw [roundHalfEven_intCast] at hround
  exact_mod_cast hround

theorem nearestDouble_nonneg {x : Rat} (h : 0 ≤ x) : 0 ≤ nearestDouble x := by
  by_cases hx : x = 0
  · rw [hx]
    exact le_of_eq (if_pos rfl).symm
  · simpa using grid_le_nearestDouble hx (n := 0) (by simpa using h)

theorem nearestDouble_nonpos {x : Rat} (h : x ≤ 0) : nearestDouble x ≤ 0 := by
  by_cases hx : x = 0
  · rw [hx]
    exact le_of_eq (if_pos rfl)
  · simpa using nearestDouble_le_grid hx (n := 0) (by simpa using h)

/-- Powers of two are on the grid of the doubles below and above them. -/
theorem grid_pow (x : Rat) (n : Nat) : (((2 : Int) ^ (52 + n) : Int) : Rat) * ulpOf x = 2 ^ (Int.log 2 |x| + n) := by
  have htwo : (2 : Rat) ≠ 0 := two_ne_zero
  push_cast
  rw [ulpOf, ← zpow_natCast, ← zpow_add₀ htwo]
  congr 1
  push_cast
  omega

/-- Between two powers of two, and so is the double. -/
theorem nearestDouble_bounds {x : Rat} (hx : x ≠ 0) :
    (0 < x → (2 : Rat) ^ Int.log 2 |x| ≤ nearestDouble x ∧ nearestDouble x ≤ 2 ^ (Int.log 2 |x| + 1)) ∧
      (x < 0 → -(2 : Rat) ^ (Int.log 2 |x| + 1) ≤ nearestDouble x ∧ nearestDouble x ≤ -2 ^ Int.log 2 |x|) := by
  have hlow : (2 : Rat) ^ Int.log 2 |x| ≤ |x| := Int.zpow_log_le_self (b := 2) one_lt_two (abs_pos.mpr hx)
  have hhigh : |x| < (2 : Rat) ^ (Int.log 2 |x| + 1) := Int.lt_zpow_succ_log_self (b := 2) one_lt_two |x|
  have hgrid := grid_pow x 0
  have hgrid' := grid_pow x 1
  rw [Nat.add_zero, Nat.cast_zero, add_zero] at hgrid
  rw [Nat.cast_one] at hgrid'
  constructor
  · intro hpos
    have habs := abs_of_pos hpos
    rw [← hgrid, ← hgrid']
    exact ⟨grid_le_nearestDouble hx (hgrid.le.trans (hlow.trans_eq habs)),
      nearestDouble_le_grid hx ((habs.symm.trans_lt hhigh).le.trans_eq hgrid'.symm)⟩
  · intro hneg
    have habs := abs_of_neg hneg
    rw [← hgrid, ← hgrid', ← neg_mul, ← neg_mul, ← Int.cast_neg, ← Int.cast_neg]
    refine ⟨grid_le_nearestDouble hx ?_, nearestDouble_le_grid hx ?_⟩
    · rw [Int.cast_neg, neg_mul, hgrid']
      linarith
    · rw [Int.cast_neg, neg_mul, hgrid]
      linarith

theorem nearestDouble_mono {x y : Rat} (h : x ≤ y) : nearestDouble x ≤ nearestDouble y := by
  rcases le_or_gt x 0 with hx | hx
  · rcases le_or_gt 0 y with hy | hy
    · exact (nearestDouble_nonpos hx).trans (nearestDouble_nonneg hy)
    · -- both are negative: the exponent goes down
      have hxneg : x < 0 := h.trans_lt hy
      have hlog : Int.log 2 |y| ≤ Int.log 2 |x| :=
        Int.log_mono_right (abs_pos.mpr hy.ne) (by rw [abs_of_neg hy, abs_of_neg hxneg]; exact neg_le_neg h)
      rcases hlog.lt_or_eq with hlt | heq
      · have hpow : (2 : Rat) ^ (Int.log 2 |y| + 1) ≤ 2 ^ Int.log 2 |x| := zpow_le_zpow_right₀ one_le_two hlt
        exact ((nearestDouble_bounds hxneg.ne).2 hxneg).2.trans
          ((neg_le_neg hpow).trans ((nearestDouble_bounds hy.ne).2 hy).1)
      · exact nearestDouble_mono_of_log h hxneg.ne hy.ne heq.symm
  · have hy : 0 < y := hx.trans_le h
    have hlog : Int.log 2 |x| ≤ Int.log 2 |y| :=
      Int.log_mono_right (abs_pos.mpr hx.ne') (by rw [abs_of_pos hx, abs_of_pos hy]; exact h)
    rcases hlog.lt_or_eq with hlt | heq
    · have hpow : (2 : Rat) ^ (Int.log 2 |x| + 1) ≤ 2 ^ Int.log 2 |y| := zpow_le_zpow_right₀ one_le_two hlt
      exact ((nearestDouble_bounds hx.ne').1 hx).2.trans (hpow.trans ((nearestDouble_bounds hy.ne').1 hy).1)
    · exact nearestDouble_mono_of_log h hx.ne' hy.ne' heq

/-! ## The order of the hits -/

/-- A `NaN` comes last. -/
def place (d : Option Rat) : WithTop Rat := d.elim ⊤ fun d => d

/-- Of equal distances the lower id comes first. -/
def rank (h : Hit × Option Rat) : Lex (WithTop Rat × Nat) := toLex (place h.2, h.1.chunkId.bits.toNat)

theorem distanceLt_iff (d d' : Option Rat) : distanceLt d d' = true ↔ place d < place d' := by
  cases d with
  | none =>
      refine iff_of_false (fun h => ?_) not_top_lt
      cases d' <;> cases h
  | some d =>
      cases d' with
      | none => exact iff_of_true rfl (WithTop.coe_lt_top d)
      | some d' => exact (decide_eq_true_iff (p := d < d')).trans WithTop.coe_lt_coe.symm

theorem place_injective : Function.Injective place := by
  intro d d' h
  cases d <;> cases d'
  · rfl
  · exact absurd h WithTop.top_ne_coe
  · exact absurd h WithTop.coe_ne_top
  · exact congrArg some (WithTop.coe_injective h)

theorem hitLe_iff (h h' : Hit × Option Rat) : hitLe h h' = true ↔ rank h ≤ rank h' := by
  unfold rank
  rw [Prod.Lex.toLex_le_toLex, hitLe, Bool.or_eq_true, Bool.and_eq_true, beq_iff_eq, decide_eq_true_iff, distanceLt_iff,
    place_injective.eq_iff]

/-- The better score first; a `NaN` is no better than anything. -/
def scoreGe (h h' : Hit × Option Rat) : Prop := ∀ s' ∈ h'.2, ∃ s ∈ h.2, s' ≤ s

theorem scoreGe_refl (h : Hit × Option Rat) : scoreGe h h := fun s hs => ⟨s, hs, le_refl s⟩

/-- A hit with the score in place of the distance. -/
def scored (h : Hit × Option Rat) : Hit × Option Rat := (h.1, scoreOf h.2)

theorem scoreGe_of_hitLe {h h' : Hit × Option Rat} (hle : hitLe h h' = true) : scoreGe (scored h) (scored h') := by
  rw [hitLe_iff] at hle
  unfold rank at hle
  rw [Prod.Lex.toLex_le_toLex] at hle
  have hdistance : place h.2 ≤ place h'.2 := by
    rcases hle with hlt | ⟨heq, -⟩
    · exact hlt.le
    · exact heq.le
  obtain ⟨c, d⟩ := h
  obtain ⟨c', d'⟩ := h'
  intro s' hs'
  obtain ⟨e', rfl, rfl⟩ := Option.map_eq_some_iff.mp hs'
  cases d with
  | none => exact absurd hdistance (WithTop.not_top_le_coe e')
  | some e =>
      refine ⟨_, rfl, nearestDouble_mono ?_⟩
      have he : e ≤ e' := WithTop.coe_le_coe.mp hdistance
      linarith

/-! ## The search -/

/-- A chunk of a ready document of the tenant. -/
structure Ready (db : Db) (tenantId : Uuid) (c : DocumentChunk) (d : Document) : Prop where
  chunk : c ∈ db.chunks
  document : d ∈ db.documents
  of : d.id = c.documentId
  chunkTenant : c.tenantId = tenantId
  documentTenant : d.tenantId = tenantId
  ready : d.status = .ready

section Search
variable {V : Pgvector} {db : Db}

theorem mem_joinedChunks {tenantId : Uuid} {vector : Embedding} {h : Hit × Option Rat} :
    h ∈ joinedChunks V db tenantId vector ↔
      ∃ c d, Ready db tenantId c d ∧ h = (hit c d, V.distance c.embedding vector) := by
  unfold joinedChunks
  constructor
  · intro hmem
    obtain ⟨c, hc, hmem⟩ := List.mem_flatMap.mp hmem
    obtain ⟨d, hd, rfl⟩ := List.mem_map.mp hmem
    obtain ⟨hc, hctenant⟩ := List.mem_filter.mp hc
    obtain ⟨hd, hmatch⟩ := List.mem_filter.mp hd
    simp only [Document.is, Bool.and_eq_true, decide_eq_true_iff] at hmatch hctenant
    obtain ⟨⟨⟨hid, -⟩, htenant⟩, hready⟩ := hmatch
    exact ⟨c, d, ⟨hc, hd, hid, hctenant, htenant, hready⟩, rfl⟩
  · rintro ⟨c, d, hready, rfl⟩
    refine List.mem_flatMap.mpr ⟨c, List.mem_filter.mpr ⟨hready.chunk, decide_eq_true hready.chunkTenant⟩,
      List.mem_map.mpr ⟨d, List.mem_filter.mpr ⟨hready.document, ?_⟩, rfl⟩⟩
    simp [Document.is, hready.of, hready.chunkTenant, hready.documentTenant, hready.ready]

/-- All that a search may find, with the scores. -/
def candidates (V : Pgvector) (db : Db) (tenantId : Uuid) (vector : Embedding) : List (Hit × Option Rat) :=
  (joinedChunks V db tenantId vector).map scored

/-- **The hits have the best scores** of all chunks of ready documents of the tenant. -/
theorem best_of_searchChunks {r : SearchRequest} {now : Nat} {choices : Nat → Choice} {hits : List (Hit × Option Rat)}
    (h : ((searchChunks V r).alone Documents.engine now db [] choices).1 = .ok hits) :
    ∃ vector, V.input r.vector = .ok vector ∧ Best scoreGe r.limit (candidates V db r.tenantId vector) hits := by
  unfold searchChunks at h
  split at h
  · cases h
  · cases hinput : V.input r.vector with
    | error state =>
        have herror : selectChunks V r ⟨now, choices 0⟩ (Documents.engine.view [] db) = .error (.sql state) := by
          unfold selectChunks
          rw [hinput]
        rw [Program.alone_error herror] at h
        cases h
    | ok vector =>
        have hdone : selectChunks V r ⟨now, choices 0⟩ (Documents.engine.view [] db) =
            .done (((joinedChunks V db r.tenantId vector).insertionSort fun h h' => hitLe h h').take r.limit) [] [] [] := by
          unfold selectChunks
          rw [hinput]
          rfl
        rw [Program.alone_statement hdone] at h
        have htotal : Std.Total fun h h' : Hit × Option Rat => hitLe h h' = true :=
          ⟨fun a b => by rw [hitLe_iff, hitLe_iff]; exact le_total _ _⟩
        have htrans : IsTrans (Hit × Option Rat) fun h h' => hitLe h h' = true :=
          ⟨fun a b c => by rw [hitLe_iff, hitLe_iff, hitLe_iff]; exact le_trans⟩
        refine ⟨vector, rfl, ?_⟩
        rw [← Except.ok.inj h]
        have hbest := best_take (r := fun h h' : Hit × Option Rat => hitLe h h' = true) r.limit (joinedChunks V db r.tenantId vector)
        exact hbest.map fun _ _ => scoreGe_of_hitLe

end Search

end FinSight.Documents
