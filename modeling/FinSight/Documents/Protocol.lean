import FinSight.Documents.Schema
import FinSight.ReadCommitted.Rules

/-!
# What the locks of the document tables protect

* `observe db ℓ` : a document's lock protects its row, its file and its chunks; an entry of the unique index on tenant and
  hash, whether it is taken; the locks on files and chunks protect nothing that the document's lock does not;
* `Write.needs`, `observe_apply` : a write is invisible to the holders of locks that it does not need;
* `protocol grow` : `grow` is how far the database may have moved between two statements.
-/

namespace FinSight.Documents

open ReadCommitted

structure Observation where
  taken : Bool
  documents : List Document
  files : List DocumentFile
  chunks : List DocumentChunk

def observe (db : Db) : Lock → Observation
  | .document id =>
      { taken := false
        documents := db.documents.filter fun d => d.id = id
        files := db.files.filter fun f => f.documentId = id
        chunks := db.chunks.filter fun c => c.documentId = id }
  | .documentKey t hash => ⟨db.documents.any fun d => d.tenantId = t && d.contentSha256 = hash, [], [], []⟩
  | .file _ | .chunk _ | .chunkOrdinal _ _ => ⟨false, [], [], []⟩

abbrev protocol (grow : Db → Db → Prop) [IsPreorder Db grow] : Protocol Db Lock := .observing observe grow

/-- The locks that a transaction holds when it makes a write. -/
def Write.needs (db : Db) : Write → List Lock
  | .document row => [.document row.id, .documentKey row.tenantId row.contentSha256]
  | .file row => [.document row.documentId]
  | .chunk row => [.document row.documentId]
  | .updateDocument id _ => [.document id]
  | .deleteChunks id _ => [.document id]
  | .deleteFile id _ => [.document id]
  | .deleteDocument id t =>
      .document id :: (db.documents.filter (Document.is id t)).map fun d => .documentKey d.tenantId d.contentSha256

theorem setDocument_filter (id : Uuid) (state : DocumentState) (rows : List Document) (u : Uuid) :
    (setDocument id state rows).filter (fun d => d.id = u) = setDocument id state (rows.filter fun d => d.id = u) := by
  unfold setDocument
  induction rows with
  | nil => rfl
  | cons d rows ih =>
      have hkeep : (if d.id = id then d.set state else d).id = d.id := by split <;> rfl
      rw [List.map_cons, List.filter_cons, List.filter_cons, ih, hkeep]
      split <;> rfl

theorem setDocument_ne {id : Uuid} {state : DocumentState} {rows : List Document} (h : ∀ d ∈ rows, d.id ≠ id) :
    setDocument id state rows = rows := by
  rw [setDocument]
  conv_rhs => rw [← List.map_id rows]
  exact List.map_congr_left fun d hd => if_neg (h d hd)

theorem setDocument_any (id : Uuid) (state : DocumentState) (rows : List Document) (t : Uuid) (hash : Text) :
    (setDocument id state rows).any (fun d => d.tenantId = t && d.contentSha256 = hash) =
      rows.any fun d => d.tenantId = t && d.contentSha256 = hash := by
  rw [setDocument, List.any_map]
  congr 1
  funext d
  dsimp only [Function.comp]
  split <;> rfl

/-- Rows that go are none of those looked at. -/
theorem filter_filter_not {α : Type} {rows : List α} {p q : α → Bool} (h : ∀ r ∈ rows, p r = true → q r = false) :
    (rows.filter fun r => !q r).filter p = rows.filter p := by
  rw [List.filter_filter]
  refine List.filter_congr fun r hr => ?_
  cases hp : p r with
  | false => rfl
  | true => simp [h r hr hp]

theorem any_filter_not {α : Type} {rows : List α} {p q : α → Bool} (h : ∀ r ∈ rows, p r = true → q r = false) :
    (rows.filter fun r => !q r).any p = rows.any p := by
  rw [Bool.eq_iff_iff, List.any_eq_true, List.any_eq_true]
  constructor
  · rintro ⟨r, hr, hp⟩
    exact ⟨r, (List.mem_filter.mp hr).1, hp⟩
  · rintro ⟨r, hr, hp⟩
    exact ⟨r, List.mem_filter.mpr ⟨hr, by simp [h r hr hp]⟩, hp⟩

/-- A write is invisible to the holders of locks that it does not need. -/
theorem observe_apply (db : Db) (w : Write) (ℓ : Lock) (h : ℓ ∉ w.needs db) :
    observe (engine.apply db w) ℓ = observe db ℓ := by
  cases ℓ with
  | file _ => rfl
  | chunk _ => rfl
  | chunkOrdinal _ _ => rfl
  | document u =>
      cases w with
      | document row =>
          have hid : row.id ≠ u := fun hid => h (by simp [Write.needs, hid])
          simp [observe, Db.apply, hid]
      | file row =>
          have hid : row.documentId ≠ u := fun hid => h (by simp [Write.needs, hid])
          simp [observe, Db.apply, hid]
      | chunk row =>
          have hid : row.documentId ≠ u := fun hid => h (by simp [Write.needs, hid])
          simp [observe, Db.apply, hid]
      | updateDocument id state =>
          have hid : u ≠ id := fun hid => h (by simp [Write.needs, hid])
          have hrows : ∀ d ∈ db.documents.filter (fun d => d.id = u), d.id ≠ id := by
            intro d hd
            have := of_decide_eq_true (List.mem_filter.mp hd).2
            exact this ▸ hid
          simp only [observe, engine_apply, Db.apply, setDocument_filter, setDocument_ne hrows]
      | deleteChunks id t =>
          have hid : u ≠ id := fun hid => h (by simp [Write.needs, hid])
          have hrows : ∀ c ∈ db.chunks, decide (c.documentId = u) = true → c.of id t = false := by
            intro c _ hc
            simp [DocumentChunk.of, of_decide_eq_true hc, hid]
          simp only [observe, engine_apply, Db.apply, filter_filter_not hrows]
      | deleteFile id t =>
          have hid : u ≠ id := fun hid => h (by simp [Write.needs, hid])
          have hrows : ∀ f ∈ db.files, decide (f.documentId = u) = true → f.of id t = false := by
            intro f _ hf
            simp [DocumentFile.of, of_decide_eq_true hf, hid]
          simp only [observe, engine_apply, Db.apply, filter_filter_not hrows]
      | deleteDocument id t =>
          have hid : u ≠ id := fun hid => h (by simp [Write.needs, hid])
          have hdocs : ∀ d ∈ db.documents, decide (d.id = u) = true → d.is id t = false := by
            intro d _ hd
            simp [Document.is, of_decide_eq_true hd, hid]
          have hfiles : ∀ f ∈ db.files, decide (f.documentId = u) = true → f.of id t = false := by
            intro f _ hf
            simp [DocumentFile.of, of_decide_eq_true hf, hid]
          have hchunks : ∀ c ∈ db.chunks, decide (c.documentId = u) = true → c.of id t = false := by
            intro c _ hc
            simp [DocumentChunk.of, of_decide_eq_true hc, hid]
          simp only [observe, engine_apply, Db.apply, filter_filter_not hdocs, filter_filter_not hfiles,
            filter_filter_not hchunks]
  | documentKey t hash =>
      cases w with
      | document row =>
          have hkey : ¬ (row.tenantId = t ∧ row.contentSha256 = hash) :=
            fun hkey => h (by simp [Write.needs, hkey.1, hkey.2])
          simp only [observe, engine_apply, Db.apply, List.any_append, List.any_cons, List.any_nil]
          simp [hkey]
      | updateDocument id state => simp only [observe, engine_apply, Db.apply, setDocument_any]
      | deleteDocument id t' =>
          have hrows : ∀ d ∈ db.documents, (decide (d.tenantId = t) && decide (d.contentSha256 = hash)) = true →
              d.is id t' = false := by
            intro d hd hkey
            rw [Bool.and_eq_true, decide_eq_true_iff, decide_eq_true_iff] at hkey
            by_contra his
            refine h (List.mem_cons_of_mem _ (List.mem_map.mpr ⟨d, List.mem_filter.mpr ⟨hd, ?_⟩, ?_⟩))
            · exact Bool.eq_true_of_not_eq_false his
            · rw [hkey.1, hkey.2]
          simp only [observe, engine_apply, Db.apply, any_filter_not hrows]
      | _ => rfl

end FinSight.Documents
