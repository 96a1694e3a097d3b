import FinSight.ReadCommitted.Isolation
import Mathlib.Data.Sum.Basic

/-!
# Two databases side by side

Transactions that use one of two databases, under one clock and one set of locks.

* `Engine.prod` : the databases as a pair;
* `Program.left`, `Program.right` : a transaction of either;
* `Division.prod` : both are divided among the same owners; `Confined.left`, `Confined.right` : what is confined stays so.
-/

namespace ReadCommitted

variable {Db Db₁ Db₂ W W₁ W₂ L L₁ L₂ E C T α : Type}

def Reply.map (f : W₁ → W₂) (g : L₁ → L₂) : Reply W₁ L₁ E α → Reply W₂ L₂ E α
  | .error e => .error e
  | .done r ws ls waits => .done r (ws.map f) (ls.map g) (waits.map g)

/-- The constraints of the first database are checked before those of the second. -/
def Engine.prod (G₁ : Engine Db₁ W₁ E) (G₂ : Engine Db₂ W₂ E) : Engine (Db₁ × Db₂) (W₁ ⊕ W₂) E where
  apply db w := w.elim (fun w => (G₁.apply db.1 w, db.2)) fun w => (db.1, G₂.apply db.2 w)
  deferred db log :=
    (G₁.deferred db.1 (log.filterMap Sum.getLeft?)).or (G₂.deferred db.2 (log.filterMap Sum.getRight?))

namespace Program

def left : Program Db₁ W₁ L₁ E C α → Program (Db₁ × Db₂) (W₁ ⊕ W₂) (L₁ ⊕ L₂) E C α
  | .ret a => .ret a
  | .throw e => .throw e
  | .call s k => .call (fun ctx db => (s ctx db.1).map Sum.inl Sum.inl) fun r => (k r).left

def right : Program Db₂ W₂ L₂ E C α → Program (Db₁ × Db₂) (W₁ ⊕ W₂) (L₁ ⊕ L₂) E C α
  | .ret a => .ret a
  | .throw e => .throw e
  | .call s k => .call (fun ctx db => (s ctx db.2).map Sum.inr Sum.inr) fun r => (k r).right

end Program

variable {G₁ : Engine Db₁ W₁ E} {G₂ : Engine Db₂ W₂ E}

def Division.prod (D₁ : Division G₁ C T) (D₂ : Division G₂ C T) : Division (G₁.prod G₂) C T where
  share t db := (D₁.share t db.1, D₂.share t db.2)
  sound db := D₁.sound db.1 ∧ D₂.sound db.2
  owns t w := w.elim (D₁.owns t) (D₂.owns t)
  supplies t c := D₁.supplies t c ∧ D₂.supplies t c
  sound_apply := by
    intro t db w hdb hw
    cases w with
    | inl w => exact ⟨D₁.sound_apply hdb.1 hw, hdb.2⟩
    | inr w => exact ⟨hdb.1, D₂.sound_apply hdb.2 hw⟩
  share_own := by
    intro t db w hdb hw
    cases w with
    | inl w => exact congrArg (·, D₂.share t db.2) (D₁.share_own hdb.1 hw)
    | inr w => exact congrArg (D₁.share t db.1, ·) (D₂.share_own hdb.2 hw)
  share_other := by
    intro t u db w hdb hw hne
    cases w with
    | inl w => exact congrArg (·, D₂.share t db.2) (D₁.share_other hdb.1 hw hne)
    | inr w => exact congrArg (D₁.share t db.1, ·) (D₂.share_other hdb.2 hw hne)
  deferred := by
    intro t db log hdb hlog
    have hleft : D₁.OwnsAll t (log.filterMap Sum.getLeft?) := by
      intro w hw
      obtain ⟨w', hw', hget⟩ := List.mem_filterMap.mp hw
      rw [Sum.getLeft?_eq_some_iff] at hget
      have howns := hlog w' hw'
      rwa [hget] at howns
    have hright : D₂.OwnsAll t (log.filterMap Sum.getRight?) := by
      intro w hw
      obtain ⟨w', hw', hget⟩ := List.mem_filterMap.mp hw
      rw [Sum.getRight?_eq_some_iff] at hget
      have howns := hlog w' hw'
      rwa [hget] at howns
    show (G₁.deferred (D₁.share t db.1) _).or (G₂.deferred (D₂.share t db.2) _) = _
    rw [D₁.deferred hdb.1 hleft, D₂.deferred hdb.2 hright]
    rfl

namespace Program
variable {D₁ : Division G₁ C T} {D₂ : Division G₂ C T} {t : T} {P : α → Prop}

theorem Confined.left {p : Program Db₁ W₁ L₁ E C α} (hp : p.Confined D₁ t P) :
    (p.left : Program (Db₁ × Db₂) (W₁ ⊕ W₂) (L₁ ⊕ L₂) E C α).Confined (D₁.prod D₂) t P := by
  induction p with
  | ret a => exact hp
  | throw e => trivial
  | call s k ih =>
      intro ctx db hctx hdb
      obtain ⟨hsame, hreply⟩ := hp ctx db.1 hctx.1 hdb.1
      refine ⟨congrArg (Reply.map _ _) hsame, ?_⟩
      show Division.Replies _ t _ ((s ctx db.1).map Sum.inl Sum.inl)
      cases hs : s ctx db.1 with
      | error e => trivial
      | done r ws ls waits =>
          rw [hs] at hreply
          refine ⟨fun w hw => ?_, ih r hreply.2⟩
          obtain ⟨w', hw', rfl⟩ := List.mem_map.mp hw
          exact hreply.1 w' hw'

theorem Confined.right {p : Program Db₂ W₂ L₂ E C α} (hp : p.Confined D₂ t P) :
    (p.right : Program (Db₁ × Db₂) (W₁ ⊕ W₂) (L₁ ⊕ L₂) E C α).Confined (D₁.prod D₂) t P := by
  induction p with
  | ret a => exact hp
  | throw e => trivial
  | call s k ih =>
      intro ctx db hctx hdb
      obtain ⟨hsame, hreply⟩ := hp ctx db.2 hctx.2 hdb.2
      refine ⟨congrArg (Reply.map _ _) hsame, ?_⟩
      show Division.Replies _ t _ ((s ctx db.2).map Sum.inr Sum.inr)
      cases hs : s ctx db.2 with
      | error e => trivial
      | done r ws ls waits =>
          rw [hs] at hreply
          refine ⟨fun w hw => ?_, ih r hreply.2⟩
          obtain ⟨w', hw', rfl⟩ := List.mem_map.mp hw
          exact hreply.1 w' hw'

end Program

end ReadCommitted
