import FinSight.Db.Schema
import FinSight.Lib.Cursor
import FinSight.Lists.Keyset

/-!
# What the three lists share

The queries are checked by their schemas; a page is read with one row more than its limit.
-/

namespace FinSight

/-- `z.coerce.number().int().min(1).max(100)`. -/
structure PageLimit where
  value : Nat
  valid : 1 ≤ value ∧ value ≤ 100
  deriving DecidableEq

/-- A date of a query, of the years that Postgres reads. -/
structure FilterDate where
  date : Date
  valid : date.storable = true

theorem FilterDate.eq_iff {d d' : FilterDate} : d.date = d'.date ↔ d = d' := by
  cases d
  cases d'
  rw [FilterDate.mk.injEq]

instance : DecidableEq FilterDate := fun _ _ => decidable_of_iff _ FilterDate.eq_iff

structure ListResult (α : Type) where
  data : List α
  nextCursor : Option Text
  deriving DecidableEq

def invalidCursor : AppError := ⟨text "Invalid cursor", 400, text "INVALID_CURSOR"⟩

/-- `if(cursor)`: an empty cursor is no cursor; `none` where the cursor is invalid. -/
def readCursor {κ : Type} (decode : Text → Option κ) (cursor : Option Text) : Option (Option κ) :=
  match cursor with
  | none => some none
  | some c => if c = [] then some none else (decode c).map some

theorem readCursor_some {κ : Type} {decode : Text → Option κ} {c : Text} {k : κ} (hne : c ≠ []) (h : decode c = some k) :
    readCursor decode (some c) = some (some k) := by
  rw [readCursor, if_neg hne, h]
  rfl

/-- uuids are compared byte by byte. -/
def Uuid.rank (u : Uuid) : Nat := u.bits.toNat

theorem Uuid.rank_injective : Function.Injective Uuid.rank := fun u v h => by
  cases u
  cases v
  rw [Uuid.mk.injEq]
  exact BitVec.eq_of_toNat_eq h

end FinSight
