import FinSight.Db.Schema

/-!
# Error responses (`src/middleware/errorHandler.js`)

`classify` : what a failed service call is answered with.
-/

namespace FinSight

structure ErrorResponse where
  status : Nat
  code : Text
  message : Text
  deriving DecidableEq

/-- `SQLSTATE_RESPONSES`, for the states of `SqlState`. -/
def sqlStateResponse : SqlState → Option ErrorResponse
  | .uniqueViolation => some ⟨409, text "CONFLICT", text "A resource with those details already exists."⟩
  | .checkViolation =>
      some ⟨422, text "CONSTRAINT_VIOLATION", text "The request does not satisfy a required constraint."⟩
  | .invalidTextRepresentation => some ⟨400, text "INVALID_INPUT", text "One or more fields contain invalid input."⟩
  | .numericValueOutOfRange => some ⟨422, text "VALUE_OUT_OF_RANGE", text "A numeric value is out of the allowed range."⟩
  | .characterNotInRepertoire | .datetime | .stringDataRightTruncation => none

def internalServerError : ErrorResponse := ⟨500, text "INTERNAL_ERROR", text "Internal server error"⟩

def classify : Failure → ErrorResponse
  | .app e => ⟨e.status, e.code, e.message⟩
  | .sql s => (sqlStateResponse s).getD internalServerError
  | .error _ => internalServerError

end FinSight
