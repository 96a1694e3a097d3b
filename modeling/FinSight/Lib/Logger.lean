import FinSight.Js.Text
import FinSight.Trees.Tree

/-!
# The logger (`src/lib/logger.js`)

* `redact` : the fields without the values of secret keys, to a depth;
* `emit` : the line that is passed to `JSON.stringify`, and where it is written.
-/

namespace FinSight.Logger

open Trees

/-- A value that is not an object: a string, or another primitive. -/
inductive Scalar (α : Type)
  | str (t : Text)
  | other (a : α)

/-- A value of plain objects and arrays; an object has the entries of `Object.entries`. -/
abbrev Value (α : Type) := Tree Text (Scalar α)

variable {α : Type}

def str (t : Text) : Value α := .leaf (.str t)

/-- `REDACT`. -/
def redactKeys : List Text :=
  ["password", "passwordHash", "token", "accessToken", "authorization", "idempotencyKey", "secret"].map text

def redacted : Value α := str (text "[redacted]")

/-- Assignment to this key sets the prototype, and adds no entry. -/
def protoKey : Text := text "__proto__"

mutual

def redact (depth : Nat) : Value α → Value α
  | .leaf a => .leaf a
  | .arr items => if 4 < depth then .arr items else .arr (redactItems depth items)
  | .obj entries => if 4 < depth then .obj entries else .obj (redactEntries depth entries)

def redactItems (depth : Nat) : List (Value α) → List (Value α)
  | [] => []
  | v :: items => redact (depth + 1) v :: redactItems depth items

def redactEntries (depth : Nat) : List (Text × Value α) → List (Text × Value α)
  | [] => []
  | (k, v) :: entries =>
      if k = protoKey then redactEntries depth entries
      else (k, if k ∈ redactKeys then redacted else redact (depth + 1) v) :: redactEntries depth entries

end

/-! ## emit -/

inductive Level
  | debug | info | warn | error
  deriving DecidableEq

namespace Level

/-- `LEVELS`. -/
def value : Level → Nat
  | debug => 10
  | info => 20
  | warn => 30
  | error => 40

def text : Level → Text
  | debug => FinSight.text "debug"
  | info => FinSight.text "info"
  | warn => FinSight.text "warn"
  | error => FinSight.text "error"

end Level

/-- `getContext()`. -/
structure Context where
  requestId : Option Text
  tenantId : Option Text
  userId : Option Text

/-- `...(id && { [key]: id })`. -/
def given (key : Text) : Option Text → List (Text × Value α)
  | none => []
  | some id => if id = [] then [] else [(key, str id)]

/-- `...value` in an object: the entries of an object, the items of an array and the code units of a string. -/
def spread : Value α → List (Text × Value α)
  | .obj entries => entries
  | .arr items => indexed decimal items
  | .leaf (.str t) => indexed decimal (t.map fun u => str [u])
  | .leaf (.other _) => []

/-- The entries of a line before those of the fields. -/
def lineStart (time : Text) (context : Context) (level : Level) (message : Text) : List (Text × Value α) :=
  [(text "time", str time), (text "level", str level.text), (text "message", str message)] ++
    given (text "requestId") context.requestId ++ given (text "tenantId") context.tenantId ++
    given (text "userId") context.userId

inductive Stream
  | stdout | stderr
  deriving DecidableEq

/-- What is written, and where; `fields` is `{}` where there is none, and `threshold` what `LOG_LEVEL` says. -/
def emit (threshold : Nat) (time : Text) (context : Context) (level : Level) (message : Text)
    (fields : Option (Value α)) : Option (Stream × Value α) :=
  if level.value < threshold then none
  else
    let line := overlay (lineStart time context level message) (spread (redact 0 (fields.getD (.obj []))))
    some (if Level.value .warn ≤ level.value then .stderr else .stdout, .obj line)

end FinSight.Logger
