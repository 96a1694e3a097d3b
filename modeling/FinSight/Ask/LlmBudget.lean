import FinSight.Counters.Expiring
import FinSight.Db.Schema
import FinSight.Js.Calendar

/-!
# The daily budget (`src/modules/ask/llmBudget.js`)

* `dateUtc`, `secondsUntilUtcMidnight` : the reset time;
* `budgetKey`, `respond` : the counter of a call, and what `consumeLlmBudget` makes of its count;
* `run` : a run of calls, each with its return or its error.
-/

namespace FinSight.LlmBudget

open Counters

/-- `Date.UTC(year, month - 1, day)`: years 0 to 99 are years of the 20th century, and there are no dates more than
100,000,000 days from the epoch (`NaN`). -/
def dateUtc (year : Int) (month day : Nat) : Option Int :=
  let time := Date.utcDay (if 0 ≤ year ∧ year ≤ 99 then 1900 + year else year) month day * 86400000
  if time.natAbs ≤ 8640000000000000 then some time else none

/-- `Math.max(1, Math.ceil((nextMidnight - now) / 1000))`, or `NaN`. -/
def secondsUntilUtcMidnight (now : Date) : Option Int :=
  let c := Date.civil (now.time / 86400000)
  (dateUtc c.year c.month (c.day + 1)).map fun nextMidnight => max 1 (-((now.time - nextMidnight) / 1000))

/-- `now.toISOString().slice(0, 10)`. -/
def day (now : Date) : Text := now.isoString.take 10

/-- `llm:${tenantId}:${day}`; a call is its tenant. -/
def budgetKey (c : Call Text) : Text := text "llm:" ++ c.request ++ text ":" ++ day ⟨c.now⟩

/-- `BUDGET_TTL_SEC`, in milliseconds. -/
def budgetTtl : Int := 25 * 60 * 60 * 1000

/-- The error that is thrown once the budget is spent. -/
structure LlmBudgetExceeded where
  error : AppError
  retryAfterSec : Option Int
  deriving DecidableEq

def respond (limit : Nat) (now : Date) : Option Nat → Option LlmBudgetExceeded
  | none => none
  | some count =>
      if limit < count then
        some
          { error := ⟨text "Daily question limit reached for this workspace", 429, text "LLM_BUDGET_EXCEEDED"⟩
            retryAfterSec := secondsUntilUtcMidnight now }
      else none

def run (limit : Nat) (cs : List (Call Text)) : List (Call Text × Option LlmBudgetExceeded) :=
  outcomes budgetKey budgetTtl (fun c => respond limit ⟨c.now⟩) cs

end FinSight.LlmBudget
