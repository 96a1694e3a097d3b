import FinSight.Ledger.Service
import Mathlib.Data.List.Lex

/-!
# Balances (`src/modules/ledger/ledger.service.js`)

* `getAccountBalance` : the balance of one account;
* `selectAccountBalances` : the query of `listAccountBalances`, with what Postgres checks.
-/

namespace FinSight

open ReadCommitted

/-- A date that is a parameter of a query; Postgres has none before 4714 BC. -/
def Date.readable (d : Date) : Bool := -210866803200000 ≤ d.time

/-! ## getAccountBalance -/

def accountNotFound : AppError := ⟨text "Account not found", 404, text "NOT_FOUND"⟩

structure AccountBalanceAt where
  balance : AccountBalance
  asOf : Option Date
  deriving DecidableEq

/-- `entry_lines el`, with `asOf` joined with the entries `je` of `je.id = el.entry_id` that are in the books. -/
def joinedLines (db : Db) (asOf : Option Date) : List EntryLine :=
  match asOf with
  | none => db.lines
  | some d => db.lines.flatMap fun el =>
      (db.entries.filter fun je => je.id = el.entryId && decide (je.occurredAt ≤ d.timestamp)).map fun _ => el

/-- `WHERE el.tenant_id = … AND el.account_id = …`. -/
def balanceLines (db : Db) (tenantId accountId : Uuid) (asOf : Option Date) : List EntryLine :=
  (joinedLines db asOf).filter fun el => el.tenantId = tenantId && el.accountId = accountId

def selectTenantAccount (tenantId : Uuid) (accountId : Text) : Stmt (Option Account) := fun _ db =>
  match uuidIn accountId with
  | none => .error (.sql .invalidTextRepresentation)
  | some id => .done (db.accounts.find? fun a => a.id = id && a.tenantId = tenantId) [] [] []

/-- The sum and the count, which is shown as an `int`. -/
def selectAccountBalance (tenantId : Uuid) (accountId : Text) (asOf : Option Date) : Stmt (Int × Nat) := fun _ db =>
  match uuidIn accountId with
  | none => .error (.sql .invalidTextRepresentation)
  | some id =>
      let lines := balanceLines db tenantId id asOf
      Sql.checked [(asOf.all Date.readable, .datetime), (inInt4 lines.length, .numericValueOutOfRange)]
        (.done ((lines.map (·.amountMinor)).sum, lines.length) [] [] [])

def getAccountBalance (tenantId : Uuid) (accountId : Text) (asOf : Option Date) : Tx AccountBalanceAt := do
  let account ← Program.statement (selectTenantAccount tenantId accountId)
  match account with
  | none => .throw (.app accountNotFound)
  | some account => do
      let (rawBalance, lineCount) ← Program.statement (selectAccountBalance tenantId accountId asOf)
      return {
        balance := {
          accountId := account.id
          name := account.name
          type := account.type
          currency := account.currency
          balanceMinor := decimalInt (signedBalance account.type rawBalance)
          lineCount }
        asOf }

/-! ## listAccountBalances -/

/-- The order of names. -/
structure Collation where
  le : Text → Text → Bool
  total : ∀ x y, le x y || le y x
  trans : ∀ x y z, le x y → le y z → le x z

/-- By the code units. -/
def Collation.units : Collation where
  le x y := decide (x.map UInt16.toNat ≤ y.map UInt16.toNat)
  total x y := by simpa using le_total (x.map UInt16.toNat) (y.map UInt16.toNat)
  trans x y z := by simpa using le_trans

/-- `listAccountBalances` in one query; its counts are shown as an `int`, too. -/
def selectAccountBalances (c : Collation) (tenantId : Uuid) (asOf : Option Date) : Stmt (List AccountBalance) :=
  fun _ db =>
    Sql.checked
      [(asOf.all Date.readable, .datetime),
        ((db.accounts.filter fun a => a.tenantId = tenantId).all fun a => inInt4 (accountLines db asOf a).length,
          .numericValueOutOfRange)]
      (.done (listAccountBalances c.le db tenantId asOf) [] [] [])

end FinSight
