import FinSight.Db.Statements
import Mathlib.Data.List.Dedup

/-!
# Journal entries (`src/modules/ledger/ledger.service.js`)

* `EntryData` : a request body that `createJournalEntrySchema` accepts;
* `createJournalEntryTx` : posts an entry, or replays the one its key already names;
* `listAccountBalances` : the balances of all accounts of a tenant.
-/

namespace FinSight

open ReadCommitted Sql

structure LineData where
  accountId : UuidText
  amountMinor : Int
  deriving DecidableEq

structure EntryData where
  description : Text
  occurredAt : Date
  lines : List LineData
  twoLines : 2 ≤ lines.length
  deriving DecidableEq

def LineData.toJs (l : LineData) : JsVal :=
  .obj [(text "accountId", .str l.accountId.text), (text "amountMinor", .bigint l.amountMinor)]

/-- The object that is fingerprinted. -/
def EntryData.toJs (data : EntryData) : JsVal :=
  .obj [(text "description", .str data.description), (text "occurredAt", .date data.occurredAt),
    (text "lines", .arr (data.lines.map LineData.toJs))]

def journalEntryUnbalanced : AppError :=
  ⟨text "Journal entry must balance to zero", 422, text "JOURNAL_ENTRY_UNBALANCED"⟩

def idempotencyKeyReused : AppError :=
  ⟨text "This Idempotency-Key was already used with a different request body", 409, text "IDEMPOTENCY_KEY_REUSED"⟩

def invalidAccount : AppError := ⟨text "One or more accounts are invalid", 422, text "INVALID_ACCOUNT"⟩

def currencyMismatch (message : Text) : AppError := ⟨message, 422, text "CURRENCY_MISMATCH"⟩

def mixedCurrencies : AppError := currencyMismatch (text "All accounts in a journal entry must share one currency")

/-- Reading a property of `undefined`. -/
def undefinedRow : Failure := .error (text "Cannot read properties of undefined (reading 'requestFingerprint')")

structure EntryResult where
  entry : JournalEntry
  lines : List EntryLine
  replayed : Bool
  deriving DecidableEq

section
variable (sha256 : Text → Text)

/-- The entry that already has the key, when its body was the same. -/
def replayEntry (tenantId : Uuid) (idempotencyKey requestFingerprint : Text) : Tx EntryResult := do
  let existing ← Program.statement (selectEntryByKey tenantId idempotencyKey)
  match existing with
  | none => .throw undefinedRow
  | some existing =>
    if existing.requestFingerprint ≠ requestFingerprint then .throw (.app idempotencyKeyReused)
    else do
      let existingLines ← Program.statement (selectLines existing.id)
      return ⟨existing, existingLines, true⟩

/-- The lines of an entry just inserted. -/
def postLines (tenantId : Uuid) (lines : List LineData) (entry : JournalEntry) : Tx EntryResult := do
  let accountIds := (lines.map (·.accountId)).dedup
  let tenantAccounts ← Program.statement (selectAccounts tenantId accountIds)
  if tenantAccounts.length ≠ accountIds.length then .throw (.app invalidAccount)
  else if 1 < (tenantAccounts.map (·.currency)).dedup.length then .throw (.app mixedCurrencies)
  else do
    let insertedLines ← Program.statement
      (insertLines (lines.map fun l => ⟨entry.id, tenantId, l.accountId, l.amountMinor⟩))
    return ⟨entry, insertedLines, false⟩

def createJournalEntryTx (tenantId : Uuid) (idempotencyKey : Text) (data : EntryData) : Tx EntryResult :=
  if (data.lines.map (·.amountMinor)).sum ≠ 0 then .throw (.app journalEntryUnbalanced)
  else do
    let requestFingerprint := fingerprint sha256 data.toJs
    let entry ← Program.statement
      (insertEntry ⟨tenantId, data.description, data.occurredAt, idempotencyKey, requestFingerprint⟩)
    match entry with
    | none => replayEntry tenantId idempotencyKey requestFingerprint
    | some entry => postLines tenantId data.lines entry

def createJournalEntry (tenantId : Uuid) (idempotencyKey : IdempotencyKey) (data : EntryData) : Tx EntryResult :=
  createJournalEntryTx sha256 tenantId idempotencyKey.text data

end

/-! ## Balances -/

def creditNormal : AccountType → Bool
  | .liability | .equity | .revenue => true
  | .asset | .expense => false

/-- Lines are stored debit-positive; credit-normal accounts report the negated sum. -/
def signedBalance (type : AccountType) (rawMinor : Int) : Int :=
  if creditNormal type then -rawMinor else rawMinor

structure AccountBalance where
  accountId : Uuid
  name : Text
  type : AccountType
  currency : Text
  balanceMinor : Text
  lineCount : Nat
  deriving DecidableEq

/-- `entry_lines`, joined with its entries up to `asOf` when there is one. -/
def linesUpTo (db : Db) (asOf : Option Date) : List EntryLine :=
  match asOf with
  | none => db.lines
  | some d => db.lines.flatMap fun el =>
      (db.entries.filter fun je => je.id = el.entryId && je.tenantId = el.tenantId &&
        decide (je.occurredAt ≤ d.timestamp)).map fun _ => el

/-- The lines an account is joined with. -/
def accountLines (db : Db) (asOf : Option Date) (a : Account) : List EntryLine :=
  (linesUpTo db asOf).filter fun el => el.accountId = a.id && el.tenantId = a.tenantId

def accountBalance (db : Db) (asOf : Option Date) (a : Account) : AccountBalance :=
  { accountId := a.id
    name := a.name
    type := a.type
    currency := a.currency
    balanceMinor := decimalInt (signedBalance a.type ((accountLines db asOf a).map (·.amountMinor)).sum)
    lineCount := (accountLines db asOf a).length }

/-- The order of account types as text. -/
def AccountType.rank : AccountType → Nat
  | .asset => 0
  | .equity => 1
  | .expense => 2
  | .liability => 3
  | .revenue => 4

/-- `ORDER BY a.type ASC, a.name ASC`, in the collation `le`. -/
def accountLe (le : Text → Text → Bool) (a b : Account) : Bool :=
  a.type.rank < b.type.rank || (a.type.rank == b.type.rank && le a.name b.name)

def listAccountBalances (le : Text → Text → Bool) (db : Db) (tenantId : Uuid) (asOf : Option Date) :
    List AccountBalance :=
  ((db.accounts.filter fun a => a.tenantId = tenantId).insertionSort fun a b => accountLe le a b).map
    (accountBalance db asOf)

end FinSight
