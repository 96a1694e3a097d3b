import FinSight.Ledger.Balances

/-!
# Accounts that are listed (`listAccounts` of `src/modules/accounts/account.service.js`)
-/

namespace FinSight

open ReadCommitted

structure AccountQuery where
  tenantId : Uuid
  type : Option AccountType
  deriving DecidableEq

/-- `WHERE tenant_id = …`, with `AND type = …` where there is one. -/
def AccountQuery.admits (q : AccountQuery) (a : Account) : Bool :=
  a.tenantId = q.tenantId && q.type.all fun type => a.type = type

/-- `ORDER BY type ASC, name ASC`. -/
def selectAccountsOf (c : Collation) (q : AccountQuery) : Stmt (List Account) := fun _ db =>
  .done ((db.accounts.filter q.admits).insertionSort fun a b => accountLe c.le a b) [] [] []

def listAccounts (c : Collation) (q : AccountQuery) : Tx (List Account) := Program.statement (selectAccountsOf c q)

end FinSight
