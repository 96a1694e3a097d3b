import FinSight.Db.Statements
import FinSight.Lib.Listing

/-!
# Users and tenants (`src/infrastructure/db/schema.js`)

* `Tenant`, `User`, `Membership` : the rows; `Db` : the three tables, rows in the order of their inserts;
* `Write`, `Db.apply` : no service updates or deletes one of these rows;
* `insertTenant`, `insertUser`, … : one definition for each SQL statement, as in `FinSight.Sql`.

Names and addresses have the lengths that the request schemas allow, so none is too long for its column.
-/

namespace FinSight.Identity

open ReadCommitted

inductive Role where
  | owner | admin | member
  deriving DecidableEq, Repr

structure Tenant where
  id : Uuid
  name : Text
  createdAt : Timestamp
  deriving DecidableEq

structure User where
  id : Uuid
  name : Text
  email : Text
  passwordHash : Text
  createdAt : Timestamp
  deriving DecidableEq

structure Membership where
  id : Uuid
  userId : Uuid
  tenantId : Uuid
  role : Role
  createdAt : Timestamp
  deriving DecidableEq

structure Db where
  tenants : List Tenant
  users : List User
  memberships : List Membership
  deriving DecidableEq

def Db.empty : Db := ⟨[], [], []⟩

inductive Write where
  | tenant (row : Tenant)
  | user (row : User)
  | membership (row : Membership)
  deriving DecidableEq

def Db.apply (db : Db) : Write → Db
  | .tenant row => { db with tenants := db.tenants ++ [row] }
  | .user row => { db with users := db.users ++ [row] }
  | .membership row => { db with memberships := db.memberships ++ [row] }

inductive Lock where
  | tenant (id : Uuid)
  | user (id : Uuid)
  | userEmail (email : Text)
  | membership (id : Uuid)
  | membershipKey (userId tenantId : Uuid)
  deriving DecidableEq

/-- An error of the database. -/
inductive Fault where
  | sql (state : SqlState)
  /-- 23503 -/
  | foreignKeyViolation
  | error (message : Text)
  deriving DecidableEq

def engine : Engine Db Write Fault := ⟨Db.apply, fun _ _ => none⟩

@[simp] theorem engine_apply (db : Db) (w : Write) : engine.apply db w = db.apply w := rfl

abbrev Stmt (α : Type) := Statement Db Write Lock Fault Choice α

abbrev Tx (α : Type) := Program Db Write Lock Fault Choice α

/-! ## Statements -/

abbrev checked {α : Type} (checks : List (Bool × SqlState)) (reply : Reply Write Lock Fault α) : Reply Write Lock Fault α :=
  Sql.checkedBy .sql checks reply

def insertTenant (name : Text) : Stmt Tenant := fun ctx db =>
  let row : Tenant := ⟨ctx.choice.fresh 0, toWellFormed name, ctx.now⟩
  checked [(nulFree name, .characterNotInRepertoire), (db.tenants.all fun t => t.id ≠ row.id, .uniqueViolation)]
    (.done row [.tenant row] [.tenant row.id] [])

def insertUser (name email passwordHash : Text) : Stmt User := fun ctx db =>
  let row : User := ⟨ctx.choice.fresh 0, toWellFormed name, email, passwordHash, ctx.now⟩
  checked
    [(nulFree name, .characterNotInRepertoire),
      (db.users.all fun u => u.id ≠ row.id && u.email ≠ row.email, .uniqueViolation)]
    (.done row [.user row] [.user row.id, .userEmail row.email] [])

/-- The unique indexes are checked at once, the foreign keys when the row is in. -/
def insertMembership (userId tenantId : Uuid) (role : Role) : Stmt Membership := fun ctx db =>
  let row : Membership := ⟨ctx.choice.fresh 0, userId, tenantId, role, ctx.now⟩
  checked
    [(db.memberships.all fun m => m.id ≠ row.id && !(m.userId = userId && m.tenantId = tenantId), .uniqueViolation)]
    (if (db.users.any fun u => u.id = userId) && db.tenants.any fun t => t.id = tenantId then
      .done row [.membership row] [.membership row.id, .membershipKey userId tenantId] []
    else .error .foreignKeyViolation)

/-- `WHERE email = … LIMIT 1`. -/
def selectUserByEmail (email : Text) : Stmt (Option User) := fun _ db =>
  .done (db.users.find? fun u => u.email = email) [] [] []

/-- `WHERE user_id = … LIMIT 1`; nothing orders the rows. -/
def selectMembership (userId : Uuid) : Stmt (Option Membership) := fun ctx db =>
  .done (shuffle ctx.choice.order (db.memberships.filter fun m => m.userId = userId)).head? [] [] []

/-- The rows of memberships joined with their users and tenants. -/
def joined (db : Db) : List (Membership × User × Tenant) :=
  db.memberships.flatMap fun m =>
    (db.users.filter fun u => u.id = m.userId).flatMap fun u =>
      (db.tenants.filter fun t => t.id = m.tenantId).map fun t => (m, u, t)

/-- The columns that `getCurrentUser` selects. -/
structure CurrentUser where
  userId : Uuid
  userName : Text
  userEmail : Text
  tenantId : Uuid
  tenantName : Text
  role : Role
  deriving DecidableEq

def CurrentUser.of (p : Membership × User × Tenant) : CurrentUser :=
  ⟨p.2.1.id, p.2.1.name, p.2.1.email, p.2.2.id, p.2.2.name, p.1.role⟩

/-- `WHERE user_id = … AND tenant_id = … LIMIT 1`. -/
def selectCurrentUser (userId tenantId : Uuid) : Stmt (Option CurrentUser) := fun ctx db =>
  .done ((shuffle ctx.choice.order ((joined db).filter fun p => p.1.userId = userId && p.1.tenantId = tenantId)).head?.map
    CurrentUser.of) [] [] []

structure MemberRow where
  userId : Uuid
  name : Text
  email : Text
  role : Role
  createdAt : Timestamp
  deriving DecidableEq

/-- `ORDER BY created_at ASC, id ASC`. -/
def memberLe (a b : MemberRow) : Bool := a.createdAt < b.createdAt || (a.createdAt == b.createdAt && a.userId.rank ≤ b.userId.rank)

def selectMembers (tenantId : Uuid) : Stmt (List MemberRow) := fun _ db =>
  let rows := (db.memberships.filter fun m => m.tenantId = tenantId).flatMap fun m =>
    (db.users.filter fun u => u.id = m.userId).map fun u => (⟨u.id, u.name, u.email, m.role, m.createdAt⟩ : MemberRow)
  .done (rows.insertionSort fun a b => memberLe a b) [] [] []

end FinSight.Identity
