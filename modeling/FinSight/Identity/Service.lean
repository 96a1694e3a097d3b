import FinSight.Identity.Schema
import FinSight.Js.Space
import FinSight.ReadCommitted.Interleaving

/-!
# Registration, login and members (`src/modules/auth/auth.service.js`, `src/modules/members/member.service.js`)

The statements of the two services, as transactions. bcrypt and the tokens are outside of them (`Handlers`).

* `Email`, `normalizeEmail` : an address as the schemas accept it, and as it is stored;
* `registerTx`, `createMemberTx` : the two transactions; the other requests are one statement each;
* `program`, `Sys`, `Reaches` : any number of them against one database.
-/

namespace FinSight.Identity

open ReadCommitted

/-- What `z.string().email()` accepts is ASCII. -/
structure Email where
  text : Text
  ascii : ∀ u ∈ text, u < 128
  deriving DecidableEq

/-- `toLowerCase` of an ASCII text. -/
def toLowerCase (t : Text) : Text := t.map lowerCase

def normalizeEmail (email : Email) : Text := toLowerCase (trim email.text)

/-- `MEMBER_ROLES`. -/
inductive MemberRole where
  | admin | member
  deriving DecidableEq, Repr

def MemberRole.role : MemberRole → Role
  | .admin => .admin
  | .member => .member

/-- A user without its password hash. -/
structure PublicUser where
  id : Uuid
  name : Text
  email : Text
  createdAt : Timestamp
  deriving DecidableEq

def toPublicUser (user : User) : PublicUser := ⟨user.id, user.name, user.email, user.createdAt⟩

structure Registration where
  name : Text
  email : Email
  passwordHash : Text
  tenantName : Text
  deriving DecidableEq

structure NewMember where
  tenantId : Uuid
  name : Text
  email : Email
  passwordHash : Text
  role : MemberRole
  deriving DecidableEq

def registerTx (r : Registration) : Tx (PublicUser × Tenant) := do
  let tenant ← Program.statement (insertTenant r.tenantName)
  let user ← Program.statement (insertUser r.name (normalizeEmail r.email) r.passwordHash)
  let _ ← Program.statement (insertMembership user.id tenant.id .owner)
  return (toPublicUser user, tenant)

def createMemberTx (r : NewMember) : Tx (PublicUser × Role) := do
  let user ← Program.statement (insertUser r.name (normalizeEmail r.email) r.passwordHash)
  let membership ← Program.statement (insertMembership user.id r.tenantId r.role.role)
  return (toPublicUser user, membership.role)

/-! ## The system -/

inductive Request where
  | register (r : Registration)
  | createMember (r : NewMember)
  | userByEmail (email : Text)
  | membershipOf (userId : Uuid)
  | currentUser (userId tenantId : Uuid)
  | members (tenantId : Uuid)
  deriving DecidableEq

inductive Response where
  | registered (user : PublicUser) (tenant : Tenant)
  | created (user : PublicUser) (role : Role)
  | user (row : Option User)
  | membership (row : Option Membership)
  | current (row : Option CurrentUser)
  | members (rows : List MemberRow)
  deriving DecidableEq

def program : Request → Tx Response
  | .register r => do
      let result ← registerTx r
      return .registered result.1 result.2
  | .createMember r => do
      let result ← createMemberTx r
      return .created result.1 result.2
  | .userByEmail email => do return .user (← Program.statement (selectUserByEmail email))
  | .membershipOf userId => do return .membership (← Program.statement (selectMembership userId))
  | .currentUser userId tenantId => do return .current (← Program.statement (selectCurrentUser userId tenantId))
  | .members tenantId => do return .members (← Program.statement (selectMembers tenantId))

abbrev Sys := System Db Write Lock Fault Choice Request Response

abbrev Event := Label Request Choice

def init : Sys := ⟨Db.empty, 0, []⟩

abbrev Reaches (s : Sys) : Prop := System.Reachable engine program (fun _ _ => True) init s

end FinSight.Identity
