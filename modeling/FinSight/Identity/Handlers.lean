import FinSight.Identity.Service
import FinSight.Js.Base64
import FinSight.Lib.RateLimit
import FinSight.Tenants.Operations

/-!
# Requests from the outside (`src/app.js`, `src/middleware`, the routes and controllers of `src/modules`)

A request runs through its middleware to its controller, which calls one service. `Handler` stops at what is outside of the
code: transactions, bcrypt, the tokens of jsonwebtoken and the counters of the rate limiters.

* `registerUser`, `loginUser`, `getCurrentUser`, `listMembers`, `createMember` : the two services on users and members;
* `authenticate`, `requireRole`, `requireAdminToken` : the middleware;
* `HttpRequest`, `Route`, `handle` : the routes. A body or a query that its schema refuses is `none`.

The services of the other modules are `Tenants.Operation`s. `expiresIn` of a login is configuration, and not modelled.
-/

namespace FinSight.Identity

open ReadCommitted

/-- The payload of a token, and `req.auth`. -/
structure Claims where
  sub : Uuid
  tenantId : Uuid
  role : Role
  deriving DecidableEq

inductive Refusal where
  | app (e : AppError)
  /-- A `ZodError`, or an upload that multer refuses. -/
  | invalid
  | limited (e : RateLimited)
  | fault (e : Fault)
  deriving DecidableEq

inductive Handler (α : Type) where
  | ret (a : α)
  | throw (e : Refusal)
  | transact (q : Request) (next : Except Fault Response → Handler α)
  | bcryptHash (password : Text) (next : Text → Handler α)
  | bcryptCompare (password hash : Text) (next : Bool → Handler α)
  | sign (claims : Claims) (next : Text → Handler α)
  | verify (token : Text) (next : Option Claims → Handler α)
  | limit (l : RateLimiter) (key : Text) (next : Option RateLimited → Handler α)

namespace Handler

def bind {α β : Type} : Handler α → (α → Handler β) → Handler β
  | .ret a, f => f a
  | .throw e, _ => .throw e
  | .transact q next, f => .transact q fun r => (next r).bind f
  | .bcryptHash password next, f => .bcryptHash password fun h => (next h).bind f
  | .bcryptCompare password hash next, f => .bcryptCompare password hash fun b => (next b).bind f
  | .sign claims next, f => .sign claims fun t => (next t).bind f
  | .verify token next, f => .verify token fun c => (next c).bind f
  | .limit l key next, f => .limit l key fun e => (next e).bind f

instance instMonad : Monad Handler where
  pure := .ret
  bind := Handler.bind

def transaction {α : Type} (q : Request) (take : Response → Option α) : Handler α :=
  .transact q fun
    | .ok r =>
        match take r with
        | some a => .ret a
        | none => .throw (.fault (.error (text "answer to another request")))
    | .error e => .throw (.fault e)

/-- What `schema.parse` accepts. -/
def parsed {α : Type} : Option α → Handler α
  | some a => .ret a
  | none => .throw .invalid

end Handler

/-! ## Users and members -/

structure RegisterBody where
  name : Text
  email : Email
  password : Text
  tenantName : Text
  deriving DecidableEq

structure LoginBody where
  email : Email
  password : Text
  deriving DecidableEq

structure MemberBody where
  name : Text
  email : Email
  password : Text
  role : MemberRole
  deriving DecidableEq

def invalidCredentials : AppError := ⟨text "Invalid email or password", 401, text "INVALID_CREDENTIALS"⟩

def noMembership : AppError := ⟨text "User has no tenant membership", 401, text "INVALID_CREDENTIALS"⟩

def malformedHeader : AppError := ⟨text "Missing or malformed authorization header", 401, text "UNAUTHENTICATED"⟩

def invalidToken : AppError := ⟨text "Invalid or expired token", 401, text "UNAUTHENTICATED"⟩

def forbidden : AppError := ⟨text "You do not have permission to perform this action", 403, text "FORBIDDEN"⟩

def routeNotFound : AppError := ⟨text "Not found", 404, text "NOT_FOUND"⟩

def invalidAdminToken : AppError := ⟨text "Invalid admin token", 401, text "UNAUTHENTICATED"⟩

def invalidRange : AppError := ⟨text "'from' must not be after 'to", 422, text "INVALID_RANGE"⟩

def hashPassword (password : Text) : Handler Text := .bcryptHash password .ret

def Response.registration : Response → Option (PublicUser × Tenant)
  | .registered u t => some (u, t)
  | _ => none

def Response.newMember : Response → Option (PublicUser × Role)
  | .created u role => some (u, role)
  | _ => none

def Response.userRow : Response → Option (Option User)
  | .user row => some row
  | _ => none

def Response.membershipRow : Response → Option (Option Membership)
  | .membership row => some row
  | _ => none

def Response.currentRow : Response → Option (Option CurrentUser)
  | .current row => some row
  | _ => none

def Response.memberRows : Response → Option (List MemberRow)
  | .members rows => some rows
  | _ => none

def registerUser (body : RegisterBody) : Handler (PublicUser × Tenant) := do
  let passwordHash ← hashPassword body.password
  Handler.transaction (.register ⟨body.name, body.email, passwordHash, body.tenantName⟩) Response.registration

/-- `dummyPasswordHash` is compared with where there is no user. -/
def loginUser (dummyPasswordHash : Text) (body : LoginBody) : Handler Text := do
  let user ← Handler.transaction (.userByEmail (normalizeEmail body.email)) Response.userRow
  let passwordMatches ← Handler.bcryptCompare body.password (user.elim dummyPasswordHash User.passwordHash) .ret
  match user, passwordMatches with
  | some user, true => do
      let membership ← Handler.transaction (.membershipOf user.id) Response.membershipRow
      match membership with
      | none => .throw (.app noMembership)
      | some membership => .sign ⟨user.id, membership.tenantId, membership.role⟩ .ret
  | _, _ => .throw (.app invalidCredentials)

def getCurrentUser (userId tenantId : Uuid) : Handler CurrentUser := do
  let row ← Handler.transaction (.currentUser userId tenantId) Response.currentRow
  match row with
  | none => .throw (.app invalidToken)
  | some row => .ret row

def listMembers (tenantId : Uuid) : Handler (List MemberRow) := Handler.transaction (.members tenantId) Response.memberRows

def createMember (tenantId : Uuid) (body : MemberBody) : Handler (PublicUser × Role) := do
  let passwordHash ← hashPassword body.password
  Handler.transaction (.createMember ⟨tenantId, body.name, body.email, passwordHash, body.role⟩) Response.newMember

/-! ## Middleware -/

/-- What follows `Bearer `. -/
def bearerToken (header : Text) : Option Text :=
  if text "Bearer " <+: header then some (trim (header.drop (text "Bearer ").length)) else none

def authenticate (authorization : Option Text) : Handler Claims :=
  match authorization.bind bearerToken with
  | none => .throw (.app malformedHeader)
  | some token => .verify token fun
      | some claims => .ret claims
      | none => .throw (.app invalidToken)

def requireRole (roles : List Role) (auth : Claims) : Handler Unit :=
  if auth.role ∈ roles then .ret () else .throw (.app forbidden)

/-- `next()`, or the error of the limiter. -/
def rateLimit (l : RateLimiter) (key : Text) : Handler Unit :=
  .limit l key fun
    | none => .ret ()
    | some e => .throw (.limited e)

/-- `Buffer.from`. -/
def buffer (t : Text) : List UInt8 := Base64.utf8 (toWellFormed t)

/-- An empty `ADMIN_TOKEN` is unset. -/
def requireAdminToken (adminToken provided : Option Text) : Handler Unit :=
  match adminToken with
  | none | some [] => .throw (.app routeNotFound)
  | some expected =>
      if buffer (provided.getD []) = buffer expected then .ret () else .throw (.app invalidAdminToken)

/-! ## Routes -/

/-- What the services are given from the configuration, and `toLowerCase` of texts that need not be ASCII. -/
structure Config where
  toLowerCase : Text → Text
  dummyPasswordHash : Text
  adminToken : Option Text
  login : Nat
  register : Nat
  memberCreate : Nat
  upload : Nat
  ask : Nat

namespace Config
variable (c : Config)

theorem quarter_pos : 0 < 15 * 60 := by decide

theorem hour_pos : 0 < 60 * 60 := by decide

theorem minute_pos : 0 < 60 := by decide

def loginLimiter : RateLimiter := ⟨text "login", c.login, 15 * 60, quarter_pos⟩

def registerLimiter : RateLimiter := ⟨text "register", c.register, 60 * 60, hour_pos⟩

def memberCreateLimiter : RateLimiter := ⟨text "member-create", c.memberCreate, 60 * 60, hour_pos⟩

def uploadLimiter : RateLimiter := ⟨text "upload", c.upload, 60 * 60, hour_pos⟩

def askLimiter : RateLimiter := ⟨text "ask", c.ask, 60, minute_pos⟩

end Config

/-- The call of a service of another module. -/
inductive ServiceCall where
  | operation (op : Tenants.Operation)
  | ask (tenantId : Uuid) (question : Text) (k : Option Nat)
  | enqueueMarkOverdue

structure AskBody where
  question : Text
  k : Option Nat
  deriving DecidableEq

/-- The routes behind `router.use(authenticate)`. A client may send any tenant id: the schemas drop it. -/
inductive Route where
  | createAccount (body : Option AccountRequest)
  | listAccounts (query : Option AccountQuery)
  | createJournalEntry (body : Option EntryRequest)
  | listEntries (query : Option EntryQuery)
  | getAccountBalance (accountId : Text) (asOf : Option (Option Date))
  | listAccountBalances (asOf : Option (Option Date))
  | createInvoice (body : Option InvoiceRequest)
  | issueInvoice (body : Option IssueRequest)
  | createInvoicePayment (body : Option PaymentRequest)
  | voidInvoice (params : VoidRequest)
  | listInvoices (query : Option InvoiceQuery)
  | getInvoice (invoiceId : Text)
  | uploadDocument (body : Option Documents.UploadRequest)
  | listDocuments (query : Option Documents.DocumentQuery)
  | getDocumentsById (params : Option Documents.DocumentRequest)
  | getDocumentFile (params : Option Documents.DocumentRequest)
  | retryDocument (params : Option Documents.DocumentRequest)
  | deleteDocument (params : Option Documents.DocumentRequest)
  | postAsk (body : Option AskBody)
  | listMembers
  | createMember (body : Option MemberBody)
  | me

/-- `attempted` is `String(req.body?.email ?? "")`, whatever the client has sent. -/
inductive HttpRequest where
  | register (ip : Text) (body : Option RegisterBody)
  | login (ip attempted : Text) (body : Option LoginBody)
  | authenticated (authorization : Option Text) (route : Route)
  | markOverdue (adminToken : Option Text)

inductive Reply where
  | registered (user : PublicUser) (tenant : Tenant)
  | token (token : Text)
  | currentUser (row : CurrentUser)
  | members (rows : List MemberRow)
  | member (user : PublicUser) (role : Role)
  /-- The answer is what the service answers. -/
  | service (call : ServiceCall)

open Handler in
/-- The controllers, with the middleware of their routes. -/
def Route.handle (c : Config) (auth : Claims) : Route → Handler Reply
  | .createAccount body => do
      let data ← parsed body
      return .service (.operation (.ledger (.createAccount { data with tenantId := auth.tenantId })))
  | .listAccounts query => do
      let data ← parsed query
      return .service (.operation (.ledger (.listAccounts { data with tenantId := auth.tenantId })))
  | .createJournalEntry body => do
      let data ← parsed body
      return .service (.operation (.ledger (.createJournalEntry { data with tenantId := auth.tenantId })))
  | .listEntries query => do
      let data ← parsed query
      match data.fromDate, data.toDate with
      | some fromDate, some toDate =>
          if toDate.date.time < fromDate.date.time then .throw (.app invalidRange)
          else return .service (.operation (.ledger (.listEntries { data with tenantId := auth.tenantId })))
      | _, _ => return .service (.operation (.ledger (.listEntries { data with tenantId := auth.tenantId })))
  | .getAccountBalance accountId asOf => do
      let asOf ← parsed asOf
      return .service (.operation (.ledger (.getAccountBalance auth.tenantId accountId asOf)))
  | .listAccountBalances asOf => do
      let asOf ← parsed asOf
      return .service (.operation (.ledger (.listAccountBalances auth.tenantId asOf)))
  | .createInvoice body => do
      let data ← parsed body
      return .service (.operation (.ledger (.createInvoice { data with tenantId := auth.tenantId })))
  | .issueInvoice body => do
      let data ← parsed body
      return .service (.operation (.ledger (.issueInvoice { data with tenantId := auth.tenantId })))
  | .createInvoicePayment body => do
      let data ← parsed body
      return .service (.operation (.ledger (.createInvoicePayment { data with tenantId := auth.tenantId })))
  | .voidInvoice params => do
      requireRole [.owner, .admin] auth
      return .service (.operation (.ledger (.voidInvoice { params with tenantId := auth.tenantId })))
  | .listInvoices query => do
      let data ← parsed query
      return .service (.operation (.ledger (.listInvoices { data with tenantId := auth.tenantId })))
  | .getInvoice invoiceId => return .service (.operation (.ledger (.getInvoice auth.tenantId invoiceId)))
  | .uploadDocument body => do
      rateLimit c.uploadLimiter auth.tenantId.text
      let data ← parsed body
      return .service (.operation (.request (.upload { data with tenantId := auth.tenantId })))
  | .listDocuments query => do
      let data ← parsed query
      return .service (.operation (.read (.listDocuments { data with tenantId := auth.tenantId })))
  | .getDocumentsById params => do
      let data ← parsed params
      return .service (.operation (.request (.get { data with tenantId := auth.tenantId })))
  | .getDocumentFile params => do
      let data ← parsed params
      return .service (.operation (.read (.getDocumentFile { data with tenantId := auth.tenantId })))
  | .retryDocument params => do
      let data ← parsed params
      return .service (.operation (.request (.retry { data with tenantId := auth.tenantId })))
  | .deleteDocument params => do
      requireRole [.owner, .admin] auth
      let data ← parsed params
      return .service (.operation (.request (.delete { data with tenantId := auth.tenantId })))
  | .postAsk body => do
      rateLimit c.askLimiter (auth.tenantId.text ++ text ":" ++ auth.sub.text)
      let data ← parsed body
      return .service (.ask auth.tenantId data.question data.k)
  | .listMembers => do return .members (← Identity.listMembers auth.tenantId)
  | .createMember body => do
      requireRole [.owner, .admin] auth
      rateLimit c.memberCreateLimiter auth.tenantId.text
      let data ← parsed body
      let result ← Identity.createMember auth.tenantId data
      return .member result.1 result.2
  | .me => do return .currentUser (← getCurrentUser auth.sub auth.tenantId)

open Handler in
def handle (c : Config) : HttpRequest → Handler Reply
  | .register ip body => do
      rateLimit c.registerLimiter ip
      let data ← parsed body
      let result ← registerUser data
      return .registered result.1 result.2
  | .login ip attempted body => do
      rateLimit c.loginLimiter (ip ++ text ":" ++ c.toLowerCase (trim attempted))
      let data ← parsed body
      return .token (← loginUser c.dummyPasswordHash data)
  | .authenticated authorization route => do
      let auth ← authenticate authorization
      route.handle c auth
  | .markOverdue adminToken => do
      requireAdminToken c.adminToken adminToken
      return .service .enqueueMarkOverdue

end FinSight.Identity
