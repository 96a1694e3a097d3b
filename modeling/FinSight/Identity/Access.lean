import FinSight.Identity.Gateway

/-!
# Requests do what their tokens allow

* `SignedIn` : the request carries a token that comes from a login of this user;
* `Effect`, `Permitted` : what a handler does in the database or through a service, and what it needs for it;
* `safe_handle` : the handlers of all routes;
* `reliance`, `sound_of_reaches` : any number of requests, in every interleaving.
-/

namespace FinSight.Identity

open ReadCommitted

/-- The token of a request. -/
def HttpRequest.bearer : HttpRequest → Option Text
  | .authenticated authorization _ => authorization.bind bearerToken
  | .register _ _ | .login _ _ _ | .markOverdue _ => none

def SignedIn (db : Db) (k : Record) (a : HttpRequest) (claims : Claims) (user : User) (membership : Membership) : Prop :=
  ∃ token, a.bearer = some token ∧ ∃ i ∈ k.issued, i.token = token ∧ i.claims = claims ∧
    Login db k i.request claims user membership

theorem SignedIn.later {db db' : Db} {k k' : Record} {a : HttpRequest} {claims : Claims} {user : User} {membership : Membership}
    (h : SignedIn db k a claims user membership) (hgrow : Grows db db') (hlater : Later k k') :
    SignedIn db' k' a claims user membership := by
  obtain ⟨token, hbearer, i, hi, htoken, hclaims, hlogin⟩ := h
  exact ⟨token, hbearer, i, hlater.issued i hi, htoken, hclaims, hlogin.later hgrow hlater⟩

theorem SignedIn.payload {db : Db} {k : Record} {a : HttpRequest} {claims : Claims} {user : User} {membership : Membership}
    (h : SignedIn db k a claims user membership) : claims = ⟨user.id, membership.tenantId, membership.role⟩ := by
  obtain ⟨_, _, _, _, _, _, hlogin⟩ := h
  exact hlogin.payload

/-! ## Effects -/

inductive Effect where
  | transaction (q : Request)
  | service (call : ServiceCall)

/-- What a handler is about to do. -/
def Handler.effect : Handler Reply → Option Effect
  | .transact q _ => some (.transaction q)
  | .ret (.service call) => some (.service call)
  | _ => none

/-- The tenant whose data it is about. -/
def Effect.tenantId : Effect → Option Uuid
  | .transaction (.createMember r) => some r.tenantId
  | .transaction (.currentUser _ tenantId) | .transaction (.members tenantId) => some tenantId
  | .transaction (.register _) | .transaction (.userByEmail _) | .transaction (.membershipOf _) => none
  | .service (.operation op) => some op.tenantId
  | .service (.ask tenantId _ _) => some tenantId
  | .service .enqueueMarkOverdue => none

/-- The user whom it asks about. -/
def Effect.userId : Effect → Option Uuid
  | .transaction (.currentUser userId _) => some userId
  | _ => none

/-- Members are not allowed to. -/
def Effect.privileged : Effect → Bool
  | .transaction (.createMember _) => true
  | .service (.operation (.ledger (.voidInvoice _))) => true
  | .service (.operation (.request (.delete _))) => true
  | _ => false

structure Permits (db : Db) (k : Record) (a : HttpRequest) (e : Effect) (user : User) (membership : Membership) : Prop where
  signedIn : ∃ claims, SignedIn db k a claims user membership
  tenant : e.tenantId = some membership.tenantId
  user : ∀ userId, e.userId = some userId → userId = user.id
  role : e.privileged = true → membership.role ≠ .member

/-- A request acts on the tenant of its user; the overdue job needs the token of the administrator. -/
structure Permitted (c : Config) (db : Db) (k : Record) (a : HttpRequest) (e : Effect) : Prop where
  tenant : e.tenantId ≠ none → ∃ user membership, Permits db k a e user membership
  admin : e = .service .enqueueMarkOverdue → ∃ provided expected, a = .markOverdue provided ∧ c.adminToken = some expected ∧
    expected ≠ [] ∧ buffer (provided.getD []) = buffer expected

theorem Permits.later {db db' : Db} {k k' : Record} {a : HttpRequest} {e : Effect} {user : User} {membership : Membership}
    (h : Permits db k a e user membership) (hgrow : Grows db db') (hlater : Later k k') :
    Permits db' k' a e user membership where
  signedIn := h.signedIn.imp fun _ hs => hs.later hgrow hlater
  tenant := h.tenant
  user := h.user
  role := h.role

theorem Permitted.later {c : Config} {db db' : Db} {k k' : Record} {a : HttpRequest} {e : Effect} (h : Permitted c db k a e)
    (hgrow : Grows db db') (hlater : Later k k') : Permitted c db' k' a e where
  tenant he := by
    obtain ⟨user, membership, hpermits⟩ := h.tenant he
    exact ⟨user, membership, hpermits.later hgrow hlater⟩
  admin := h.admin

/-- What is about no tenant and no job needs nothing. -/
theorem Permitted.free {c : Config} {db : Db} {k : Record} {a : HttpRequest} {q : Request}
    (h : Effect.tenantId (.transaction q) = none) : Permitted c db k a (.transaction q) where
  tenant he := absurd h he
  admin he := by cases he

/-- The role in the payload decides. -/
theorem Permitted.signedIn {c : Config} {db : Db} {k : Record} {a : HttpRequest} {e : Effect} {claims : Claims} {user : User}
    {membership : Membership} (h : SignedIn db k a claims user membership) (ht : e.tenantId = some claims.tenantId)
    (huser : ∀ userId, e.userId = some userId → userId = claims.sub)
    (hrole : e.privileged = true → claims.role ≠ .member) : Permitted c db k a e where
  tenant _ := by
    obtain rfl := h.payload
    exact ⟨user, membership, ⟨_, h⟩, ht, huser, hrole⟩
  admin he := by
    rw [he] at ht
    cases ht

/-- No login is refused for want of a membership. -/
def policy (c : Config) (a : HttpRequest) : Policy where
  can db k q := Permitted c db k a (.transaction q)
  refused e := e ≠ .app noMembership
  can_later hgrow hlater h := h.later hgrow hlater
  refused_fault _ h := by cases h

/-- What is known of a reply. -/
def Answers (c : Config) (a : HttpRequest) (db : Db) (k : Record) : Reply → Prop
  | .service call => Permitted c db k a (.service call)
  | .token token => ∃ claims user membership, ⟨token, claims, a⟩ ∈ k.issued ∧ Login db k a claims user membership
  | .currentUser row => ∃ claims user membership, SignedIn db k a claims user membership ∧
      ∃ p ∈ joined db, p.1.userId = user.id ∧ p.1.tenantId = membership.tenantId ∧ row = .of p
  | .registered _ _ | .members _ | .member _ _ => True

/-! ## What the database has told -/

theorem told_user {email : Text} {origin db : Db} {r : Response} {row : Option User}
    (h : Told discipline (.userByEmail email) origin r db) (hrow : r.userRow = some row) :
    ∀ u, row = some u → u ∈ db.users ∧ u.email = email := by
  obtain ⟨now, fin, log, locks, ⟨hcommit, -⟩, hdb⟩ := h
  cases hcommit with
  | user hfound =>
      obtain rfl := Option.some.inj hrow
      exact fun u hu => ⟨hdb.users u (hfound u hu).1, (hfound u hu).2⟩

theorem told_membership {userId : Uuid} {origin db : Db} {r : Response} {row : Option Membership}
    (h : Told discipline (.membershipOf userId) origin r db) (hrow : r.membershipRow = some row) :
    (∀ m, row = some m → m ∈ db.memberships ∧ m.userId = userId) ∧ ((∃ u ∈ origin.users, u.id = userId) → row ≠ none) := by
  obtain ⟨now, fin, log, locks, ⟨hcommit, -⟩, hdb⟩ := h
  cases hcommit with
  | membership hfound hthere =>
      obtain rfl := Option.some.inj hrow
      exact ⟨fun m hm => ⟨hdb.memberships m (hfound m hm).1, (hfound m hm).2⟩, hthere⟩

theorem joined_later {db db' : Db} (h : Grows db db') {p : Membership × User × Tenant} (hp : p ∈ joined db) :
    p ∈ joined db' := by
  obtain ⟨hm, ⟨hu, huser⟩, ht, htenant⟩ := mem_joined.mp hp
  exact mem_joined.mpr ⟨h.memberships _ hm, ⟨h.users _ hu, huser⟩, h.tenants _ ht, htenant⟩

theorem told_current {userId tenantId : Uuid} {origin db : Db} {r : Response} {row : Option CurrentUser}
    (h : Told discipline (.currentUser userId tenantId) origin r db) (hrow : r.currentRow = some row) :
    (∀ c, row = some c → ∃ p ∈ joined db, p.1.userId = userId ∧ p.1.tenantId = tenantId ∧ c = .of p) ∧
      ((∃ m ∈ origin.memberships, m.userId = userId ∧ m.tenantId = tenantId) → row ≠ none) := by
  obtain ⟨now, fin, log, locks, ⟨hcommit, -⟩, hdb⟩ := h
  cases hcommit with
  | current hfound hthere =>
      obtain rfl := Option.some.inj hrow
      refine ⟨fun c hc => ?_, hthere⟩
      obtain ⟨p, hp, hkey⟩ := hfound c hc
      exact ⟨p, joined_later hdb hp, hkey⟩

/-! ## The services -/

section Services
variable {c : Config} {a : HttpRequest} {db : Db} {k : Record}

abbrev Keeps {α : Type} (c : Config) (a : HttpRequest) (post : Db → Record → α → Prop) (db : Db) (k : Record) (p : Handler α) :
    Prop := p.Safe (policy c a) a post db k

theorem refused_app {e : AppError} (h : e.message ≠ noMembership.message) : (policy c a).refused (.app e) :=
  fun he => h (congrArg AppError.message (Refusal.app.inj he))

theorem safe_registerUser (body : RegisterBody) : Keeps c a (fun _ _ _ => True) db k (registerUser body) := by
  refine Handler.Safe.bind fun db₁ k₁ _ _ passwordHash db₂ k₂ _ _ => ?_
  exact Handler.safe_transaction (Permitted.free rfl) trivial fun _ _ _ _ _ _ _ _ _ _ => trivial

/-- A login finds its user's membership: the two are written together. -/
theorem safe_loginUser {ip attempted : Text} {body : LoginBody} (ha : a = .login ip attempted (some body))
    (dummyPasswordHash : Text) :
    Keeps c a (fun db k token => ∃ claims user membership, ⟨token, claims, a⟩ ∈ k.issued ∧ Login db k a claims user membership)
      db k (loginUser dummyPasswordHash body) := by
  refine Handler.Safe.bind (Handler.safe_transaction (Permitted.free rfl) trivial ?_)
  intro _ db₁ k₁ r row _ _ _ htold hrow
  have huser := told_user htold hrow
  refine Handler.Safe.bind fun db₂ k₂ h₁ h₂ => ⟨fun hmatched db₃ k₃ h₃ h₄ => ?_, fun db₃ k₃ h₃ h₄ => ?_⟩
  · cases row with
    | none => exact refused_app (by decide)
    | some user =>
        obtain ⟨hmem, hemail⟩ := huser user rfl
        have hstored : user ∈ db₃.users := h₃.users _ (h₁.users _ hmem)
        refine Handler.Safe.bind (Handler.safe_transaction (Permitted.free rfl) ⟨user, hstored, rfl⟩ ?_)
        intro origin db₄ k₄ r' row' h₅ h₆ h₇ htold' hrow'
        obtain ⟨hfound, hthere⟩ := told_membership htold' hrow'
        cases row' with
        | none => exact absurd rfl (hthere ⟨user, h₅.users _ hstored, rfl⟩)
        | some membership =>
            obtain ⟨hmembership, hmember⟩ := hfound membership rfl
            have hlogin : Login db₄ k₄ a ⟨user.id, membership.tenantId, membership.role⟩ user membership :=
              { request := ⟨ip, attempted, body, ha, hemail, h₇.matched _ (h₄.matched _ hmatched)⟩
                inUsers := h₆.users _ (h₅.users _ hstored)
                inMemberships := hmembership
                member := hmember
                payload := rfl }
            refine ⟨⟨user, membership, hlogin⟩, fun db₅ k₅ h₈ h₉ token hissued db₆ k₆ h₁₀ h₁₁ => ?_⟩
            exact ⟨_, user, membership, h₁₁.issued _ hissued, (hlogin.later h₈ h₉).later h₁₀ h₁₁⟩
  · cases row with
    | none => exact refused_app (by decide)
    | some user => exact refused_app (by decide)

/-- The row of the user's own membership is found. -/
theorem safe_getCurrentUser {claims : Claims} {user : User} {membership : Membership}
    (h : SignedIn db k a claims user membership) :
    Keeps c a (fun db k row => ∃ claims user membership, SignedIn db k a claims user membership ∧
      ∃ p ∈ joined db, p.1.userId = user.id ∧ p.1.tenantId = membership.tenantId ∧ row = .of p)
      db k (getCurrentUser claims.sub claims.tenantId) := by
  have hpayload := h.payload
  obtain ⟨hsub, htenant⟩ : claims.sub = user.id ∧ claims.tenantId = membership.tenantId := by rw [hpayload]; exact ⟨rfl, rfl⟩
  have hcan : Permitted c db k a (.transaction (.currentUser claims.sub claims.tenantId)) :=
    Permitted.signedIn h rfl (fun _ huser => (Option.some.inj huser).symm) fun hp => by cases hp
  have hasks : Asks db (.currentUser claims.sub claims.tenantId) := by
    obtain ⟨_, _, _, _, _, _, hlogin⟩ := h
    exact ⟨membership, hlogin.inMemberships, hlogin.member.trans hsub.symm, htenant.symm⟩
  refine Handler.Safe.bind (Handler.safe_transaction hcan hasks ?_)
  intro origin db₁ k₁ r row h₁ h₂ h₃ htold hrow
  obtain ⟨hfound, hthere⟩ := told_current htold hrow
  cases row with
  | none => exact absurd rfl (hthere (hasks.later h₁))
  | some row =>
      obtain ⟨p, hp, huser, hkey, rfl⟩ := hfound row rfl
      intro db₂ k₂ h₄ h₅
      refine ⟨claims, user, membership, (h.later (trans_of Grows h₁ h₂) h₃).later h₄ h₅, p, joined_later h₄ hp, ?_, ?_, rfl⟩
      · exact huser.trans hsub
      · exact hkey.trans htenant

theorem safe_listMembers {claims : Claims} {user : User} {membership : Membership} (h : SignedIn db k a claims user membership) :
    Keeps c a (fun _ _ _ => True) db k (listMembers claims.tenantId) :=
  Handler.safe_transaction (Permitted.signedIn h rfl (fun _ huser => by cases huser) fun hp => by cases hp) trivial
    fun _ _ _ _ _ _ _ _ _ _ => trivial

theorem safe_createMember {claims : Claims} {user : User} {membership : Membership} (h : SignedIn db k a claims user membership)
    (hrole : claims.role ≠ .member) (body : MemberBody) :
    Keeps c a (fun _ _ _ => True) db k (createMember claims.tenantId body) := by
  refine Handler.Safe.bind fun db₁ k₁ h₁ h₂ passwordHash db₂ k₂ h₃ h₄ => ?_
  have hlater := (h.later h₁ h₂).later h₃ h₄
  exact Handler.safe_transaction (Permitted.signedIn hlater rfl (fun _ huser => by cases huser) fun _ => hrole) trivial
    fun _ _ _ _ _ _ _ _ _ _ => trivial

/-! ## Middleware -/

theorem safe_authenticate {authorization : Option Text} (ha : a.bearer = authorization.bind bearerToken) :
    Keeps c a (fun db k claims => ∃ user membership, SignedIn db k a claims user membership) db k (authenticate authorization) := by
  unfold authenticate
  cases htoken : authorization.bind bearerToken with
  | none => exact refused_app (by decide)
  | some token =>
      refine fun db₁ k₁ h₁ h₂ => ⟨?_, refused_app (by decide)⟩
      rintro claims user membership ⟨i, hi, hissued, hclaims, hlogin⟩ db₂ k₂ h₃ h₄
      have hsigned : SignedIn db₁ k₁ a claims user membership := ⟨token, ha.trans htoken, i, hi, hissued, hclaims, hlogin⟩
      exact ⟨user, membership, hsigned.later h₃ h₄⟩

theorem safe_requireRole (roles : List Role) (claims : Claims) :
    Keeps c a (fun _ _ _ => claims.role ∈ roles) db k (requireRole roles claims) := by
  unfold requireRole
  split
  · next h => exact fun _ _ _ _ => h
  · exact refused_app (by decide)

theorem safe_rateLimit (l : RateLimiter) (key : Text) : Keeps c a (fun _ _ _ => True) db k (rateLimit l key) := by
  intro db₁ k₁ _ _ e
  cases e with
  | none => exact fun _ _ _ _ => trivial
  | some e => exact fun h => by cases h

theorem safe_requireAdminToken (provided : Option Text) :
    Keeps c a (fun _ _ _ => ∃ expected, c.adminToken = some expected ∧ expected ≠ [] ∧
      buffer (provided.getD []) = buffer expected) db k (requireAdminToken c.adminToken provided) := by
  unfold requireAdminToken
  split
  · exact refused_app (by decide)
  · exact refused_app (by decide)
  · next expected hne hset =>
    split
    · next h => exact fun _ _ _ _ => ⟨expected, hset, fun hnil => hne hnil, h⟩
    · exact refused_app (by decide)

/-! ## Routes -/

variable {claims : Claims} {user : User} {membership : Membership}

theorem answers_service (h : SignedIn db k a claims user membership) {call : ServiceCall}
    (ht : Effect.tenantId (.service call) = some claims.tenantId)
    (hrole : Effect.privileged (.service call) = true → claims.role ≠ .member) : Answers c a db k (.service call) :=
  Permitted.signedIn h ht (fun _ huser => by cases huser) hrole

/-- A controller that parses and calls a service, for the tenant of the token. -/
theorem safe_served {α : Type} (h : SignedIn db k a claims user membership) {body : Option α} {call : α → ServiceCall}
    (ht : ∀ data, Effect.tenantId (.service (call data)) = some claims.tenantId)
    (hrole : ∀ data, Effect.privileged (.service (call data)) = true → claims.role ≠ .member) :
    Keeps c a (Answers c a) db k (Handler.parsed body >>= fun data => pure (.service (call data))) := by
  refine Handler.Safe.bind (Handler.safe_parsed (fun he => by cases he) fun data _ db₁ k₁ h₁ h₂ db₂ k₂ h₃ h₄ => ?_)
  exact answers_service ((h.later h₁ h₂).later h₃ h₄) (ht data) (hrole data)

theorem not_member_of_mem (h : claims.role ∈ [Role.owner, .admin]) : claims.role ≠ .member := by
  rintro hmember
  rw [hmember] at h
  exact absurd h (by decide)

theorem safe_route (h : SignedIn db k a claims user membership) (route : Route) :
    Keeps c a (Answers c a) db k (route.handle c claims) := by
  cases route with
  | createAccount _ | listAccounts _ | createJournalEntry _ | createInvoice _ | issueInvoice _ | createInvoicePayment _
  | listInvoices _ | listDocuments _ | getDocumentsById _ | getDocumentFile _ | retryDocument _ | getAccountBalance _ _
  | listAccountBalances _ => exact safe_served h (fun _ => rfl) fun _ hp => by cases hp
  | listEntries query =>
      refine Handler.Safe.bind (Handler.safe_parsed (fun he => by cases he) fun data _ db₁ k₁ h₁ h₂ => ?_)
      have hserved : Keeps c a (Answers c a) db₁ k₁
          (.ret (.service (.operation (.ledger (.listEntries { data with tenantId := claims.tenantId }))))) :=
        fun db₂ k₂ h₃ h₄ => answers_service ((h.later h₁ h₂).later h₃ h₄) rfl fun hp => by cases hp
      split
      · split
        · exact refused_app (by decide)
        · exact hserved
      · exact hserved
  | getInvoice invoiceId => exact fun _ _ h₁ h₂ => answers_service (h.later h₁ h₂) rfl fun hp => by cases hp
  | voidInvoice params =>
      refine (safe_requireRole _ claims).seq fun db₁ k₁ _ h₁ h₂ hrole db₂ k₂ h₃ h₄ => ?_
      exact answers_service ((h.later h₁ h₂).later h₃ h₄) rfl fun _ => not_member_of_mem hrole
  | uploadDocument body =>
      refine (safe_rateLimit _ _).seq fun db₁ k₁ _ h₁ h₂ _ => ?_
      exact safe_served (h.later h₁ h₂) (fun _ => rfl) fun _ hp => by cases hp
  | deleteDocument params =>
      refine (safe_requireRole _ claims).seq fun db₁ k₁ _ h₁ h₂ hrole => ?_
      exact safe_served (h.later h₁ h₂) (fun _ => rfl) fun _ _ => not_member_of_mem hrole
  | postAsk body =>
      refine (safe_rateLimit _ _).seq fun db₁ k₁ _ h₁ h₂ _ => ?_
      exact safe_served (h.later h₁ h₂) (fun _ => rfl) fun _ hp => by cases hp
  | listMembers => exact (safe_listMembers h).seq fun _ _ _ _ _ _ _ _ _ _ => trivial
  | createMember body =>
      refine (safe_requireRole _ claims).seq fun db₁ k₁ _ h₁ h₂ hrole => ?_
      refine (safe_rateLimit _ _).seq fun db₂ k₂ _ h₃ h₄ _ => ?_
      refine Handler.Safe.bind (Handler.safe_parsed (fun he => by cases he) fun data _ db₃ k₃ h₅ h₆ => ?_)
      refine (safe_createMember (((h.later h₁ h₂).later h₃ h₄).later h₅ h₆) (not_member_of_mem hrole) data).seq ?_
      exact fun _ _ _ _ _ _ _ _ _ _ => trivial
  | me =>
      refine (safe_getCurrentUser h).seq fun db₁ k₁ row _ _ hrow db₂ k₂ h₃ h₄ => ?_
      obtain ⟨claims, user, membership, hsigned, p, hp, huser, htenant, hrow⟩ := hrow
      exact ⟨claims, user, membership, hsigned.later h₃ h₄, p, joined_later h₃ hp, huser, htenant, hrow⟩

theorem safe_handle (request : HttpRequest) : Keeps c request (Answers c request) db k (handle c request) := by
  cases request with
  | register ip body =>
      refine (safe_rateLimit _ _).seq fun db₁ k₁ _ _ _ _ => ?_
      refine Handler.Safe.bind (Handler.safe_parsed (fun he => by cases he) fun data _ db₂ k₂ _ _ => ?_)
      exact (safe_registerUser data).seq fun _ _ _ _ _ _ _ _ _ _ => trivial
  | login ip attempted body =>
      refine (safe_rateLimit _ _).seq fun db₁ k₁ _ _ _ _ => ?_
      refine Handler.Safe.bind (Handler.safe_parsed (fun he => by cases he) fun data hdata db₂ k₂ _ _ => ?_)
      refine (safe_loginUser (by rw [hdata]) c.dummyPasswordHash).seq fun db₃ k₃ token _ _ htoken db₄ k₄ h₁ h₂ => ?_
      obtain ⟨claims, user, membership, hissued, hlogin⟩ := htoken
      exact ⟨claims, user, membership, h₂.issued _ hissued, hlogin.later h₁ h₂⟩
  | authenticated authorization route =>
      refine (safe_authenticate rfl).seq fun db₁ k₁ claims _ _ hsigned => ?_
      obtain ⟨user, membership, hsigned⟩ := hsigned
      exact safe_route hsigned route
  | markOverdue provided =>
      refine (safe_requireAdminToken provided).seq fun db₁ k₁ _ _ _ hadmin db₂ k₂ _ _ => ⟨fun he => absurd rfl he, fun _ => ?_⟩
      obtain ⟨expected, hset, hne, hequal⟩ := hadmin
      exact ⟨provided, expected, rfl, hset, hne, hequal⟩

end Services

/-! ## Runs -/

def reliance (c : Config) : Reliance discipline (behaviour c) recorder where
  later := Later
  later_refl := Later.refl
  later_trans := Later.trans
  later_note := later_note
  known db k := Known db k
  asks := Asks
  safe db k a p := Keeps c a (Answers c a) db k p
  admits _ _ := trivial
  known_grow hgrow h := h.later hgrow (.refl _)
  safe_later hgrow hlater h := h.later hgrow hlater
  start db k a := safe_handle a
  transaction := by
    intro db k a p q next _ _ hsafe hp
    cases p with
    | transact q' next' =>
        cases hp
        obtain ⟨_, hasks, hnext⟩ := hsafe
        exact ⟨hasks, fun db' k' h₁ h₂ => hnext db db' k' (refl_of Grows db) h₁ h₂⟩
    | _ => cases hp
  answer := by
    intro db k a p y p' hknown hsafe haccepts hp
    have hdb := refl_of Grows db
    cases p with
    | ret _ | throw _ | transact _ _ => cases hp
    | bcryptHash password next =>
        cases y <;> cases hp
        exact ⟨hknown, hsafe db k hdb (.refl k) _⟩
    | limit l key next =>
        cases y <;> cases hp
        exact ⟨hknown, hsafe db k hdb (.refl k) _⟩
    | bcryptCompare password passwordHash next =>
        cases y with
        | «matches» passwordMatches =>
            cases hp
            have hlater := later_note k a (.bcryptCompare password passwordHash next) (.matches passwordMatches)
            have hknown' := hknown.later hdb hlater
            obtain ⟨htrue, hfalse⟩ := hsafe db _ hdb hlater
            cases passwordMatches with
            | true => exact ⟨hknown', htrue (List.mem_append_right _ (List.mem_singleton_self _))⟩
            | false => exact ⟨hknown', hfalse⟩
        | _ => cases hp
    | sign claims next =>
        cases y with
        | token token =>
            cases hp
            have hlater := later_note k a (.sign claims next) (.token token)
            obtain ⟨⟨user, membership, hlogin⟩, hnext⟩ := hsafe
            refine ⟨fun i hi => ?_, hnext db _ hdb hlater token (List.mem_append_right _ (List.mem_singleton_self _))⟩
            rcases List.mem_append.mp hi with hi | hi
            · exact hknown.later hdb hlater i hi
            · obtain rfl := List.mem_singleton.mp hi
              exact ⟨user, membership, hlogin.later hdb hlater⟩
        | _ => cases hp
    | verify token next =>
        cases y with
        | claims claims =>
            cases hp
            refine ⟨hknown, ?_⟩
            obtain ⟨hsome, hnone⟩ := hsafe db k hdb (.refl k)
            cases claims with
            | none => exact hnone
            | some claims =>
                obtain ⟨i, hi, htoken, rfl⟩ := haccepts token next claims rfl rfl
                obtain ⟨user, membership, hlogin⟩ := hknown i hi
                exact hsome i.claims user membership ⟨i, hi, htoken, rfl, hlogin⟩
        | _ => cases hp

/-- **Whatever requests run together, every handler keeps to the rules.** -/
theorem sound_of_reaches_gateway {c : Config} {g : Gateway} (h : Gateway.Reaches c g) : (reliance c).Sound g :=
  Reliance.sound ((reliance c).sound_init (s := Gateway.init) rfl rfl Consistent.empty fun _ hi => absurd hi List.not_mem_nil) h

end FinSight.Identity
