import FinSight.Identity.Consistent
import FinSight.Identity.Handlers
import FinSight.ReadCommitted.Recorded

/-!
# Tokens and what they stand for

Any number of requests, their handlers stopped at transactions, bcrypt, tokens and limiters, against one database.

* `Answer`, `behaviour` : how handlers go on;
* `Record`, `recorder` : the tokens that have been signed and the passwords that have matched. What is verified has been
  signed before, with the same payload: nobody else has the secret;
* `Login` : a payload was signed at a login with the right password, for this user and this membership;
* `Handler.Safe`, `Handler.Safe.bind` : the rules for handlers.
-/

namespace FinSight.Identity

open ReadCommitted

inductive Answer where
  | hash (passwordHash : Text)
  | matches (passwordMatches : Bool)
  | token (token : Text)
  | claims (claims : Option Claims)
  | limited (e : Option RateLimited)

def Handler.transaction? : Handler Reply → Option (Request × (Except Fault Response → Handler Reply))
  | .transact q next => some (q, next)
  | _ => none

def Handler.answer : Handler Reply → Answer → Option (Handler Reply)
  | .bcryptHash _ next, .hash passwordHash => some (next passwordHash)
  | .bcryptCompare _ _ next, .matches passwordMatches => some (next passwordMatches)
  | .sign _ next, .token token => some (next token)
  | .verify _ next, .claims claims => some (next claims)
  | .limit _ _ next, .limited e => some (next e)
  | _, _ => none

def behaviour (c : Config) : Behaviour Fault Request Response HttpRequest (Handler Reply) Fault Answer where
  start := handle c
  transaction := Handler.transaction?
  answer := Handler.answer
  thrown := id

/-- A token, its payload, and the request that has been given it. -/
structure Issued where
  token : Text
  claims : Claims
  request : HttpRequest

/-- `matched` : a password and the hash that it matches. -/
structure Record where
  issued : List Issued
  matched : List (Text × Text)

def recorder : Recorder HttpRequest (Handler Reply) Answer Record where
  accepts k p y := ∀ token next claims, p = .verify token next → y = .claims (some claims) →
    ∃ i ∈ k.issued, i.token = token ∧ i.claims = claims
  note k a
    | .sign claims _, .token token => { k with issued := k.issued ++ [⟨token, claims, a⟩] }
    | .bcryptCompare password passwordHash _, .matches true => { k with matched := k.matched ++ [(password, passwordHash)] }
    | _, _ => k

abbrev Gateway := Recorded Db Write Lock Fault Choice Request Response HttpRequest (Handler Reply) Fault Record

def Gateway.init : Gateway := ⟨⟨Identity.init, []⟩, ⟨[], []⟩⟩

abbrev Gateway.Reaches (c : Config) (g : Gateway) : Prop :=
  Recorded.Reachable recorder engine program (behaviour c) Gateway.init g

/-! ## Logins -/

structure Later (k k' : Record) : Prop where
  issued : ∀ i ∈ k.issued, i ∈ k'.issued
  matched : ∀ p ∈ k.matched, p ∈ k'.matched

theorem Later.refl (k : Record) : Later k k := ⟨fun _ h => h, fun _ h => h⟩

theorem Later.trans {k k' k'' : Record} (h₁ : Later k k') (h₂ : Later k' k'') : Later k k'' :=
  ⟨fun i h => h₂.issued i (h₁.issued i h), fun p h => h₂.matched p (h₁.matched p h)⟩

theorem later_note (k : Record) (a : HttpRequest) (p : Handler Reply) (y : Answer) : Later k (recorder.note k a p y) := by
  unfold recorder
  dsimp only
  split
  · exact ⟨fun _ h => List.mem_append_left _ h, fun _ h => h⟩
  · exact ⟨fun _ h => h, fun _ h => List.mem_append_left _ h⟩
  · exact .refl k

/-- The login of `user`, with `membership` in the payload. -/
structure Login (db : Db) (k : Record) (a : HttpRequest) (claims : Claims) (user : User) (membership : Membership) : Prop where
  request : ∃ ip attempted body, a = .login ip attempted (some body) ∧ user.email = normalizeEmail body.email ∧
    (body.password, user.passwordHash) ∈ k.matched
  inUsers : user ∈ db.users
  inMemberships : membership ∈ db.memberships
  member : membership.userId = user.id
  payload : claims = ⟨user.id, membership.tenantId, membership.role⟩

theorem Login.later {db db' : Db} {k k' : Record} {a : HttpRequest} {claims : Claims} {user : User} {membership : Membership}
    (h : Login db k a claims user membership) (hgrow : Grows db db') (hlater : Later k k') :
    Login db' k' a claims user membership where
  request := by
    obtain ⟨ip, attempted, body, ha, hemail, hmatched⟩ := h.request
    exact ⟨ip, attempted, body, ha, hemail, hlater.matched _ hmatched⟩
  inUsers := hgrow.users _ h.inUsers
  inMemberships := hgrow.memberships _ h.inMemberships
  member := h.member
  payload := h.payload

/-- Every token comes from a login. -/
def Known (db : Db) (k : Record) : Prop := ∀ i ∈ k.issued, ∃ user membership, Login db k i.request i.claims user membership

theorem Known.later {db db' : Db} {k k' : Record} (h : Known db k) (hgrow : Grows db db') (hlater : Later k k') :
    ∀ i ∈ k.issued, ∃ user membership, Login db' k' i.request i.claims user membership := by
  intro i hi
  obtain ⟨user, membership, hlogin⟩ := h i hi
  exact ⟨user, membership, hlogin.later hgrow hlater⟩

/-- What the statements of a request need to find. -/
def Asks (db : Db) : Request → Prop
  | .membershipOf userId => ∃ u ∈ db.users, u.id = userId
  | .currentUser userId tenantId => ∃ m ∈ db.memberships, m.userId = userId ∧ m.tenantId = tenantId
  | .register _ | .createMember _ | .userByEmail _ | .members _ => True

theorem Asks.later {q : Request} {db db' : Db} (h : Asks db q) (hgrow : Grows db db') : Asks db' q := by
  cases q with
  | membershipOf userId =>
      obtain ⟨u, hu, hid⟩ := h
      exact ⟨u, hgrow.users u hu, hid⟩
  | currentUser userId tenantId =>
      obtain ⟨m, hm, hkey⟩ := h
      exact ⟨m, hgrow.memberships m hm, hkey⟩
  | register _ | createMember _ | userByEmail _ | members _ => trivial

/-! ## Rules for handlers -/

/-- `can` : what a handler may do in its transactions, `post` : what its result says, `refused` : how it may give up. -/
structure Policy where
  can : Db → Record → Request → Prop
  refused : Refusal → Prop
  can_later : ∀ {db db' k k' q}, Grows db db' → Later k k' → can db k q → can db' k' q
  refused_fault : ∀ e, refused (.fault e)

namespace Handler
variable {α β : Type} (P : Policy) (a : HttpRequest)

def Safe (post : Db → Record → α → Prop) (db : Db) (k : Record) : Handler α → Prop
  | .ret x => ∀ db' k', Grows db db' → Later k k' → post db' k' x
  | .throw e => P.refused e
  | .transact q next => P.can db k q ∧ Asks db q ∧ ∀ origin db' k', Grows db origin → Grows origin db' → Later k k' →
      (∀ r, Told discipline q origin r db' → (next (.ok r)).Safe post db' k') ∧ ∀ e, (next (.error e)).Safe post db' k'
  | .bcryptHash _ next => ∀ db' k', Grows db db' → Later k k' → ∀ h, (next h).Safe post db' k'
  | .bcryptCompare password passwordHash next => ∀ db' k', Grows db db' → Later k k' →
      ((password, passwordHash) ∈ k'.matched → (next true).Safe post db' k') ∧ (next false).Safe post db' k'
  | .sign claims next => (∃ user membership, Login db k a claims user membership) ∧
      ∀ db' k', Grows db db' → Later k k' → ∀ token, ⟨token, claims, a⟩ ∈ k'.issued → (next token).Safe post db' k'
  | .verify token next => ∀ db' k', Grows db db' → Later k k' →
      (∀ claims user membership, (∃ i ∈ k'.issued, i.token = token ∧ i.claims = claims ∧
        Login db' k' i.request claims user membership) → (next (some claims)).Safe post db' k') ∧ (next none).Safe post db' k'
  | .limit _ _ next => ∀ db' k', Grows db db' → Later k k' → ∀ e, (next e).Safe post db' k'

variable {P a} {post : Db → Record → α → Prop} {db : Db} {k : Record}

theorem Safe.later {p : Handler α} {db' : Db} {k' : Record} (h : p.Safe P a post db k) (hgrow : Grows db db') (hlater : Later k k') :
    p.Safe P a post db' k' := by
  have hdb {x : Db} (hx : Grows db' x) : Grows db x := trans_of Grows hgrow hx
  have hk {x : Record} (hx : Later k' x) : Later k x := hlater.trans hx
  cases p with
  | ret x => exact fun db'' k'' h₁ h₂ => h db'' k'' (hdb h₁) (hk h₂)
  | throw e => exact h
  | transact q next =>
      obtain ⟨hcan, hasks, hnext⟩ := h
      exact ⟨P.can_later hgrow hlater hcan, hasks.later hgrow, fun o db'' k'' h₀ h₁ h₂ => hnext o db'' k'' (hdb h₀) h₁ (hk h₂)⟩
  | bcryptHash password next => exact fun db'' k'' h₁ h₂ => h db'' k'' (hdb h₁) (hk h₂)
  | bcryptCompare password passwordHash next => exact fun db'' k'' h₁ h₂ => h db'' k'' (hdb h₁) (hk h₂)
  | sign claims next =>
      obtain ⟨⟨user, membership, hlogin⟩, hnext⟩ := h
      exact ⟨⟨user, membership, hlogin.later hgrow hlater⟩, fun db'' k'' h₁ h₂ => hnext db'' k'' (hdb h₁) (hk h₂)⟩
  | verify token next => exact fun db'' k'' h₁ h₂ => h db'' k'' (hdb h₁) (hk h₂)
  | limit l key next => exact fun db'' k'' h₁ h₂ => h db'' k'' (hdb h₁) (hk h₂)

/-- First `p`, then `f` with its result. -/
theorem Safe.bind {p : Handler α} {f : α → Handler β} {post : Db → Record → β → Prop}
    (h : p.Safe P a (fun db' k' x => (f x).Safe P a post db' k') db k) : (p >>= f).Safe P a post db k := by
  show (p.bind f).Safe P a post db k
  induction p generalizing db k with
  | ret x => exact h db k (refl_of Grows db) (.refl k)
  | throw e => exact h
  | transact q next ih =>
      obtain ⟨hcan, hasks, hnext⟩ := h
      refine ⟨hcan, hasks, fun o db' k' h₀ h₁ h₂ => ⟨fun r hr => ih _ ((hnext o db' k' h₀ h₁ h₂).1 r hr), fun e => ih _ ?_⟩⟩
      exact (hnext o db' k' h₀ h₁ h₂).2 e
  | bcryptHash password next ih => exact fun db' k' h₁ h₂ x => ih _ (h db' k' h₁ h₂ x)
  | bcryptCompare password passwordHash next ih =>
      exact fun db' k' h₁ h₂ => ⟨fun hmatched => ih _ ((h db' k' h₁ h₂).1 hmatched), ih _ (h db' k' h₁ h₂).2⟩
  | sign claims next ih => exact ⟨h.1, fun db' k' h₁ h₂ token hissued => ih _ (h.2 db' k' h₁ h₂ token hissued)⟩
  | verify token next ih =>
      exact fun db' k' h₁ h₂ => ⟨fun claims user membership hholder =>
        ih _ ((h db' k' h₁ h₂).1 claims user membership hholder), ih _ (h db' k' h₁ h₂).2⟩
  | limit l key next ih => exact fun db' k' h₁ h₂ e => ih _ (h db' k' h₁ h₂ e)

/-- `db₀` and `k₀` : where the handler has begun. -/
theorem Safe.since {db₀ : Db} {k₀ : Record} {p : Handler α} {post' : Db → Record → α → Prop} (h : p.Safe P a post db k)
    (hdb : Grows db₀ db) (hk : Later k₀ k) (hpost : ∀ db' k' x, Grows db₀ db' → Later k₀ k' → post db' k' x → post' db' k' x) :
    p.Safe P a post' db k := by
  induction p generalizing db k with
  | ret x => exact fun db' k' h₁ h₂ => hpost _ _ _ (trans_of Grows hdb h₁) (hk.trans h₂) (h db' k' h₁ h₂)
  | throw e => exact h
  | transact q next ih =>
      obtain ⟨hcan, hasks, hnext⟩ := h
      refine ⟨hcan, hasks, fun o db' k' h₀ h₁ h₂ => ?_⟩
      obtain ⟨hok, herror⟩ := hnext o db' k' h₀ h₁ h₂
      have hdb' := trans_of Grows hdb (trans_of Grows h₀ h₁)
      exact ⟨fun r hr => ih _ (hok r hr) hdb' (hk.trans h₂), fun e => ih _ (herror e) hdb' (hk.trans h₂)⟩
  | bcryptHash password next ih =>
      exact fun db' k' h₁ h₂ x => ih _ (h db' k' h₁ h₂ x) (trans_of Grows hdb h₁) (hk.trans h₂)
  | bcryptCompare password passwordHash next ih =>
      intro db' k' h₁ h₂
      obtain ⟨htrue, hfalse⟩ := h db' k' h₁ h₂
      have hdb' := trans_of Grows hdb h₁
      exact ⟨fun hmatched => ih _ (htrue hmatched) hdb' (hk.trans h₂), ih _ hfalse hdb' (hk.trans h₂)⟩
  | sign claims next ih =>
      refine ⟨h.1, fun db' k' h₁ h₂ token hissued => ?_⟩
      exact ih _ (h.2 db' k' h₁ h₂ token hissued) (trans_of Grows hdb h₁) (hk.trans h₂)
  | verify token next ih =>
      intro db' k' h₁ h₂
      obtain ⟨hsome, hnone⟩ := h db' k' h₁ h₂
      have hdb' := trans_of Grows hdb h₁
      exact ⟨fun claims user membership hlogin => ih _ (hsome claims user membership hlogin) hdb' (hk.trans h₂),
        ih _ hnone hdb' (hk.trans h₂)⟩
  | limit l key next ih => exact fun db' k' h₁ h₂ e => ih _ (h db' k' h₁ h₂ e) (trans_of Grows hdb h₁) (hk.trans h₂)

/-- What is known of the result, in a later world. -/
theorem Safe.mono {p : Handler α} {post' : Db → Record → α → Prop} (h : p.Safe P a post db k)
    (hpost : ∀ db' k' x, Grows db db' → Later k k' → post db' k' x → post' db' k' x) : p.Safe P a post' db k :=
  h.since (refl_of Grows db) (.refl k) hpost

/-- First `p`, whose result is known, then `f`. -/
theorem Safe.seq {p : Handler α} {f : α → Handler β} {post' : Db → Record → β → Prop} (h : p.Safe P a post db k)
    (hf : ∀ db' k' x, Grows db db' → Later k k' → post db' k' x → (f x).Safe P a post' db' k') :
    (p >>= f).Safe P a post' db k := (h.mono hf).bind

theorem safe_parsed {body : Option α} (hinvalid : P.refused .invalid)
    (h : ∀ x, body = some x → ∀ db' k', Grows db db' → Later k k' → post db' k' x) : (parsed body).Safe P a post db k := by
  cases body with
  | none => exact hinvalid
  | some x => exact h x rfl

theorem safe_transaction {q : Request} {take : Response → Option α} (hcan : P.can db k q) (hasks : Asks db q)
    (h : ∀ origin db' k' r x, Grows db origin → Grows origin db' → Later k k' → Told discipline q origin r db' → take r = some x →
      post db' k' x) : (transaction q take).Safe P a post db k := by
  refine ⟨hcan, hasks, fun origin db' k' h₀ h₁ h₂ => ⟨fun r hr => ?_, fun e => P.refused_fault _⟩⟩
  dsimp only
  split
  · next x hx =>
    exact fun db'' k'' h₃ h₄ => h origin db'' k'' r x h₀ (trans_of Grows h₁ h₃) (h₂.trans h₄) (hr.later h₃) hx
  · exact P.refused_fault _

end Handler

end FinSight.Identity
