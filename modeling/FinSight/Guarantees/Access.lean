import FinSight.Guarantees.Memberships
import FinSight.Identity.Access

/-!
# What requests may do, and what they are told

* `permitted_of_reaches` : a request acts on the tenant of the user whose token it carries, within the rights of the role;
* `Found`, `found_of_reaches` : users who sign in are found, with their membership.
-/

namespace FinSight.Identity

open ReadCommitted

variable {c : Config} {g : Gateway}

abbrev Gateway.db (g : Gateway) : Db := g.sessions.system.db

/-- The membership of a user is the only one. -/
def OnlyMembership (db : Db) (user : User) (membership : Membership) : Prop :=
  ∀ m ∈ db.memberships, m.userId = user.id → m = membership

theorem only_of_consistent {db : Db} (h : Consistent db) {user : User} {membership : Membership}
    (hm : membership ∈ db.memberships) (huser : membership.userId = user.id) : OnlyMembership db user membership :=
  fun _ hm' huser' => List.inj_on_of_nodup_map h.once hm' hm (huser'.trans huser.symm)

/-- **A request acts for its user.** Whatever a request does to a tenant's data, it carries a token that was signed in answer
to a login; the password of that login matched the hash of a user, whose only membership is in that tenant. Only owners and
admins add members, void invoices or delete documents, and only the administrator's token starts the overdue job. -/
theorem permitted_of_reaches (h : Gateway.Reaches c g) {i : Nat} {client : Client HttpRequest (Handler Reply) Fault Response}
    (hget : g.sessions.clients[i]? = some client) {p : Handler Reply} (hp : client.stage = .ready p) {e : Effect}
    (he : p.effect = some e) :
    Permitted c g.db g.record client.request e ∧
      ∀ user membership, Permits g.db g.record client.request e user membership → OnlyMembership g.db user membership := by
  have hsound := sound_of_reaches_gateway h
  refine ⟨?_, fun user membership hpermits => ?_⟩
  · have hsafe := hsound.clients hget
    rw [hp] at hsafe
    cases p with
    | ret reply =>
        cases reply with
        | service call =>
            obtain rfl := Option.some.inj he
            exact hsafe _ _ (refl_of Grows _) (.refl _)
        | _ => cases he
    | transact q next =>
        obtain rfl := Option.some.inj he
        exact hsafe.1
    | _ => cases he
  · obtain ⟨claims, token, _, issued, _, _, _, hlogin⟩ := hpermits.signedIn
    exact only_of_consistent hsound.system.inv hlogin.inMemberships hlogin.member

/-- What users who sign in are told. -/
structure Found (g : Gateway) : Prop where
  /-- Every membership that is looked up is there. -/
  membership : ∀ (t : Nat) call r userId, g.sessions.system.calls[t]? = some call → call.status = .finished (.returned r) →
    call.request = .membershipOf userId → ∃ m ∈ g.db.memberships, r = .membership (some m) ∧ m.userId = userId
  current : ∀ (t : Nat) call r userId tenantId, g.sessions.system.calls[t]? = some call →
    call.status = .finished (.returned r) → call.request = .currentUser userId tenantId →
    ∃ p ∈ joined g.db, r = .current (some (.of p)) ∧ p.1.userId = userId ∧ p.1.tenantId = tenantId
  /-- No login is refused for want of a membership. -/
  login : ∀ (i : Nat) client, g.sessions.clients[i]? = some client → client.stage ≠ .ready (.throw (.app noMembership))
  /-- `/me` shows the user of the token, with the role that the token has. -/
  me : ∀ (i : Nat) client row, g.sessions.clients[i]? = some client → client.stage = .ready (.ret (.currentUser row)) →
    ∃ claims user membership, SignedIn g.db g.record client.request claims user membership ∧
      row.userId = user.id ∧ row.userName = user.name ∧ row.userEmail = user.email ∧ row.tenantId = claims.tenantId ∧
      row.role = claims.role

theorem found_of_reaches (h : Gateway.Reaches c g) : Found g := by
  have hsound := sound_of_reaches_gateway h
  refine ⟨fun t call r userId hget hst hq => ?_, fun t call r userId tenantId hget hst hq => ?_, fun i client hget hstage => ?_,
    fun i client row hget hstage => ?_⟩
  · have htold := hsound.told hget hst
    have hasks := hsound.asks call (List.mem_iff_getElem?.mpr ⟨t, hget⟩)
    rw [hq] at htold hasks
    obtain ⟨row, hrow⟩ : ∃ row, r = .membership row := by
      obtain ⟨_, _, _, _, ⟨hcommit, -⟩, -⟩ := htold
      cases hcommit with
      | membership _ _ => exact ⟨_, rfl⟩
    obtain ⟨hfound, hthere⟩ := told_membership htold (by rw [hrow]; rfl)
    cases row with
    | none => exact absurd rfl (hthere hasks)
    | some m =>
        obtain ⟨hm, huser⟩ := hfound m rfl
        exact ⟨m, hm, hrow, huser⟩
  · have htold := hsound.told hget hst
    have hasks := hsound.asks call (List.mem_iff_getElem?.mpr ⟨t, hget⟩)
    rw [hq] at htold hasks
    obtain ⟨row, hrow⟩ : ∃ row, r = .current row := by
      obtain ⟨_, _, _, _, ⟨hcommit, -⟩, -⟩ := htold
      cases hcommit with
      | current _ _ => exact ⟨_, rfl⟩
    obtain ⟨hfound, hthere⟩ := told_current htold (by rw [hrow]; rfl)
    cases row with
    | none => exact absurd rfl (hthere hasks)
    | some row =>
        obtain ⟨p, hp, huser, htenant, rfl⟩ := hfound row rfl
        exact ⟨p, hp, hrow, huser, htenant⟩
  · have hsafe := hsound.clients hget
    rw [hstage] at hsafe
    exact hsafe rfl
  · have hsafe := hsound.clients hget
    rw [hstage] at hsafe
    obtain ⟨claims, user, membership, hsigned, p, hp, huser, htenant, rfl⟩ := hsafe _ _ (refl_of Grows _) (.refl _)
    refine ⟨claims, user, membership, hsigned, ?_⟩
    obtain rfl := hsigned.payload
    obtain ⟨_, _, _, _, _, _, hlogin⟩ := hsigned
    obtain ⟨hm, ⟨hu, hpuser⟩, _, hptenant⟩ := mem_joined.mp hp
    have hsame : p.2.1 = user :=
      List.inj_on_of_nodup_map hsound.system.inv.userIds hu hlogin.inUsers (hpuser.trans huser)
    have honly : p.1 = membership := only_of_consistent hsound.system.inv hlogin.inMemberships hlogin.member p.1 hm huser
    refine ⟨?_, ?_, ?_, ?_, ?_⟩
    · exact congrArg User.id hsame
    · exact congrArg User.name hsame
    · exact congrArg User.email hsame
    · exact hptenant.trans htenant
    · exact congrArg Membership.role honly

/-! ## A day in the office -/

namespace Office

abbrev Event := Move HttpRequest Request Choice Fault Answer

/-- Whether the answer may come. -/
def admits (g : Gateway) : Event → Bool
  | .answer i (.claims (some claims)) =>
      match g.sessions.clients[i]? with
      | some ⟨_, .ready (.verify token _)⟩ => g.record.issued.any fun issued => issued.token = token && issued.claims = claims
      | _ => true
  | _ => true

def run (c : Config) : Gateway → List Event → Option Gateway
  | g, [] => some g
  | g, m :: ms => if admits g m then (g.step recorder engine program (behaviour c) m).bind fun g' => run c g' ms else none

theorem admits_of_eq_true {g : Gateway} {m : Event} (h : admits g m = true) : g.Admits recorder m := by
  rintro i y a p rfl hget token next claims rfl rfl
  rw [admits, hget] at h
  obtain ⟨issued, hissued, hsame⟩ := List.any_eq_true.mp h
  rw [Bool.and_eq_true, decide_eq_true_eq, decide_eq_true_eq] at hsame
  exact ⟨issued, hissued, hsame⟩

theorem reaches_of_run {g g' : Gateway} {events : List Event} (h : Gateway.Reaches c g) (hrun : run c g events = some g') :
    Gateway.Reaches c g' := by
  induction events generalizing g with
  | nil =>
      cases hrun
      exact h
  | cons m ms ih =>
      rw [run] at hrun
      split at hrun
      · next hok =>
        obtain ⟨g₁, hstep, hrest⟩ := Option.bind_eq_some_iff.mp hrun
        exact ih (h.step (admits_of_eq_true hok) hstep) hrest
      · cases hrun

def config : Config := ⟨toLowerCase, text "dummy", none, 10, 5, 20, 30, 20⟩

theorem ascii_bob : ∀ u ∈ text "bob@example.com", u < 128 := by decide

def ada : Email := ⟨text "ada@example.com", Signing.ascii_lower⟩

def bob : Email := ⟨text "bob@example.com", ascii_bob⟩

/-- Client `i` makes its transaction, which is call `t` and has one statement for each id. -/
def transact (i t : Nat) (ids : List Nat) : List Event :=
  .transact i :: ids.map (fun n => .system (.exec t (Signing.choice n))) ++
    [.system (.prepare t), .system (.commit t), .resume i none]

def login (i t : Nat) (email : Email) (token : Text) : List Event :=
  [.request (.login [] email.text (some ⟨email, text "password"⟩)), .answer i (.limited none)] ++ transact i t [0] ++
    [.answer i (.matches true)] ++ transact i (t + 1) [0] ++ [.answer i (.token token)]

def header (token : Text) : Option Text := some (text "Bearer " ++ token)

/-- Ada registers, signs in and adds Bob, who signs in. -/
def events : List Event :=
  [.request (.register [] (some ⟨text "Ada", ada, text "password", text "Engines"⟩)), .answer 0 (.limited none),
    .answer 0 (.hash (text "hash"))] ++ transact 0 0 [1, 2, 3] ++ login 1 1 ada (text "A") ++
    [.request (.authenticated (header (text "A")) (.createMember (some ⟨text "Bob", bob, text "password", .member⟩))),
      .answer 2 (.claims (some ⟨Signing.uuid 2, Signing.uuid 1, .owner⟩)), .answer 2 (.limited none),
      .answer 2 (.hash (text "hash"))] ++ transact 2 3 [4, 5] ++ login 3 4 bob (text "B")

theorem storable_epoch : (⟨0⟩ : Date).storable = true := by decide

def now : Reading := ⟨⟨0⟩, storable_epoch⟩

/-- Both want to void an invoice, for a tenant of their choice, and Bob asks who he is. -/
def voids : List Event :=
  [.request (.authenticated (header (text "A")) (.voidInvoice ⟨text "invoice", Signing.uuid 9, now⟩)),
    .answer 4 (.claims (some ⟨Signing.uuid 2, Signing.uuid 1, .owner⟩)),
    .request (.authenticated (header (text "B")) (.voidInvoice ⟨text "invoice", Signing.uuid 1, now⟩)),
    .answer 5 (.claims (some ⟨Signing.uuid 4, Signing.uuid 1, .member⟩)),
    .request (.authenticated (header (text "B")) .me), .answer 6 (.claims (some ⟨Signing.uuid 4, Signing.uuid 1, .member⟩))] ++
    transact 6 6 [0]

/-- The tenant of what a client is about to do, how it was refused, and who it is told it is. -/
def shown (g : Gateway) (i : Nat) : Option Uuid × Option Refusal × Option (Uuid × Role) :=
  match g.sessions.clients[i]? with
  | some ⟨_, .ready (.throw e)⟩ => (none, some e, none)
  | some ⟨_, .ready (.ret (.currentUser row))⟩ => (none, none, some (row.userId, row.role))
  | some ⟨_, .ready p⟩ => (p.effect.bind Effect.tenantId, none, none)
  | _ => (none, none, none)

theorem effect_of_shown {g : Gateway} {i : Nat} {t : Uuid} (h : (shown g i).1 = some t) :
    ∃ client p e, g.sessions.clients[i]? = some client ∧ client.stage = .ready p ∧ p.effect = some e ∧ e.tenantId = some t := by
  unfold shown at h
  split at h
  · cases h
  · cases h
  · next a p _ _ hget =>
    obtain ⟨e, he, ht⟩ := Option.bind_eq_some_iff.mp h
    exact ⟨_, p, e, hget, rfl, he, ht⟩
  · cases h

/-- Ada's request is for her tenant, Bob's is refused, and Bob is told who he is. -/
theorem reaches_voids : ∃ g : Gateway, Gateway.Reaches config g ∧ shown g 4 = (some (Signing.uuid 1), none, none) ∧
    shown g 5 = (none, some (.app forbidden), none) ∧ shown g 6 = (none, none, some (Signing.uuid 4, .member)) := by
  obtain ⟨g, hrun, hshown⟩ := Option.map_eq_some_iff.mp
    (by decide : ((run config Gateway.init (events ++ voids)).map fun g => [shown g 4, shown g 5, shown g 6]) =
      some [(some (Signing.uuid 1), none, none), (none, some (.app forbidden), none),
        (none, none, some (Signing.uuid 4, .member))])
  obtain ⟨h₄, hrest⟩ := List.cons.inj hshown
  obtain ⟨h₅, hrest⟩ := List.cons.inj hrest
  exact ⟨g, reaches_of_run .refl hrun, h₄, h₅, (List.cons.inj hrest).1⟩

end Office

theorem permitted_of_office : ∃ (g : Gateway) (client : Client HttpRequest (Handler Reply) Fault Response) (e : Effect),
    g.sessions.clients[4]? = some client ∧ e.tenantId = some (Signing.uuid 1) ∧
      Permitted Office.config g.db g.record client.request e := by
  obtain ⟨g, hreaches, hshown, -⟩ := Office.reaches_voids
  obtain ⟨client, p, e, hget, hp, he, ht⟩ := Office.effect_of_shown (congrArg Prod.fst hshown)
  exact ⟨g, client, e, hget, ht, (permitted_of_reaches hreaches hget hp he).1⟩

theorem found_of_office : ∃ g : Gateway, Found g ∧ Office.shown g 6 = (none, none, some (Signing.uuid 4, .member)) := by
  obtain ⟨g, hreaches, -, -, hshown⟩ := Office.reaches_voids
  exact ⟨g, found_of_reaches hreaches, hshown⟩

end FinSight.Identity
