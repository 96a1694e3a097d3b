import FinSight.Identity.Service
import FinSight.Lists.Keyed
import FinSight.ReadCommitted.Discipline
import FinSight.ReadCommitted.Rules

/-!
# Every interleaving leaves users, tenants and memberships consistent

* `observe`, `Write.needs` : what the locks protect, and what a write needs;
* `Consistent` : what holds of the three tables together;
* `Commit origin db now q r log` : the request `q`, begun at the database `origin`, commits `log` on top of `db`;
* `program_meets`, `discipline` : the services keep to it, in any interleaving;
* `consistent_of_reaches`, `commit_of_step` : what follows for every run.
-/

namespace FinSight.Identity

open ReadCommitted

/-! ## Locks -/

/-- Whether the id or the entry of the unique index is taken. -/
def observe (db : Db) : Lock → Bool
  | .tenant id => db.tenants.any fun t => t.id = id
  | .user id => db.users.any fun u => u.id = id
  | .userEmail email => db.users.any fun u => u.email = email
  | .membership id => db.memberships.any fun m => m.id = id
  | .membershipKey userId tenantId => db.memberships.any fun m => m.userId = userId && m.tenantId = tenantId

def Write.needs (_ : Db) : Write → List Lock
  | .tenant row => [.tenant row.id]
  | .user row => [.user row.id, .userEmail row.email]
  | .membership row => [.membership row.id, .membershipKey row.userId row.tenantId]

theorem observe_apply (db : Db) (w : Write) (ℓ : Lock) (h : ℓ ∉ w.needs db) : observe (engine.apply db w) ℓ = observe db ℓ := by
  cases w with
  | tenant row =>
      cases ℓ with
      | tenant id =>
          have hid : row.id ≠ id := fun hid => h (by simp [Write.needs, hid])
          simp [observe, Db.apply, hid]
      | _ => rfl
  | user row =>
      cases ℓ with
      | user id =>
          have hid : row.id ≠ id := fun hid => h (by simp [Write.needs, hid])
          simp [observe, Db.apply, hid]
      | userEmail email =>
          have hemail : row.email ≠ email := fun hemail => h (by simp [Write.needs, hemail])
          simp [observe, Db.apply, hemail]
      | _ => rfl
  | membership row =>
      cases ℓ with
      | membership id =>
          have hid : row.id ≠ id := fun hid => h (by simp [Write.needs, hid])
          simp [observe, Db.apply, hid]
      | membershipKey userId tenantId =>
          have hkey : ¬ (row.userId = userId ∧ row.tenantId = tenantId) := fun hkey => h (by simp [Write.needs, hkey.1, hkey.2])
          simp [observe, Db.apply, hkey]
      | _ => rfl

/-- Rows stay. -/
structure Grows (a b : Db) : Prop where
  tenants : ∀ t ∈ a.tenants, t ∈ b.tenants
  users : ∀ u ∈ a.users, u ∈ b.users
  memberships : ∀ m ∈ a.memberships, m ∈ b.memberships

instance Grows.isPreorder : IsPreorder Db Grows where
  refl _ := ⟨fun _ h => h, fun _ h => h, fun _ h => h⟩
  trans _ _ _ h₁ h₂ :=
    ⟨fun t h => h₂.tenants t (h₁.tenants t h), fun u h => h₂.users u (h₁.users u h),
      fun m h => h₂.memberships m (h₁.memberships m h)⟩

theorem grows_apply (db : Db) (w : Write) : Grows db (db.apply w) := by
  cases w with
  | tenant row => exact ⟨fun _ h => List.mem_append_left _ h, fun _ h => h, fun _ h => h⟩
  | user row => exact ⟨fun _ h => h, fun _ h => List.mem_append_left _ h, fun _ h => h⟩
  | membership row => exact ⟨fun _ h => h, fun _ h => h, fun _ h => List.mem_append_left _ h⟩

theorem grows_view (log : List Write) (db : Db) : Grows db (engine.view log db) := by
  induction log generalizing db with
  | nil => exact refl_of Grows db
  | cons w log ih => exact trans_of Grows (grows_apply db w) (ih (db.apply w))

abbrev protocol : Protocol Db Lock := .observing observe Grows

/-! ## Consistent tables -/

structure Consistent (db : Db) : Prop where
  tenantIds : (db.tenants.map (·.id)).Nodup
  userIds : (db.users.map (·.id)).Nodup
  emails : (db.users.map (·.email)).Nodup
  normalized : ∀ u ∈ db.users, ∃ email, u.email = normalizeEmail email
  /-- No user is a member twice. -/
  once : (db.memberships.map (·.userId)).Nodup
  member : ∀ u ∈ db.users, ∃ m ∈ db.memberships, m.userId = u.id
  user : ∀ m ∈ db.memberships, ∃ u ∈ db.users, u.id = m.userId
  tenant : ∀ m ∈ db.memberships, ∃ t ∈ db.tenants, t.id = m.tenantId
  owner : ∀ t ∈ db.tenants, ∃ m ∈ db.memberships, m.tenantId = t.id ∧ m.role = .owner
  oneOwner : ((db.memberships.filter fun m => m.role = .owner).map (·.tenantId)).Nodup

theorem Consistent.empty : Consistent Db.empty :=
  ⟨.nil, .nil, .nil, fun _ h => absurd h List.not_mem_nil, .nil, fun _ h => absurd h List.not_mem_nil,
    fun _ h => absurd h List.not_mem_nil, fun _ h => absurd h List.not_mem_nil, fun _ h => absurd h List.not_mem_nil, .nil⟩

/-- A new user joins a tenant, as its owner where the tenant is new, too. -/
theorem Consistent.join {db : Db} (h : Consistent db) (new : List Tenant) {user : User} {membership : Membership}
    (hids : ((db.tenants ++ new).map (·.id)).Nodup) (hemail : ∃ email, user.email = normalizeEmail email)
    (hfresh : ∀ u ∈ db.users, u.id ≠ user.id ∧ u.email ≠ user.email) (huser : membership.userId = user.id)
    (htenant : ∃ t ∈ db.tenants ++ new, t.id = membership.tenantId)
    (hnew : ∀ t ∈ new, membership.tenantId = t.id ∧ membership.role = .owner)
    (hrole : membership.role = .owner → ∀ t ∈ db.tenants, t.id ≠ membership.tenantId) :
    Consistent ⟨db.tenants ++ new, db.users ++ [user], db.memberships ++ [membership]⟩ where
  tenantIds := hids
  userIds := Keyed.nodup_concat h.userIds fun u hu => (hfresh u hu).1
  emails := Keyed.nodup_concat h.emails fun u hu => (hfresh u hu).2
  normalized u hu := by
    rcases List.mem_append.mp hu with hu | hu
    · exact h.normalized u hu
    · exact List.mem_singleton.mp hu ▸ hemail
  once := by
    refine Keyed.nodup_concat h.once fun m hm => ?_
    obtain ⟨u, hu, hid⟩ := h.user m hm
    rw [huser, ← hid]
    exact (hfresh u hu).1
  member u hu := by
    rcases List.mem_append.mp hu with hu | hu
    · obtain ⟨m, hm, hid⟩ := h.member u hu
      exact ⟨m, List.mem_append_left _ hm, hid⟩
    · exact ⟨membership, List.mem_append_right _ (List.mem_singleton_self _), List.mem_singleton.mp hu ▸ huser⟩
  user m hm := by
    rcases List.mem_append.mp hm with hm | hm
    · obtain ⟨u, hu, hid⟩ := h.user m hm
      exact ⟨u, List.mem_append_left _ hu, hid⟩
    · exact ⟨user, List.mem_append_right _ (List.mem_singleton_self _), List.mem_singleton.mp hm ▸ huser.symm⟩
  tenant m hm := by
    rcases List.mem_append.mp hm with hm | hm
    · obtain ⟨t, ht, hid⟩ := h.tenant m hm
      exact ⟨t, List.mem_append_left _ ht, hid⟩
    · exact List.mem_singleton.mp hm ▸ htenant
  owner t ht := by
    rcases List.mem_append.mp ht with ht | ht
    · obtain ⟨m, hm, hown⟩ := h.owner t ht
      exact ⟨m, List.mem_append_left _ hm, hown⟩
    · exact ⟨membership, List.mem_append_right _ (List.mem_singleton_self _), hnew t ht⟩
  oneOwner := by
    rw [List.filter_append]
    by_cases howner : membership.role = .owner
    · rw [List.filter_cons_of_pos (by simpa using howner), List.filter_nil]
      refine Keyed.nodup_concat h.oneOwner fun m hm => ?_
      obtain ⟨t, ht, hid⟩ := h.tenant m (List.mem_filter.mp hm).1
      rw [← hid]
      exact hrole howner t ht
    · rw [List.filter_cons_of_neg (by simpa using howner), List.filter_nil, List.append_nil]
      exact h.oneOwner

/-! ## Commits -/

/-- The row of a new user. -/
structure Joins (db : Db) (now : Timestamp) (name : Text) (email : Email) (passwordHash : Text) (user : User) : Prop where
  row : user = ⟨user.id, toWellFormed name, normalizeEmail email, passwordHash, now⟩
  fresh : ∀ u ∈ db.users, u.id ≠ user.id ∧ u.email ≠ user.email

inductive Commit (origin db : Db) (now : Timestamp) : Request → Response → List Write → Prop
  | registered {r : Registration} {tenant : Tenant} {user : User} {membership : Membership} :
      tenant = ⟨tenant.id, toWellFormed r.tenantName, now⟩ → (∀ t ∈ db.tenants, t.id ≠ tenant.id) →
      Joins db now r.name r.email r.passwordHash user → membership = ⟨membership.id, user.id, tenant.id, .owner, now⟩ →
      Commit origin db now (.register r) (.registered (toPublicUser user) tenant)
        [.tenant tenant, .user user, .membership membership]
  | created {r : NewMember} {user : User} {membership : Membership} :
      (∃ t ∈ db.tenants, t.id = r.tenantId) → Joins db now r.name r.email r.passwordHash user →
      membership = ⟨membership.id, user.id, r.tenantId, r.role.role, now⟩ →
      Commit origin db now (.createMember r) (.created (toPublicUser user) membership.role)
        [.user user, .membership membership]
  | user {email : Text} {row : Option User} : (∀ u, row = some u → u ∈ db.users ∧ u.email = email) →
      Commit origin db now (.userByEmail email) (.user row) []
  | membership {userId : Uuid} {row : Option Membership} :
      (∀ m, row = some m → m ∈ db.memberships ∧ m.userId = userId) → ((∃ u ∈ origin.users, u.id = userId) → row ≠ none) →
      Commit origin db now (.membershipOf userId) (.membership row) []
  | current {userId tenantId : Uuid} {row : Option CurrentUser} :
      (∀ c, row = some c → ∃ p ∈ joined db, p.1.userId = userId ∧ p.1.tenantId = tenantId ∧ c = .of p) →
      ((∃ m ∈ origin.memberships, m.userId = userId ∧ m.tenantId = tenantId) → row ≠ none) →
      Commit origin db now (.currentUser userId tenantId) (.current row) []
  | members {tenantId : Uuid} {rows : List MemberRow} :
      (∀ row ∈ rows, ∃ m ∈ db.memberships, m.tenantId = tenantId ∧ m.userId = row.userId ∧ m.role = row.role) →
      (∀ m ∈ origin.memberships, m.tenantId = tenantId → ∃ row ∈ rows, row.userId = m.userId ∧ row.role = m.role) →
      Commit origin db now (.members tenantId) (.members rows) []

theorem Commit.consistent {origin db : Db} {now : Timestamp} {q : Request} {r : Response} {log : List Write}
    (h : Consistent db) (hc : Commit origin db now q r log) : Consistent (engine.view log db) := by
  cases hc with
  | @registered r tenant user membership _ hnew huser hmembership =>
      have hids : ((db.tenants ++ [tenant]).map Tenant.id).Nodup := Keyed.nodup_concat h.tenantIds hnew
      refine h.join [tenant] hids ⟨r.email, by rw [huser.row]⟩ huser.fresh ?_ ?_ ?_ ?_
      · rw [hmembership]
      · exact ⟨tenant, List.mem_append_right _ (List.mem_singleton_self _), by rw [hmembership]⟩
      · intro t ht
        rw [List.mem_singleton.mp ht, hmembership]
        exact ⟨rfl, rfl⟩
      · intro _ t ht
        rw [hmembership]
        exact hnew t ht
  | @created r user membership htenant huser hmembership =>
      have hids : ((db.tenants ++ []).map Tenant.id).Nodup := by
        rw [List.append_nil]
        exact h.tenantIds
      have hrole : membership.role ≠ .owner := by
        rw [hmembership]
        cases hrole : r.role <;> exact Role.noConfusion
      have huserId : membership.userId = user.id := by rw [hmembership]
      have hthere : ∃ t ∈ db.tenants ++ [], t.id = membership.tenantId := by
        rw [hmembership, List.append_nil]
        exact htenant
      have hjoin := h.join [] hids ⟨r.email, by rw [huser.row]⟩ huser.fresh huserId hthere
        (fun t ht => absurd ht List.not_mem_nil) fun howner => absurd howner hrole
      rw [List.append_nil] at hjoin
      exact hjoin
  | user _ => exact h
  | membership _ _ => exact h
  | current _ _ => exact h
  | members _ _ => exact h

/-! ## The services keep to it -/

section
variable {α β : Type} {now : Nat} {fin : Db} {A : Tx β → Db → Prop} {Q : β → Db → List Write → List Lock → Prop}
  {prev : Db} {log : List Write} {locks : List Lock}

/-- The ends of a program; nothing is said of its errors. -/
abbrev Spec (now : Nat) (fin : Db) (A : Tx β → Db → Prop) (Q : β → Db → List Write → List Lock → Prop) (p : Tx β) (prev : Db)
    (log : List Write) (locks : List Lock) : Prop := p.Meets engine protocol now fin A Q (fun _ _ _ => True) prev log locks

theorem goes_checked {checks : List (Bool × SqlState)} {reply : Reply Write Lock Fault α} {k : α → Tx β} {db : Db}
    (h : (∀ c ∈ checks, c.1 = true) → Continues engine protocol now fin A Q (fun _ _ _ => True) k db log locks reply) :
    Continues engine protocol now fin A Q (fun _ _ _ => True) k db log locks (checked checks reply) :=
  Sql.continues_checked (fun _ _ => trivial) h

/-- What is free stays free while it is locked. -/
theorem free_of_locked {db : Db} {ℓ : Lock} (h : protocol.Rely locks db fin) (hℓ : ℓ ∈ locks) (hfree : observe db ℓ = false) :
    observe fin ℓ = false := (h.agree ℓ hℓ).trans hfree

theorem meets_insertTenant {name : Text} {k : Tenant → Tx β}
    (h : ∀ db (t : Tenant), t = ⟨t.id, toWellFormed name, now⟩ → (∀ x ∈ fin.tenants, x.id ≠ t.id) →
      Spec now fin A Q (k t) db [.tenant t] [.tenant t.id]) :
    Spec now fin A Q (Program.statement (insertTenant name) >>= k) prev [] [] := by
  refine Program.Meets.call fun db c _ _ _ => goes_checked fun hall hl => ?_
  rw [Engine.view_nil] at hall
  refine h db _ rfl fun x hx hid => ?_
  have hnew := hall _ (List.mem_cons_of_mem _ List.mem_cons_self)
  have hfree := free_of_locked hl (ℓ := .tenant (c.fresh 0)) (List.mem_singleton_self _) (by
    rw [observe, List.any_eq_false]
    intro t ht
    simpa using List.all_eq_true.mp hnew t ht)
  exact List.any_eq_false.mp hfree x hx (decide_eq_true hid)

theorem meets_insertUser {name passwordHash : Text} {email : Email} {k : User → Tx β}
    (hlog : ∀ db, (engine.view log db).users = db.users)
    (h : ∀ db u, Joins fin now name email passwordHash u →
      Spec now fin A Q (k u) db (log ++ [.user u]) (locks ++ [.user u.id, .userEmail u.email])) :
    Spec now fin A Q (Program.statement (insertUser name (normalizeEmail email) passwordHash) >>= k) prev log locks := by
  refine Program.Meets.call fun db c _ _ _ => goes_checked fun hall hl => ?_
  rw [hlog] at hall
  have hnew := List.all_eq_true.mp (hall _ (List.mem_cons_of_mem _ List.mem_cons_self))
  have hid := free_of_locked hl (ℓ := .user (c.fresh 0)) (by simp) (by
    rw [observe, List.any_eq_false]
    intro u hu
    have hu := hnew u hu
    simp only [Bool.and_eq_true, decide_eq_true_eq] at hu
    simpa using hu.1)
  have hemail := free_of_locked hl (ℓ := .userEmail (normalizeEmail email)) (by simp) (by
    rw [observe, List.any_eq_false]
    intro u hu
    have hu := hnew u hu
    simp only [Bool.and_eq_true, decide_eq_true_eq] at hu
    simpa using hu.2)
  refine h db _ ⟨rfl, fun x hx => ⟨fun heq => ?_, fun heq => ?_⟩⟩
  · exact List.any_eq_false.mp hid x hx (decide_eq_true heq)
  · exact List.any_eq_false.mp hemail x hx (decide_eq_true heq)

theorem meets_insertMembership {userId tenantId : Uuid} {role : Role} {k : Membership → Tx β}
    (h : ∀ db (m : Membership), m = ⟨m.id, userId, tenantId, role, now⟩ → (∃ t ∈ (engine.view log db).tenants, t.id = tenantId) →
      Grows db fin → Spec now fin A Q (k m) db (log ++ [.membership m]) (locks ++ [.membership m.id, .membershipKey userId tenantId])) :
    Spec now fin A Q (Program.statement (insertMembership userId tenantId role) >>= k) prev log locks := by
  refine Program.Meets.call fun db c _ hfin _ => goes_checked fun _ => ?_
  split
  · next hkeys =>
    rw [Bool.and_eq_true] at hkeys
    obtain ⟨t, ht, hid⟩ := List.any_eq_true.mp hkeys.2
    exact fun _ => h db _ rfl ⟨t, ht, of_decide_eq_true hid⟩ hfin.grow
  · exact trivial

/-- What a call commits, within its locks. -/
def Post (origin fin : Db) (now : Timestamp) (q : Request) (r : Response) (log : List Write) (locks : List Lock) : Prop :=
  Commit origin fin now q r log ∧ Covered engine Write.needs fin log locks

theorem spec_registerTx {origin : Db} (r : Registration) {A : Tx (PublicUser × Tenant) → Db → Prop} :
    Spec now fin A (fun x _ log locks => Post origin fin now (.register r) (.registered x.1 x.2) log locks)
      (registerTx r) prev [] [] := by
  refine meets_insertTenant fun db tenant htenant hnew => ?_
  refine meets_insertUser (fun _ => rfl) fun db' user huser => ?_
  refine meets_insertMembership fun db'' membership hmembership _ _ => ?_
  refine ⟨.registered htenant hnew huser hmembership, ?_, ?_, ?_, trivial⟩
  · intro ℓ hℓ
    simp only [Write.needs, List.mem_singleton] at hℓ
    simp [hℓ]
  · intro ℓ hℓ
    simp only [Write.needs, List.mem_pair] at hℓ
    rcases hℓ with rfl | rfl <;> simp
  · intro ℓ hℓ
    rw [hmembership] at hℓ
    simp only [Write.needs, List.mem_pair] at hℓ
    rcases hℓ with rfl | rfl <;> simp

theorem spec_createMemberTx {origin : Db} (r : NewMember) {A : Tx (PublicUser × Role) → Db → Prop} :
    Spec now fin A (fun x _ log locks => Post origin fin now (.createMember r) (.created x.1 x.2) log locks)
      (createMemberTx r) prev [] [] := by
  refine meets_insertUser (fun _ => rfl) fun db user huser => ?_
  refine meets_insertMembership fun db' membership hmembership htenant hgrows => ?_
  obtain ⟨t, ht, hid⟩ := htenant
  refine ⟨.created ⟨t, hgrows.tenants t ht, hid⟩ huser hmembership, ?_, ?_, trivial⟩
  · intro ℓ hℓ
    simp only [Write.needs, List.mem_pair] at hℓ
    rcases hℓ with rfl | rfl <;> simp
  · intro ℓ hℓ
    rw [hmembership] at hℓ
    simp only [Write.needs, List.mem_pair] at hℓ
    rcases hℓ with rfl | rfl <;> simp

theorem mem_joined {db : Db} {p : Membership × User × Tenant} :
    p ∈ joined db ↔ p.1 ∈ db.memberships ∧ (p.2.1 ∈ db.users ∧ p.2.1.id = p.1.userId) ∧
      p.2.2 ∈ db.tenants ∧ p.2.2.id = p.1.tenantId := by
  obtain ⟨m, u, t⟩ := p
  simp [joined, List.mem_flatMap, List.mem_filter]

/-- The database that a read meets is between `origin` and `fin`. -/
theorem meets_read {origin : Db} {s : Stmt α} {f : Context Choice → Db → α} (hs : ∀ ctx db, s ctx db = .done (f ctx db) [] [] [])
    {k : α → Tx β}
    (h : ∀ db c, Grows origin db → Grows db fin → A (Program.statement s >>= k) db → Spec now fin A Q (k (f ⟨now, c⟩ db)) db [] []) :
    Spec now fin A Q (Program.statement s >>= k) origin [] [] := by
  refine Program.Meets.call fun db c h₁ h₂ hA => ?_
  rw [hs, Engine.view_nil]
  exact Continues.done (h db c h₁.grow h₂.grow hA)

theorem head?_shuffle_ne_none {rows : List α} (order : List Nat) {row : α} (h : row ∈ rows) :
    (shuffle order rows).head? ≠ none := by
  intro hnone
  rw [List.head?_eq_none_iff] at hnone
  exact List.not_mem_nil (hnone ▸ mem_shuffle.mpr h)

theorem mem_of_head?_shuffle {rows : List α} {order : List Nat} {row : α} (h : (shuffle order rows).head? = some row) :
    row ∈ rows := mem_shuffle.mp (List.mem_of_mem_head? h)

theorem mem_selectMembers {db : Db} {tenantId : Uuid} {row : MemberRow} :
    (row ∈ (db.memberships.filter fun m => m.tenantId = tenantId).flatMap fun m =>
      (db.users.filter fun u => u.id = m.userId).map fun u => (⟨u.id, u.name, u.email, m.role, m.createdAt⟩ : MemberRow)) ↔
    ∃ m ∈ db.memberships, m.tenantId = tenantId ∧ ∃ u ∈ db.users, u.id = m.userId ∧
      row = ⟨u.id, u.name, u.email, m.role, m.createdAt⟩ := by
  simp only [List.mem_flatMap, List.mem_filter, List.mem_map, decide_eq_true_eq]
  constructor
  · rintro ⟨m, ⟨hm, ht⟩, u, ⟨hu, hid⟩, rfl⟩
    exact ⟨m, hm, ht, u, hu, hid, rfl⟩
  · rintro ⟨m, hm, ht, u, hu, hid, rfl⟩
    exact ⟨m, ⟨hm, ht⟩, u, ⟨hu, hid⟩, rfl⟩

theorem program_meets (q : Request) (now : Nat) (origin fin : Db) :
    (program q).Meets engine protocol now fin (fun _ db => Consistent db) (fun r _ log locks => Post origin fin now q r log locks)
      (fun _ _ _ => True) origin [] [] := by
  cases q with
  | register r => exact Program.Meets.bind (spec_registerTx r)
  | createMember r => exact Program.Meets.bind (spec_createMemberTx r)
  | userByEmail email =>
      refine meets_read (fun _ _ => rfl) fun db _ _ hfin _ => ⟨.user fun u hu => ?_, trivial⟩
      have hfound := List.find?_some hu
      exact ⟨hfin.users u (List.mem_of_find?_eq_some hu), of_decide_eq_true hfound⟩
  | membershipOf userId =>
      refine meets_read (fun _ _ => rfl) fun db c horigin hfin hdb => ⟨.membership (fun m hm => ?_) ?_, trivial⟩
      · obtain ⟨hmem, hid⟩ := List.mem_filter.mp (mem_of_head?_shuffle hm)
        exact ⟨hfin.memberships m hmem, of_decide_eq_true hid⟩
      · rintro ⟨u, hu, rfl⟩
        obtain ⟨m, hm, hid⟩ := hdb.member u (horigin.users u hu)
        exact head?_shuffle_ne_none _ (List.mem_filter.mpr ⟨hm, decide_eq_true hid⟩)
  | currentUser userId tenantId =>
      refine meets_read (fun _ _ => rfl) fun db c horigin hfin hdb => ⟨.current (fun row hrow => ?_) ?_, trivial⟩
      · obtain ⟨p, hp, rfl⟩ := Option.map_eq_some_iff.mp hrow
        obtain ⟨hmem, hkey⟩ := List.mem_filter.mp (mem_of_head?_shuffle hp)
        obtain ⟨hm, ⟨hu, huser⟩, ht, htenant⟩ := mem_joined.mp hmem
        simp only [Bool.and_eq_true, decide_eq_true_eq] at hkey
        refine ⟨p, mem_joined.mpr ⟨hfin.memberships _ hm, ⟨hfin.users _ hu, huser⟩, hfin.tenants _ ht, htenant⟩, ?_⟩
        exact ⟨hkey.1, hkey.2, rfl⟩
      · rintro ⟨m, hm, rfl, rfl⟩
        have hm := horigin.memberships m hm
        obtain ⟨u, hu, huser⟩ := hdb.user m hm
        obtain ⟨t, ht, htenant⟩ := hdb.tenant m hm
        intro hnone
        rw [Option.map_eq_none_iff] at hnone
        have hrow : (m, u, t) ∈ joined db := mem_joined.mpr ⟨hm, ⟨hu, huser⟩, ht, htenant⟩
        refine head?_shuffle_ne_none _ (List.mem_filter.mpr ⟨hrow, ?_⟩) hnone
        simp
  | members tenantId =>
      refine meets_read (fun _ _ => rfl) fun db _ horigin hfin hdb => ⟨.members (fun row hrow => ?_) fun m hm ht => ?_, trivial⟩
      · obtain ⟨m, hm, ht, u, _, hid, rfl⟩ := mem_selectMembers.mp ((List.mem_insertionSort _).mp hrow)
        exact ⟨m, hfin.memberships m hm, ht, hid.symm, rfl⟩
      · have hm := horigin.memberships m hm
        obtain ⟨u, hu, hid⟩ := hdb.user m hm
        refine ⟨⟨u.id, u.name, u.email, m.role, m.createdAt⟩, ?_, hid, rfl⟩
        exact (List.mem_insertionSort _).mpr (mem_selectMembers.mpr ⟨m, hm, ht, u, hu, hid, rfl⟩)

end

def discipline : Discipline (L := Lock) (C := Choice) engine program where
  protocol := protocol
  ok _ _ := True
  inv := Consistent
  assumes _ _ db := Consistent db
  post q now origin r log locks db := Post origin db now q r log locks
  fail _ _ _ _ _ _ _ := True
  ok_exec _ _ hinv := hinv
  meets q now origin fin := program_meets q now origin fin
  deferred _ _ _ := trivial
  commit h hpost _ := ⟨hpost.1.consistent h, hpost.2.guarantee observe_apply (grows_view _ _)⟩

/-! ## Interleavings -/

theorem sound_of_reaches {s : Sys} (h : Reaches s) : discipline.Sound s :=
  Discipline.sound (Discipline.sound_init (s := init) discipline rfl Consistent.empty) h

/-- **Every interleaving leaves the three tables consistent.** -/
theorem consistent_of_reaches {s : Sys} (h : Reaches s) : Consistent s.db := (sound_of_reaches h).inv

end FinSight.Identity
