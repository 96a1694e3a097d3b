import FinSight.Identity.Consistent

/-!
# Users, tenants and their memberships in every interleaving

* `Signup`, `signups_of_reaches` : each returned registration or new member has its user in the table;
* `settled_of_reaches` : a user is in one tenant, a tenant has one owner, and an address signs up once.
-/

namespace FinSight.Identity

open ReadCommitted

/-- The address with which a request adds a user. -/
def Request.address : Request → Option Email
  | .register r => some r.email
  | .createMember r => some r.email
  | .userByEmail _ | .membershipOf _ | .currentUser _ _ | .members _ => none

/-- Call `t` has added a user with this address, and the client may be told so. -/
def Signup (s : Sys) (t : Nat) (email : Email) : Prop :=
  ∃ call r, s.calls[t]? = some call ∧ call.status = .finished (.returned r) ∧ call.request.address = some email

structure Settled (s : Sys) : Prop where
  membership : ∀ u ∈ s.db.users, ∃! m, m ∈ s.db.memberships ∧ m.userId = u.id
  owner : ∀ t ∈ s.db.tenants, ∃! m, m ∈ s.db.memberships ∧ m.tenantId = t.id ∧ m.role = .owner
  home : ∀ m ∈ s.db.memberships, (∃ u ∈ s.db.users, u.id = m.userId) ∧ ∃ t ∈ s.db.tenants, t.id = m.tenantId
  signedUp : ∀ t email, Signup s t email → ∃! u, u ∈ s.db.users ∧ u.email = (trim email.text).map lowerCase
  /-- Addresses that differ in case or in outer white space only are one address. -/
  once : ∀ t t' email email', t ≠ t' → Signup s t email → Signup s t' email' →
    (trim email.text).map lowerCase ≠ (trim email'.text).map lowerCase

/-! ## Sign-ups -/

/-- The new user of a commit. -/
theorem Commit.newUser {origin db : Db} {now : Timestamp} {q : Request} {r : Response} {log : List Write} {email : Email}
    (h : Commit origin db now q r log) (hq : q.address = some email) :
    (∃ u ∈ (engine.view log db).users, u.email = normalizeEmail email) ∧ ∀ u ∈ db.users, u.email ≠ normalizeEmail email := by
  cases h with
  | @registered r tenant user membership _ _ huser _ =>
      obtain rfl := Option.some.inj hq
      have hemail : user.email = normalizeEmail r.email := by rw [huser.row]
      exact ⟨⟨user, List.mem_append_right _ (List.mem_singleton_self _), hemail⟩, fun u hu => hemail ▸ (huser.fresh u hu).2⟩
  | @created r user membership _ huser _ =>
      obtain rfl := Option.some.inj hq
      have hemail : user.email = normalizeEmail r.email := by rw [huser.row]
      exact ⟨⟨user, List.mem_append_right _ (List.mem_singleton_self _), hemail⟩, fun u hu => hemail ▸ (huser.fresh u hu).2⟩
  | user _ | membership _ _ | current _ _ | members _ _ => cases hq

/-- Setting the status of another call ends no sign-up, and setting a status makes at most that one. -/
theorem signup_setStatus {s : Sys} {t u : Nat} {st : Status Db Write Lock Fault Choice Response} {email : Email}
    (h : Signup (s.setStatus t st) u email) :
    Signup s u email ∨ u = t ∧ (∃ r, st = .finished (.returned r)) ∧
      ∃ call, s.calls[t]? = some call ∧ call.request.address = some email := by
  obtain ⟨call, r, hget, hst, hemail⟩ := h
  rw [System.setStatus_get] at hget
  split at hget
  · next htu =>
    obtain ⟨call₀, hcall₀, rfl⟩ := Option.map_eq_some_iff.mp hget
    exact .inr ⟨htu.symm, ⟨r, hst⟩, call₀, htu ▸ hcall₀, hemail⟩
  · exact .inl ⟨call, r, hget, hst, hemail⟩

/-- What a step keeps of the sign-ups. -/
structure Signups (s : Sys) : Prop where
  user : ∀ t email, Signup s t email → ∃ u ∈ s.db.users, u.email = normalizeEmail email
  once : ∀ t t' email email', t ≠ t' → Signup s t email → Signup s t' email' → normalizeEmail email ≠ normalizeEmail email'

theorem signups_setStatus {s : Sys} (h : Signups s) {t : Nat} {st : Status Db Write Lock Fault Choice Response}
    (hst : ∀ r, st ≠ .finished (.returned r)) : Signups (s.setStatus t st) := by
  have hold {u : Nat} {email : Email} (hu : Signup (s.setStatus t st) u email) : Signup s u email :=
    (signup_setStatus hu).resolve_right fun hnew => hst _ hnew.2.1.choose_spec
  exact ⟨fun u email hu => h.user u email (hold hu), fun u u' _ _ hne hu hu' => h.once u u' _ _ hne (hold hu) (hold hu')⟩

theorem signups_of_reaches {s : Sys} (h : Reaches s) : Signups s := by
  induction h with
  | refl => exact ⟨fun _ _ ⟨_, _, hget, _⟩ => (by cases hget), fun _ _ _ _ _ ⟨_, _, hget, _⟩ => (by cases hget)⟩
  | @step s s' l hrun _ hstep ih =>
      cases Discipline.event (sound_of_reaches hrun) hstep with
      | tick _ => exact ⟨ih.user, ih.once⟩
      | begin q =>
          -- the new call is running
          have hold {u : Nat} {email : Email} (hu : Signup
              { s with calls := s.calls ++ [⟨q, s.clock, s.db, .running ⟨program q, [], [], false⟩⟩] } u email) :
              Signup s u email := by
            obtain ⟨call, r, hget, hst, hemail⟩ := hu
            rw [List.getElem?_append] at hget
            split at hget
            · exact ⟨call, r, hget, hst, hemail⟩
            · rw [List.getElem?_singleton] at hget
              split at hget
              · obtain rfl := Option.some.inj hget
                cases hst
              · cases hget
          exact ⟨fun u email hu => ih.user u email (hold hu), fun u u' _ _ hne hu hu' => ih.once u u' _ _ hne (hold hu) (hold hu')⟩
      | work _ => exact signups_setStatus ih fun _ h => by cases h
      | failed _ _ _ => exact signups_setStatus ih fun _ h => by cases h
      | aborted _ => exact signups_setStatus ih fun _ h => by cases h
      | @returned t call tx r hr hret hpost _ _ =>
          have hgrows := grows_view tx.log s.db
          have hcase {u : Nat} {email : Email}
              (hu : Signup { s.setStatus t (.finished (.returned r)) with db := engine.view tx.log s.db } u email) :
              Signup s u email ∨ u = t ∧ call.request.address = some email := by
            rcases signup_setStatus (s := s) hu with hu | ⟨rfl, _, call', hget, hemail⟩
            · exact .inl hu
            · obtain rfl := Option.some.inj (hr.get.symm.trans hget)
              exact .inr ⟨rfl, hemail⟩
          have hfresh {u : Nat} {email email' : Email} (hu : Signup s u email) (hnew : call.request.address = some email') :
              normalizeEmail email ≠ normalizeEmail email' := by
            obtain ⟨user, huser, hemail⟩ := ih.user u email hu
            exact hemail ▸ (hpost.1.newUser hnew).2 user huser
          refine ⟨fun u email hu => ?_, fun u u' email email' hne hu hu' => ?_⟩
          · rcases hcase hu with hu | ⟨-, hnew⟩
            · obtain ⟨user, huser, hemail⟩ := ih.user u email hu
              exact ⟨user, hgrows.users user huser, hemail⟩
            · exact (hpost.1.newUser hnew).1
          · rcases hcase hu with hu | ⟨rfl, hnew⟩
            · rcases hcase hu' with hu' | ⟨-, hnew'⟩
              · exact ih.once u u' email email' hne hu hu'
              · exact hfresh hu hnew'
            · rcases hcase hu' with hu' | ⟨hu', -⟩
              · exact (hfresh hu' hnew).symm
              · exact absurd hu'.symm hne

/-! ## The guarantee -/

/-- **One tenant, one owner, one account.** Whatever requests run together, each user belongs to one tenant, each tenant has
one owner, and of the requests that sign up one address at most one succeeds. -/
theorem settled_of_reaches {s : Sys} (h : Reaches s) : Settled s where
  membership u hu := by
    have hdb := consistent_of_reaches h
    obtain ⟨m, hm, hid⟩ := hdb.member u hu
    refine ⟨m, ⟨hm, hid⟩, fun m' ⟨hm', hid'⟩ => ?_⟩
    exact List.inj_on_of_nodup_map hdb.once hm' hm (hid'.trans hid.symm)
  owner t ht := by
    have hdb := consistent_of_reaches h
    obtain ⟨m, hm, htenant, hrole⟩ := hdb.owner t ht
    refine ⟨m, ⟨hm, htenant, hrole⟩, fun m' ⟨hm', htenant', hrole'⟩ => ?_⟩
    refine List.inj_on_of_nodup_map hdb.oneOwner (List.mem_filter.mpr ⟨hm', ?_⟩) (List.mem_filter.mpr ⟨hm, ?_⟩)
      (htenant'.trans htenant.symm)
    · exact decide_eq_true hrole'
    · exact decide_eq_true hrole
  home m hm := ⟨(consistent_of_reaches h).user m hm, (consistent_of_reaches h).tenant m hm⟩
  signedUp t email ht := by
    obtain ⟨u, hu, hemail⟩ := (signups_of_reaches h).user t email ht
    refine ⟨u, ⟨hu, hemail⟩, fun u' ⟨hu', hemail'⟩ => ?_⟩
    exact List.inj_on_of_nodup_map (consistent_of_reaches h).emails hu' hu (hemail'.trans hemail.symm)
  once := (signups_of_reaches h).once

/-! ## Two sign-ups with one address -/

namespace Signing

def uuid (n : Nat) : Uuid := ⟨BitVec.ofNat 128 n⟩

/-- The row that a statement inserts has the id `uuid n`. -/
def choice (n : Nat) : Choice := ⟨fun _ => uuid n, []⟩

theorem ascii_ada : ∀ u ∈ text "Ada@Example.com ", u < 128 := by decide

theorem ascii_lower : ∀ u ∈ text "ada@example.com", u < 128 := by decide

def ada (address : Email) : Registration := ⟨text "Ada", address, text "hash", text "Engines"⟩

/-- Both requests are under way before the first commits; the index entry of the address makes the second wait. -/
def events : List Event :=
  [.begin (.register (ada ⟨text "Ada@Example.com ", ascii_ada⟩)), .begin (.register (ada ⟨text "ada@example.com", ascii_lower⟩)),
    .exec 0 (choice 1), .exec 1 (choice 2), .exec 0 (choice 3), .exec 0 (choice 4), .prepare 0, .commit 0, .exec 1 (choice 5),
    .rollback 1]

/-- How a call has ended. -/
inductive End where
  | running | returned | failed (e : Fault) | aborted
  deriving DecidableEq

def endOf (s : Sys) (t : Nat) : Option End :=
  (s.calls[t]?).map fun call =>
    match call.status with
    | .running _ => .running
    | .finished (.returned _) => .returned
    | .finished (.failed e) => .failed e
    | .finished .aborted => .aborted

def shown : Option (List (Option End) × List (Uuid × Uuid × Role)) :=
  (System.run engine program init events).map fun s =>
    ([endOf s 0, endOf s 1], s.db.memberships.map fun m => (m.userId, m.tenantId, m.role))

end Signing

/-- The second registration is refused, and its tenant goes with it. -/
theorem settled_of_signing : ∃ s : Sys, Settled s ∧ Signing.endOf s 0 = some .returned ∧
    Signing.endOf s 1 = some (.failed (.sql .uniqueViolation)) ∧
    s.db.memberships.map (fun m => (m.userId, m.tenantId, m.role)) = [(Signing.uuid 3, Signing.uuid 1, .owner)] := by
  obtain ⟨s, hrun, hshown⟩ := Option.map_eq_some_iff.mp
    (by decide : Signing.shown = some ([some .returned, some (.failed (.sql .uniqueViolation))],
      [(Signing.uuid 3, Signing.uuid 1, .owner)]))
  obtain ⟨hends, hrows⟩ := Prod.mk.inj hshown
  obtain ⟨h₀, hends⟩ := List.cons.inj hends
  exact ⟨s, settled_of_reaches (System.reachable_of_run (fun _ _ _ => trivial) hrun), h₀, (List.cons.inj hends).1, hrows⟩

end FinSight.Identity
