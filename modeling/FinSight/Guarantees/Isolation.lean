import FinSight.Tenants.Operations

/-!
# Tenants do not meet

* `rowsOf`, `results` : the rows of a tenant in every table, and what its clients have been answered;
* `Fresh` : no id is generated for two tenants;
* `rowsOf_share` : the rows of a tenant are among its share;
* `isolated_of_run` : without the other tenants a run leaves the same rows and gives the same answers.
-/

namespace FinSight.Tenants

open ReadCommitted Shares

/-! ## What a tenant has and sees -/

/-- Items and histories are those of the tenant's invoices. -/
def ledgerOf (t : Uuid) (db : FinSight.Db) : FinSight.Db where
  accounts := db.accounts.filter fun a => a.tenantId = t
  entries := db.entries.filter fun e => e.tenantId = t
  lines := db.lines.filter fun l => l.tenantId = t
  invoices := db.invoices.filter fun i => i.tenantId = t
  items := db.items.filter fun r => db.invoices.any fun i => i.id = r.invoiceId && i.tenantId = t
  payments := db.payments.filter fun p => p.tenantId = t
  history := db.history.filter fun h => db.invoices.any fun i => i.id = h.invoiceId && i.tenantId = t
  sequences := db.sequences.filter fun r => r.tenantId = t

def documentsOf (t : Uuid) (db : Documents.Db) : Documents.Db where
  documents := db.documents.filter fun d => d.tenantId = t
  files := db.files.filter fun f => f.tenantId = t
  chunks := db.chunks.filter fun c => c.tenantId = t

def rowsOf (t : Uuid) (db : Tables) : Tables := (ledgerOf t db.1, documentsOf t db.2)

/-- An operation, with its result or error once it has ended. -/
def resultOf (client : Client Operation Progress Documents.Thrown Answer) : Operation × Option (Except Documents.Thrown Answer) :=
  (client.request, match client.stage with
    | .ready p => p.result
    | .waiting _ _ => none)

/-- The operations of the tenant. -/
def results (t : Uuid) (s : Sys) : List (Operation × Option (Except Documents.Thrown Answer)) :=
  (s.clients.filter fun client => client.request.tenantId = t).map resultOf

/-- The run without the operations of the other tenants. -/
def onlyOf (t : Uuid) (events : List Event) : List Event := only Operation.tenantId t ⟨[], []⟩ events

/-- No id that is generated for a statement of one tenant is generated for a statement of another. -/
def Fresh (events : List Event) : Prop :=
  ∀ p ∈ choices Operation.tenantId ⟨[], []⟩ events, ∀ q ∈ choices Operation.tenantId ⟨[], []⟩ events,
    p.1 ≠ q.1 → ∀ k l, p.2.fresh k ≠ q.2.fresh l

/-! ## The share of a tenant -/

variable {issuer : Uuid → Uuid} {t : Uuid} {env : Environment} {events : List Event} {s s' : Sys}

theorem ledgerOf_share {db : FinSight.Db} (hdb : db.Owned issuer) : ledgerOf t (db.share issuer t) = ledgerOf t db := by
  have hmine {ρ : Type} (owner : ρ → Uuid) (rows : List ρ) :
      (owned owner t rows).filter (fun r => owner r = t) = rows.filter fun r => owner r = t :=
    filter_owned fun _ _ hr => of_decide_eq_true hr
  have hinvoices (id : Uuid) : (owned Invoice.tenantId t db.invoices).any (fun i => i.id = id && i.tenantId = t) =
      db.invoices.any fun i => i.id = id && i.tenantId = t :=
    any_owned fun _ _ hi => of_decide_eq_true (Bool.and_eq_true_iff.mp hi).2
  have hissuer {id : Uuid} (h : (db.invoices.any fun i => i.id = id && i.tenantId = t) = true) : issuer id = t := by
    obtain ⟨i, hi, hid⟩ := List.any_eq_true.mp h
    obtain ⟨hid, ht⟩ := Bool.and_eq_true_iff.mp hid
    rw [← of_decide_eq_true hid, (hdb.invoices i hi).2, of_decide_eq_true ht]
  have hitems : (owned (InvoiceItem.owner issuer) t db.items).filter (fun r =>
      db.invoices.any fun i => i.id = r.invoiceId && i.tenantId = t) = _ := filter_owned fun _ _ hr => hissuer hr
  have hhistory : (owned (StatusHistory.owner issuer) t db.history).filter (fun h =>
      db.invoices.any fun i => i.id = h.invoiceId && i.tenantId = t) = _ := filter_owned fun _ _ hr => hissuer hr
  simp only [ledgerOf, Db.share, hmine, hinvoices, hitems, hhistory]

theorem documentsOf_share (db : Documents.Db) : documentsOf t (db.share t) = documentsOf t db := by
  have hmine {ρ : Type} (owner : ρ → Uuid) (rows : List ρ) :
      (owned owner t rows).filter (fun r => owner r = t) = rows.filter fun r => owner r = t :=
    filter_owned fun _ _ hr => of_decide_eq_true hr
  simp only [documentsOf, Documents.Db.share, hmine]

theorem rowsOf_share {db : Tables} (hdb : (division issuer).sound db) : rowsOf t ((division issuer).share t db) = rowsOf t db :=
  Prod.ext (ledgerOf_share hdb.1) (documentsOf_share db.2)

theorem resultOf_move (f : Nat → Nat) (client : Client Operation Progress Documents.Thrown Answer) :
    resultOf (client.move f) = resultOf client := by
  obtain ⟨request, stage⟩ := client
  cases stage <;> rfl

theorem results_share (s : Sys) :
    results t (s.share Operation.tenantId Transaction.tenantId (division issuer) t) = results t s := by
  have hclients : ((owned (Sessions.ownerOf Operation.tenantId) t s.clients).map
      (Client.move (rank t (s.system.owners Transaction.tenantId)))).filter (fun client => client.request.tenantId = t) =
      (owned (Sessions.ownerOf Operation.tenantId) t s.clients).map
        (Client.move (rank t (s.system.owners Transaction.tenantId))) := by
    rw [List.filter_eq_self]
    intro client hclient
    obtain ⟨client₀, hclient₀, rfl⟩ := List.mem_map.mp hclient
    have hown : Operation.tenantId client₀.request = t := (mem_owned.mp hclient₀).2
    exact decide_eq_true hown
  have hmap := congrArg (List.map resultOf) hclients
  rw [List.map_map] at hmap
  exact hmap.trans (List.map_congr_left fun client _ => resultOf_move _ client)

/-! ## Runs -/

/-- Ids tell the tenants apart. -/
theorem exists_issuer (h : Fresh events) :
    ∃ issuer : Uuid → Uuid, ∀ p ∈ choices Operation.tenantId ⟨[], []⟩ events, (division issuer).supplies p.1 p.2 := by
  classical
  refine ⟨fun id => if hid : ∃ p ∈ choices Operation.tenantId ⟨[], []⟩ events, ∃ k, p.2.fresh k = id
    then hid.choose.1 else id, fun p hp => ?_⟩
  have hissuer : ∀ k, (if hid : ∃ q ∈ choices Operation.tenantId ⟨[], []⟩ events, ∃ l, q.2.fresh l = p.2.fresh k
      then hid.choose.1 else p.2.fresh k) = p.1 := by
    intro k
    have hid : ∃ q ∈ choices Operation.tenantId ⟨[], []⟩ events, ∃ l, q.2.fresh l = p.2.fresh k := ⟨p, hp, k, rfl⟩
    rw [dif_pos hid]
    obtain ⟨hq, l, hl⟩ := hid.choose_spec
    by_contra hne
    exact h _ hq p hp hne l k hl
  exact ⟨hissuer, hissuer⟩

theorem isolated_init : init.Isolated Operation.tenantId Transaction.tenantId (division issuer) Progress.Of := by
  refine Sessions.Isolated.init rfl (System.Isolated.init rfl ⟨?_, ?_⟩)
  · constructor <;> exact fun _ h => absurd h List.not_mem_nil
  · constructor <;> exact fun _ h => absurd h List.not_mem_nil

/-- For the steps that are not its own the tenant's rows and results stay as they are. -/
theorem same_of_foreign (hs : s.Isolated Operation.tenantId Transaction.tenantId (division issuer) Progress.Of)
    (hs' : s'.Isolated Operation.tenantId Transaction.tenantId (division issuer) Progress.Of) {event : Event}
    (hsupplied : Supplied Operation.tenantId (division issuer) (s.owners Operation.tenantId Transaction.tenantId) [event])
    (hstep : s.step engine (program env) (behaviour env) event = some s')
    (hforeign : event.only Operation.tenantId t (s.owners Operation.tenantId Transaction.tenantId) = none) :
    rowsOf t s'.system.db = rowsOf t s.system.db ∧ results t s' = results t s := by
  have hshare := Sessions.share_of_step (t := t) loyal hs hsupplied.1 hstep
  rw [hforeign] at hshare
  have hsame := Option.some.inj hshare
  refine ⟨?_, ?_⟩
  · rw [← rowsOf_share hs'.system.sound, ← rowsOf_share hs.system.sound]
    exact congrArg (fun s : Sys => rowsOf t s.system.db) hsame.symm
  · rw [← @results_share issuer t s', ← @results_share issuer t s, hsame]

/-- The clients of a tenant, by themselves, leave the same rows and are answered the same; what the others do in between
changes neither. -/
theorem isolated_of_run (env : Environment) (t : Uuid) {events : List Event} (hfresh : Fresh events) {s : Sys}
    (h : run env events = some s) :
    (∃ s₀, run env (onlyOf t events) = some s₀ ∧ rowsOf t s₀.system.db = rowsOf t s.system.db ∧ results t s₀ = results t s) ∧
      ∀ earlier event later s₁ s₂, events = earlier ++ event :: later → run env earlier = some s₁ →
        s₁.step engine (program env) (behaviour env) event = some s₂ →
        event.only Operation.tenantId t (s₁.owners Operation.tenantId Transaction.tenantId) = none →
        rowsOf t s₂.system.db = rowsOf t s₁.system.db ∧ results t s₂ = results t s₁ := by
  obtain ⟨issuer, hissuer⟩ := exists_issuer hfresh
  have hsupplied := supplied_of_choices Operation.tenantId (D := division issuer) hissuer
  have hprogram : ∀ q, (program env q).Confined (division issuer) q.tenantId fun _ => True := fun q => confined_program q
  have hinit : init.Isolated Operation.tenantId Transaction.tenantId (division issuer) Progress.Of := isolated_init
  refine ⟨?_, fun earlier event later s₁ s₂ hevents hearlier hstep hforeign => ?_⟩
  · obtain ⟨hs, -⟩ := hinit.run hprogram loyal hsupplied h
    refine ⟨s.share Operation.tenantId Transaction.tenantId (division issuer) t, ?_, rowsOf_share hs.system.sound,
      results_share s⟩
    exact Sessions.run_only hprogram loyal hinit hsupplied h
  · subst hevents
    obtain ⟨hbefore, hafter⟩ := supplied_append Operation.tenantId hsupplied
    obtain ⟨hs₁, howners⟩ := hinit.run hprogram loyal hbefore hearlier
    have hone : Supplied Operation.tenantId (division issuer) (s₁.owners Operation.tenantId Transaction.tenantId) [event] :=
      ⟨howners ▸ hafter.1, trivial⟩
    exact same_of_foreign hs₁ (hs₁.step hprogram loyal hone.1 hstep) hone hstep hforeign

/-! ## Two neighbours -/

namespace Neighbours

theorem utc_bound : -57599 ≤ (0 : Int) ∧ (0 : Int) ≤ 57599 := by decide

/-- Vectors are refused. -/
def world : Environment where
  sha256 t := t
  digest _ := []
  collation := .units
  buffers := .node
  dates := .iso
  zone := ⟨0, utc_bound⟩
  pgvector := ⟨fun _ => .error .invalidTextRepresentation, fun _ _ => none⟩
  describe _ := []

def uuid (n : Nat) : Uuid := ⟨BitVec.ofNat 128 n⟩

def first : Uuid := uuid 1

def second : Uuid := uuid 2

def choice (n : Nat) : Choice := ⟨fun _ => uuid n, []⟩

/-- Both create an account of one name, the transactions side by side; then the second asks for the first one's account. -/
def steps : List Event :=
  [.request (.ledger (.createAccount ⟨first, text "Cash", .asset, text "USD"⟩)),
    .request (.ledger (.createAccount ⟨second, text "Cash", .asset, text "USD"⟩)),
    .transact 0, .transact 1, .system (.exec 0 (choice 10)), .system (.exec 1 (choice 20)), .system (.prepare 1),
    .system (.prepare 0), .system (.commit 0), .system (.commit 1), .resume 1 none, .resume 0 none,
    .request (.ledger (.getAccountBalance second (uuid 10).text none)), .transact 2, .system (.exec 2 (choice 20)),
    .system (.rollback 2), .resume 2 none]

theorem fresh_steps : Fresh steps := by
  have hchoices : choices Operation.tenantId ⟨[], []⟩ steps =
      [(first, choice 10), (second, choice 20), (second, choice 20)] := rfl
  have hne : uuid 10 ≠ uuid 20 := by decide
  intro p hp q hq htenants k l
  rw [hchoices] at hp hq
  simp only [List.mem_cons, List.not_mem_nil, or_false] at hp hq
  rcases hp with rfl | rfl | rfl <;> rcases hq with rfl | rfl | rfl
  all_goals first | exact absurd rfl htenants | exact hne | exact hne.symm

end Neighbours

set_option maxRecDepth 10000 in
theorem isolated_of_neighbours : ∃ s s₀, run Neighbours.world Neighbours.steps = some s ∧
    run Neighbours.world (onlyOf Neighbours.first Neighbours.steps) = some s₀ ∧
    (rowsOf Neighbours.first s.system.db).1.accounts.map (·.name) = [text "Cash"] ∧
    rowsOf Neighbours.first s₀.system.db = rowsOf Neighbours.first s.system.db ∧
    results Neighbours.first s₀ = results Neighbours.first s := by
  have hrun : ∃ s, run Neighbours.world Neighbours.steps = some s ∧
      (rowsOf Neighbours.first s.system.db).1.accounts.map (·.name) = [text "Cash"] := ⟨_, rfl, rfl⟩
  obtain ⟨s, hs, hname⟩ := hrun
  obtain ⟨s₀, hs₀, hrows, hresults⟩ :=
    (isolated_of_run Neighbours.world Neighbours.first Neighbours.fresh_steps hs).1
  exact ⟨s, s₀, hs, hs₀, hname, hrows, hresults⟩

end FinSight.Tenants
