import FinSight.Lib.ErrorHandler
import FinSight.ReadCommitted.Alike
import FinSight.Serial.Alone

/-!
# What a request does besides its keys

The rows of entries and payments carry the key and the fingerprint of the request that made them.

* `Write.unkeyed`, `Db.unkeyed` : rows without them; `forgets_unkeyed` : nothing else depends on them;
* `outcome` : what a transaction by itself commits, or the error it ends with; `SameOutcome` : the same effect, or the same
  error code; `Alike.sameOutcome`, `not_sameOutcome`;
* `OnlySql` : a statement fails with errors of Postgres only; `fails_statement` : a program of such statements.
-/

namespace FinSight

open ReadCommitted

variable {α α' : Type}

/-! ## Rows without their keys -/

def JournalEntry.unkeyed (e : JournalEntry) : JournalEntry := { e with idempotencyKey := [], requestFingerprint := [] }

def InvoicePayment.unkeyed (p : InvoicePayment) : InvoicePayment :=
  { p with idempotencyKey := [], requestFingerprint := [] }

theorem JournalEntry.id_of_unkeyed {e e' : JournalEntry} (h : e.unkeyed = e'.unkeyed) : e.id = e'.id :=
  show e.unkeyed.id = e'.unkeyed.id by rw [h]

theorem InvoicePayment.id_of_unkeyed {p p' : InvoicePayment} (h : p.unkeyed = p'.unkeyed) : p.id = p'.id :=
  show p.unkeyed.id = p'.unkeyed.id by rw [h]

def Write.unkeyed : Write → Write
  | .entry row => .entry row.unkeyed
  | .payment row => .payment row.unkeyed
  | w => w

def Db.unkeyed (db : Db) : Db :=
  { db with entries := db.entries.map JournalEntry.unkeyed, payments := db.payments.map InvoicePayment.unkeyed }

theorem apply_unkeyed (db : Db) (w : Write) : (db.apply w).unkeyed = db.unkeyed.apply w.unkeyed := by
  cases w with
  | entry row => simp [Db.apply, Db.unkeyed, Write.unkeyed]
  | payment row => simp [Db.apply, Db.unkeyed, Write.unkeyed]
  | linkPayment id entryId =>
      have hrow : ∀ p : InvoicePayment, (if p.id = id then { p with journalEntryId := some entryId } else p).unkeyed =
          if p.unkeyed.id = id then { p.unkeyed with journalEntryId := some entryId } else p.unkeyed := by
        intro p
        show _ = if p.id = id then _ else _
        split <;> rfl
      simp [Db.apply, Db.unkeyed, Write.unkeyed, hrow]
  | _ => rfl

theorem forgets_unkeyed : Forgets engine Write.unkeyed Db.unkeyed := by
  intro w w' db db' hw hdb
  rw [engine_apply, engine_apply, apply_unkeyed, apply_unkeyed, hw, hdb]

/-- The deferred check sees the lines only. -/
theorem deferred_unkeyed {db db' : Db} {log log' : List Write} (hdb : db.unkeyed = db'.unkeyed)
    (hlog : log.map Write.unkeyed = log'.map Write.unkeyed) : deferred db log = deferred db' log' := by
  have hlines : db.unkeyed.lines = db'.unkeyed.lines := by rw [hdb]
  change db.lines = db'.lines at hlines
  have hblind : ∀ ws : List Write, deferred db' ws = deferred db' (ws.map Write.unkeyed) := by
    intro ws
    rw [deferred, deferred, List.any_map]
    congr 2
    refine List.any_congr rfl fun w => ?_
    cases w <;> rfl
  rw [hblind log', ← hlog, ← hblind log, deferred, deferred, hlines]

/-! ## Outcomes -/

/-- What the transaction by itself commits, or the error it ends with. -/
def outcome (p : Tx α) (now : Nat) (db : Db) (choices : Nat → Choice) : Except Failure (List Write) :=
  match p.alone engine now db [] choices with
  | (.error e, _, _) => .error e
  | (.ok _, log, _) =>
      match deferred (engine.view log db) log with
      | some e => .error e
      | none => .ok log

/-- The same effect on every table, or errors of one code. -/
def SameOutcome : Except Failure (List Write) → Except Failure (List Write) → Prop
  | .ok log, .ok log' => log.map Write.unkeyed = log'.map Write.unkeyed
  | .error e, .error e' => (classify e).code = (classify e').code
  | _, _ => False

theorem SameOutcome.symm {x y : Except Failure (List Write)} (h : SameOutcome x y) : SameOutcome y x := by
  cases x <;> cases y <;> first | exact Eq.symm h | exact h

variable {p : Tx α} {p' : Tx α'} {now : Nat} {db : Db} {choices : Nat → Choice} {R : α → α' → Prop}

theorem Alike.sameOutcome (h : Alike Write.unkeyed R (p.alone engine now db [] choices) (p'.alone engine now db [] choices)) :
    SameOutcome (outcome p now db choices) (outcome p' now db choices) := by
  rw [outcome, outcome]
  generalize p.alone engine now db [] choices = x at h
  generalize p'.alone engine now db [] choices = y at h
  match x, y, h with
  | (.error e, _, _), (.error e', _, _), herror => exact congrArg (fun e => (classify e).code) herror
  | (.ok _, log, _), (.ok _, log', _), ⟨_, hlogs, _⟩ =>
      have hdeferred := deferred_unkeyed (forgets_unkeyed.view hlogs (rfl : db.unkeyed = db.unkeyed)) hlogs
      dsimp only
      rw [hdeferred]
      cases deferred (engine.view log' db) log' with
      | none => exact hlogs
      | some e => rfl

theorem outcome_error {e : Failure} (h : (p.alone engine now db [] choices).1 = .error e) :
    outcome p now db choices = .error e := by
  rw [outcome]
  generalize p.alone engine now db [] choices = x at h
  match x, h with
  | (.error e, _, _), rfl => rfl

/-- An error that only one of the two can end with. -/
theorem not_sameOutcome {e : AppError} (h : (p.alone engine now db [] choices).1 = .error (.app e))
    (hcode : e.code ≠ text "CONSTRAINT_VIOLATION")
    (h' : ∀ f, (p'.alone engine now db [] choices).1 = .error f → (classify f).code ≠ e.code) :
    ¬ SameOutcome (outcome p now db choices) (outcome p' now db choices) := by
  rw [outcome_error h, outcome]
  generalize p'.alone engine now db [] choices = y at h'
  match y with
  | (.error f, _, _) => exact fun hsame => h' f rfl (Eq.symm hsame)
  | (.ok _, log, _) =>
      dsimp only
      cases hdeferred : deferred (engine.view log db) log with
      | none => exact id
      | some f =>
          rw [deferred, Option.ite_none_right_eq_some] at hdeferred
          rw [← Option.some.inj hdeferred.2]
          exact hcode

/-! ## Errors -/

/-- Postgres is where the errors of the statement come from. -/
def OnlySql {β : Type} (s : Stmt β) : Prop := ∀ ctx db f, s ctx db = .error f → ∃ state, f = .sql state

theorem checked_error {β : Type} {checks : List (Bool × SqlState)} {reply : Reply Write Lock Failure β} {f : Failure}
    (h : Sql.checked checks reply = .error f) (hreply : reply = .error f → ∃ state, f = .sql state) :
    ∃ state, f = .sql state := by
  rcases Sql.checked_cases checks reply with ⟨state, -, heq⟩ | ⟨-, heq⟩
  · rw [heq] at h
    exact ⟨state, (Reply.error.inj h).symm⟩
  · exact hreply (heq ▸ h)

theorem onlySql_insertEntry (v : Sql.EntryValues) : OnlySql (Sql.insertEntry v) := by
  intro ctx db f h
  refine checked_error h fun h => ?_
  split at h
  · cases h
  · exact checked_error h fun h => by cases h

theorem onlySql_insertLines (values : List Sql.LineValues) : OnlySql (Sql.insertLines values) :=
  fun _ _ _ h => checked_error h fun h => by cases h

theorem onlySql_insertHistory (invoiceId : Uuid) (source : Option InvoiceStatus) (target : InvoiceStatus) (reason : Text) :
    OnlySql (Sql.insertHistory invoiceId source target reason) :=
  fun _ _ _ h => checked_error h fun h => by cases h

theorem onlySql_linkPayment (id journalEntryId : Uuid) : OnlySql (Sql.linkPayment id journalEntryId) := by
  intro ctx db f h
  unfold Sql.linkPayment at h
  split at h <;> cases h

theorem onlySql_updateInvoice (invoiceId : Text) (tenantId : Uuid) (set : InvoiceState → InvoiceState) :
    OnlySql (Sql.updateInvoice invoiceId tenantId set) := by
  intro ctx db f h
  unfold Sql.updateInvoice at h
  split at h
  · exact ⟨_, (Reply.error.inj h).symm⟩
  · unfold Sql.updateInvoices at h
    split at h <;> cases h

theorem onlySql_selectPayments (invoiceId : Text) : OnlySql (Sql.selectPayments invoiceId) := by
  intro ctx db f h
  unfold Sql.selectPayments at h
  split at h
  · exact ⟨_, (Reply.error.inj h).symm⟩
  · cases h

/-- The code is not one of Postgres, and not one of the program's own errors. -/
theorem fails_statement {β : Type} {s : Stmt β} (hs : OnlySql s) {P : Failure → Prop} (hsql : ∀ state, P (.sql state))
    {k : β → Tx α} (hk : ∀ b, (k b).Fails P) : (Program.statement s >>= k).Fails P := by
  refine ⟨fun ctx db f h => ?_, hk⟩
  obtain ⟨state, rfl⟩ := hs ctx db f h
  exact hsql state

end FinSight
