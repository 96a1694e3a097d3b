import FinSight.Lists.Keyed
import FinSight.Serial.Commit

/-!
# The ledger invariant

`Ledger db` : every entry is booked: its lines are those of a body with its fingerprint, they balance, and they
touch accounts of its own tenant in one currency. Ids and keys are unique, and no line is without an entry.
-/

namespace FinSight

open ReadCommitted

variable {sha256 : Text → Text}

/-- Entry `e` is booked with the body `data`. -/
structure Books (sha256 : Text → Text) (db : Db) (e : JournalEntry) (data : EntryData) : Prop where
  body : e.requestFingerprint = fingerprint sha256 data.toJs
  occurred : e.occurredAt = data.occurredAt.timestamp
  balanced : (data.lines.map (·.amountMinor)).sum = 0
  lines : (entryLines db e.id).map EntryLine.posting = data.lines.map (LineData.posting e)
  accounts : OneCurrency db.accounts e.tenantId data.lines

structure Ledger (sha256 : Text → Text) (db : Db) : Prop where
  accountIds : (db.accounts.map (·.id)).Nodup
  entryIds : (db.entries.map (·.id)).Nodup
  entryKeys : ∀ e ∈ db.entries, ∀ e' ∈ db.entries, e.tenantId = e'.tenantId →
    e.idempotencyKey = e'.idempotencyKey → e = e'
  owned : ∀ l ∈ db.lines, ∃ e ∈ db.entries, e.id = l.entryId
  books : ∀ e ∈ db.entries, ∃ data, Books sha256 db e data

theorem OneCurrency.mono {accounts accounts' : List Account} {tenantId : Uuid} {lines : List LineData}
    (h : OneCurrency accounts tenantId lines) (hsub : accounts ⊆ accounts') : OneCurrency accounts' tenantId lines := by
  obtain ⟨c, hc⟩ := h
  refine ⟨c, fun d hd => ?_⟩
  obtain ⟨a, ha, hrest⟩ := hc d hd
  exact ⟨a, hsub ha, hrest⟩

theorem Books.grows {db db' : Db} {e : JournalEntry} {data : EntryData} (h : Books sha256 db e data)
    (he : e ∈ db.entries) (hgrow : Grows db db') : Books sha256 db' e data where
  body := h.body
  occurred := h.occurred
  balanced := h.balanced
  lines := by
    rw [hgrow.entryLines he]
    exact h.lines
  accounts := h.accounts.mono hgrow.accounts

theorem Ledger.empty : Ledger sha256 Db.empty :=
  ⟨List.nodup_nil, List.nodup_nil, fun _ h => absurd h List.not_mem_nil, fun _ h => absurd h List.not_mem_nil,
    fun _ h => absurd h List.not_mem_nil⟩

/-- Only the three tables of the ledger matter. -/
theorem Ledger.congr {db db' : Db} (h : Ledger sha256 db) (haccounts : db'.accounts = db.accounts)
    (hentries : db'.entries = db.entries) (hlines : db'.lines = db.lines) : Ledger sha256 db' where
  accountIds := haccounts ▸ h.accountIds
  entryIds := hentries ▸ h.entryIds
  entryKeys := hentries ▸ h.entryKeys
  owned := by rw [hentries, hlines]; exact h.owned
  books := by
    rw [hentries]
    intro e he
    obtain ⟨data, hb⟩ := h.books e he
    refine ⟨data, hb.body, hb.occurred, hb.balanced, ?_, ?_⟩
    · rw [entryLines, hlines]
      exact hb.lines
    · rw [haccounts]
      exact hb.accounts

theorem Ledger.account {db : Db} (h : Ledger sha256 db) {row : Account} (hfresh : ∀ a ∈ db.accounts, a.id ≠ row.id) :
    Ledger sha256 { db with accounts := db.accounts ++ [row] } where
  accountIds := Keyed.nodup_concat h.accountIds hfresh
  entryIds := h.entryIds
  entryKeys := h.entryKeys
  owned := h.owned
  books e he := by
    obtain ⟨data, hb⟩ := h.books e he
    exact ⟨data, hb.body, hb.occurred, hb.balanced, hb.lines, hb.accounts.mono (List.subset_append_left _ _)⟩

/-- The lines of a new entry are the ones just posted. -/
theorem Posting.entryLines {db : Db} {tenantId : Uuid} {key : Text} {data : EntryData} {e : JournalEntry}
    {ls : List EntryLine} (h : Posting sha256 db tenantId key data e ls) (hl : Ledger sha256 db) :
    entryLines (db.post [e] ls) e.id = ls := by
  have hold : db.lines.filter (fun l => l.entryId = e.id) = [] := by
    rw [List.filter_eq_nil_iff]
    intro l hmem
    obtain ⟨x, hx, hid⟩ := hl.owned l hmem
    simpa [← hid] using h.freshId x hx
  have hnew : ls.filter (fun l => l.entryId = e.id) = ls := by
    rw [List.filter_eq_self]
    intro l hmem
    obtain ⟨d, -, hentry, -⟩ := h.line hmem
    simpa using hentry
  rw [FinSight.entryLines, show (db.post [e] ls).lines = db.lines ++ ls from rfl, List.filter_append, hold, hnew,
    List.nil_append]

theorem Posting.books {db : Db} {tenantId : Uuid} {key : Text} {data : EntryData} {e : JournalEntry}
    {ls : List EntryLine} (h : Posting sha256 db tenantId key data e ls) (hl : Ledger sha256 db) :
    Books sha256 (db.post [e] ls) e data where
  body := h.body
  occurred := h.occurred
  balanced := h.balanced
  lines := by
    rw [h.entryLines hl]
    exact h.lines
  accounts := h.tenant ▸ h.accounts

/-- Posting keeps the ledger. -/
theorem Ledger.booked {db : Db} {tenantId : Uuid} {key : Text} {data : EntryData} {result : EntryResult}
    {es : List JournalEntry} {ls : List EntryLine} (h : Ledger sha256 db)
    (hb : Booked sha256 db tenantId key data result es ls) : Ledger sha256 (db.post es ls) := by
  have hgrow := hb.grows
  cases hb with
  | replayed => exact h.congr rfl (by simp [Db.post]) (by simp [Db.post])
  | @posted e ls hp =>
      refine ⟨h.accountIds, Keyed.nodup_concat h.entryIds hp.freshId, ?_, ?_, ?_⟩
      · intro x hx y hy ht hk
        rcases List.mem_append.mp hx with hx | hx
        · rcases List.mem_append.mp hy with hy | hy
          · exact h.entryKeys x hx y hy ht hk
          · rw [List.mem_singleton.mp hy] at ht hk
            exact absurd ⟨ht.trans hp.tenant, hk.trans hp.named⟩ (hp.freshKey x hx)
        · rcases List.mem_append.mp hy with hy | hy
          · rw [List.mem_singleton.mp hx] at ht hk
            exact absurd ⟨ht.symm.trans hp.tenant, hk.symm.trans hp.named⟩ (hp.freshKey y hy)
          · rw [List.mem_singleton.mp hx, List.mem_singleton.mp hy]
      · intro l hl
        rcases List.mem_append.mp hl with hl | hl
        · obtain ⟨x, hx, hid⟩ := h.owned l hl
          exact ⟨x, List.mem_append_left _ hx, hid⟩
        · obtain ⟨d, -, hentry, -⟩ := hp.line hl
          exact ⟨e, List.mem_append_right _ (List.mem_singleton_self e), hentry.symm⟩
      · intro x hx
        rcases List.mem_append.mp hx with hx | hx
        · obtain ⟨data', hb⟩ := h.books x hx
          exact ⟨data', hb.grows hx hgrow⟩
        · rw [List.mem_singleton.mp hx]
          exact ⟨data, hp.books h⟩

/-- The entry that `createJournalEntryTx` returns is there, under its key and with the fingerprint of the body. -/
theorem Booked.entry {db : Db} {tenantId : Uuid} {key : Text} {data : EntryData} {result : EntryResult}
    {es : List JournalEntry} {ls : List EntryLine} (hb : Booked sha256 db tenantId key data result es ls) :
    result.entry ∈ (db.post es ls).entries ∧ result.entry.tenantId = tenantId ∧ result.entry.idempotencyKey = key ∧
      result.entry.requestFingerprint = fingerprint sha256 data.toJs := by
  cases hb with
  | posted hp => exact ⟨List.mem_append_right _ (List.mem_singleton_self _), hp.tenant, hp.named, hp.body⟩
  | replayed _ he ht hk hf _ => exact ⟨List.mem_append_left _ he, ht, hk, hf⟩

end FinSight
