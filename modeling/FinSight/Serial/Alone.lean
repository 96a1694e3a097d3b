import FinSight.ReadCommitted.Alone
import FinSight.Serial.Services

/-!
# Posting and issuing, with nothing in between

* `Fresh` : the generated ids are new;
* `post_alone`, `replay_alone`, `reuse_alone` : where `createJournalEntryTx` ends, by what its key names;
* `issueInvoice_alone` : the checks of `issueInvoice` pass for an `Issuable` invoice, and posting decides.
-/

namespace FinSight

open ReadCommitted

variable {sha256 : Text → Text}

/-- The ids generated for the first `rows` rows of each statement are distinct, and new to the tables that posting
and issuing add to. -/
structure Fresh (db : Db) (rows : Nat) (choices : Nat → Choice) : Prop where
  distinct : ∀ n, ∀ j < rows, ∀ k < rows, (choices n).fresh j = (choices n).fresh k → j = k
  entries : ∀ e ∈ db.entries, ∀ n, ∀ k < rows, e.id ≠ (choices n).fresh k
  lines : ∀ l ∈ db.lines, ∀ n, ∀ k < rows, l.id ≠ (choices n).fresh k
  history : ∀ h ∈ db.history, ∀ n, ∀ k < rows, h.id ≠ (choices n).fresh k

theorem Fresh.drop {db : Db} {rows : Nat} {choices : Nat → Choice} (h : Fresh db rows choices) (m : Nat) :
    Fresh db rows fun n => choices (n + m) where
  distinct n := h.distinct (n + m)
  entries e he n := h.entries e he (n + m)
  lines l hl n := h.lines l hl (n + m)
  history x hx n := h.history x hx (n + m)

/-! ## Statements that do not fail -/

theorem insertEntry_free {v : Sql.EntryValues} (hfits : v.fits = true) {db : Db}
    (hkey : ∀ e ∈ db.entries, ¬ (e.tenantId = v.tenantId ∧ e.idempotencyKey = v.idempotencyKey))
    (ctx : Context Choice) (hid : ∀ e ∈ db.entries, e.id ≠ ctx.choice.fresh 0) :
    ∃ e ls, Sql.insertEntry v ctx db = .done (some e) [.entry e] ls [] ∧ e.id = ctx.choice.fresh 0 := by
  rw [Sql.EntryValues.fits, Bool.and_eq_true] at hfits
  have hnone : (db.entries.any fun e => e.tenantId = v.tenantId && e.idempotencyKey = v.idempotencyKey) = false := by
    rw [List.any_eq_false]
    intro e he
    rw [Bool.and_eq_true, decide_eq_true_iff, decide_eq_true_iff]
    exact hkey e he
  unfold Sql.insertEntry
  rw [Sql.checked_of_all _ (by simp [hfits.1, hfits.2]), if_neg (Bool.eq_false_iff.mp hnone),
    Sql.checked_of_all _ (by simpa using hid)]
  exact ⟨_, _, rfl, rfl⟩

theorem insertEntry_taken {v : Sql.EntryValues} (hfits : v.fits = true) {db : Db} {e : JournalEntry}
    (he : e ∈ db.entries) (ht : e.tenantId = v.tenantId) (hk : e.idempotencyKey = v.idempotencyKey)
    (ctx : Context Choice) : Sql.insertEntry v ctx db = .done none [] [] [.entryKey v.tenantId v.idempotencyKey] := by
  rw [Sql.EntryValues.fits, Bool.and_eq_true] at hfits
  have hany : (db.entries.any fun e => e.tenantId = v.tenantId && e.idempotencyKey = v.idempotencyKey) = true :=
    List.any_eq_true.mpr ⟨e, he, by simp [ht, hk]⟩
  unfold Sql.insertEntry
  rw [Sql.checked_of_all _ (by simp [hfits.1, hfits.2]), if_pos hany]

theorem insertLines_fresh {values : List Sql.LineValues} (hrange : ∀ v ∈ values, inInt8 v.amountMinor = true)
    (db : Db) (ctx : Context Choice)
    (hdistinct : ∀ j < values.length, ∀ k < values.length, ctx.choice.fresh j = ctx.choice.fresh k → j = k)
    (hid : ∀ l ∈ db.lines, ∀ k < values.length, l.id ≠ ctx.choice.fresh k) :
    ∃ ls locks, Sql.insertLines values ctx db = .done ls (ls.map .line) locks [] ∧
      ls.map EntryLine.posting = values.map fun v => (v.entryId, v.tenantId, v.accountId.uuid, v.amountMinor) := by
  have hids : (List.map (fun x : Sql.LineValues × Nat => ctx.choice.fresh x.2) values.zipIdx).Nodup := by
    rw [show (fun x : Sql.LineValues × Nat => ctx.choice.fresh x.2) = ctx.choice.fresh ∘ Prod.snd from rfl,
      ← List.map_map, List.zipIdx_map_snd]
    have hindices : (List.range' 0 values.length).Nodup := List.nodup_range'
    refine hindices.map_on fun j hj k hk => hdistinct j ?_ k ?_
    · simpa using hj
    · simpa using hk
  unfold Sql.insertLines
  rw [Sql.checked_of_all _ ?_]
  · refine ⟨_, _, rfl, ?_⟩
    rw [List.map_map]
    exact fst_zipIdx values fun v => (v.entryId, v.tenantId, v.accountId.uuid, v.amountMinor)
  · simp only [List.forall_mem_cons, List.all_eq_true, Sql.freshIds, Bool.and_eq_true, decide_eq_true_iff, List.map_map]
    refine ⟨?_, ⟨hids, ?_⟩, by simp⟩
    · intro l hl
      obtain ⟨x, hx, rfl⟩ := List.mem_map.mp hl
      exact hrange x.1 (List.fst_mem_of_mem_zipIdx hx)
    · intro l hl x hx
      obtain ⟨y, hy, rfl⟩ := List.mem_map.mp hl
      exact hid x hx y.2 (List.snd_lt_of_mem_zipIdx hy)

/-- The accounts that distinct ids name. -/
theorem accounts_perm {db : Db} (hids : (db.accounts.map (·.id)).Nodup) (tenantId : Uuid) {ids : List UuidText}
    (hnodup : (ids.map (·.uuid)).Nodup) (h : ∀ t ∈ ids, ∃ a ∈ db.accounts, a.id = t.uuid ∧ a.tenantId = tenantId) :
    ((db.accounts.filter fun a => a.tenantId = tenantId && ids.any fun id => id.uuid = a.id).map (·.id)).Perm
      (ids.map (·.uuid)) := by
  refine (List.perm_ext_iff_of_nodup (hids.sublist (List.filter_sublist.map _)) hnodup).mpr fun u => ⟨fun hu => ?_, ?_⟩
  · obtain ⟨a, ha, rfl⟩ := List.mem_map.mp hu
    rw [List.mem_filter] at ha
    simp only [Bool.and_eq_true, decide_eq_true_iff, List.any_eq_true] at ha
    obtain ⟨-, -, t, ht, hid⟩ := ha
    exact hid ▸ List.mem_map_of_mem ht
  · intro hu
    obtain ⟨t, ht, rfl⟩ := List.mem_map.mp hu
    obtain ⟨a, ha, hid, htenant⟩ := h t ht
    refine hid ▸ List.mem_map_of_mem ?_
    rw [List.mem_filter]
    exact ⟨ha, by simpa [htenant] using ⟨t, ht, hid.symm⟩⟩

/-- Every id names an account of the tenant, all in one currency: the checks of `postLines` pass. -/
theorem selectAccounts_found {db : Db} (hids : (db.accounts.map (·.id)).Nodup) {tenantId : Uuid} {c : Text}
    {ids : List UuidText} (hnodup : (ids.map (·.uuid)).Nodup)
    (h : ∀ t ∈ ids, ∃ a ∈ db.accounts, a.id = t.uuid ∧ a.tenantId = tenantId ∧ a.currency = c)
    (ctx : Context Choice) :
    ∃ rows, Sql.selectAccounts tenantId ids ctx db = .done rows [] [] [] ∧ rows.length = ids.length ∧
      ¬ 1 < (rows.map (·.currency)).dedup.length := by
  refine ⟨_, rfl, ?_⟩
  generalize hrows : (db.accounts.filter fun a => a.tenantId = tenantId && ids.any fun id => id.uuid = a.id) = rows
  have hmem : ∀ a ∈ rows, a ∈ db.accounts ∧ ∃ t ∈ ids, t.uuid = a.id := by
    intro a ha
    rw [← hrows, List.mem_filter] at ha
    simp only [Bool.and_eq_true, decide_eq_true_iff, List.any_eq_true] at ha
    exact ⟨ha.1, ha.2.2⟩
  have hcurrency : ∀ a ∈ rows, a.currency = c := by
    intro a ha
    obtain ⟨haccount, t, ht, hid⟩ := hmem a ha
    obtain ⟨b, hb, hbid, -, hbc⟩ := h t ht
    rw [Keyed.eq_of_key_eq hids haccount hb (hid.symm.trans hbid.symm), hbc]
  have hperm : (rows.map (·.id)).Perm (ids.map (·.uuid)) := by
    rw [← hrows]
    refine accounts_perm hids tenantId hnodup fun t ht => ?_
    obtain ⟨a, ha, hid, htenant, -⟩ := h t ht
    exact ⟨a, ha, hid, htenant⟩
  refine ⟨?_, ?_⟩
  · rw [(shuffle_perm ctx.choice.order rows).length_eq]
    simpa using hperm.length_eq
  · have hsub : ((shuffle ctx.choice.order rows).map (·.currency)).dedup ⊆ [c] := by
      intro x hx
      obtain ⟨a, ha, rfl⟩ := List.mem_map.mp (List.mem_dedup.mp hx)
      exact List.mem_singleton.mpr (hcurrency a (mem_shuffle.mp ha))
    have hle := (List.nodup_dedup _).length_le_of_subset hsub
    rw [List.length_singleton] at hle
    omega

/-! ## createJournalEntryTx -/

variable (sha256) in
/-- The key is free: the entry is posted. -/
theorem post_alone {db : Db} (haccounts : (db.accounts.map (·.id)).Nodup) {tenantId : Uuid} {key c : Text}
    {data : EntryData} (hbalanced : (data.lines.map (·.amountMinor)).sum = 0) (hfits : data.fits = true)
    (hkey : ∀ e ∈ db.entries, ¬ (e.tenantId = tenantId ∧ e.idempotencyKey = key))
    (hnodup : (data.lines.map fun d => d.accountId.uuid).Nodup)
    (hfound : ∀ d ∈ data.lines, ∃ a ∈ db.accounts, a.id = d.accountId.uuid ∧ a.tenantId = tenantId ∧ a.currency = c)
    (hrange : ∀ d ∈ data.lines, inInt8 d.amountMinor = true) {choices : Nat → Choice}
    (hfresh : Fresh db data.lines.length choices) (now : Nat) :
    ∃ e ls, (createJournalEntryTx sha256 tenantId key data).alone engine now db [] choices =
        (.ok ⟨e, ls, false⟩, posts [e] ls, fun n => choices (n + 3)) ∧
      (∀ x ∈ db.entries, x.id ≠ e.id) ∧
      ls.map EntryLine.posting = data.lines.map fun d => (e.id, tenantId, d.accountId.uuid, d.amountMinor) := by
  have hvalues : (Sql.EntryValues.mk tenantId data.description data.occurredAt key (fingerprint sha256 data.toJs)).fits =
      true := hfits
  have hlines₀ : 0 < data.lines.length := Nat.lt_of_lt_of_le Nat.zero_lt_two data.twoLines
  obtain ⟨e, locks, hentry, hid⟩ := insertEntry_free hvalues hkey ⟨now, choices 0⟩
    fun x hx => hfresh.entries x hx 0 0 hlines₀
  have hids : ((data.lines.map (·.accountId)).map (·.uuid)).Nodup := by
    rw [List.map_map]
    exact hnodup
  have hdedup : (data.lines.map (·.accountId)).dedup = data.lines.map (·.accountId) :=
    List.dedup_eq_self.mpr (hids.of_map _)
  have haccount : ∀ t ∈ data.lines.map (·.accountId), ∃ a ∈ (engine.view [.entry e] db).accounts, a.id = t.uuid ∧
      a.tenantId = tenantId ∧ a.currency = c := fun t ht => by
    obtain ⟨d, hd, rfl⟩ := List.mem_map.mp ht
    exact hfound d hd
  obtain ⟨rows, hrows, hcount, hcurrency⟩ := selectAccounts_found haccounts hids haccount ⟨now, choices 1⟩
  have hvalid : ∀ v ∈ data.lines.map (fun l => Sql.LineValues.mk e.id tenantId l.accountId l.amountMinor),
      inInt8 v.amountMinor = true := fun v hv => by
    obtain ⟨d, hd, rfl⟩ := List.mem_map.mp hv
    exact hrange d hd
  obtain ⟨ls, locks', hlines, hpostings⟩ := insertLines_fresh hvalid db ⟨now, choices 2⟩
    (by rw [List.length_map]; exact hfresh.distinct 2) (by rw [List.length_map]; exact fun l hl => hfresh.lines l hl 2)
  refine ⟨e, ls, ?_, fun x hx => hid ▸ hfresh.entries x hx 0 0 hlines₀, ?_⟩
  · unfold createJournalEntryTx
    rw [if_neg (not_not.mpr hbalanced)]
    dsimp only
    rw [Program.alone_statement hentry]
    dsimp only
    unfold postLines
    rw [hdedup]
    rw [Program.alone_statement hrows, if_neg (not_not.mpr hcount), if_neg hcurrency,
      Program.alone_statement hlines]
    rfl
  · rw [hpostings, List.map_map]
    rfl

/-- The key names an entry: it is replayed if its body was the same. -/
theorem taken_alone {db : Db} (h : Ledger sha256 db) {tenantId : Uuid} {key : Text} {data : EntryData}
    (hbalanced : (data.lines.map (·.amountMinor)).sum = 0) (hfits : data.fits = true) {e : JournalEntry}
    (he : e ∈ db.entries) (ht : e.tenantId = tenantId) (hk : e.idempotencyKey = key) (now : Nat)
    (choices : Nat → Choice) :
    (createJournalEntryTx sha256 tenantId key data).alone engine now db [] choices =
      if e.requestFingerprint = fingerprint sha256 data.toJs then
        (.ok ⟨e, shuffle (choices 2).order (entryLines db e.id), true⟩, [], fun n => choices (n + 3))
      else (.error (.app idempotencyKeyReused), [], fun n => choices (n + 2)) := by
  have hvalues : (Sql.EntryValues.mk tenantId data.description data.occurredAt key (fingerprint sha256 data.toJs)).fits =
      true := hfits
  have hentry := insertEntry_taken hvalues he ht hk ⟨now, choices 0⟩
  have hfind : db.entries.find? (fun x => x.tenantId = tenantId && x.idempotencyKey = key) = some e := by
    obtain ⟨x, hfind, hx, hmatch⟩ := find?_isSome_of_mem (p := fun x => x.tenantId = tenantId && x.idempotencyKey = key)
      he (by simp [ht, hk])
    simp only [Bool.and_eq_true, decide_eq_true_iff] at hmatch
    rw [hfind, h.entryKeys x hx e he (hmatch.1.trans ht.symm) (hmatch.2.trans hk.symm)]
  have hexisting : Sql.selectEntryByKey tenantId key ⟨now, choices 1⟩ db = .done (some e) [] [] [] := by
    rw [Sql.selectEntryByKey, hfind]
  unfold createJournalEntryTx
  rw [if_neg (not_not.mpr hbalanced)]
  dsimp only
  rw [Program.alone_statement hentry]
  dsimp only
  unfold replayEntry
  rw [Program.alone_statement hexisting]
  dsimp only
  by_cases hprint : e.requestFingerprint = fingerprint sha256 data.toJs
  · rw [if_neg (not_not.mpr hprint), if_pos hprint]
    rfl
  · rw [if_pos hprint, if_neg hprint]
    rfl

/-! ## issueInvoice -/

/-- A DRAFT invoice, and two accounts of its tenant in its currency: a receivable and a revenue account. -/
structure Issuable (db : Db) (r : IssueRequest) (i : Invoice) : Prop where
  names : Names db r.invoiceId r.tenantId i
  draft : i.status = .draft
  receivable : HasAccount db r.receivableAccountId r.tenantId i.currency (some .asset)
  revenue : HasAccount db r.revenueAccountId r.tenantId i.currency (some .revenue)

/-- The body of the entry that issuing posts. -/
def IssueRequest.body (r : IssueRequest) (i : Invoice) : EntryData :=
  issueData i r.receivableAccountId r.revenueAccountId r.issueDate.date

theorem selectAccount_found {db : Db} (hids : (db.accounts.map (·.id)).Nodup) {id : UuidText} {tenantId : Uuid}
    {currency : Text} {type : Option AccountType} (h : HasAccount db id tenantId currency type) (ctx : Context Choice) :
    ∃ a, Sql.selectAccount id tenantId ctx db = .done (some a) [] [] [] ∧ a.currency = currency ∧ ∀ t ∈ type, a.type = t := by
  obtain ⟨a, ha, hid, htenant, hcurrency, htype⟩ := h
  have hfind : db.accounts.find? (fun a => a.id = id.uuid && a.tenantId = tenantId) = some a :=
    Keyed.find?_eq_some hids ha (by simp [hid, htenant]) fun b hb => by
      simp only [Bool.and_eq_true, decide_eq_true_iff] at hb
      rw [hb.1, hid]
  exact ⟨a, by rw [Sql.selectAccount, hfind], hcurrency, htype⟩

/-- The checks pass. -/
theorem issueInvoice_alone {db : Db} (hc : Consistent sha256 db) {r : IssueRequest} {i : Invoice}
    (h : Issuable db r i) (now : Nat) (choices : Nat → Choice) :
    (issueInvoice sha256 r).alone engine now db [] choices =
      (issueTx sha256 r i).alone engine now db [] fun n => choices (n + 3) := by
  have hinvoice : Sql.selectInvoiceForUpdate r.invoiceId r.tenantId ⟨now, choices 0⟩ db =
      .done (some i) [] [.invoice i.id] [] := by
    simp only [Sql.selectInvoiceForUpdate, h.names.id, find_named hc.billing.invoiceIds h.names]
  obtain ⟨receivable, hreceivable, hcurrency, htype⟩ :=
    selectAccount_found hc.ledger.accountIds h.receivable ⟨now, choices 1⟩
  obtain ⟨revenue, hrevenue, hcurrency', htype'⟩ :=
    selectAccount_found hc.ledger.accountIds h.revenue ⟨now, choices 2⟩
  unfold issueInvoice
  rw [Program.alone_statement hinvoice]
  dsimp only
  rw [if_neg (by rw [h.draft]; decide), Program.alone_statement hreceivable, Program.alone_statement hrevenue]
  dsimp only
  rw [if_neg (by simp [htype _ rfl, htype' _ rfl]), if_neg (by simp [hcurrency, hcurrency'])]
  rfl

/-- Once the entry is booked, the invoice is set to ISSUED. -/
theorem issueTx_alone {db : Db} (hc : Consistent sha256 db) {r : IssueRequest} {i : Invoice} (h : Issuable db r i)
    {result : EntryResult} {es : List JournalEntry} {ls : List EntryLine} {now : Nat} {choices choices' : Nat → Choice}
    (hfresh : Fresh db 2 choices')
    (hbooked : (createJournalEntryTx sha256 r.tenantId (issueKey i.id) (r.body i)).alone engine now db [] choices =
      (.ok result, posts es ls, choices')) :
    ∃ row rest, (issueTx sha256 r i).alone engine now db [] choices = (.ok (some (i.set (issuedState r result))),
      posts es ls ++ [.updateInvoice i.id (issuedState r result), .history row], rest) := by
  have hupdate : Sql.updateInvoice r.invoiceId r.tenantId (fun _ => issuedState r result) ⟨now, choices' 0⟩
      (engine.view (posts es ls) db) = .done (some (i.set (issuedState r result)))
        [.updateInvoice i.id (issuedState r result)] [.invoice i.id] [] := by
    have hfind := find_named hc.billing.invoiceIds h.names
    rw [view_posts]
    simp only [Sql.updateInvoice, Sql.updateInvoices, h.names.id, Db.post, hfind]
  obtain ⟨row, hrow⟩ : ∃ row locks, Sql.insertHistory i.id (some i.status) .issued (text "Invoice issued")
      ⟨now, choices' 1⟩ (engine.view (posts es ls ++ [.updateInvoice i.id (issuedState r result)]) db) =
        .done () [.history row] locks [] := by
    rw [Engine.view_append, view_posts]
    unfold Sql.insertHistory
    rw [Sql.checked_of_all _ (by simpa [Db.apply, Db.post] using fun x hx => hfresh.history x hx 1 0 Nat.zero_lt_two)]
    exact ⟨_, _, rfl⟩
  obtain ⟨locks, hrow⟩ := hrow
  unfold issueTx
  rw [Program.alone_bind, show issueData i r.receivableAccountId r.revenueAccountId r.issueDate.date = r.body i from rfl,
    hbooked]
  dsimp only
  rw [show (fun _ => (⟨.issued, some r.issueDate.date.timestamp, some result.entry.id, r.issueDate.date.timestamp⟩ :
    InvoiceState)) = fun _ => issuedState r result from rfl, Program.alone_statement hupdate,
    Program.alone_statement hrow, List.append_assoc]
  exact ⟨row, _, rfl⟩

/-- Where posting fails, so does issuing. -/
theorem issueTx_refused {db : Db} {r : IssueRequest} {i : Invoice} {e : Failure} {log : List Write} {now : Nat}
    {choices rest : Nat → Choice}
    (hfails : (createJournalEntryTx sha256 r.tenantId (issueKey i.id) (r.body i)).alone engine now db [] choices =
      (.error e, log, rest)) : (issueTx sha256 r i).alone engine now db [] choices = (.error e, log, rest) := by
  unfold issueTx
  rw [Program.alone_bind, show issueData i r.receivableAccountId r.revenueAccountId r.issueDate.date = r.body i from rfl,
    hfails]

end FinSight
