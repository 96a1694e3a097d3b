import FinSight.Guarantees.Invoices
import FinSight.Serial.Alone
import FinSight.Serial.Fingerprints

/-!
# Issuing

* `Issues` : by itself, `issueInvoice` succeeds and moves the invoice to `ISSUED`;
* `Unclaimed` : no other body has been posted under the key that the issue entry gets;
* `issues_iff` : an issuable invoice is issued exactly when its key is unclaimed; so it always is, where clients do
  not choose keys that start with `invoice-issue:`;
* `not_issues` : a client's entry under the key of an invoice.
-/

namespace FinSight

open ReadCommitted

variable {sha256 : Text → Text}

/-- The call, with nothing else in flight, commits; it answers with the invoice, which is `ISSUED`. -/
def Issues (sha256 : Text → Text) (db : Db) (r : IssueRequest) (i : Invoice) (now : Nat) (choices : Nat → Choice) :
    Prop :=
  ∃ j log rest, (program sha256 (.issueInvoice r)).alone engine now db [] choices =
      (.ok (.invoice (some j)), log, rest) ∧
    deferred (engine.view log db) log = none ∧ j ∈ (engine.view log db).invoices ∧ j.id = i.id ∧ j.status = .issued

/-- The entry that has the key of the issue entry, if there is one, has its body. -/
def Unclaimed (sha256 : Text → Text) (db : Db) (r : IssueRequest) (i : Invoice) : Prop :=
  ∀ e ∈ db.entries, e.tenantId = r.tenantId → e.idempotencyKey = issueKey i.id →
    e.requestFingerprint = fingerprint sha256 (r.body i).toJs

/-! ## The body of the issue entry -/

theorem body_balanced (r : IssueRequest) (i : Invoice) : ((r.body i).lines.map (·.amountMinor)).sum = 0 := by
  simp [IssueRequest.body, issueData]

theorem nulFree_invoiceNumber (n : Nat) : nulFree (text "Invoice " ++ invoiceNumber n ++ text " issued") = true := by
  have hdigits : 0 ∉ padStart 6 (decimal n) := fun h => absurd (isDigit_of_mem_padStart h).1 (by decide)
  simp only [nulFree, invoiceNumber, Bool.not_eq_true', List.contains_eq_mem, decide_eq_false_iff_not, List.mem_append,
    not_or]
  exact ⟨⟨by decide, by decide, hdigits⟩, by decide⟩

theorem body_fits {db : Db} (h : Numbering db) {i : Invoice} (hi : i ∈ db.invoices) (r : IssueRequest) :
    (r.body i).fits = true := by
  have hdescription : nulFree (r.body i).description = true := by
    show nulFree (text "Invoice " ++ i.invoiceNumber ++ text " issued") = true
    rw [h.text i hi]
    exact nulFree_invoiceNumber _
  rw [EntryData.fits, hdescription, Bool.true_and]
  exact r.issueDate.valid

theorem body_range {i : Invoice} {sum : Int} (h : Standing i sum) (r : IssueRequest) :
    ∀ d ∈ (r.body i).lines, inInt8 d.amountMinor = true := by
  have htotal := h.total
  have hrange := h.range
  simp only [inInt8, Bool.and_eq_true, decide_eq_true_iff] at hrange
  intro d hd
  rcases List.mem_pair.mp hd with rfl | rfl
  · exact h.range
  · simp only [inInt8, Bool.and_eq_true, decide_eq_true_iff]
    omega

/-- The two accounts are different: their types are. -/
theorem body_accounts {db : Db} (hids : (db.accounts.map (·.id)).Nodup) {r : IssueRequest} {i : Invoice}
    (h : Issuable db r i) : ((r.body i).lines.map fun d => d.accountId.uuid).Nodup ∧
      ∀ d ∈ (r.body i).lines, ∃ a ∈ db.accounts, a.id = d.accountId.uuid ∧ a.tenantId = r.tenantId ∧
        a.currency = i.currency := by
  obtain ⟨a, ha, haid, hat, hac, hatype⟩ := h.receivable
  obtain ⟨b, hb, hbid, hbt, hbc, hbtype⟩ := h.revenue
  refine ⟨?_, fun d hd => ?_⟩
  · show [r.receivableAccountId.uuid, r.revenueAccountId.uuid].Nodup
    rw [List.nodup_cons, List.mem_singleton]
    refine ⟨fun heq => ?_, List.nodup_singleton _⟩
    have hasset := hatype _ rfl
    rw [Keyed.eq_of_key_eq hids ha hb (haid.trans (heq.trans hbid.symm)), hbtype _ rfl] at hasset
    cases hasset
  · rcases List.mem_pair.mp hd with rfl | rfl
    · exact ⟨a, ha, haid, hat, hac⟩
    · exact ⟨b, hb, hbid, hbt, hbc⟩

/-! ## When issuing succeeds -/

/-- The deferred check finds the new lines balanced. -/
theorem deferred_issue {db : Db} (h : Ledger sha256 db) {e : JournalEntry} (hfresh : ∀ x ∈ db.entries, x.id ≠ e.id)
    {ls : List EntryLine} (hentry : ∀ l ∈ ls, l.entryId = e.id) (hsum : (ls.map (·.amountMinor)).sum = 0)
    {db' : Db} (hlines : db'.lines = db.lines ++ ls) {log : List Write} (hlog : ∀ l, .line l ∈ log → l ∈ ls) :
    deferred db' log = none := by
  have hold : db.lines.filter (fun l => l.entryId = e.id) = [] := by
    rw [List.filter_eq_nil_iff]
    intro l hl heq
    obtain ⟨x, hx, hid⟩ := h.owned l hl
    exact hfresh x hx (hid.trans (of_decide_eq_true heq))
  have hnew : ls.filter (fun l => l.entryId = e.id) = ls :=
    List.filter_eq_self.mpr fun l hl => decide_eq_true (hentry l hl)
  refine if_neg fun hany => ?_
  obtain ⟨w, hw, hfails⟩ := List.any_eq_true.mp hany
  cases w with
  | line l =>
      have hl := hlog l hw
      simp only [entrySum, hlines, hentry l hl, List.filter_append, hold, hnew, List.nil_append, hsum, ne_eq,
        not_true_eq_false, decide_false, Bool.false_eq_true] at hfails
  | _ => cases hfails

theorem issues_of_booked {db : Db} (hc : Consistent sha256 db) {r : IssueRequest} {i : Invoice} (h : Issuable db r i)
    {result : EntryResult} {es : List JournalEntry} {ls : List EntryLine} {now : Nat} {choices : Nat → Choice}
    (hfresh : Fresh db 2 choices)
    (hbooked : (createJournalEntryTx sha256 r.tenantId (issueKey i.id) (r.body i)).alone engine now db []
      (fun n => choices (n + 3)) = (.ok result, posts es ls, fun n => choices (n + 3 + 3)))
    (hdeferred : ∀ db' log, db'.lines = db.lines ++ ls → (∀ l, .line l ∈ log → l ∈ ls) → deferred db' log = none) :
    Issues sha256 db r i now choices := by
  obtain ⟨row, rest, hissue⟩ := issueTx_alone hc h ((hfresh.drop 3).drop 3) hbooked
  refine ⟨i.set (issuedState r result), posts es ls ++ [.updateInvoice i.id (issuedState r result), .history row], rest,
    ?_, hdeferred _ _ ?_ ?_, ?_, rfl, rfl⟩
  · show ((issueInvoice sha256 r >>= fun j => .ret (.invoice j)) : Tx Response).alone engine now db [] choices = _
    rw [Program.alone_bind, issueInvoice_alone hc h, hissue]
    rfl
  · rw [Engine.view_append, view_posts]
    rfl
  · intro l hl
    simpa [posts] using hl
  · rw [Engine.view_append, view_posts]
    exact List.mem_map.mpr ⟨i, h.names.mem, if_pos rfl⟩

theorem issues_of_unclaimed {db : Db} (hc : Consistent sha256 db) {r : IssueRequest} {i : Invoice}
    (h : Issuable db r i) {choices : Nat → Choice} (hfresh : Fresh db 2 choices)
    (hunclaimed : Unclaimed sha256 db r i) (now : Nat) : Issues sha256 db r i now choices := by
  have hfits := body_fits hc.numbering h.names.mem r
  by_cases hkey : ∃ e ∈ db.entries, e.tenantId = r.tenantId ∧ e.idempotencyKey = issueKey i.id
  · obtain ⟨e, he, ht, hk⟩ := hkey
    have htaken := taken_alone hc.ledger (body_balanced r i) hfits he ht hk now fun n => choices (n + 3)
    rw [if_pos (hunclaimed e he ht hk)] at htaken
    refine @issues_of_booked _ _ hc r i h _ [] [] _ _ hfresh htaken fun db' log _ hlog => if_neg fun hany => ?_
    obtain ⟨w, hw, hfails⟩ := List.any_eq_true.mp hany
    cases w with
    | line l => exact absurd (hlog l hw) List.not_mem_nil
    | _ => cases hfails
  · obtain ⟨hnodup, hfound⟩ := body_accounts hc.ledger.accountIds h
    obtain ⟨e, ls, hbooked, hnew, hpostings⟩ := post_alone sha256 hc.ledger.accountIds (body_balanced r i)
      hfits (fun e he hmatch => hkey ⟨e, he, hmatch⟩) hnodup hfound (body_range (hc.billing.standing i h.names.mem) r)
      (hfresh.drop 3) now
    refine issues_of_booked hc h hfresh hbooked fun db' log hlines hlog =>
      deferred_issue hc.ledger hnew (fun l hl => ?_) ?_ hlines hlog
    · have hposting := hpostings ▸ List.mem_map_of_mem (f := EntryLine.posting) hl
      obtain ⟨d, -, heq⟩ := List.mem_map.mp hposting
      exact (congrArg Prod.fst heq).symm
    · have hamounts := congrArg (fun rows => (rows.map fun x : Uuid × Uuid × Uuid × Int => x.2.2.2).sum) hpostings
      simp only [List.map_map] at hamounts
      exact hamounts.trans (body_balanced r i)

/-- Another body under the key: the request is refused. -/
theorem refused_of_claimed {db : Db} (hc : Consistent sha256 db) {r : IssueRequest} {i : Invoice}
    (h : Issuable db r i) (hclaimed : ¬ Unclaimed sha256 db r i) (now : Nat) (choices : Nat → Choice) :
    ∃ rest, (program sha256 (.issueInvoice r)).alone engine now db [] choices =
      (.error (.app idempotencyKeyReused), [], rest) := by
  unfold Unclaimed at hclaimed
  push Not at hclaimed
  obtain ⟨e, he, ht, hk, hprint⟩ := hclaimed
  have htaken := taken_alone hc.ledger (body_balanced r i) (body_fits hc.numbering h.names.mem r) he ht hk now
    fun n => choices (n + 3)
  rw [if_neg hprint] at htaken
  refine ⟨fun n => choices (n + 2 + 3), ?_⟩
  show ((issueInvoice sha256 r >>= fun j => .ret (.invoice j)) : Tx Response).alone engine now db [] choices = _
  rw [Program.alone_bind, issueInvoice_alone hc h, issueTx_refused htaken]

/-! ## Keys that clients choose -/

/-- The Idempotency-Key of a client does not look like the key of an issue entry. -/
def KeepsOff : Request → Prop
  | .createJournalEntry r => (text "invoice-issue:").isPrefixOf r.idempotencyKey.text = false
  | _ => True

/-- Entries under the key of an issue entry are of invoices that have been issued. -/
def IssueEntries (db : Db) : Prop :=
  ∀ e ∈ db.entries, ∀ x, e.idempotencyKey = issueKey x → ∃ j ∈ db.invoices, j.id = x ∧ j.status ≠ .draft

/-- A new entry has the key that its request gives it. -/
theorem Commit.newEntry {strict : Prop} {db : Db} {now : Timestamp} {q : Request} {r : Response} {log : List Write}
    (hc : Commit sha256 strict db now q r log) {e : JournalEntry} (he : e ∈ (engine.view log db).entries) :
    e ∈ db.entries ∨ (∃ er, q = .createJournalEntry er ∧ e.idempotencyKey = er.idempotencyKey.text) ∨
      (∃ i, e.idempotencyKey = issueKey i ∧ ∃ j ∈ (engine.view log db).invoices, j.id = i ∧ j.status = .issued) ∨
      ∃ p, e.idempotencyKey = paymentKey p := by
  have hnew : ∀ {key : Text} {tenantId : Uuid} {data : EntryData} {result : EntryResult} {es : List JournalEntry}
      {ls : List EntryLine}, Booked sha256 db tenantId key data result es ls → e ∈ db.entries ++ es →
      e ∈ db.entries ∨ e.idempotencyKey = key := by
    intro key tenantId data result es ls hb hmem
    cases hb with
    | posted hp =>
        rcases List.mem_append.mp hmem with hmem | hmem
        · exact Or.inl hmem
        · exact Or.inr (List.mem_singleton.mp hmem ▸ hp.named)
    | replayed _ _ _ _ _ _ => exact Or.inl (by simpa using hmem)
  cases hc with
  | createAccount _ _ _ => exact Or.inl he
  | createJournalEntry hb =>
      rw [view_posts] at he
      exact (hnew hb he).imp id fun hkey => Or.inl ⟨_, rfl, hkey⟩
  | createInvoice hcreated =>
      rw [hcreated.view] at he
      exact Or.inl he
  | @issueInvoice r i result es ls row hissued =>
      rw [hissued.view] at he ⊢
      refine (hnew hissued.booked he).imp id fun hkey =>
        Or.inr (Or.inl ⟨i.id, hkey, i.set (issuedState r result), ?_, rfl, rfl⟩)
      exact List.mem_map.mpr ⟨i, hissued.names.mem, if_pos rfl⟩
  | pay hp =>
      rw [hp.view] at he
      exact (hnew hp.booked he).imp id fun hkey => Or.inr (Or.inr ⟨_, hkey⟩)
  | replayPayment _ => exact Or.inl he
  | voidInvoice hv =>
      rw [hv.view] at he
      exact Or.inl he
  | markOverdue ho =>
      obtain ⟨invoices, history, heq⟩ := ho.view
      rw [heq] at he
      exact Or.inl he

theorem Commit.issueEntries {strict : Prop} {db : Db} {now : Timestamp} {q : Request} {r : Response} {log : List Write}
    (hc : Commit sha256 strict db now q r log) (h : Consistent sha256 db) (hq : KeepsOff q) (hold : IssueEntries db) :
    IssueEntries (engine.view log db) := by
  intro e he x hkey
  rcases hc.newEntry he with he | ⟨er, rfl, hclient⟩ | ⟨i, hissue, j, hj, hid, hstatus⟩ | ⟨p, hpayment⟩
  · obtain ⟨j, hj, hid, hstatus⟩ := hold e he x hkey
    obtain ⟨k, hk, hkid, -⟩ := hc.grows.invoices j hj
    refine ⟨k, hk, hkid.trans hid, ?_⟩
    rcases hc.transitions h j hj k hk hkid with hsame | hedge
    · exact hsame ▸ hstatus
    · rintro heq
      rw [heq] at hedge
      exact absurd hedge (by cases j.status <;> decide)
  · rw [KeepsOff, ← hclient, hkey, issueKey] at hq
    exact absurd (List.isPrefixOf_iff_prefix.mpr (List.prefix_append _ _)) (Bool.eq_false_iff.mp hq)
  · have hx : i = x := Uuid.text_injective (List.append_cancel_left (hissue.symm.trans hkey))
    exact ⟨j, hj, hid.trans hx, by rw [hstatus]; decide⟩
  · exact absurd (hkey.symm.trans hpayment) (issueKey_ne_paymentKey x p)

theorem Serial.issueEntries {strict : Prop} {db : Db} (h : Serial sha256 strict KeepsOff db) : IssueEntries db := by
  induction h with
  | empty => exact fun _ he => absurd he List.not_mem_nil
  | commit hserial hq hc ih => exact hc.issueEntries hserial.consistent hq ih

/-- **Every draft can be issued** in a run whose clients keep off the keys of issue entries; in any run, an issuable
invoice is issued exactly when its key is unclaimed. -/
theorem issues_iff :
    (∀ s : Sys, Reaches sha256 (requesting KeepsOff) s → ∀ r i, Issuable s.db r i → ∀ now choices,
      Fresh s.db 2 choices → Issues sha256 s.db r i now choices) ∧
      ∀ s : Sys, Reaches sha256 anyStep s → ∀ r i, Issuable s.db r i → ∀ now choices, Fresh s.db 2 choices →
        (Issues sha256 s.db r i now choices ↔ Unclaimed sha256 s.db r i) := by
  refine ⟨fun s h r i hissuable now choices hfresh => ?_, fun s h r i hissuable now choices hfresh => ⟨?_, ?_⟩⟩
  · have hc := consistent_of_reaches h
    refine issues_of_unclaimed hc hissuable hfresh (fun e he _ hkey => ?_) now
    obtain ⟨j, hj, hid, hstatus⟩ := (serial_of_reaches (requesting_begin _) h).issueEntries e he i.id hkey
    rw [Keyed.eq_of_key_eq hc.billing.invoiceIds hj hissuable.names.mem hid] at hstatus
    exact absurd hissuable.draft hstatus
  · intro hissues
    by_contra hclaimed
    obtain ⟨j, log, rest, halone, -⟩ := hissues
    obtain ⟨rest', hrefused⟩ := refused_of_claimed (consistent_of_reaches h) hissuable hclaimed now choices
    rw [halone] at hrefused
    cases hrefused
  · exact fun hunclaimed => issues_of_unclaimed (consistent_of_reaches h) hissuable hfresh hunclaimed now

/-- Where nothing is in flight, the call is a run that leaves the invoice `ISSUED`. -/
theorem run_of_issues {s : Sys} (hquiet : s.Quiet) {r : IssueRequest} {i : Invoice} {choices : Nat → Choice}
    (h : Issues sha256 s.db r i s.clock choices) : ∃ n s', System.run engine (program sha256) s
      (System.solo s.calls.length (.issueInvoice r) choices n [.prepare s.calls.length, .commit s.calls.length]) =
        some s' ∧ ∃ j ∈ s'.db.invoices, j.id = i.id ∧ j.status = .issued := by
  obtain ⟨j, log, rest, halone, hdeferred, hj, hid, hstatus⟩ := h
  obtain ⟨n, hrun⟩ := System.run_alone hquiet (.issueInvoice r) choices halone hdeferred
  exact ⟨n, _, hrun, j, hj, hid, hstatus⟩

/-! ## A key that is taken -/

instance (db : Db) (id : UuidText) (tenantId : Uuid) (currency : Text) (type : AccountType) :
    Decidable (HasAccount db id tenantId currency (some type)) :=
  decidable_of_iff (∃ a ∈ db.accounts, a.id = id.uuid ∧ a.tenantId = tenantId ∧ a.currency = currency ∧ a.type = type)
    (by simp [HasAccount])

instance (db : Db) (r : IssueRequest) (i : Invoice) : Decidable (Issuable db r i) :=
  decidable_of_iff ((i ∈ db.invoices ∧ uuidIn r.invoiceId = some i.id ∧ i.tenantId = r.tenantId) ∧ i.status = .draft ∧
      HasAccount db r.receivableAccountId r.tenantId i.currency (some .asset) ∧
      HasAccount db r.revenueAccountId r.tenantId i.currency (some .revenue))
    ⟨fun h => ⟨⟨h.1.1, h.1.2.1, h.1.2.2⟩, h.2.1, h.2.2.1, h.2.2.2⟩,
      fun h => ⟨⟨h.names.mem, h.names.id, h.names.tenant⟩, h.draft, h.receivable, h.revenue⟩⟩

instance (sha256 : Text → Text) (db : Db) (r : IssueRequest) (i : Invoice) : Decidable (Unclaimed sha256 db r i) :=
  inferInstanceAs (Decidable (∀ e ∈ db.entries, _ → _ → _))

instance : DecidablePred KeepsOff
  | .createJournalEntry r =>
      inferInstanceAs (Decidable ((text "invoice-issue:").isPrefixOf r.idempotencyKey.text = false))
  | .createAccount _ | .createInvoice _ | .issueInvoice _ | .createInvoicePayment _ | .voidInvoice _
  | .markOverdueInvoices _ => isTrue trivial

namespace Day

/-- An entry that a client posts, under the key of the issue entry of the invoice. -/
def squat : EntryRequest :=
  ⟨tenant, ⟨issueKey invoice, by decide, by decide⟩,
    ⟨text "Sale", ⟨0⟩, [⟨bank.spelled, 10⟩, ⟨revenue.spelled, -10⟩], two_le_two⟩⟩

/-- Ids that no call of the day has used. -/
def unused : Nat → Choice := fun _ => choice 900

/-- They are new to the tables that issuing adds to. -/
def Unused (db : Db) : Prop :=
  (∀ e ∈ db.entries, ∀ k < 2, e.id ≠ uuid (900 + k)) ∧ (∀ l ∈ db.lines, ∀ k < 2, l.id ≠ uuid (900 + k)) ∧
    ∀ h ∈ db.history, ∀ k < 2, h.id ≠ uuid (900 + k)

instance (db : Db) : Decidable (Unused db) := inferInstanceAs (Decidable (_ ∧ _ ∧ _))

theorem Unused.fresh {db : Db} (h : Unused db) : Fresh db 2 unused where
  distinct _ := by
    show ∀ j < 2, ∀ k < 2, uuid (900 + j) = uuid (900 + k) → j = k
    decide +kernel
  entries e he _ := h.1 e he
  lines l hl _ := h.2.1 l hl
  history x hx _ := h.2.2 x hx

end Day

set_option maxRecDepth 100000 in
/-- The draft of the opening can be issued. -/
theorem issues_of_opening : ∃ s : Sys, ∃ i ∈ s.db.invoices, i.status = .draft ∧
    Issues (fun t => t) s.db Day.issue i 0 Day.unused ∧
      (Issues (fun t => t) s.db Day.issue i 0 Day.unused ↔ Unclaimed (fun t => t) s.db Day.issue i) := by
  obtain ⟨s, hs, hshown⟩ := Day.reaches_of Day.opening (requesting_of_begun (P := KeepsOff) (by decide))
    (fun s => decide (Day.Unused s.db ∧ ∃ i ∈ s.db.invoices, Issuable s.db Day.issue i)) (a := true) (by decide +kernel)
  obtain ⟨hunused, i, hi, hissuable⟩ := of_decide_eq_true hshown
  exact ⟨s, i, hi, hissuable.draft, issues_iff.1 s hs Day.issue i hissuable 0 Day.unused hunused.fresh,
    issues_iff.2 s (hs.mono fun _ _ _ => trivial) Day.issue i hissuable 0 Day.unused hunused.fresh⟩

set_option maxRecDepth 100000 in
/-- The draft cannot be issued: its key is taken. -/
theorem not_issues : ¬ ∀ s : Sys, Reaches (fun t => t) anyStep s → ∀ r i, Issuable s.db r i → ∀ now choices,
    Fresh s.db 2 choices → Issues (fun t => t) s.db r i now choices := by
  intro hissues
  obtain ⟨s, hs, hshown⟩ := Day.reaches (Day.opening ++ Day.alone 4 3 (.createJournalEntry Day.squat))
    (fun s => decide (Day.Unused s.db ∧ ∃ i ∈ s.db.invoices, Issuable s.db Day.issue i ∧
      ¬ Unclaimed (fun t => t) s.db Day.issue i)) (a := true) (by decide +kernel)
  obtain ⟨hunused, i, hi, hissuable, hclaimed⟩ := of_decide_eq_true hshown
  obtain ⟨j, log, rest, halone, -⟩ := hissues s hs Day.issue i hissuable 0 Day.unused hunused.fresh
  obtain ⟨rest', hrefused⟩ := refused_of_claimed (consistent_of_reaches hs) hissuable hclaimed 0 Day.unused
  rw [halone] at hrefused
  cases hrefused

end FinSight
