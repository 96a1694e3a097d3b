import FinSight.Guarantees.Invoices
import FinSight.Serial.Unkeyed

/-!
# The spelling of account ids

Postgres compares uuids by value; `createJournalEntryTx` counts the spellings of the account ids, and
`createInvoicePayment` compares the receivable with how Postgres renders it.

* `UuidText.Respells` : equal except for letter case; `UuidText.Lower` : in lower case;
* `EntrySplits`, `PaymentSplits` : where two spellings of one request end differently;
* `count_accounts_iff` : the count of the accounts, in terms of the spellings;
* `post_alike`, `post_split` : posting an entry in two spellings.
-/

namespace FinSight

open ReadCommitted

variable {sha256 : Text → Text}

/-! ## Spellings -/

/-- Equal except for the letter case of hexadecimal digits. -/
def UuidText.Respells (u u' : UuidText) : Prop := u.hex.map lowerHex = u'.hex.map lowerHex
  deriving Decidable

theorem UuidText.Respells.uuid {u u' : UuidText} (h : u.Respells u') : u.uuid = u'.uuid := by
  have hvalues : ∀ t : Text, (t.map lowerHex).filterMap hexValue = t.filterMap hexValue := by
    intro t
    rw [List.filterMap_map]
    exact List.filterMap_congr fun u _ => hexValue_lowerHex u
  rw [UuidText.uuid, UuidText.uuid, ← hvalues, h, hvalues]

/-- In lower case, as Postgres renders it. -/
def UuidText.Lower (u : UuidText) : Prop := u.uuid.spelled = u
  deriving Decidable

structure LineData.Respells (l l' : LineData) : Prop where
  accountId : l.accountId.Respells l'.accountId
  amountMinor : l.amountMinor = l'.amountMinor

structure EntryData.Respells (data data' : EntryData) : Prop where
  description : data.description = data'.description
  occurredAt : data.occurredAt = data'.occurredAt
  lines : List.Forall₂ LineData.Respells data.lines data'.lines

/-- What Postgres reads of a line. -/
def LineData.booked (l : LineData) : Uuid × Int := (l.accountId.uuid, l.amountMinor)

theorem booked_eq {lines lines' : List LineData} (h : List.Forall₂ LineData.Respells lines lines') :
    lines.map LineData.booked = lines'.map LineData.booked := by
  induction h with
  | nil => rfl
  | cons hl _ ih => rw [List.map_cons, List.map_cons, ih, LineData.booked, LineData.booked, hl.accountId.uuid, hl.amountMinor]

theorem amounts_eq {data data' : EntryData} (h : data.Respells data') :
    data.lines.map (·.amountMinor) = data'.lines.map (·.amountMinor) := by
  have hsnd := congrArg (List.map Prod.snd) (booked_eq h.lines)
  rw [List.map_map, List.map_map] at hsnd
  exact hsnd

/-! ## The count of the accounts -/

/-- No account is spelled in two ways. -/
def Uniform (lines : List LineData) : Prop :=
  ∀ l ∈ lines, ∀ m ∈ lines, l.accountId.uuid = m.accountId.uuid → l.accountId = m.accountId

/-- Every line is on an account of the tenant. -/
def AllFound (db : Db) (tenantId : Uuid) (lines : List LineData) : Prop :=
  ∀ l ∈ lines, ∃ a ∈ db.accounts, a.id = l.accountId.uuid ∧ a.tenantId = tenantId

def distinctIds (lines : List LineData) : List UuidText := (lines.map (·.accountId)).dedup

/-- The rows of `tenantAccounts`. -/
def namedAccounts (db : Db) (tenantId : Uuid) (lines : List LineData) : List Account :=
  db.accounts.filter fun a => a.tenantId = tenantId && (distinctIds lines).any fun id => id.uuid = a.id

theorem mem_distinctIds {lines : List LineData} {id : UuidText} : id ∈ distinctIds lines ↔ ∃ l ∈ lines, l.accountId = id := by
  rw [distinctIds, List.mem_dedup, List.mem_map]

/-- **As many accounts as spellings**: all accounts are found, and none is spelled in two ways. -/
theorem count_accounts_iff {db : Db} (hids : (db.accounts.map (·.id)).Nodup) (tenantId : Uuid) (lines : List LineData) :
    (namedAccounts db tenantId lines).length = (distinctIds lines).length ↔
      AllFound db tenantId lines ∧ Uniform lines := by
  have hrows : ((namedAccounts db tenantId lines).map (·.id)).Nodup := hids.sublist (List.filter_sublist.map _)
  have hmem : ∀ l ∈ lines, l.accountId ∈ distinctIds lines := fun l hl => mem_distinctIds.mpr ⟨l, hl, rfl⟩
  constructor
  · intro hcount
    have hsub : (namedAccounts db tenantId lines).map (·.id) ⊆ (distinctIds lines).map (·.uuid) := by
      intro u hu
      obtain ⟨a, ha, rfl⟩ := List.mem_map.mp hu
      rw [namedAccounts, List.mem_filter, Bool.and_eq_true, List.any_eq_true] at ha
      obtain ⟨-, -, id, hid, heq⟩ := ha
      exact of_decide_eq_true heq ▸ List.mem_map_of_mem hid
    have hperm : ((namedAccounts db tenantId lines).map (·.id)).Perm ((distinctIds lines).map (·.uuid)) :=
      (hrows.subperm hsub).perm_of_length_le (by rw [List.length_map, List.length_map, hcount])
    refine ⟨fun l hl => ?_, fun l hl m hm heq => ?_⟩
    · obtain ⟨a, ha, hid⟩ := List.mem_map.mp (hperm.mem_iff.mpr (List.mem_map_of_mem (f := (·.uuid)) (hmem l hl)))
      rw [namedAccounts, List.mem_filter, Bool.and_eq_true] at ha
      exact ⟨a, ha.1, hid, of_decide_eq_true ha.2.1⟩
    · exact List.inj_on_of_nodup_map (hperm.nodup_iff.mp hrows) (hmem l hl) (hmem m hm) heq
  · rintro ⟨hfound, huniform⟩
    have hnodup : ((distinctIds lines).map (·.uuid)).Nodup := by
      refine (List.nodup_dedup _).map_on fun x hx y hy heq => ?_
      obtain ⟨l, hl, rfl⟩ := mem_distinctIds.mp hx
      obtain ⟨m, hm, rfl⟩ := mem_distinctIds.mp hy
      exact huniform l hl m hm heq
    have hperm := accounts_perm hids tenantId hnodup fun t ht => by
      obtain ⟨l, hl, rfl⟩ := mem_distinctIds.mp ht
      exact hfound l hl
    rw [← List.length_map (f := UuidText.uuid), ← hperm.length_eq, List.length_map]
    rfl

/-! ## What does not depend on the spelling -/

theorem namedAccounts_booked {db db' : Db} (haccounts : db.accounts = db'.accounts) (tenantId : Uuid)
    {lines lines' : List LineData} (h : lines.map LineData.booked = lines'.map LineData.booked) :
    namedAccounts db tenantId lines = namedAccounts db' tenantId lines' := by
  have hany : ∀ (ls : List LineData) (a : Account), ((distinctIds ls).any fun id => id.uuid = a.id) =
      (ls.map LineData.booked).any fun x => x.1 = a.id := by
    intro ls a
    rw [Bool.eq_iff_iff, List.any_eq_true, List.any_eq_true]
    constructor
    · rintro ⟨id, hid, heq⟩
      obtain ⟨l, hl, rfl⟩ := mem_distinctIds.mp hid
      exact ⟨l.booked, List.mem_map_of_mem hl, heq⟩
    · rintro ⟨x, hx, heq⟩
      obtain ⟨l, hl, rfl⟩ := List.mem_map.mp hx
      exact ⟨l.accountId, mem_distinctIds.mpr ⟨l, hl, rfl⟩, heq⟩
  rw [namedAccounts, namedAccounts, haccounts]
  refine List.filter_congr fun a _ => ?_
  rw [hany, hany, h]

theorem insertLines_booked {db db' : Db} (hdb : db.lines = db'.lines) {lines lines' : List LineData}
    (h : lines.map LineData.booked = lines'.map LineData.booked) {entryId entryId' : Uuid} (hid : entryId = entryId')
    (tenantId : Uuid) (ctx : Context Choice) :
    Sql.insertLines (lines.map fun l => ⟨entryId, tenantId, l.accountId, l.amountMinor⟩) ctx db =
      Sql.insertLines (lines'.map fun l => ⟨entryId', tenantId, l.accountId, l.amountMinor⟩) ctx db' := by
  have hrows : ∀ ls : List LineData,
      ((ls.map fun l => Sql.LineValues.mk entryId tenantId l.accountId l.amountMinor).zipIdx.map fun v =>
        (⟨ctx.choice.fresh v.2, v.1.entryId, v.1.accountId.uuid, v.1.tenantId, v.1.amountMinor, ctx.now⟩ : EntryLine)) =
      (ls.map LineData.booked).zipIdx.map fun x => ⟨ctx.choice.fresh x.2, entryId, x.1.1, tenantId, x.1.2, ctx.now⟩ := by
    intro ls
    rw [List.zipIdx_map, List.zipIdx_map, List.map_map, List.map_map]
    rfl
  subst hid
  unfold Sql.insertLines
  rw [hdb, hrows lines, hrows lines', h]

theorem allFound_booked {db : Db} {tenantId : Uuid} {lines lines' : List LineData}
    (h : lines.map LineData.booked = lines'.map LineData.booked) (hfound : AllFound db tenantId lines) :
    AllFound db tenantId lines' := by
  intro l hl
  have hmem := List.mem_map_of_mem (f := LineData.booked) hl
  rw [← h] at hmem
  obtain ⟨m, hm, heq⟩ := List.mem_map.mp hmem
  obtain ⟨a, ha, hid, htenant⟩ := hfound m hm
  exact ⟨a, ha, hid.trans (congrArg Prod.fst heq), htenant⟩

/-! ## postLines -/

variable {tenantId : Uuid} {lines lines' : List LineData} {e e' : JournalEntry} {db : Db} {log log' : List Write} {now : Nat}
  {choices : Nat → Choice}

/-- The same entry, but for the key. -/
structure EntryResult.Same (result result' : EntryResult) : Prop where
  entry : result.entry.unkeyed = result'.entry.unkeyed
  lines : result.lines = result'.lines
  replayed : result.replayed = result'.replayed

/-- `postLines`, after the count of the accounts. -/
def bookLines (tenantId : Uuid) (lines : List LineData) (entry : JournalEntry) (tenantAccounts : List Account) :
    Tx EntryResult :=
  if 1 < (tenantAccounts.map (·.currency)).dedup.length then .throw (.app mixedCurrencies)
  else do
    let insertedLines ← Program.statement
      (Sql.insertLines (lines.map fun l => ⟨entry.id, tenantId, l.accountId, l.amountMinor⟩))
    return ⟨entry, insertedLines, false⟩

theorem postLines_eq (tenantId : Uuid) (lines : List LineData) (e : JournalEntry) :
    postLines tenantId lines e = Program.statement (Sql.selectAccounts tenantId (distinctIds lines)) >>= fun rows =>
      if rows.length ≠ (distinctIds lines).length then .throw (.app invalidAccount)
      else bookLines tenantId lines e rows := rfl

theorem postLines_found (hids : ((engine.view log db).accounts.map (·.id)).Nodup)
    (hfound : AllFound (engine.view log db) tenantId lines) (huniform : Uniform lines) :
    (postLines tenantId lines e).alone engine now db log choices =
      (bookLines tenantId lines e (shuffle (choices 0).order (namedAccounts (engine.view log db) tenantId lines))).alone
        engine now db log fun n => choices (n + 1) := by
  have hcount := (count_accounts_iff hids tenantId lines).mpr ⟨hfound, huniform⟩
  rw [postLines_eq, Program.alone_statement (r := shuffle (choices 0).order (namedAccounts (engine.view log db) tenantId lines))
    rfl, (shuffle_perm _ _).length_eq, if_neg (not_not.mpr hcount), List.append_nil]

theorem postLines_refused (hids : ((engine.view log db).accounts.map (·.id)).Nodup)
    (hrefused : ¬ (AllFound (engine.view log db) tenantId lines ∧ Uniform lines)) :
    (postLines tenantId lines e).alone engine now db log choices =
      (.error (.app invalidAccount), log, fun n => choices (n + 1)) := by
  have hcount := mt (count_accounts_iff hids tenantId lines).mp hrefused
  rw [postLines_eq, Program.alone_statement (r := shuffle (choices 0).order (namedAccounts (engine.view log db) tenantId lines))
    rfl, (shuffle_perm _ _).length_eq, if_pos hcount, List.append_nil]
  rfl

theorem bookLines_alike (hlog : log.map Write.unkeyed = log'.map Write.unkeyed) (he : e.unkeyed = e'.unkeyed)
    (h : lines.map LineData.booked = lines'.map LineData.booked) (rows : List Account) :
    Alike Write.unkeyed EntryResult.Same ((bookLines tenantId lines e rows).alone engine now db log choices)
      ((bookLines tenantId lines' e' rows).alone engine now db log' choices) := by
  unfold bookLines
  split
  · exact Alike.error _ _ _ _ _
  · have hviews : (engine.view log db).unkeyed = (engine.view log' db).unkeyed := forgets_unkeyed.view hlog rfl
    have hlines : (engine.view log db).unkeyed.lines = (engine.view log' db).unkeyed.lines := by rw [hviews]
    have hid := JournalEntry.id_of_unkeyed he
    change (engine.view log db).lines = (engine.view log' db).lines at hlines
    refine Alike.call hlog (Q := Eq) ?_ ?_
    · rw [insertLines_booked hlines h hid tenantId]
      exact .refl _ _
    · rintro rows _ l l' rfl hl
      exact Alike.ret ⟨he, rfl, rfl⟩ hl

/-- Lines in two spellings that are both in one way, or both not. -/
theorem postLines_alike (hids : ((engine.view log db).accounts.map (·.id)).Nodup)
    (hlog : log.map Write.unkeyed = log'.map Write.unkeyed) (he : e.unkeyed = e'.unkeyed)
    (h : lines.map LineData.booked = lines'.map LineData.booked)
    (hspelled : AllFound (engine.view log db) tenantId lines → (Uniform lines ↔ Uniform lines')) :
    Alike Write.unkeyed EntryResult.Same ((postLines tenantId lines e).alone engine now db log choices)
      ((postLines tenantId lines' e').alone engine now db log' choices) := by
  have hviews : (engine.view log db).unkeyed = (engine.view log' db).unkeyed := forgets_unkeyed.view hlog rfl
  have haccounts : (engine.view log db).unkeyed.accounts = (engine.view log' db).unkeyed.accounts := by rw [hviews]
  change (engine.view log db).accounts = (engine.view log' db).accounts at haccounts
  have hfound' : AllFound (engine.view log db) tenantId lines ↔ AllFound (engine.view log' db) tenantId lines' := by
    have hsame : ∀ ls, AllFound (engine.view log db) tenantId ls ↔ AllFound (engine.view log' db) tenantId ls := fun ls => by
      rw [AllFound, AllFound, haccounts]
    exact (hsame lines).trans ⟨allFound_booked h, allFound_booked h.symm⟩
  by_cases hpass : AllFound (engine.view log db) tenantId lines ∧ Uniform lines
  · rw [postLines_found hids hpass.1 hpass.2, postLines_found (haccounts ▸ hids) (hfound'.mp hpass.1)
      ((hspelled hpass.1).mp hpass.2), namedAccounts_booked haccounts tenantId h]
    exact bookLines_alike hlog he h _
  · have hrefused' : ¬ (AllFound (engine.view log' db) tenantId lines' ∧ Uniform lines') := by
      rintro ⟨hfound, huniform⟩
      have hfound := hfound'.mpr hfound
      exact hpass ⟨hfound, (hspelled hfound).mpr huniform⟩
    rw [postLines_refused hids hpass, postLines_refused (haccounts ▸ hids) hrefused']
    exact Alike.error _ _ _ _ _

/-! ## createJournalEntryTx -/

/-- No entry has the key. -/
def EntryKeyUnused (db : Db) (tenantId : Uuid) (key : Text) : Prop :=
  ∀ e ∈ db.entries, ¬ (e.tenantId = tenantId ∧ e.idempotencyKey = key)

/-- Posting reaches the count of the accounts, all of them are there, and one spelling has some account in two ways. -/
structure EntrySplits (db : Db) (tenantId : Uuid) (data data' : EntryData) (choice : Choice) : Prop where
  balanced : (data.lines.map (·.amountMinor)).sum = 0
  fits : data.fits = true
  freshId : ∀ e ∈ db.entries, e.id ≠ choice.fresh 0
  found : AllFound db tenantId data.lines
  spelled : ¬ (Uniform data.lines ↔ Uniform data'.lines)

/-- Two inserts that differ in their keys, which are free: both fail in the same way, or both are done. -/
theorem insertEntry_unkeyed {tenantId : Uuid} (description : Text) (occurredAt : Date) {key key' : Text}
    (print print' : Text) {db db' : Db} (hentries : db.entries = db'.entries) (hkey : EntryKeyUnused db tenantId key)
    (hkey' : EntryKeyUnused db tenantId key') (ctx : Context Choice) :
    (∃ f, Sql.insertEntry ⟨tenantId, description, occurredAt, key, print⟩ ctx db = .error f ∧
      Sql.insertEntry ⟨tenantId, description, occurredAt, key', print'⟩ ctx db' = .error f) ∨
    ∃ e e' ls ls', Sql.insertEntry ⟨tenantId, description, occurredAt, key, print⟩ ctx db = .done (some e) [.entry e] ls [] ∧
      Sql.insertEntry ⟨tenantId, description, occurredAt, key', print'⟩ ctx db' = .done (some e') [.entry e'] ls' [] ∧
      e.unkeyed = e'.unkeyed ∧ (nulFree description && occurredAt.storable) = true ∧
      ∀ x ∈ db.entries, x.id ≠ ctx.choice.fresh 0 := by
  have hnone : ∀ {k : Text}, EntryKeyUnused db tenantId k →
      ¬ (db.entries.any fun e => e.tenantId = tenantId && e.idempotencyKey = k) = true := by
    intro k hk hany
    obtain ⟨e, he, heq⟩ := List.any_eq_true.mp hany
    rw [Bool.and_eq_true, decide_eq_true_iff, decide_eq_true_iff] at heq
    exact hk e he heq
  unfold Sql.insertEntry
  dsimp only
  rw [← hentries, if_neg (hnone hkey), if_neg (hnone hkey')]
  unfold Sql.checked Sql.checkedBy
  cases hvalues : Sql.firstFailure [(nulFree description, .characterNotInRepertoire), (occurredAt.storable, .datetime)] with
  | some state => exact Or.inl ⟨_, rfl, rfl⟩
  | none =>
      cases hid : Sql.firstFailure [((db.entries.all fun e => e.id ≠ ctx.choice.fresh 0 : Bool), SqlState.uniqueViolation)] with
      | some state => exact Or.inl ⟨_, rfl, rfl⟩
      | none =>
          have hfits := Sql.firstFailure_none hvalues
          have hfresh := Sql.firstFailure_none hid
          refine Or.inr ⟨_, _, _, _, rfl, rfl, rfl, ?_, ?_⟩
          · simpa using hfits
          · simpa using hfresh

/-- Where the two do not split, they end alike. -/
theorem post_alike (hids : (db.accounts.map (·.id)).Nodup) {key key' : Text} {data data' : EntryData}
    (h : data.Respells data') (hlog : log.map Write.unkeyed = log'.map Write.unkeyed)
    (haccounts : (engine.view log db).accounts = db.accounts) (hentries : (engine.view log db).entries = db.entries)
    (hentries' : (engine.view log' db).entries = db.entries) (hkey : EntryKeyUnused db tenantId key)
    (hkey' : EntryKeyUnused db tenantId key') (hsplit : ¬ EntrySplits db tenantId data data' (choices 0)) :
    Alike Write.unkeyed EntryResult.Same
      ((createJournalEntryTx sha256 tenantId key data).alone engine now db log choices)
      ((createJournalEntryTx sha256 tenantId key' data').alone engine now db log' choices) := by
  have hbooked := booked_eq h.lines
  unfold createJournalEntryTx
  rw [← amounts_eq h]
  split
  · exact Alike.error _ _ _ _ _
  · next hsum =>
    dsimp only
    rw [← h.description, ← h.occurredAt]
    rcases insertEntry_unkeyed data.description data.occurredAt (fingerprint sha256 data.toJs)
      (fingerprint sha256 data'.toJs) (hentries.trans hentries'.symm)
      (show EntryKeyUnused (engine.view log db) tenantId key by rw [EntryKeyUnused, hentries]; exact hkey)
      (show EntryKeyUnused (engine.view log db) tenantId key' by rw [EntryKeyUnused, hentries]; exact hkey') ⟨now, choices 0⟩ with
      ⟨f, hf, hf'⟩ | ⟨e, e', ls, ls', he, he', hunkeyed, hfits, hfresh⟩
    · rw [Program.statement_bind, Program.statement_bind, Program.alone, Program.alone, hf, hf']
      exact Alike.error _ _ _ _ _
    · rw [Program.alone_statement he, Program.alone_statement he']
      have hview : (engine.view (log ++ [.entry e]) db).accounts = db.accounts := by
        rw [Engine.view_append]
        exact haccounts
      refine postLines_alike (hview ▸ hids) ?_ hunkeyed hbooked fun hfound => ?_
      · rw [List.map_append, List.map_append, hlog, List.map_singleton, List.map_singleton, Write.unkeyed, Write.unkeyed,
          hunkeyed]
      · by_contra hspelled
        refine hsplit ⟨not_not.mp hsum, hfits, ?_, ?_, hspelled⟩
        · rw [← hentries]
          exact hfresh
        · rw [AllFound, hview] at hfound
          exact hfound

theorem bookLines_fails (tenantId : Uuid) (lines : List LineData) (e : JournalEntry) (rows : List Account)
    {P : Failure → Prop} (hsql : ∀ state, P (.sql state)) (hmixed : P (.app mixedCurrencies)) :
    (bookLines tenantId lines e rows).Fails P := by
  unfold bookLines
  split
  · exact hmixed
  · exact fails_statement (onlySql_insertLines _) hsql fun _ => trivial

/-- Posting reaches the count of the accounts. -/
theorem post_reaches (sha256 : Text → Text) (now : Nat) {key : Text} {data : EntryData}
    (hentries : (engine.view log db).entries = db.entries) (hbalanced : (data.lines.map (·.amountMinor)).sum = 0)
    (hfits : data.fits = true) (hkey : EntryKeyUnused db tenantId key) (hfresh : ∀ e ∈ db.entries, e.id ≠ (choices 0).fresh 0) :
    ∃ e, (createJournalEntryTx sha256 tenantId key data).alone engine now db log choices =
      (postLines tenantId data.lines e).alone engine now db (log ++ [.entry e]) fun n => choices (n + 1) := by
  have hvalues : (Sql.EntryValues.mk tenantId data.description data.occurredAt key (fingerprint sha256 data.toJs)).fits =
      true := hfits
  obtain ⟨e, ls, hentry, -⟩ := insertEntry_free hvalues (hentries.symm ▸ hkey) ⟨now, choices 0⟩
    (hentries.symm ▸ hfresh)
  refine ⟨e, ?_⟩
  unfold createJournalEntryTx
  rw [if_neg (not_not.mpr hbalanced)]
  dsimp only
  rw [Program.alone_statement hentry]

theorem classify_sql_ne_invalidAccount (state : SqlState) : (classify (.sql state)).code ≠ invalidAccount.code := by
  cases state <;> decide

/-- Where every account is spelled in one way, the count does not refuse the entry. -/
theorem post_uniform (hids : (db.accounts.map (·.id)).Nodup) {key : Text} {data data' : EntryData}
    (haccounts : (engine.view log db).accounts = db.accounts) (hentries : (engine.view log db).entries = db.entries)
    (hkey : EntryKeyUnused db tenantId key) (hsplit : EntrySplits db tenantId data data' (choices 0)) (huniform : Uniform data.lines)
    {f : Failure} (hf : ((createJournalEntryTx sha256 tenantId key data).alone engine now db log choices).1 = .error f) :
    (classify f).code ≠ invalidAccount.code := by
  obtain ⟨e, he⟩ := post_reaches sha256 now hentries hsplit.balanced hsplit.fits hkey hsplit.freshId
  have hview : (engine.view (log ++ [.entry e]) db).accounts = db.accounts := by
    rw [Engine.view_append]
    exact haccounts
  have hfound : AllFound (engine.view (log ++ [.entry e]) db) tenantId data.lines := by
    rw [AllFound, hview]
    exact hsplit.found
  rw [he, postLines_found (hview ▸ hids) hfound huniform] at hf
  exact (bookLines_fails tenantId data.lines e _ (P := fun f => (classify f).code ≠ invalidAccount.code)
    classify_sql_ne_invalidAccount (by decide)).alone hf

/-- Where an account is spelled in two ways, it does. -/
theorem post_mixed (sha256 : Text → Text) (now : Nat) (hids : (db.accounts.map (·.id)).Nodup) {key : Text} {data data' : EntryData}
    (haccounts : (engine.view log db).accounts = db.accounts) (hentries : (engine.view log db).entries = db.entries)
    (hkey : EntryKeyUnused db tenantId key) (hsplit : EntrySplits db tenantId data data' (choices 0))
    (hmixed : ¬ Uniform data.lines) :
    ((createJournalEntryTx sha256 tenantId key data).alone engine now db log choices).1 = .error (.app invalidAccount) := by
  obtain ⟨e, he⟩ := post_reaches sha256 now hentries hsplit.balanced hsplit.fits hkey hsplit.freshId
  have hview : (engine.view (log ++ [.entry e]) db).accounts = db.accounts := by
    rw [Engine.view_append]
    exact haccounts
  rw [he, postLines_refused (hview ▸ hids) fun h => hmixed h.2]

theorem EntryData.Respells.symm {data data' : EntryData} (h : data.Respells data') : data'.Respells data where
  description := h.description.symm
  occurredAt := h.occurredAt.symm
  lines := h.lines.flip.imp fun _ _ hl => ⟨hl.accountId.symm, hl.amountMinor.symm⟩

theorem EntrySplits.symm {data data' : EntryData} {choice : Choice} (h : data.Respells data')
    (hsplit : EntrySplits db tenantId data data' choice) : EntrySplits db tenantId data' data choice where
  balanced := amounts_eq h ▸ hsplit.balanced
  fits := by
    rw [EntryData.fits, ← h.description, ← h.occurredAt]
    exact hsplit.fits
  freshId := hsplit.freshId
  found := allFound_booked (booked_eq h.lines) hsplit.found
  spelled := fun hspelled => hsplit.spelled hspelled.symm

/-! ## createJournalEntry -/

/-- **Two spellings of an entry end alike** exactly where they do not split. -/
theorem entry_sameOutcome_iff (hids : (db.accounts.map (·.id)).Nodup) {key key' : IdempotencyKey} {data data' : EntryData}
    (h : data.Respells data') (hkey : EntryKeyUnused db tenantId key.text) (hkey' : EntryKeyUnused db tenantId key'.text) :
    SameOutcome (outcome (createJournalEntry sha256 tenantId key data) now db choices)
        (outcome (createJournalEntry sha256 tenantId key' data') now db choices) ↔
      ¬ EntrySplits db tenantId data data' (choices 0) := by
  -- one of the two spellings is refused by the count, the other is not
  have hdiffer : ∀ {key key' : IdempotencyKey} {data data' : EntryData}, EntryKeyUnused db tenantId key.text →
      EntryKeyUnused db tenantId key'.text → EntrySplits db tenantId data data' (choices 0) →
      EntrySplits db tenantId data' data (choices 0) → ¬ Uniform data.lines → Uniform data'.lines →
      ¬ SameOutcome (outcome (createJournalEntry sha256 tenantId key data) now db choices)
        (outcome (createJournalEntry sha256 tenantId key' data') now db choices) := by
    intro key key' data data' hkey hkey' hsplit hsplit' hmixed huniform
    exact not_sameOutcome (post_mixed sha256 now hids rfl rfl hkey hsplit hmixed) (by decide) fun f hf =>
      post_uniform hids rfl rfl hkey' hsplit' huniform hf
  constructor
  · intro hsame hsplit
    by_cases huniform : Uniform data.lines
    · have hmixed : ¬ Uniform data'.lines := fun h => hsplit.spelled (iff_of_true huniform h)
      exact hdiffer hkey' hkey (hsplit.symm h) hsplit hmixed huniform hsame.symm
    · have huniform' : Uniform data'.lines := by
        by_contra h
        exact hsplit.spelled (iff_of_false huniform h)
      exact hdiffer hkey hkey' hsplit (hsplit.symm h) huniform huniform' hsame
  · intro hsplit
    exact Alike.sameOutcome (post_alike hids h rfl rfl rfl rfl hkey hkey' hsplit)

end FinSight
