import FinSight.Serial.Fingerprints
import FinSight.Serial.Rules
import Mathlib.Data.List.Perm.Subperm

/-!
# What the service functions give

Each program, statement by statement, against the commit database `fin`: it ends with the writes of a commit, or
with an error that says what was wrong with the request at `fin`.
-/

namespace FinSight

open ReadCommitted Sql

variable {sha256 : Text → Text} {now : Nat} {fin prev : Db} {F : Failure → List Write → List Lock → Prop}
  {log : List Write} {locks : List Lock}

/-! ## Journal entries -/

/-- Description and date fit their columns. -/
def EntryData.fits (data : EntryData) : Bool := nulFree data.description && data.occurredAt.storable

/-- Not a plain `Error`, which is answered with 500. -/
def Failure.Handled : Failure → Prop
  | .error _ => False
  | _ => True

/-- Why `createJournalEntryTx` gives up: where its entry collides the key was free at `origin`, and a call that had
inserted its entry holds the key, which is free. -/
inductive EntryFailed (sha256 : Text → Text) (origin db : Db) (tenantId : Uuid) (key : Text) (data : EntryData)
    (locks : List Lock) : Failure → Prop
  | badValues (s : SqlState) : data.fits = false → EntryFailed sha256 origin db tenantId key data locks (.sql s)
  | collision : (∀ x ∈ origin.entries, ¬ (x.tenantId = tenantId ∧ x.idempotencyKey = key)) →
      EntryFailed sha256 origin db tenantId key data locks (.sql .uniqueViolation)
  | unbalanced : (data.lines.map (·.amountMinor)).sum ≠ 0 →
      EntryFailed sha256 origin db tenantId key data locks (.app journalEntryUnbalanced)
  | reused {e : JournalEntry} : (data.lines.map (·.amountMinor)).sum = 0 → e ∈ db.entries → e.tenantId = tenantId →
      e.idempotencyKey = key → e.requestFingerprint ≠ fingerprint sha256 data.toJs →
      EntryFailed sha256 origin db tenantId key data locks (.app idempotencyKeyReused)
  | rejected {e : Failure} : Lock.entryKey tenantId key ∈ locks →
      (∀ x ∈ db.entries, ¬ (x.tenantId = tenantId ∧ x.idempotencyKey = key)) → e.Handled →
      EntryFailed sha256 origin db tenantId key data locks e

theorem EntryFailed.handled {origin db : Db} {tenantId : Uuid} {key : Text} {data : EntryData} {e : Failure}
    (h : EntryFailed sha256 origin db tenantId key data locks e) : e.Handled := by
  cases h with
  | rejected _ _ hhandled => exact hhandled
  | _ => trivial

theorem find?_isSome_of_mem {γ : Type} {rows : List γ} {p : γ → Bool} {x : γ} (hx : x ∈ rows) (hp : p x = true) :
    ∃ y, rows.find? p = some y ∧ y ∈ rows ∧ p y = true := by
  cases hf : rows.find? p with
  | none => exact absurd hp (List.find?_eq_none.mp hf x hx)
  | some y => exact ⟨y, rfl, List.mem_of_find?_eq_some hf, List.find?_some hf⟩

theorem spec_replayEntry {A : Tx EntryResult → Db → Prop} {Q : EntryResult → Db → List Write → List Lock → Prop}
    {tenantId : Uuid} {key print : Text} {e : JournalEntry} (hlog : LedgerFree log) (he : e ∈ prev.entries)
    (ht : e.tenantId = tenantId) (hk : e.idempotencyKey = key)
    (hreused : ∀ x ∈ fin.entries, x.tenantId = tenantId → x.idempotencyKey = key → x.requestFingerprint ≠ print →
      F (.app idempotencyKeyReused) log locks)
    (hQ : ∀ x ls db, Rely locks prev db → x ∈ fin.entries → x.tenantId = tenantId → x.idempotencyKey = key →
      x.requestFingerprint = print → ls.Perm (entryLines fin x.id) → Q ⟨x, ls, true⟩ db log locks) :
    Spec now fin A Q F (replayEntry tenantId key print) prev log locks := by
  refine Spec.read (fun _ _ => rfl) fun db _ h₁ h₂ _ => ?_
  rw [(hlog db).2.1]
  obtain ⟨x, hfind, hx, hmatch⟩ := find?_isSome_of_mem (p := fun y => y.tenantId = tenantId && y.idempotencyKey = key)
    (h₁.grow.entries he) (by simp [ht, hk])
  rw [hfind]
  rw [Bool.and_eq_true, decide_eq_true_iff, decide_eq_true_iff] at hmatch
  dsimp only
  split
  · next hprint => exact hreused x (h₂.grow.entries hx) hmatch.1 hmatch.2 hprint
  · next hprint =>
    refine Spec.read (fun _ _ => rfl) fun db' c h₁' h₂' _ => ?_
    refine hQ x _ db' (h₁.trans h₁') (h₂.grow.entries hx) hmatch.1 hmatch.2 (not_not.mp hprint) ?_
    rw [(hlog db').2.2]
    refine (shuffle_perm _ _).trans (List.Perm.of_eq ?_)
    exact (h₂'.grow.entryLines (h₁'.grow.entries hx)).symm

/-- As many rows as distinct ids: every id has its row. -/
theorem account_of_count {rows : List Account} {ids : List UuidText} (hrows : (rows.map (·.id)).Nodup)
    (hsub : ∀ a ∈ rows, ∃ t ∈ ids, t.uuid = a.id) (hlen : rows.length = ids.length) {t : UuidText} (ht : t ∈ ids) :
    ∃ a ∈ rows, a.id = t.uuid := by
  have hsubset : rows.map (·.id) ⊆ ids.map (·.uuid) := by
    intro u hu
    obtain ⟨a, ha, rfl⟩ := List.mem_map.mp hu
    obtain ⟨s, hs, heq⟩ := hsub a ha
    exact heq ▸ List.mem_map_of_mem hs
  have hperm : (rows.map (·.id)).Perm (ids.map (·.uuid)) :=
    (List.subperm_of_subset hrows hsubset).perm_of_length_le (by simp [hlen])
  have hmem : t.uuid ∈ rows.map (·.id) := hperm.mem_iff.mpr (List.mem_map_of_mem ht)
  obtain ⟨a, ha, heq⟩ := List.mem_map.mp hmem
  exact ⟨a, ha, heq⟩

theorem eq_of_dedup_length {γ : Type} [DecidableEq γ] {rows : List γ} (h : ¬ 1 < rows.dedup.length) {x y : γ}
    (hx : x ∈ rows) (hy : y ∈ rows) : x = y := by
  have hx' := List.mem_dedup.mpr hx
  have hy' := List.mem_dedup.mpr hy
  match hd : rows.dedup, hx', hy' with
  | [z], hx', hy' => rw [List.mem_singleton.mp hx', List.mem_singleton.mp hy']
  | _ :: _ :: _, _, _ => simp [hd] at h

/-- The account checks of `postLines`. -/
theorem oneCurrency_of_checks {accounts : List Account} {tenantId : Uuid} {lines : List LineData} {order : List Nat}
    (hids : (accounts.map (·.id)).Nodup) {rows : List Account}
    (hrows : rows = shuffle order (accounts.filter fun a =>
      a.tenantId = tenantId && (lines.map (·.accountId)).dedup.any fun id => id.uuid = a.id))
    (hlen : rows.length = (lines.map (·.accountId)).dedup.length)
    (hcur : ¬ 1 < (rows.map (·.currency)).dedup.length) : OneCurrency accounts tenantId lines := by
  have hmem : ∀ a, a ∈ rows ↔ a ∈ accounts ∧ a.tenantId = tenantId ∧
      ∃ t ∈ (lines.map (·.accountId)).dedup, t.uuid = a.id := by
    intro a
    rw [hrows, mem_shuffle, List.mem_filter]
    simp
  have hnodup : (rows.map (·.id)).Nodup := by
    rw [hrows]
    exact (((shuffle_perm _ _).map _).nodup_iff).mpr (hids.sublist (List.filter_sublist.map _))
  have hrow : ∀ d ∈ lines, ∃ a ∈ rows, a.id = d.accountId.uuid := fun d hd =>
    account_of_count hnodup (fun a ha => ((hmem a).mp ha).2.2) hlen (List.mem_dedup.mpr (List.mem_map_of_mem hd))
  cases lines with
  | nil => exact ⟨[], fun d hd => absurd hd List.not_mem_nil⟩
  | cons d₀ ds =>
      obtain ⟨a₀, ha₀, -⟩ := hrow d₀ List.mem_cons_self
      refine ⟨a₀.currency, fun d hd => ?_⟩
      obtain ⟨a, ha, hid⟩ := hrow d hd
      exact ⟨a, ((hmem a).mp ha).1, hid, ((hmem a).mp ha).2.1,
        eq_of_dedup_length hcur (List.mem_map_of_mem ha) (List.mem_map_of_mem ha₀)⟩

theorem spec_postLines {A : Tx EntryResult → Db → Prop} {Q : EntryResult → Db → List Write → List Lock → Prop}
    {tenantId : Uuid} {lines : List LineData} {e : JournalEntry} (hA : ∀ p db, A p db → Consistent sha256 db)
    (hlog : ∀ db, (engine.view log db).accounts = db.accounts ∧ (engine.view log db).lines = db.lines)
    (hrejected : ∀ e : Failure, e.Handled → F e log locks)
    (hQ : ∀ ls db locks', locks ⊆ locks' → (∀ l ∈ ls, Lock.line l.id ∈ locks') → Rely locks prev db →
      OneCurrency fin.accounts tenantId lines →
      ls.map EntryLine.posting = lines.map (fun d => (e.id, tenantId, d.accountId.uuid, d.amountMinor)) →
      (ls.map (·.id)).Nodup ∧ (∀ l ∈ ls, ∀ x ∈ fin.lines, x.id ≠ l.id) →
      Q ⟨e, ls, false⟩ db (log ++ ls.map .line) locks') :
    Spec now fin A Q F (postLines tenantId lines e) prev log locks := by
  refine Spec.read (fun _ _ => rfl) fun db c h₁ h₂ ha => ?_
  rw [(hlog db).1]
  split
  · exact hrejected _ trivial
  · next hlen =>
    split
    · exact hrejected _ trivial
    · next hcur =>
      have hone := (oneCurrency_of_checks (hA _ _ ha).ledger.accountIds rfl (not_not.mp hlen) hcur).mono
        h₂.grow.accounts
      refine Spec.insertLines (fun db => (hlog db).2) (fun _ => hrejected _ trivial) fun db' ls h₁' _ hls hids => ?_
      refine hQ ls db' _ (List.subset_append_left _ _) (fun l hl => List.mem_append_right _ (List.mem_map_of_mem hl))
        (h₁.trans h₁') hone ?_ hids
      rw [hls, List.map_map]
      rfl

theorem spec_createJournalEntryTx {A : Tx EntryResult → Db → Prop}
    {Q : EntryResult → Db → List Write → List Lock → Prop} {tenantId : Uuid} {key : Text} {data : EntryData}
    (hA : ∀ p db, A p db → Consistent sha256 db) (hlog : LedgerFree log)
    (hF : ∀ e log' locks', locks ⊆ locks' → EntryFailed sha256 prev fin tenantId key data locks' e → F e log' locks')
    (hQ : ∀ result es ls db locks', locks ⊆ locks' → Covered (posts es ls) locks' → Rely locks prev db →
      Booked sha256 fin tenantId key data result es ls → Q result db (log ++ posts es ls) locks') :
    Spec now fin A Q F (createJournalEntryTx sha256 tenantId key data) prev log locks := by
  unfold createJournalEntryTx
  split
  · next hsum => exact hF _ _ _ (List.Subset.refl _) (.unbalanced hsum)
  · next hsum =>
    rw [not_not] at hsum
    refine Spec.insertEntry hlog (fun hfits s => hF _ _ _ (List.Subset.refl _) (.badValues s hfits))
      (fun db h₁ hfree => hF _ _ _ (List.Subset.refl _) (.collision ?_)) ?_ ?_
    · exact fun x hx => hfree x (h₁.grow.entries hx)
    · intro db e h₁ h₂ he ht hk
      refine spec_replayEntry hlog he ht hk (fun x hx hxt hxk hprint => ?_) fun x ls db' h' hx hxt hxk hprint hperm => ?_
      · exact hF _ _ _ (List.Subset.refl _) (.reused hsum hx hxt hxk hprint)
      · have hq := hQ ⟨x, ls, true⟩ [] [] db' locks (List.Subset.refl _) (fun w hw => absurd hw List.not_mem_nil)
          (h₁.trans h') (.replayed hsum hx hxt hxk hprint hperm)
        rwa [show log ++ posts [] [] = log from List.append_nil log] at hq
    · intro db e h₁ hl ht hk ho hf hid hkey
      have hsub : locks ⊆ locks ++ [Lock.entry e.id, Lock.entryKey tenantId key] := List.subset_append_left _ _
      refine spec_postLines hA (fun db => ?_) (fun _ hhandled => hF _ _ _ hsub (.rejected (by simp) hkey hhandled)) ?_
      · rw [Engine.view_append]
        exact ⟨(hlog db).1, (hlog db).2.2⟩
      · intro ls db' locks' hlocks hlines h' hone hposting hids
        have hq := hQ ⟨e, ls, false⟩ [e] ls db' locks' (fun ℓ hℓ => hlocks (hsub hℓ)) ?_
          (h₁.trans (h'.weaken fun ℓ hℓ => hsub hℓ)) (.posted ⟨hsum, ht, hk, ho, hf, hid, hkey, ?_, hids, hone⟩)
        · rwa [show log ++ posts [e] ls = log ++ [Write.entry e] ++ ls.map .line by simp [posts]] at hq
        · intro w hw ℓ hℓ
          rcases List.mem_cons.mp hw with rfl | hw
          · refine hlocks (List.mem_append_right _ ?_)
            simpa [Write.needs, ht, hk] using hℓ
          · obtain ⟨l, hl', rfl⟩ := List.mem_map.mp hw
            rw [List.mem_singleton.mp hℓ]
            exact hlines l hl'
        · rw [hposting]
          refine List.map_congr_left fun d _ => ?_
          rw [LineData.posting, ht]

/-! ## Invoices -/

theorem spec_createInvoice {A : Tx Invoice → Db → Prop} {Q : Invoice → Db → List Write → List Lock → Prop}
    {r : InvoiceRequest} (hF : ∀ e log' locks', F e log' locks')
    (hQ : ∀ seq i items h db locks', Created fin now r seq i items h →
      Covered (.sequence seq :: .invoice i :: (items.map .item ++ [.history h])) locks' →
      Q i db (.sequence seq :: .invoice i :: (items.map .item ++ [.history h])) locks') :
    Spec now fin A Q F (createInvoice r) prev [] [] := by
  unfold createInvoice
  split
  · exact hF _ _ _
  · next hne =>
    refine Spec.nextSequence (fun _ => rfl) (fun _ => hF _ _ _) fun db₁ seq _ hseq => ?_
    refine Spec.insertInvoice (fun _ => rfl) (fun _ => hF _ _ _)
      fun db₂ i _ htenant hnumber hsequence hdraft hunissued htotal hrange hfresh => ?_
    refine Spec.insertItems (fun _ => hF _ _ _) fun db₃ items _ hitems hpositive hitemRange => ?_
    refine Spec.insertHistory (fun _ => hF _ _ _) fun db₄ h _ hrecords => ?_
    refine Spec.done (by simp) (hQ seq i items h db₄ _ ?_ ?_)
    · exact {
        sequence := hseq
        tenant := htenant
        sequenceNumber := hsequence
        number := hnumber
        draft := hdraft
        unissued := hunissued
        total := htotal
        totalRange := htotal ▸ hrange
        freshId := hfresh
        nonempty := hne
        positive := hpositive
        itemRange := hitemRange
        items := hitems
        history := hrecords.committed }
    · intro w hw ℓ hℓ
      simp only [List.mem_cons, List.mem_append, List.mem_map, List.not_mem_nil, or_false] at hw
      rcases hw with rfl | rfl | ⟨row, hrow, rfl⟩ | rfl
      · rw [Write.needs, List.mem_singleton, hseq.1] at hℓ
        simp [hℓ]
      · simp only [Write.needs, htenant, hnumber, hsequence, List.mem_cons, List.not_mem_nil, or_false] at hℓ
        rcases hℓ with hℓ | hℓ | hℓ <;> simp [hℓ]
      · rw [Write.needs, List.mem_singleton] at hℓ
        rw [hℓ]
        exact List.mem_append_left _ (List.mem_append_right _ (List.mem_map_of_mem hrow))
      · rw [Write.needs, List.mem_singleton] at hℓ
        simp [hℓ]

/-- What an account query answers holds at commit time. -/
theorem hasAccount_of_find {db : Db} {id : UuidText} {tenantId : Uuid} {a : Account} {type : Option AccountType}
    (h : db.accounts.find? (fun a => a.id = id.uuid && a.tenantId = tenantId) = some a)
    (hsub : db.accounts ⊆ fin.accounts) (htype : ∀ t ∈ type, a.type = t) :
    HasAccount fin id tenantId a.currency type := by
  have hmatch := List.find?_some h
  simp only [Bool.and_eq_true, decide_eq_true_iff] at hmatch
  exact ⟨a, hsub (List.mem_of_find?_eq_some h), hmatch.1, hmatch.2, rfl, htype⟩

theorem draft_of_issuable {s : InvoiceStatus} (h : ¬ canTransition s .issued = false) : s = .draft := by
  revert h
  cases s <;> decide

theorem covered_append {log log' : List Write} {ls : List Lock} (h : Covered log ls) (h' : Covered log' ls) :
    Covered (log ++ log') ls := by
  intro w hw
  rcases List.mem_append.mp hw with hw | hw
  · exact h w hw
  · exact h' w hw

theorem Covered.mono {log : List Write} {ls ls' : List Lock} (h : Covered log ls) (hsub : ls ⊆ ls') :
    Covered log ls' := fun w hw ℓ hℓ => hsub (h w hw ℓ hℓ)

theorem ledgerFree_nil : LedgerFree [] := fun _ => ⟨rfl, rfl, rfl⟩

theorem spec_issueInvoice {A : Tx (Option Invoice) → Db → Prop}
    {Q : Option Invoice → Db → List Write → List Lock → Prop} {r : IssueRequest}
    (hA : ∀ p db, A p db → Consistent sha256 db) (hF : ∀ e log' locks', F e log' locks')
    (hQ : ∀ i result es ls h db locks', Issued sha256 fin now r i result es ls h →
      Covered (posts es ls ++ [.updateInvoice i.id (issuedState r result), .history h]) locks' →
      Q (some (i.set (issuedState r result))) db
        (posts es ls ++ [.updateInvoice i.id (issuedState r result), .history h]) locks') :
    Spec now fin A Q F (issueInvoice sha256 r) prev [] [] := by
  refine Spec.selectInvoiceForUpdate (fun _ _ => hF _ _ _) (fun _ _ _ => hF _ _ _) fun db₁ i _ hl hnames => ?_
  dsimp only
  split
  · exact hF _ _ _
  · next hstatus =>
    have hdraft := draft_of_issuable hstatus
    refine Spec.read (fun _ _ => rfl) fun db₂ _ _ h₂ _ => ?_
    refine Spec.read (fun _ _ => rfl) fun db₃ _ _ h₃ _ => ?_
    rw [Engine.view_nil, Engine.view_nil]
    split
    · next receivable revenue hreceivable hrevenue =>
      split
      · exact hF _ _ _
      · next htypes =>
        split
        · exact hF _ _ _
        · next hcurrencies =>
          simp only [not_or, not_not] at htypes hcurrencies
          have hrec : HasAccount fin r.receivableAccountId r.tenantId i.currency (some .asset) :=
            hcurrencies.1 ▸ hasAccount_of_find hreceivable h₂.grow.accounts
              fun t ht => htypes.1.trans (Option.some.inj ht)
          have hrev : HasAccount fin r.revenueAccountId r.tenantId i.currency (some .revenue) :=
            hcurrencies.2 ▸ hasAccount_of_find hrevenue h₃.grow.accounts
              fun t ht => htypes.2.trans (Option.some.inj ht)
          refine Program.Meets.bind ?_
          refine spec_createJournalEntryTx (fun _ _ h => hA _ _ h) ledgerFree_nil (fun _ _ _ _ _ => hF _ _ _) ?_
          intro result es ls db₄ locks' hlocks hcovered _ hbooked
          refine Spec.updateInvoice (i := i) (fun _ _ h => (hA _ _ h).billing.invoiceIds) hnames
            (hlocks (by simp)) (fun db => by rw [List.nil_append, view_posts]; rfl) fun db₅ _ => ?_
          refine Spec.insertHistory (fun _ => hF _ _ _) fun db₆ h _ hrecords => ?_
          refine Spec.done (by simp [issuedState]) (hQ i result es ls h db₆ _ ?_ ?_)
          · exact {
              names := hnames
              draft := hdraft
              receivable := hrec
              revenue := hrev
              booked := hbooked
              history := hdraft ▸ hrecords.committed }
          · refine covered_append (hcovered.mono fun ℓ hℓ => by simp [hℓ]) fun w hw ℓ hℓ => ?_
            simp only [List.mem_cons, List.not_mem_nil, or_false] at hw
            rcases hw with rfl | rfl
            · rw [Write.needs, List.mem_singleton] at hℓ
              simp [hℓ]
            · rw [Write.needs, List.mem_singleton] at hℓ
              simp [hℓ]
    · exact hF _ _ _

/-! ## Payments -/

/-- Why `createInvoicePayment` gives up: for `NOT_FOUND` the invoice was not there when the call began, where its
payment collides the key was free then, and a call that had inserted its payment holds the key, which is free. -/
inductive PaymentFailed (sha256 : Text → Text) (origin db : Db) (r : PaymentRequest) (locks : List Lock) :
    Failure → Prop
  | badId (s : SqlState) : uuidIn r.invoiceId = none → PaymentFailed sha256 origin db r locks (.sql s)
  | badValues (s : SqlState) : r.fits = false → PaymentFailed sha256 origin db r locks (.sql s)
  | collision : (∀ x ∈ origin.payments, ¬ (x.tenantId = r.tenantId ∧ x.idempotencyKey = r.idempotencyKey.text)) →
      PaymentFailed sha256 origin db r locks (.sql .uniqueViolation)
  | notFound : (∀ i ∈ origin.invoices, ¬ (uuidIn r.invoiceId = some i.id ∧ i.tenantId = r.tenantId)) →
      PaymentFailed sha256 origin db r locks (.app notFound)
  | reused {p : InvoicePayment} : p ∈ db.payments → p.tenantId = r.tenantId →
      p.idempotencyKey = r.idempotencyKey.text → p.requestFingerprint ≠ fingerprint sha256 r.toJs →
      PaymentFailed sha256 origin db r locks (.app idempotencyKeyReused)
  | rejected {e : Failure} : Lock.paymentKey r.tenantId r.idempotencyKey.text ∈ locks →
      (∀ x ∈ db.payments, ¬ (x.tenantId = r.tenantId ∧ x.idempotencyKey = r.idempotencyKey.text)) →
      (Function.Injective sha256 → e.Handled) → PaymentFailed sha256 origin db r locks e

theorem PaymentFailed.handled (hsha : Function.Injective sha256) {origin db : Db} {r : PaymentRequest} {e : Failure}
    (h : PaymentFailed sha256 origin db r locks e) : e.Handled := by
  cases h with
  | rejected _ _ hhandled => exact hhandled hsha
  | _ => trivial

theorem spec_replayPayment {A : Tx PaymentResult → Db → Prop} {Q : PaymentResult → Db → List Write → List Lock → Prop}
    {r : PaymentRequest} {p : InvoicePayment} (hA : ∀ p db, A p db → Consistent sha256 db) (hp : p ∈ prev.payments)
    (ht : p.tenantId = r.tenantId) (hk : p.idempotencyKey = r.idempotencyKey.text)
    (hreused : ∀ x ∈ fin.payments, x.tenantId = r.tenantId → x.idempotencyKey = r.idempotencyKey.text →
      x.requestFingerprint ≠ fingerprint sha256 r.toJs → F (.app idempotencyKeyReused) [] locks)
    (hQ : ∀ x result db, Replayed sha256 fin r x result → Q result db [] locks) :
    Spec now fin A Q F (replayPayment r.tenantId r.idempotencyKey.text (fingerprint sha256 r.toJs)) prev [] locks := by
  refine Spec.read (fun _ _ => rfl) fun db₁ _ h₁ h₁' _ => ?_
  rw [Engine.view_nil]
  obtain ⟨x, hfind, hx, hmatch⟩ := find?_isSome_of_mem
    (p := fun y => y.tenantId = r.tenantId && y.idempotencyKey = r.idempotencyKey.text)
    (h₁.grow.payments hp) (by simp [ht, hk])
  rw [hfind]
  rw [Bool.and_eq_true, decide_eq_true_iff, decide_eq_true_iff] at hmatch
  dsimp only
  split
  · next hprint => exact hreused x (h₁'.grow.payments hx) hmatch.1 hmatch.2 hprint
  · next hprint =>
    rw [not_not] at hprint
    refine Spec.read (fun _ _ => rfl) fun db₂ _ h₂ _ _ => ?_
    split
    · next entryId hlink =>
      refine Spec.read (fun _ _ => rfl) fun db₃ _ h₃ h₃' ha => ?_
      rw [Engine.view_nil, Engine.view_nil]
      obtain ⟨i, -, req, e, hsettles⟩ := (hA _ _ ha).billing.settles x (h₃.grow.payments (h₂.grow.payments hx))
      have hid : e.id = entryId := Option.some.inj (hsettles.link.symm.trans hlink)
      obtain ⟨e', hfind', he', hid'⟩ := find?_isSome_of_mem (p := fun y : JournalEntry => y.id = entryId) hsettles.mem
        (by simpa using hid)
      refine Spec.done rfl (hQ x _ db₃ ⟨h₁'.grow.payments hx, hmatch.1, hmatch.2, hprint, rfl, ?_, rfl⟩)
      intro id hid''
      refine ⟨e', h₃'.grow.entries he', ?_, hfind'⟩
      rw [decide_eq_true_iff] at hid'
      rw [hid', Option.some.inj (hlink.symm.trans hid'')]
    · next hlink =>
      refine Spec.done rfl (hQ x _ db₂ ⟨h₁'.grow.payments hx, hmatch.1, hmatch.2, hprint, rfl, ?_, rfl⟩)
      intro id hid
      rw [hlink] at hid
      cases hid

theorem spec_checkReceivable {A : Tx Unit → Db → Prop} {Q : Unit → Db → List Write → List Lock → Prop}
    {r : PaymentRequest} {i : Invoice} (hA : ∀ p db, A p db → Consistent sha256 db) (hlog : LedgerFree log)
    (hi : i ∈ fin.invoices) (htenant : i.tenantId = r.tenantId) (hlock : Lock.invoice i.id ∈ locks)
    (hF : ∀ e : Failure, (Function.Injective sha256 → e.Handled) → F e log locks)
    (hQ : ∀ db, (∀ e ∈ i.issueJournalEntryId, ∃ l ∈ entryLines fin e, 0 < l.amountMinor ∧
      l.accountId.spelled = r.accountReceivableAccountId) → Rely locks prev db → Q () db log locks) :
    Spec now fin A Q F (checkReceivable r i) prev log locks := by
  unfold checkReceivable
  split
  · next hnone =>
    refine Spec.done rfl (hQ prev (fun e he => ?_) (Protocol.Rely.refl _ _))
    rw [hnone] at he
    cases he
  · next entryId hissue =>
    refine Spec.read (fun _ _ => rfl) fun db c h₁ h₂ ha => ?_
    rw [(hlog db).2.2]
    have hissued := (mem_of_locked h₂ hlock).mp hi
    split
    · next hmissing =>
      refine hF _ fun hsha => ?_
      obtain ⟨-, -, -, -, l, hl, hlt, -⟩ := (hA _ _ ha).issueLine hsha hissued hissue
      rw [issueLines_eq hl (hlt.trans htenant), head?_shuffle_singleton] at hmissing
      cases hmissing
    · next l hl =>
      have hmem := mem_shuffle.mp (List.mem_of_mem_head? hl)
      simp only [List.mem_filter, Bool.and_eq_true, decide_eq_true_iff] at hmem
      refine Spec.ite ?_ ?_
      · exact fun _ => hF _ fun _ => trivial
      · intro haccount
        refine Spec.done rfl (hQ db (fun e he => ⟨l, ?_, hmem.2.2, not_not.mp haccount⟩) h₁)
        obtain ⟨x, hx, hid, -⟩ := (hA _ _ ha).billing.issue i hissued entryId hissue
        obtain rfl : entryId = e := Option.some.inj (hissue.symm.trans he)
        rw [← hid, h₂.grow.entryLines hx, entryLines, List.mem_filter, decide_eq_true_iff]
        exact ⟨hmem.1, hmem.2.1.1.trans hid.symm⟩

/-- What the payment query sums: the payments so far, and the new one. -/
theorem sum_payments {db : Db} {order : List Nat} {id : Uuid} {p : InvoicePayment} (hp : p.invoiceId = id) :
    ((shuffle order ((db.payments ++ [p]).filter fun x => x.invoiceId = id)).map (·.amountMinor)).sum =
      paidMinor db id + p.amountMinor := by
  rw [((shuffle_perm order _).map _).sum_eq, List.filter_append, List.map_append, List.sum_append, paidMinor,
    paidAmounts]
  simp [hp]

theorem selectPayments_eq {invoiceId : Text} {id : Uuid} (h : uuidIn invoiceId = some id) (ctx : Context Choice)
    (db : Db) : Sql.selectPayments invoiceId ctx db =
      .done (shuffle ctx.choice.order (db.payments.filter fun p => p.invoiceId = id)) [] [] [] := by
  rw [Sql.selectPayments, h]

section Payment
variable {A : Tx PaymentResult → Db → Prop} {Q : PaymentResult → Db → List Write → List Lock → Prop}
  {r : PaymentRequest} {i : Invoice} {p : InvoicePayment} {origin : Db}

theorem spec_settleTx {target : InvoiceStatus} (hA : ∀ p db, A p db → Consistent sha256 db)
    (hnames : Names fin r.invoiceId r.tenantId i) (hlock : Lock.invoice i.id ∈ locks)
    (hfresh : ∀ x ∈ fin.payments, x.id ≠ p.id)
    (hF : ∀ (e : Failure) log' locks', locks ⊆ locks' → e.Handled → F e log' locks')
    (hQ : ∀ result es ls hs db locks', locks ⊆ locks' →
      Booked sha256 fin r.tenantId (paymentKey p.id) (paymentData r i) result es ls →
      (if target = i.status then hs = [] else ∃ h, hs = [h] ∧ Records fin.history h now i.id (some i.status) target) →
      Covered (posts es ls ++ .linkPayment p.id result.entry.id :: (hs.map .history ++
        [.updateInvoice i.id { i.state with status := target, updatedAt := r.updatedAt.date.timestamp }])) locks' →
      Q ⟨some { p with journalEntryId := some result.entry.id },
          some (i.set { i.state with status := target, updatedAt := r.updatedAt.date.timestamp }),
          some result.entry, false⟩ db
        (.payment p :: (posts es ls ++ .linkPayment p.id result.entry.id :: (hs.map .history ++
          [.updateInvoice i.id { i.state with status := target, updatedAt := r.updatedAt.date.timestamp }]))) locks') :
    Spec now fin A Q F (settleTx sha256 r i p target) prev [.payment p] locks := by
  refine Program.Meets.bind ?_
  refine spec_createJournalEntryTx (fun _ _ h => hA _ _ h) (fun _ => ⟨rfl, rfl, rfl⟩)
    (fun e log' locks' hsub hfailed => hF e log' locks' hsub hfailed.handled) ?_
  intro result es ls db₁ locks₁ hlocks₁ hcovered _ hbooked
  refine Spec.linkPayment (p := p) (fun db => by rw [Engine.view_append, view_posts]; rfl) hfresh fun db₂ _ => ?_
  have hcont : ∀ hs db locks₂, locks₁ ⊆ locks₂ → (∀ h ∈ hs, Lock.history h.id ∈ locks₂) →
      (if target = i.status then hs = [] else ∃ h, hs = [h] ∧ Records fin.history h now i.id (some i.status) target) →
      Spec now fin A Q F (do
        let updatedInvoice ← Program.statement (Sql.updateInvoice r.invoiceId r.tenantId fun s =>
          { s with status := target, updatedAt := r.updatedAt.date.timestamp })
        return ⟨some { p with journalEntryId := some result.entry.id }, updatedInvoice, some result.entry, false⟩)
        db ([.payment p] ++ posts es ls ++ [.linkPayment p.id result.entry.id] ++ hs.map .history) locks₂ := by
    intro hs db locks₂ hlocks₂ hhs hrecords
    refine Spec.updateInvoice (i := i) (fun _ _ h => (hA _ _ h).billing.invoiceIds) hnames
      (hlocks₂ (hlocks₁ hlock)) (fun db => ?_) fun db₃ _ => ?_
    · rw [Engine.view_append, Engine.view_append, Engine.view_append, view_histories, view_posts]
      rfl
    · refine Spec.done (by simp) (hQ result es ls hs db₃ _ ?_ hbooked hrecords ?_)
      · exact fun ℓ hℓ => List.mem_append_left _ (hlocks₂ (hlocks₁ hℓ))
      · refine covered_append (hcovered.mono fun ℓ hℓ => List.mem_append_left _ (hlocks₂ hℓ)) fun w hw ℓ hℓ => ?_
        simp only [List.mem_cons, List.mem_append, List.mem_map, List.not_mem_nil, or_false] at hw
        rcases hw with rfl | ⟨h, hh, rfl⟩ | rfl
        · exact absurd hℓ List.not_mem_nil
        · rw [Write.needs, List.mem_singleton] at hℓ
          rw [hℓ]
          exact List.mem_append_left _ (hhs h hh)
        · rw [Write.needs, List.mem_singleton] at hℓ
          simp [hℓ]
  dsimp only
  refine Spec.ite ?_ ?_
  · intro htarget
    refine Spec.insertHistory (fun _ => hF _ _ _ (fun ℓ hℓ => List.mem_append_left _ (hlocks₁ hℓ)) trivial)
      fun db₃ h _ hrecords => ?_
    refine hcont [h] db₃ _ (fun ℓ hℓ => by simp [hℓ]) (by simp) ?_
    rw [if_neg htarget]
    exact ⟨h, rfl, hrecords.committed⟩
  · intro htarget
    have hnil := hcont [] db₂ _ (List.subset_append_left locks₁ [.payment p.id]) (by simp)
      (by rw [if_pos (not_not.mp htarget)])
    rw [List.map_nil, List.append_nil] at hnil
    exact hnil

theorem spec_payTx (hA : ∀ p db, A p db → Consistent sha256 db) (hnames : Names fin r.invoiceId r.tenantId i)
    (hlock : Lock.invoice i.id ∈ locks) (hinvoice : p.invoiceId = i.id) (hamount : p.amountMinor = r.amountMinor)
    (htenant : p.tenantId = r.tenantId) (hkey : p.idempotencyKey = r.idempotencyKey.text)
    (hbody : p.requestFingerprint = fingerprint sha256 r.toJs) (hfits : r.fits = true)
    (hfreshId : ∀ x ∈ fin.payments, x.id ≠ p.id)
    (hfreshKey : ∀ x ∈ fin.payments, ¬ (x.tenantId = r.tenantId ∧ x.idempotencyKey = r.idempotencyKey.text))
    (hpayment : ∀ ℓ ∈ (Write.payment p).needs, ℓ ∈ locks)
    (hF : ∀ (e : Failure) log' locks', locks ⊆ locks' → (Function.Injective sha256 → e.Handled) → F e log' locks')
    (hQ : ∀ result es ls hs db locks', Paid sha256 fin now r i p result es ls hs →
      Covered (.payment p :: (posts es ls ++ .linkPayment p.id result.entry.id :: (hs.map .history ++
        [.updateInvoice i.id (paidState fin r i)]))) locks' →
      Q ⟨some { p with journalEntryId := some result.entry.id }, some (i.set (paidState fin r i)),
          some result.entry, false⟩ db
        (.payment p :: (posts es ls ++ .linkPayment p.id result.entry.id :: (hs.map .history ++
          [.updateInvoice i.id (paidState fin r i)]))) locks') :
    Spec now fin A Q F (payTx sha256 r i p) prev [.payment p] locks := by
  have hFhere : ∀ (e : Failure) log', e.Handled → F e log' locks :=
    fun e log' hhandled => hF e log' locks (List.Subset.refl _) fun _ => hhandled
  refine Spec.read (fun _ _ => rfl) fun db₁ _ _ h₁ _ => ?_
  refine Spec.read (fun _ _ => rfl) fun db₂ _ _ h₂ _ => ?_
  split
  · next bank receivable hbank hreceivable =>
    refine Spec.ite (fun _ => hFhere _ _ trivial) fun hcurrencies => ?_
    simp only [not_or, not_not] at hcurrencies
    have hbank' : HasAccount fin r.bankAccountId r.tenantId i.currency none :=
      hcurrencies.1 ▸ hasAccount_of_find hbank h₁.grow.accounts fun t ht => absurd ht (Option.not_mem_none t)
    have hreceivable' : HasAccount fin r.accountReceivableAccountId r.tenantId i.currency none :=
      hcurrencies.2 ▸ hasAccount_of_find hreceivable h₂.grow.accounts fun t ht => absurd ht (Option.not_mem_none t)
    refine Program.Meets.bind ?_
    refine spec_checkReceivable (fun _ _ h => hA _ _ h) (fun _ => ⟨rfl, rfl, rfl⟩) hnames.mem hnames.tenant
      hlock (fun e => hF e _ _ (List.Subset.refl _)) fun db₃ hissueLine _ => ?_
    refine Spec.read (selectPayments_eq hnames.id) fun db₄ c _ h₄ _ => ?_
    have hsum : ((shuffle c.order ((engine.view [.payment p] db₄).payments.filter
        fun x => x.invoiceId = i.id)).map (·.amountMinor)).sum = paidMinor fin i.id + r.amountMinor := by
      rw [show (engine.view [.payment p] db₄).payments = db₄.payments ++ [p] from rfl, sum_payments hinvoice,
        paid_eq h₄ hlock, hamount]
    dsimp only
    rw [hsum]
    refine Spec.ite (fun _ => hFhere _ _ trivial) fun hremaining => ?_
    refine Spec.ite (fun _ => hFhere _ _ trivial) fun hedge => ?_
    refine spec_settleTx hA hnames hlock hfreshId (fun e log' locks' hsub hhandled => hF e log' locks' hsub fun _ => hhandled)
      fun result es ls hs db locks' hlocks hbooked hhistory hcovered => ?_
    refine hQ result es ls hs db locks' ?_ fun w hw ℓ hℓ => ?_
    · exact {
        names := hnames
        invoice := hinvoice
        amount := hamount
        tenant := htenant
        named := hkey
        body := hbody
        fits := hfits
        freshId := hfreshId
        freshKey := hfreshKey
        bank := hbank'
        receivable := hreceivable'
        issueLine := hissueLine
        remaining := not_lt.mp hremaining
        edge := Bool.eq_true_of_not_eq_false hedge
        booked := hbooked
        history := hhistory }
    · rcases List.mem_cons.mp hw with rfl | hw
      · exact hlocks (hpayment ℓ hℓ)
      · exact hcovered w hw ℓ hℓ
  · exact hFhere _ _ trivial

theorem spec_createInvoicePayment (hA : ∀ p db, A p db → Consistent sha256 db)
    (hF : ∀ e log' locks', PaymentFailed sha256 prev fin r locks' e → F e log' locks')
    (hreplayed : ∀ x result db locks', Replayed sha256 fin r x result → Q result db [] locks')
    (hQ : ∀ i p result es ls hs db locks', Paid sha256 fin now r i p result es ls hs →
      Covered (.payment p :: (posts es ls ++ .linkPayment p.id result.entry.id :: (hs.map .history ++
        [.updateInvoice i.id (paidState fin r i)]))) locks' →
      Q ⟨some { p with journalEntryId := some result.entry.id }, some (i.set (paidState fin r i)),
          some result.entry, false⟩ db
        (.payment p :: (posts es ls ++ .linkPayment p.id result.entry.id :: (hs.map .history ++
          [.updateInvoice i.id (paidState fin r i)]))) locks') :
    Spec now fin A Q F (createInvoicePayment sha256 r) prev [] [] := by
  refine Spec.selectInvoiceForUpdate (fun hid s => hF _ _ _ (.badId s hid)) (fun db h₁ hnone => hF _ _ _ (.notFound ?_)) ?_
  · intro i hi hmatch
    obtain ⟨j, hj, hid, ht⟩ := h₁.grow.invoices i hi
    exact hnone j hj ⟨by rw [hmatch.1, hid], ht.trans hmatch.2⟩
  · intro db i h₁ _ hnames
    refine Spec.insertPayment hnames.id (fun _ => rfl) (fun hfits s => hF _ _ _ (.badValues s hfits))
      (fun db' h₂ hfree => hF _ _ _ (.collision ?_)) ?_ ?_
    · exact fun x hx => hfree x (h₂.grow.payments (h₁.grow.payments hx))
    · intro db p _ _ hp ht hk
      refine spec_replayPayment hA hp ht hk (fun x hx hxt hxk hprint => hF _ _ _ (.reused hx hxt hxk hprint)) ?_
      exact fun x result db' h => hreplayed x result db' _ h
    · intro db p _ _ hinvoice hamount htenant hkey hbody hfits hfreshId hfreshKey
      refine spec_payTx hA hnames (by simp) hinvoice hamount htenant hkey hbody hfits hfreshId hfreshKey ?_ ?_ ?_
      · intro ℓ hℓ
        simp only [Write.needs, List.mem_cons, List.not_mem_nil, or_false] at hℓ
        rcases hℓ with rfl | rfl | rfl
        · simp
        · simp [htenant, hkey]
        · simp [hinvoice]
      · exact fun e log' locks' hlocks hhandled => hF _ _ _ (.rejected (hlocks (by simp)) hfreshKey hhandled)
      · exact fun result es ls hs db locks' hpaid hcovered => hQ i p result es ls hs db locks' hpaid hcovered

end Payment

/-! ## Voiding and the overdue job -/

theorem spec_voidInvoice {A : Tx (Option Invoice) → Db → Prop}
    {Q : Option Invoice → Db → List Write → List Lock → Prop} {r : VoidRequest}
    (hA : ∀ p db, A p db → Consistent sha256 db) (hF : ∀ e log' locks', F e log' locks')
    (hQ : ∀ i h db locks', Voided fin now r i h → Covered [.updateInvoice i.id (voidState r i), .history h] locks' →
      Q (some (i.set (voidState r i))) db [.updateInvoice i.id (voidState r i), .history h] locks') :
    Spec now fin A Q F (voidInvoice r) prev [] [] := by
  refine Spec.selectInvoiceForUpdate (fun _ _ => hF _ _ _) (fun _ _ _ => hF _ _ _) fun db₁ i _ _ hnames => ?_
  refine Spec.ite ?_ ?_
  · exact fun _ => hF _ _ _
  · intro hedge
    refine Spec.read (selectPayments_eq hnames.id) fun db₂ c _ h₂ _ => ?_
    have hsum : ((shuffle c.order (db₂.payments.filter fun x => x.invoiceId = i.id)).map (·.amountMinor)).sum =
        paidMinor fin i.id := by
      rw [((shuffle_perm c.order _).map _).sum_eq, paid_eq h₂ (show Lock.invoice i.id ∈ _ by simp)]
      rfl
    rw [Engine.view_nil, hsum]
    refine Spec.ite ?_ ?_
    · exact fun _ => hF _ _ _
    · intro hunpaid
      refine Spec.updateInvoice (i := i) (fun _ _ h => (hA _ _ h).billing.invoiceIds) hnames (by simp) (fun _ => rfl)
        fun db₃ _ => ?_
      refine Spec.insertHistory (fun _ => hF _ _ _) fun db₄ h _ hrecords => ?_
      refine Spec.done rfl (hQ i h db₄ _ ?_ fun w hw ℓ hℓ => ?_)
      · exact ⟨hnames, Bool.eq_true_of_not_eq_false hedge, not_lt.mp hunpaid, hrecords.committed⟩
      · simp only [List.mem_cons, List.not_mem_nil, or_false] at hw
        rcases hw with rfl | rfl
        · rw [Write.needs, List.mem_singleton] at hℓ
          simp [hℓ]
        · rw [Write.needs, List.mem_singleton] at hℓ
          simp [hℓ]

/-- What a lock on an invoice keeps under one's own updates. -/
theorem OverdueRun.locked {strict : Prop} {updatedAt : Timestamp} {db : Db} {rows : List Invoice}
    (h : OverdueRun strict now updatedAt fin log rows) {u : Uuid}
    (heq : fin.invoices.filter (fun i => i.id = u) = db.invoices.filter fun i => i.id = u) :
    (engine.view log fin).invoices.filter (fun i => i.id = u) =
      (engine.view log db).invoices.filter fun i => i.id = u := by
  have hset : ∀ (id : Uuid) (s : InvoiceState) (rows : List Invoice),
      (setInvoice id s rows).filter (fun i => i.id = u) = setInvoice id s (rows.filter fun i => i.id = u) := by
    intro id s rows
    induction rows with
    | nil => rfl
    | cons i rows ih =>
        rw [setInvoice] at ih ⊢
        have hkeep : (if i.id = id then i.set s else i).id = i.id := by split <;> rfl
        rw [List.map_cons, List.filter_cons, List.filter_cons, ih, hkeep]
        split <;> rfl
  induction h with
  | nil => exact heq
  | @snoc log rows i src hist _ _ _ _ _ _ ih =>
      rw [Engine.view_append, Engine.view_append]
      have hview : ∀ d : Db, (engine.view [.updateInvoice i.id (overdueState updatedAt i), .history hist] d).invoices =
          setInvoice i.id (overdueState updatedAt i) d.invoices := fun _ => rfl
      rw [hview, hview, hset, hset, ih]

/-- Where the loop stands when its next step is the update of `invoice`. -/
def NextOverdue {γ : Type} (p : Tx γ) (invoice : Invoice) : Prop :=
  ∃ (now : Timestamp) (rest updated : List Invoice) (k : List Invoice → Tx γ),
    p = markOverdueLoop now (invoice :: rest) updated >>= k

/-- The status that the first query saw is the one that the update replaces. -/
def ReadsCurrent {γ : Type} (p : Tx γ) (db : Db) : Prop :=
  ∀ invoice, NextOverdue p invoice → ∀ i ∈ db.invoices, i.id = invoice.id → i.status ∈ overdueSources →
    i.status = invoice.status

theorem spec_markOverdueLoop {A : Tx (List Invoice) → Db → Prop}
    {Q : List Invoice → Db → List Write → List Lock → Prop} {strict : Prop} {updatedAt : Timestamp}
    (hA : ∀ c rest acc db, A (markOverdueLoop updatedAt (c :: rest) acc) db → strict → ∀ i ∈ db.invoices,
      i.id = c.id → i.status ∈ overdueSources → i.status = c.status)
    (hF : ∀ e log' locks', F e log' locks')
    (hQ : ∀ rows db log' locks', OverdueRun strict now updatedAt fin log' rows → Covered log' locks' →
      Q rows db log' locks') :
    ∀ (candidates acc : List Invoice) (prev : Db) (log : List Write) (locks : List Lock),
      (∀ c ∈ candidates, c.status ∈ overdueSources) → OverdueRun strict now updatedAt fin log acc →
      Covered log locks → Spec now fin A Q F (markOverdueLoop updatedAt candidates acc) prev log locks := by
  intro candidates
  induction candidates with
  | nil => exact fun acc prev log locks _ hrun hcovered => Spec.done rfl (hQ acc prev log locks hrun hcovered)
  | cons c rest ih =>
      intro acc prev log locks hsources hrun hcovered
      have hrest : ∀ x ∈ rest, x.status ∈ overdueSources := fun x hx => hsources x (List.mem_cons_of_mem _ hx)
      refine Spec.updateInvoices ?_ ?_
      · exact fun db _ => ih acc db log locks hrest hrun hcovered
      · intro db i _ hl ha hi hcondition
        simp only [Bool.and_eq_true, decide_eq_true_iff, List.contains_iff_mem] at hcondition
        refine Spec.insertHistory (fun _ => hF _ _ _) fun db' h _ hrecords => ?_
        have hmem : i ∈ (engine.view log fin).invoices := by
          have heq := hrun.locked (invoice_eq hl (show Lock.invoice i.id ∈ _ by simp))
          have hi' : i ∈ (engine.view log fin).invoices.filter fun x => x.id = i.id := by
            rw [heq]
            exact List.mem_filter.mpr ⟨hi, by simp⟩
          exact List.mem_of_mem_filter hi'
        have hstep : OverdueRun strict now updatedAt fin
            (log ++ [.updateInvoice i.id (overdueState updatedAt i), .history h])
            (acc ++ [i.set (overdueState updatedAt i)]) := by
          rw [Engine.view_append] at hrecords
          refine .snoc hrun hmem hcondition.2 (hsources c List.mem_cons_self) (fun hstrict => ?_)
            (hcondition.1.symm ▸ hrecords)
          exact (hA c rest acc db ha hstrict i (hrun.unchanged db hi hcondition.2) hcondition.1 hcondition.2).symm
        have hih := ih (acc ++ [i.set (overdueState updatedAt i)]) db' _ (locks ++ [.invoice i.id] ++ [.history h.id])
          hrest hstep ?_
        · rw [List.append_assoc log]
          exact hih
        · refine covered_append (hcovered.mono fun ℓ hℓ => by simp [hℓ]) fun w hw ℓ hℓ => ?_
          simp only [List.mem_cons, List.not_mem_nil, or_false] at hw
          rcases hw with rfl | rfl
          · rw [Write.needs, List.mem_singleton] at hℓ
            simp [hℓ]
          · rw [Write.needs, List.mem_singleton] at hℓ
            simp [hℓ]

theorem spec_markOverdueInvoices {A : Tx (List Invoice) → Db → Prop}
    {Q : List Invoice → Db → List Write → List Lock → Prop} (strict : Prop) {reading : Reading}
    (hA : ∀ c rest acc db, A (markOverdueLoop reading.date.timestamp (c :: rest) acc) db → strict →
      ∀ i ∈ db.invoices, i.id = c.id → i.status ∈ overdueSources → i.status = c.status)
    (hF : ∀ e log' locks', F e log' locks')
    (hQ : ∀ rows db log' locks', OverdueRun strict now reading.date.timestamp fin log' rows → Covered log' locks' →
      Q rows db log' locks') :
    Spec now fin A Q F (markOverdueInvoices reading) prev [] [] := by
  refine Spec.read (fun _ _ => rfl) fun db c _ _ _ => ?_
  refine spec_markOverdueLoop hA hF hQ _ _ _ _ _ (fun x hx => ?_) .nil (fun w hw => absurd hw List.not_mem_nil)
  have hmem := mem_shuffle.mp hx
  simp only [List.mem_filter, Bool.and_eq_true, List.contains_iff_mem] at hmem
  exact hmem.2.1

end FinSight
