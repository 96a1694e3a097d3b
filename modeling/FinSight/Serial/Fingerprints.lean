import FinSight.Lists.Grouping
import FinSight.Serial.Consistent

/-!
# What a fingerprint says about a body

SHA-256 is taken to be injective.

* `norm_field` : objects with one canonical text agree on every field;
* `EntryData.eq_of_print` : equal fingerprints, equal bodies; `PaymentRequest.same_of_print` : the same payment;
* `Books.postings` : the lines of an entry are those of any body with its fingerprint;
* `amountOn_two`, `debits_two` : an entry with two lines, seen from one account.
-/

namespace FinSight

open ReadCommitted Grouping

variable {sha256 : Text → Text}

theorem normAll_eq (vs : List JsVal) : JsVal.normAll vs = vs.map JsVal.norm := by
  induction vs with
  | nil => rfl
  | cons v vs ih => rw [JsVal.normAll, ih, List.map_cons]

theorem normFields_eq (fields : List (Text × JsVal)) :
    JsVal.normFields fields = fields.map fun f => (f.1, f.2.norm) := by
  induction fields with
  | nil => rfl
  | cons f fields ih => rw [JsVal.normFields, ih, List.map_cons]

/-- Objects with one canonical text have the same fields. -/
theorem perm_of_norm {fields fields' : List (Text × JsVal)} (h : (JsVal.obj fields).norm = (JsVal.obj fields').norm) :
    (JsVal.normFields fields).Perm (JsVal.normFields fields') := by
  rw [JsVal.norm, JsVal.norm, Canon.obj.injEq, sortKeys, sortKeys] at h
  exact (List.perm_insertionSort (fun a b => codeUnitLe a.1 b.1) _).symm.trans
    (h.symm ▸ List.perm_insertionSort (fun a b => codeUnitLe a.1 b.1) (JsVal.normFields fields'))

/-- Objects with one canonical text agree on every field. -/
theorem norm_field {fields fields' : List (Text × JsVal)} (h : (JsVal.obj fields).norm = (JsVal.obj fields').norm)
    (hkeys : (fields'.map Prod.fst).Nodup) (k : Text) {v v' : JsVal} (hv : (k, v) ∈ fields) (hv' : (k, v') ∈ fields') :
    v.norm = v'.norm := by
  have hperm := perm_of_norm h
  rw [normFields_eq, normFields_eq] at hperm
  have hmem := hperm.subset (List.mem_map_of_mem (f := fun f : Text × JsVal => (f.1, f.2.norm)) hv)
  have hmem' := List.mem_map_of_mem (f := fun f : Text × JsVal => (f.1, f.2.norm)) hv'
  have hnodup : ((fields'.map fun f => (f.1, f.2.norm)).map Prod.fst).Nodup := by
    rw [List.map_map]
    exact hkeys
  exact congrArg Prod.snd (Keyed.eq_of_key_eq hnodup hmem hmem' rfl)

theorem norm_of_print {v w : JsVal} (hsha : Function.Injective sha256) (h : fingerprint sha256 v = fingerprint sha256 w) :
    v.norm = w.norm := norm_eq_of_canonicalise_eq (hsha h)

theorem Canon.str_inj {s t : Text} (h : Canon.str s = Canon.str t) : s = t := by
  cases h
  rfl

/-! ## Bodies -/

theorem LineData.eq_of_norm {d d' : LineData} (h : d.toJs.norm = d'.toJs.norm) : d = d' := by
  have hkeys : [text "accountId", text "amountMinor"].Nodup := by decide
  have haccount := norm_field h hkeys (text "accountId") List.mem_cons_self List.mem_cons_self
  have hamount := norm_field h hkeys (text "amountMinor") (List.mem_cons_of_mem _ List.mem_cons_self)
    (List.mem_cons_of_mem _ List.mem_cons_self)
  simp only [JsVal.norm] at haccount hamount
  cases d
  cases d'
  rw [LineData.mk.injEq]
  exact ⟨UuidText.text_injective (Canon.str_inj haccount), decimalInt_injective (Canon.str_inj hamount)⟩

/-- Equal fingerprints, equal bodies. -/
theorem EntryData.eq_of_print (hsha : Function.Injective sha256) {data data' : EntryData}
    (h : fingerprint sha256 data.toJs = fingerprint sha256 data'.toJs) : data = data' := by
  have hkeys : [text "description", text "occurredAt", text "lines"].Nodup := by decide
  have hfield := fun k v v' => @norm_field _ _ (norm_of_print hsha h) hkeys k v v'
  have hdescription := hfield (text "description") _ _ List.mem_cons_self List.mem_cons_self
  have hoccurred := hfield (text "occurredAt") _ _ (List.mem_cons_of_mem _ List.mem_cons_self)
    (List.mem_cons_of_mem _ List.mem_cons_self)
  have hlines := hfield (text "lines") _ _ (List.mem_cons_of_mem _ (List.mem_cons_of_mem _ List.mem_cons_self))
    (List.mem_cons_of_mem _ (List.mem_cons_of_mem _ List.mem_cons_self))
  rw [JsVal.norm, JsVal.norm, Canon.arr.injEq, normAll_eq, normAll_eq, List.map_map, List.map_map] at hlines
  simp only [JsVal.norm] at hdescription hoccurred
  cases data
  cases data'
  rw [EntryData.mk.injEq]
  exact ⟨Canon.str_inj hdescription, Date.isoString_injective (Canon.str_inj hoccurred),
    List.map_injective_iff.mpr (fun _ _ => LineData.eq_of_norm) hlines⟩

/-- The part of a payment request that its fingerprint covers. -/
structure PaymentRequest.Same (r r' : PaymentRequest) : Prop where
  invoiceId : r.invoiceId = r'.invoiceId
  amountMinor : r.amountMinor = r'.amountMinor
  paidAt : r.paidAt = r'.paidAt
  bankAccountId : r.bankAccountId = r'.bankAccountId
  accountReceivableAccountId : r.accountReceivableAccountId = r'.accountReceivableAccountId

/-- Equal fingerprints, the same payment. -/
theorem PaymentRequest.same_of_print (hsha : Function.Injective sha256) {r r' : PaymentRequest}
    (h : fingerprint sha256 r.toJs = fingerprint sha256 r'.toJs) : r.Same r' := by
  have hkeys : [text "invoiceId", text "amountMinor", text "paidAt", text "bankAccountId",
      text "accountReceivableAccountId"].Nodup := by decide
  have hfield := fun k v v' => @norm_field _ _ (norm_of_print hsha h) hkeys k v v'
  have hinvoice := hfield (text "invoiceId") _ _ List.mem_cons_self List.mem_cons_self
  have hamount := hfield (text "amountMinor") _ _ (List.mem_cons_of_mem _ List.mem_cons_self)
    (List.mem_cons_of_mem _ List.mem_cons_self)
  have hpaid := hfield (text "paidAt") _ _ (List.mem_cons_of_mem _ (List.mem_cons_of_mem _ List.mem_cons_self))
    (List.mem_cons_of_mem _ (List.mem_cons_of_mem _ List.mem_cons_self))
  have hbank := hfield (text "bankAccountId") (.str r.bankAccountId.text) (.str r'.bankAccountId.text)
    (by simp) (by simp)
  have hreceivable := hfield (text "accountReceivableAccountId") (.str r.accountReceivableAccountId.text)
    (.str r'.accountReceivableAccountId.text) (by simp) (by simp)
  simp only [JsVal.norm] at hinvoice hamount hbank hreceivable
  refine ⟨Canon.str_inj hinvoice, decimalInt_injective (Canon.str_inj hamount), ?_,
    UuidText.text_injective (Canon.str_inj hbank), UuidText.text_injective (Canon.str_inj hreceivable)⟩
  cases hd : r.paidAt with
  | none =>
      cases hd' : r'.paidAt with
      | none => rfl
      | some d' =>
          rw [hd, hd'] at hpaid
          cases hpaid
  | some d =>
      cases hd' : r'.paidAt with
      | none =>
          rw [hd, hd'] at hpaid
          cases hpaid
      | some d' =>
          rw [hd, hd'] at hpaid
          simp only [JsVal.norm] at hpaid
          rw [Date.isoString_injective (Canon.str_inj hpaid)]

/-! ## Keys -/

theorem issueKey_ne_paymentKey (i p : Uuid) : issueKey i ≠ paymentKey p := by
  intro h
  have hhead : (issueKey i).head? = (paymentKey p).head? := congrArg List.head? h
  have hissue : (issueKey i).head? = some (unit 'i') := rfl
  have hpayment : (paymentKey p).head? = some (unit 'p') := rfl
  rw [hissue, hpayment] at hhead
  exact absurd hhead (by decide)

theorem paymentKey_injective : Function.Injective paymentKey := fun _ _ h =>
  Uuid.text_injective (List.append_cancel_left h)

/-! ## Lines -/

/-- The lines of an entry are those of any body with its fingerprint. -/
theorem Books.postings (hsha : Function.Injective sha256) {db : Db} {e : JournalEntry} {data data' : EntryData}
    (h : Books sha256 db e data) (hbody : e.requestFingerprint = fingerprint sha256 data'.toJs) :
    (entryLines db e.id).map EntryLine.posting = data'.lines.map (LineData.posting e) := by
  rw [← EntryData.eq_of_print hsha (h.body.symm.trans hbody)]
  exact h.lines

/-- What an entry does to an account. -/
def amountOn (db : Db) (entryId accountId : Uuid) : Int :=
  groupSum (fun l : EntryLine => l.accountId) (·.amountMinor) (entryLines db entryId) accountId

theorem amountOn_eq {db : Db} {e : JournalEntry} (lines : List LineData)
    (h : (entryLines db e.id).map EntryLine.posting = lines.map (LineData.posting e)) (accountId : Uuid) :
    amountOn db e.id accountId = groupSum (fun d : LineData => d.accountId.uuid) (·.amountMinor) lines accountId := by
  have hsums := congrArg (fun rows => groupSum (fun x : Uuid × Uuid × Uuid × Int => x.2.2.1) (fun x => x.2.2.2) rows
    accountId) h
  simp only [groupSum_map] at hsums
  exact hsums

/-- A debit of one account and a credit of another. -/
theorem amountOn_two {db : Db} {e : JournalEntry} {x y : UuidText} {amount : Int}
    (h : (entryLines db e.id).map EntryLine.posting = [LineData.posting e ⟨x, amount⟩, LineData.posting e ⟨y, -amount⟩])
    (accountId : Uuid) :
    amountOn db e.id accountId = (if x.uuid = accountId then amount else 0) - if y.uuid = accountId then amount else 0 := by
  rw [amountOn_eq [⟨x, amount⟩, ⟨y, -amount⟩] h, groupSum_cons, groupSum_cons, groupSum_nil]
  dsimp only
  split <;> split <;> omega

/-- An account with a debit line. -/
def Debits (db : Db) (entryId accountId : Uuid) : Prop :=
  ∃ l ∈ entryLines db entryId, 0 < l.amountMinor ∧ l.accountId = accountId

instance (db : Db) (entryId accountId : Uuid) : Decidable (Debits db entryId accountId) :=
  inferInstanceAs (Decidable (∃ l ∈ _, _))

theorem debits_two {db : Db} {e : JournalEntry} {x y : UuidText} {amount : Int} (hpos : 0 < amount)
    (h : (entryLines db e.id).map EntryLine.posting = [LineData.posting e ⟨x, amount⟩, LineData.posting e ⟨y, -amount⟩])
    (accountId : Uuid) : Debits db e.id accountId ↔ accountId = x.uuid := by
  constructor
  · rintro ⟨l, hl, hamount, rfl⟩
    have hmem := List.mem_map_of_mem (f := EntryLine.posting) hl
    rw [h] at hmem
    simp only [LineData.posting, EntryLine.posting, List.mem_cons, List.not_mem_nil, or_false, Prod.mk.injEq] at hmem
    rcases hmem with ⟨-, -, haccount, -⟩ | ⟨-, -, -, hneg⟩
    · exact haccount
    · omega
  · rintro rfl
    have hmem : LineData.posting e ⟨x, amount⟩ ∈ (entryLines db e.id).map EntryLine.posting := by
      rw [h]
      exact List.mem_cons_self
    obtain ⟨l, hl, heq⟩ := List.mem_map.mp hmem
    simp only [LineData.posting, EntryLine.posting, Prod.mk.injEq] at heq
    exact ⟨l, hl, by omega, heq.2.2.1⟩

/-- The debit is the one line with a positive amount. -/
theorem positive_two {db : Db} {e : JournalEntry} {x y : UuidText} {amount : Int} (hpos : 0 < amount)
    (h : (entryLines db e.id).map EntryLine.posting = [LineData.posting e ⟨x, amount⟩, LineData.posting e ⟨y, -amount⟩]) :
    ∃ l, (entryLines db e.id).filter (fun l => 0 < l.amountMinor) = [l] ∧ l.tenantId = e.tenantId ∧
      l.accountId = x.uuid ∧ l.amountMinor = amount := by
  obtain ⟨l, rest, hlines, hl, hrest⟩ := List.map_eq_cons_iff.mp h
  obtain ⟨l', rest', rfl, hl', hnil⟩ := List.map_eq_cons_iff.mp hrest
  rw [List.map_eq_nil_iff] at hnil
  simp only [LineData.posting, EntryLine.posting, Prod.mk.injEq] at hl hl'
  obtain ⟨-, htenant, haccount, hamount⟩ := hl
  obtain ⟨-, -, -, hamount'⟩ := hl'
  have hcredit : ¬ 0 < l'.amountMinor := by omega
  refine ⟨l, ?_, htenant, haccount, hamount⟩
  rw [hlines, hnil, List.filter_cons_of_pos (by simpa [hamount] using hpos), List.filter_cons_of_neg (by simpa using hcredit),
    List.filter_nil]

/-- The rows of the issue line query. -/
theorem issueLines_eq {db : Db} {x tenantId : Uuid} {l : EntryLine}
    (h : (entryLines db x).filter (fun l => 0 < l.amountMinor) = [l]) (htenant : l.tenantId = tenantId) :
    db.lines.filter (fun l => l.entryId = x && l.tenantId = tenantId && decide (0 < l.amountMinor)) = [l] := by
  have hrows : db.lines.filter (fun l => l.entryId = x && l.tenantId = tenantId && decide (0 < l.amountMinor)) =
      ((entryLines db x).filter fun l => 0 < l.amountMinor).filter fun l => l.tenantId = tenantId := by
    rw [entryLines, List.filter_filter, List.filter_filter]
    exact List.filter_congr fun l _ => by grind
  rw [hrows, h, List.filter_cons_of_pos (by simpa using htenant), List.filter_nil]

/-- **The issue entry of an invoice** has one line with a positive amount, the total, on an asset account of the tenant in
the invoice's currency. -/
theorem Consistent.issueLine (hsha : Function.Injective sha256) {db : Db} (h : Consistent sha256 db) {i : Invoice}
    (hi : i ∈ db.invoices) {x : Uuid} (hx : i.issueJournalEntryId = some x) :
    ∃ e ∈ db.entries, e.id = x ∧ e.tenantId = i.tenantId ∧
      ∃ l, (entryLines db x).filter (fun l => 0 < l.amountMinor) = [l] ∧ l.tenantId = i.tenantId ∧
        l.amountMinor = i.totalAmountMinor ∧
        ∃ a ∈ db.accounts, a.id = l.accountId ∧ a.tenantId = i.tenantId ∧ a.type = .asset ∧ a.currency = i.currency := by
  obtain ⟨e, he, rfl, htenant, -, receivable, revenue, date, hbody, ⟨a, ha, hid, hat, hcurrency, htype⟩, -⟩ :=
    h.billing.issue i hi x hx
  obtain ⟨data, hbooks⟩ := h.ledger.books e he
  obtain ⟨l, hline, hlt, haccount, hamount⟩ :=
    positive_two (h.billing.standing i hi).total (hbooks.postings hsha hbody)
  exact ⟨e, he, rfl, htenant, l, hline, hlt.trans htenant, hamount, a, ha, hid.trans haccount.symm, hat, htype _ rfl,
    hcurrency⟩

end FinSight
