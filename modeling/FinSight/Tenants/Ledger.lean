import FinSight.Db.Statements
import FinSight.ReadCommitted.Isolation

/-!
# The ledger tables of many tenants

`issuer id` is the tenant for whose statements the id is generated.

* `Db.share` : the rows of one tenant; items and histories are those of its invoices;
* `Db.Owned` : every row has an id of its tenant, and refers to rows of its tenant;
* `Write.Of` : what a tenant may write;
* `division` : the division of the tables, and what it says of the deferred constraint.
-/

namespace FinSight

open ReadCommitted Shares

variable (issuer : Uuid → Uuid)

/-- The tenant of the invoice. -/
def InvoiceItem.owner (r : InvoiceItem) : Uuid := issuer r.invoiceId

def StatusHistory.owner (h : StatusHistory) : Uuid := issuer h.invoiceId

def Db.share (t : Uuid) (db : Db) : Db where
  accounts := owned Account.tenantId t db.accounts
  entries := owned JournalEntry.tenantId t db.entries
  lines := owned EntryLine.tenantId t db.lines
  invoices := owned Invoice.tenantId t db.invoices
  items := owned (InvoiceItem.owner issuer) t db.items
  payments := owned InvoicePayment.tenantId t db.payments
  history := owned (StatusHistory.owner issuer) t db.history
  sequences := owned InvoiceSequence.tenantId t db.sequences

/-! ## Rows -/

def Account.Of (t : Uuid) (a : Account) : Prop := a.tenantId = t ∧ issuer a.id = t

def JournalEntry.Of (t : Uuid) (e : JournalEntry) : Prop := e.tenantId = t ∧ issuer e.id = t

def EntryLine.Of (t : Uuid) (l : EntryLine) : Prop := l.tenantId = t ∧ issuer l.id = t ∧ issuer l.entryId = t

def Invoice.Of (t : Uuid) (i : Invoice) : Prop := i.tenantId = t ∧ issuer i.id = t

def InvoiceItem.Of (t : Uuid) (r : InvoiceItem) : Prop := issuer r.id = t ∧ r.owner issuer = t

def InvoicePayment.Of (t : Uuid) (p : InvoicePayment) : Prop :=
  p.tenantId = t ∧ issuer p.id = t ∧ issuer p.invoiceId = t ∧ ∀ e, p.journalEntryId = some e → issuer e = t

def StatusHistory.Of (t : Uuid) (h : StatusHistory) : Prop := issuer h.id = t ∧ h.owner issuer = t

structure Db.Owned (db : Db) : Prop where
  accounts : ∀ a ∈ db.accounts, a.Of issuer a.tenantId
  entries : ∀ e ∈ db.entries, e.Of issuer e.tenantId
  lines : ∀ l ∈ db.lines, l.Of issuer l.tenantId
  invoices : ∀ i ∈ db.invoices, i.Of issuer i.tenantId
  items : ∀ r ∈ db.items, r.Of issuer (r.owner issuer)
  payments : ∀ p ∈ db.payments, p.Of issuer p.tenantId
  history : ∀ h ∈ db.history, h.Of issuer (h.owner issuer)

def Write.Of (t : Uuid) : Write → Prop
  | .account row => row.Of issuer t
  | .entry row => row.Of issuer t
  | .line row => row.Of issuer t
  | .invoice row => row.Of issuer t
  | .item row => row.Of issuer t
  | .payment row => row.Of issuer t
  | .history row => row.Of issuer t
  | .sequence row => row.tenantId = t
  | .updateInvoice id _ => issuer id = t
  | .linkPayment id entryId => issuer id = t ∧ issuer entryId = t

variable {issuer} {t u : Uuid} {db : Db} {w : Write}

/-! ## Writes -/

theorem forall_mem_concat {α : Type} {P : α → Prop} {xs : List α} {x : α} (h : ∀ y ∈ xs, P y) (hx : P x) :
    ∀ y ∈ xs ++ [x], P y := by
  intro y hy
  rcases List.mem_append.mp hy with hy | hy
  · exact h y hy
  · exact List.mem_singleton.mp hy ▸ hx

theorem Db.Owned.apply (hdb : db.Owned issuer) (hw : w.Of issuer t) : (db.apply w).Owned issuer := by
  cases w with
  | account row => exact { hdb with accounts := forall_mem_concat hdb.accounts (hw.1 ▸ hw) }
  | entry row => exact { hdb with entries := forall_mem_concat hdb.entries (hw.1 ▸ hw) }
  | line row => exact { hdb with lines := forall_mem_concat hdb.lines (hw.1 ▸ hw) }
  | invoice row => exact { hdb with invoices := forall_mem_concat hdb.invoices (hw.1 ▸ hw) }
  | item row => exact { hdb with items := forall_mem_concat hdb.items (hw.2 ▸ hw) }
  | payment row => exact { hdb with payments := forall_mem_concat hdb.payments (hw.1 ▸ hw) }
  | history row => exact { hdb with history := forall_mem_concat hdb.history (hw.2 ▸ hw) }
  | sequence row => exact { hdb with }
  | updateInvoice id state =>
      refine { hdb with invoices := fun i hi => ?_ }
      obtain ⟨i₀, hi₀, rfl⟩ := List.mem_map.mp hi
      have hrow := hdb.invoices i₀ hi₀
      split
      · exact hrow
      · exact hrow
  | linkPayment id entryId =>
      refine { hdb with payments := fun p hp => ?_ }
      obtain ⟨p₀, hp₀, rfl⟩ := List.mem_map.mp hp
      have hrow := hdb.payments p₀ hp₀
      split
      · next hid =>
        refine ⟨rfl, hrow.2.1, hrow.2.2.1, fun e he => ?_⟩
        obtain rfl : entryId = e := Option.some.inj he
        exact hw.2.trans (hw.1.symm.trans (hid ▸ hrow.2.1))
      · exact hrow

theorem Invoice.tenantId_setWhere (id : Uuid) (state : InvoiceState) (i : Invoice) :
    (if i.id = id then i.set state else i).tenantId = i.tenantId := by
  split <;> rfl

theorem share_apply_own (hw : w.Of issuer t) : (db.apply w).share issuer t = (db.share issuer t).apply w := by
  cases w with
  | account row => simp only [Db.share, Db.apply, owned_concat_own hw.1]
  | entry row => simp only [Db.share, Db.apply, owned_concat_own hw.1]
  | line row => simp only [Db.share, Db.apply, owned_concat_own hw.1]
  | invoice row => simp only [Db.share, Db.apply, owned_concat_own hw.1]
  | item row => simp only [Db.share, Db.apply, owned_concat_own hw.2]
  | payment row => simp only [Db.share, Db.apply, owned_concat_own hw.1]
  | history row => simp only [Db.share, Db.apply, owned_concat_own hw.2]
  | sequence row =>
      have hany : (owned InvoiceSequence.tenantId t db.sequences).any (fun r => r.tenantId = row.tenantId) =
          db.sequences.any fun r => r.tenantId = row.tenantId :=
        any_owned fun r _ hr => (of_decide_eq_true hr).trans hw
      simp only [Db.share, Db.apply, upsertSequence, hany]
      split
      · rw [owned_map]
        intro r _
        split
        · next hr => exact hr.symm
        · rfl
      · rw [owned_concat_own hw]
  | updateInvoice id state =>
      simp only [Db.share, Db.apply]
      rw [owned_map _ fun i _ => Invoice.tenantId_setWhere id state i]
  | linkPayment id entryId =>
      simp only [Db.share, Db.apply]
      rw [owned_map]
      intro p _
      split <;> rfl

theorem share_apply_other (hdb : db.Owned issuer) (hw : w.Of issuer u) (hne : u ≠ t) :
    (db.apply w).share issuer t = db.share issuer t := by
  cases w with
  | account row => simp only [Db.share, Db.apply, owned_concat_other (hw.1.trans_ne hne)]
  | entry row => simp only [Db.share, Db.apply, owned_concat_other (hw.1.trans_ne hne)]
  | line row => simp only [Db.share, Db.apply, owned_concat_other (hw.1.trans_ne hne)]
  | invoice row => simp only [Db.share, Db.apply, owned_concat_other (hw.1.trans_ne hne)]
  | item row => simp only [Db.share, Db.apply, owned_concat_other (hw.2.trans_ne hne)]
  | payment row => simp only [Db.share, Db.apply, owned_concat_other (hw.1.trans_ne hne)]
  | history row => simp only [Db.share, Db.apply, owned_concat_other (hw.2.trans_ne hne)]
  | sequence row =>
      have hrow : row.tenantId ≠ t := hw.trans_ne hne
      simp only [Db.share, Db.apply, upsertSequence]
      split
      · rw [owned_map_other]
        · intro r _
          split
          · next hr => exact hr.symm
          · rfl
        · intro r _ hr
          rw [if_neg fun heq => hrow (heq.symm.trans hr)]
      · rw [owned_concat_other hrow]
  | updateInvoice id state =>
      simp only [Db.share, Db.apply]
      rw [owned_map_other _ fun i _ => Invoice.tenantId_setWhere id state i]
      intro i hi ht
      rw [if_neg fun hid => hne (hw.symm.trans ((congrArg issuer hid).symm.trans ((hdb.invoices i hi).2.trans ht)))]
  | linkPayment id entryId =>
      simp only [Db.share, Db.apply]
      rw [owned_map_other]
      · intro p _
        split <;> rfl
      · intro p hp ht
        rw [if_neg fun hid => hne (hw.1.symm.trans ((congrArg issuer hid).symm.trans ((hdb.payments p hp).2.1.trans ht)))]

/-! ## The division -/

/-- All lines of an entry are its tenant's. -/
theorem entrySum_share (hdb : db.Owned issuer) {entryId : Uuid} (h : issuer entryId = t) :
    entrySum (db.share issuer t).lines entryId = entrySum db.lines entryId := by
  unfold entrySum
  show (((owned EntryLine.tenantId t db.lines).filter _).map _).sum = _
  rw [filter_owned fun l hl hid => (hdb.lines l hl).2.2.symm.trans (of_decide_eq_true hid ▸ h)]

theorem deferred_share (hdb : db.Owned issuer) {log : List Write} (hlog : ∀ w ∈ log, w.Of issuer t) :
    deferred (db.share issuer t) log = deferred db log := by
  unfold deferred
  rw [any_congr_mem]
  intro w hw
  cases w with
  | line row =>
      dsimp only
      rw [entrySum_share hdb (hlog _ hw).2.2]
  | account _ | entry _ | invoice _ | item _ | payment _ | history _ | sequence _ | updateInvoice _ _
  | linkPayment _ _ => rfl

def division (issuer : Uuid → Uuid) : Division engine Choice Uuid where
  share := Db.share issuer
  sound := Db.Owned issuer
  owns := Write.Of issuer
  supplies t c := ∀ k, issuer (c.fresh k) = t
  sound_apply := Db.Owned.apply
  share_own _ hw := share_apply_own hw
  share_other := share_apply_other
  deferred hdb hlog := deferred_share hdb hlog

end FinSight
