import FinSight.Invoices.State
import Mathlib.Data.List.Basic

/-!
# What the locks protect

* `observe ℓ db` : the part of the database that only the holder of `ℓ` changes; for an entry of a unique index,
  whether it is taken;
* `Grows` : what commits never take back;
* `Write.needs` : the locks behind a write, `observe_apply` : the others do not see it;
* `protocol`.
-/

namespace FinSight

open ReadCommitted

/-- The amounts of an invoice's payments. -/
def paidAmounts (payments : List InvoicePayment) (invoiceId : Uuid) : List Int :=
  (payments.filter fun p => p.invoiceId = invoiceId).map (·.amountMinor)

structure Observation where
  taken : Bool
  invoice : List Invoice
  amounts : List Int
  sequence : List InvoiceSequence

def Observation.key (taken : Bool) : Observation := ⟨taken, [], [], []⟩

def observe (db : Db) : Lock → Observation
  | .account id => .key (db.accounts.any fun a => a.id = id)
  | .accountName t name => .key (db.accounts.any fun a => a.tenantId = t && a.name = name)
  | .entry id => .key (db.entries.any fun e => e.id = id)
  | .entryKey t key => .key (db.entries.any fun e => e.tenantId = t && e.idempotencyKey = key)
  | .line id => .key (db.lines.any fun l => l.id = id)
  | .invoice id => ⟨false, db.invoices.filter fun i => i.id = id, paidAmounts db.payments id, []⟩
  | .invoiceNumber t number => .key (db.invoices.any fun i => i.tenantId = t && i.invoiceNumber = number)
  | .sequenceNumber t n => .key (db.invoices.any fun i => i.tenantId = t && i.sequenceNumber = n)
  | .item id => .key (db.items.any fun r => r.id = id)
  | .payment id => .key (db.payments.any fun p => p.id = id)
  | .paymentKey t key => .key (db.payments.any fun p => p.tenantId = t && p.idempotencyKey = key)
  | .history id => .key (db.history.any fun h => h.id = id)
  | .sequence t => ⟨false, [], [], db.sequences.filter fun r => r.tenantId = t⟩

/-- Rows of these tables stay, an entry's lines are fixed, an invoice keeps its id and tenant. -/
structure Grows (a b : Db) : Prop where
  accounts : a.accounts ⊆ b.accounts
  entries : a.entries ⊆ b.entries
  lines : ∀ e ∈ a.entries, b.lines.filter (·.entryId = e.id) = a.lines.filter (·.entryId = e.id)
  payments : a.payments ⊆ b.payments
  invoices : ∀ i ∈ a.invoices, ∃ j ∈ b.invoices, j.id = i.id ∧ j.tenantId = i.tenantId

theorem Grows.refl (db : Db) : Grows db db :=
  ⟨fun _ h => h, fun _ h => h, fun _ _ => rfl, fun _ h => h, fun i h => ⟨i, h, rfl, rfl⟩⟩

theorem Grows.trans {a b c : Db} (h₁ : Grows a b) (h₂ : Grows b c) : Grows a c where
  accounts := fun _ h => h₂.accounts (h₁.accounts h)
  entries := fun _ h => h₂.entries (h₁.entries h)
  lines e he := (h₂.lines e (h₁.entries he)).trans (h₁.lines e he)
  payments := fun _ h => h₂.payments (h₁.payments h)
  invoices i hi := by
    obtain ⟨j, hj, hid, ht⟩ := h₁.invoices i hi
    obtain ⟨k, hk, hid', ht'⟩ := h₂.invoices j hj
    exact ⟨k, hk, hid'.trans hid, ht'.trans ht⟩

def protocol : Protocol Db Lock where
  agree ℓ a b := observe b ℓ = observe a ℓ
  grow := Grows
  agree_refl _ _ := rfl
  agree_trans _ _ _ _ h₁ h₂ := Eq.trans h₂ h₁
  grow_refl := Grows.refl
  grow_trans := Grows.trans

abbrev Rely (locks : List Lock) (a b : Db) : Prop := protocol.Rely locks a b

/-! ## Writes -/

/-- The locks that a transaction holds when it makes a write. -/
def Write.needs : Write → List Lock
  | .account row => [.account row.id, .accountName row.tenantId row.name]
  | .entry row => [.entry row.id, .entryKey row.tenantId row.idempotencyKey]
  | .line row => [.line row.id]
  | .invoice row => [.invoice row.id, .invoiceNumber row.tenantId row.invoiceNumber,
      .sequenceNumber row.tenantId row.sequenceNumber]
  | .item row => [.item row.id]
  | .payment row => [.payment row.id, .paymentKey row.tenantId row.idempotencyKey, .invoice row.invoiceId]
  | .history row => [.history row.id]
  | .sequence row => [.sequence row.tenantId]
  | .updateInvoice id _ => [.invoice id]
  | .linkPayment _ _ => []

theorem key_append {α : Type} (rows : List α) (p : α → Bool) (row : α) (h : p row = false) :
    Observation.key ((rows ++ [row]).any p) = Observation.key (rows.any p) := by
  rw [List.any_append, List.any_cons, List.any_nil, h, Bool.or_false, Bool.or_false]

theorem key_map {α : Type} (rows : List α) (p : α → Bool) (f : α → α) (h : ∀ r, p (f r) = p r) :
    Observation.key ((rows.map f).any p) = Observation.key (rows.any p) := by
  rw [List.any_map]
  congr 2
  exact funext h

theorem pair_false {p q : Prop} [Decidable p] [Decidable q] (h : p → q → False) : (decide p && decide q) = false := by
  rw [Bool.and_eq_false_iff, decide_eq_false_iff_not, decide_eq_false_iff_not]
  by_cases hp : p
  · exact Or.inr (h hp)
  · exact Or.inl hp

theorem upsertSequence_filter (row : InvoiceSequence) (rows : List InvoiceSequence) {t : Uuid}
    (h : row.tenantId ≠ t) :
    (upsertSequence row rows).filter (fun r => r.tenantId = t) = rows.filter fun r => r.tenantId = t := by
  have hmap : ∀ rows : List InvoiceSequence,
      (rows.map fun r => if r.tenantId = row.tenantId then row else r).filter (fun r => r.tenantId = t) =
        rows.filter fun r => r.tenantId = t := by
    intro rows
    induction rows with
    | nil => rfl
    | cons r rows ih =>
        rw [List.map_cons, List.filter_cons, List.filter_cons, ih]
        by_cases hr : r.tenantId = row.tenantId
        · simp [hr, h]
        · simp [hr]
  unfold upsertSequence
  split
  · exact hmap rows
  · simp [h]

theorem updateInvoice_filter (id : Uuid) (state : InvoiceState) (rows : List Invoice) {u : Uuid} (h : id ≠ u) :
    (rows.map fun i => if i.id = id then i.set state else i).filter (fun i => i.id = u) =
      rows.filter fun i => i.id = u := by
  induction rows with
  | nil => rfl
  | cons i rows ih =>
      rw [List.map_cons, List.filter_cons, List.filter_cons, ih]
      by_cases hid : i.id = id
      · have hu : i.id ≠ u := fun hu => h (hid ▸ hu)
        simp [hid, h, Invoice.set]
      · simp [hid]

theorem paidAmounts_link (id entryId u : Uuid) (rows : List InvoicePayment) :
    paidAmounts (rows.map fun p => if p.id = id then { p with journalEntryId := some entryId } else p) u =
      paidAmounts rows u := by
  induction rows with
  | nil => rfl
  | cons p rows ih =>
      unfold paidAmounts at ih ⊢
      rw [List.map_cons, List.filter_cons, List.filter_cons]
      by_cases hid : p.id = id
      · by_cases hu : p.invoiceId = u <;> simp [hid, hu, ih]
      · by_cases hu : p.invoiceId = u <;> simp [hid, hu, ih]

/-- A write is invisible to the holders of locks that it does not need. -/
theorem observe_apply (db : Db) (w : Write) (ℓ : Lock) (h : ℓ ∉ w.needs) : observe (db.apply w) ℓ = observe db ℓ := by
  cases w with
  | account row =>
      cases ℓ with
      | account id => exact key_append _ _ _ (decide_eq_false fun hid => h (by simp [Write.needs, hid]))
      | accountName t name => exact key_append _ _ _ (pair_false fun ht hn => h (by simp [Write.needs, ht, hn]))
      | _ => rfl
  | entry row =>
      cases ℓ with
      | entry id => exact key_append _ _ _ (decide_eq_false fun hid => h (by simp [Write.needs, hid]))
      | entryKey t key => exact key_append _ _ _ (pair_false fun ht hk => h (by simp [Write.needs, ht, hk]))
      | _ => rfl
  | line row =>
      cases ℓ with
      | line id => exact key_append _ _ _ (decide_eq_false fun hid => h (by simp [Write.needs, hid]))
      | _ => rfl
  | invoice row =>
      cases ℓ with
      | invoice id =>
          have hid : row.id ≠ id := fun hid => h (by simp [Write.needs, hid])
          simp [observe, Db.apply, hid]
      | invoiceNumber t number => exact key_append _ _ _ (pair_false fun ht hn => h (by simp [Write.needs, ht, hn]))
      | sequenceNumber t n => exact key_append _ _ _ (pair_false fun ht hn => h (by simp [Write.needs, ht, hn]))
      | _ => rfl
  | item row =>
      cases ℓ with
      | item id => exact key_append _ _ _ (decide_eq_false fun hid => h (by simp [Write.needs, hid]))
      | _ => rfl
  | payment row =>
      cases ℓ with
      | invoice id =>
          have hid : row.invoiceId ≠ id := fun hid => h (by simp [Write.needs, hid])
          simp [observe, Db.apply, paidAmounts, hid]
      | payment id => exact key_append _ _ _ (decide_eq_false fun hid => h (by simp [Write.needs, hid]))
      | paymentKey t key => exact key_append _ _ _ (pair_false fun ht hk => h (by simp [Write.needs, ht, hk]))
      | _ => rfl
  | history row =>
      cases ℓ with
      | history id => exact key_append _ _ _ (decide_eq_false fun hid => h (by simp [Write.needs, hid]))
      | _ => rfl
  | sequence row =>
      cases ℓ with
      | sequence t =>
          have ht : row.tenantId ≠ t := fun ht => h (by simp [Write.needs, ht])
          simp only [observe, Db.apply, upsertSequence_filter row db.sequences ht]
      | _ => rfl
  | updateInvoice id state =>
      cases ℓ with
      | invoice u =>
          have hid : id ≠ u := fun hid => h (by simp [Write.needs, hid])
          simp only [observe, Db.apply, updateInvoice_filter id state db.invoices hid]
      | invoiceNumber t number => exact key_map _ _ _ fun r => by split <;> rfl
      | sequenceNumber t n => exact key_map _ _ _ fun r => by split <;> rfl
      | _ => rfl
  | linkPayment id entryId =>
      cases ℓ with
      | invoice u => simp only [observe, Db.apply, paidAmounts_link]
      | payment u => exact key_map _ _ _ fun r => by split <;> rfl
      | paymentKey t key => exact key_map _ _ _ fun r => by split <;> rfl
      | _ => rfl

/-- Every write of a log has its locks. -/
def Covered (log : List Write) (locks : List Lock) : Prop := ∀ w ∈ log, ∀ ℓ ∈ w.needs, ℓ ∈ locks

theorem observe_view {log : List Write} {locks : List Lock} (h : Covered log locks) (db : Db) {ℓ : Lock}
    (hℓ : ℓ ∉ locks) : observe (engine.view log db) ℓ = observe db ℓ := by
  induction log generalizing db with
  | nil => rfl
  | cons w log ih =>
      have hw : ℓ ∉ w.needs := fun hn => hℓ (h w List.mem_cons_self ℓ hn)
      rw [show engine.view (w :: log) db = engine.view log (db.apply w) from rfl,
        ih (fun w' hw' => h w' (List.mem_cons_of_mem _ hw')) (db.apply w), observe_apply db w ℓ hw]

/-- What a transaction owes the others when it commits. -/
theorem guarantee_of_covered {log : List Write} {locks : List Lock} {db : Db} (h : Covered log locks)
    (hgrow : Grows db (engine.view log db)) : protocol.Guarantee locks db (engine.view log db) :=
  ⟨hgrow, fun _ hℓ => observe_view h db hℓ⟩

end FinSight
