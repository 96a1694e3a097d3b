import FinSight.Serial.Billing
import Mathlib.Data.List.Range

/-!
# Invoice numbers

`Numbering db` : the sequence numbers of a tenant's invoices, in the order the invoices committed, are `1..n`,
where `n` is the tenant's row of `invoice_sequences`.
-/

namespace FinSight

open ReadCommitted

/-- The sequence numbers of a tenant, oldest invoice first. -/
def sequenceNumbers (db : Db) (tenantId : Uuid) : List Nat :=
  (db.invoices.filter fun i => i.tenantId = tenantId).map (·.sequenceNumber)

def lastValue (db : Db) (tenantId : Uuid) : Nat :=
  ((db.sequences.find? fun r => r.tenantId = tenantId).map (·.lastValue)).getD 0

structure Numbering (db : Db) : Prop where
  numbers : ∀ t, sequenceNumbers db t = List.range' 1 (lastValue db t)
  text : ∀ i ∈ db.invoices, i.invoiceNumber = invoiceNumber i.sequenceNumber
  sequences : (db.sequences.map (·.tenantId)).Nodup
  positive : ∀ r ∈ db.sequences, 0 < r.lastValue

theorem Numbering.empty : Numbering Db.empty :=
  ⟨fun _ => rfl, fun _ h => absurd h List.not_mem_nil, List.nodup_nil, fun _ h => absurd h List.not_mem_nil⟩

theorem Numbering.congr {db db' : Db} (h : Numbering db) (hinvoices : db'.invoices = db.invoices)
    (hsequences : db'.sequences = db.sequences) : Numbering db' where
  numbers := by
    simp only [sequenceNumbers, lastValue, hinvoices, hsequences]
    exact h.numbers
  text := hinvoices ▸ h.text
  sequences := hsequences ▸ h.sequences
  positive := hsequences ▸ h.positive

theorem sequenceNumbers_setInvoice (id : Uuid) (s : InvoiceState) (rows : List Invoice) (t : Uuid) :
    ((setInvoice id s rows).filter fun i => i.tenantId = t).map (·.sequenceNumber) =
      (rows.filter fun i => i.tenantId = t).map (·.sequenceNumber) := by
  induction rows with
  | nil => rfl
  | cons i rows ih =>
      rw [setInvoice] at ih ⊢
      rw [List.map_cons, List.filter_cons, List.filter_cons]
      by_cases hid : i.id = id
      · by_cases ht : i.tenantId = t <;> simp [hid, ht, ih]
      · by_cases ht : i.tenantId = t <;> simp [hid, ht, ih]

/-- Setting the state of an invoice does not touch its number. -/
theorem Numbering.setInvoice {db db' : Db} (h : Numbering db) {id : Uuid} {s : InvoiceState}
    (hinvoices : db'.invoices = setInvoice id s db.invoices) (hsequences : db'.sequences = db.sequences) :
    Numbering db' where
  numbers t := by
    rw [sequenceNumbers, hinvoices, sequenceNumbers_setInvoice, lastValue, hsequences]
    exact h.numbers t
  text := by
    rw [hinvoices]
    intro i hi
    obtain ⟨x, hx, rfl⟩ := List.mem_map.mp hi
    split
    · exact h.text x hx
    · exact h.text x hx
  sequences := hsequences ▸ h.sequences
  positive := hsequences ▸ h.positive

theorem find?_upsertSequence (row : InvoiceSequence) (rows : List InvoiceSequence) (t : Uuid) :
    (upsertSequence row rows).find? (fun r => r.tenantId = t) =
      if row.tenantId = t then some row else rows.find? fun r => r.tenantId = t := by
  have hmap : ∀ rows : List InvoiceSequence, (∃ r ∈ rows, r.tenantId = row.tenantId) →
      (rows.map fun r => if r.tenantId = row.tenantId then row else r).find? (fun r => r.tenantId = row.tenantId) =
        some row := by
    intro rows
    induction rows with
    | nil => simp
    | cons r rows ih =>
        intro hex
        by_cases hr : r.tenantId = row.tenantId
        · simp [hr]
        · have hex' : ∃ r ∈ rows, r.tenantId = row.tenantId := by
            obtain ⟨x, hx, hxt⟩ := hex
            rcases List.mem_cons.mp hx with rfl | hx
            · exact absurd hxt hr
            · exact ⟨x, hx, hxt⟩
          simpa [hr] using ih hex'
  have hother : ∀ rows : List InvoiceSequence, row.tenantId ≠ t →
      (rows.map fun r => if r.tenantId = row.tenantId then row else r).find? (fun r => r.tenantId = t) =
        rows.find? fun r => r.tenantId = t := by
    intro rows ht
    induction rows with
    | nil => rfl
    | cons r rows ih =>
        rw [List.map_cons, List.find?_cons, List.find?_cons, ih]
        by_cases hr : r.tenantId = row.tenantId
        · simp [hr, ht]
        · simp [hr]
  unfold upsertSequence
  by_cases ht : row.tenantId = t
  · subst ht
    rw [if_pos rfl]
    split
    · next hany => exact hmap rows (by simpa using hany)
    · next hany =>
      have hnone : rows.find? (fun r => r.tenantId = row.tenantId) = none := by simpa using hany
      simp [List.find?_append, hnone]
  · rw [if_neg ht]
    split
    · exact hother rows ht
    · simp [List.find?_append, ht]

theorem nodup_upsertSequence {row : InvoiceSequence} {rows : List InvoiceSequence}
    (h : (rows.map (·.tenantId)).Nodup) : ((upsertSequence row rows).map (·.tenantId)).Nodup := by
  unfold upsertSequence
  split
  · rw [List.map_map]
    refine (List.map_congr_left fun r _ => ?_ : _ = rows.map (·.tenantId)) ▸ h
    simp only [Function.comp_apply]
    split
    · next hr => exact hr.symm
    · rfl
  · next hany =>
    exact Keyed.nodup_concat h fun r hr heq => hany (List.any_eq_true.mpr ⟨r, hr, by simpa using heq⟩)

theorem mem_upsertSequence {row x : InvoiceSequence} {rows : List InvoiceSequence} (h : x ∈ upsertSequence row rows) :
    x = row ∨ x ∈ rows := by
  unfold upsertSequence at h
  split at h
  · obtain ⟨r, hr, rfl⟩ := List.mem_map.mp h
    split
    · exact Or.inl rfl
    · exact Or.inr hr
  · rcases List.mem_append.mp h with h | h
    · exact Or.inr h
    · exact Or.inl (List.mem_singleton.mp h)

/-- An allocation gives the number after the last one. -/
theorem Allocates.lastValue {db : Db} {t : Uuid} {row : InvoiceSequence} (h : Allocates db t row) (hn : Numbering db) :
    row.lastValue = lastValue db t + 1 := by
  rw [FinSight.lastValue]
  rcases h.2 with ⟨hone, hnone⟩ | ⟨r, hr, ht, hlast⟩
  · have hfind : db.sequences.find? (fun r => r.tenantId = t) = none := by simpa using hnone
    rw [hfind, hone]
    rfl
  · have hfind : db.sequences.find? (fun r => r.tenantId = t) = some r := by
      cases hf : db.sequences.find? fun r => r.tenantId = t with
      | none => exact absurd ht (by simpa using List.find?_eq_none.mp hf r hr)
      | some x =>
          have hx := List.find?_some hf
          rw [Keyed.eq_of_key_eq hn.sequences (List.mem_of_find?_eq_some hf) hr (by simpa [ht] using hx)]
    rw [hfind, hlast]
    rfl

/-- A new invoice takes the next number of its tenant. -/
theorem Numbering.create {db db' : Db} (h : Numbering db) {i : Invoice} {row : InvoiceSequence}
    (hrow : Allocates db i.tenantId row) (hnumber : i.sequenceNumber = row.lastValue)
    (htext : i.invoiceNumber = invoiceNumber row.lastValue) (hinvoices : db'.invoices = db.invoices ++ [i])
    (hsequences : db'.sequences = upsertSequence row db.sequences) : Numbering db' where
  numbers t := by
    rw [sequenceNumbers, lastValue, hinvoices, hsequences, find?_upsertSequence, List.filter_append, List.map_append]
    have hlast := hrow.lastValue h
    have hold := h.numbers t
    rw [sequenceNumbers] at hold
    rw [hold]
    by_cases ht : i.tenantId = t
    · subst ht
      rw [hrow.1, if_pos rfl]
      simp [hnumber, hlast, List.range'_concat, Nat.add_comm]
    · rw [hrow.1, if_neg ht]
      simp [ht, lastValue]
  text := by
    rw [hinvoices]
    intro x hx
    rcases List.mem_append.mp hx with hx | hx
    · exact h.text x hx
    · rw [List.mem_singleton.mp hx, htext, hnumber]
  sequences := hsequences ▸ nodup_upsertSequence h.sequences
  positive := by
    rw [hsequences]
    intro x hx
    rcases mem_upsertSequence hx with rfl | hx
    · have := hrow.lastValue h
      omega
    · exact h.positive x hx

end FinSight
