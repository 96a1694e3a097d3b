import FinSight.Documents.Listing
import FinSight.Guarantees.Cursors
import FinSight.Invoices.Listing
import FinSight.Ledger.Listing
import FinSight.ReadCommitted.Alone

/-!
# The lists are complete

The calls of a client who follows `nextCursor`, each on the tables of its time.

* `decodeCursor_encode`, `decodeSequenceCursor_encode` : the cursor of a row is read as the key of the row;
* `entries_traversed`, `invoices_traversed`, `documents_traversed` : the client sees every row that stays and matches,
  once, in decreasing order of the key, and comes to an end.
-/

namespace FinSight

open ReadCommitted Keyset

/-! ## Cursors of rows -/

theorem isPlain_isoString (d : Date) : ∀ u ∈ d.isoString, IsPlain u := by
  have hmarks : ∀ u ∈ text "-+:.TZ", IsPlain u := by decide
  intro u hu
  rcases Date.isIso_isoString d u hu with hdigit | hmark
  · rw [isPlain_iff]
    exact Or.inl (hdigit.2.trans_lt (by decide))
  · exact hmarks u hmark

theorem bar_not_mem_isoString (d : Date) : unit '|' ∉ d.isoString :=
  fun h => absurd (Date.isIso_isoString d _ h) (by rw [Date.IsIso]; decide)

theorem Uuid.text_ne_nil (u : Uuid) : u.text ≠ [] := fun h => by
  have hlength := u.spelled.length_text
  rw [← Uuid.text, h] at hlength
  cases hlength

/-- Keys that end in the id. -/
theorem keys_nodup {ρ : Type} {columns : ρ → Uuid × Lex (Timestamp × Nat)}
    (hkey : ∀ r, (ofLex (columns r).2).2 = (columns r).1.rank) {table rows : List ρ}
    (hids : (table.map fun r => (columns r).1).Nodup) (hsub : rows.Sublist table) : (rows.map (keyOf columns)).Nodup := by
  refine List.pairwise_map.mpr ((List.pairwise_map.mp (hids.sublist (hsub.map _))).imp fun {a b} hne hsame => hne ?_)
  apply Uuid.rank_injective
  rw [← hkey, ← hkey]
  exact congrArg (fun x => (ofLex x).2) hsame

variable (B : Buffers) (P : DateParser)

theorem decodeCursor_encode {d : Date} (hd : d.Valid) (u : Uuid) :
    Cursor.decodeCursor B P (Cursor.encodeCursor B ⟨d, u.text⟩) = some ⟨d, u.text⟩ ∧
      Cursor.encodeCursor B ⟨d, u.text⟩ ≠ [] := by
  have hwf : isWellFormed (d.isoString ++ unit '|' :: u.text) = true :=
    isWellFormed_plain (List.forall_mem_append.mpr
      ⟨isPlain_isoString d, List.forall_mem_cons.mpr ⟨by decide, Cursor.isPlain_uuid u⟩⟩)
  refine ⟨?_, B.encode_ne_nil _ hwf (by simp)⟩
  rw [Cursor.decodeCursor, Cursor.encodeCursor, B.decode_encode _ hwf,
    Cursor.splitOn_bar (bar_not_mem_isoString d) (Cursor.bar_not_mem_uuid u)]
  dsimp only
  rw [P.parse_isoString d hd, Option.bind_some, if_neg u.text_ne_nil]

theorem decodeSequenceCursor_encode (n : Nat) :
    Cursor.decodeSequenceCursor B (Cursor.encodeSequenceCursor B n) = some (n : Int) ∧
      Cursor.encodeSequenceCursor B n ≠ [] := by
  have hdigits : ∀ u ∈ decimal n, IsDigit u := fun u => isDigit_of_mem_decimal
  have hwf : isWellFormed (decimal n) = true :=
    isWellFormed_plain fun u hu => isPlain_iff.mpr (Or.inl ((hdigits u hu).2.trans_lt (by decide)))
  have htext : decimalInt n = decimal n := rfl
  refine ⟨?_, B.encode_ne_nil _ hwf (decimal_ne_nil n)⟩
  rw [Cursor.decodeSequenceCursor, Cursor.encodeSequenceCursor, htext, B.decode_encode _ hwf]
  rw [if_pos ⟨decimal_ne_nil n, hdigits⟩, decimalValue_decimal]

theorem decodeTimestampCursor_encode {zone : Zone} {t : Timestamp} (u : Uuid)
    (hyear : 1 ≤ yearIn zone t ∧ yearIn zone t ≤ 9999) :
    Cursor.decodeTimestampCursor B (Cursor.encodeTimestampCursor B ⟨timestamptzOut zone t, u.text⟩) =
        some ⟨timestamptzOut zone t, u.text⟩ ∧
      Cursor.encodeTimestampCursor B ⟨timestamptzOut zone t, u.text⟩ ≠ [] := by
  exact ⟨Cursor.decode_encodeTimestampCursor B u hyear,
    B.encode_ne_nil _ (Cursor.isWellFormed_documentKey zone t u) (by simp)⟩

/-! ## Entries -/

section
variable (db : ℕ → Db) (now : ℕ → Nat) (choices : ℕ → ℕ → Choice) (q : EntryQuery)

/-- Call `n` of `listEntries` with a cursor returns items and the next cursor. -/
def EntryCalls (n : ℕ) (cursor : Option Text) (items : List EntryView) (next : Option Text) : Prop :=
  ((listEntries B P { q with cursor }).alone engine (now n) (db n) [] (choices n)).1 = .ok ⟨items, next⟩

/-- Identity and key of an entry. -/
def entryColumns (e : JournalEntry) : Uuid × Lex (Timestamp × Nat) := (e.id, entryKey e)

variable {B P} in
theorem listEntries_alone {q : EntryQuery} {after : Option Cursor.EntryKey}
    (hread : readCursor (Cursor.decodeCursor B P) q.cursor = some after) {now : Nat} {db : Db} {choices : ℕ → Choice}
    {rows : List JournalEntry} (hrows : selectEntriesPage q after ⟨now, choices 0⟩ db = .done rows [] [] []) :
    ∃ items, items.map (·.entry) = page q.limit.value rows ∧
      ((listEntries B P q).alone engine now db [] choices).1 =
        .ok ⟨items, next q.limit.value (encodeEntryCursor B) rows⟩ := by
  rw [listEntries, hread]
  dsimp only
  rw [Program.alone_statement hrows]
  have hview : ∀ lines, ((page q.limit.value rows).map (entryView lines)).map (·.entry) = page q.limit.value rows := by
    intro lines
    rw [List.map_map]
    exact List.map_id _
  by_cases hempty : page q.limit.value rows = []
  · rw [if_pos hempty]
    exact ⟨_, hview [], rfl⟩
  · rw [if_neg hempty, Program.alone_statement rfl]
    exact ⟨_, hview _, rfl⟩

theorem entries_serves (hms : ∀ n, ∀ e ∈ (db n).entries, ∃ d : Date, d.Valid ∧ e.occurredAt = d.timestamp) :
    Serves entryColumns (fun v => entryColumns v.entry) q.limit.value (fun _ => encodeEntryCursor B)
      (fun n => (db n).entries.filter (q.admits (db n))) (EntryCalls B P db now choices q) := by
  intro n c k hnames
  obtain ⟨after, hread, hrows⟩ : ∃ after, readCursor (Cursor.decodeCursor B P) c = some after ∧
      selectEntriesPage { q with cursor := c } after ⟨now n, choices n 0⟩ (db n) =
        .done (probe entryKey q.limit.value k ((db n).entries.filter (q.admits (db n)))) [] [] [] := by
    cases hnames with
    | start => exact ⟨none, rfl, rfl⟩
    | after m hr =>
        rename_i r
        obtain ⟨d, hvalid, hd⟩ := hms m r (List.mem_of_mem_filter hr)
        have hdate : Date.ofTimestamp r.occurredAt = d := by
          rw [hd, Date.timestamp, Date.ofTimestamp, Int.mul_ediv_cancel _ (by decide)]
        obtain ⟨hdecode, hne⟩ := decodeCursor_encode B P (hdate ▸ hvalid : (Date.ofTimestamp r.occurredAt).Valid) r.id
        refine ⟨_, readCursor_some hne hdecode, ?_⟩
        have hinstant : (Date.ofTimestamp r.occurredAt).timestamp = r.occurredAt := by rw [hdate, hd]
        rw [selectEntriesPage]
        dsimp only
        rw [uuidIn_text, hinstant]
        rfl
  obtain ⟨items, hitems, hreturns⟩ := listEntries_alone (q := { q with cursor := c }) hread hrows
  refine ⟨items, ?_, hreturns⟩
  have hcolumns := congrArg (List.map entryColumns) hitems
  rwa [List.map_map] at hcolumns

/-- **`listEntries` is complete.** -/
theorem entries_traversed (hms : ∀ n, ∀ e ∈ (db n).entries, ∃ d : Date, d.Valid ∧ e.occurredAt = d.timestamp)
    (hgrows : Grows entryColumns fun n => (db n).entries) :
    ∃ pages, Follows (EntryCalls B P db now choices q) 0 none pages ∧
      Traversed entryColumns (fun v => entryColumns v.entry) (fun n => (db n).entries.filter (q.admits (db n))) pages := by
  refine exists_traversed q.limit.valid.1 hgrows (fun n => List.filter_subset_self _) (fun n => ?_)
    (entries_serves B P db now choices q hms)
  exact keys_nodup (fun e => rfl) (hgrows.unique n) List.filter_sublist

end

/-! ## Invoices -/

section
variable (db : ℕ → Db) (now : ℕ → Nat) (choices : ℕ → ℕ → Choice) (q : InvoiceQuery)

/-- Call `n` of `listInvoices` with a cursor returns items and the next cursor. -/
def InvoiceCalls (n : ℕ) (cursor : Option Text) (items : List InvoiceRow) (next : Option Text) : Prop :=
  ((listInvoices B { q with cursor }).alone engine (now n) (db n) [] (choices n)).1 = .ok ⟨items, next⟩

/-- Identity and key of an invoice. -/
def invoiceColumns (i : Invoice) : Uuid × Int := (i.id, invoiceKey i)

variable {B} in
theorem listInvoices_alone {q : InvoiceQuery} {after : Option Int}
    (hread : readCursor (Cursor.decodeSequenceCursor B) q.cursor = some after) {now : Nat} {db : Db} {choices : ℕ → Choice}
    {rows : List Invoice} (hrows : selectInvoicesPage q after ⟨now, choices 0⟩ db = .done rows [] [] []) :
    ∃ items, items.map (·.invoice) = page q.limit.value rows ∧
      ((listInvoices B q).alone engine now db [] choices).1 =
        .ok ⟨items, next q.limit.value (fun i => Cursor.encodeSequenceCursor B i.sequenceNumber) rows⟩ := by
  rw [listInvoices, hread]
  dsimp only
  rw [Program.alone_statement hrows]
  by_cases hempty : page q.limit.value rows = []
  · rw [if_pos hempty]
    refine ⟨_, ?_, rfl⟩
    rw [List.map_map]
    exact List.map_id _
  · rw [if_neg hempty, Program.alone_statement rfl]
    refine ⟨_, ?_, rfl⟩
    rw [List.map_map]
    exact List.map_id _

theorem invoices_serves (hrange : ∀ n, ∀ i ∈ (db n).invoices, inInt8 i.sequenceNumber = true) :
    Serves invoiceColumns (fun v => invoiceColumns v.invoice) q.limit.value
      (fun _ i => Cursor.encodeSequenceCursor B i.sequenceNumber)
      (fun n => (db n).invoices.filter q.admits) (InvoiceCalls B db now choices q) := by
  intro n c k hnames
  obtain ⟨after, hread, hrows⟩ : ∃ after, readCursor (Cursor.decodeSequenceCursor B) c = some after ∧
      selectInvoicesPage { q with cursor := c } after ⟨now n, choices n 0⟩ (db n) =
        .done (probe invoiceKey q.limit.value k ((db n).invoices.filter q.admits)) [] [] [] := by
    cases hnames with
    | start => exact ⟨none, rfl, rfl⟩
    | after m hr =>
        rename_i r
        obtain ⟨hdecode, hne⟩ := decodeSequenceCursor_encode B r.sequenceNumber
        refine ⟨_, readCursor_some hne hdecode, ?_⟩
        have hfits := hrange m r (List.mem_of_mem_filter hr)
        rw [selectInvoicesPage, Sql.checked_of_all]
        · rfl
        · simpa using hfits
  obtain ⟨items, hitems, hreturns⟩ := listInvoices_alone (q := { q with cursor := c }) hread hrows
  refine ⟨items, ?_, hreturns⟩
  have hcolumns := congrArg (List.map invoiceColumns) hitems
  rwa [List.map_map] at hcolumns

/-- **`listInvoices` is complete.** -/
theorem invoices_traversed (hrange : ∀ n, ∀ i ∈ (db n).invoices, inInt8 i.sequenceNumber = true)
    (hnumbers : ∀ n, ((db n).invoices.map fun i => (i.tenantId, i.sequenceNumber)).Nodup)
    (hgrows : Grows invoiceColumns fun n => (db n).invoices) :
    ∃ pages, Follows (InvoiceCalls B db now choices q) 0 none pages ∧
      Traversed invoiceColumns (fun v => invoiceColumns v.invoice) (fun n => (db n).invoices.filter q.admits) pages := by
  refine exists_traversed q.limit.valid.1 hgrows (fun n => List.filter_subset_self _) (fun n => ?_)
    (invoices_serves B db now choices q hrange)
  have htenant : ∀ i ∈ (db n).invoices.filter q.admits, i.tenantId = q.tenantId := by
    intro i hi
    have hadmits := (List.mem_filter.mp hi).2
    rw [InvoiceQuery.admits, Bool.and_eq_true, Bool.and_eq_true] at hadmits
    exact of_decide_eq_true hadmits.1.1
  have hnumbers := (hnumbers n).sublist (List.filter_sublist (p := q.admits) |>.map _)
  refine List.pairwise_map.mpr ((List.pairwise_map.mp hnumbers).imp_of_mem fun {a b} ha hb hne hkey => hne ?_)
  exact Prod.ext ((htenant a ha).trans (htenant b hb).symm) (Int.ofNat_inj.mp hkey)

end

/-! ## Documents -/

section
open Documents
variable (zone : ℕ → Zone) (db : ℕ → Documents.Db) (now : ℕ → Nat) (choices : ℕ → ℕ → Choice)
  (q : DocumentQuery)

/-- Call `n` of `listDocuments` with a cursor, in a session's time zone, returns items and the next cursor. -/
def DocumentCalls (n : ℕ) (cursor : Option Text) (items : List DocumentRow) (next : Option Text) : Prop :=
  ((listDocuments B (zone n) { q with cursor }).alone Documents.engine (now n) (db n) [] (choices n)).1 = .ok ⟨items, next⟩

/-- Identity and key of a document. -/
def documentColumns (d : Document) : Uuid × Lex (Timestamp × Nat) := (d.id, documentKey d)

/-- And of a listed document. -/
def rowColumns (d : DocumentRow) : Uuid × Lex (Timestamp × Nat) := (d.id, toLex (d.createdAt, d.id.rank))

theorem documents_serves
    (hyears : ∀ m n, ∀ d ∈ (db n).documents, 1 ≤ yearIn (zone m) d.createdAt ∧ yearIn (zone m) d.createdAt ≤ 9999) :
    Serves documentColumns rowColumns q.limit.value (fun n => encodeDocumentCursor B (zone n))
      (fun n => (db n).documents.filter q.admits) (DocumentCalls B zone db now choices q) := by
  intro n c k hnames
  obtain ⟨after, hread, hrows⟩ : ∃ after, readCursor (Cursor.decodeTimestampCursor B) c = some after ∧
      selectDocumentsPage { q with cursor := c } after ⟨now n, choices n 0⟩ (db n) =
        .done (probe documentKey q.limit.value k ((db n).documents.filter q.admits)) [] [] [] := by
    cases hnames with
    | start => exact ⟨none, rfl, rfl⟩
    | after m hr =>
        rename_i r
        have hyear := hyears m m r (List.mem_of_mem_filter hr)
        obtain ⟨hdecode, hne⟩ := decodeTimestampCursor_encode B r.id hyear
        refine ⟨_, readCursor_some hne hdecode, ?_⟩
        rw [selectDocumentsPage]
        dsimp only
        rw [timestamptzIn_out hyear, uuidIn_text]
        rfl
  refine ⟨(page q.limit.value (probe documentKey q.limit.value k ((db n).documents.filter q.admits))).map Document.row,
    ?_, ?_⟩
  · rw [List.map_map]
    rfl
  · rw [DocumentCalls, listDocuments, hread]
    dsimp only
    rw [Program.alone_statement hrows]
    rfl

/-- **`listDocuments` is complete.** -/
theorem documents_traversed
    (hyears : ∀ m n, ∀ d ∈ (db n).documents, 1 ≤ yearIn (zone m) d.createdAt ∧ yearIn (zone m) d.createdAt ≤ 9999)
    (hgrows : Grows documentColumns fun n => (db n).documents) :
    ∃ pages, Follows (DocumentCalls B zone db now choices q) 0 none pages ∧
      Traversed documentColumns rowColumns (fun n => (db n).documents.filter q.admits) pages := by
  refine exists_traversed q.limit.valid.1 hgrows (fun n => List.filter_subset_self _) (fun n => ?_)
    (documents_serves B zone db now choices q hyears)
  exact keys_nodup (fun d => rfl) (hgrows.unique n) List.filter_sublist

end

/-! ## The three lists -/

/-- **The lists are complete**, whatever is inserted between the calls: a client who follows the cursors comes to an end,
in decreasing order of the keys, and sees no row twice and every row that stays and matches. -/
theorem lists_traversed (B : Buffers) (P : DateParser) (db : ℕ → Db) (docs : ℕ → Documents.Db) (zone : ℕ → Zone)
    (now : ℕ → Nat) (choices : ℕ → ℕ → Choice) (entries : EntryQuery) (invoices : InvoiceQuery)
    (documents : Documents.DocumentQuery)
    (hentries : Grows entryColumns fun n => (db n).entries)
    (hms : ∀ n, ∀ e ∈ (db n).entries, ∃ d : Date, d.Valid ∧ e.occurredAt = d.timestamp)
    (hinvoices : Grows invoiceColumns fun n => (db n).invoices)
    (hnumbers : ∀ n, ((db n).invoices.map fun i => (i.tenantId, i.sequenceNumber)).Nodup)
    (hrange : ∀ n, ∀ i ∈ (db n).invoices, inInt8 i.sequenceNumber = true)
    (hdocuments : Grows documentColumns fun n => (docs n).documents)
    (hyears : ∀ m n, ∀ d ∈ (docs n).documents, 1 ≤ yearIn (zone m) d.createdAt ∧ yearIn (zone m) d.createdAt ≤ 9999) :
    (∃ pages, Follows (EntryCalls B P db now choices entries) 0 none pages ∧
      Traversed entryColumns (fun v => entryColumns v.entry)
        (fun n => (db n).entries.filter (entries.admits (db n))) pages) ∧
    (∃ pages, Follows (InvoiceCalls B db now choices invoices) 0 none pages ∧
      Traversed invoiceColumns (fun v => invoiceColumns v.invoice)
        (fun n => (db n).invoices.filter invoices.admits) pages) ∧
    ∃ pages, Follows (DocumentCalls B zone docs now choices documents) 0 none pages ∧
      Traversed documentColumns rowColumns (fun n => (docs n).documents.filter documents.admits) pages :=
  ⟨entries_traversed B P db now choices entries hms hentries,
    invoices_traversed B db now choices invoices hrange hnumbers hinvoices,
    documents_traversed B zone docs now choices documents hyears hdocuments⟩

/-! ## Rows that come between the calls -/

namespace Listed

def tenant : Uuid := ⟨0⟩

def entry (n : Nat) (occurredAt : Timestamp) : JournalEntry := ⟨⟨BitVec.ofNat 128 n⟩, tenant, [], occurredAt, 0, [], [], none⟩

def invoice (n : Nat) : Invoice :=
  ⟨⟨BitVec.ofNat 128 n⟩, tenant, [], n, [], .draft, [], none, none, 5, none, 0, 0⟩

def document (n : Nat) (createdAt : Timestamp) : Documents.Document :=
  ⟨⟨BitVec.ofNat 128 n⟩, tenant, none, [], .pending, none, none, createdAt, 0⟩

/-- Two entries of one instant; after the first call there are an earlier and a later one. -/
def entries : ℕ → List JournalEntry
  | 0 => [entry 1 0, entry 2 0]
  | _ + 1 => [entry 1 0, entry 2 0, entry 3 (-1000), entry 4 1000]

def invoices : ℕ → List Invoice
  | 0 => [invoice 1, invoice 2]
  | _ + 1 => [invoice 1, invoice 2, invoice 3]

def documents : ℕ → List Documents.Document
  | 0 => [document 1 0, document 2 5]
  | _ + 1 => [document 1 0, document 2 5, document 3 7]

def db (n : ℕ) : Db := { Db.empty with entries := entries n, invoices := invoices n }

def docs (n : ℕ) : Documents.Db := ⟨documents n, [], []⟩

/-- One row on a page. -/
def one : PageLimit := ⟨1, by decide⟩

def zone : ℕ → Zone := fun _ => ⟨3600, by decide⟩

def entryQuery : EntryQuery := ⟨tenant, one, none, none, none, none⟩

def invoiceQuery : InvoiceQuery := ⟨tenant, one, none, none, none⟩

def documentQuery : Documents.DocumentQuery := ⟨tenant, one, none, none⟩

theorem entries_sublist (n : ℕ) : (entries n).Sublist (entries 1) := by
  cases n <;> simp [entries]

theorem invoices_sublist (n : ℕ) : (invoices n).Sublist (invoices 1) := by
  cases n <;> simp [invoices]

theorem documents_sublist (n : ℕ) : (documents n).Sublist (documents 1) := by
  cases n <;> simp [documents]

theorem occurredAt_entries (n : ℕ) : ∀ e ∈ entries n, ∃ d : Date, d.Valid ∧ e.occurredAt = d.timestamp := by
  intro e he
  have hall : ∀ e ∈ entries 1, (Date.ofTimestamp e.occurredAt).Valid ∧
      e.occurredAt = (Date.ofTimestamp e.occurredAt).timestamp := by decide
  exact ⟨_, hall e ((entries_sublist n).subset he)⟩

end Listed

open Listed in
theorem lists_traversed_listed :
    (∃ pages, Follows (EntryCalls .node .iso db 0 (fun _ _ => ⟨fun _ => tenant, []⟩) entryQuery) 0 none pages ∧
      Traversed entryColumns (fun v => entryColumns v.entry)
        (fun n => (entries n).filter (entryQuery.admits (db n))) pages) ∧
    (∃ pages, Follows (InvoiceCalls .node db 0 (fun _ _ => ⟨fun _ => tenant, []⟩) invoiceQuery) 0 none pages ∧
      Traversed invoiceColumns (fun v => invoiceColumns v.invoice) (fun n => (invoices n).filter invoiceQuery.admits) pages) ∧
    ∃ pages, Follows (DocumentCalls .node zone docs 0 (fun _ _ => ⟨fun _ => tenant, []⟩) documentQuery) 0 none pages ∧
      Traversed documentColumns rowColumns (fun n => (documents n).filter documentQuery.admits) pages := by
  refine lists_traversed .node .iso db docs zone 0 (fun _ _ => ⟨fun _ => tenant, []⟩) entryQuery invoiceQuery documentQuery
    (.of_sublist (by decide) entries_sublist) occurredAt_entries (.of_sublist (by decide) invoices_sublist)
    (fun n => ?_) (fun n => ?_) (.of_sublist (by decide) documents_sublist) (fun m n d hd => ?_)
  · exact List.Nodup.sublist ((invoices_sublist n).map _) (by decide)
  · have hall : ∀ i ∈ invoices 1, inInt8 i.sequenceNumber = true := by decide
    exact fun i hi => hall i ((invoices_sublist n).subset hi)
  · have hall : ∀ d ∈ documents 1, 1 ≤ yearIn (zone 0) d.createdAt ∧ yearIn (zone 0) d.createdAt ≤ 9999 := by decide
    exact hall d ((documents_sublist n).subset hd)

end FinSight
