import FinSight.Serial.Commit

/-!
# What the statements give

One rule for each statement that writes or locks, and `Spec.read` for the others: what is known at the commit
database `fin` when the program goes on. A lock taken by a statement keeps what the statement saw.
-/

namespace FinSight

open ReadCommitted Sql

variable {α β : Type} {now : Nat} {fin : Db} {A : Tx β → Db → Prop} {Q : β → Db → List Write → List Lock → Prop}
  {F : Failure → List Write → List Lock → Prop} {prev : Db} {log : List Write} {locks : List Lock}

/-- The ends of a program of this system. -/
abbrev Spec (now : Nat) (fin : Db) (A : Tx β → Db → Prop) (Q : β → Db → List Write → List Lock → Prop)
    (F : Failure → List Write → List Lock → Prop) (p : Tx β) (prev : Db) (log : List Write) (locks : List Lock) : Prop :=
  p.Meets engine protocol now fin A Q F prev log locks

/-- The ends of a program after a reply. -/
abbrev Continues (now : Nat) (fin : Db) (A : Tx β → Db → Prop) (Q : β → Db → List Write → List Lock → Prop)
    (F : Failure → List Write → List Lock → Prop) (k : α → Tx β) (db : Db) (log : List Write) (locks : List Lock)
    (reply : Reply Write Lock Failure α) : Prop :=
  ReadCommitted.Continues engine protocol now fin A Q F k db log locks reply

theorem Spec.statement {s : Stmt α} {k : α → Tx β}
    (h : ∀ db c, Rely locks prev db → Rely locks db fin → A (.call s k) db →
      Continues now fin A Q F k db log locks (s ⟨now, c⟩ (engine.view log db))) :
    Spec now fin A Q F (Program.statement s >>= k) prev log locks := Program.Meets.call h

/-- A statement that fails, fails in one of its checks. -/
theorem Continues.failing {checks : List (Bool × SqlState)} {reply : Reply Write Lock Failure α} {k : α → Tx β} {db : Db}
    (hsql : ∀ s, (false, s) ∈ checks → F (.sql s) log locks)
    (h : (∀ c ∈ checks, c.1 = true) → Continues now fin A Q F k db log locks reply) :
    Continues now fin A Q F k db log locks (checked checks reply) := continues_checked hsql h

theorem Continues.checked {checks : List (Bool × SqlState)} {reply : Reply Write Lock Failure α} {k : α → Tx β} {db : Db}
    (hsql : ∀ s, F (.sql s) log locks)
    (h : (∀ c ∈ checks, c.1 = true) → Continues now fin A Q F k db log locks reply) :
    Continues now fin A Q F k db log locks (checked checks reply) :=
  Continues.failing (fun s _ => hsql s) h

theorem Continues.done {r : α} {waits : List Lock} {k : α → Tx β} {db : Db}
    (h : Spec now fin A Q F (k r) db log locks) : Continues now fin A Q F k db log locks (.done r [] [] waits) :=
  ReadCommitted.Continues.done h

theorem Spec.done {a : β} {log' : List Write} (hlog : log = log') (h : Q a prev log' locks) :
    Spec now fin A Q F (pure a) prev log locks := hlog ▸ h

theorem Spec.ite {c : Prop} [Decidable c] {p q : Tx β} (ht : c → Spec now fin A Q F p prev log locks)
    (hf : ¬ c → Spec now fin A Q F q prev log locks) :
    Spec now fin A Q F (if c then p else q) prev log locks := Program.Meets.ite ht hf

/-- A statement that only reads. -/
theorem Spec.read {s : Stmt α} {f : Context Choice → Db → α} (hs : ∀ ctx db, s ctx db = .done (f ctx db) [] [] [])
    {k : α → Tx β}
    (h : ∀ db c, Rely locks prev db → Rely locks db fin → A (.call s k) db →
      Spec now fin A Q F (k (f ⟨now, c⟩ (engine.view log db))) db log locks) :
    Spec now fin A Q F (Program.statement s >>= k) prev log locks := by
  refine Spec.statement fun db c h₁ h₂ hA => ?_
  rw [hs]
  exact Continues.done (h db c h₁ h₂ hA)

/-! ## Locks and what was seen -/

theorem taken_eq {ls : List Lock} {db : Db} (h : Rely ls db fin) {ℓ : Lock} (hℓ : ℓ ∈ ls) :
    (observe fin ℓ).taken = (observe db ℓ).taken := congrArg Observation.taken (h.agree ℓ hℓ)

/-- A locked index entry that was free stays free. -/
theorem free_of_rely {γ : Type} {ls : List Lock} {db : Db} (h : Rely ls db fin) (ℓ : Lock) (hℓ : ℓ ∈ ls)
    (rows rows' : List γ) (p : γ → Bool) (hdb : (observe db ℓ).taken = rows.any p)
    (hfin : (observe fin ℓ).taken = rows'.any p) (hfree : ∀ r ∈ rows, p r = false) : ∀ r ∈ rows', p r = false := by
  have hnone : rows.any p = false := List.any_eq_false.mpr fun r hr => by simp [hfree r hr]
  have heq := taken_eq h hℓ
  rw [hfin, hdb, hnone] at heq
  intro r hr
  simpa using List.any_eq_false.mp heq r hr

/-- The rows that a locked invoice id names. -/
theorem invoice_eq {ls : List Lock} {db : Db} (h : Rely ls db fin) {id : Uuid} (hℓ : Lock.invoice id ∈ ls) :
    fin.invoices.filter (fun i => i.id = id) = db.invoices.filter (fun i => i.id = id) :=
  congrArg Observation.invoice (h.agree _ hℓ)

theorem mem_of_locked {ls : List Lock} {db : Db} (h : Rely ls db fin) {i : Invoice} (hℓ : Lock.invoice i.id ∈ ls) :
    i ∈ fin.invoices ↔ i ∈ db.invoices := by
  have hmem : ∀ d : Db, i ∈ d.invoices ↔ i ∈ d.invoices.filter fun x => x.id = i.id := by simp
  rw [hmem fin, hmem db, invoice_eq h hℓ]

theorem paid_eq {ls : List Lock} {db : Db} (h : Rely ls db fin) {id : Uuid} (hℓ : Lock.invoice id ∈ ls) :
    paidMinor fin id = paidMinor db id :=
  congrArg List.sum (congrArg Observation.amounts (h.agree _ hℓ))

/-! ## Rules -/

/-- Writes that leave the ledger as it is. -/
def LedgerFree (log : List Write) : Prop :=
  ∀ db, (engine.view log db).accounts = db.accounts ∧ (engine.view log db).entries = db.entries ∧
    (engine.view log db).lines = db.lines

theorem Spec.insertAccount {tenantId : Uuid} {name currency : Text} {type : AccountType} {k : Account → Tx β}
    (hlog : LedgerFree log) (hsql : ∀ s, F (.sql s) log locks)
    (hnew : ∀ db row, Rely locks prev db → row.tenantId = tenantId → row.type = type →
      (∀ a ∈ fin.accounts, a.id ≠ row.id) →
      Spec now fin A Q F (k row) db (log ++ [.account row])
        (locks ++ [.account row.id, .accountName row.tenantId row.name])) :
    Spec now fin A Q F (Program.statement (Sql.insertAccount tenantId name type currency) >>= k) prev log locks := by
  refine Spec.statement fun db c h₁ h₂ hA => Continues.checked hsql fun hall hl => ?_
  refine hnew db _ h₁ rfl rfl ?_
  have hunique := hall _ (List.mem_cons_of_mem _ (List.mem_cons_of_mem _ (List.mem_cons_of_mem _ List.mem_cons_self)))
  rw [(hlog db).1] at hunique
  have hfree := free_of_rely hl (.account (c.fresh 0)) (by simp) db.accounts fin.accounts
    (fun a => a.id = c.fresh 0) rfl rfl (by
      intro a ha
      have := List.all_eq_true.mp hunique a ha
      simp at this
      simpa using this.1)
  exact fun a ha => by simpa using hfree a ha

/-- The values fit their columns. -/
def Sql.EntryValues.fits (v : EntryValues) : Bool := nulFree v.description && v.occurredAt.storable

theorem Spec.insertEntry {v : EntryValues} {k : Option JournalEntry → Tx β} (hlog : LedgerFree log)
    (hvalues : v.fits = false → ∀ s, F (.sql s) log locks)
    (hcollision : ∀ db, Rely locks prev db →
      (∀ x ∈ db.entries, ¬ (x.tenantId = v.tenantId ∧ x.idempotencyKey = v.idempotencyKey)) →
      F (.sql .uniqueViolation) log locks)
    (htaken : ∀ db e, Rely locks prev db → Rely locks db fin → e ∈ db.entries → e.tenantId = v.tenantId →
      e.idempotencyKey = v.idempotencyKey → Spec now fin A Q F (k none) db log locks)
    (hnew : ∀ db e, Rely locks prev db → Rely (locks ++ [.entry e.id, .entryKey v.tenantId v.idempotencyKey]) db fin →
      e.tenantId = v.tenantId → e.idempotencyKey = v.idempotencyKey → e.occurredAt = v.occurredAt.timestamp →
      e.requestFingerprint = v.requestFingerprint → (∀ x ∈ fin.entries, x.id ≠ e.id) →
      (∀ x ∈ fin.entries, ¬ (x.tenantId = v.tenantId ∧ x.idempotencyKey = v.idempotencyKey)) →
      Spec now fin A Q F (k (some e)) db (log ++ [.entry e])
        (locks ++ [.entry e.id, .entryKey v.tenantId v.idempotencyKey])) :
    Spec now fin A Q F (Program.statement (Sql.insertEntry v) >>= k) prev log locks := by
  refine Spec.statement fun db c h₁ h₂ hA => Continues.failing (fun s hs => hvalues ?_ s) fun _ => ?_
  · simp only [List.mem_cons, List.not_mem_nil, or_false, Prod.mk.injEq] at hs
    rcases hs with ⟨hfails, -⟩ | ⟨hfails, -⟩ <;> simp [EntryValues.fits, ← hfails]
  rw [(hlog db).2.1]
  split
  · next hany =>
    obtain ⟨e, he, hkey⟩ := List.any_eq_true.mp hany
    rw [Bool.and_eq_true, decide_eq_true_iff, decide_eq_true_iff] at hkey
    exact Continues.done (htaken db e h₁ h₂ he hkey.1 hkey.2)
  · next hany =>
    refine Continues.failing (fun s hs => ?_) fun hall hl => ?_
    · rw [List.mem_singleton, Prod.mk.injEq] at hs
      rw [hs.2]
      exact hcollision db h₁ fun x hx hkey => hany (List.any_eq_true.mpr ⟨x, hx, by simp [hkey.1, hkey.2]⟩)
    refine hnew db _ h₁ hl rfl rfl rfl rfl ?_ ?_
    · have hunique := hall _ List.mem_cons_self
      have hfree := free_of_rely hl (.entry (c.fresh 0)) (by simp) db.entries fin.entries
        (fun e => e.id = c.fresh 0) rfl rfl (by simpa using hunique)
      exact fun x hx => by simpa using hfree x hx
    · have hfree := free_of_rely hl (.entryKey v.tenantId v.idempotencyKey) (by simp) db.entries
        fin.entries (fun e => e.tenantId = v.tenantId && e.idempotencyKey = v.idempotencyKey) rfl rfl
        (by simpa using hany)
      exact fun x hx => by simpa using hfree x hx

theorem fst_zipIdx {γ δ : Type} (values : List γ) (g : γ → δ) :
    (values.zipIdx.map fun v => g v.1) = values.map g := by
  rw [show (fun v : γ × Nat => g v.1) = g ∘ Prod.fst from rfl, ← List.map_map, List.zipIdx_map_fst]

theorem Spec.insertLines {values : List LineValues} {k : List EntryLine → Tx β}
    (hlog : ∀ db, (engine.view log db).lines = db.lines) (hsql : ∀ s, F (.sql s) log locks)
    (hnew : ∀ db (ls : List EntryLine), Rely locks prev db → Rely (locks ++ ls.map fun l => .line l.id) db fin →
      ls.map EntryLine.posting = values.map (fun v => (v.entryId, v.tenantId, v.accountId.uuid, v.amountMinor)) →
      (ls.map (·.id)).Nodup ∧ (∀ l ∈ ls, ∀ x ∈ fin.lines, x.id ≠ l.id) →
      Spec now fin A Q F (k ls) db (log ++ ls.map .line) (locks ++ ls.map fun l => .line l.id)) :
    Spec now fin A Q F (Program.statement (Sql.insertLines values) >>= k) prev log locks := by
  refine Spec.statement fun db c h₁ h₂ hA => Continues.checked hsql fun hall hl => ?_
  have hids := hall _ (List.mem_cons_of_mem _ List.mem_cons_self)
  rw [hlog db] at hids
  simp only [freshIds, Bool.and_eq_true, decide_eq_true_iff, List.all_eq_true] at hids
  refine hnew db _ h₁ hl ?_ ⟨hids.1, fun l hmem => ?_⟩
  · rw [List.map_map]
    exact fst_zipIdx values fun v => (v.entryId, v.tenantId, v.accountId.uuid, v.amountMinor)
  · have hfree := free_of_rely hl (.line l.id) (List.mem_append_right _ (List.mem_map_of_mem hmem))
      db.lines fin.lines (fun x => x.id = l.id) rfl rfl
      (fun x hx => by simpa using hids.2 l hmem x hx)
    exact fun x hx => by simpa using hfree x hx

theorem Spec.nextSequence {tenantId : Uuid} {k : Nat → Tx β} (hlog : ∀ db, (engine.view log db).sequences = db.sequences)
    (hsql : ∀ s, F (.sql s) log locks)
    (hnew : ∀ db row, Rely locks prev db → Allocates fin tenantId row →
      Spec now fin A Q F (k row.lastValue) db (log ++ [.sequence row]) (locks ++ [.sequence tenantId])) :
    Spec now fin A Q F (Program.statement (Sql.nextSequence tenantId) >>= k) prev log locks := by
  refine Spec.statement fun db c h₁ h₂ hA => Continues.checked hsql fun hall hl => ?_
  have heq : fin.sequences.filter (fun r => r.tenantId = tenantId) =
      db.sequences.filter (fun r => r.tenantId = tenantId) :=
    congrArg Observation.sequence (hl.agree (.sequence tenantId) (by simp))
  refine hnew db _ h₁ ?_
  rw [hlog db]
  cases hfind : db.sequences.find? fun r => r.tenantId = tenantId with
  | none =>
      have hnone : db.sequences.filter (fun r => r.tenantId = tenantId) = [] := by
        rw [List.filter_eq_nil_iff]
        exact List.find?_eq_none.mp hfind
      rw [hnone, List.filter_eq_nil_iff] at heq
      exact ⟨rfl, Or.inl ⟨rfl, fun r hr => by simpa using heq r hr⟩⟩
  | some r =>
      have hmem : r ∈ db.sequences.filter (fun r => r.tenantId = tenantId) :=
        List.mem_filter.mpr ⟨List.mem_of_find?_eq_some hfind, by simpa using List.find?_some hfind⟩
      rw [← heq, List.mem_filter, decide_eq_true_iff] at hmem
      exact ⟨rfl, Or.inr ⟨r, hmem.1, hmem.2, rfl⟩⟩

theorem Spec.insertInvoice {v : InvoiceValues} {k : Invoice → Tx β}
    (hlog : ∀ db, (engine.view log db).invoices = db.invoices) (hsql : ∀ s, F (.sql s) log locks)
    (hnew : ∀ db i, Rely locks prev db → i.tenantId = v.tenantId → i.invoiceNumber = v.invoiceNumber →
      i.sequenceNumber = v.sequenceNumber → i.status = .draft → i.issueJournalEntryId = none →
      i.totalAmountMinor = v.totalAmountMinor → inInt8 v.totalAmountMinor = true →
      (∀ x ∈ fin.invoices, x.id ≠ i.id) →
      Spec now fin A Q F (k i) db (log ++ [.invoice i])
        (locks ++ [.invoice i.id, .invoiceNumber v.tenantId v.invoiceNumber,
          .sequenceNumber v.tenantId v.sequenceNumber])) :
    Spec now fin A Q F (Program.statement (Sql.insertInvoice v) >>= k) prev log locks := by
  refine Spec.statement fun db c h₁ h₂ hA => Continues.checked hsql fun hall hl => ?_
  have hrange := hall _ (List.mem_cons_of_mem _ List.mem_cons_self)
  have hunique := hall _ (List.mem_of_getLast? rfl)
  rw [hlog db] at hunique
  refine hnew db _ h₁ rfl rfl rfl rfl rfl rfl hrange fun x hx => ?_
  have heq := invoice_eq hl (show Lock.invoice (c.fresh 0) ∈ _ by simp)
  have hnone : db.invoices.filter (fun i => i.id = c.fresh 0) = [] := by
    rw [List.filter_eq_nil_iff]
    intro i hi
    have := List.all_eq_true.mp hunique i hi
    simp only [Bool.and_eq_true, decide_eq_true_iff] at this
    simpa using this.1.1
  rw [hnone, List.filter_eq_nil_iff] at heq
  simpa using heq x hx

theorem Spec.insertItems {invoiceId : Uuid} {values : List ItemValues} {k : Unit → Tx β}
    (hsql : ∀ s, F (.sql s) log locks)
    (hnew : ∀ db (rows : List InvoiceItem), Rely locks prev db →
      rows.map (fun r => (r.invoiceId, r.quantity, r.unitPriceMinor)) =
        values.map (fun v => (invoiceId, v.quantity, v.unitPriceMinor)) →
      (∀ v ∈ values, 0 < v.quantity ∧ 0 < v.unitPriceMinor) →
      (∀ v ∈ values, inInt4 v.quantity = true ∧ inInt8 v.unitPriceMinor = true) →
      Spec now fin A Q F (k ()) db (log ++ rows.map .item) (locks ++ rows.map fun r => .item r.id)) :
    Spec now fin A Q F (Program.statement (Sql.insertItems invoiceId values) >>= k) prev log locks := by
  refine Spec.statement fun db c h₁ h₂ hA => Continues.checked hsql fun hall hl => ?_
  have hpos := hall _ (List.mem_cons_of_mem _ (List.mem_cons_of_mem _ List.mem_cons_self))
  have hrange := hall _ (List.mem_cons_of_mem _ List.mem_cons_self)
  refine hnew db _ h₁ ?_ (fun v hv => by simpa using List.all_eq_true.mp hpos v hv)
    fun v hv => by simpa using List.all_eq_true.mp hrange v hv
  rw [List.map_map]
  exact fst_zipIdx values fun v => (invoiceId, v.quantity, v.unitPriceMinor)

/-- A redo log adds history rows at the end. -/
theorem view_history (log : List Write) : ∃ rows, ∀ db, (engine.view log db).history = db.history ++ rows := by
  induction log with
  | nil => exact ⟨[], fun db => (List.append_nil _).symm⟩
  | cons w log ih =>
      obtain ⟨rows, hrows⟩ := ih
      have hw : ∃ added, ∀ db : Db, (db.apply w).history = db.history ++ added := by
        cases w with
        | history h => exact ⟨[h], fun _ => rfl⟩
        | _ => exact ⟨[], fun _ => (List.append_nil _).symm⟩
      obtain ⟨added, hadded⟩ := hw
      exact ⟨added ++ rows, fun db => by rw [Engine.view_cons, hrows, engine_apply, hadded, List.append_assoc]⟩

theorem Spec.insertHistory {invoiceId : Uuid} {fromStatus : Option InvoiceStatus} {toStatus : InvoiceStatus}
    {reason : Text} {k : Unit → Tx β} (hsql : ∀ s, F (.sql s) log locks)
    (hnew : ∀ db h, Rely locks prev db →
      Records (engine.view log fin).history h now invoiceId fromStatus toStatus →
      Spec now fin A Q F (k ()) db (log ++ [.history h]) (locks ++ [.history h.id])) :
    Spec now fin A Q F (Program.statement (Sql.insertHistory invoiceId fromStatus toStatus reason) >>= k) prev log
      locks := by
  refine Spec.statement fun db c h₁ h₂ hA => Continues.checked hsql fun hall hl => ?_
  refine hnew db _ h₁ ⟨fun x hx => ?_, rfl, rfl, rfl, rfl⟩
  have hunique := List.all_eq_true.mp (hall _ List.mem_cons_self)
  obtain ⟨rows, hrows⟩ := view_history log
  rw [hrows] at hunique hx
  rcases List.mem_append.mp hx with hx | hx
  · have hfree := free_of_rely hl (.history (c.fresh 0)) (by simp) db.history fin.history
      (fun h => h.id = c.fresh 0) rfl rfl fun y hy => by simpa using hunique y (List.mem_append_left _ hy)
    simpa using hfree x hx
  · simpa using hunique x (List.mem_append_right _ hx)

/-- The committed history is part of every view. -/
theorem Records.committed {h : StatusHistory} {invoiceId : Uuid} {src : Option InvoiceStatus} {dst : InvoiceStatus}
    (hr : Records (engine.view log fin).history h now invoiceId src dst) :
    Records fin.history h now invoiceId src dst := by
  obtain ⟨rows, hrows⟩ := view_history log
  exact { hr with freshId := fun x hx => hr.freshId x (hrows fin ▸ List.mem_append_left _ hx) }

/-- `FOR UPDATE`: the row read is the row at commit time. -/
theorem Spec.selectInvoiceForUpdate {invoiceId : Text} {tenantId : Uuid} {k : Option Invoice → Tx β}
    (hsql : uuidIn invoiceId = none → ∀ s, F (.sql s) [] locks)
    (hnone : ∀ db, Rely locks prev db → (∀ i ∈ db.invoices, ¬ (uuidIn invoiceId = some i.id ∧ i.tenantId = tenantId)) →
      Spec now fin A Q F (k none) db [] locks)
    (hsome : ∀ db i, Rely locks prev db → Rely (locks ++ [.invoice i.id]) db fin → Names fin invoiceId tenantId i →
      Spec now fin A Q F (k (some i)) db [] (locks ++ [.invoice i.id])) :
    Spec now fin A Q F (Program.statement (Sql.selectInvoiceForUpdate invoiceId tenantId) >>= k) prev [] locks := by
  refine Spec.statement fun db c h₁ h₂ hA => ?_
  rw [Engine.view_nil]
  unfold Sql.selectInvoiceForUpdate
  cases hid : uuidIn invoiceId with
  | none => exact hsql hid _
  | some id =>
      dsimp only
      cases hfind : db.invoices.find? fun i => i.id = id && i.tenantId = tenantId with
      | none =>
          refine Continues.done (hnone db h₁ fun i hi h => ?_)
          have := List.find?_eq_none.mp hfind i hi
          simp only [Bool.and_eq_true, decide_eq_true_iff] at this
          exact this ⟨(Option.some.inj (hid.symm.trans h.1)).symm, h.2⟩
      | some i =>
          have hi := List.find?_some hfind
          simp only [Bool.and_eq_true, decide_eq_true_iff] at hi
          intro hl
          refine hsome db i h₁ hl ⟨(mem_of_locked hl (by simp)).mpr (List.mem_of_find?_eq_some hfind), ?_, hi.2⟩
          rw [hid, hi.1]

/-- An update of the row that the transaction has locked. -/
theorem Spec.updateInvoice {invoiceId : Text} {tenantId : Uuid} {set : InvoiceState → InvoiceState} {i : Invoice}
    {k : Option Invoice → Tx β} (hA : ∀ p db, A p db → (db.invoices.map (·.id)).Nodup)
    (hnames : Names fin invoiceId tenantId i) (hlock : Lock.invoice i.id ∈ locks)
    (hlog : ∀ db, (engine.view log db).invoices = db.invoices)
    (h : ∀ db, Rely locks prev db → Spec now fin A Q F (k (some (i.set (set i.state)))) db
      (log ++ [.updateInvoice i.id (set i.state)]) (locks ++ [.invoice i.id])) :
    Spec now fin A Q F (Program.statement (Sql.updateInvoice invoiceId tenantId set) >>= k) prev log locks := by
  refine Spec.statement fun db c h₁ h₂ ha => ?_
  have hi : i ∈ db.invoices := (mem_of_locked h₂ hlock).mp hnames.mem
  have hfind : db.invoices.find? (fun x => x.id = i.id && x.tenantId = tenantId) = some i := by
    cases hf : db.invoices.find? fun x => x.id = i.id && x.tenantId = tenantId with
    | none =>
        have := List.find?_eq_none.mp hf i hi
        simp [hnames.tenant] at this
    | some x =>
        have hx := List.find?_some hf
        simp only [Bool.and_eq_true, decide_eq_true_iff] at hx
        rw [List.inj_on_of_nodup_map (hA _ _ ha) (List.mem_of_find?_eq_some hf) hi hx.1]
  unfold Sql.updateInvoice updateInvoices
  rw [hnames.id, hlog db]
  dsimp only
  rw [hfind]
  exact fun _ => h db h₁

/-- An update that checks its condition again. -/
theorem Spec.updateInvoices {condition : Invoice → Bool} {set : InvoiceState → InvoiceState}
    {k : Option Invoice → Tx β}
    (hnone : ∀ db, Rely locks prev db → Spec now fin A Q F (k none) db log locks)
    (hsome : ∀ db i, Rely locks prev db → Rely (locks ++ [.invoice i.id]) db fin →
      A (Program.statement (Sql.updateInvoices condition set) >>= k) db → i ∈ (engine.view log db).invoices →
      condition i = true → Spec now fin A Q F (k (some (i.set (set i.state)))) db
        (log ++ [.updateInvoice i.id (set i.state)]) (locks ++ [.invoice i.id])) :
    Spec now fin A Q F (Program.statement (Sql.updateInvoices condition set) >>= k) prev log locks := by
  refine Spec.statement fun db c h₁ h₂ ha => ?_
  unfold Sql.updateInvoices
  cases hf : (engine.view log db).invoices.find? condition with
  | none => exact Continues.done (hnone db h₁)
  | some i => exact fun hl => hsome db i h₁ hl ha (List.mem_of_find?_eq_some hf) (List.find?_some hf)

/-- The values fit their columns. -/
def Sql.PaymentValues.fits (v : PaymentValues) : Bool :=
  inInt8 v.amountMinor && v.paidAt.storable && decide (0 < v.amountMinor)

theorem Spec.insertPayment {v : PaymentValues} {id : Uuid} {k : Option InvoicePayment → Tx β}
    (hid : uuidIn v.invoiceId = some id) (hlog : ∀ db, (engine.view log db).payments = db.payments)
    (hvalues : v.fits = false → ∀ s, F (.sql s) log locks)
    (hcollision : ∀ db, Rely locks prev db →
      (∀ x ∈ db.payments, ¬ (x.tenantId = v.tenantId ∧ x.idempotencyKey = v.idempotencyKey)) →
      F (.sql .uniqueViolation) log locks)
    (htaken : ∀ db p, Rely locks prev db → Rely locks db fin → p ∈ db.payments → p.tenantId = v.tenantId →
      p.idempotencyKey = v.idempotencyKey → Spec now fin A Q F (k none) db log locks)
    (hnew : ∀ db p, Rely locks prev db → Rely (locks ++ [.payment p.id, .paymentKey v.tenantId v.idempotencyKey]) db fin →
      p.invoiceId = id → p.amountMinor = v.amountMinor → p.tenantId = v.tenantId →
      p.idempotencyKey = v.idempotencyKey → p.requestFingerprint = v.requestFingerprint → v.fits = true →
      (∀ x ∈ fin.payments, x.id ≠ p.id) →
      (∀ x ∈ fin.payments, ¬ (x.tenantId = v.tenantId ∧ x.idempotencyKey = v.idempotencyKey)) →
      Spec now fin A Q F (k (some p)) db (log ++ [.payment p])
        (locks ++ [.payment p.id, .paymentKey v.tenantId v.idempotencyKey])) :
    Spec now fin A Q F (Program.statement (Sql.insertPayment v) >>= k) prev log locks := by
  refine Spec.statement fun db c h₁ h₂ hA => ?_
  unfold Sql.insertPayment
  rw [hid]
  dsimp only
  rw [hlog db]
  refine Continues.failing (fun s hs => hvalues ?_ s) fun hall => ?_
  · simp only [List.mem_cons, List.not_mem_nil, or_false, Prod.mk.injEq] at hs
    rcases hs with ⟨hfails, -⟩ | ⟨hfails, -⟩ | ⟨hfails, -⟩ <;> simp [PaymentValues.fits, ← hfails]
  have hfits : v.fits = true := by
    simp only [List.forall_mem_cons] at hall
    simp [PaymentValues.fits, hall.1, hall.2.1, of_decide_eq_true hall.2.2.1]
  split
  · next hany =>
    obtain ⟨p, hp, hkey⟩ := List.any_eq_true.mp hany
    rw [Bool.and_eq_true, decide_eq_true_iff, decide_eq_true_iff] at hkey
    exact Continues.done (htaken db p h₁ h₂ hp hkey.1 hkey.2)
  · next hany =>
    refine Continues.failing (fun s hs => ?_) fun hall hl => ?_
    · rw [List.mem_singleton, Prod.mk.injEq] at hs
      rw [hs.2]
      exact hcollision db h₁ fun x hx hkey => hany (List.any_eq_true.mpr ⟨x, hx, by simp [hkey.1, hkey.2]⟩)
    refine hnew db _ h₁ hl rfl rfl rfl rfl rfl hfits ?_ ?_
    · have hunique := hall _ List.mem_cons_self
      have hfree := free_of_rely hl (.payment (c.fresh 0)) (by simp) db.payments fin.payments
        (fun p => p.id = c.fresh 0) rfl rfl (by simpa using hunique)
      exact fun x hx => by simpa using hfree x hx
    · have hfree := free_of_rely hl (.paymentKey v.tenantId v.idempotencyKey) (by simp) db.payments
        fin.payments (fun p => p.tenantId = v.tenantId && p.idempotencyKey = v.idempotencyKey) rfl rfl
        (by simpa using hany)
      exact fun x hx => by simpa using hfree x hx

/-- The payment row of this transaction gets its entry. -/
theorem Spec.linkPayment {p : InvoicePayment} {entryId : Uuid} {k : Option InvoicePayment → Tx β}
    (hlog : ∀ db, (engine.view log db).payments = db.payments ++ [p]) (hfresh : ∀ x ∈ fin.payments, x.id ≠ p.id)
    (h : ∀ db, Rely locks prev db → Spec now fin A Q F (k (some { p with journalEntryId := some entryId })) db
      (log ++ [.linkPayment p.id entryId]) (locks ++ [.payment p.id])) :
    Spec now fin A Q F (Program.statement (Sql.linkPayment p.id entryId) >>= k) prev log locks := by
  refine Spec.statement fun db c h₁ h₂ hA => ?_
  have hfind : (db.payments ++ [p]).find? (fun x => x.id = p.id) = some p := by
    have hnone : db.payments.find? (fun x => x.id = p.id) = none := by
      rw [List.find?_eq_none]
      exact fun x hx => by simpa using hfresh x (h₂.grow.payments hx)
    rw [List.find?_append, hnone]
    simp
  unfold Sql.linkPayment
  rw [hlog db]
  rw [hfind]
  exact fun _ => h db h₁

end FinSight
