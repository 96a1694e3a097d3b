import FinSight.Guarantees.Invoices
import FinSight.Lists.Grouping

/-!
# The trial balance

* `Coherent db` : lines, entries and accounts fit together;
* `trial_balance` : debit-normal balances minus credit-normal balances, for every tenant, currency and date;
* `balanced_of_reaches` : both in every reachable state.
-/

namespace FinSight

open ReadCommitted Grouping

variable {sha256 : Text → Text}

/-- A line has the tenant of its entry and of its account, an entry has one currency, and its lines balance. -/
structure Coherent (db : Db) : Prop where
  entry : ∀ l ∈ db.lines, ∃ e ∈ db.entries, e.id = l.entryId ∧ e.tenantId = l.tenantId
  account : ∀ l ∈ db.lines, ∃ a ∈ db.accounts, a.id = l.accountId ∧ a.tenantId = l.tenantId
  currency : ∀ l ∈ db.lines, ∀ l' ∈ db.lines, l.entryId = l'.entryId → ∀ a ∈ db.accounts, ∀ a' ∈ db.accounts,
    a.id = l.accountId → a'.id = l'.accountId → a.currency = a'.currency
  balanced : ∀ e ∈ db.entries, entrySum db.lines e.id = 0

/-- The line of a booked entry, its account, and the one currency of the entry. -/
theorem Books.line {db : Db} {e : JournalEntry} {data : EntryData} (h : Books sha256 db e data) :
    ∃ c, ∀ l ∈ db.lines, l.entryId = e.id → l.tenantId = e.tenantId ∧
      ∃ a ∈ db.accounts, a.id = l.accountId ∧ a.tenantId = e.tenantId ∧ a.currency = c := by
  obtain ⟨c, hc⟩ := h.accounts
  refine ⟨c, fun l hl hid => ?_⟩
  have hmem : l.posting ∈ data.lines.map (LineData.posting e) := by
    rw [← h.lines]
    exact List.mem_map_of_mem (List.mem_filter.mpr ⟨hl, by simpa using hid⟩)
  obtain ⟨d, hd, heq⟩ := List.mem_map.mp hmem
  simp only [LineData.posting, EntryLine.posting, Prod.mk.injEq] at heq
  obtain ⟨-, htenant, haccount, -⟩ := heq
  obtain ⟨a, ha, hrest⟩ := hc d hd
  exact ⟨htenant.symm, a, ha, hrest.1.trans haccount, hrest.2⟩

theorem Ledger.coherent {db : Db} (h : Ledger sha256 db) : Coherent db where
  entry l hl := by
    obtain ⟨e, he, hid⟩ := h.owned l hl
    obtain ⟨data, hb⟩ := h.books e he
    obtain ⟨c, hc⟩ := hb.line
    exact ⟨e, he, hid, (hc l hl hid.symm).1.symm⟩
  account l hl := by
    obtain ⟨e, he, hid⟩ := h.owned l hl
    obtain ⟨data, hb⟩ := h.books e he
    obtain ⟨c, hc⟩ := hb.line
    obtain ⟨ht, a, ha, haid, hat, -⟩ := hc l hl hid.symm
    exact ⟨a, ha, haid, hat.trans ht.symm⟩
  currency l hl l' hl' heq a ha a' ha' hid hid' := by
    obtain ⟨e, he, heid⟩ := h.owned l hl
    obtain ⟨data, hb⟩ := h.books e he
    obtain ⟨c, hc⟩ := hb.line
    obtain ⟨-, x, hx, hxid, -, hxc⟩ := hc l hl heid.symm
    obtain ⟨-, x', hx', hxid', -, hxc'⟩ := hc l' hl' (heq ▸ heid.symm)
    rw [Keyed.eq_of_key_eq h.accountIds ha hx (hid.trans hxid.symm), Keyed.eq_of_key_eq h.accountIds ha' hx' (hid'.trans hxid'.symm),
      hxc, hxc']
  balanced e he := by
    obtain ⟨data, hb⟩ := h.books e he
    have hamounts := congrArg (List.map fun x : Uuid × Uuid × Uuid × Int => x.2.2.2) hb.lines
    simp only [List.map_map] at hamounts
    rw [← hb.balanced]
    exact congrArg List.sum hamounts

/-! ## Balances -/

/-- The reported balances of some account types, in one currency. -/
def balanceSum (rows : List AccountBalance) (currency : Text) (types : List AccountType) : Int :=
  ((rows.filter fun b => b.currency = currency ∧ b.type ∈ types).map fun b => decimalIntValue b.balanceMinor).sum

/-- Whether the entry of a line is in the books at `asOf`. -/
def upTo (db : Db) (asOf : Option Date) (l : EntryLine) : Bool :=
  match asOf with
  | none => true
  | some d => db.entries.any fun e => e.id = l.entryId && decide (e.occurredAt ≤ d.timestamp)

theorem linesUpTo_eq {db : Db} (h : Coherent db) (hids : (db.entries.map (·.id)).Nodup) (asOf : Option Date) :
    linesUpTo db asOf = db.lines.filter (upTo db asOf) := by
  cases asOf with
  | none => exact (List.filter_eq_self.mpr fun _ _ => rfl).symm
  | some d =>
      have hrow : ∀ l ∈ db.lines, ((db.entries.filter fun je => je.id = l.entryId && je.tenantId = l.tenantId &&
          decide (je.occurredAt ≤ d.timestamp)).map fun _ => l) = if upTo db (some d) l then [l] else [] := by
        intro l hl
        obtain ⟨e, he, hid, ht⟩ := h.entry l hl
        have hone := filter_of_nodup (fun x : JournalEntry => x.id) hids he
        have hjoin : (db.entries.filter fun je => je.id = l.entryId && je.tenantId = l.tenantId &&
            decide (je.occurredAt ≤ d.timestamp)) = if e.occurredAt ≤ d.timestamp then [e] else [] := by
          simpa [← hid, ← ht, Bool.and_assoc] using
            hone fun je => je.tenantId = e.tenantId && decide (je.occurredAt ≤ d.timestamp)
        have hup : upTo db (some d) l = decide (e.occurredAt ≤ d.timestamp) := by
          rw [upTo, Bool.eq_iff_iff, List.any_eq_true, decide_eq_true_iff]
          constructor
          · rintro ⟨x, hx, hxd⟩
            rw [Bool.and_eq_true, decide_eq_true_iff, decide_eq_true_iff] at hxd
            rw [← Keyed.eq_of_key_eq hids hx he (hxd.1.trans hid.symm)]
            exact hxd.2
          · exact fun hd => ⟨e, he, by simp [hid, hd]⟩
        rw [hjoin, hup]
        by_cases hd : e.occurredAt ≤ d.timestamp
        · simp [hd]
        · simp [hd]
      rw [linesUpTo, List.flatMap_congr hrow]
      exact flatMap_if (upTo db (some d)) db.lines

/-- The lines that count: up to the date, on the tenant's accounts of the currency. -/
def counted (db : Db) (accountIds : List Uuid) (asOf : Option Date) : List EntryLine :=
  (db.lines.filter (upTo db asOf)).filter fun l => l.accountId ∈ accountIds

/-- Of each entry, all lines count or none. -/
theorem counted_entrywise {db : Db} (h : Coherent db) (hentries : (db.entries.map (·.id)).Nodup)
    (haccounts : (db.accounts.map (·.id)).Nodup) {tenantId : Uuid} {currency : Text} {asOf : Option Date}
    {ids : List Uuid}
    (hids : ids = (db.accounts.filter fun a => a.tenantId = tenantId ∧ a.currency = currency).map (·.id))
    {l l' : EntryLine} (hl : l ∈ db.lines) (hl' : l' ∈ db.lines) (hentry : l'.entryId = l.entryId)
    (hup : upTo db asOf l = true) (hmem : l.accountId ∈ ids) : upTo db asOf l' = true ∧ l'.accountId ∈ ids := by
  subst hids
  refine ⟨?_, ?_⟩
  · unfold upTo at hup ⊢
    rw [hentry]
    exact hup
  · obtain ⟨a, ha, haid⟩ := List.mem_map.mp hmem
    simp only [List.mem_filter, decide_eq_true_iff] at ha
    obtain ⟨a', ha', haid', ht'⟩ := h.account l' hl'
    obtain ⟨x, hx, hxid, hxt⟩ := h.account l hl
    obtain ⟨e, he, heid, het⟩ := h.entry l hl
    obtain ⟨e', he', heid', het'⟩ := h.entry l' hl'
    have hee : e' = e := Keyed.eq_of_key_eq hentries he' he (by rw [heid', heid, hentry])
    have hax : a = x := Keyed.eq_of_key_eq haccounts ha.1 hx (haid.trans hxid.symm)
    refine List.mem_map.mpr ⟨a', List.mem_filter.mpr ⟨ha', ?_⟩, haid'⟩
    rw [decide_eq_true_iff]
    constructor
    · rw [ht', ← het', hee, het, ← hxt, ← hax, ha.2.1]
    · rw [h.currency l' hl' l hl hentry a' ha' a ha.1 haid' haid, ha.2.2]

theorem counted_balanced {db : Db} (h : Coherent db) (hentries : (db.entries.map (·.id)).Nodup) (asOf : Option Date)
    {ids : List Uuid}
    (hwhole : ∀ l ∈ db.lines, ∀ l' ∈ db.lines, l'.entryId = l.entryId → upTo db asOf l = true → l.accountId ∈ ids →
      upTo db asOf l' = true ∧ l'.accountId ∈ ids) :
    ((counted db ids asOf).map (·.amountMinor)).sum = 0 := by
  have hgroups : ∀ k ∈ db.entries.map (·.id),
      groupSum (fun l : EntryLine => l.entryId) (·.amountMinor) (counted db ids asOf) k = 0 := by
    intro k hk
    obtain ⟨e, he, rfl⟩ := List.mem_map.mp hk
    rw [groupSum]
    by_cases hany : ∃ l ∈ db.lines, l.entryId = e.id ∧ upTo db asOf l = true ∧ l.accountId ∈ ids
    · obtain ⟨l, hl, hid, hup, hmem⟩ := hany
      have hsame : (counted db ids asOf).filter (fun x => x.entryId = e.id) = entryLines db e.id := by
        rw [counted, entryLines, List.filter_filter, List.filter_filter]
        refine List.filter_congr fun x hx => ?_
        by_cases hxe : x.entryId = e.id
        · simp [hxe, hwhole l hl x hx (hxe.trans hid.symm) hup hmem]
        · simp [hxe]
      rw [hsame]
      exact h.balanced e he
    · have hnone : (counted db ids asOf).filter (fun x => x.entryId = e.id) = [] := by
        rw [counted, List.filter_filter, List.filter_filter, List.filter_eq_nil_iff]
        intro x hx hall
        simp only [Bool.and_eq_true, decide_eq_true_iff] at hall
        exact hany ⟨x, hx, hall.1.1, hall.2, hall.1.2⟩
      rw [hnone]
      rfl
  have hall : (counted db ids asOf).filter (fun l => l.entryId ∈ db.entries.map (·.id)) = counted db ids asOf := by
    rw [List.filter_eq_self]
    intro l hl
    obtain ⟨e, he, hid, -⟩ := h.entry l (List.mem_of_mem_filter (List.mem_of_mem_filter hl))
    exact decide_eq_true (List.mem_map.mpr ⟨e, he, hid⟩)
  calc ((counted db ids asOf).map (·.amountMinor)).sum
      = ((db.entries.map (·.id)).map
          (groupSum (fun l : EntryLine => l.entryId) (·.amountMinor) (counted db ids asOf))).sum := by
        rw [sum_groupSum hentries, hall]
    _ = 0 := by
        refine List.sum_eq_zero fun z hz => ?_
        obtain ⟨k, hk, rfl⟩ := List.mem_map.mp hz
        exact hgroups k hk

/-- Debit-normal balances minus credit-normal ones are the sums of the lines. -/
theorem signed_split (db : Db) (asOf : Option Date) (currency : Text) (accounts : List Account) :
    balanceSum (accounts.map (accountBalance db asOf)) currency [.asset, .expense] -
      balanceSum (accounts.map (accountBalance db asOf)) currency [.liability, .equity, .revenue] =
    ((accounts.filter fun a => a.currency = currency).map fun a =>
      ((accountLines db asOf a).map (·.amountMinor)).sum).sum := by
  induction accounts with
  | nil => rfl
  | cons a accounts ih =>
      unfold balanceSum at ih ⊢
      rw [List.map_cons, List.filter_cons, List.filter_cons, List.filter_cons]
      by_cases hc : a.currency = currency
      · cases ht : a.type <;> simp [accountBalance, signedBalance, creditNormal, hc, ht] at ih ⊢ <;> omega
      · simpa [accountBalance, hc] using ih

theorem trial_balance {db : Db} (h : Coherent db) (hentries : (db.entries.map (·.id)).Nodup)
    (haccounts : (db.accounts.map (·.id)).Nodup) (le : Text → Text → Bool) (tenantId : Uuid) (currency : Text)
    (asOf : Option Date) :
    balanceSum (listAccountBalances le db tenantId asOf) currency [.asset, .expense] -
      balanceSum (listAccountBalances le db tenantId asOf) currency [.liability, .equity, .revenue] = 0 := by
  have hraw : ∀ a ∈ db.accounts, ((accountLines db asOf a).map (·.amountMinor)).sum =
      groupSum (fun l : EntryLine => l.accountId) (·.amountMinor) (db.lines.filter (upTo db asOf)) a.id := by
    intro a ha
    rw [accountLines, linesUpTo_eq h hentries, groupSum]
    congr 2
    refine List.filter_congr fun l hl => ?_
    obtain ⟨x, hx, hid, ht⟩ := h.account l (List.mem_of_mem_filter hl)
    by_cases hla : l.accountId = a.id
    · have hxa := Keyed.eq_of_key_eq haccounts hx ha (hid.trans hla)
      simp [hla, ← ht, hxa]
    · simp [hla]
  rw [listAccountBalances, signed_split]
  have hperm : ((((db.accounts.filter fun a => a.tenantId = tenantId).insertionSort fun a b => accountLe le a b).filter
      fun a => a.currency = currency)).Perm
        (db.accounts.filter fun a => a.tenantId = tenantId ∧ a.currency = currency) := by
    refine ((List.perm_insertionSort _ _).filter _).trans ?_
    rw [List.filter_filter]
    exact .of_eq (List.filter_congr fun a _ => by
      rw [Bool.decide_and, Bool.and_comm])
  rw [(hperm.map _).sum_eq, List.map_congr_left fun a ha => hraw a (List.mem_of_mem_filter ha)]
  have hkeys : ((db.accounts.filter fun a => a.tenantId = tenantId ∧ a.currency = currency).map (·.id)).Nodup :=
    haccounts.sublist (List.filter_sublist.map _)
  have hgroups := sum_groupSum hkeys (fun l : EntryLine => l.accountId) (·.amountMinor) (db.lines.filter (upTo db asOf))
  rw [List.map_map] at hgroups
  exact hgroups.trans (counted_balanced h hentries asOf fun l hl l' hl' hentry hup hmem =>
    counted_entrywise h hentries haccounts rfl hl hl' hentry hup hmem)

/-- **The ledger of every reachable state** is coherent, and its trial balance is zero. -/
theorem balanced_of_reaches {s : Sys} (h : Reaches sha256 anyStep s) :
    Coherent s.db ∧ ∀ le tenantId currency asOf,
      balanceSum (listAccountBalances le s.db tenantId asOf) currency [.asset, .expense] -
        balanceSum (listAccountBalances le s.db tenantId asOf) currency [.liability, .equity, .revenue] = 0 := by
  have hledger := (consistent_of_reaches h).ledger
  exact ⟨hledger.coherent, trial_balance hledger.coherent hledger.entryIds hledger.accountIds⟩

set_option maxRecDepth 100000 in
/-- The day's two entries. -/
theorem balanced_of_day : ∃ s : Sys, s.db.lines.map (·.amountMinor) = [100, -100, 70, -70] ∧ Coherent s.db ∧
    ∀ le tenantId currency asOf,
      balanceSum (listAccountBalances le s.db tenantId asOf) currency [.asset, .expense] -
        balanceSum (listAccountBalances le s.db tenantId asOf) currency [.liability, .equity, .revenue] = 0 := by
  obtain ⟨s, hs, hlines⟩ := Day.reaches
    (Day.opening ++ Day.alone 4 8 (.issueInvoice Day.issue) ++
      Day.alone 5 12 (.createInvoicePayment (Day.payment Day.bank 70 0)))
    (fun s => s.db.lines.map (·.amountMinor)) (a := [100, -100, 70, -70]) (by decide)
  exact ⟨s, hlines, balanced_of_reaches hs⟩

end FinSight
