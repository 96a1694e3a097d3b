import FinSight.Guarantees.Ledger
import FinSight.Ledger.Balances
import FinSight.ReadCommitted.Alone

/-!
# The two balances agree

* `balanceLines_eq` : in a coherent ledger the two joins have the same lines;
* `getAccountBalance_alone` : the balance of one account is its row of the list;
* `balances_agree` : in every reachable state, also where the two fail;
* `not_always_listed` : dates that Postgres does not have.
-/

namespace FinSight

open ReadCommitted

variable {sha256 : Text → Text}

/-! ## The same lines -/

theorem joinedLines_eq {db : Db} (h : Coherent db) (hids : (db.entries.map (·.id)).Nodup) (asOf : Option Date) :
    joinedLines db asOf = linesUpTo db asOf := by
  cases asOf with
  | none => rfl
  | some d =>
      refine List.flatMap_congr fun el hel => congrArg (List.map fun _ => el) (List.filter_congr fun je hje => ?_)
      obtain ⟨e, he, hid, htenant⟩ := h.entry el hel
      by_cases hjoin : je.id = el.entryId
      · rw [Keyed.eq_of_key_eq hids hje he (hjoin.trans hid.symm), hid, htenant]
        simp
      · simp [hjoin]

theorem balanceLines_eq {db : Db} (h : Coherent db) (hids : (db.entries.map (·.id)).Nodup) (asOf : Option Date)
    (a : Account) : balanceLines db a.tenantId a.id asOf = accountLines db asOf a := by
  rw [balanceLines, joinedLines_eq h hids, accountLines]
  exact List.filter_congr fun el _ => Bool.and_comm _ _

/-! ## The answers -/

/-- What the parameters and the counts of a query are checked for. -/
def balanceFailure (asOf : Option Date) (counts : List Nat) : Option SqlState :=
  Sql.firstFailure
    [(asOf.all Date.readable, .datetime), (counts.all fun n => inInt4 n, .numericValueOutOfRange)]

/-- `getAccountBalance`, with nothing else in flight. -/
def accountBalanceOf (db : Db) (now : Nat) (choices : Nat → Choice) (tenantId : Uuid) (accountId : Text)
    (asOf : Option Date) : Except Failure AccountBalanceAt :=
  ((getAccountBalance tenantId accountId asOf).alone engine now db [] choices).1

/-- `listAccountBalances`, with nothing else in flight. -/
def accountBalancesOf (c : Collation) (db : Db) (now : Nat) (choices : Nat → Choice) (tenantId : Uuid)
    (asOf : Option Date) : Except Failure (List AccountBalance) :=
  ((Program.statement (selectAccountBalances c tenantId asOf)).alone engine now db [] choices).1

theorem getAccountBalance_alone {db : Db} (h : Coherent db) (hentries : (db.entries.map (·.id)).Nodup)
    (haccounts : (db.accounts.map (·.id)).Nodup) {a : Account} (ha : a ∈ db.accounts) {accountId : Text}
    (hid : uuidIn accountId = some a.id) (now : Nat) (choices : Nat → Choice) (asOf : Option Date) :
    accountBalanceOf db now choices a.tenantId accountId asOf =
      match balanceFailure asOf [(accountLines db asOf a).length] with
      | some state => .error (.sql state)
      | none => .ok ⟨accountBalance db asOf a, asOf⟩ := by
  have haccount : selectTenantAccount a.tenantId accountId ⟨now, choices 0⟩ (engine.view [] db) =
      .done (some a) [] [] [] := by
    have hfind : db.accounts.find? (fun b => b.id = a.id && b.tenantId = a.tenantId) = some a :=
      Keyed.find?_eq_some haccounts ha (by simp) fun b hb => by
        rw [Bool.and_eq_true, decide_eq_true_iff] at hb
        exact hb.1
    rw [selectTenantAccount, hid]
    dsimp only
    rw [Engine.view_nil, hfind]
  rw [accountBalanceOf, getAccountBalance, Program.alone_statement haccount]
  dsimp only
  rw [Program.statement_bind, Program.alone, selectAccountBalance, hid]
  dsimp only
  rw [List.append_nil, Engine.view_nil, balanceLines_eq h hentries, Sql.checked, Sql.checkedBy, balanceFailure, List.all_cons,
    List.all_nil, Bool.and_true]
  generalize Sql.firstFailure _ = failure
  cases failure <;> rfl

theorem accountBalancesOf_eq (c : Collation) (db : Db) (now : Nat) (choices : Nat → Choice) (tenantId : Uuid)
    (asOf : Option Date) :
    accountBalancesOf c db now choices tenantId asOf =
      match balanceFailure asOf
        ((db.accounts.filter fun a => a.tenantId = tenantId).map fun a => (accountLines db asOf a).length) with
      | some state => .error (.sql state)
      | none => .ok (listAccountBalances c.le db tenantId asOf) := by
  have hchecks : balanceFailure asOf
      ((db.accounts.filter fun a => a.tenantId = tenantId).map fun a => (accountLines db asOf a).length) =
      Sql.firstFailure [(asOf.all Date.readable, .datetime),
        ((db.accounts.filter fun a => a.tenantId = tenantId).all fun a => inInt4 (accountLines db asOf a).length,
          .numericValueOutOfRange)] := by
    rw [balanceFailure, List.all_map]
    rfl
  rw [accountBalancesOf, Program.statement, Program.alone, selectAccountBalances, Engine.view_nil, Sql.checked, Sql.checkedBy,
    hchecks]
  generalize Sql.firstFailure _ = failure
  cases failure <;> rfl

/-! ## The rows of the list -/

/-- By type, then by name. -/
def AccountBalance.Before (c : Collation) (r r' : AccountBalance) : Prop :=
  r.type.rank < r'.type.rank ∨ r.type.rank = r'.type.rank ∧ c.le r.name r'.name

theorem pairwise_listAccountBalances (c : Collation) (db : Db) (tenantId : Uuid) (asOf : Option Date) :
    (listAccountBalances c.le db tenantId asOf).Pairwise (AccountBalance.Before c) := by
  have hle : ∀ a b : Account, accountLe c.le a b ↔
      a.type.rank < b.type.rank ∨ a.type.rank = b.type.rank ∧ c.le a.name b.name := by
    intro a b
    simp [accountLe]
  have htotal : Std.Total fun a b : Account => accountLe c.le a b := ⟨fun a b => by
    have hnames := c.total a.name b.name
    rw [Bool.or_eq_true] at hnames
    rw [hle, hle]
    grind⟩
  have htrans : IsTrans Account fun a b => accountLe c.le a b := ⟨fun x y z hxy hyz => by
    rw [hle] at hxy hyz ⊢
    have hnames := c.trans x.name y.name z.name
    grind⟩
  rw [listAccountBalances, List.pairwise_map]
  exact (List.pairwise_insertionSort _ _).imp fun h => (hle _ _).mp h

theorem perm_listAccountBalances (c : Collation) (db : Db) (tenantId : Uuid) (asOf : Option Date) :
    (listAccountBalances c.le db tenantId asOf).Perm
      ((db.accounts.filter fun a => a.tenantId = tenantId).map (accountBalance db asOf)) :=
  (List.perm_insertionSort _ _).map _

/-! ## Both together -/

theorem balanceFailure_none {asOf : Option Date} {counts : List Nat} (hdate : ∀ d ∈ asOf, d.readable = true)
    (hcounts : ∀ n ∈ counts, inInt4 n = true) : balanceFailure asOf counts = none :=
  Sql.firstFailure_of_all (by simpa [Option.all_eq_true] using ⟨hdate, hcounts⟩)

theorem balanceFailure_date {d : Date} (hdate : d.readable = false) (counts : List Nat) :
    balanceFailure (some d) counts = some .datetime := by
  rw [balanceFailure, Option.all_some, hdate]
  rfl

theorem balanceFailure_count {asOf : Option Date} (hdate : ∀ d ∈ asOf, d.readable = true) {counts : List Nat} {n : Nat}
    (hn : n ∈ counts) (hcount : inInt4 n = false) : balanceFailure asOf counts = some .numericValueOutOfRange := by
  have hall : (counts.all fun n => inInt4 n) = false := List.all_eq_false.mpr ⟨n, hn, by simp [hcount]⟩
  rw [balanceFailure, (Option.all_eq_true _ _).mpr hdate, hall]
  rfl

/-- **The two balances agree.** Where Postgres has the date and the counts are integers, the list has each account of the
tenant once, by type and name, and each row is what `getAccountBalance` shows; otherwise both fail, in the same way. -/
theorem balances_agree {s : Sys} (h : Reaches sha256 anyStep s) (c : Collation) (tenantId : Uuid) (asOf : Option Date)
    (now : Nat) (choices : Nat → Choice) :
    ((∀ d ∈ asOf, d.readable = true) →
      (∀ a ∈ s.db.accounts, a.tenantId = tenantId → inInt4 (accountLines s.db asOf a).length = true) →
      ∃ rows, accountBalancesOf c s.db now choices tenantId asOf = .ok rows ∧ rows.Pairwise (AccountBalance.Before c) ∧
        (rows.map (·.accountId)).Nodup ∧
        (∀ id, id ∈ rows.map (·.accountId) ↔ ∃ a ∈ s.db.accounts, a.id = id ∧ a.tenantId = tenantId) ∧
        ∀ row ∈ rows, ∀ accountId, uuidIn accountId = some row.accountId →
          accountBalanceOf s.db now choices tenantId accountId asOf = .ok ⟨row, asOf⟩) ∧
    ((∃ d ∈ asOf, d.readable = false) →
      accountBalancesOf c s.db now choices tenantId asOf = .error (.sql .datetime) ∧
        ∀ a ∈ s.db.accounts, a.tenantId = tenantId → ∀ accountId, uuidIn accountId = some a.id →
          accountBalanceOf s.db now choices tenantId accountId asOf = .error (.sql .datetime)) ∧
    ((∀ d ∈ asOf, d.readable = true) →
      ∀ a ∈ s.db.accounts, a.tenantId = tenantId → inInt4 (accountLines s.db asOf a).length = false →
        accountBalancesOf c s.db now choices tenantId asOf = .error (.sql .numericValueOutOfRange) ∧
          ∀ accountId, uuidIn accountId = some a.id →
            accountBalanceOf s.db now choices tenantId accountId asOf = .error (.sql .numericValueOutOfRange)) := by
  have hledger := (consistent_of_reaches h).ledger
  have hone : ∀ a ∈ s.db.accounts, a.tenantId = tenantId → ∀ accountId, uuidIn accountId = some a.id →
      accountBalanceOf s.db now choices tenantId accountId asOf =
        match balanceFailure asOf [(accountLines s.db asOf a).length] with
        | some state => .error (.sql state)
        | none => .ok ⟨accountBalance s.db asOf a, asOf⟩ := by
    rintro a ha rfl accountId hid
    exact getAccountBalance_alone hledger.coherent hledger.entryIds hledger.accountIds ha hid now choices asOf
  refine ⟨fun hdate hcounts => ?_, fun hdate => ?_, fun hdate a ha htenant hcount => ?_⟩
  · have hperm := perm_listAccountBalances c s.db tenantId asOf
    have hids := hperm.map (·.accountId)
    rw [List.map_map] at hids
    refine ⟨listAccountBalances c.le s.db tenantId asOf, ?_, pairwise_listAccountBalances c s.db tenantId asOf, ?_,
      fun id => ?_, fun row hrow accountId hid => ?_⟩
    · rw [accountBalancesOf_eq, balanceFailure_none hdate]
      intro n hn
      obtain ⟨a, ha, rfl⟩ := List.mem_map.mp hn
      exact hcounts a (List.mem_of_mem_filter ha) (of_decide_eq_true (List.mem_filter.mp ha).2)
    · exact hids.nodup_iff.mpr (hledger.accountIds.sublist (List.filter_sublist.map _))
    · rw [hids.mem_iff, List.mem_map]
      simp only [List.mem_filter, decide_eq_true_iff]
      constructor
      · rintro ⟨a, ⟨ha, htenant⟩, rfl⟩
        exact ⟨a, ha, rfl, htenant⟩
      · rintro ⟨a, ha, rfl, htenant⟩
        exact ⟨a, ⟨ha, htenant⟩, rfl⟩
    · obtain ⟨a, ha, rfl⟩ := List.mem_map.mp (hperm.mem_iff.mp hrow)
      obtain ⟨haccount, htenant⟩ := List.mem_filter.mp ha
      have htenant := of_decide_eq_true htenant
      rw [hone a haccount htenant accountId hid, balanceFailure_none hdate]
      simpa using hcounts a haccount htenant
  · obtain ⟨d, rfl, hd⟩ := hdate
    refine ⟨?_, fun a ha htenant accountId hid => ?_⟩
    · rw [accountBalancesOf_eq, balanceFailure_date hd]
    · rw [hone a ha htenant accountId hid, balanceFailure_date hd]
  · refine ⟨?_, fun accountId hid => ?_⟩
    · have hmem : (accountLines s.db asOf a).length ∈
          (s.db.accounts.filter fun a => a.tenantId = tenantId).map fun a => (accountLines s.db asOf a).length :=
        List.mem_map_of_mem (List.mem_filter.mpr ⟨ha, decide_eq_true htenant⟩)
      rw [accountBalancesOf_eq, balanceFailure_count hdate hmem hcount]
    · rw [hone a ha htenant accountId hid, balanceFailure_count hdate (List.mem_singleton_self _) hcount]

namespace Day

/-- The balances of a list, with their counts. -/
def amounts (rows : List AccountBalance) : List (Text × Nat) := rows.map fun row => (row.balanceMinor, row.lineCount)

/-- Bank, receivable and revenue at the end of the day, and between the issue and the payment. -/
def statements : List (Option Date × List (Text × Nat)) :=
  [(none, [(text "70", 1), (text "30", 2), (text "100", 1)]), (some ⟨1⟩, [(text "0", 0), (text "100", 1), (text "100", 1)])]

end Day

set_option maxRecDepth 100000 in
/-- The balances of the day. -/
theorem balances_agree_of_day : ∃ s : Sys, s.db.lines.map (·.amountMinor) = [100, -100, 70, -70] ∧
    ∀ b ∈ Day.statements, ∃ rows, accountBalancesOf .units s.db 0 (fun _ => Day.choice 0) Day.tenant b.1 = .ok rows ∧
      Day.amounts rows = b.2 ∧
      ∀ row ∈ rows, ∀ accountId, uuidIn accountId = some row.accountId →
        accountBalanceOf s.db 0 (fun _ => Day.choice 0) Day.tenant accountId b.1 = .ok ⟨row, b.1⟩ := by
  obtain ⟨s, hs, hshows⟩ := Day.reaches
    (Day.opening ++ Day.alone 4 8 (.issueInvoice Day.issue) ++
      Day.alone 5 12 (.createInvoicePayment (Day.payment Day.bank 70 0)))
    (fun s => (s.db.lines.map (·.amountMinor), Day.statements.all fun b =>
      decide ((accountBalancesOf .units s.db 0 (fun _ => Day.choice 0) Day.tenant b.1).toOption.map Day.amounts = some b.2) &&
        s.db.accounts.all fun a => inInt4 (accountLines s.db b.1 a).length))
    (a := ([100, -100, 70, -70], true)) (by decide)
  obtain ⟨hlines, hstatements⟩ := Prod.mk.inj hshows
  refine ⟨s, hlines, fun b hb => ?_⟩
  have hb' := List.all_eq_true.mp hstatements b hb
  rw [Bool.and_eq_true, decide_eq_true_iff] at hb'
  have hread : ∀ b ∈ Day.statements, ∀ d ∈ b.1, d.readable = true := by decide
  obtain ⟨rows, hrows, -, -, -, hsingle⟩ := (balances_agree hs .units Day.tenant b.1 0 fun _ => Day.choice 0).1
    (hread b hb) fun a ha _ => List.all_eq_true.mp hb'.2 a ha
  rw [hrows] at hb'
  exact ⟨rows, hrows, Option.some.inj hb'.1, hsingle⟩

/-- The earliest date of JavaScript. -/
theorem not_always_listed : ¬ ∀ (sha256 : Text → Text) (s : Sys), Reaches sha256 anyStep s → ∀ (c : Collation)
    (tenantId : Uuid) (asOf : Option Date) (now : Nat) (choices : Nat → Choice),
    ∃ rows, accountBalancesOf c s.db now choices tenantId asOf = .ok rows := by
  intro h
  obtain ⟨rows, hrows⟩ := h id init .refl .units ⟨0⟩ (some ⟨-8640000000000000⟩) 0 fun _ => Day.choice 0
  cases hrows

end FinSight
