import FinSight.ReadCommitted.Alone
import FinSight.ReadCommitted.Running
import Mathlib.Data.Finset.Max
import Mathlib.Logic.Hydra

/-!
# Calls that wait for each other

Locks have levels. A call that waits only for locks above all it holds is part of no cycle of waiting calls, and
neither are calls that take the locks of one level in any order, as long as only one of them is in flight.

* `LockOrder`, `Program.Ascends`, `Program.Sweeps` : the two ways to take locks;
* `System.Ordered` : what every step keeps, `Ordered.step`;
* `exists_advances` : while a call is in flight some call can go on;
* `wellFounded_advances` : calls do not go on for ever;
* `Concludes`, `Ordered.concludes` : whatever goes on next, all calls end.
-/

namespace ReadCommitted

variable {Db W L E C Q R α β : Type}

/-- `level` : what is locked later is higher; `fresh` : locks of rows whose ids are generated for the statement. -/
structure LockOrder (C L : Type) where
  level : L → ℕ
  fresh : C → L → Prop

namespace LockOrder

variable (O : LockOrder C L)

/-- A lock that the holder of `held` may wait for. -/
def Above (c : C) (held : List L) (ℓ : L) : Prop := O.fresh c ℓ ∨ ∀ h ∈ held, O.level h < O.level ℓ

/-- All that is held is lower than `n`. -/
def Below (n : ℕ) (held : List L) : Prop := ∀ h ∈ held, O.level h < n

/-- What the statement takes or waits for is held already, or above all that is held; `P` holds of its result and the
locks it leaves. -/
def Rises (held : List L) (P : β → List L → Prop) (s : Statement Db W L E C β) : Prop :=
  ∀ ctx db r ws ls waits, s ctx db = .done r ws ls waits →
    (∀ ℓ ∈ ls ++ waits, ℓ ∈ held ∨ O.Above ctx.choice held ℓ) ∧ P r (held ++ ls)

/-- The statement takes or waits for no lock below level `n` but of rows that are new; `I` holds of its result and the
locks it takes. -/
def Takes (n : ℕ) (I : β → List L → Prop) (s : Statement Db W L E C β) : Prop :=
  ∀ ctx db r ws ls waits, s ctx db = .done r ws ls waits →
    (∀ ℓ ∈ ls ++ waits, O.fresh ctx.choice ℓ ∨ n ≤ O.level ℓ) ∧ I r ls

/-- One more than the highest level of a list. -/
def top (held : List L) : ℕ := (held.map fun h => O.level h + 1).foldr max 0

variable {O} {held : List L} {n : ℕ}

theorem level_lt_top {h : L} (hh : h ∈ held) : O.level h < O.top held := by
  induction held with
  | nil => cases hh
  | cons h' held ih =>
      show O.level h < max (O.level h' + 1) (O.top held)
      rcases List.mem_cons.mp hh with rfl | hh
      · omega
      · have hlt := ih hh
        omega

theorem top_le (h : O.Below n held) : O.top held ≤ n := by
  induction held with
  | nil => exact Nat.zero_le n
  | cons h' held ih =>
      obtain ⟨hfirst, hrest⟩ := List.forall_mem_cons.mp h
      have hle := ih hrest
      show max (O.level h' + 1) (O.top held) ≤ n
      omega

theorem Takes.rises {I : β → List L → Prop} {P : β → List L → Prop} {s : Statement Db W L E C β} (hs : O.Takes n I s)
    (hheld : O.Below n held) (hP : ∀ r ls, I r ls → P r (held ++ ls)) : O.Rises held P s := by
  intro ctx db r ws ls waits h
  obtain ⟨hlevels, hI⟩ := hs ctx db r ws ls waits h
  refine ⟨fun ℓ hℓ => Or.inr ?_, hP r ls hI⟩
  rcases hlevels ℓ hℓ with hfresh | hlevel
  · exact Or.inl hfresh
  · exact Or.inr fun h hh => Nat.lt_of_lt_of_le (hheld h hh) hlevel

/-- Statements that only read. -/
theorem takes_reads {s : Statement Db W L E C β}
    (h : ∀ ctx db r ws ls waits, s ctx db = .done r ws ls waits → ls = [] ∧ waits = []) :
    O.Takes n (fun _ ls => ls = []) s := by
  intro ctx db r ws ls waits hr
  obtain ⟨rfl, rfl⟩ := h ctx db r ws ls waits hr
  exact ⟨fun _ hℓ => absurd hℓ List.not_mem_nil, rfl⟩

/-- Whatever is held, a statement may read. -/
theorem rises_reads {P : β → List L → Prop} {s : Statement Db W L E C β}
    (h : ∀ ctx db r ws ls waits, s ctx db = .done r ws ls waits → ls = [] ∧ waits = []) (hP : ∀ r, P r held) :
    O.Rises held P s := by
  refine (takes_reads h).rises (n := O.top held) (fun _ => level_lt_top) ?_
  rintro r _ rfl
  rw [List.append_nil]
  exact hP r

theorem rises_query {P : β → List L → Prop} {f : Context C → Db → β} (hP : ∀ r, P r held) :
    O.Rises held P fun ctx db => (.done (f ctx db) [] [] [] : Reply W L E β) := by
  refine rises_reads (fun ctx db r ws ls waits h => ?_) hP
  cases h
  exact ⟨rfl, rfl⟩

end LockOrder

/-! ## Programs -/

namespace Program

variable (O : LockOrder C L)

/-- Statement after statement the program rises; `P` holds of its result and the locks it ends with. -/
def Ascends (P : α → List L → Prop) : Program Db W L E C α → List L → Prop
  | .ret a, held => P a held
  | .throw _, _ => True
  | .call s k, held => O.Rises held (fun r held' => (k r).Ascends P held') s

/-- Every statement takes locks of level `n` at most, and waits for none below. -/
def Sweeps (n : ℕ) : Program Db W L E C α → Prop
  | .ret _ => True
  | .throw _ => True
  | .call s k => O.Takes n (fun _ ls => ∀ ℓ ∈ ls, O.level ℓ ≤ n) s ∧ ∀ r, (k r).Sweeps n

variable {O} {P P' : α → List L → Prop} {p : Program Db W L E C α} {held : List L} {n : ℕ}

theorem Ascends.mono (hP : ∀ a held, P a held → P' a held) (h : p.Ascends O P held) : p.Ascends O P' held := by
  induction p generalizing held with
  | ret a => exact hP a held h
  | throw e => trivial
  | call s k ih =>
      intro ctx db r ws ls waits hr
      obtain ⟨habove, hrest⟩ := h ctx db r ws ls waits hr
      exact ⟨habove, ih r hrest⟩

theorem Ascends.bind {f : α → Program Db W L E C β} {P : β → List L → Prop}
    (h : p.Ascends O (fun a held => (f a).Ascends O P held) held) : (p >>= f).Ascends O P held := by
  induction p generalizing held with
  | ret a => exact h
  | throw e => trivial
  | call s k ih =>
      intro ctx db r ws ls waits hr
      obtain ⟨habove, hrest⟩ := h ctx db r ws ls waits hr
      exact ⟨habove, ih r hrest⟩

theorem Ascends.ret {a : α} (h : P a held) : (Program.ret a : Program Db W L E C α).Ascends O P held := h

theorem Ascends.statement {s : Statement Db W L E C β} {f : β → Program Db W L E C α}
    (h : O.Rises held (fun r held' => (f r).Ascends O P held') s) : (Program.statement s >>= f).Ascends O P held := h

theorem Ascends.last {s : Statement Db W L E C α} (h : O.Rises held P s) : (Program.statement s).Ascends O P held := h

theorem Sweeps.bind {f : α → Program Db W L E C β} (hp : p.Sweeps O n) (hf : ∀ a, (f a).Sweeps O n) :
    (p >>= f).Sweeps O n := by
  induction p with
  | ret a => exact hf a
  | throw e => trivial
  | call s k ih => exact ⟨hp.1, fun r => ih r (hp.2 r)⟩

/-! What is left of a program when it goes on, and whether its deferred constraints have been checked. -/

inductive Next : Program Db W L E C α × Bool → Program Db W L E C α × Bool → Prop
  | replied {γ : Type} (s : Statement Db W L E C γ) (k : γ → Program Db W L E C α) (r : γ) (prepared : Bool) :
      Next (k r, false) (.call s k, prepared)
  | raised {γ : Type} (s : Statement Db W L E C γ) (k : γ → Program Db W L E C α) (e : E) (prepared : Bool) :
      Next (.throw e, false) (.call s k, prepared)
  | refused (a : α) (e : E) : Next (.throw e, false) (.ret a, false)
  | prepared (a : α) : Next (.ret a, true) (.ret a, false)

theorem acc_throw (e : E) (prepared : Bool) : Acc Next ((.throw e, prepared) : Program Db W L E C α × Bool) :=
  ⟨_, fun _ h => by cases h⟩

theorem acc_ret (a : α) (prepared : Bool) : Acc Next ((.ret a, prepared) : Program Db W L E C α × Bool) := by
  have hchecked : Acc Next ((.ret a, true) : Program Db W L E C α × Bool) := ⟨_, fun _ h => by cases h⟩
  cases prepared with
  | true => exact hchecked
  | false =>
      refine ⟨_, fun y h => ?_⟩
      cases h with
      | refused _ e => exact acc_throw e false
      | prepared => exact hchecked

theorem wellFounded_next : WellFounded fun p p' : Program Db W L E C α × Bool => Next p p' := by
  refine ⟨fun ⟨p, prepared⟩ => ?_⟩
  induction p generalizing prepared with
  | ret a => exact acc_ret a prepared
  | throw e => exact acc_throw e prepared
  | call s k ih =>
      refine ⟨_, fun y h => ?_⟩
      cases h with
      | replied _ _ r => exact ih r false
      | raised _ _ e => exact acc_throw e false

end Program

/-! ## Systems -/

/-- A step that takes a call in flight further; `c` is what the engine generates for it. -/
def Label.Drives (c : C) : Label Q C → Prop
  | .exec _ c' => c' = c
  | .prepare _ | .commit _ | .rollback _ => True
  | .tick _ | .begin _ | .abort _ => False

/-- The rest of a call in flight, and whether it is prepared. -/
def Status.rest : Status Db W L E C R → Option (Program Db W L E C R × Bool)
  | .running tx => some (tx.program, tx.prepared)
  | .finished _ => none

namespace System

section
variable (O : LockOrder C L) (roams : Q → Prop) (n : ℕ)

/-- Nobody holds a lock of a row whose id is generated now. -/
def Unlocked (c : C) (s : System Db W L E C Q R) : Prop :=
  ∀ t call tx, s.Running t call tx → ∀ ℓ ∈ tx.locks, ¬ O.fresh c ℓ

/-- Nobody holds a lock of another, and all lock in order, but for those who `roams` names. -/
structure Ordered (s : System Db W L E C Q R) : Prop where
  apart : ∀ {t u call call' tx tx'}, s.Running t call tx → s.Running u call' tx' → t ≠ u → ∀ ℓ ∈ tx.locks, ℓ ∉ tx'.locks
  ascends : ∀ {t call tx}, s.Running t call tx → ¬ roams call.request → tx.program.Ascends O (fun _ _ => True) tx.locks
  sweeps : ∀ {t call tx}, s.Running t call tx → roams call.request → tx.program.Sweeps O n ∧ ∀ ℓ ∈ tx.locks, O.level ℓ ≤ n

/-- Only one of those who `roams` names is in flight. -/
def OneRoams (s : System Db W L E C Q R) : Prop :=
  ∀ t u call call' tx tx', s.Running t call tx → s.Running u call' tx' → roams call.request → roams call'.request → t = u

end

section
variable {G : Engine Db W E} {s : System Db W L E C Q R} {O : LockOrder C L} {roams : Q → Prop} {n t : ℕ}
  {call : Call Db W L E C Q R} {tx : Txn Db W L E C R}

/-! ### Heights and rests -/

open Classical in
/-- What a call in flight holds; among those who hold the same, those who roam are lower. -/
noncomputable def height (O : LockOrder C L) (roams : Q → Prop) (s : System Db W L E C Q R) (t : ℕ) : ℕ :=
  match s.calls[t]? with
  | some ⟨q, _, _, .running tx⟩ => 2 * O.top tx.locks + if roams q then 0 else 1
  | _ => 0

theorem height_roams (hrun : s.Running t call tx) (hq : roams call.request) : s.height O roams t = 2 * O.top tx.locks := by
  obtain ⟨q, now, origin, st⟩ := call
  obtain ⟨hget, hst⟩ := hrun
  change st = _ at hst
  subst hst
  simp only [height, hget, if_pos hq, Nat.add_zero]

theorem height_rises (hrun : s.Running t call tx) (hq : ¬ roams call.request) :
    s.height O roams t = 2 * O.top tx.locks + 1 := by
  obtain ⟨q, now, origin, st⟩ := call
  obtain ⟨hget, hst⟩ := hrun
  change st = _ at hst
  subst hst
  simp only [height, hget, if_neg hq]

/-- Who holds what a call waits for is higher than the call. -/
theorem Ordered.height_lt (hs : s.Ordered O roams n) (hone : s.OneRoams roams) {c : C} (hc : s.Unlocked O c)
    (hrun : s.Running t call tx) {γ : Type} {stmt : Statement Db W L E C γ} {next : γ → Program Db W L E C R} {r : γ}
    {ws : List W} {ls waits : List L} (hprog : tx.program = .call stmt next)
    (hreply : stmt ⟨call.startedAt, c⟩ (G.view tx.log s.db) = .done r ws ls waits) {u : ℕ} {call' : Call Db W L E C Q R}
    {tx' : Txn Db W L E C R} {ℓ : L} (hrun' : s.Running u call' tx') (hne : u ≠ t) (hwanted : ℓ ∈ ls ++ waits)
    (hheld : ℓ ∈ tx'.locks) : s.height O roams t < s.height O roams u := by
  have hstale : ¬ O.fresh c ℓ := hc u call' tx' hrun' ℓ hheld
  have htop := LockOrder.level_lt_top (O := O) hheld
  by_cases hq : roams call.request
  · obtain ⟨hsweeps, hlow⟩ := hs.sweeps hrun hq
    rw [hprog] at hsweeps
    have hq' : ¬ roams call'.request := fun hq' => hne (hone u t call' call tx' tx hrun' hrun hq' hq)
    have hn : n ≤ O.level ℓ := ((hsweeps.1 _ _ r ws ls waits hreply).1 ℓ hwanted).resolve_left hstale
    have hle : O.top tx.locks ≤ n + 1 := LockOrder.top_le fun h hh => Nat.lt_succ_of_le (hlow h hh)
    rw [height_roams hrun hq, height_rises hrun' hq']
    omega
  · have hrises := hs.ascends hrun hq
    rw [hprog] at hrises
    have habove : ∀ h ∈ tx.locks, O.level h < O.level ℓ := by
      rcases (hrises _ _ r ws ls waits hreply).1 ℓ hwanted with hmine | hfresh | habove
      · exact absurd hheld (hs.apart hrun hrun' (Ne.symm hne) ℓ hmine)
      · exact absurd hfresh hstale
      · exact habove
    have hle : O.top tx.locks ≤ O.level ℓ := LockOrder.top_le habove
    rw [height_rises hrun hq]
    by_cases hq' : roams call'.request
    · rw [height_roams hrun' hq']
      omega
    · rw [height_rises hrun' hq']
      omega

theorem Ordered.init (hcalls : s.calls = []) : s.Ordered O roams n where
  apart hrun := absurd hrun (not_running_of_nil hcalls)
  ascends hrun := absurd hrun (not_running_of_nil hcalls)
  sweeps hrun := absurd hrun (not_running_of_nil hcalls)

/-- The rest of each call in flight. -/
def rests (s : System Db W L E C Q R) : Multiset (Program Db W L E C R × Bool) :=
  (s.calls.filterMap fun call => call.status.rest : List (Program Db W L E C R × Bool))

/-- One rest among the others. -/
theorem rests_setStatus (hrun : s.Running t call tx) :
    ∃ others : Multiset (Program Db W L E C R × Bool), s.rests = others + {(tx.program, tx.prepared)} ∧
      (∀ tx', (s.setStatus t (.running tx')).rests = others + {(tx'.program, tx'.prepared)}) ∧
      ∀ o, (s.setStatus t (.finished o)).rests = others := by
  obtain ⟨hlen, hcall⟩ := List.getElem?_eq_some_iff.mp hrun.get
  have hset (st : Status Db W L E C R) :
      (s.setStatus t st).calls = s.calls.take t ++ { call with status := st } :: s.calls.drop (t + 1) := by
    rw [← hcall]
    exact List.modify_eq_take_cons_drop hlen
  let before := (s.calls.take t).filterMap fun call => call.status.rest
  let after := (s.calls.drop (t + 1)).filterMap fun call => call.status.rest
  have hrunning (tx' : Txn Db W L E C R) : (s.setStatus t (.running tx')).rests =
      ((before ++ after : List _) : Multiset _) + {(tx'.program, tx'.prepared)} := by
    unfold rests
    rw [hset, List.filterMap_append, ← Multiset.coe_singleton, Multiset.coe_add, Multiset.coe_eq_coe]
    exact List.perm_middle.trans (List.perm_append_singleton (tx'.program, tx'.prepared) (before ++ after)).symm
  refine ⟨(before ++ after : List _), ?_, hrunning, fun o => ?_⟩
  · rw [← hrunning, setStatus_self hrun]
  · unfold rests
    rw [hset, List.filterMap_append]
    rfl

end

section
variable [DecidableEq L] {G : Engine Db W E} {program : Q → Program Db W L E C R} {s s' : System Db W L E C Q R}
  {O : LockOrder C L} {roams : Q → Prop} {n t : ℕ} {call : Call Db W L E C Q R} {tx : Txn Db W L E C R}

/-! ### Locking in order -/

/-- What a call in flight holds: what it held before, nothing, or some locks more that nobody else holds. -/
theorem locks_of_became {l : Label Q C} (h : Became G program s l t call tx) :
    (∃ call₀ tx₀, s.Running t call₀ tx₀ ∧ tx.locks = tx₀.locks) ∨ tx.locks = [] ∨
      ∃ c call₀ tx₀ ls, l = .exec t c ∧ s.Running t call₀ tx₀ ∧ tx.locks = tx₀.locks ++ ls ∧ s.free t ls = true := by
  cases h with
  | stayed hrun => exact Or.inl ⟨_, _, hrun, rfl⟩
  | began _ _ _ htx => exact Or.inr (Or.inl (congrArg Txn.locks htx))
  | raised _ hrun _ _ _ htx => exact Or.inl ⟨_, _, hrun, by rw [htx]⟩
  | @replied call₀ tx₀ c _ _ _ _ _ ls waits hl hrun _ _ hfree _ htx =>
      refine Or.inr (Or.inr ⟨c, call₀, tx₀, ls, hl, hrun, congrArg Txn.locks htx, ?_⟩)
      rw [free_iff] at hfree ⊢
      exact fun u call' tx' hrun' hne ℓ hℓ => hfree u call' tx' hrun' hne ℓ (List.mem_append_left _ hℓ)
  | refused _ hrun _ _ htx => exact Or.inl ⟨_, _, hrun, by rw [htx]⟩
  | prepared _ hrun _ _ htx => exact Or.inl ⟨_, _, hrun, by rw [htx]⟩

/-- What others hold is no lock that is new to a call. -/
theorem Ordered.apart_step (hs : s.Ordered O roams n) {l : Label Q C} (h : s.step G program l = some s') {u : ℕ}
    {call' : Call Db W L E C Q R} {tx' : Txn Db W L E C R} (hrun : s'.Running t call tx) (hrun' : s'.Running u call' tx')
    (hne : t ≠ u) : ∀ ℓ ∈ tx.locks, ℓ ∉ tx'.locks := by
  intro ℓ hℓ hℓ'
  rcases locks_of_became (became h hrun) with ⟨call₀, tx₀, hrun₀, hlocks⟩ | hnone | ⟨c, call₀, tx₀, ls, hl, hrun₀, hlocks, hfree⟩
  · rw [hlocks] at hℓ
    rcases locks_of_became (became h hrun') with ⟨call₁, tx₁, hrun₁, hlocks'⟩ | hnone' | ⟨c', call₁, tx₁, ls', _, hrun₁, hlocks', hfree'⟩
    · rw [hlocks'] at hℓ'
      exact hs.apart hrun₀ hrun₁ hne ℓ hℓ hℓ'
    · rw [hnone'] at hℓ'
      cases hℓ'
    · rw [hlocks'] at hℓ'
      rcases List.mem_append.mp hℓ' with hold | hnew
      · exact hs.apart hrun₀ hrun₁ hne ℓ hℓ hold
      · exact (free_iff s u ls').mp hfree' t call₀ tx₀ hrun₀ hne ℓ hnew hℓ
  · rw [hnone] at hℓ
    cases hℓ
  · have hother : ∃ call₁ tx₁, s.Running u call₁ tx₁ ∧ ℓ ∈ tx₁.locks := by
      rcases locks_of_became (became h hrun') with ⟨call₁, tx₁, hrun₁, hlocks'⟩ | hnone' | ⟨c', _, _, _, hl', _, _, _⟩
      · exact ⟨call₁, tx₁, hrun₁, hlocks' ▸ hℓ'⟩
      · rw [hnone'] at hℓ'
        cases hℓ'
      · rw [hl] at hl'
        exact absurd (Label.exec.inj hl').1 hne
    obtain ⟨call₁, tx₁, hrun₁, hℓ₁⟩ := hother
    rw [hlocks] at hℓ
    rcases List.mem_append.mp hℓ with hold | hnew
    · exact hs.apart hrun₀ hrun₁ hne ℓ hold hℓ₁
    · exact (free_iff s t ls).mp hfree u call₁ tx₁ hrun₁ (Ne.symm hne) ℓ hnew hℓ₁

theorem Ordered.step (hs : s.Ordered O roams n) (hascends : ∀ q, ¬ roams q → (program q).Ascends O (fun _ _ => True) [])
    (hsweeps : ∀ q, roams q → (program q).Sweeps O n) {l : Label Q C} (h : s.step G program l = some s') :
    s'.Ordered O roams n where
  apart hrun hrun' hne := hs.apart_step h hrun hrun' hne
  ascends hrun hq := by
    cases became h hrun with
    | stayed hrun => exact hs.ascends hrun hq
    | @began q _ _ hcall htx =>
        subst htx
        rw [hcall] at hq
        exact hascends q hq
    | raised _ _ _ _ _ htx => exact htx ▸ trivial
    | @replied call₀ tx₀ c _ _ _ r ws ls waits _ hrun₀ hprog hr _ hcall htx =>
        rw [hcall] at hq
        have hrest := hs.ascends hrun₀ hq
        rw [hprog] at hrest
        exact htx ▸ (hrest _ _ r ws ls waits hr).2
    | refused _ _ _ _ htx => exact htx ▸ trivial
    | prepared _ hrun₀ _ hcall htx =>
        rw [hcall] at hq
        have hrest := hs.ascends hrun₀ hq
        exact htx ▸ hrest
  sweeps hrun hq := by
    cases became h hrun with
    | stayed hrun => exact hs.sweeps hrun hq
    | @began q _ _ hcall htx =>
        subst htx
        rw [hcall] at hq
        exact ⟨hsweeps q hq, fun _ hℓ => absurd hℓ List.not_mem_nil⟩
    | raised _ hrun₀ _ _ hcall htx =>
        rw [hcall] at hq
        rw [htx]
        exact ⟨trivial, (hs.sweeps hrun₀ hq).2⟩
    | @replied call₀ tx₀ c _ _ _ r ws ls waits _ hrun₀ hprog hr _ hcall htx =>
        rw [hcall] at hq
        obtain ⟨hrest, hheld⟩ := hs.sweeps hrun₀ hq
        rw [hprog] at hrest
        rw [htx]
        refine ⟨hrest.2 r, fun ℓ hℓ => ?_⟩
        rcases List.mem_append.mp hℓ with hℓ | hℓ
        · exact hheld ℓ hℓ
        · exact (hrest.1 _ _ r ws ls waits hr).2 ℓ hℓ
    | refused _ hrun₀ _ hcall htx =>
        rw [hcall] at hq
        rw [htx]
        exact ⟨trivial, (hs.sweeps hrun₀ hq).2⟩
    | prepared _ hrun₀ _ hcall htx =>
        rw [hcall] at hq
        have hrest := hs.sweeps hrun₀ hq
        exact htx ▸ hrest

/-! ### Going on -/

/-- The next state of some call in flight, when `c` is generated for its statement. -/
def Advances (G : Engine Db W E) (program : Q → Program Db W L E C R) (c : C) (s s' : System Db W L E C Q R) : Prop :=
  ∃ l : Label Q C, l.Drives c ∧ s.step G program l = some s'

/-- A call in flight goes on, or its statement wants a lock of another. -/
theorem advances_or_waits (hrun : s.Running t call tx) (c : C) :
    (∃ s', s.Advances G program c s') ∨
      ∃ (γ : Type) (stmt : Statement Db W L E C γ) (next : γ → Program Db W L E C R) (r : γ) (ws : List W) (ls waits : List L),
        tx.program = .call stmt next ∧ stmt ⟨call.startedAt, c⟩ (G.view tx.log s.db) = .done r ws ls waits ∧
          ∃ u call' tx' ℓ, s.Running u call' tx' ∧ u ≠ t ∧ ℓ ∈ ls ++ waits ∧ ℓ ∈ tx'.locks := by
  obtain ⟨q, now, origin, st⟩ := call
  obtain ⟨hget, hst⟩ := hrun
  change st = _ at hst
  subst hst
  obtain ⟨p, log, locks, prepared⟩ := tx
  cases p with
  | ret r =>
      refine Or.inl ?_
      cases prepared with
      | true => exact ⟨_, .commit t, trivial, by simp only [step, hget]; rfl⟩
      | false =>
          cases hdeferred : G.deferred (G.view log s.db) log with
          | some e => exact ⟨_, .prepare t, trivial, by simp only [step, hget, hdeferred]; rfl⟩
          | none => exact ⟨_, .prepare t, trivial, by simp only [step, hget, hdeferred]; rfl⟩
  | throw e => exact Or.inl ⟨_, .rollback t, trivial, by simp only [step, hget]; rfl⟩
  | @call γ stmt next =>
      have hstep := step_exec G program (s := s) (t := t) ⟨hget, rfl⟩ c
      cases hreply : stmt ⟨now, c⟩ (G.view log s.db) with
      | error e =>
          rw [hreply] at hstep
          exact Or.inl ⟨_, .exec t c, rfl, hstep⟩
      | done r ws ls waits =>
          rw [hreply] at hstep
          by_cases hfree : s.free t (ls ++ waits) = true
          · exact Or.inl ⟨_, .exec t c, rfl, hstep.trans (if_pos hfree)⟩
          · refine Or.inr ⟨γ, stmt, next, r, ws, ls, waits, rfl, hreply, ?_⟩
            rw [free_iff] at hfree
            push Not at hfree
            obtain ⟨u, call', tx', hrun', hne, ℓ, hℓ, hheld⟩ := hfree
            exact ⟨u, call', tx', ℓ, hrun', hne, hℓ, hheld⟩

/-- While a call is in flight, some call can go on: the highest one waits for nobody. -/
theorem Ordered.exists_advances (hs : s.Ordered O roams n) (hone : s.OneRoams roams) {c : C} (hc : s.Unlocked O c)
    (hrun : s.Running t call tx) : ∃ s', s.Advances G program c s' := by
  classical
  let running : Finset ℕ := (Finset.range s.calls.length).filter fun u => ∃ call' tx', s.Running u call' tx'
  have hmem : ∀ {u call' tx'}, s.Running u call' tx' → u ∈ running := fun hrun' =>
    Finset.mem_filter.mpr ⟨Finset.mem_range.mpr (List.getElem?_eq_some_iff.mp hrun'.get).1, _, _, hrun'⟩
  obtain ⟨m, hm, hmax⟩ := running.exists_max_image (s.height O roams) ⟨t, hmem hrun⟩
  obtain ⟨call₀, tx₀, hrun₀⟩ := (Finset.mem_filter.mp hm).2
  have hcases : (∃ s', s.Advances G program c s') ∨ _ := advances_or_waits hrun₀ c
  rcases hcases with hgo | ⟨γ, stmt, next, r, ws, ls, waits, hprog, hreply, u, call', tx', ℓ, hrun', hne, hwanted, hheld⟩
  · exact hgo
  · have hlt := hs.height_lt hone hc hrun₀ hprog hreply hrun' hne hwanted hheld
    exact absurd (hmax u (hmem hrun')) (Nat.not_le.mpr hlt)

/-! ### Coming to an end -/

theorem prepare_once (h : s.step G program (.prepare t) = some s') (hrun : s.Running t call tx) : tx.prepared = false := by
  simp only [step] at h
  split at h
  · next q now origin r log locks hget =>
    rw [Option.some.inj (hrun.get.symm.trans hget)] at hrun
    exact (congrArg Txn.prepared (Status.running.inj hrun.status)).symm
  · cases h

/-- A call that goes on has less left to do, and the others as much as before. -/
theorem rests_advances {c : C} (h : s.Advances G program c s') : Relation.CutExpand Program.Next s'.rests s.rests := by
  obtain ⟨l, hl, hstep⟩ := h
  have hless {t : ℕ} {call : Call Db W L E C Q R} {tx tx' : Txn Db W L E C R} (hrun : s.Running t call tx)
      (hnext : Program.Next (tx'.program, tx'.prepared) (tx.program, tx.prepared)) :
      Relation.CutExpand Program.Next (s.setStatus t (.running tx')).rests s.rests := by
    obtain ⟨others, hbefore, hafter, -⟩ := rests_setStatus hrun
    rw [hbefore, hafter]
    exact Relation.cutExpand_add_single others hnext
  have hgone {t : ℕ} {call : Call Db W L E C Q R} {tx : Txn Db W L E C R} (hrun : s.Running t call tx) (o : Outcome E R) :
      Relation.CutExpand Program.Next (s.setStatus t (.finished o)).rests s.rests := by
    obtain ⟨others, hbefore, -, hafter⟩ := rests_setStatus hrun
    rw [hbefore, hafter]
    exact ⟨0, _, fun _ h => absurd h (Multiset.notMem_zero _), by rw [add_zero]⟩
  cases l with
  | tick d => exact absurd hl id
  | begin q => exact absurd hl id
  | abort t => exact absurd hl id
  | exec t c =>
      obtain ⟨call, tx, γ, stmt, next, hrun, hprog, ⟨e, _, rfl⟩ | ⟨r, ws, ls, waits, _, _, rfl⟩⟩ := exec_inv hstep
      · exact hless hrun (hprog ▸ .raised stmt next e tx.prepared)
      · exact hless hrun (hprog ▸ .replied stmt next r tx.prepared)
  | prepare t =>
      obtain ⟨call, tx, r, hrun, hprog, ⟨e, _, rfl⟩ | ⟨_, rfl⟩⟩ := prepare_inv hstep
      · exact hless hrun (by rw [hprog, prepare_once hstep hrun]; exact .refused r e)
      · exact hless hrun (by rw [hprog, prepare_once hstep hrun]; exact .prepared r)
  | commit t =>
      obtain ⟨call, tx, r, hrun, _, _, rfl⟩ := commit_inv hstep
      exact hgone hrun (.returned r)
  | rollback t =>
      obtain ⟨call, tx, e, hrun, _, rfl⟩ := rollback_inv hstep
      exact hgone hrun (.failed e)

/-- Calls do not go on for ever. -/
theorem wellFounded_advances (G : Engine Db W E) (program : Q → Program Db W L E C R) :
    WellFounded fun s' s : System Db W L E C Q R => ∃ c, s.Advances G program c s' := by
  have hnext : WellFounded fun p p' : Program Db W L E C R × Bool => Program.Next p p' := Program.wellFounded_next
  have hrests := InvImage.wf (fun s : System Db W L E C Q R => s.rests) (WellFounded.cutExpand hnext)
  refine Subrelation.wf ?_ hrests
  rintro s' s ⟨c, h⟩
  exact rests_advances h

/-- Whatever calls in flight go on, all of them end after finitely many steps: until then one of them can go on, with any
ids that are new. -/
inductive Concludes (O : LockOrder C L) (G : Engine Db W E) (program : Q → Program Db W L E C R) : System Db W L E C Q R → Prop
  | intro {s : System Db W L E C Q R} :
      (∀ c, s.Unlocked O c → (∃ t call tx, s.Running t call tx) → ∃ s', s.Advances G program c s') →
      (∀ c s', s.Advances G program c s' → Concludes O G program s') → Concludes O G program s

/-- No call begins. -/
theorem running_advances {c : C} (h : s.Advances G program c s') {call' : Call Db W L E C Q R} {tx' : Txn Db W L E C R}
    (hrun : s'.Running t call' tx') : ∃ call tx, s.Running t call tx ∧ call'.request = call.request := by
  obtain ⟨l, hl, hstep⟩ := h
  cases became hstep hrun with
  | stayed hrun => exact ⟨_, _, hrun, rfl⟩
  | began hbegin =>
      subst hbegin
      exact absurd hl id
  | raised _ hrun _ _ hcall => exact ⟨_, _, hrun, by rw [hcall]⟩
  | replied _ hrun _ _ _ hcall => exact ⟨_, _, hrun, by rw [hcall]⟩
  | refused _ hrun _ hcall => exact ⟨_, _, hrun, by rw [hcall]⟩
  | prepared _ hrun _ hcall => exact ⟨_, _, hrun, by rw [hcall]⟩

theorem OneRoams.advances (hone : s.OneRoams roams) {c : C} (h : s.Advances G program c s') : s'.OneRoams roams := by
  intro t u call call' tx tx' hrun hrun' hq hq'
  obtain ⟨call₀, tx₀, hrun₀, hreq⟩ := running_advances h hrun
  obtain ⟨call₁, tx₁, hrun₁, hreq'⟩ := running_advances h hrun'
  exact hone t u call₀ call₁ tx₀ tx₁ hrun₀ hrun₁ (hreq ▸ hq) (hreq' ▸ hq')

theorem Ordered.concludes (hs : s.Ordered O roams n) (hascends : ∀ q, ¬ roams q → (program q).Ascends O (fun _ _ => True) [])
    (hsweeps : ∀ q, roams q → (program q).Sweeps O n) (hone : s.OneRoams roams) : s.Concludes O G program := by
  induction s using (wellFounded_advances G program).induction with
  | h s ih =>
      refine .intro (fun c hc ⟨t, call, tx, hrun⟩ => hs.exists_advances hone hc hrun) fun c s' hstep => ?_
      obtain ⟨l, -, hl⟩ := id hstep
      exact ih s' ⟨c, hstep⟩ (hs.step hascends hsweeps hl) (hone.advances hstep)

/-- In every run calls lock in order. -/
theorem ordered_of_reachable {ok : System Db W L E C Q R → Label Q C → Prop} {s₀ : System Db W L E C Q R}
    (hascends : ∀ q, ¬ roams q → (program q).Ascends O (fun _ _ => True) []) (hsweeps : ∀ q, roams q → (program q).Sweeps O n)
    (hcalls : s₀.calls = []) (h : Reachable G program ok s₀ s) : s.Ordered O roams n := by
  induction h with
  | refl => exact .init hcalls
  | step _ _ hstep ih => exact ih.step hascends hsweeps hstep

end

end System

end ReadCommitted
