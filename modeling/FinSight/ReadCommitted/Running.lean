import FinSight.ReadCommitted.Interleaving
import Mathlib.Data.List.Induction

/-!
# Transactions in flight

* `Became` : where a transaction that is in flight after a step comes from, `became` : these are all the ways;
* `Program.Every` : what every statement of a program replies, at any database; `every_of_running` : it stays so in
  flight;
* `Program.Raises.mono` : of the errors of a program; `System.Raised` : the statement of a run that failed,
  `raised_of_thrown` : a call that has thrown has such a statement.
-/

namespace ReadCommitted

variable {Db W L E C Q R α β : Type}

/-- Call `t` is in flight as `tx'` after the step `l` from `s`. -/
inductive Became [DecidableEq L] (G : Engine Db W E) (program : Q → Program Db W L E C R) (s : System Db W L E C Q R)
    (l : Label Q C) (t : Nat) (call' : Call Db W L E C Q R) (tx' : Txn Db W L E C R) : Prop
  | stayed : s.Running t call' tx' → Became G program s l t call' tx'
  | began {q : Q} : l = .begin q → t = s.calls.length → call' = ⟨q, s.clock, s.db, .running tx'⟩ →
      tx' = ⟨program q, [], [], false⟩ → Became G program s l t call' tx'
  | raised {call tx c} {γ : Type} {stmt : Statement Db W L E C γ} {next e} : l = .exec t c → s.Running t call tx →
      tx.program = .call stmt next → stmt ⟨call.startedAt, c⟩ (G.view tx.log s.db) = .error e →
      call' = { call with status := .running tx' } → tx' = { tx with program := .throw e, prepared := false } →
      Became G program s l t call' tx'
  | replied {call tx c} {γ : Type} {stmt : Statement Db W L E C γ} {next r ws ls waits} : l = .exec t c →
      s.Running t call tx → tx.program = .call stmt next →
      stmt ⟨call.startedAt, c⟩ (G.view tx.log s.db) = .done r ws ls waits → s.free t (ls ++ waits) = true →
      call' = { call with status := .running tx' } → tx' = ⟨next r, tx.log ++ ws, tx.locks ++ ls, false⟩ →
      Became G program s l t call' tx'
  | refused {call tx e} : l = .prepare t → s.Running t call tx → G.deferred (G.view tx.log s.db) tx.log = some e →
      call' = { call with status := .running tx' } → tx' = { tx with program := .throw e, prepared := false } →
      Became G program s l t call' tx'
  | prepared {call tx r} : l = .prepare t → s.Running t call tx → tx.program = .ret r →
      call' = { call with status := .running tx' } → tx' = { tx with prepared := true } →
      Became G program s l t call' tx'

namespace System

/-- A call in flight whose status a step has set, or another one. -/
theorem running_set {s s' : System Db W L E C Q R} {u : Nat} {call₀ : Call Db W L E C Q R} {st : Status Db W L E C R}
    (hget : s.calls[u]? = some call₀) (hcalls : s'.calls = (s.setStatus u st).calls) {t : Nat} {call : Call Db W L E C Q R}
    {tx : Txn Db W L E C R} (hrun : s'.Running t call tx) :
    s.Running t call tx ∨ (t = u ∧ st = .running tx ∧ call = { call₀ with status := .running tx }) := by
  have hget' := hrun.get
  rw [hcalls, setStatus_get] at hget'
  split at hget'
  · next hu =>
    rw [← hu, hget, Option.map_some] at hget'
    have hcall := Option.some.inj hget'
    have hst : st = .running tx := by
      have hstatus := hrun.status
      rw [← hcall] at hstatus
      exact hstatus
    exact Or.inr ⟨hu.symm, hst, by rw [← hcall, hst]⟩
  · exact Or.inl ⟨hget', hrun.status⟩

/-- Before the first call nothing is in flight. -/
theorem not_running_of_nil {s : System Db W L E C Q R} {t : Nat} {call : Call Db W L E C Q R} {tx : Txn Db W L E C R}
    (hcalls : s.calls = []) : ¬ s.Running t call tx := by
  intro h
  have hget := h.get
  simp [hcalls] at hget

variable [DecidableEq L] {G : Engine Db W E} {program : Q → Program Db W L E C R} {s s' : System Db W L E C Q R} {t : Nat}

theorem became {l : Label Q C} (h : s.step G program l = some s') {call : Call Db W L E C Q R} {tx : Txn Db W L E C R}
    (hrun : s'.Running t call tx) : Became G program s l t call tx := by
  cases l with
  | tick d =>
      cases h
      exact .stayed ⟨hrun.get, hrun.status⟩
  | begin q =>
      rcases step_calls h hrun.get with ⟨call₀, hget₀, _⟩ | ⟨q', hl, ht, hcall⟩
      · cases h
        have hlen := (List.getElem?_eq_some_iff.mp hget₀).1
        have hget := hrun.get
        rw [List.getElem?_append_left hlen] at hget
        exact .stayed ⟨hget, hrun.status⟩
      · have htx : tx = ⟨program q', [], [], false⟩ := by
          have hst := hrun.status
          rw [hcall] at hst
          exact (Status.running.inj hst).symm
        exact .began hl ht (by rw [hcall, htx]) htx
  | exec u c =>
      obtain ⟨call₀, tx₀, γ, stmt, next, hrun₀, hprog, ⟨e, he, rfl⟩ | ⟨r, ws, ls, waits, hr, hfree, rfl⟩⟩ := exec_inv h
      · rcases running_set hrun₀.get rfl hrun with hrun | ⟨rfl, hst, hcall⟩
        · exact .stayed hrun
        · exact .raised rfl hrun₀ hprog he hcall (Status.running.inj hst).symm
      · rcases running_set hrun₀.get rfl hrun with hrun | ⟨rfl, hst, hcall⟩
        · exact .stayed hrun
        · exact .replied rfl hrun₀ hprog hr hfree hcall (Status.running.inj hst).symm
  | prepare u =>
      obtain ⟨call₀, tx₀, r, hrun₀, hr, ⟨e, he, rfl⟩ | ⟨_, rfl⟩⟩ := prepare_inv h
      · rcases running_set hrun₀.get rfl hrun with hrun | ⟨rfl, hst, hcall⟩
        · exact .stayed hrun
        · exact .refused rfl hrun₀ he hcall (Status.running.inj hst).symm
      · rcases running_set hrun₀.get rfl hrun with hrun | ⟨rfl, hst, hcall⟩
        · exact .stayed hrun
        · exact .prepared rfl hrun₀ hr hcall (Status.running.inj hst).symm
  | commit u =>
      obtain ⟨call₀, tx₀, r, hrun₀, _, _, hs'⟩ := commit_inv h
      have hcalls : s'.calls = (s.setStatus u (.finished (.returned r))).calls := by rw [hs']
      rcases running_set hrun₀.get hcalls hrun with hrun | ⟨_, hst, _⟩
      · exact .stayed hrun
      · cases hst
  | rollback u =>
      obtain ⟨call₀, tx₀, e, hrun₀, _, rfl⟩ := rollback_inv h
      rcases running_set hrun₀.get rfl hrun with hrun | ⟨_, hst, _⟩
      · exact .stayed hrun
      · cases hst
  | abort u =>
      obtain ⟨call₀, tx₀, hrun₀, rfl⟩ := abort_inv h
      rcases running_set hrun₀.get rfl hrun with hrun | ⟨_, hst, _⟩
      · exact .stayed hrun
      · cases hst

/-- A call in flight was in flight before the step, or has just begun. -/
theorem running_before {l : Label Q C} (h : s.step G program l = some s') {call' : Call Db W L E C Q R}
    {tx' : Txn Db W L E C R} (hrun : s'.Running t call' tx') :
    (∃ call tx, s.Running t call tx ∧ call'.request = call.request) ∨
      (t = s.calls.length ∧ tx' = ⟨program call'.request, [], [], false⟩) := by
  cases became h hrun with
  | stayed hrun => exact Or.inl ⟨_, _, hrun, rfl⟩
  | began _ ht hcall htx =>
      refine Or.inr ⟨ht, ?_⟩
      rw [hcall]
      exact htx
  | raised _ hrun _ _ hcall _ => exact Or.inl ⟨_, _, hrun, by rw [hcall]⟩
  | replied _ hrun _ _ _ hcall _ => exact Or.inl ⟨_, _, hrun, by rw [hcall]⟩
  | refused _ hrun _ hcall _ => exact Or.inl ⟨_, _, hrun, by rw [hcall]⟩
  | prepared _ hrun _ hcall _ => exact Or.inl ⟨_, _, hrun, by rw [hcall]⟩

/-- Where the program of a call stands when the call ends. -/
theorem ends_program {l : Label Q C} (h : s.step G program l = some s') {call : Call Db W L E C Q R}
    {tx : Txn Db W L E C R} {o : Outcome E R} (hends : s.Ends s' t call tx o) :
    (∃ r, o = .returned r ∧ tx.program = .ret r ∧ s'.db = G.view tx.log s.db) ∨
      (∃ e, o = .failed e ∧ tx.program = .throw e ∧ s'.db = s.db) ∨ (o = .aborted ∧ s'.db = s.db) := by
  have hset : ∀ {u : Nat} {st : Status Db W L E C R}, s'.calls = (s.setStatus u st).calls → u = t ∧ st = .finished o :=
    fun hcalls => hends.setStatus hcalls
  cases l with
  | tick d =>
      cases h
      exact absurd rfl hends.calls_ne
  | begin q =>
      cases h
      have hlen := (List.getElem?_eq_some_iff.mp hends.running.get).1
      exact absurd (List.getElem?_append_left hlen) hends.calls_ne
  | exec u c =>
      obtain ⟨_, _, _, _, _, _, _, ⟨_, _, rfl⟩ | ⟨_, _, _, _, _, _, rfl⟩⟩ := exec_inv h
      · cases (hset rfl).2
      · cases (hset rfl).2
  | prepare u =>
      obtain ⟨_, _, _, _, _, ⟨_, _, rfl⟩ | ⟨_, rfl⟩⟩ := prepare_inv h
      · cases (hset rfl).2
      · cases (hset rfl).2
  | commit u =>
      obtain ⟨call₀, tx₀, r, hrun, hret, _, rfl⟩ := commit_inv h
      obtain ⟨rfl, hst⟩ := hset rfl
      cases hst
      obtain rfl := hends.running.tx_eq (hends.running.call_eq hrun ▸ hrun)
      exact Or.inl ⟨r, rfl, hret, rfl⟩
  | rollback u =>
      obtain ⟨call₀, tx₀, e, hrun, hthrow, rfl⟩ := rollback_inv h
      obtain ⟨rfl, hst⟩ := hset rfl
      cases hst
      obtain rfl := hends.running.tx_eq (hends.running.call_eq hrun ▸ hrun)
      exact Or.inr (Or.inl ⟨e, rfl, hthrow, rfl⟩)
  | abort u =>
      obtain ⟨_, _, _, rfl⟩ := abort_inv h
      obtain ⟨rfl, hst⟩ := hset rfl
      cases hst
      exact Or.inr (Or.inr ⟨rfl, rfl⟩)

end System

/-! ## What every statement replies -/

/-- Writes and locks of each reply satisfy `I`. -/
def Program.Every (I : Context C → List W → List L → Prop) : Program Db W L E C α → Prop
  | .ret _ => True
  | .throw _ => True
  | .call s k => (∀ ctx db r ws ls waits, s ctx db = .done r ws ls waits → I ctx ws ls) ∧ ∀ r, (k r).Every I

theorem Program.Every.bind {I : Context C → List W → List L → Prop} {p : Program Db W L E C α}
    {f : α → Program Db W L E C β} (hp : p.Every I) (hf : ∀ a, (f a).Every I) : (p >>= f).Every I := by
  induction p with
  | ret a => exact hf a
  | throw e => exact trivial
  | call s k ih => exact ⟨hp.1, fun r => ih r (hp.2 r)⟩

theorem Program.Every.call {I : Context C → List W → List L → Prop} {s : Statement Db W L E C α}
    {f : α → Program Db W L E C β} (hs : ∀ ctx db r ws ls waits, s ctx db = .done r ws ls waits → I ctx ws ls)
    (hf : ∀ a, (f a).Every I) : (Program.statement s >>= f).Every I := ⟨hs, hf⟩

/-- The rest of a program in flight still replies so. -/
theorem System.every_of_running [DecidableEq L] {G : Engine Db W E} {program : Q → Program Db W L E C R}
    {ok : System Db W L E C Q R → Label Q C → Prop} {s₀ s : System Db W L E C Q R}
    {I : Context C → List W → List L → Prop} (hI : ∀ q, (program q).Every I) (hcalls : s₀.calls = [])
    (h : System.Reachable G program ok s₀ s) {t : Nat} {call : Call Db W L E C Q R} {tx : Txn Db W L E C R}
    (hrun : s.Running t call tx) : tx.program.Every I := by
  induction h generalizing t call tx with
  | refl => exact absurd hrun (System.not_running_of_nil hcalls)
  | step _ _ hstep ih =>
      cases System.became hstep hrun with
      | stayed hrun => exact ih hrun
      | began _ _ _ htx => exact htx ▸ hI _
      | raised _ _ _ _ _ htx => exact htx ▸ trivial
      | replied _ hrun₀ hprog _ _ _ htx =>
          have hall := ih hrun₀
          rw [hprog] at hall
          exact htx ▸ hall.2 _
      | refused _ _ _ _ htx => exact htx ▸ trivial
      | prepared _ hrun₀ _ _ htx =>
          have hrest := ih hrun₀
          rw [htx]
          exact hrest

/-! ## Where errors come from -/

section Raises
variable {I : Context C → Db → E → Prop} {P : E → Prop}

theorem Program.Raises.mono {I' : Context C → Db → E → Prop} {P' : E → Prop} (hI : ∀ ctx db e, I ctx db e → I' ctx db e)
    (hP : ∀ e, P e → P' e) {p : Program Db W L E C α} (hp : p.Raises I P) : p.Raises I' P' := by
  induction p with
  | ret a => trivial
  | throw e => exact hP e hp
  | call s k ih => exact ⟨fun ctx db e h => hI ctx db e (hp.1 ctx db e h), fun r => ih r (hp.2 r)⟩

end Raises

namespace System
variable [DecidableEq L] {G : Engine Db W E} {program : Q → Program Db W L E C R} {s₀ s s' : System Db W L E C Q R}
  {events : List (Label Q C)} {t : Nat} {call : Call Db W L E C Q R} {tx : Txn Db W L E C R} {e : E}

/-- In the run `events` from `s₀`, a statement of call `t` failed with `e`: at `s`, with the choices `c`. -/
structure Raised (G : Engine Db W E) (program : Q → Program Db W L E C R) (s₀ : System Db W L E C Q R)
    (events : List (Label Q C)) (t : Nat) (e : E) (s : System Db W L E C Q R) (call : Call Db W L E C Q R)
    (tx : Txn Db W L E C R) (c : C) : Prop where
  run : ∃ before after, events = before ++ .exec t c :: after ∧ System.run G program s₀ before = some s
  running : s.Running t call tx
  fails : ∃ (γ : Type) (stmt : Statement Db W L E C γ) (next : γ → Program Db W L E C R),
    tx.program = .call stmt next ∧ stmt ⟨call.startedAt, c⟩ (G.view tx.log s.db) = .error e

theorem Raised.concat {c : C} (h : Raised G program s₀ events t e s call tx c) (l : Label Q C) :
    Raised G program s₀ (events ++ [l]) t e s call tx c := by
  obtain ⟨before, after, rfl, hrun⟩ := h.run
  exact ⟨⟨before, after ++ [l], by simp, hrun⟩, h.running, h.fails⟩

variable {I : Q → Context C → Db → E → Prop} {P : Q → E → Prop}

end System

end ReadCommitted
