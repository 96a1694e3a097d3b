import FinSight.ReadCommitted.Program
import Mathlib.Data.List.Nodup

/-!
# Interleavings

Any number of transactions run against one committed database. A step runs one statement of one transaction,
starts a transaction, commits it, rolls it back after an error, or aborts it at any point (a crash, a lost
connection, a deadlock victim). A statement runs when no other running transaction holds a lock it takes or
waits for; otherwise it is blocked, and the transaction can only be aborted. A commit has two halves: the
deferred constraints are checked (`prepare`), and later the writes become visible (`commit`), with other
transactions free to commit in between.

* `System.step` : the executable step function;
* `System.Running` : transaction `t` is in flight, `System.free` : no other one holds these locks;
* `exec_inv`, `prepare_inv`, `commit_inv`, `rollback_inv`, `abort_inv` : what each step can do, `step_inv` : what
  any step does to the calls;
* `Ends` : a step ends a call;
* `Reachable ok` : runs whose steps all satisfy `ok`.
-/

namespace ReadCommitted

inductive Outcome (E R : Type) where
  | returned (r : R)
  | failed (e : E)
  | aborted
  deriving DecidableEq

/-- A transaction in flight. -/
structure Txn (Db W L E C R : Type) where
  program : Program Db W L E C R
  log : List W
  locks : List L
  prepared : Bool

inductive Status (Db W L E C R : Type) where
  | running (tx : Txn Db W L E C R)
  | finished (o : Outcome E R)

/-- One call: its request, when its transaction began, the committed database it began at (only theorems
read `origin`), and where it is now. -/
structure Call (Db W L E C Q R : Type) where
  request : Q
  startedAt : Nat
  origin : Db
  status : Status Db W L E C R

/-- The committed database, the clock, and all calls made so far. -/
structure System (Db W L E C Q R : Type) where
  db : Db
  clock : Nat
  calls : List (Call Db W L E C Q R)

inductive Label (Q C : Type) where
  | tick (d : Nat)
  | begin (q : Q)
  | exec (t : Nat) (c : C)
  | prepare (t : Nat)
  | commit (t : Nat)
  | rollback (t : Nat)
  | abort (t : Nat)

variable {Db W L E C Q R : Type}

namespace System

/-- No running transaction but `t` holds one of `ls`. -/
def free [DecidableEq L] (s : System Db W L E C Q R) (t : Nat) (ls : List L) : Bool :=
  s.calls.zipIdx.all fun (call, u) =>
    u == t || match call.status with
      | .running tx => ls.all fun ℓ => !tx.locks.contains ℓ
      | .finished _ => true

def setStatus (s : System Db W L E C Q R) (t : Nat) (st : Status Db W L E C R) : System Db W L E C Q R :=
  { s with calls := s.calls.modify t fun call => { call with status := st } }

def step [DecidableEq L] (G : Engine Db W E) (program : Q → Program Db W L E C R)
    (s : System Db W L E C Q R) : Label Q C → Option (System Db W L E C Q R)
  | .tick d => some { s with clock := s.clock + d }
  | .begin q =>
      some { s with calls := s.calls ++ [⟨q, s.clock, s.db, .running ⟨program q, [], [], false⟩⟩] }
  | .exec t c =>
      match s.calls[t]? with
      | some ⟨_, now, _, .running ⟨.call stmt next, log, locks, _⟩⟩ =>
          match stmt ⟨now, c⟩ (G.view log s.db) with
          | .error e => some (s.setStatus t (.running ⟨.throw e, log, locks, false⟩))
          | .done r ws ls waits =>
              if s.free t (ls ++ waits) then
                some (s.setStatus t (.running ⟨next r, log ++ ws, locks ++ ls, false⟩))
              else none
      | _ => none
  | .prepare t =>
      match s.calls[t]? with
      | some ⟨_, _, _, .running ⟨.ret r, log, locks, false⟩⟩ =>
          match G.deferred (G.view log s.db) log with
          | some e => some (s.setStatus t (.running ⟨.throw e, log, locks, false⟩))
          | none => some (s.setStatus t (.running ⟨.ret r, log, locks, true⟩))
      | _ => none
  | .commit t =>
      match s.calls[t]? with
      | some ⟨_, _, _, .running ⟨.ret r, log, _, true⟩⟩ =>
          some { s.setStatus t (.finished (.returned r)) with db := G.view log s.db }
      | _ => none
  | .rollback t =>
      match s.calls[t]? with
      | some ⟨_, _, _, .running ⟨.throw e, _, _, _⟩⟩ => some (s.setStatus t (.finished (.failed e)))
      | _ => none
  | .abort t =>
      match s.calls[t]? with
      | some ⟨_, _, _, .running _⟩ => some (s.setStatus t (.finished .aborted))
      | _ => none

/-- Take the steps of a list in order. -/
def run [DecidableEq L] (G : Engine Db W E) (program : Q → Program Db W L E C R) :
    System Db W L E C Q R → List (Label Q C) → Option (System Db W L E C Q R)
  | s, [] => some s
  | s, l :: ls => (s.step G program l).bind fun s' => run G program s' ls

/-- Call `call`, number `t`, is in flight as `tx`. -/
structure Running (s : System Db W L E C Q R) (t : Nat) (call : Call Db W L E C Q R)
    (tx : Txn Db W L E C R) : Prop where
  get : s.calls[t]? = some call
  status : call.status = .running tx

theorem Running.call_eq {s : System Db W L E C Q R} {t : Nat} {call call' : Call Db W L E C Q R}
    {tx tx' : Txn Db W L E C R} (h : s.Running t call tx) (h' : s.Running t call' tx') : call = call' :=
  Option.some.inj (h.get.symm.trans h'.get)

theorem Running.tx_eq {s : System Db W L E C Q R} {t : Nat} {call : Call Db W L E C Q R}
    {tx tx' : Txn Db W L E C R} (h : s.Running t call tx) (h' : s.Running t call tx') : tx = tx' :=
  Status.running.inj (h.status.symm.trans h'.status)

@[simp] theorem setStatus_db (s : System Db W L E C Q R) (t : Nat) (st : Status Db W L E C R) :
    (s.setStatus t st).db = s.db := rfl

@[simp] theorem setStatus_clock (s : System Db W L E C Q R) (t : Nat) (st : Status Db W L E C R) :
    (s.setStatus t st).clock = s.clock := rfl

theorem setStatus_get (s : System Db W L E C Q R) (t : Nat) (st : Status Db W L E C R) (u : Nat) :
    (s.setStatus t st).calls[u]? =
      if t = u then (s.calls[u]?).map fun call => { call with status := st } else s.calls[u]? := by
  simp only [setStatus, List.getElem?_modify]
  split <;> simp

/-! ## How calls end -/

/-- The step from `s` to `s'` ends call `t`, in flight as `tx`, with the outcome `o`. -/
structure Ends (s s' : System Db W L E C Q R) (t : Nat) (call : Call Db W L E C Q R) (tx : Txn Db W L E C R)
    (o : Outcome E R) : Prop where
  running : s.Running t call tx
  finished : s'.calls[t]? = some { call with status := .finished o }

/-- The status that was set is the call's. -/
theorem Ends.setStatus {s s' : System Db W L E C Q R} {t : Nat} {call : Call Db W L E C Q R}
    {tx : Txn Db W L E C R} {o : Outcome E R} (h : s.Ends s' t call tx o) {u : Nat} {st : Status Db W L E C R} (hcalls : s'.calls = (s.setStatus u st).calls) :
    u = t ∧ st = .finished o := by
  have hget := h.finished
  rw [hcalls, setStatus_get, h.running.get] at hget
  split at hget
  · next hu => exact ⟨hu, congrArg Call.status (Option.some.inj hget)⟩
  · have hst := congrArg Call.status (Option.some.inj hget)
    rw [h.running.status] at hst
    cases hst

theorem Ends.calls_ne {s s' : System Db W L E C Q R} {t : Nat} {call : Call Db W L E C Q R}
    {tx : Txn Db W L E C R} {o : Outcome E R} (h : s.Ends s' t call tx o) : s'.calls[t]? ≠ s.calls[t]? := by
  rw [h.finished, h.running.get]
  intro heq
  have hst := congrArg Call.status (Option.some.inj heq)
  rw [h.running.status] at hst
  cases hst

/-! ## Locks of others -/

section Free
variable [DecidableEq L]

theorem free_iff (s : System Db W L E C Q R) (t : Nat) (ls : List L) :
    s.free t ls = true ↔
      ∀ u call tx, s.Running u call tx → u ≠ t → ∀ ℓ ∈ ls, ℓ ∉ tx.locks := by
  simp only [free, List.all_eq_true, Bool.or_eq_true, beq_iff_eq]
  constructor
  · intro h u call tx hrun hne ℓ hℓ hmem
    have hcall := h (call, u) (List.mem_zipIdx_iff_getElem?.mpr hrun.get)
    rcases hcall with heq | hcall
    · exact hne heq
    · simp only [hrun.status, List.all_eq_true] at hcall
      simpa [hmem] using hcall ℓ hℓ
  · rintro h ⟨call, u⟩ hmem
    by_cases hu : u = t
    · exact Or.inl hu
    · refine Or.inr ?_
      cases hst : call.status with
      | finished o => rfl
      | running tx =>
          simp only [List.all_eq_true]
          intro ℓ hℓ
          have := h u call tx ⟨List.mem_zipIdx_iff_getElem?.mp hmem, hst⟩ hu ℓ hℓ
          simpa using this

end Free

/-! ## What a step can do -/

section Inversion
variable [DecidableEq L] {G : Engine Db W E} {program : Q → Program Db W L E C R}
  {s s' : System Db W L E C Q R} {t : Nat}

theorem exec_inv {c : C} (h : s.step G program (.exec t c) = some s') :
    ∃ (call : _) (tx : Txn Db W L E C R) (β : Type) (stmt : Statement Db W L E C β) (next : _),
      s.Running t call tx ∧ tx.program = .call stmt next ∧
      ((∃ e, stmt ⟨call.startedAt, c⟩ (G.view tx.log s.db) = .error e ∧
          s' = s.setStatus t (.running { tx with program := .throw e, prepared := false })) ∨
        ∃ r ws ls waits, stmt ⟨call.startedAt, c⟩ (G.view tx.log s.db) = .done r ws ls waits ∧
          s.free t (ls ++ waits) = true ∧
          s' = s.setStatus t (.running ⟨next r, tx.log ++ ws, tx.locks ++ ls, false⟩)) := by
  simp only [step] at h
  split at h
  · next q now origin β stmt next log locks prepared hget =>
    refine ⟨_, _, β, stmt, next, ⟨hget, rfl⟩, rfl, ?_⟩
    split at h
    · next e he => exact Or.inl ⟨e, he, (Option.some.inj h).symm⟩
    · next r ws ls waits hr =>
      split at h
      · next hfree => exact Or.inr ⟨r, ws, ls, waits, hr, hfree, (Option.some.inj h).symm⟩
      · cases h
  · cases h

theorem prepare_inv (h : s.step G program (.prepare t) = some s') :
    ∃ call tx r, s.Running t call tx ∧ tx.program = .ret r ∧
      ((∃ e, G.deferred (G.view tx.log s.db) tx.log = some e ∧
          s' = s.setStatus t (.running { tx with program := .throw e, prepared := false })) ∨
        (G.deferred (G.view tx.log s.db) tx.log = none ∧
          s' = s.setStatus t (.running { tx with prepared := true }))) := by
  simp only [step] at h
  split at h
  · next q now origin r log locks hget =>
    refine ⟨_, _, r, ⟨hget, rfl⟩, rfl, ?_⟩
    split at h
    · next e he => exact Or.inl ⟨e, he, (Option.some.inj h).symm⟩
    · next hnone => exact Or.inr ⟨hnone, (Option.some.inj h).symm⟩
  · cases h

theorem commit_inv (h : s.step G program (.commit t) = some s') :
    ∃ call tx r, s.Running t call tx ∧ tx.program = .ret r ∧ tx.prepared = true ∧
      s' = { s.setStatus t (.finished (.returned r)) with db := G.view tx.log s.db } := by
  simp only [step] at h
  split at h
  · next q now origin r log locks hget =>
    exact ⟨_, _, r, ⟨hget, rfl⟩, rfl, rfl, (Option.some.inj h).symm⟩
  · cases h

theorem rollback_inv (h : s.step G program (.rollback t) = some s') :
    ∃ call tx e, s.Running t call tx ∧ tx.program = .throw e ∧
      s' = s.setStatus t (.finished (.failed e)) := by
  simp only [step] at h
  split at h
  · next q now origin e log locks prepared hget =>
    exact ⟨_, _, e, ⟨hget, rfl⟩, rfl, (Option.some.inj h).symm⟩
  · cases h

theorem abort_inv (h : s.step G program (.abort t) = some s') :
    ∃ call tx, s.Running t call tx ∧ s' = s.setStatus t (.finished .aborted) := by
  simp only [step] at h
  split at h
  · next q now origin tx hget => exact ⟨_, tx, ⟨hget, rfl⟩, (Option.some.inj h).symm⟩
  · cases h

/-- The calls after a step: all the same, one more, or one with a new status. -/
theorem step_inv {l : Label Q C} (h : s.step G program l = some s') :
    s'.calls = s.calls ∨
      (∃ q, l = .begin q ∧ s'.calls = s.calls ++ [⟨q, s.clock, s.db, .running ⟨program q, [], [], false⟩⟩]) ∨
      ∃ u call tx st, s.Running u call tx ∧ s'.calls = (s.setStatus u st).calls := by
  cases l with
  | tick d =>
      cases h
      exact Or.inl rfl
  | begin q =>
      cases h
      exact Or.inr (Or.inl ⟨q, rfl, rfl⟩)
  | exec u c =>
      obtain ⟨_, _, _, _, _, hrun, _, ⟨_, _, rfl⟩ | ⟨_, _, _, _, _, _, rfl⟩⟩ := exec_inv h
      · exact Or.inr (Or.inr ⟨_, _, _, _, hrun, rfl⟩)
      · exact Or.inr (Or.inr ⟨_, _, _, _, hrun, rfl⟩)
  | prepare u =>
      obtain ⟨_, _, _, hrun, _, ⟨_, _, rfl⟩ | ⟨_, rfl⟩⟩ := prepare_inv h
      · exact Or.inr (Or.inr ⟨_, _, _, _, hrun, rfl⟩)
      · exact Or.inr (Or.inr ⟨_, _, _, _, hrun, rfl⟩)
  | commit u =>
      obtain ⟨_, _, _, hrun, _, _, rfl⟩ := commit_inv h
      exact Or.inr (Or.inr ⟨_, _, _, _, hrun, rfl⟩)
  | rollback u =>
      obtain ⟨_, _, _, hrun, _, rfl⟩ := rollback_inv h
      exact Or.inr (Or.inr ⟨_, _, _, _, hrun, rfl⟩)
  | abort u =>
      obtain ⟨_, _, hrun, rfl⟩ := abort_inv h
      exact Or.inr (Or.inr ⟨_, _, _, _, hrun, rfl⟩)

/-- A call of the new state is a call of the old one, maybe elsewhere in its program, or it has just begun. -/
theorem step_calls {l : Label Q C} (h : s.step G program l = some s') {call' : Call Db W L E C Q R}
    (hget : s'.calls[t]? = some call') :
    (∃ call, s.calls[t]? = some call ∧ call' = { call with status := call'.status }) ∨
      ∃ q, l = .begin q ∧ t = s.calls.length ∧ call' = ⟨q, s.clock, s.db, .running ⟨program q, [], [], false⟩⟩ := by
  rcases step_inv h with hcalls | ⟨q, hl, hcalls⟩ | ⟨u, call, tx, st, _, hcalls⟩
  · exact Or.inl ⟨call', hcalls ▸ hget, rfl⟩
  · rw [hcalls, List.getElem?_append] at hget
    split at hget
    · exact Or.inl ⟨call', hget, rfl⟩
    · next hlen =>
      rw [List.getElem?_singleton] at hget
      split at hget
      · exact Or.inr ⟨q, hl, by omega, (Option.some.inj hget).symm⟩
      · cases hget
  · rw [hcalls, setStatus_get] at hget
    split at hget
    · obtain ⟨call, hcall, rfl⟩ := Option.map_eq_some_iff.mp hget
      exact Or.inl ⟨call, hcall, rfl⟩
    · exact Or.inl ⟨call', hget, rfl⟩

/-- Calls stay, and a call that has ended stays as it is. -/
theorem step_keeps {l : Label Q C} (h : s.step G program l = some s') {call : Call Db W L E C Q R}
    (hget : s.calls[t]? = some call) :
    ∃ st, s'.calls[t]? = some { call with status := st } ∧ ∀ o, call.status = .finished o → st = call.status := by
  rcases step_inv h with hcalls | ⟨q, _, hcalls⟩ | ⟨u, call', tx, st, hrun, hcalls⟩
  · exact ⟨call.status, hcalls ▸ hget, fun _ _ => rfl⟩
  · refine ⟨call.status, ?_, fun _ _ => rfl⟩
    have hlen : t < s.calls.length := (List.getElem?_eq_some_iff.mp hget).1
    rw [hcalls, List.getElem?_append_left hlen]
    exact hget
  · rw [hcalls, setStatus_get, hget]
    by_cases hu : u = t
    · subst hu
      refine ⟨st, if_pos rfl, fun o ho => ?_⟩
      have hcall : call' = call := Option.some.inj (hrun.get.symm.trans hget)
      rw [← hcall, hrun.status] at ho
      cases ho
    · exact ⟨call.status, if_neg hu, fun _ _ => rfl⟩

theorem step_request {l : Label Q C} (h : s.step G program l = some s') {call : Call Db W L E C Q R}
    (hmem : call ∈ s.calls) : ∃ call' ∈ s'.calls, call'.request = call.request := by
  obtain ⟨t, hget⟩ := List.mem_iff_getElem?.mp hmem
  obtain ⟨st, hget', -⟩ := step_keeps h hget
  exact ⟨_, List.mem_iff_getElem?.mpr ⟨t, hget'⟩, rfl⟩

/-- A step ends one call at most. -/
theorem Ends.unique {l : Label Q C} (hstep : s.step G program l = some s') {call call' : Call Db W L E C Q R}
    {tx tx' : Txn Db W L E C R} {o o' : Outcome E R} {t' : Nat} (h : s.Ends s' t call tx o)
    (h' : s.Ends s' t' call' tx' o') : t = t' := by
  rcases step_inv hstep with hcalls | ⟨q, _, hcalls⟩ | ⟨u, _, _, st, _, hcalls⟩
  · exact absurd (by rw [hcalls]) h.calls_ne
  · have hlen := (List.getElem?_eq_some_iff.mp h.running.get).1
    exact absurd (by rw [hcalls, List.getElem?_append_left hlen]) h.calls_ne
  · rw [← (h.setStatus hcalls).1, ← (h'.setStatus hcalls).1]

/-- A call that has ended has ended before, or in this step. -/
theorem ends_of_finished {l : Label Q C} (h : s.step G program l = some s') {call' : Call Db W L E C Q R}
    (hget : s'.calls[t]? = some call') {o : Outcome E R} (ho : call'.status = .finished o) :
    s.calls[t]? = some call' ∨
      ∃ call tx, s.Ends s' t call tx o ∧ call' = { call with status := .finished o } := by
  rcases step_calls h hget with ⟨call, hcall, hsame⟩ | ⟨q, -, -, rfl⟩
  · rw [ho] at hsame
    cases hst : call.status with
    | running tx =>
        exact Or.inr ⟨call, tx, ⟨⟨hcall, hst⟩, hsame ▸ hget⟩, hsame⟩
    | finished o' =>
        obtain ⟨st, hget', hst'⟩ := step_keeps h hcall
        rw [hst' o' hst] at hget'
        exact Or.inl (hcall.trans (hget'.symm.trans hget))
  · cases ho

end Inversion

/-! ## Runs -/

/-- The runs from `s₀` in which every step satisfies `ok`. -/
inductive Reachable [DecidableEq L] (G : Engine Db W E) (program : Q → Program Db W L E C R)
    (ok : System Db W L E C Q R → Label Q C → Prop) (s₀ : System Db W L E C Q R) :
    System Db W L E C Q R → Prop
  | refl : Reachable G program ok s₀ s₀
  | step {s s' : System Db W L E C Q R} {l : Label Q C} : Reachable G program ok s₀ s → ok s l →
      s.step G program l = some s' → Reachable G program ok s₀ s'

section Reachable
variable [DecidableEq L] {G : Engine Db W E} {program : Q → Program Db W L E C R}
  {ok ok' : System Db W L E C Q R → Label Q C → Prop} {s₀ s s' : System Db W L E C Q R}

theorem Reachable.trans (h₁ : Reachable G program ok s₀ s) (h₂ : Reachable G program ok s s') :
    Reachable G program ok s₀ s' := by
  induction h₂ with
  | refl => exact h₁
  | step _ hok hstep ih => exact ih.step hok hstep

theorem Reachable.mono (hok : ∀ s l, ok s l → ok' s l) (h : Reachable G program ok s₀ s) :
    Reachable G program ok' s₀ s := by
  induction h with
  | refl => exact .refl
  | step _ hl hstep ih => exact ih.step (hok _ _ hl) hstep

/-- Every step of an executed list satisfies `ok`. -/
def Admitted (G : Engine Db W E) (program : Q → Program Db W L E C R)
    (ok : System Db W L E C Q R → Label Q C → Prop) : System Db W L E C Q R → List (Label Q C) → Prop
  | _, [] => True
  | s, l :: ls => ok s l ∧ ∀ s' ∈ s.step G program l, Admitted G program ok s' ls

instance decidableAdmitted [∀ s, DecidablePred (ok s)] : (s : System Db W L E C Q R) → (ls : List (Label Q C)) →
    Decidable (Admitted G program ok s ls)
  | _, [] => isTrue trivial
  | s, l :: ls =>
      have : DecidablePred fun s' => Admitted G program ok s' ls := fun s' => decidableAdmitted s' ls
      inferInstanceAs (Decidable (ok s l ∧ ∀ s' ∈ s.step G program l, Admitted G program ok s' ls))

/-- An executed list of steps is a run. -/
theorem reachable_of_admitted {ls : List (Label Q C)} (hok : Admitted G program ok s ls)
    (h : run G program s ls = some s') : Reachable G program ok s s' := by
  induction ls generalizing s with
  | nil =>
      cases h
      exact .refl
  | cons l ls ih =>
      simp only [run, Option.bind_eq_some_iff] at h
      obtain ⟨s₁, hstep, hrest⟩ := h
      exact (Reachable.refl.step hok.1 hstep).trans (ih (hok.2 s₁ hstep) hrest)

theorem reachable_of_run {ls : List (Label Q C)} (hok : ∀ l ∈ ls, ∀ s, ok s l) (h : run G program s ls = some s') :
    Reachable G program ok s s' := by
  refine reachable_of_admitted ?_ h
  clear h
  induction ls generalizing s with
  | nil => trivial
  | cons l ls ih =>
      rw [List.forall_mem_cons] at hok
      exact ⟨hok.1 s, fun s' _ => ih hok.2⟩

/-- What is asked of a request when its call begins holds of every call. -/
theorem Reachable.request {P : Q → Prop} (hP : ∀ s q, ok s (.begin q) → P q) (hcalls : s₀.calls = [])
    (h : Reachable G program ok s₀ s) {t : Nat} {call : Call Db W L E C Q R} (hget : s.calls[t]? = some call) :
    P call.request := by
  induction h generalizing call with
  | refl => simp [hcalls] at hget
  | step _ hl hstep ih =>
      rcases step_calls hstep hget with ⟨call₀, hget₀, hsame⟩ | ⟨q, rfl, -, rfl⟩
      · rw [hsame]
        show P call₀.request
        exact ih hget₀
      · exact hP _ q hl

end Reachable

end System

end ReadCommitted
