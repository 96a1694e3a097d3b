import FinSight.ReadCommitted.Interleaving

/-!
# A program by itself

* `Program.alone` : where a program ends when all its statements run at one committed database;
* `alone_bind` : sequencing;
* `System.run_alone` : where nothing else is in flight, the steps of a call take it there.
-/

namespace ReadCommitted

variable {Db W L E C Q R α β : Type}

namespace Program

/-- The end of the program, its writes, and the choices it has not used. -/
def alone (G : Engine Db W E) (now : Nat) (db : Db) :
    Program Db W L E C α → List W → (Nat → C) → Except E α × List W × (Nat → C)
  | .ret a, log, choices => (.ok a, log, choices)
  | .throw e, log, choices => (.error e, log, choices)
  | .call s k, log, choices =>
      match s ⟨now, choices 0⟩ (G.view log db) with
      | .error e => (.error e, log, fun n => choices (n + 1))
      | .done r ws _ _ => (k r).alone G now db (log ++ ws) fun n => choices (n + 1)

variable {G : Engine Db W E} {now : Nat} {db : Db} {log : List W} {choices : Nat → C}

theorem alone_bind (p : Program Db W L E C α) (f : α → Program Db W L E C β) :
    (p >>= f).alone G now db log choices =
      match p.alone G now db log choices with
      | (.ok a, log', choices') => (f a).alone G now db log' choices'
      | (.error e, log', choices') => (.error e, log', choices') := by
  induction p generalizing log choices with
  | ret a => rfl
  | throw e => rfl
  | call s k ih =>
      show (Program.call s fun r => k r >>= f).alone G now db log choices = _
      simp only [alone]
      cases s ⟨now, choices 0⟩ (G.view log db) with
      | error e => rfl
      | done r ws ls waits => exact ih r

/-- The first part fails, and so does the whole. -/
theorem alone_bind_error {p : Program Db W L E C α} {f : α → Program Db W L E C β} {e : E}
    (h : (p.alone G now db log choices).1 = .error e) : ((p >>= f).alone G now db log choices).1 = .error e := by
  rw [alone_bind]
  generalize p.alone G now db log choices = x at h
  match x, h with
  | (.error e, _, _), rfl => rfl

/-- The whole fails in one of its parts. -/
theorem error_of_alone_bind {p : Program Db W L E C α} {f : α → Program Db W L E C β} {e : E}
    (h : ((p >>= f).alone G now db log choices).1 = .error e) :
    (p.alone G now db log choices).1 = .error e ∨
      ∃ a log' choices', ((f a).alone G now db log' choices').1 = .error e := by
  rw [alone_bind] at h
  generalize p.alone G now db log choices = x at h
  match x, h with
  | (.error e', _, _), h => exact Or.inl (congrArg Except.error (Except.error.inj h))
  | (.ok a, log', choices'), h => exact Or.inr ⟨a, log', choices', h⟩

theorem alone_statement {s : Statement Db W L E C α} {f : α → Program Db W L E C β} {r : α} {ws : List W}
    {ls waits : List L} (h : s ⟨now, choices 0⟩ (G.view log db) = .done r ws ls waits) :
    (Program.statement s >>= f).alone G now db log choices =
      (f r).alone G now db (log ++ ws) fun n => choices (n + 1) := by
  rw [statement_bind, alone, h]

theorem alone_error {s : Statement Db W L E C α} {f : α → Program Db W L E C β} {e : E}
    (h : s ⟨now, choices 0⟩ (G.view log db) = .error e) :
    (Program.statement s >>= f).alone G now db log choices = (.error e, log, fun n => choices (n + 1)) := by
  rw [statement_bind, alone, h]

/-- The program that is left at an end. -/
def ending : Except E α → Program Db W L E C α
  | .ok a => .ret a
  | .error e => .throw e

end Program

namespace System

theorem setStatus_setStatus (s : System Db W L E C Q R) (t : Nat) (st st' : Status Db W L E C R) :
    (s.setStatus t st).setStatus t st' = s.setStatus t st' := by
  simp only [setStatus, List.modify_modify_eq]
  rfl

theorem setStatus_self {s : System Db W L E C Q R} {t : Nat} {call : Call Db W L E C Q R} {tx : Txn Db W L E C R}
    (hrun : s.Running t call tx) : s.setStatus t (.running tx) = s := by
  have hcalls : (s.setStatus t (.running tx)).calls = s.calls := by
    refine List.ext_getElem? fun u => ?_
    rw [setStatus_get]
    split
    · next hu =>
      rw [← hu, hrun.get, ← hrun.status]
      rfl
    · rfl
  show { s with calls := (s.setStatus t (.running tx)).calls } = s
  rw [hcalls]

theorem Running.setStatus {s : System Db W L E C Q R} {t : Nat} {call : Call Db W L E C Q R} {tx : Txn Db W L E C R}
    (hrun : s.Running t call tx) (tx' : Txn Db W L E C R) :
    (s.setStatus t (.running tx')).Running t { call with status := .running tx' } tx' := by
  refine ⟨?_, rfl⟩
  rw [setStatus_get, if_pos rfl, hrun.get]
  rfl

theorem setStatus_last (s : System Db W L E C Q R) (call : Call Db W L E C Q R) (st : Status Db W L E C R) :
    setStatus { s with calls := s.calls ++ [call] } s.calls.length st =
      { s with calls := s.calls ++ [{ call with status := st }] } := by
  have hcalls : (s.calls ++ [call]).modify s.calls.length (fun c => { c with status := st }) =
      s.calls ++ [{ call with status := st }] := by
    refine List.ext_getElem? fun u => ?_
    rw [List.getElem?_modify, List.getElem?_append, List.getElem?_append]
    split
    · next hu =>
      subst hu
      simp
    · next hu => grind
  show { s with calls := _ } = _
  rw [hcalls]

/-- Nothing is in flight. -/
def Quiet (s : System Db W L E C Q R) : Prop := ∀ t call tx, ¬ s.Running t call tx

/-- Nothing but call `t` is in flight. -/
def Only (s : System Db W L E C Q R) (t : Nat) : Prop := ∀ u call tx, s.Running u call tx → u = t

theorem Only.setStatus {s : System Db W L E C Q R} {t : Nat} (h : s.Only t) (st : Status Db W L E C R) :
    (s.setStatus t st).Only t := by
  intro u call tx hrun
  by_cases hu : t = u
  · exact hu.symm
  · have hget := hrun.get
    rw [setStatus_get, if_neg hu] at hget
    exact h u call tx ⟨hget, hrun.status⟩

variable [DecidableEq L] {G : Engine Db W E} {program : Q → Program Db W L E C R} {s : System Db W L E C Q R} {t : Nat}

theorem Only.free (h : s.Only t) (ls : List L) : s.free t ls = true :=
  (free_iff s t ls).mpr fun u call tx hrun hne => absurd (h u call tx hrun) hne

theorem run_append (s : System Db W L E C Q R) (ls ls' : List (Label Q C)) :
    run G program s (ls ++ ls') = (run G program s ls).bind fun s' => run G program s' ls' := by
  induction ls generalizing s with
  | nil => rfl
  | cons l ls ih =>
      rw [List.cons_append, run, run, Option.bind_assoc]
      exact congrArg _ (funext ih)

variable (G program) in
theorem step_exec {call : Call Db W L E C Q R} {stmt : Statement Db W L E C β} {next : β → Program Db W L E C R}
    {log : List W} {locks : List L} {prepared : Bool} (hrun : s.Running t call ⟨.call stmt next, log, locks, prepared⟩)
    (c : C) : s.step G program (.exec t c) =
      match stmt ⟨call.startedAt, c⟩ (G.view log s.db) with
      | .error e => some (s.setStatus t (.running ⟨.throw e, log, locks, false⟩))
      | .done r ws ls waits =>
          if s.free t (ls ++ waits) then
            some (s.setStatus t (.running ⟨next r, log ++ ws, locks ++ ls, false⟩))
          else none := by
  obtain ⟨q, now, origin, st⟩ := call
  obtain ⟨hget, hst⟩ := hrun
  change st = _ at hst
  subst hst
  cases hreply : stmt ⟨now, c⟩ (G.view log s.db) with
  | error e => simp only [step, hget, hreply]
  | done r ws ls waits => simp only [step, hget, hreply]

variable (G program) in
/-- The statements of the only call in flight take it to where its program ends. -/
theorem run_execs {p : Program Db W L E C R} {call : Call Db W L E C Q R} {log : List W} {locks : List L}
    (hrun : s.Running t call ⟨p, log, locks, false⟩) (honly : s.Only t) (choices : Nat → C) :
    ∃ n locks', run G program s ((List.range n).map fun k => .exec t (choices k)) =
      some (s.setStatus t (.running
        ⟨.ending (p.alone G call.startedAt s.db log choices).1, (p.alone G call.startedAt s.db log choices).2.1,
          locks', false⟩)) := by
  induction p generalizing s call log locks choices with
  | ret a => exact ⟨0, locks, congrArg some (setStatus_self hrun).symm⟩
  | throw e => exact ⟨0, locks, congrArg some (setStatus_self hrun).symm⟩
  | @call β stmt next ih =>
      have hstep := step_exec G program hrun (choices 0)
      rw [Program.alone]
      cases hreply : stmt ⟨call.startedAt, choices 0⟩ (G.view log s.db) with
      | error e =>
          rw [hreply] at hstep
          refine ⟨1, locks, ?_⟩
          show (s.step G program (.exec t (choices 0))).bind _ = _
          rw [hstep]
          rfl
      | done r ws ls waits =>
          rw [hreply] at hstep
          dsimp only at hstep
          rw [if_pos (honly.free _)] at hstep
          obtain ⟨n, locks', hrest⟩ := ih r (hrun.setStatus _) (honly.setStatus _) fun k => choices (k + 1)
          refine ⟨n + 1, locks', ?_⟩
          rw [List.range_succ_eq_map, List.map_cons, List.map_map]
          show (s.step G program (.exec t (choices 0))).bind _ = _
          rw [hstep]
          refine hrest.trans ?_
          rw [setStatus_setStatus]
          rfl

/-- The steps of call `t` with `n` statements. -/
def solo (t : Nat) (q : Q) (choices : Nat → C) (n : Nat) (rest : List (Label Q C)) : List (Label Q C) :=
  .begin q :: (List.range n).map (fun k => .exec t (choices k)) ++ rest

/-- Where nothing else is in flight, the call commits what its program writes. -/
theorem run_alone (hquiet : s.Quiet) (q : Q) (choices : Nat → C) {r : R} {log : List W} {rest : Nat → C}
    (h : (program q).alone G s.clock s.db [] choices = (.ok r, log, rest))
    (hdeferred : G.deferred (G.view log s.db) log = none) :
    ∃ n, run G program s (solo s.calls.length q choices n [.prepare s.calls.length, .commit s.calls.length]) =
      some ⟨G.view log s.db, s.clock, s.calls ++ [⟨q, s.clock, s.db, .finished (.returned r)⟩]⟩ := by
  let call : Call Db W L E C Q R := ⟨q, s.clock, s.db, .running ⟨program q, [], [], false⟩⟩
  have hrun : Running { s with calls := s.calls ++ [call] } s.calls.length call ⟨program q, [], [], false⟩ :=
    ⟨by simp, rfl⟩
  have honly : Only { s with calls := s.calls ++ [call] } s.calls.length := by
    intro u call' tx hrun'
    by_contra hne
    have hget := hrun'.get
    by_cases hlt : u < s.calls.length
    · exact hquiet u call' tx ⟨by simpa [List.getElem?_append_left hlt] using hget, hrun'.status⟩
    · have hlen := (List.getElem?_eq_some_iff.mp hget).1
      simp only [List.length_append, List.length_singleton] at hlen
      omega
  obtain ⟨n, locks, hexecs⟩ := run_execs G program hrun honly choices
  refine ⟨n, ?_⟩
  have hend : (program q).alone G call.startedAt s.db [] choices = (.ok r, log, rest) := h
  rw [hend, setStatus_last] at hexecs
  show run G program { s with calls := s.calls ++ [call] } (_ ++ _) = _
  rw [run_append, hexecs, Option.bind_some]
  simp only [run, step, Program.ending, hdeferred, setStatus_last, List.getElem?_concat_length, Option.bind_some]
  rfl

end System

end ReadCommitted
