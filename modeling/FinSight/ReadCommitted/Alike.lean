import FinSight.ReadCommitted.Alone

/-!
# Two programs side by side

What is compared of two programs by themselves: their results by a relation `R`, their writes by a function `mark`.

* `Alike` : the ends of two programs; `Alike.call`, `Alike.blind` : its rules for a statement;
* `Forgets` : what the databases show of the writes that `mark` shows;
* `Program.Fails` : the errors a program can end with.
-/

namespace ReadCommitted

variable {Db W L E C α α' β β' V : Type}

/-! ## Ends -/

/-- Where a program ends by itself. -/
abbrev End (W E C α : Type) := Except E α × List W × (Nat → C)

/-- The two ends are alike. -/
def Alike (mark : W → V) (R : α → α' → Prop) (x : End W E C α) (y : End W E C α') : Prop :=
  match x.1, y.1 with
  | .ok a, .ok a' => R a a' ∧ x.2.1.map mark = y.2.1.map mark ∧ x.2.2 = y.2.2
  | .error e, .error e' => e = e'
  | _, _ => False

/-- Two replies that are alike. -/
inductive Reply.Alike (mark : W → V) (Q : β → β' → Prop) : Reply W L E β → Reply W L E β' → Prop
  | error (e : E) : Reply.Alike mark Q (.error e) (.error e)
  | done {b : β} {b' : β'} {ws ws' : List W} {locks waits locks' waits' : List L} (hresult : Q b b')
      (hwrites : ws.map mark = ws'.map mark) : Reply.Alike mark Q (.done b ws locks waits) (.done b' ws' locks' waits')

theorem Reply.Alike.refl (mark : W → V) (reply : Reply W L E β) : reply.Alike mark Eq reply := by
  cases reply with
  | error e => exact .error e
  | done b ws locks waits => exact .done rfl rfl

variable {mark : W → V} {R : α → α' → Prop} {Q : β → β' → Prop} {G : Engine Db W E} {now : Nat} {db : Db}
  {log log' : List W} {choices : Nat → C}

theorem Alike.error (e : E) (log log' : List W) (choices choices' : Nat → C) :
    Alike mark R ((.error e, log, choices) : End W E C α) ((.error e, log', choices') : End W E C α') := rfl

theorem Alike.ret {a : α} {a' : α'} (hresult : R a a') (hlog : log.map mark = log'.map mark) :
    Alike mark R ((Program.ret a : Program Db W L E C α).alone G now db log choices)
      ((Program.ret a' : Program Db W L E C α').alone G now db log' choices) := ⟨hresult, hlog, rfl⟩

/-- One statement of each. -/
theorem Alike.call {s : Statement Db W L E C β} {s' : Statement Db W L E C β'} {f : β → Program Db W L E C α}
    {f' : β' → Program Db W L E C α'} (hlog : log.map mark = log'.map mark)
    (hreply : (s ⟨now, choices 0⟩ (G.view log db)).Alike mark Q (s' ⟨now, choices 0⟩ (G.view log' db)))
    (hnext : ∀ b b' l l', Q b b' → l.map mark = l'.map mark →
      Alike mark R ((f b).alone G now db l fun n => choices (n + 1)) ((f' b').alone G now db l' fun n => choices (n + 1))) :
    Alike mark R ((Program.statement s >>= f).alone G now db log choices)
      ((Program.statement s' >>= f').alone G now db log' choices) := by
  rw [Program.statement_bind, Program.statement_bind, Program.alone, Program.alone]
  generalize s ⟨now, choices 0⟩ (G.view log db) = reply at hreply
  generalize s' ⟨now, choices 0⟩ (G.view log' db) = reply' at hreply
  cases hreply with
  | error e => exact .error e log log' _ _
  | done hresult hwrites =>
      refine hnext _ _ _ _ hresult ?_
      rw [List.map_append, List.map_append, hlog, hwrites]

theorem Alike.bind {p : Program Db W L E C β} {p' : Program Db W L E C β'} {f : β → Program Db W L E C α}
    {f' : β' → Program Db W L E C α'}
    (hp : Alike mark Q (p.alone G now db log choices) (p'.alone G now db log' choices))
    (hnext : ∀ b b' l l' choices, Q b b' → l.map mark = l'.map mark →
      Alike mark R ((f b).alone G now db l choices) ((f' b').alone G now db l' choices)) :
    Alike mark R ((p >>= f).alone G now db log choices) ((p' >>= f').alone G now db log' choices) := by
  rw [Program.alone_bind, Program.alone_bind]
  generalize p.alone G now db log choices = x at hp
  generalize p'.alone G now db log' choices = y at hp
  match x, y, hp with
  | (.ok b, l, c), (.ok b', l', c'), ⟨hresult, hlogs, hchoices⟩ =>
      obtain rfl : c = c' := hchoices
      exact hnext b b' l l' c hresult hlogs
  | (.error e, l, c), (.error e', l', c'), herror =>
      obtain rfl : e = e' := herror
      exact .error e l l' c c'

/-! ## Statements that do not see the difference -/

/-- Writes that `mark` shows alike are alike to what `forget` leaves of a database. -/
def Forgets (G : Engine Db W E) (mark : W → V) (forget : Db → Db) : Prop :=
  ∀ w w' db db', mark w = mark w' → forget db = forget db' → forget (G.apply db w) = forget (G.apply db' w')

variable {forget : Db → Db}

theorem Forgets.view (h : Forgets G mark forget) {db' : Db} (hlog : log.map mark = log'.map mark)
    (hdb : forget db = forget db') : forget (G.view log db) = forget (G.view log' db') := by
  induction log generalizing log' db db' with
  | nil =>
      rw [List.map_nil, eq_comm, List.map_eq_nil_iff] at hlog
      rw [hlog]
      exact hdb
  | cons w log ih =>
      obtain ⟨w', rest, rfl, hw, hrest⟩ := List.map_eq_cons_iff.mp hlog.symm
      rw [Engine.view_cons, Engine.view_cons]
      exact ih hrest.symm (h w w' db db' hw.symm hdb)

/-- A statement that answers from what is left. -/
theorem Alike.blind (h : Forgets G mark forget) {s : Statement Db W L E C β} (hs : ∀ ctx db, s ctx db = s ctx (forget db))
    {f : β → Program Db W L E C α} {f' : β → Program Db W L E C α'} (hlog : log.map mark = log'.map mark)
    (hnext : ∀ b l l', l.map mark = l'.map mark →
      Alike mark R ((f b).alone G now db l fun n => choices (n + 1)) ((f' b).alone G now db l' fun n => choices (n + 1))) :
    Alike mark R ((Program.statement s >>= f).alone G now db log choices)
      ((Program.statement s >>= f').alone G now db log' choices) := by
  refine Alike.call hlog (Q := Eq) ?_ ?_
  · rw [hs, hs ⟨now, choices 0⟩ (G.view log' db), h.view hlog rfl]
    exact .refl mark _
  · rintro b _ l l' rfl
    exact hnext b l l'

/-! ## Errors -/

/-- The program ends with no errors but those in `P`. -/
abbrev Program.Fails (P : E → Prop) (p : Program Db W L E C α) : Prop := p.Raises (fun _ _ => P) P

variable {P : E → Prop}

theorem Program.Fails.alone {p : Program Db W L E C α} (hp : p.Fails P) {e : E}
    (h : (p.alone G now db log choices).1 = .error e) : P e := by
  induction p generalizing log choices with
  | ret a => cases h
  | throw e' =>
      obtain rfl : e' = e := Except.error.inj h
      exact hp
  | call s k ih =>
      unfold Program.alone at h
      cases hreply : s ⟨now, choices 0⟩ (G.view log db) with
      | error e' =>
          rw [hreply] at h
          obtain rfl : e' = e := Except.error.inj h
          exact hp.1 _ _ _ hreply
      | done r ws locks waits =>
          rw [hreply] at h
          exact ih r (hp.2 r) h

end ReadCommitted
