import Mathlib.Data.List.Basic

/-!
# Transactions at statement granularity

A transaction is a `Program`: it issues one SQL statement at a time and continues with the answer. What a
statement does is a function of the transaction's view, the committed database with the transaction's own
writes on top; it answers with a result, the writes it adds to the redo log, the row and key locks it takes,
and the keys whose holders it waits for.

* `Program.bind`, `Monad` : programs are written in `do` notation, as the code is;
* `Engine.view` : the committed database with a redo log applied;
* `Protocol` : what each lock protects (`agree`) and what no commit ever undoes (`grow`);
* `Program.Raises` : the errors of a program and of its statements;
* `Program.Meets` : a program's possible ends, all read against the database they meet at commit time;
* `Meets.bind`, `Meets.mono`, `Meets.later` : the rules of `Meets`.
-/

namespace ReadCommitted

/-- What a statement knows besides the database: the instant its transaction began (`now()`), and the
choices the engine makes for it (row order, generated ids). -/
structure Context (C : Type) where
  now : Nat
  choice : C

/-- What a statement does once nothing blocks it. -/
inductive Reply (W L E α : Type) where
  | error (cause : E)
  | done (result : α) (writes : List W) (locks waits : List L)

def Reply.writes {W L E α : Type} : Reply W L E α → List W
  | .error _ => []
  | .done _ ws _ _ => ws

abbrev Statement (Db W L E C α : Type) := Context C → Db → Reply W L E α

/-- The rest of a transaction. -/
inductive Program (Db W L E C α : Type) : Type 1 where
  | ret (a : α)
  | throw (e : E)
  | call {β : Type} (stmt : Statement Db W L E C β) (next : β → Program Db W L E C α)

variable {Db W L E C α β : Type}

namespace Program

def bind : Program Db W L E C α → (α → Program Db W L E C β) → Program Db W L E C β
  | .ret a, f => f a
  | .throw e, _ => .throw e
  | .call s k, f => .call s (fun r => (k r).bind f)

instance : Monad (Program Db W L E C) where
  pure := .ret
  bind := bind

/-- One statement, as a program that returns its result. -/
def statement (s : Statement Db W L E C α) : Program Db W L E C α := .call s .ret

@[simp] theorem pure_eq (a : α) : (pure a : Program Db W L E C α) = .ret a := rfl

@[simp] theorem ret_bind (a : α) (f : α → Program Db W L E C β) : (Program.ret a >>= f) = f a := rfl

@[simp] theorem throw_bind (e : E) (f : α → Program Db W L E C β) :
    (Program.throw e >>= f) = .throw e := rfl

/-- Equal programs write the same. -/
theorem call_writes {γ : Type} {s : Statement Db W L E C β} {k : β → Program Db W L E C α}
    {s' : Statement Db W L E C γ} {k' : γ → Program Db W L E C α} (h : Program.call s k = Program.call s' k')
    (ctx : Context C) (db : Db) : (s ctx db).writes = (s' ctx db).writes := by
  cases h
  rfl

theorem call_next {s s' : Statement Db W L E C β} {k k' : β → Program Db W L E C α}
    (h : Program.call s k = Program.call s' k') (r : β) : k r = k' r := by
  cases h
  rfl

theorem statement_bind (s : Statement Db W L E C α) (f : α → Program Db W L E C β) :
    (statement s >>= f) = .call s f := rfl

/-- Errors of each statement satisfy `I`, the program's own `P`. -/
def Raises (I : Context C → Db → E → Prop) (P : E → Prop) : Program Db W L E C α → Prop
  | .ret _ => True
  | .throw e => P e
  | .call s k => (∀ ctx db e, s ctx db = .error e → I ctx db e) ∧ ∀ r, (k r).Raises I P

theorem Raises.bind {I : Context C → Db → E → Prop} {P : E → Prop} {p : Program Db W L E C α}
    {f : α → Program Db W L E C β} (hp : p.Raises I P) (hf : ∀ a, (f a).Raises I P) : (p >>= f).Raises I P := by
  induction p with
  | ret a => exact hf a
  | throw e => exact hp
  | call s k ih => exact ⟨hp.1, fun r => ih r (hp.2 r)⟩

end Program

/-! ## Redo logs -/

/-- How writes change a database, and the deferred constraints checked when a transaction commits: they see
the committed rows with the transaction's own, and the transaction's writes. -/
structure Engine (Db W E : Type) where
  apply : Db → W → Db
  deferred : Db → List W → Option E

/-- The committed database with a transaction's own writes on top. -/
def Engine.view (G : Engine Db W E) (log : List W) (db : Db) : Db := log.foldl G.apply db

@[simp] theorem Engine.view_nil (G : Engine Db W E) (db : Db) : G.view [] db = db := rfl

@[simp] theorem Engine.view_cons (G : Engine Db W E) (w : W) (log : List W) (db : Db) :
    G.view (w :: log) db = G.view log (G.apply db w) := rfl

@[simp] theorem Engine.view_append (G : Engine Db W E) (log₁ log₂ : List W) (db : Db) :
    G.view (log₁ ++ log₂) db = G.view log₂ (G.view log₁ db) := List.foldl_append

theorem Engine.view_concat (G : Engine Db W E) (log : List W) (w : W) (db : Db) :
    G.view (log ++ [w]) db = G.apply (G.view log db) w := by
  rw [Engine.view_append, Engine.view_cons, Engine.view_nil]

/-! ## Locks and what they protect -/

/-- `agree ℓ` : two databases are equal on everything the lock `ℓ` protects; `grow` : the second database
keeps all that commits never undo. -/
structure Protocol (Db L : Type) where
  agree : L → Db → Db → Prop
  grow : Db → Db → Prop
  agree_refl : ∀ ℓ db, agree ℓ db db
  agree_trans : ∀ ℓ {a b c}, agree ℓ a b → agree ℓ b c → agree ℓ a c
  grow_refl : ∀ db, grow db db
  grow_trans : ∀ {a b c}, grow a b → grow b c → grow a c

namespace Protocol
variable (P : Protocol Db L)

/-- What the holder of `locks` may count on while other transactions commit. -/
structure Rely (locks : List L) (db db' : Db) : Prop where
  grow : P.grow db db'
  agree : ∀ ℓ ∈ locks, P.agree ℓ db db'

/-- What a commit of the holder of `locks` owes to every other transaction. -/
structure Guarantee (locks : List L) (db db' : Db) : Prop where
  grow : P.grow db db'
  agree : ∀ ℓ, ℓ ∉ locks → P.agree ℓ db db'

variable {P}

theorem Rely.refl (locks : List L) (db : Db) : P.Rely locks db db :=
  ⟨P.grow_refl db, fun ℓ _ => P.agree_refl ℓ db⟩

theorem Rely.trans {locks : List L} {a b c : Db} (h₁ : P.Rely locks a b) (h₂ : P.Rely locks b c) :
    P.Rely locks a c :=
  ⟨P.grow_trans h₁.grow h₂.grow, fun ℓ hℓ => P.agree_trans ℓ (h₁.agree ℓ hℓ) (h₂.agree ℓ hℓ)⟩

/-- Fewer locks, less to count on. -/
theorem Rely.weaken {locks locks' : List L} {a b : Db} (h : P.Rely locks a b) (hsub : ∀ ℓ ∈ locks', ℓ ∈ locks) :
    P.Rely locks' a b :=
  ⟨h.grow, fun ℓ hℓ => h.agree ℓ (hsub ℓ hℓ)⟩

/-- The commit of one transaction is what another, with no lock in common, counts on. -/
theorem Guarantee.rely {locks locks' : List L} {a b : Db} (h : P.Guarantee locks a b)
    (hdisj : ∀ ℓ ∈ locks', ℓ ∉ locks) : P.Rely locks' a b :=
  ⟨h.grow, fun ℓ hℓ => h.agree ℓ (hdisj ℓ hℓ)⟩

end Protocol

/-! ## The ends of a program -/

namespace Program

/-- Every end of the program, for a transaction that commits (or gives up) at the committed database `fin`:
`Q` where it returns, `F` where it throws. Each statement runs at some committed database `db`, later than the
one the previous statement ran at and earlier than `fin`, with the locks held so far keeping what they protect
from `db` to `fin`. `A` is what may be assumed where a statement runs. -/
def Meets (G : Engine Db W E) (P : Protocol Db L) (now : Nat) (fin : Db)
    (A : Program Db W L E C α → Db → Prop) (Q : α → Db → List W → List L → Prop)
    (F : E → List W → List L → Prop) :
    Program Db W L E C α → Db → List W → List L → Prop
  | .ret a, prev, log, locks => Q a prev log locks
  | .throw e, _, log, locks => F e log locks
  | .call s k, prev, log, locks =>
      ∀ db c, P.Rely locks prev db → P.Rely locks db fin → A (.call s k) db →
        match s ⟨now, c⟩ (G.view log db) with
        | .error e => F e log locks
        | .done r ws ls _ => P.Rely (locks ++ ls) db fin →
            (k r).Meets G P now fin A Q F db (log ++ ws) (locks ++ ls)

/-- No assumption on the points a program runs through. -/
abbrev Anywhere : Program Db W L E C α → Db → Prop := fun _ _ => True

section Meets
variable {G : Engine Db W E} {P : Protocol Db L} {now : Nat} {fin : Db}
  {A : Program Db W L E C α → Db → Prop} {Q Q' : α → Db → List W → List L → Prop}
  {F F' : E → List W → List L → Prop} {p : Program Db W L E C α} {prev : Db} {log : List W} {locks : List L}

theorem Meets.mono (hQ : ∀ a prev log locks, Q a prev log locks → Q' a prev log locks)
    (hF : ∀ e log locks, F e log locks → F' e log locks)
    (h : p.Meets G P now fin A Q F prev log locks) : p.Meets G P now fin A Q' F' prev log locks := by
  induction p generalizing prev log locks with
  | ret a => exact hQ _ _ _ _ h
  | throw e => exact hF _ _ _ h
  | call s k ih =>
      intro db c h₁ h₂ hA
      have hs := h db c h₁ h₂ hA
      split
      · next e he =>
        rw [he] at hs
        exact hF _ _ _ hs
      · next r ws ls _ hr =>
        rw [hr] at hs
        exact fun hl => ih r (hs hl)

/-- Commits of others between two statements do not matter. -/
theorem Meets.later {prev' : Db}
    (hQ : ∀ a prev prev' log locks, P.Rely locks prev prev' → Q a prev log locks → Q a prev' log locks)
    (hp : P.Rely locks prev prev') (h : p.Meets G P now fin A Q F prev log locks) :
    p.Meets G P now fin A Q F prev' log locks := by
  cases p with
  | ret a => exact hQ _ _ _ _ _ hp h
  | throw e => exact h
  | call s k => exact fun db c h₁ h₂ hA => h db c (hp.trans h₁) h₂ hA

/-- Sequencing. -/
theorem Meets.bind {γ : Type} {f : α → Program Db W L E C γ} {B : Program Db W L E C γ → Db → Prop}
    {S : γ → Db → List W → List L → Prop}
    (h : p.Meets G P now fin (fun p' db => B (p' >>= f) db)
      (fun a prev log locks => (f a).Meets G P now fin B S F prev log locks) F prev log locks) :
    (p >>= f).Meets G P now fin B S F prev log locks := by
  induction p generalizing prev log locks with
  | ret a => exact h
  | throw e => exact h
  | call s k ih =>
      intro db c h₁ h₂ hA
      have hs := h db c h₁ h₂ hA
      split
      · next e he =>
        rw [he] at hs
        exact hs
      · next r ws ls _ hr =>
        rw [hr] at hs
        exact fun hl => ih r (hs hl)

/-- One statement and the rest of the program. -/
theorem Meets.statement {γ : Type} {s : Statement Db W L E C α} {f : α → Program Db W L E C γ}
    {B : Program Db W L E C γ → Db → Prop} {S : γ → Db → List W → List L → Prop}
    (h : ∀ db c, P.Rely locks prev db → P.Rely locks db fin → B (.call s f) db →
      match s ⟨now, c⟩ (G.view log db) with
      | .error e => F e log locks
      | .done r ws ls _ => P.Rely (locks ++ ls) db fin →
          (f r).Meets G P now fin B S F db (log ++ ws) (locks ++ ls)) :
    (Program.statement s >>= f).Meets G P now fin B S F prev log locks := h

end Meets

end Program

end ReadCommitted
