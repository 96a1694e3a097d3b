import FinSight.ReadCommitted.Alone
import Mathlib.Order.Defs.Unbundled

/-!
# Rules for programs

* `Protocol.observing` : the protocol of a function that says what each lock protects;
* `Covered` : a redo log makes no change that its locks do not allow, so its commit disturbs nobody (`Covered.guarantee`);
* `Continues`, `Meets.call`, `Meets.read`, `Meets.ite` : one rule for each way in which a program goes on;
* `Meets.alone` : what holds of a program in every interleaving holds of the program by itself.
-/

namespace ReadCommitted

variable {Db W L E C O α β : Type}

/-! ## Protocols from observations -/

/-- A lock protects what `observe` shows of it. -/
def Protocol.observing (observe : Db → L → O) (grow : Db → Db → Prop) [IsPreorder Db grow] : Protocol Db L where
  agree ℓ a b := observe b ℓ = observe a ℓ
  grow := grow
  agree_refl _ _ := rfl
  agree_trans _ _ _ _ h₁ h₂ := Eq.trans h₂ h₁
  grow_refl := refl_of grow
  grow_trans := trans_of grow

/-- Every write of the log, on top of `db` and the writes before it, has the locks it needs. -/
def Covered (G : Engine Db W E) (needs : Db → W → List L) : Db → List W → List L → Prop
  | _, [], _ => True
  | db, w :: log, locks => (∀ ℓ ∈ needs db w, ℓ ∈ locks) ∧ Covered G needs (G.apply db w) log locks

section Covered
variable {G : Engine Db W E} {needs : Db → W → List L} {observe : Db → L → O} {locks : List L}

theorem Covered.observe_view (h : ∀ db w ℓ, ℓ ∉ needs db w → observe (G.apply db w) ℓ = observe db ℓ) {db : Db}
    {log : List W} (hc : Covered G needs db log locks) {ℓ : L} (hℓ : ℓ ∉ locks) :
    observe (G.view log db) ℓ = observe db ℓ := by
  induction log generalizing db with
  | nil => rfl
  | cons w log ih =>
      rw [Engine.view_cons, ih hc.2]
      exact h db w ℓ fun hn => hℓ (hc.1 ℓ hn)

/-- What a transaction owes the others when it commits. -/
theorem Covered.guarantee {grow : Db → Db → Prop} [IsPreorder Db grow]
    (h : ∀ db w ℓ, ℓ ∉ needs db w → observe (G.apply db w) ℓ = observe db ℓ) {db : Db} {log : List W}
    (hc : Covered G needs db log locks) (hgrow : grow db (G.view log db)) :
    (Protocol.observing observe grow).Guarantee locks db (G.view log db) where
  grow := hgrow
  agree _ hℓ := hc.observe_view h hℓ

end Covered

/-! ## Going on -/

section Rules
variable {G : Engine Db W E} {P : Protocol Db L} {now : Nat} {fin : Db} {A : Program Db W L E C β → Db → Prop}
  {Q : β → Db → List W → List L → Prop} {F : E → List W → List L → Prop} {prev db : Db} {log : List W} {locks : List L}

/-- The ends of a program after a reply. -/
def Continues (G : Engine Db W E) (P : Protocol Db L) (now : Nat) (fin : Db) (A : Program Db W L E C β → Db → Prop)
    (Q : β → Db → List W → List L → Prop) (F : E → List W → List L → Prop) (k : α → Program Db W L E C β) (db : Db)
    (log : List W) (locks : List L) : Reply W L E α → Prop
  | .error e => F e log locks
  | .done r ws ls _ => P.Rely (locks ++ ls) db fin → (k r).Meets G P now fin A Q F db (log ++ ws) (locks ++ ls)

theorem Continues.done {r : α} {waits : List L} {k : α → Program Db W L E C β}
    (h : (k r).Meets G P now fin A Q F db log locks) :
    Continues G P now fin A Q F k db log locks (.done r [] [] waits) := by
  intro _
  rw [List.append_nil, List.append_nil]
  exact h

namespace Program

theorem Meets.call {s : Statement Db W L E C α} {k : α → Program Db W L E C β}
    (h : ∀ db c, P.Rely locks prev db → P.Rely locks db fin → A (.call s k) db →
      Continues G P now fin A Q F k db log locks (s ⟨now, c⟩ (G.view log db))) :
    (Program.statement s >>= k).Meets G P now fin A Q F prev log locks := by
  intro db c h₁ h₂ hA
  have hs := h db c h₁ h₂ hA
  split
  · next e he =>
    rw [he] at hs
    exact hs
  · next r ws ls _ hr =>
    rw [hr] at hs
    exact hs

/-- A statement that only reads. -/
theorem Meets.read {s : Statement Db W L E C α} {f : Context C → Db → α}
    (hs : ∀ ctx db, s ctx db = .done (f ctx db) [] [] []) {k : α → Program Db W L E C β}
    (h : ∀ db c, P.Rely locks prev db → P.Rely locks db fin →
      (k (f ⟨now, c⟩ (G.view log db))).Meets G P now fin A Q F db log locks) :
    (Program.statement s >>= k).Meets G P now fin A Q F prev log locks := by
  refine Meets.call fun db c h₁ h₂ _ => ?_
  rw [hs]
  exact Continues.done (h db c h₁ h₂)

theorem Meets.ite {c : Prop} [Decidable c] {p q : Program Db W L E C β}
    (ht : c → p.Meets G P now fin A Q F prev log locks) (hf : ¬ c → q.Meets G P now fin A Q F prev log locks) :
    (if c then p else q).Meets G P now fin A Q F prev log locks := by
  by_cases h : c
  · rw [if_pos h]
    exact ht h
  · rw [if_neg h]
    exact hf h

/-- **One run among all.** By itself, a program ends as it may end among others. -/
theorem Meets.alone {p : Program Db W L E C β} (h : p.Meets G P now db A Q F db log locks) (hA : ∀ p', A p' db)
    (choices : Nat → C) :
    match p.alone G now db log choices with
    | (.ok b, log', _) => ∃ locks', Q b db log' locks'
    | (.error e, log', _) => ∃ locks', F e log' locks' := by
  induction p generalizing log locks choices with
  | ret b => exact ⟨locks, h⟩
  | throw e => exact ⟨locks, h⟩
  | call s k ih =>
      have hs := h db (choices 0) (Protocol.Rely.refl _ _) (Protocol.Rely.refl _ _) (hA _)
      rw [Program.alone]
      cases hreply : s ⟨now, choices 0⟩ (G.view log db) with
      | error e =>
          rw [hreply] at hs
          exact ⟨locks, hs⟩
      | done r ws ls waits =>
          rw [hreply] at hs
          exact ih r (hs (Protocol.Rely.refl _ _)) _

end Program

end Rules

end ReadCommitted
