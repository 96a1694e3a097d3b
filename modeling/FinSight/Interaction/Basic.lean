import Mathlib.Algebra.BigOperators.Group.Finset.Piecewise
import Mathlib.Data.List.Count

/-!
# Computations that stop at their effects

A computation performs effects one after the other, and goes on with what each is answered. Any number of them run side by
side, and share what happens.

* `Interaction`, `Interaction.after` : a computation, and where it is after an event;
* `Interaction.Keeps` : what holds of the events of a computation at all times, and when it ends; `Keeps.bind`, `Keeps.mono` :
  the rules;
* `Crowd`, `Crowd.step`, `Crowd.own` : computations side by side, and the events of one of them;
* `Crowd.keeps` : each of them keeps to its rules, whatever the others do;
* `Crowd.countP_eq_sum` : events are counted member by member.
-/

/-- `Y f` : the answers of an effect; `ε` : the errors. -/
inductive Interaction (F : Type) (Y : F → Type) (ε α : Type) where
  | ret (a : α)
  | throw (e : ε)
  | perform (f : F) (next : Y f → Interaction F Y ε α)

namespace Interaction

variable {F : Type} {Y : F → Type} {ε α β A : Type}

def bind : Interaction F Y ε α → (α → Interaction F Y ε β) → Interaction F Y ε β
  | .ret a, k => k a
  | .throw e, _ => .throw e
  | .perform f next, k => .perform f fun y => (next y).bind k

instance instMonad : Monad (Interaction F Y ε) where
  pure := .ret
  bind := Interaction.bind

/-- An effect and its answer. -/
abbrev Event (Y : F → Type) := Σ f, Y f

/-- The computation after an event that is its next one. -/
def after [DecidableEq F] : Interaction F Y ε α → Event Y → Option (Interaction F Y ε α)
  | .perform f next, e => if h : e.1 = f then some (next (h ▸ e.2)) else none
  | .ret _, _ | .throw _, _ => none

theorem after_perform [DecidableEq F] (f : F) (next : Y f → Interaction F Y ε α) (y : Y f) :
    (perform f next).after ⟨f, y⟩ = some (next y) := dif_pos rfl

theorem after_inv [DecidableEq F] {p p' : Interaction F Y ε α} {e : Event Y} (h : p.after e = some p') :
    ∃ f next y, p = .perform f next ∧ e = ⟨f, y⟩ ∧ p' = next y := by
  obtain ⟨f', y⟩ := e
  cases p with
  | ret a => cases h
  | throw e => cases h
  | perform f next =>
      by_cases hf : f' = f
      · subst hf
        exact ⟨f', next, y, rfl, rfl, Option.some.inj (h.symm.trans (after_perform f' next y))⟩
      · have hnone : none = some p' := (dif_neg hf).symm.trans h
        cases hnone

/-! ## Rules -/

/-- With the events `es` behind it: `I` holds after every event, whatever answers come that may come, and `post` or `fail`
when it ends. -/
def Keeps (may : Event Y → Prop) (I : List (Event Y) → Prop) (post : List (Event Y) → α → Prop)
    (fail : List (Event Y) → ε → Prop) : List (Event Y) → Interaction F Y ε α → Prop
  | es, .ret a => post es a
  | es, .throw e => fail es e
  | es, .perform f next => ∀ y, may ⟨f, y⟩ → I (es ++ [⟨f, y⟩]) ∧ (next y).Keeps may I post fail (es ++ [⟨f, y⟩])

section Rules
variable {may : Event Y → Prop} {I : List (Event Y) → Prop} {post : List (Event Y) → α → Prop}
  {fail : List (Event Y) → ε → Prop} {es : List (Event Y)}

theorem Keeps.mono {post' : List (Event Y) → α → Prop} {p : Interaction F Y ε α} (h : p.Keeps may I post fail es)
    (hpost : ∀ es a, post es a → post' es a) : p.Keeps may I post' fail es := by
  induction p generalizing es with
  | ret a => exact hpost es a h
  | throw e => exact h
  | perform f next ih => exact fun y hy => ⟨(h y hy).1, ih y (h y hy).2⟩

theorem Keeps.bind {p : Interaction F Y ε α} {k : α → Interaction F Y ε β} {post' : List (Event Y) → β → Prop}
    (h : p.Keeps may I (fun es a => (k a).Keeps may I post' fail es) fail es) : (p >>= k).Keeps may I post' fail es := by
  show (p.bind k).Keeps may I post' fail es
  induction p generalizing es with
  | ret a => exact h
  | throw e => exact h
  | perform f next ih => exact fun y hy => ⟨(h y hy).1, ih y (h y hy).2⟩

/-- First `p`, then `k` with what is known of its result. -/
theorem Keeps.seq {p : Interaction F Y ε α} {k : α → Interaction F Y ε β} {post' : List (Event Y) → β → Prop}
    (h : p.Keeps may I post fail es) (hk : ∀ es a, post es a → (k a).Keeps may I post' fail es) :
    (p >>= k).Keeps may I post' fail es := (h.mono hk).bind

end Rules

end Interaction

/-! ## Side by side -/

open Interaction

/-- The members, each with what it was asked, and the events of all, each with its member. -/
structure Crowd {F : Type} (Y : F → Type) (ε α A : Type) where
  members : List (A × Interaction F Y ε α)
  events : List (Nat × Event Y)

inductive Crowd.Move {F : Type} (Y : F → Type) (A : Type) where
  | enter (a : A)
  | go (i : Nat) (e : Event Y)

namespace Crowd

variable {F : Type} {Y : F → Type} {ε α A : Type}

def empty : Crowd Y ε α A := ⟨[], []⟩

def step [DecidableEq F] (start : A → Interaction F Y ε α) (s : Crowd Y ε α A) : Move Y A → Option (Crowd Y ε α A)
  | .enter a => some { s with members := s.members ++ [(a, start a)] }
  | .go i e =>
      (s.members[i]?).bind fun m => (m.2.after e).map fun p =>
        { members := s.members.set i (m.1, p), events := s.events ++ [(i, e)] }

/-- The events of a member. -/
def own (s : Crowd Y ε α A) (i : Nat) : List (Event Y) := (s.events.filter fun o => o.1 = i).map Prod.snd

/-- `ok` : what may happen next, with all events so far. -/
inductive Reachable [DecidableEq F] (start : A → Interaction F Y ε α) (ok : Crowd Y ε α A → Move Y A → Prop) :
    Crowd Y ε α A → Prop
  | init : Reachable start ok empty
  | step {s s' m} : Reachable start ok s → ok s m → s.step start m = some s' → Reachable start ok s'

def run [DecidableEq F] (start : A → Interaction F Y ε α) : Crowd Y ε α A → List (Move Y A) → Option (Crowd Y ε α A)
  | s, [] => some s
  | s, m :: ms => (s.step start m).bind fun s' => run start s' ms

variable [DecidableEq F] {start : A → Interaction F Y ε α} {ok : Crowd Y ε α A → Move Y A → Prop} {s s' : Crowd Y ε α A}

/-- What a step does. -/
theorem step_cases {m : Move Y A} (h : s.step start m = some s') :
    (∃ a, m = .enter a ∧ s' = { s with members := s.members ++ [(a, start a)] }) ∨
      ∃ i e a p p', m = .go i e ∧ s.members[i]? = some (a, p) ∧ p.after e = some p' ∧
        s' = { members := s.members.set i (a, p'), events := s.events ++ [(i, e)] } := by
  cases m with
  | enter a =>
      cases h
      exact .inl ⟨a, rfl, rfl⟩
  | go i e =>
      obtain ⟨⟨a, p⟩, hget, h⟩ := Option.bind_eq_some_iff.mp h
      obtain ⟨p', hp', rfl⟩ := Option.map_eq_some_iff.mp h
      exact .inr ⟨i, e, a, p, p', rfl, hget, hp', rfl⟩

omit [DecidableEq F] in
theorem own_append {i j : Nat} {e : Event Y} {members : List (A × Interaction F Y ε α)} :
    own (⟨members, s.events ++ [(i, e)]⟩ : Crowd Y ε α A) j = if i = j then s.own j ++ [e] else s.own j := by
  unfold own
  rw [List.filter_append, List.map_append]
  split
  · next h => rw [List.filter_cons_of_pos (by simpa using h), List.filter_nil, List.map_singleton]
  · next h => rw [List.filter_cons_of_neg (by simpa using h), List.filter_nil, List.map_nil, List.append_nil]

theorem Reachable.enter (h : Reachable start ok s) (a : A) (hok : ok s (.enter a)) :
    Reachable start ok { s with members := s.members ++ [(a, start a)] } := .step h hok rfl

theorem Reachable.go (h : Reachable start ok s) {i : Nat} {a : A} {e : Event Y} {p p' : Interaction F Y ε α}
    (hget : s.members[i]? = some (a, p)) (hafter : p.after e = some p') (hok : ok s (.go i e)) :
    Reachable start ok { members := s.members.set i (a, p'), events := s.events ++ [(i, e)] } := by
  refine .step h hok ?_
  rw [Crowd.step, hget, Option.bind_some, hafter, Option.map_some]

/-- Only members have events. -/
theorem lt_of_reachable (h : Reachable start ok s) : ∀ o ∈ s.events, o.1 < s.members.length := by
  induction h with
  | init => exact fun _ ho => absurd ho List.not_mem_nil
  | step _ _ hstep ih =>
      rcases step_cases hstep with ⟨a, -, rfl⟩ | ⟨i, e, a, p, p', -, hget, -, rfl⟩
      · intro o ho
        rw [List.length_append]
        exact Nat.lt_add_right _ (ih o ho)
      · intro o ho
        rw [List.length_set]
        rcases List.mem_append.mp ho with ho | ho
        · exact ih o ho
        · rw [List.mem_singleton.mp ho]
          exact (List.getElem?_eq_some_iff.mp hget).1

/-- **Each keeps to its rules, whatever the others do.** -/
theorem keeps {may : A → Event Y → Prop} {I : A → List (Event Y) → Prop} {post : A → List (Event Y) → α → Prop}
    {fail : A → List (Event Y) → ε → Prop} (hnil : ∀ a, I a [])
    (hstart : ∀ a, (start a).Keeps (may a) (I a) (post a) (fail a) [])
    (hok : ∀ s i e a p, ok s (.go i e) → s.members[i]? = some (a, p) → may a e) (h : Reachable start ok s) :
    ∀ (i : Nat) a p, s.members[i]? = some (a, p) →
      I a (s.own i) ∧ p.Keeps (may a) (I a) (post a) (fail a) (s.own i) := by
  induction h with
  | init =>
      intro i a p hget
      cases hget
  | @step s s' m hrun hmay hstep ih =>
      rcases step_cases hstep with ⟨b, -, rfl⟩ | ⟨j, e, b, q, q', rfl, hget, hafter, rfl⟩
      · intro i a p hget
        rw [List.getElem?_append] at hget
        split at hget
        · exact ih i a p hget
        · next hlen =>
          rw [List.getElem?_singleton] at hget
          split at hget
          · cases hget
            have hown : own ({ s with members := s.members ++ [(b, start b)] } : Crowd Y ε α A) i = [] := by
              unfold own
              rw [List.filter_eq_nil_iff.mpr, List.map_nil]
              intro o ho hi
              exact hlen (of_decide_eq_true hi ▸ lt_of_reachable hrun o ho)
            rw [hown]
            exact ⟨hnil b, hstart b⟩
          · cases hget
      · intro i a p hget'
        rw [own_append]
        rw [List.getElem?_set] at hget'
        split at hget'
        · next hji =>
          subst hji
          split at hget'
          · cases hget'
            rw [if_pos rfl]
            obtain ⟨-, hkeeps⟩ := ih j b q hget
            obtain ⟨f, next, y, rfl, rfl, rfl⟩ := after_inv hafter
            exact hkeeps y (hok s j _ b _ hmay hget)
          · cases hget'
        · next hji =>
          rw [if_neg hji]
          exact ih i a p hget'

omit [DecidableEq F] in
theorem own_cons {i : Nat} {o : Nat × Event Y} {events : List (Nat × Event Y)} {members : List (A × Interaction F Y ε α)}
    (f : Event Y → Bool) :
    (own (⟨members, o :: events⟩ : Crowd Y ε α A) i).countP f =
      (own (⟨members, events⟩ : Crowd Y ε α A) i).countP f + if o.1 = i then if f o.2 then 1 else 0 else 0 := by
  unfold own
  rw [List.filter_cons]
  by_cases h : o.1 = i
  · rw [if_pos (decide_eq_true h), if_pos h, List.map_cons, List.countP_cons]
  · rw [if_neg (by simpa using h), if_neg h, Nat.add_zero]

omit [DecidableEq F] in
/-- Events of some of the members are counted member by member. -/
theorem countP_eq_sum (s : Crowd Y ε α A) {n : Nat} (g : Nat → Bool) (f : Event Y → Bool) (hlt : ∀ o ∈ s.events, o.1 < n) :
    s.events.countP (fun o => g o.1 && f o.2) = ∑ i ∈ Finset.range n, if g i then (s.own i).countP f else 0 := by
  obtain ⟨members, events⟩ := s
  dsimp only at hlt ⊢
  induction events with
  | nil => exact (Finset.sum_eq_zero fun i _ => ite_self 0).symm
  | cons o events ih =>
      obtain ⟨hn, hrest⟩ := List.forall_mem_cons.mp hlt
      have hsplit : ∀ i, (if g i then (own (⟨members, o :: events⟩ : Crowd Y ε α A) i).countP f else 0) =
          (if g i then (own (⟨members, events⟩ : Crowd Y ε α A) i).countP f else 0) +
            if o.1 = i then if g o.1 && f o.2 then 1 else 0 else 0 := by
        intro i
        rw [own_cons]
        by_cases hi : o.1 = i
        · subst hi
          cases g o.1 <;> simp
        · simp only [if_neg hi, Nat.add_zero]
      rw [List.countP_cons, ih hrest, Finset.sum_congr rfl fun i _ => hsplit i, Finset.sum_add_distrib, Finset.sum_ite_eq,
        if_pos (Finset.mem_range.mpr hn)]

end Crowd
