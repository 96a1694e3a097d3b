import Mathlib.Data.List.Basic

/-!
# Trees of arrays and objects

* `Tree` : leaves, arrays and objects; `Tree.child`, `Tree.get?` : the value at a step, and at a path;
* `lookup_map`, `lookup_filter`, `overlay` : the value of a key after entries are rewritten, dropped, or laid over others;
* `indexed` : the items of an array under keys, `lookup_indexed`.
-/

namespace Trees

/-- A value with leaves of type `α` and objects with keys of type `κ`. -/
inductive Tree (κ α : Type)
  | leaf (a : α)
  | arr (items : List (Tree κ α))
  | obj (entries : List (κ × Tree κ α))

inductive PathStep (κ : Type)
  | index (i : Nat)
  | key (k : κ)
  deriving DecidableEq

variable {κ α β : Type} [BEq κ]

namespace Tree

def child : Tree κ α → PathStep κ → Option (Tree κ α)
  | .arr items, .index i => items[i]?
  | .obj entries, .key k => entries.lookup k
  | _, _ => none

theorem child_obj (entries : List (κ × Tree κ α)) (k : κ) : (obj entries).child (.key k) = entries.lookup k := rfl

/-- The value at a path. -/
def get? (t : Tree κ α) : List (PathStep κ) → Option (Tree κ α)
  | [] => some t
  | s :: p => (t.child s).bind fun u => u.get? p

@[simp] theorem get?_nil (t : Tree κ α) : t.get? [] = some t := rfl

theorem get?_cons (t : Tree κ α) (s : PathStep κ) (p : List (PathStep κ)) :
    t.get? (s :: p) = (t.child s).bind fun u => u.get? p := rfl

/-- There is nothing below a leaf. -/
theorem get?_leaf {a : α} {p : List (PathStep κ)} {t : Tree κ α} (h : (leaf a).get? p = some t) : t = leaf a := by
  cases p with
  | nil => exact (Option.some.inj h).symm
  | cons s p => cases h

end Tree

/-! ## Entries -/

variable [LawfulBEq κ]

theorem lookup_cons_ne {k l : κ} (h : k ≠ l) (v : β) (entries : List (κ × β)) :
    ((l, v) :: entries).lookup k = entries.lookup k := by
  rw [List.lookup_cons, beq_eq_false_iff_ne.mpr h]

theorem lookup_map (f : κ → β → β) (entries : List (κ × β)) (k : κ) :
    (entries.map fun e => (e.1, f e.1 e.2)).lookup k = (entries.lookup k).map (f k) := by
  induction entries with
  | nil => rfl
  | cons e entries ih =>
      obtain ⟨l, v⟩ := e
      rw [List.map_cons]
      by_cases hk : k = l
      · subst hk
        rw [List.lookup_cons_self, List.lookup_cons_self, Option.map_some]
      · rw [lookup_cons_ne hk, lookup_cons_ne hk, ih]

theorem lookup_filter (keep : κ → Bool) (entries : List (κ × β)) (k : κ) :
    (entries.filter fun e => keep e.1).lookup k = if keep k then entries.lookup k else none := by
  induction entries with
  | nil => simp
  | cons e entries ih =>
      obtain ⟨l, v⟩ := e
      rw [List.filter_cons]
      by_cases hk : k = l
      · subst hk
        cases hkeep : keep k with
        | true => simp
        | false => simpa [hkeep] using ih
      · rw [lookup_cons_ne hk]
        cases keep l with
        | true => rw [if_pos rfl, lookup_cons_ne hk, ih]
        | false => rw [if_neg (by decide), ih]

theorem mem_of_lookup {entries : List (κ × β)} {k : κ} {v : β} (h : entries.lookup k = some v) : (k, v) ∈ entries := by
  induction entries with
  | nil => cases h
  | cons e entries ih =>
      rw [List.lookup_cons] at h
      split at h
      · next heq =>
        rw [← Option.some.inj h, beq_iff_eq.mp heq]
        exact List.mem_cons_self
      · exact List.mem_cons_of_mem e (ih h)

/-- Entries that are laid over others: the keys of both, and the values of the later ones. -/
def overlay (base new : List (κ × β)) : List (κ × β) :=
  (base.map fun e => (e.1, (new.lookup e.1).getD e.2)) ++ new.filter fun e => (base.lookup e.1).isNone

theorem lookup_overlay (base new : List (κ × β)) (k : κ) :
    (overlay base new).lookup k = (new.lookup k).or (base.lookup k) := by
  rw [overlay, List.lookup_append, lookup_map (fun k v => (new.lookup k).getD v),
    lookup_filter fun k => (base.lookup k).isNone]
  cases base.lookup k <;> cases new.lookup k <;> rfl

/-! ## Arrays -/

/-- The items of an array under the keys of their places. -/
def indexed (key : Nat → κ) (items : List β) : List (κ × β) := items.zipIdx.map fun item => (key item.2, item.1)

theorem lookup_indexed {key : Nat → κ} (hkey : Function.Injective key) (items : List β) (i : Nat) :
    (indexed key items).lookup (key i) = items[i]? := by
  have hfrom : ∀ n, ((items.zipIdx n).map fun item => (key item.2, item.1)).lookup (key (n + i)) = items[i]? := by
    induction items generalizing i with
    | nil => exact fun _ => rfl
    | cons a items ih =>
        intro n
        rw [List.zipIdx_cons, List.map_cons]
        cases i with
        | zero => simp
        | succ i =>
            have hne : key (n + (i + 1)) ≠ key n := fun heq => by
              have := hkey heq
              omega
            rw [lookup_cons_ne hne, List.getElem?_cons_succ, ← ih i (n + 1), Nat.add_assoc, Nat.add_comm 1 i]
  have hstart := hfrom 0
  rwa [Nat.zero_add] at hstart

end Trees
