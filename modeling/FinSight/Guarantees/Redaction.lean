import FinSight.Lib.Logger

/-!
# Secrets in the log

* `redact_arr`, `redact_obj`, `redact_deep` : one level of `redact`, and where it stops;
* `child_redact`, `get?_redact` : a value keeps its place, unless a key on the way is secret;
* `Hidden` : an object without secrets; `hidden_redact` : the objects of the first levels;
* `Alike` : the same scalar, or the same kind of container with the same places; `alike_redact`;
* `emit_redacts` : what this makes of a line.
-/

namespace FinSight.Logger

open Trees

variable {α : Type}

/-! ## One level -/

theorem redactItems_eq (depth : Nat) (items : List (Value α)) : redactItems depth items = items.map (redact (depth + 1)) := by
  induction items with
  | nil => simp only [redactItems, List.map_nil]
  | cons v items ih => rw [redactItems, ih, List.map_cons]

theorem redactEntries_eq (depth : Nat) (entries : List (Text × Value α)) :
    redactEntries depth entries = (entries.filter fun e => e.1 ≠ protoKey).map fun e =>
      (e.1, if e.1 ∈ redactKeys then redacted else redact (depth + 1) e.2) := by
  induction entries with
  | nil => simp only [redactEntries, List.filter_nil, List.map_nil]
  | cons e entries ih =>
      obtain ⟨k, v⟩ := e
      rw [redactEntries, ih, List.filter_cons]
      by_cases hk : k = protoKey
      · simp [hk]
      · simp [hk]

theorem redact_arr {depth : Nat} (h : depth ≤ 4) (items : List (Value α)) :
    redact depth (.arr items) = .arr (items.map (redact (depth + 1))) := by
  rw [redact, if_neg (by omega), redactItems_eq]

theorem redact_obj {depth : Nat} (h : depth ≤ 4) (entries : List (Text × Value α)) :
    redact depth (.obj entries) = .obj ((entries.filter fun e => e.1 ≠ protoKey).map fun e =>
      (e.1, if e.1 ∈ redactKeys then redacted else redact (depth + 1) e.2)) := by
  rw [redact, if_neg (by omega), redactEntries_eq]

@[simp] theorem redact_leaf (depth : Nat) (a : Scalar α) : redact depth (.leaf a) = .leaf a := by
  rw [redact]

/-- Values below the fifth level are passed as they are. -/
theorem redact_deep {depth : Nat} (h : 4 < depth) (v : Value α) : redact depth v = v := by
  cases v with
  | leaf a => exact redact_leaf depth a
  | arr items => rw [redact, if_pos h]
  | obj entries => rw [redact, if_pos h]

/-! ## Places -/

/-- A step that `redact` follows: not to a secret, and not to the prototype. -/
def Kept (s : PathStep Text) : Prop := ∀ k, s = .key k → k ∉ redactKeys ∧ k ≠ protoKey

theorem child_redact {depth : Nat} (h : depth ≤ 4) {s : PathStep Text} (hs : Kept s) (v : Value α) :
    (redact depth v).child s = (v.child s).map (redact (depth + 1)) := by
  cases v with
  | leaf a =>
      rw [redact_leaf]
      rfl
  | arr items =>
      rw [redact_arr h]
      cases s with
      | index i => exact List.getElem?_map
      | key k => rfl
  | obj entries =>
      rw [redact_obj h]
      cases s with
      | index i => rfl
      | key k =>
          obtain ⟨hsecret, hproto⟩ := hs k rfl
          have hkeep : decide (k ≠ protoKey) = true := decide_eq_true hproto
          rw [Tree.child_obj, Tree.child_obj, lookup_map fun k v => if k ∈ redactKeys then redacted else redact (depth + 1) v,
            lookup_filter fun k => decide (k ≠ protoKey), if_pos hkeep]
          simp only [if_neg hsecret]

/-- What is at the end of a step, in any case. -/
theorem child_redact_cases {depth : Nat} (h : depth ≤ 4) {s : PathStep Text} {v w : Value α}
    (hw : (redact depth v).child s = some w) : w = redacted ∨ ∃ u, v.child s = some u ∧ w = redact (depth + 1) u := by
  by_cases hs : Kept s
  · rw [child_redact h hs, Option.map_eq_some_iff] at hw
    obtain ⟨u, hu, rfl⟩ := hw
    exact Or.inr ⟨u, hu, rfl⟩
  · cases v with
    | leaf a =>
        rw [redact_leaf] at hw
        cases hw
    | arr items =>
        cases s with
        | index i => exact absurd (fun k hk => (by cases hk)) hs
        | key k =>
            rw [redact_arr h] at hw
            cases hw
    | obj entries =>
        rw [redact_obj h] at hw
        cases s with
        | index i => cases hw
        | key k =>
            obtain ⟨e, he, heq⟩ := List.mem_map.mp (mem_of_lookup hw)
            obtain ⟨rfl, rfl⟩ := Prod.mk.inj heq
            have hproto : e.1 ≠ protoKey := of_decide_eq_true (List.mem_filter.mp he).2
            refine Or.inl (if_pos ?_)
            by_contra hsecret
            exact hs fun k hk => PathStep.key.inj hk ▸ ⟨hsecret, hproto⟩

/-- A value keeps its place where no key on the way, down to the fifth level, is secret. -/
theorem get?_redact {depth : Nat} {p : List (PathStep Text)} (hp : ∀ s ∈ p.take (5 - depth), Kept s) (v : Value α) :
    (redact depth v).get? p = (v.get? p).map (redact (depth + p.length)) := by
  induction p generalizing depth v with
  | nil => rfl
  | cons s p ih =>
      rw [Tree.get?_cons, Tree.get?_cons, List.length_cons]
      by_cases h : depth ≤ 4
      · have htake : 5 - depth = (5 - (depth + 1)) + 1 := by omega
        rw [htake, List.take_succ_cons, List.forall_mem_cons] at hp
        rw [child_redact h hp.1]
        cases v.child s with
        | none => rfl
        | some u =>
            rw [Option.map_some, Option.bind_some, Option.bind_some, ih hp.2, Nat.add_assoc, Nat.add_comm 1]
      · have hsame : redact (depth + (p.length + 1)) = (id : Value α → Value α) := by
          funext v
          exact redact_deep (by omega) v
        rw [redact_deep (by omega), hsame, Option.map_id_fun, id]

/-! ## Secrets -/

/-- No secret key of an object has a value. -/
def Hidden (entries : List (Text × Value α)) : Prop := ∀ k v, (k, v) ∈ entries → k ∈ redactKeys → v = redacted

theorem hidden_redact {depth : Nat} {p : List (PathStep Text)} (hp : depth + p.length ≤ 4) {v : Value α}
    {entries : List (Text × Value α)} (h : (redact depth v).get? p = some (.obj entries)) : Hidden entries := by
  induction p generalizing depth v with
  | nil =>
      rw [List.length_nil, Nat.add_zero] at hp
      have hv := Option.some.inj h
      cases v with
      | leaf a =>
          rw [redact_leaf] at hv
          cases hv
      | arr items =>
          rw [redact_arr hp] at hv
          cases hv
      | obj fields =>
          rw [redact_obj hp, Tree.obj.injEq] at hv
          subst hv
          intro k w hmem hk
          obtain ⟨e, -, heq⟩ := List.mem_map.mp hmem
          obtain ⟨rfl, rfl⟩ := Prod.mk.inj heq
          exact if_pos hk
  | cons s p ih =>
      rw [List.length_cons] at hp
      rw [Tree.get?_cons, Option.bind_eq_some_iff] at h
      obtain ⟨w, hw, h⟩ := h
      rcases child_redact_cases (by omega) hw with rfl | ⟨u, -, rfl⟩
      · exact absurd (Tree.get?_leaf h) (by simp)
      · exact ih (by omega) h

/-! ## Content -/

/-- A scalar, an array or an object. -/
inductive Kind (α : Type)
  | scalar (a : Scalar α)
  | array
  | object

def kind : Value α → Kind α
  | .leaf a => .scalar a
  | .arr _ => .array
  | .obj _ => .object

/-- The same scalar, an array of the same length, or an object with the same keys but for the prototype. -/
def Alike (v w : Value α) : Prop :=
  kind v = kind w ∧ ∀ s, s ≠ .key protoKey → ((v.child s).isSome ↔ (w.child s).isSome)

theorem alike_redact (depth : Nat) (v : Value α) : Alike v (redact depth v) := by
  by_cases h : depth ≤ 4
  · cases v with
    | leaf a =>
        rw [redact_leaf]
        exact ⟨rfl, fun _ _ => Iff.rfl⟩
    | arr items =>
        rw [redact_arr h]
        refine ⟨rfl, fun s _ => ?_⟩
        cases s with
        | index i => simp [Tree.child]
        | key k => exact Iff.rfl
    | obj entries =>
        rw [redact_obj h]
        refine ⟨rfl, fun s hs => ?_⟩
        cases s with
        | index i => exact Iff.rfl
        | key k =>
            have hkeep : decide (k ≠ protoKey) = true := decide_eq_true fun heq => hs (congrArg _ heq)
            rw [Tree.child_obj, Tree.child_obj,
              lookup_map fun k v => if k ∈ redactKeys then redacted else redact (depth + 1) v,
              lookup_filter fun k => decide (k ≠ protoKey), if_pos hkeep, Option.isSome_map]
  · rw [redact_deep (by omega)]
    exact ⟨rfl, fun _ _ => Iff.rfl⟩

/-! ## Lines -/

theorem given_some {key k : Text} {id : Option Text} {v : Value α} (h : (k, v) ∈ given key id) :
    k = key ∧ ∃ t, v = str t := by
  cases id with
  | none => cases h
  | some id =>
      rw [given] at h
      split at h
      · cases h
      · obtain ⟨rfl, rfl⟩ := Prod.mk.inj (List.mem_singleton.mp h)
        exact ⟨rfl, id, rfl⟩

/-- A line starts with strings under keys that are not secret. -/
theorem lineStart_some {time message k : Text} {context : Context} {level : Level} {v : Value α}
    (h : (k, v) ∈ lineStart time context level message) : k ∉ redactKeys ∧ ∃ t, v = str t := by
  rw [lineStart, List.mem_append, List.mem_append, List.mem_append] at h
  rcases h with ((h | h) | h) | h
  · rw [List.mem_cons, List.mem_pair] at h
    rcases h with h | h | h
    · exact (Prod.mk.inj h).1 ▸ ⟨by decide, time, (Prod.mk.inj h).2⟩
    · exact (Prod.mk.inj h).1 ▸ ⟨by decide, level.text, (Prod.mk.inj h).2⟩
    · exact (Prod.mk.inj h).1 ▸ ⟨by decide, message, (Prod.mk.inj h).2⟩
  · exact (given_some h).1 ▸ ⟨by decide, (given_some h).2⟩
  · exact (given_some h).1 ▸ ⟨by decide, (given_some h).2⟩
  · exact (given_some h).1 ▸ ⟨by decide, (given_some h).2⟩

/-- The key of a line under which the fields' own child is spread. -/
def inLine : PathStep Text → Text
  | .index i => decimal i
  | .key k => k

theorem decimal_not_secret (i : Nat) : decimal i ∉ redactKeys := by
  have hletters : ∀ k ∈ redactKeys, ∃ u ∈ k, ¬ IsDigit u := by decide
  intro h
  obtain ⟨u, hu, hdigit⟩ := hletters _ h
  exact hdigit (isDigit_of_mem_decimal hu)

theorem lookup_spread {v w : Value α} {s : PathStep Text} (h : v.child s = some w) :
    (spread v).lookup (inLine s) = some w := by
  cases v with
  | leaf a => cases h
  | arr items =>
      cases s with
      | index i =>
          rw [spread, inLine, lookup_indexed decimal_injective]
          exact h
      | key k => cases h
  | obj entries =>
      cases s with
      | index i => cases h
      | key k => exact h

theorem mem_indexed {β : Type} {items : List β} {k : Text} {w : β} (h : (k, w) ∈ indexed decimal items) :
    ∃ i, k = decimal i ∧ items[i]? = some w := by
  obtain ⟨⟨v, i⟩, hmem, heq⟩ := List.mem_map.mp h
  obtain ⟨rfl, rfl⟩ := Prod.mk.inj heq
  exact ⟨i, rfl, List.mem_zipIdx_iff_getElem?.mp hmem⟩

/-- What is spread are children, or code units of a string. -/
theorem spread_lookup {v w : Value α} {k : Text} (h : (spread v).lookup k = some w) :
    (∃ a, w = .leaf a) ∨ ∃ s, v.child s = some w := by
  cases v with
  | obj entries => exact Or.inr ⟨.key k, h⟩
  | arr items =>
      obtain ⟨i, -, hi⟩ := mem_indexed (mem_of_lookup h)
      exact Or.inr ⟨.index i, hi⟩
  | leaf a =>
      cases a with
      | other a => cases h
      | str t =>
          obtain ⟨i, -, hi⟩ := mem_indexed (mem_of_lookup h)
          rw [List.getElem?_map, Option.map_eq_some_iff] at hi
          obtain ⟨u, -, rfl⟩ := hi
          exact Or.inl ⟨_, rfl⟩

theorem spread_secret {v w : Value α} {k : Text} (h : (k, w) ∈ spread v) (hk : k ∈ redactKeys) :
    ∃ entries, v = .obj entries ∧ (k, w) ∈ entries := by
  cases v with
  | obj entries => exact ⟨entries, rfl, h⟩
  | arr items =>
      obtain ⟨i, rfl, -⟩ := mem_indexed h
      exact absurd hk (decimal_not_secret i)
  | leaf a =>
      cases a with
      | other a => cases h
      | str t =>
          obtain ⟨i, rfl, -⟩ := mem_indexed h
          exact absurd hk (decimal_not_secret i)

/-- What a line makes of the fields: no object of the first five levels has a secret, every value that is not under a
secret key of these levels keeps its place and content, and what is deeper is passed as it is. -/
structure Redacts (fields line : Value α) : Prop where
  hidden : ∀ p entries, p.length ≤ 4 → line.get? p = some (.obj entries) → Hidden entries
  kept : ∀ s p v, (∀ s' ∈ (s :: p).take 5, Kept s') → fields.get? (s :: p) = some v →
    ∃ w, line.get? (.key (inLine s) :: p) = some w ∧ Alike v w ∧ (4 ≤ p.length → w = v)

/-- **A line has no secrets in the first five levels of its fields, and all else.** -/
theorem emit_redacts {threshold : Nat} {time message : Text} {context : Context} {level : Level} {fields line : Value α}
    {stream : Stream} (h : emit threshold time context level message (some fields) = some (stream, line)) :
    Redacts fields line := by
  have hline : line = .obj (overlay (lineStart time context level message) (spread (redact 0 fields))) := by
    rw [emit] at h
    split at h
    · cases h
    · exact (Prod.mk.inj (Option.some.inj h)).2.symm
  subst hline
  refine ⟨fun p entries hp hget => ?_, fun s p v hkept hget => ?_⟩
  · cases p with
    | nil =>
        obtain rfl := Tree.obj.inj (Option.some.inj hget)
        intro k v hmem hk
        rw [overlay, List.mem_append] at hmem
        rcases hmem with hmem | hmem
        · obtain ⟨e, he, heq⟩ := List.mem_map.mp hmem
          obtain ⟨rfl, -⟩ := Prod.mk.inj heq
          exact absurd hk (lineStart_some he).1
        · obtain ⟨entries, hroot, hmem⟩ := spread_secret (List.mem_filter.mp hmem).1 hk
          have hhidden : Hidden entries := hidden_redact (p := []) (Nat.zero_le 4) (congrArg some hroot)
          exact hhidden k v hmem hk
    | cons s p =>
        rw [Tree.get?_cons, Option.bind_eq_some_iff] at hget
        obtain ⟨w, hw, hget⟩ := hget
        have hnot : ∀ a, w ≠ .leaf a := by
          rintro a rfl
          exact absurd (Tree.get?_leaf hget) (by simp)
        cases s with
        | index i => cases hw
        | key k =>
            rw [Tree.child_obj, lookup_overlay, Option.or_eq_some_iff] at hw
            rcases hw with hw | ⟨-, hw⟩
            · rcases spread_lookup hw with ⟨a, ha⟩ | ⟨s, hs⟩
              · exact absurd ha (hnot a)
              · have hplace : (redact 0 fields).get? (s :: p) = some (.obj entries) := by
                  rw [Tree.get?_cons, hs]
                  exact hget
                refine hidden_redact ?_ hplace
                rwa [Nat.zero_add, List.length_cons]
            · obtain ⟨-, t, ht⟩ := lineStart_some (mem_of_lookup hw)
              exact absurd ht (hnot (.str t))
  · have hplace : (redact 0 fields).get? (s :: p) = some (redact (p.length + 1) v) := by
      rw [get?_redact hkept, hget, Option.map_some, Nat.zero_add, List.length_cons]
    rw [Tree.get?_cons, Option.bind_eq_some_iff] at hplace
    obtain ⟨u, hu, hrest⟩ := hplace
    refine ⟨redact (p.length + 1) v, ?_, alike_redact _ v, fun hdeep => redact_deep (by omega) v⟩
    rw [Tree.get?_cons, Tree.child_obj, lookup_overlay, lookup_spread hu]
    exact hrest

/-- The body of a login. -/
def loginFields : Value Unit :=
  .obj [(text "body", .obj [(text "email", str (text "a@b")), (text "password", str (text "hunter2"))])]

theorem emit_redacts_login : ∃ line, emit 20 [] ⟨none, none, none⟩ .info (text "login") (some loginFields) =
    some (.stdout, line) ∧ Redacts loginFields line := by
  obtain ⟨line, hline⟩ : ∃ line, emit 20 [] ⟨none, none, none⟩ .info (text "login") (some loginFields) =
    some (.stdout, line) := ⟨_, rfl⟩
  exact ⟨line, hline, emit_redacts hline⟩

/-- A password five levels below the fields. -/
def deepFields : Value Unit :=
  .obj [(text "a", .arr [.obj [(text "b", .obj [(text "c", .obj [(text "d",
    .obj [(text "password", str (text "hunter2"))])])])]])]

theorem emit_leaks : ¬ ∀ (fields line : Value Unit) (stream : Stream),
    emit 20 [] ⟨none, none, none⟩ .info (text "deep") (some fields) = some (stream, line) →
      ∀ p entries, line.get? p = some (.obj entries) → Hidden entries := by
  intro h
  have hobject := h deepFields _ .stdout rfl
    [.key (text "a"), .index 0, .key (text "b"), .key (text "c"), .key (text "d")]
    [(text "password", str (text "hunter2"))] rfl
  have hsecret := hobject (text "password") (str (text "hunter2")) List.mem_cons_self (by decide)
  cases hsecret

end FinSight.Logger
