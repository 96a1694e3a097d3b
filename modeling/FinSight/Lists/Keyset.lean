import Mathlib.Data.Finset.Card
import Mathlib.Data.Set.Finite.Lattice
import Mathlib.Data.List.Sort

/-!
# Keyset pagination

A page holds the first rows below a cursor by decreasing key; one row more than the limit tells that there are more,
and the cursor of the next page is then the key of the page's last row.

* `probe`, `page`, `next` : the rows of one query, the page, and the cursor of the next;
* `Follows` : the pages of a client who follows the cursors, each call on the table of its time;
* `Grows` : what may happen to the table between the calls;
* `exists_follows` : where finitely many keys ever occur, the client comes to an end, sees decreasing keys, and sees
  every key that stays in the table; `exists_traversed` : and so no row twice, and every row that stays.
-/

namespace Keyset

variable {ρ κ τ : Type} [LinearOrder κ] (key : ρ → κ)

/-- `ORDER BY key DESC`. -/
def descending (rows : List ρ) : List ρ := rows.insertionSort fun a b => key b ≤ key a

/-- `WHERE key < cursor`. -/
def below (cursor : Option κ) (rows : List ρ) : List ρ := rows.filter fun r => cursor.all fun c => decide (key r < c)

/-- `LIMIT limit + 1`. -/
def probe (limit : Nat) (cursor : Option κ) (rows : List ρ) : List ρ :=
  (descending key (below key cursor rows)).take (limit + 1)

/-- The rows of a page. -/
def page (limit : Nat) (rows : List ρ) : List ρ := if limit < rows.length then rows.take limit else rows

/-- The cursor of the next page. -/
def next (limit : Nat) (encode : ρ → τ) (rows : List ρ) : Option τ :=
  if limit < rows.length then (page limit rows).getLast?.map encode else none

/-! ## One page -/

variable {key} {limit : Nat} {cursor : Option κ} {rows : List ρ}

theorem mem_below {r : ρ} : r ∈ below key cursor rows ↔ r ∈ rows ∧ ∀ c ∈ cursor, key r < c := by
  rw [below, List.mem_filter]
  cases cursor <;> simp

theorem mem_descending {r : ρ} : r ∈ descending key rows ↔ r ∈ rows := List.mem_insertionSort _

theorem pairwise_descending (h : (rows.map key).Nodup) : (descending key rows).Pairwise fun a b => key b < key a := by
  have htotal : Std.Total fun a b : ρ => key b ≤ key a := ⟨fun a b => le_total (key b) (key a)⟩
  have htrans : IsTrans ρ fun a b => key b ≤ key a := ⟨fun _ _ _ hab hbc => hbc.trans hab⟩
  have hsorted : (descending key rows).Pairwise fun a b => key b ≤ key a := List.pairwise_insertionSort _ _
  have hkeys : ((descending key rows).map key).Nodup := ((List.perm_insertionSort _ rows).map key).nodup_iff.mpr h
  exact hsorted.imp₂ (fun a b hle hne => lt_of_le_of_ne hle (Ne.symm hne)) (List.pairwise_map.mp hkeys)

theorem page_take (l : List ρ) : page limit (l.take (limit + 1)) = l.take limit := by
  rw [page, List.length_take, List.take_take]
  split
  · rw [min_eq_left (Nat.le_succ limit)]
  · rw [List.take_of_length_le (by omega), List.take_of_length_le (by omega)]

theorem mem_of_probe {r : ρ} (h : r ∈ probe key limit cursor rows) : r ∈ rows :=
  (mem_below.mp (mem_descending.mp (List.mem_of_mem_take h))).1

omit [LinearOrder κ] in
theorem mem_of_page {r : ρ} (h : r ∈ page limit rows) : r ∈ rows := by
  unfold page at h
  split at h
  · exact List.mem_of_mem_take h
  · exact h

theorem page_probe : page limit (probe key limit cursor rows) = (descending key (below key cursor rows)).take limit :=
  page_take _

/-- In decreasing order, a row is among the first `n` where less than `n` rows come before it. -/
theorem mem_take_iff {l : List ρ} (h : l.Pairwise fun a b => key b < key a) {n : Nat} {r : ρ} :
    r ∈ l.take n ↔ r ∈ l ∧ l.countP (fun x => key r < key x) < n := by
  induction l generalizing n with
  | nil => simp
  | cons a l ih =>
      obtain ⟨hfirst, hrest⟩ := List.pairwise_cons.mp h
      cases n with
      | zero => simp
      | succ n =>
          rw [List.take_succ_cons, List.mem_cons, List.mem_cons, ih hrest, List.countP_cons]
          constructor
          · rintro (rfl | ⟨hr, hcount⟩)
            · have hnone : l.countP (fun x => decide (key r < key x)) = 0 :=
                List.countP_eq_zero.mpr fun x hx => by simpa using (hfirst x hx).le
              simp [hnone]
            · rw [if_pos (decide_eq_true (hfirst r hr))]
              exact ⟨Or.inr hr, Nat.succ_lt_succ hcount⟩
          · rintro ⟨rfl | hr, hcount⟩
            · exact Or.inl rfl
            · rw [if_pos (decide_eq_true (hfirst r hr))] at hcount
              exact Or.inr ⟨hr, Nat.lt_of_succ_lt_succ hcount⟩

/-- A row is on the page where it is below the cursor, and less than `limit` rows are between the two. -/
theorem mem_page_probe (hkeys : (rows.map key).Nodup) {r : ρ} : r ∈ page limit (probe key limit cursor rows) ↔
    (r ∈ rows ∧ ∀ c ∈ cursor, key r < c) ∧
      rows.countP (fun x => key r < key x ∧ ∀ c ∈ cursor, key x < c) < limit := by
  have hbelow : ((below key cursor rows).map key).Nodup := hkeys.sublist (List.filter_sublist.map _)
  have hcount : (descending key (below key cursor rows)).countP (fun x => key r < key x) =
      rows.countP fun x => key r < key x ∧ ∀ c ∈ cursor, key x < c := by
    rw [descending, (List.perm_insertionSort _ _).countP_eq, below, List.countP_filter]
    refine List.countP_congr fun x _ => ?_
    cases cursor <;> simp
  rw [page_probe, mem_take_iff (pairwise_descending hbelow), mem_descending, mem_below, hcount]

theorem next_probe (encode : ρ → τ) : next limit encode (probe key limit cursor rows) =
    if limit < (descending key (below key cursor rows)).length then
      ((descending key (below key cursor rows)).take limit).getLast?.map encode
    else none := by
  rw [next, page_probe, probe, List.length_take]
  refine if_congr ?_ rfl rfl
  omega

/-! ## Following the cursors -/

variable {σ ι : Type}

/-- The pages of a client who follows the cursors from call `n` on; `returns n c items c'` says that call `n` with the
cursor `c` returns `items` and the cursor `c'`. -/
inductive Follows (returns : ℕ → Option τ → List σ → Option τ → Prop) : ℕ → Option τ → List (List σ) → Prop
  | last {n : ℕ} {c : Option τ} {items : List σ} (h : returns n c items none) : Follows returns n c [items]
  | next {n : ℕ} {c : Option τ} {items : List σ} {c' : τ} {pages : List (List σ)} (h : returns n c items (some c'))
      (rest : Follows returns (n + 1) (some c') pages) : Follows returns n c (items :: pages)

/-- The cursors that a client can hold: none, or that of a row. -/
inductive Names (key : ρ → κ) (encode : ℕ → ρ → τ) (rows : ℕ → List ρ) : Option τ → Option κ → Prop
  | start : Names key encode rows none none
  | after (n : ℕ) {r : ρ} (h : r ∈ rows n) : Names key encode rows (some (encode n r)) (some (key r))

/-- The key among the columns of a row. -/
abbrev keyOf (columns : ρ → ι × κ) (r : ρ) : κ := (columns r).2

/-- The calls return the pages of the tables of their time; an item shows the identity and the key of its row. -/
def Serves (columns : ρ → ι × κ) (shown : σ → ι × κ) (limit : Nat) (encode : ℕ → ρ → τ) (rows : ℕ → List ρ)
    (returns : ℕ → Option τ → List σ → Option τ → Prop) : Prop :=
  ∀ n c k, Names (keyOf columns) encode rows c k → ∃ items,
    items.map shown = (page limit (probe (keyOf columns) limit k (rows n))).map columns ∧
      returns n c items (next limit (encode n) (probe (keyOf columns) limit k (rows n)))

/-- The pages from call `n` on are below `k`, are of rows, their keys decrease, and all rows that stay are there. -/
structure Complete (columns : ρ → ι × κ) (rows : ℕ → List ρ) (n : ℕ) (k : Option κ) (pages : List (List (ι × κ))) :
    Prop where
  below : ∀ x ∈ pages.flatten, ∀ c ∈ k, x.2 < c
  drawn : ∀ x ∈ pages.flatten, ∃ m, ∃ r ∈ rows m, columns r = x
  decreasing : pages.flatten.Pairwise fun x y => y.2 < x.2
  complete : ∀ x : ι × κ, (∀ c ∈ k, x.2 < c) → (∀ m < pages.length, ∃ r ∈ rows (n + m), columns r = x) →
    x ∈ pages.flatten

variable {columns : ρ → ι × κ} {shown : σ → ι × κ} {rows : ℕ → List ρ} {encode : ℕ → ρ → τ}
  {returns : ℕ → Option τ → List σ → Option τ → Prop}

/-- The last page. -/
theorem complete_last {n : ℕ} {k : Option κ} (hkeys : ((rows n).map (keyOf columns)).Nodup)
    (hlast : (descending (keyOf columns) (below (keyOf columns) k (rows n))).length ≤ limit) :
    Complete columns rows n k [(page limit (probe (keyOf columns) limit k (rows n))).map columns] := by
  rw [page_probe, List.take_of_length_le hlast]
  refine ⟨?_, ?_, ?_, ?_⟩ <;> rw [List.flatten_singleton]
  · intro x hx
    obtain ⟨r, hr, rfl⟩ := List.mem_map.mp hx
    exact (mem_below.mp (mem_descending.mp hr)).2
  · intro x hx
    obtain ⟨r, hr, rfl⟩ := List.mem_map.mp hx
    exact ⟨n, r, (mem_below.mp (mem_descending.mp hr)).1, rfl⟩
  · rw [List.pairwise_map]
    exact pairwise_descending (hkeys.sublist (List.filter_sublist.map _))
  · intro x hx hstays
    obtain ⟨r, hr, rfl⟩ := hstays 0 Nat.one_pos
    exact List.mem_map_of_mem (mem_descending.mpr (mem_below.mpr ⟨hr, hx⟩))

/-- A page with more rows behind it, its last row, and the pages below that. -/
theorem complete_next {n : ℕ} {k : Option κ} (hkeys : ((rows n).map (keyOf columns)).Nodup) {last : ρ}
    (hlast : ((descending (keyOf columns) (below (keyOf columns) k (rows n))).take limit).getLast? = some last)
    {pages : List (List (ι × κ))} (h : Complete columns rows (n + 1) (some (keyOf columns last)) pages) :
    Complete columns rows n k ((page limit (probe (keyOf columns) limit k (rows n))).map columns :: pages) := by
  have hsorted : (descending (keyOf columns) (below (keyOf columns) k (rows n))).Pairwise fun a b =>
      keyOf columns b < keyOf columns a :=
    pairwise_descending (hkeys.sublist (List.filter_sublist.map _))
  have hmem : ∀ {r}, r ∈ descending (keyOf columns) (below (keyOf columns) k (rows n)) ↔
      r ∈ rows n ∧ ∀ c ∈ k, keyOf columns r < c := mem_descending.trans mem_below
  rw [page_probe]
  generalize descending (keyOf columns) (below (keyOf columns) k (rows n)) = sorted at *
  rw [← List.take_append_drop limit sorted, List.pairwise_append] at hsorted
  obtain ⟨htaken, -, hdropped⟩ := hsorted
  have hlast_mem := List.mem_of_getLast? hlast
  have hleast : ∀ r ∈ sorted.take limit, keyOf columns last ≤ keyOf columns r := by
    intro r hr
    obtain ⟨firsts, hfirsts⟩ := List.getLast?_eq_some_iff.mp hlast
    rw [hfirsts, List.pairwise_append] at htaken
    rw [hfirsts, List.mem_append, List.mem_singleton] at hr
    rcases hr with hr | rfl
    · exact (htaken.2.2 r hr last (List.mem_singleton_self last)).le
    · exact le_rfl
  have hbelow : ∀ c ∈ k, keyOf columns last < c := (hmem.mp (List.mem_of_mem_take hlast_mem)).2
  refine ⟨?_, ?_, ?_, ?_⟩ <;> rw [List.flatten_cons]
  · intro x hx c hc
    rcases List.mem_append.mp hx with hx | hx
    · obtain ⟨r, hr, rfl⟩ := List.mem_map.mp hx
      exact (hmem.mp (List.mem_of_mem_take hr)).2 c hc
    · exact (h.below x hx _ rfl).trans (hbelow c hc)
  · intro x hx
    rcases List.mem_append.mp hx with hx | hx
    · obtain ⟨r, hr, rfl⟩ := List.mem_map.mp hx
      exact ⟨n, r, (hmem.mp (List.mem_of_mem_take hr)).1, rfl⟩
    · exact h.drawn x hx
  · rw [List.pairwise_append, List.pairwise_map]
    refine ⟨htaken, h.decreasing, fun x hx y hy => ?_⟩
    obtain ⟨r, hr, rfl⟩ := List.mem_map.mp hx
    exact (h.below y hy _ rfl).trans_le (hleast r hr)
  · intro x hx hstays
    obtain ⟨r, hr, rfl⟩ := hstays 0 (Nat.succ_pos _)
    have hr : r ∈ sorted.take limit ++ sorted.drop limit := by
      rw [List.take_append_drop]
      exact hmem.mpr ⟨hr, hx⟩
    rw [List.mem_append]
    rcases List.mem_append.mp hr with hr | hr
    · exact Or.inl (List.mem_map_of_mem hr)
    · refine Or.inr (h.complete _ (fun c hc => Option.mem_some_iff.mp hc ▸ hdropped last hlast_mem r hr) fun m hm => ?_)
      have hlater := hstays (m + 1) (Nat.succ_lt_succ hm)
      rwa [← Nat.add_assoc, Nat.add_right_comm] at hlater

/-- **A client who follows the cursors comes to an end, and the pages are complete.** -/
theorem exists_follows (hlimit : 1 ≤ limit) (hserves : Serves columns shown limit encode rows returns)
    (hkeys : ∀ n, ((rows n).map (keyOf columns)).Nodup) {keys : Finset κ}
    (hfinite : ∀ n, ∀ r ∈ rows n, keyOf columns r ∈ keys) {n : ℕ} {c : Option τ} {k : Option κ}
    (hnames : Names (keyOf columns) encode rows c k) :
    ∃ pages, Follows returns n c pages ∧ Complete columns rows n k (pages.map (List.map shown)) := by
  induction hleft : (keys.filter fun x => ∀ c ∈ k, x < c).card using Nat.strong_induction_on generalizing n c k with
  | _ left ih =>
      obtain ⟨items, hitems, hreturns⟩ := hserves n c k hnames
      rw [next_probe] at hreturns
      by_cases hmore : limit < (descending (keyOf columns) (below (keyOf columns) k (rows n))).length
      · obtain ⟨last, hlast⟩ : ∃ last,
            ((descending (keyOf columns) (below (keyOf columns) k (rows n))).take limit).getLast? = some last := by
          refine ⟨_, List.getLast?_eq_some_getLast fun hnil => ?_⟩
          have hlength := congrArg List.length hnil
          rw [List.length_take, List.length_nil] at hlength
          omega
        rw [if_pos hmore, hlast, Option.map_some] at hreturns
        obtain ⟨hrow, hbelow⟩ := mem_below.mp (mem_descending.mp (List.mem_of_mem_take (List.mem_of_getLast? hlast)))
        -- The last key of the page is one of those left before it, and not after.
        have hfewer : (keys.filter fun x => ∀ c ∈ some (keyOf columns last), x < c).card <
            (keys.filter fun x => ∀ c ∈ k, x < c).card := by
          refine Finset.card_lt_card (Finset.ssubset_iff_of_subset ?_ |>.mpr ⟨keyOf columns last, ?_, ?_⟩)
          · intro x hx
            rw [Finset.mem_filter] at hx ⊢
            exact ⟨hx.1, fun c hc => (hx.2 _ rfl).trans (hbelow c hc)⟩
          · exact Finset.mem_filter.mpr ⟨hfinite n last hrow, hbelow⟩
          · rw [Finset.mem_filter]
            exact fun h => lt_irrefl _ (h.2 _ rfl)
        obtain ⟨pages, hfollows, hcomplete⟩ := ih _ (hleft ▸ hfewer) (.after n hrow) rfl
        refine ⟨items :: pages, .next hreturns hfollows, ?_⟩
        rw [List.map_cons, hitems]
        exact complete_next (hkeys n) hlast hcomplete
      · rw [if_neg hmore] at hreturns
        refine ⟨[items], .last hreturns, ?_⟩
        rw [List.map_singleton, hitems]
        exact complete_last (hkeys n) (Nat.le_of_not_lt hmore)

/-! ## Tables that grow -/

/-- Between the calls rows are inserted, finitely many in all; a row keeps its identity and its key. -/
structure Grows (columns : ρ → ι × κ) (table : ℕ → List ρ) : Prop where
  unique : ∀ n, ((table n).map fun r => (columns r).1).Nodup
  keeps : ∀ m n, ∀ r ∈ table m, ∀ r' ∈ table n, (columns r).1 = (columns r').1 → keyOf columns r = keyOf columns r'
  finite : {i | ∃ n, ∃ r ∈ table n, (columns r).1 = i}.Finite

/-- The pages of a traversal: the keys decrease, no row comes twice, and every row of the first call that is among the
rows of all calls is there. -/
structure Traversed (columns : ρ → ι × κ) (shown : σ → ι × κ) (rows : ℕ → List ρ) (pages : List (List σ)) : Prop where
  decreasing : pages.flatten.Pairwise fun v w => (shown w).2 < (shown v).2
  once : (pages.flatten.map fun v => (shown v).1).Nodup
  complete : ∀ r ∈ rows 0, (∀ n < pages.length, ∃ r' ∈ rows n, columns r' = columns r) →
    ∃ v ∈ pages.flatten, shown v = columns r

variable {table : ℕ → List ρ}

omit [LinearOrder κ] in
theorem Grows.finite_keys (h : Grows columns table) : {x | ∃ n, ∃ r ∈ table n, keyOf columns r = x}.Finite := by
  have hunion : {x | ∃ n, ∃ r ∈ table n, keyOf columns r = x} ⊆
      ⋃ i ∈ {i | ∃ n, ∃ r ∈ table n, (columns r).1 = i}, {x | ∃ n, ∃ r ∈ table n, columns r = (i, x)} := by
    rintro x ⟨n, r, hr, rfl⟩
    exact Set.mem_biUnion ⟨n, r, hr, rfl⟩ ⟨n, r, hr, rfl⟩
  refine (h.finite.biUnion fun i _ => Set.Subsingleton.finite ?_).subset hunion
  rintro x ⟨m, r, hr, hx⟩ y ⟨n, r', hr', hy⟩
  have hkey := h.keeps m n r hr r' hr' (by rw [hx, hy])
  rwa [keyOf, keyOf, hx, hy] at hkey

omit [LinearOrder κ] in
/-- At any time some rows of a list. -/
theorem Grows.of_sublist {rows : List ρ} (hunique : (rows.map fun r => (columns r).1).Nodup)
    (hsub : ∀ n, (table n).Sublist rows) : Grows columns table where
  unique n := hunique.sublist ((hsub n).map _)
  keeps m n r hr r' hr' hsame := by
    rw [List.inj_on_of_nodup_map hunique ((hsub m).subset hr) ((hsub n).subset hr') hsame]
  finite := by
    refine (List.finite_toSet (rows.map fun r => (columns r).1)).subset ?_
    rintro i ⟨n, r, hr, rfl⟩
    exact List.mem_map.mpr ⟨r, (hsub n).subset hr, rfl⟩

/-- **A client who follows the cursors sees every row that stays, once, by decreasing key.** -/
theorem exists_traversed (hlimit : 1 ≤ limit) (hgrows : Grows columns table) (hsub : ∀ n, rows n ⊆ table n)
    (hkeys : ∀ n, ((rows n).map (keyOf columns)).Nodup)
    (hserves : Serves columns shown limit encode rows returns) :
    ∃ pages, Follows returns 0 none pages ∧ Traversed columns shown rows pages := by
  have hfinite : ∀ n, ∀ r ∈ rows n, keyOf columns r ∈ hgrows.finite_keys.toFinset :=
    fun n r hr => hgrows.finite_keys.mem_toFinset.mpr ⟨n, r, hsub n hr, rfl⟩
  obtain ⟨pages, hfollows, hcomplete⟩ := exists_follows hlimit hserves hkeys hfinite (n := 0) .start
  have hflatten : (pages.map (List.map shown)).flatten = pages.flatten.map shown := List.map_flatten.symm
  have hdecreasing := hcomplete.decreasing
  rw [hflatten, List.pairwise_map] at hdecreasing
  refine ⟨pages, hfollows, hdecreasing, ?_, fun r hr hstays => ?_⟩
  · refine List.pairwise_map.mpr (hdecreasing.imp_of_mem fun {a b} ha hb hlt hsame => ?_)
    obtain ⟨m, r, hr, hra⟩ := hcomplete.drawn _ (hflatten ▸ List.mem_map_of_mem ha)
    obtain ⟨n, r', hr', hrb⟩ := hcomplete.drawn _ (hflatten ▸ List.mem_map_of_mem hb)
    rw [← hra, ← hrb] at hlt hsame
    exact hlt.ne' (hgrows.keeps m n r (hsub m hr) r' (hsub n hr') hsame)
  · have hshown : columns r ∈ (pages.map (List.map shown)).flatten := by
      refine hcomplete.complete _ (fun c hc => by cases hc) fun n hn => ?_
      rw [List.length_map] at hn
      rw [Nat.zero_add]
      exact hstays n hn
    rw [hflatten] at hshown
    obtain ⟨v, hv, hcolumns⟩ := List.mem_map.mp hshown
    exact ⟨v, hv, hcolumns⟩

end Keyset
