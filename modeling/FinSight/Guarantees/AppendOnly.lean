import FinSight.Db.Triggers
import FinSight.Lists.Grouping
import FinSight.ReadCommitted.Discipline

/-!
# The ledger tables are append-only and balanced

* `Appends tables locks log` : what a transaction's log can be, once the `BEFORE` triggers let it through;
* `keeps_session` : every session keeps to it;
* `Balanced`, `Appends.sums` : the deferred trigger makes the lines of a log balance by themselves;
* `append_only` : the guarantee, over all interleavings of arbitrary sessions.
-/

namespace FinSight.Raw

open ReadCommitted Grouping

/-- `reversed_by_entry_id` went from `NULL` to a value, or nothing changed. -/
def Reverses (e e' : JournalEntry) : Prop :=
  e' = e ∨ e.reversedByEntryId = none ∧ ∃ id, e' = { e with reversedByEntryId := some id }

theorem Reverses.trans {a b c : JournalEntry} (h₁ : Reverses a b) (h₂ : Reverses b c) : Reverses a c := by
  rcases h₁ with rfl | ⟨hnone, id, rfl⟩
  · exact h₂
  · rcases h₂ with rfl | ⟨hnone', -⟩
    · exact Or.inr ⟨hnone, id, rfl⟩
    · cases hnone'

/-- Lines stay as they are, entries but for a reversal. -/
structure Evolves (a b : Tables) : Prop where
  lines : a.lines <+: b.lines
  entries : ∀ e ∈ a.entries, ∃ e' ∈ b.entries, Reverses e e'

theorem Evolves.refl (a : Tables) : Evolves a a := ⟨List.prefix_refl _, fun e he => ⟨e, he, Or.inl rfl⟩⟩

theorem Evolves.trans {a b c : Tables} (h₁ : Evolves a b) (h₂ : Evolves b c) : Evolves a c where
  lines := h₁.lines.trans h₂.lines
  entries e he := by
    obtain ⟨e', he', h⟩ := h₁.entries e he
    obtain ⟨e'', he'', h'⟩ := h₂.entries e' he'
    exact ⟨e'', he'', h.trans h'⟩

def rowsOf (tables : Tables) (id : Uuid) : List JournalEntry := tables.entries.filter fun e => e.id = id

/-- The row lock of an entry keeps the row. -/
def protocol : Protocol Tables Lock where
  agree ℓ a b := ∀ id, ℓ = .entry id → rowsOf b id = rowsOf a id
  grow := Evolves
  agree_refl _ _ _ _ := rfl
  agree_trans _ _ _ _ h₁ h₂ id hid := (h₂ id hid).trans (h₁ id hid)
  grow_refl := Evolves.refl
  grow_trans := Evolves.trans

theorem rowsOf_eq {locks : List Lock} {a b : Tables} (h : protocol.Rely locks a b) {id : Uuid}
    (hlock : Lock.entry id ∈ locks) : rowsOf b id = rowsOf a id := h.agree _ hlock id rfl

/-! ## Logs -/

def setReversed (e : JournalEntry) (id : Uuid) : JournalEntry := { e with reversedByEntryId := some id }

/-- Entries and lines are inserted, and entries reversed. -/
inductive Appends (tables : Tables) (locks : List Lock) : List Write → Prop
  | nil : Appends tables locks []
  | insertEntry {log : List Write} {row : JournalEntry} : Appends tables locks log → Lock.entry row.id ∈ locks →
      rowsOf (engine.view log tables) row.id = [] → Appends tables locks (log ++ [.entry (.insert row)])
  | reverse {log : List Write} {e : JournalEntry} {id : Uuid} : Appends tables locks log → Lock.entry e.id ∈ locks →
      e ∈ (engine.view log tables).entries → e.reversedByEntryId = none →
      Appends tables locks (log ++ [.entry (.update e (setReversed e id))])
  | insertLine {log : List Write} {row : EntryLine} : Appends tables locks log →
      Appends tables locks (log ++ [.line (.insert row)])

theorem Appends.mono {tables : Tables} {locks locks' : List Lock} {log : List Write} (h : Appends tables locks log)
    (hsub : ∀ ℓ ∈ locks, ℓ ∈ locks') : Appends tables locks' log := by
  induction h with
  | nil => exact .nil
  | insertEntry _ hlock hfree ih => exact .insertEntry ih (hsub _ hlock) hfree
  | reverse _ hlock he hnone ih => exact .reverse ih (hsub _ hlock) he hnone
  | insertLine _ ih => exact .insertLine ih

theorem rowsOf_insert (tables : Tables) (row : JournalEntry) (id : Uuid) :
    rowsOf (tables.apply (.entry (.insert row))) id = rowsOf tables id ++ if row.id = id then [row] else [] := by
  rw [rowsOf, Tables.apply, RowChange.apply, List.filter_append, List.filter_singleton]
  by_cases h : row.id = id
  · simp [h, rowsOf]
  · simp [h, rowsOf]

/-- A reversal replaces the rows of its id. -/
theorem rowsOf_reverse (tables : Tables) (e : JournalEntry) (r id : Uuid) :
    rowsOf (tables.apply (.entry (.update e (setReversed e r)))) id =
      (rowsOf tables id).map fun x => if x.id = e.id then setReversed e r else x := by
  rw [rowsOf, Tables.apply, RowChange.apply, rowsOf, List.filter_map]
  congr 1
  refine List.filter_congr fun x _ => ?_
  simp only [Function.comp_apply]
  split
  · next hx => rw [hx]; rfl
  · rfl

/-- The rows of an id, under a log, are those of the table below it. -/
theorem Appends.rowsOf_view {tables : Tables} {locks : List Lock} {log : List Write} (h : Appends tables locks log)
    {a b : Tables} {id : Uuid} (heq : rowsOf b id = rowsOf a id) :
    rowsOf (engine.view log b) id = rowsOf (engine.view log a) id := by
  induction h with
  | nil => exact heq
  | @insertEntry log row _ _ _ ih =>
      rw [Engine.view_concat, Engine.view_concat, engine_apply, engine_apply, rowsOf_insert, rowsOf_insert, ih]
  | @reverse log e r _ _ _ _ ih =>
      rw [Engine.view_concat, Engine.view_concat, engine_apply, engine_apply, rowsOf_reverse, rowsOf_reverse, ih]
  | @insertLine log row _ ih =>
      rw [Engine.view_concat, Engine.view_concat]
      exact ih

theorem mem_rowsOf {tables : Tables} {e : JournalEntry} : e ∈ rowsOf tables e.id ↔ e ∈ tables.entries := by
  simp [rowsOf]

/-! ## Statements -/

section Statements
variable {fin : Tables}

/-- A program that keeps to `Appends`. -/
def Keeps (fin : Tables) (p : Tx Unit) : Prop :=
  ∀ (now : Nat) (prev : Tables) (log : List Write) (locks : List Lock), Appends fin locks log →
    p.Meets engine protocol now fin Program.Anywhere (fun _ _ log' locks' => Appends fin locks' log') (fun _ _ _ => True)
      prev log locks

theorem Keeps.bind {p q : Tx Unit} (hp : Keeps fin p) (hq : Keeps fin q) : Keeps fin (do p; q) := by
  intro now prev log locks h
  refine Program.Meets.bind ?_
  exact Program.Meets.mono (fun _ prev' log' locks' h' => hq now prev' log' locks' h') (fun _ _ _ _ => trivial)
    (hp now prev log locks h)

theorem Keeps.inOrder {ps : List (Tx Unit)} (h : ∀ p ∈ ps, Keeps fin p) : Keeps fin (inOrder ps) := by
  induction ps with
  | nil => exact fun _ _ _ _ h' => h'
  | cons p ps ih =>
      rw [List.forall_mem_cons] at h
      exact h.1.bind (ih h.2)

/-- An insert finds its id free, and keeps it so. -/
theorem keeps_insertEntry (doNothing : Bool) (row : JournalEntry) :
    Keeps fin (Program.statement (insertEntry doNothing row)) := by
  intro now prev log locks h db c _ _ _
  unfold insertEntry onConflict
  by_cases htaken : ((engine.view log db).entries.any fun e =>
      e.id = row.id || (e.tenantId = row.tenantId && e.idempotencyKey = row.idempotencyKey)) = true
  · rw [if_pos htaken]
    cases doNothing with
    | false => trivial
    | true =>
        intro _
        rw [List.append_nil, List.append_nil]
        exact h
  · rw [if_neg htaken]
    intro hrely
    refine .insertEntry (h.mono fun ℓ hℓ => List.mem_append_left _ hℓ) (by simp) ?_
    rw [h.rowsOf_view (rowsOf_eq hrely (by simp)), rowsOf, List.filter_eq_nil_iff]
    intro e he heq
    exact htaken (List.any_eq_true.mpr ⟨e, he, by rw [heq, Bool.true_or]⟩)

theorem keeps_insertLine (doNothing : Bool) (row : EntryLine) :
    Keeps fin (Program.statement (insertLine doNothing row)) := by
  intro now prev log locks h db c _ _ _
  unfold insertLine onConflict
  by_cases htaken : ((engine.view log db).lines.any fun l => l.id = row.id) = true
  · rw [if_pos htaken]
    cases doNothing with
    | false => trivial
    | true =>
        intro _
        rw [List.append_nil, List.append_nil]
        exact h
  · rw [if_neg htaken]
    exact fun _ => .insertLine (h.mono fun ℓ hℓ => List.mem_append_left _ hℓ)

/-- The only update that the trigger lets through. -/
theorem reversal_of_accepted {old new : JournalEntry} (h : rejectJournalEntriesMutation (.update old new) = none) :
    old.reversedByEntryId = none ∧ ∃ id, new = setReversed old id := by
  simp only [rejectJournalEntriesMutation] at h
  split at h
  · cases h
  · next hnone =>
    split at h
    · cases h
    · next hsame =>
      simp only [not_or, not_not, ne_eq] at hnone hsame
      obtain ⟨hset, hid, htenant, hdescription, hoccurred, hcreated, hkey, hprint⟩ := hsame
      obtain ⟨id, hid'⟩ := Option.ne_none_iff_exists'.mp hset
      refine ⟨hnone, id, ?_⟩
      cases new
      cases old
      simp_all [setReversed]

theorem keeps_changeEntry (id : Uuid) {change : JournalEntry → Option (RowChange JournalEntry)}
    (hchange : ∀ old c, change old = some c → (∃ new, c = .update old new) ∨ c = .delete old) :
    Keeps fin (do
      Program.statement (lockRow (.entry id))
      Program.statement (changeEntry id change)) := by
  intro now prev log locks h db₁ _ _ _ _ _ db c _ hfin _
  have h' : Appends fin (locks ++ [.entry id]) log := h.mono fun ℓ hℓ => List.mem_append_left _ hℓ
  rw [List.append_nil]
  unfold changeEntry
  cases hfind : (engine.view log db).entries.find? fun e => e.id = id with
  | none =>
      intro _
      rw [List.append_nil, List.append_nil]
      exact h'
  | some old =>
      have hold : old ∈ (engine.view log db).entries := List.mem_of_find?_eq_some hfind
      have hid : old.id = id := by simpa using List.find?_some hfind
      rw [Option.bind_some]
      cases hc : change old with
      | none =>
          intro _
          rw [List.append_nil, List.append_nil]
          exact h'
      | some w =>
          dsimp only
          rcases hchange old w hc with ⟨new, rfl⟩ | rfl
          · cases hreject : rejectJournalEntriesMutation (.update old new) with
            | some e => trivial
            | none =>
                obtain ⟨hnone, r, rfl⟩ := reversal_of_accepted hreject
                intro _
                rw [List.append_nil]
                refine .reverse h' (by simp [hid]) ?_ hnone
                rw [← mem_rowsOf, h.rowsOf_view (rowsOf_eq hfin (by simp [hid])), mem_rowsOf]
                exact hold
          · trivial

/-- No change of a line gets past its trigger. -/
theorem keeps_changeLine (id : Uuid) {change : EntryLine → Option (RowChange EntryLine)}
    (hchange : ∀ old c, change old = some c → (∃ new, c = .update old new) ∨ c = .delete old) :
    Keeps fin (do
      Program.statement (lockRow (.line id))
      Program.statement (changeLine id change)) := by
  intro now prev log locks h db₁ _ _ _ _ _ db c _ _ _
  have h' : Appends fin (locks ++ [.line id]) log := h.mono fun ℓ hℓ => List.mem_append_left _ hℓ
  rw [List.append_nil]
  unfold changeLine
  cases hfind : ((engine.view log db).lines.find? fun l => l.id = id).bind change with
  | none =>
      intro _
      rw [List.append_nil, List.append_nil]
      exact h'
  | some w =>
      obtain ⟨old, -, hc⟩ := Option.bind_eq_some_iff.mp hfind
      rcases hchange old w hc with ⟨new, rfl⟩ | rfl
      · trivial
      · trivial

theorem keeps_rows (snapshot : Tables) (s : Dml) : ∀ p ∈ s.rows snapshot, Keeps fin p := by
  intro p hp
  cases s with
  | insertEntries doNothing rows =>
      obtain ⟨row, -, rfl⟩ := List.mem_map.mp hp
      exact keeps_insertEntry doNothing row
  | insertLines doNothing rows =>
      obtain ⟨row, -, rfl⟩ := List.mem_map.mp hp
      exact keeps_insertLine doNothing row
  | updateEntries condition set =>
      obtain ⟨row, -, rfl⟩ := List.mem_map.mp hp
      refine keeps_changeEntry row.id fun old c hc => ?_
      split at hc
      · exact Or.inl ⟨_, (Option.some.inj hc).symm⟩
      · cases hc
  | deleteEntries condition =>
      obtain ⟨row, -, rfl⟩ := List.mem_map.mp hp
      refine keeps_changeEntry row.id fun old c hc => ?_
      split at hc
      · exact Or.inr (Option.some.inj hc).symm
      · cases hc
  | updateLines condition set =>
      obtain ⟨row, -, rfl⟩ := List.mem_map.mp hp
      refine keeps_changeLine row.id fun old c hc => ?_
      split at hc
      · exact Or.inl ⟨_, (Option.some.inj hc).symm⟩
      · cases hc
  | deleteLines condition =>
      obtain ⟨row, -, rfl⟩ := List.mem_map.mp hp
      refine keeps_changeLine row.id fun old c hc => ?_
      split at hc
      · exact Or.inr (Option.some.inj hc).symm
      · cases hc

/-- Every session appends. -/
theorem keeps_session (s : Session) : Keeps fin s.program := by
  induction s with
  | commit => exact fun _ _ _ _ h => h
  | execute statement next ih =>
      intro now prev log locks h db c _ _ _ _
      rw [List.append_nil, List.append_nil]
      exact Keeps.bind (Keeps.inOrder (keeps_rows _ _)) (ih _) now db log locks h

end Statements

/-! ## Commits -/

/-- What every commit keeps. -/
structure Balanced (tables : Tables) : Prop where
  sums : ∀ id, entrySum tables.lines id = 0
  ids : (tables.entries.map (·.id)).Nodup

theorem ids_reverse (tables : Tables) (e : JournalEntry) (r : Uuid) :
    (tables.apply (.entry (.update e (setReversed e r)))).entries.map (·.id) = tables.entries.map (·.id) := by
  rw [Tables.apply, RowChange.apply, List.map_map]
  refine List.map_congr_left fun x _ => ?_
  simp only [Function.comp_apply]
  split
  · next hx => exact hx.symm
  · rfl

theorem Appends.ids {tables : Tables} {locks : List Lock} {log : List Write} (h : Appends tables locks log)
    (hids : (tables.entries.map (·.id)).Nodup) : ((engine.view log tables).entries.map (·.id)).Nodup := by
  induction h with
  | nil => exact hids
  | @insertEntry log row _ _ hfree ih =>
      rw [Engine.view_concat, engine_apply, Tables.apply, RowChange.apply, List.map_append, List.nodup_append]
      refine ⟨ih, List.nodup_singleton _, ?_⟩
      intro x hx y hy heq
      obtain ⟨e, he, rfl⟩ := List.mem_map.mp hx
      rw [List.mem_singleton.mp hy] at heq
      have := List.filter_eq_nil_iff.mp hfree e he
      exact this (decide_eq_true heq)
  | @reverse log e id _ _ _ _ ih =>
      rw [Engine.view_concat, engine_apply, ids_reverse]
      exact ih
  | @insertLine log row _ ih =>
      rw [Engine.view_concat]
      exact ih

/-- A log changes entries only by reversals. -/
theorem Appends.evolves {tables : Tables} {locks : List Lock} {log : List Write} (h : Appends tables locks log)
    (hids : (tables.entries.map (·.id)).Nodup) : Evolves tables (engine.view log tables) := by
  induction h with
  | nil => exact .refl _
  | @insertEntry log row _ _ _ ih =>
      rw [Engine.view_concat]
      exact ih.trans ⟨List.prefix_refl _, fun e he => ⟨e, List.mem_append_left _ he, Or.inl rfl⟩⟩
  | @reverse log e id hlog _ he hnone ih =>
      rw [Engine.view_concat]
      refine ih.trans ⟨List.prefix_refl _, fun x hx => ?_⟩
      refine ⟨_, List.mem_map_of_mem hx, ?_⟩
      by_cases hid : x.id = e.id
      · rw [if_pos hid, List.inj_on_of_nodup_map (hlog.ids hids) hx he hid]
        exact Or.inr ⟨hnone, id, rfl⟩
      · rw [if_neg hid]
        exact Or.inl rfl
  | @insertLine log row _ ih =>
      rw [Engine.view_concat]
      exact ih.trans ⟨List.prefix_append _ _, fun e he => ⟨e, he, Or.inl rfl⟩⟩

/-- Only locked rows of entries change. -/
theorem Appends.agree {tables : Tables} {locks : List Lock} {log : List Write} (h : Appends tables locks log) {id : Uuid}
    (hfree : Lock.entry id ∉ locks) : rowsOf (engine.view log tables) id = rowsOf tables id := by
  induction h with
  | nil => rfl
  | @insertEntry log row _ hlock _ ih =>
      have hne : row.id ≠ id := fun heq => hfree (heq ▸ hlock)
      rw [Engine.view_concat, engine_apply, rowsOf_insert, if_neg hne, List.append_nil, ih]
  | @reverse log e r _ hlock _ _ ih =>
      have hne : id ≠ e.id := fun heq => hfree (heq ▸ hlock)
      rw [Engine.view_concat, engine_apply, rowsOf_reverse, ih]
      conv_rhs => rw [← List.map_id (rowsOf tables id)]
      refine List.map_congr_left fun x hx => if_neg ?_
      have hx' : x.id = id := by simpa [rowsOf] using (List.mem_filter.mp hx).2
      rw [hx']
      exact hne
  | @insertLine log row _ ih =>
      rw [Engine.view_concat]
      exact ih

/-- The lines that a log inserts. -/
def insertedLines (log : List Write) : List EntryLine :=
  log.filterMap fun
    | .line (.insert row) => some row
    | _ => none

@[simp] theorem insertedLines_entry (log : List Write) (change : RowChange JournalEntry) :
    insertedLines (log ++ [.entry change]) = insertedLines log := by
  simp [insertedLines, List.filterMap_append]

@[simp] theorem insertedLines_line (log : List Write) (row : EntryLine) :
    insertedLines (log ++ [.line (.insert row)]) = insertedLines log ++ [row] := by
  simp [insertedLines, List.filterMap_append]

theorem Appends.lines {tables : Tables} {locks : List Lock} {log : List Write} (h : Appends tables locks log)
    (below : Tables) : (engine.view log below).lines = below.lines ++ insertedLines log := by
  induction h with
  | nil => simp [insertedLines]
  | @insertEntry log row _ _ _ ih =>
      rw [Engine.view_concat, insertedLines_entry]
      exact ih
  | @reverse log e id _ _ _ _ ih =>
      rw [Engine.view_concat, insertedLines_entry]
      exact ih
  | @insertLine log row _ ih =>
      rw [Engine.view_concat, engine_apply, Tables.apply, RowChange.apply, ih, insertedLines_line, List.append_assoc]

theorem entrySum_append (xs ys : List EntryLine) (id : Uuid) :
    entrySum (xs ++ ys) id = entrySum xs id + entrySum ys id := groupSum_append _ _ xs ys id

/-- The deferred trigger sees each entry that got a line: together with the committed lines it balances, and
those balance by themselves. -/
theorem Appends.sums {tables below : Tables} {locks : List Lock} {log : List Write} (h : Appends tables locks log)
    (hbelow : ∀ id, entrySum below.lines id = 0) (hdeferred : engine.deferred (engine.view log below) log = none)
    (id : Uuid) : entrySum (insertedLines log) id = 0 := by
  by_cases hline : ∃ row ∈ insertedLines log, row.entryId = id
  · obtain ⟨row, hrow, rfl⟩ := hline
    obtain ⟨w, hw, hwrow⟩ := List.mem_filterMap.mp hrow
    have hchecked : checkEntryLinesBalance (engine.view log below) (.insert row) = none := by
      split at hwrow
      · cases hwrow
        exact List.findSome?_eq_none_iff.mp hdeferred _ hw
      · cases hwrow
    rw [checkEntryLinesBalance] at hchecked
    split at hchecked
    · cases hchecked
    · next hsum =>
      rw [not_not, h.lines below, entrySum_append, hbelow, Int.zero_add] at hsum
      exact hsum
  · have hnone : (insertedLines log).filter (fun l => l.entryId = id) = [] := by
      rw [List.filter_eq_nil_iff]
      exact fun l hl heq => hline ⟨l, hl, of_decide_eq_true heq⟩
    rw [entrySum, hnone]
    rfl

theorem Appends.balanced {tables : Tables} {locks : List Lock} {log : List Write} (h : Appends tables locks log)
    (hinv : Balanced tables) (hown : ∀ id, entrySum (insertedLines log) id = 0) :
    Balanced (engine.view log tables) where
  sums id := by
    rw [h.lines tables, entrySum_append, hinv.sums, hown]
    rfl
  ids := h.ids hinv.ids

/-- The triggers as a locking discipline. -/
def discipline : Discipline (L := Lock) (C := Unit) engine Session.program where
  protocol := protocol
  ok _ _ := True
  inv := Balanced
  assumes _ := Program.Anywhere
  post _ _ _ _ log locks tables := Appends tables locks log
  fail _ _ _ _ _ _ _ := True
  ok_exec _ _ _ := trivial
  meets s now origin fin := keeps_session s now origin [] [] .nil
  deferred _ _ _ := trivial
  commit := by
    rintro q now origin r log locks tables hinv hpost ⟨below, hbelow, -, hdeferred⟩
    exact ⟨hpost.balanced hinv (hpost.sums hbelow.sums hdeferred), hpost.evolves hinv.ids,
      fun ℓ hℓ id hid => hpost.agree (hid ▸ hℓ)⟩

theorem sound_of_reaches {s : Sys} (h : Reaches s) : discipline.Sound s :=
  Discipline.sound (Discipline.sound_init discipline (s := init) rfl ⟨fun _ => rfl, List.nodup_nil⟩) h

theorem evolves_of_run {s s' : Sys} (h : Reaches s)
    (hrun : System.Reachable engine Session.program (fun _ _ => True) s s') : Evolves s.db s'.db := by
  induction hrun with
  | refl => exact .refl _
  | step hrun _ hstep ih =>
      cases Discipline.event (sound_of_reaches (h.trans hrun)) hstep with
      | returned _ _ _ _ hg => exact ih.trans hg.grow
      | _ => exact ih

/-- **The triggers keep the ledger.** Whatever sessions do, in any interleaving: every committed state balances,
and what was committed stays, but for one reversal of an entry. -/
theorem append_only {s : Sys} (h : Reaches s) :
    (∀ id, entrySum s.db.lines id = 0) ∧
      ∀ s', System.Reachable engine Session.program (fun _ _ => True) s s' →
        s.db.lines <+: s'.db.lines ∧ ∀ e ∈ s.db.entries, ∃ e' ∈ s'.db.entries, Reverses e e' := by
  refine ⟨(sound_of_reaches h).inv.sums, fun s' hrun => ?_⟩
  exact ⟨(evolves_of_run h hrun).lines, (evolves_of_run h hrun).entries⟩

/-! ## A run -/

namespace Sale

def entry : JournalEntry := ⟨⟨1⟩, ⟨0⟩, text "Sale", 0, 0, text "key", text "print", none⟩

def line (id : Uuid) (amountMinor : Int) : EntryLine := ⟨id, entry.id, ⟨4⟩, ⟨0⟩, amountMinor, 0⟩

/-- An entry and its two lines, each in a statement of its own. -/
def post : Session :=
  .execute (fun _ => .insertEntries false [entry]) fun _ =>
    .execute (fun _ => .insertLines false [line ⟨2⟩ 5]) fun _ =>
      .execute (fun _ => .insertLines false [line ⟨3⟩ (-5)]) fun _ => .commit

/-- Moving a line to another entry. -/
def move : Session :=
  .execute (fun _ => .updateLines (fun l => l.id = ⟨3⟩) fun l => { l with entryId := ⟨9⟩ }) fun _ => .commit

def reverse : Session :=
  .execute (fun _ => .updateEntries (fun e => e.id = ⟨1⟩) fun e => { e with reversedByEntryId := some ⟨1⟩ })
    fun _ => .commit

def steps (t n : Nat) : List Event := (List.range n).map fun _ => .exec t ()

def events : List Event :=
  .begin post :: .begin move :: .begin reverse :: steps 0 6 ++ [.prepare 0, .commit 0] ++ steps 1 3 ++ [.rollback 1] ++
    steps 2 3 ++ [.prepare 2, .commit 2]

end Sale

set_option maxRecDepth 100000 in
/-- The move is refused, the reversal is not. -/
theorem append_only_of_sale : ∃ s : Sys, s.db.lines.map (fun l => (l.entryId, l.amountMinor)) = [(⟨1⟩, 5), (⟨1⟩, -5)] ∧
    (∀ id, entrySum s.db.lines id = 0) ∧
      ∀ s', System.Reachable engine Session.program (fun _ _ => True) s s' →
        s.db.lines <+: s'.db.lines ∧ ∀ e ∈ s.db.entries, ∃ e' ∈ s'.db.entries, Reverses e e' := by
  have hrun : (System.run engine Session.program init Sale.events).map
      (fun s => s.db.lines.map fun l => (l.entryId, l.amountMinor)) = some [(⟨1⟩, 5), (⟨1⟩, -5)] := by decide
  obtain ⟨s, hs, hlines⟩ := Option.map_eq_some_iff.mp hrun
  exact ⟨s, hlines, append_only (System.reachable_of_run (fun _ _ _ => trivial) hs)⟩

end FinSight.Raw
