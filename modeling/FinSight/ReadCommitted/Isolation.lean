import FinSight.Lists.Shares
import FinSight.ReadCommitted.Alone
import FinSight.ReadCommitted.Running

/-!
# Transactions of many owners

The rows of a database belong to owners, and so does every call. A program is confined to its owner where each of its
statements answers the same from the owner's rows alone, and writes no others.

* `Division` : the owners' shares of a database, and what an owner may write;
* `Division.Confines`, `Program.Confined` : statements and programs; `Confined.bind` and the other rules;
* `System.share` : the system as it is without the calls of the others;
* `share_of_step`, `same_of_step` : what a step of an owner's call, and a step of another's, does to it.
-/

namespace ReadCommitted

variable {Db W L E C Q R T α β : Type}

/-- How a database is divided. `sound` : every row is where its owner finds it; `supplies t c` : the choice `c` is made
for a statement of `t`. -/
structure Division (G : Engine Db W E) (C T : Type) where
  share : T → Db → Db
  sound : Db → Prop
  owns : T → W → Prop
  supplies : T → C → Prop
  sound_apply : ∀ {t db w}, sound db → owns t w → sound (G.apply db w)
  share_own : ∀ {t db w}, sound db → owns t w → share t (G.apply db w) = G.apply (share t db) w
  share_other : ∀ {t u db w}, sound db → owns u w → u ≠ t → share t (G.apply db w) = share t db
  deferred : ∀ {t db log}, sound db → (∀ w ∈ log, owns t w) → G.deferred (share t db) log = G.deferred db log

variable {G : Engine Db W E} {D : Division G C T} {t : T}

namespace Division

/-- The owner makes all writes of the log. -/
def OwnsAll (D : Division G C T) (t : T) (log : List W) : Prop := ∀ w ∈ log, D.owns t w

theorem OwnsAll.append {log log' : List W} (h : D.OwnsAll t log) (h' : D.OwnsAll t log') : D.OwnsAll t (log ++ log') := by
  intro w hw
  rcases List.mem_append.mp hw with hw | hw
  · exact h w hw
  · exact h' w hw

theorem sound_view {db : Db} {log : List W} (hdb : D.sound db) (hlog : D.OwnsAll t log) : D.sound (G.view log db) := by
  induction log generalizing db with
  | nil => exact hdb
  | cons w log ih =>
      obtain ⟨hw, hlog⟩ := List.forall_mem_cons.mp hlog
      exact ih (D.sound_apply hdb hw) hlog

theorem share_view {db : Db} {log : List W} (hdb : D.sound db) (hlog : D.OwnsAll t log) :
    D.share t (G.view log db) = G.view log (D.share t db) := by
  induction log generalizing db with
  | nil => rfl
  | cons w log ih =>
      obtain ⟨hw, hlog⟩ := List.forall_mem_cons.mp hlog
      rw [Engine.view_cons, Engine.view_cons, ih (D.sound_apply hdb hw) hlog, D.share_own hdb hw]

theorem share_view_other {u : T} (hne : u ≠ t) {db : Db} {log : List W} (hdb : D.sound db) (hlog : D.OwnsAll u log) :
    D.share t (G.view log db) = D.share t db := by
  induction log generalizing db with
  | nil => rfl
  | cons w log ih =>
      obtain ⟨hw, hlog⟩ := List.forall_mem_cons.mp hlog
      rw [Engine.view_cons, ih (D.sound_apply hdb hw) hlog, D.share_other hdb hw hne]

/-- The writes of a reply are the owner's, its result satisfies `P`. -/
def Replies (D : Division G C T) (t : T) (P : α → Prop) : Reply W L E α → Prop
  | .error _ => True
  | .done r ws _ _ => D.OwnsAll t ws ∧ P r

theorem Replies.one {P : α → Prop} {w : W} {r : α} {locks waits : List L} (hw : D.owns t w) (hr : P r) :
    D.Replies t P (.done r [w] locks waits : Reply W L E α) :=
  ⟨fun _ hw' => List.mem_singleton.mp hw' ▸ hw, hr⟩

theorem Replies.nothing {P : α → Prop} {r : α} {locks waits : List L} (hr : P r) :
    D.Replies t P (.done r [] locks waits : Reply W L E α) :=
  ⟨fun _ hw => absurd hw List.not_mem_nil, hr⟩

/-- For the owner's choices the statement answers from the owner's rows. -/
def Confines (D : Division G C T) (t : T) (P : α → Prop) (s : Statement Db W L E C α) : Prop :=
  ∀ ctx db, D.supplies t ctx.choice → D.sound db → s ctx (D.share t db) = s ctx db ∧ D.Replies t P (s ctx db)

theorem Confines.mono {P P' : α → Prop} (hP : ∀ a, P a → P' a) {s : Statement Db W L E C α} (h : D.Confines t P s) :
    D.Confines t P' s := by
  intro ctx db hctx hdb
  obtain ⟨hsame, hreply⟩ := h ctx db hctx hdb
  refine ⟨hsame, ?_⟩
  cases hs : s ctx db with
  | error e => trivial
  | done r ws ls waits =>
      rw [hs] at hreply
      exact ⟨hreply.1, hP r hreply.2⟩

/-- A statement that writes nothing. -/
theorem Confines.read {P : α → Prop} {f : Context C → Db → α}
    (h : ∀ ctx db, D.sound db → f ctx (D.share t db) = f ctx db ∧ P (f ctx db)) :
    D.Confines t P (fun ctx db => (.done (f ctx db) [] [] [] : Reply W L E α)) := by
  intro ctx db _ hdb
  obtain ⟨hsame, hP⟩ := h ctx db hdb
  dsimp only
  rw [hsame]
  exact ⟨rfl, Replies.nothing hP⟩

end Division

/-! ## Programs -/

namespace Program

/-- Every statement is confined, and every result satisfies `P`. -/
def Confined (D : Division G C T) (t : T) (P : α → Prop) : Program Db W L E C α → Prop
  | .ret a => P a
  | .throw _ => True
  | .call s k => D.Confines t (fun r => (k r).Confined D t P) s

variable {P : α → Prop} {P' : β → Prop} {p : Program Db W L E C α} {f : α → Program Db W L E C β}

theorem Confined.bind (hp : p.Confined D t P) (hf : ∀ a, P a → (f a).Confined D t P') : (p >>= f).Confined D t P' := by
  induction p with
  | ret a => exact hf a hp
  | throw e => trivial
  | call s k ih => exact Division.Confines.mono (fun r hr => ih r hr) hp

theorem Confined.mono {P' : α → Prop} (hP : ∀ a, P a → P' a) (hp : p.Confined D t P) : p.Confined D t P' := by
  induction p with
  | ret a => exact hP a hp
  | throw e => trivial
  | call s k ih => exact Division.Confines.mono (fun r hr => ih r hr) hp

/-- One statement and the rest of the program. -/
theorem Confined.statement {s : Statement Db W L E C α} (hs : D.Confines t P s)
    (hf : ∀ a, P a → (f a).Confined D t P') : (Program.statement s >>= f).Confined D t P' :=
  Division.Confines.mono hf hs

/-- A statement after which the program ends, one way or the other. -/
theorem Confined.last {s : Statement Db W L E C α} (hs : D.Confines t P s)
    (hf : ∀ a, P a → (∃ b, f a = .ret b ∧ P' b) ∨ ∃ e, f a = .throw e) :
    (Program.statement s >>= f).Confined D t P' := by
  refine Confined.statement hs fun a ha => ?_
  rcases hf a ha with ⟨b, heq, hb⟩ | ⟨e, heq⟩
  · rw [heq]
    exact hb
  · rw [heq]
    trivial

theorem Confined.one {s : Statement Db W L E C α} (hs : D.Confines t P s) : (Program.statement s).Confined D t P := hs

end Program

/-! ## Systems -/

/-- The call that a step is about. -/
def Label.call : Label Q C → Option Nat
  | .tick _ | .begin _ => none
  | .exec k _ | .prepare k | .commit k | .rollback k | .abort k => some k

/-- What the step begins. -/
def Label.begins : Label Q C → List Q
  | .begin q => [q]
  | .tick _ | .exec _ _ | .prepare _ | .commit _ | .rollback _ | .abort _ => []

/-- The same step of another call. -/
def Label.move (k : Nat) : Label Q C → Label Q C
  | .tick d => .tick d
  | .begin q => .begin q
  | .exec _ c => .exec k c
  | .prepare _ => .prepare k
  | .commit _ => .commit k
  | .rollback _ => .rollback k
  | .abort _ => .abort k

@[simp] theorem Label.begins_move (l : Label Q C) (k : Nat) : (l.move k).begins = l.begins := by
  cases l <;> rfl

def Call.share (D : Division G C T) (t : T) (call : Call Db W L E C Q R) : Call Db W L E C Q R :=
  { call with origin := D.share t call.origin }

namespace System
variable [DecidableEq T] (owner : Q → T)

/-- Whose a call is. -/
abbrev ownerOf (call : Call Db W L E C Q R) : T := owner call.request

/-- Whose the calls are. -/
def owners (s : System Db W L E C Q R) : List T := s.calls.map (ownerOf owner)

/-- The owner's rows and calls. -/
def share (D : Division G C T) (t : T) (s : System Db W L E C Q R) : System Db W L E C Q R where
  db := D.share t s.db
  clock := s.clock
  calls := (Shares.owned (ownerOf owner) t s.calls).map (Call.share D t)

/-- The choices of the step are made for the owner of its call. -/
def Supplied (D : Division G C T) (owners : List T) (l : Label Q C) : Prop :=
  ∀ k c t, l = .exec k c → owners[k]? = some t → D.supplies t c

/-- All transactions in flight are confined to their owners. -/
structure Isolated (D : Division G C T) (s : System Db W L E C Q R) : Prop where
  sound : D.sound s.db
  confined : ∀ {k call tx}, s.Running k call tx → tx.program.Confined D (owner call.request) fun _ => True
  owns : ∀ {k call tx}, s.Running k call tx → D.OwnsAll (owner call.request) tx.log

variable {owner} {s s' : System Db W L E C Q R} {k : Nat} {call : Call Db W L E C Q R} {tx : Txn Db W L E C R}

omit [DecidableEq T] in
theorem owners_get (hrun : s.Running k call tx) : (s.owners owner)[k]? = some (owner call.request) := by
  rw [owners, List.getElem?_map, hrun.get]
  rfl

omit [DecidableEq T] in
theorem owners_setStatus (s : System Db W L E C Q R) (k : Nat) (st : Status Db W L E C R) :
    (s.setStatus k st).owners owner = s.owners owner := by
  unfold owners setStatus
  exact Shares.map_owner_modify (by exact fun _ => rfl) s.calls k

theorem Running.share (hrun : s.Running k call tx) (ht : owner call.request = t) :
    (s.share owner D t).Running (Shares.rank t (s.owners owner) k) (call.share D t) tx := by
  refine ⟨?_, hrun.status⟩
  have hget : (Shares.owned (ownerOf owner) t s.calls)[Shares.rank t (s.owners owner) k]? = some call :=
    Shares.getElem?_owned hrun.get ht
  show ((Shares.owned (ownerOf owner) t s.calls).map (Call.share D t))[_]? = _
  rw [List.getElem?_map, hget]
  rfl

theorem share_setStatus_own (hrun : s.Running k call tx) (ht : owner call.request = t) (st : Status Db W L E C R) :
    (s.setStatus k st).share owner D t = (s.share owner D t).setStatus (Shares.rank t (s.owners owner) k) st := by
  have hcalls : Shares.owned (ownerOf owner) t (s.setStatus k st).calls =
      (Shares.owned (ownerOf owner) t s.calls).modify (Shares.rank t (s.owners owner) k) fun call =>
        { call with status := st } := by
    unfold setStatus
    exact Shares.modify_owned (by exact fun _ => rfl) hrun.get ht
  unfold share
  rw [hcalls]
  unfold setStatus
  congr 1
  exact Shares.map_modify (by exact fun _ => rfl) _ _

theorem share_setStatus_other (hrun : s.Running k call tx) (ht : owner call.request ≠ t) (st : Status Db W L E C R) :
    (s.setStatus k st).share owner D t = s.share owner D t := by
  have hcalls : Shares.owned (ownerOf owner) t (s.setStatus k st).calls = Shares.owned (ownerOf owner) t s.calls := by
    unfold setStatus
    exact Shares.modify_others (by exact fun _ => rfl) hrun.get ht
  unfold share
  rw [hcalls]
  rfl

/-- A transaction of the share is one of the system. -/
theorem exists_running {j : Nat} (hrun : (s.share owner D t).Running j call tx) :
    ∃ k call₀, s.Running k call₀ tx ∧ owner call₀.request = t ∧ Shares.rank t (s.owners owner) k = j := by
  have hget : ((Shares.owned (ownerOf owner) t s.calls).map (Call.share D t))[j]? = some call := hrun.get
  rw [List.getElem?_map, Option.map_eq_some_iff] at hget
  obtain ⟨call₀, hget, rfl⟩ := hget
  obtain ⟨k, hk, ht, hj⟩ := Shares.exists_rank hget
  exact ⟨k, call₀, ⟨hk, hrun.status⟩, ht, hj⟩

section Steps
variable [DecidableEq L] {program : Q → Program Db W L E C R} {l : Label Q C}

/-- Where nobody else holds a lock, no other call of the owner does. -/
theorem share_free {ls : List L} (h : s.free k ls = true) :
    (s.share owner D t).free (Shares.rank t (s.owners owner) k) ls = true := by
  rw [free_iff] at h ⊢
  intro u call tx hrun hne
  obtain ⟨k', call₀, hrun₀, -, rfl⟩ := exists_running hrun
  exact h k' call₀ tx hrun₀ fun hk => hne (hk ▸ rfl)

/-- Where the transaction of an owner's call goes, it goes without the others. -/
theorem share_of_step (hs : s.Isolated owner D) (hsupplied : Supplied D (s.owners owner) l) (hl : l.call = some k)
    (hk : (s.owners owner)[k]? = some t) (h : s.step G program l = some s') :
    (s.share owner D t).step G program (l.move (Shares.rank t (s.owners owner) k)) = some (s'.share owner D t) := by
  have howner {call tx} (hrun : s.Running k call tx) : owner call.request = t :=
    Option.some.inj ((owners_get hrun).symm.trans hk)
  have hview {call tx} (hrun : s.Running k call tx) : G.view tx.log (s.share owner D t).db = D.share t (G.view tx.log s.db) :=
    (D.share_view hs.sound (howner hrun ▸ hs.owns hrun)).symm
  cases l with
  | tick d => cases hl
  | begin q => cases hl
  | exec u c =>
      obtain rfl : u = k := Option.some.inj hl
      obtain ⟨call, ⟨p, log, locks, prepared⟩, β, stmt, next, hrun, rfl, hreply⟩ := exec_inv h
      have ht := howner hrun
      have hconfined := hs.confined hrun
      rw [ht] at hconfined
      have hsound := D.sound_view hs.sound (hs.owns hrun)
      have hsame := (hconfined ⟨call.startedAt, c⟩ _ (hsupplied u c t rfl hk) hsound).1
      have hstep := step_exec G program (hrun.share (D := D) ht) c
      rw [hview hrun] at hstep
      show (s.share owner D t).step G program (.exec _ c) = _
      rw [hstep]
      dsimp only [Call.share]
      rw [hsame]
      rcases hreply with ⟨e, he, rfl⟩ | ⟨r, ws, ls, waits, hr, hothers, rfl⟩
      · rw [he, share_setStatus_own hrun ht]
      · rw [hr]
        dsimp only
        rw [if_pos (share_free hothers), share_setStatus_own hrun ht]
  | prepare u =>
      obtain rfl : u = k := Option.some.inj hl
      simp only [step] at h
      split at h
      · next q now origin r log locks hget =>
        have hrun : s.Running u _ ⟨.ret r, log, locks, false⟩ := ⟨hget, rfl⟩
        have ht := howner hrun
        have hget' := (hrun.share (D := D) ht).get
        have hdeferred := D.deferred (D.sound_view hs.sound (hs.owns hrun)) (ht ▸ hs.owns hrun)
        rw [← hview hrun] at hdeferred
        simp only [Label.move, step, hget', Call.share, hdeferred]
        split at h
        · next e he =>
          cases h
          rw [share_setStatus_own hrun ht]
        · next hnone =>
          cases h
          rw [share_setStatus_own hrun ht]
      · cases h
  | commit u =>
      obtain rfl : u = k := Option.some.inj hl
      simp only [step] at h
      split at h
      · next q now origin r log locks hget =>
        have hrun : s.Running u _ ⟨.ret r, log, locks, true⟩ := ⟨hget, rfl⟩
        have hget' := (hrun.share (D := D) (howner hrun)).get
        cases h
        simp only [Label.move, step, hget', Call.share, ← share_setStatus_own hrun (howner hrun), hview hrun]
        rfl
      · cases h
  | rollback u =>
      obtain rfl : u = k := Option.some.inj hl
      simp only [step] at h
      split at h
      · next q now origin e log locks prepared hget =>
        have hrun : s.Running u _ ⟨.throw e, log, locks, prepared⟩ := ⟨hget, rfl⟩
        have hget' := (hrun.share (D := D) (howner hrun)).get
        cases h
        simp only [Label.move, step, hget', Call.share, ← share_setStatus_own hrun (howner hrun)]
      · cases h
  | abort u =>
      obtain rfl : u = k := Option.some.inj hl
      simp only [step] at h
      split at h
      · next q now origin tx hget =>
        have hrun : s.Running u _ tx := ⟨hget, rfl⟩
        have hget' := (hrun.share (D := D) (howner hrun)).get
        cases h
        simp only [Label.move, step, hget', Call.share, ← share_setStatus_own hrun (howner hrun)]
      · cases h

/-- The calls of the others leave it as it is. -/
theorem same_of_step (hs : s.Isolated owner D) (hl : l.call = some k) {u : T} (hk : (s.owners owner)[k]? = some u)
    (hne : u ≠ t) (h : s.step G program l = some s') : s'.share owner D t = s.share owner D t := by
  have howner {call tx} (hrun : s.Running k call tx) : owner call.request = u :=
    Option.some.inj ((owners_get hrun).symm.trans hk)
  have hothers {call tx} (hrun : s.Running k call tx) : owner call.request ≠ t := (howner hrun).trans_ne hne
  cases l with
  | tick d => cases hl
  | begin q => cases hl
  | exec v c =>
      obtain rfl : v = k := Option.some.inj hl
      obtain ⟨_, _, _, _, _, hrun, _, ⟨_, _, rfl⟩ | ⟨_, _, _, _, _, _, rfl⟩⟩ := exec_inv h
      · exact share_setStatus_other hrun (hothers hrun) _
      · exact share_setStatus_other hrun (hothers hrun) _
  | prepare v =>
      obtain rfl : v = k := Option.some.inj hl
      obtain ⟨_, _, _, hrun, _, ⟨_, _, rfl⟩ | ⟨_, rfl⟩⟩ := prepare_inv h
      · exact share_setStatus_other hrun (hothers hrun) _
      · exact share_setStatus_other hrun (hothers hrun) _
  | commit v =>
      obtain rfl : v = k := Option.some.inj hl
      obtain ⟨call, tx, r, hrun, _, _, rfl⟩ := commit_inv h
      have hsame := share_setStatus_other (D := D) hrun (hothers hrun) (.finished (.returned r))
      have hdb := D.share_view_other (hothers hrun) hs.sound (hs.owns hrun)
      show { (s.setStatus v (.finished (.returned r))).share owner D t with db := D.share t (G.view tx.log s.db) } = _
      rw [hsame, hdb]
      rfl
  | rollback v =>
      obtain rfl : v = k := Option.some.inj hl
      obtain ⟨_, _, _, hrun, _, rfl⟩ := rollback_inv h
      exact share_setStatus_other hrun (hothers hrun) _
  | abort v =>
      obtain rfl : v = k := Option.some.inj hl
      obtain ⟨_, _, hrun, rfl⟩ := abort_inv h
      exact share_setStatus_other hrun (hothers hrun) _

omit [DecidableEq T] in
theorem owner_of_step (hl : l.call = some k) (h : s.step G program l = some s') : ∃ u, (s.owners owner)[k]? = some u := by
  have hrunning : ∃ call tx, s.Running k call tx := by
    cases l with
    | tick d => cases hl
    | begin q => cases hl
    | exec v c =>
        obtain rfl : v = k := Option.some.inj hl
        obtain ⟨call, tx, _, _, _, hrun, _⟩ := exec_inv h
        exact ⟨call, tx, hrun⟩
    | prepare v =>
        obtain rfl : v = k := Option.some.inj hl
        obtain ⟨call, tx, _, hrun, _⟩ := prepare_inv h
        exact ⟨call, tx, hrun⟩
    | commit v =>
        obtain rfl : v = k := Option.some.inj hl
        obtain ⟨call, tx, _, hrun, _⟩ := commit_inv h
        exact ⟨call, tx, hrun⟩
    | rollback v =>
        obtain rfl : v = k := Option.some.inj hl
        obtain ⟨call, tx, _, hrun, _⟩ := rollback_inv h
        exact ⟨call, tx, hrun⟩
    | abort v =>
        obtain rfl : v = k := Option.some.inj hl
        obtain ⟨call, tx, hrun, _⟩ := abort_inv h
        exact ⟨call, tx, hrun⟩
  obtain ⟨call, tx, hrun⟩ := hrunning
  exact ⟨_, owners_get hrun⟩

theorem share_begin_own {q : Q} (hq : owner q = t) (h : s.step G program (.begin q) = some s') :
    (s.share owner D t).step G program (.begin q) = some (s'.share owner D t) := by
  cases h
  have hnew : Shares.owned (ownerOf owner) t [(⟨q, s.clock, s.db, .running ⟨program q, [], [], false⟩⟩ : Call Db W L E C Q R)] =
      [⟨q, s.clock, s.db, .running ⟨program q, [], [], false⟩⟩] := Shares.owned_own (by simpa using hq)
  simp only [step, share, Shares.owned_append, hnew, List.map_append]
  rfl

theorem share_begin_other {q : Q} (hq : owner q ≠ t) (h : s.step G program (.begin q) = some s') :
    s'.share owner D t = s.share owner D t := by
  cases h
  have hnew : Shares.owned (ownerOf owner) t [(⟨q, s.clock, s.db, .running ⟨program q, [], [], false⟩⟩ : Call Db W L E C Q R)] =
      [] := Shares.owned_other (by simpa using hq)
  simp only [share, Shares.owned_append, hnew, List.append_nil]

omit [DecidableEq T] [DecidableEq L] in
theorem Isolated.init (hcalls : s.calls = []) (hdb : D.sound s.db) : s.Isolated owner D where
  sound := hdb
  confined hrun := absurd hrun (not_running_of_nil hcalls)
  owns hrun := absurd hrun (not_running_of_nil hcalls)

omit [DecidableEq T] in
/-- A step changes the database by the log of one transaction, at most. -/
theorem db_of_step (h : s.step G program l = some s') :
    s'.db = s.db ∨ ∃ k call tx, s.Running k call tx ∧ s'.db = G.view tx.log s.db := by
  cases l with
  | tick d =>
      cases h
      exact Or.inl rfl
  | begin q =>
      cases h
      exact Or.inl rfl
  | exec u c =>
      obtain ⟨_, _, _, _, _, _, _, ⟨_, _, rfl⟩ | ⟨_, _, _, _, _, _, rfl⟩⟩ := exec_inv h
      · exact Or.inl rfl
      · exact Or.inl rfl
  | prepare u =>
      obtain ⟨_, _, _, _, _, ⟨_, _, rfl⟩ | ⟨_, rfl⟩⟩ := prepare_inv h
      · exact Or.inl rfl
      · exact Or.inl rfl
  | commit u =>
      obtain ⟨call, tx, _, hrun, _, _, rfl⟩ := commit_inv h
      exact Or.inr ⟨u, call, tx, hrun, rfl⟩
  | rollback u =>
      obtain ⟨_, _, _, _, _, rfl⟩ := rollback_inv h
      exact Or.inl rfl
  | abort u =>
      obtain ⟨_, _, _, rfl⟩ := abort_inv h
      exact Or.inl rfl

omit [DecidableEq T] in
theorem Isolated.step (hprogram : ∀ q, (program q).Confined D (owner q) fun _ => True) (hs : s.Isolated owner D)
    (hsupplied : Supplied D (s.owners owner) l) (h : s.step G program l = some s') : s'.Isolated owner D := by
  have hreply {k call tx c γ} {stmt : Statement Db W L E C γ} {next} (hl : l = .exec k c) (hrun : s.Running k call tx)
      (hprog : tx.program = .call stmt next) :
      D.Replies (owner call.request) (fun r => (next r).Confined D (owner call.request) fun _ => True)
        (stmt ⟨call.startedAt, c⟩ (G.view tx.log s.db)) := by
    have hconfined := hs.confined hrun
    rw [hprog] at hconfined
    exact (hconfined ⟨_, c⟩ _ (hsupplied k c _ hl (owners_get hrun)) (D.sound_view hs.sound (hs.owns hrun))).2
  refine ⟨?_, fun hrun => ?_, fun hrun => ?_⟩
  · rcases db_of_step h with hdb | ⟨k, call, tx, hrun, hdb⟩
    · exact hdb ▸ hs.sound
    · exact hdb ▸ D.sound_view hs.sound (hs.owns hrun)
  · cases became h hrun with
    | stayed hrun => exact hs.confined hrun
    | began _ _ hcall htx =>
        rw [hcall, htx]
        exact hprogram _
    | raised _ _ _ _ hcall htx =>
        rw [htx]
        trivial
    | replied hl hrun₀ hprog hr _ hcall htx =>
        have hown := hreply hl hrun₀ hprog
        rw [hr] at hown
        rw [hcall, htx]
        exact hown.2
    | refused _ _ _ hcall htx =>
        rw [htx]
        trivial
    | prepared _ hrun₀ _ hcall htx =>
        have hconfined := hs.confined hrun₀
        rw [hcall, htx]
        exact hconfined
  · cases became h hrun with
    | stayed hrun => exact hs.owns hrun
    | began _ _ _ htx =>
        rw [htx]
        exact fun w hw => absurd hw List.not_mem_nil
    | raised _ hrun₀ _ _ hcall htx =>
        have howns := hs.owns hrun₀
        rw [hcall, htx]
        exact howns
    | replied hl hrun₀ hprog hr _ hcall htx =>
        have hown := hreply hl hrun₀ hprog
        rw [hr] at hown
        rw [hcall, htx]
        exact (hs.owns hrun₀).append hown.1
    | refused _ hrun₀ _ hcall htx =>
        have howns := hs.owns hrun₀
        rw [hcall, htx]
        exact howns
    | prepared _ hrun₀ _ hcall htx =>
        have howns := hs.owns hrun₀
        rw [hcall, htx]
        exact howns

omit [DecidableEq T] in
/-- Calls are added, and keep their owners. -/
theorem owners_of_step (h : s.step G program l = some s') : s'.owners owner = s.owners owner ++ l.begins.map owner := by
  rcases step_inv h with hcalls | ⟨q, rfl, hcalls⟩ | ⟨u, call, tx, st, hrun, hcalls⟩
  · cases l with
    | begin q =>
        cases h
        simp at hcalls
    | tick _ | exec _ _ | prepare _ | commit _ | rollback _ | abort _ =>
        simp only [owners, hcalls, Label.begins, List.map_nil, List.append_nil]
  · simp only [owners, hcalls, Label.begins, List.map_append, List.map_cons, List.map_nil]
  · have hset : (s.setStatus u st).owners owner = s.owners owner := owners_setStatus s u st
    cases l with
    | begin q =>
        cases h
        have hlen := congrArg List.length hcalls
        simp [setStatus] at hlen
    | tick _ | exec _ _ | prepare _ | commit _ | rollback _ | abort _ =>
        simp only [Label.begins, List.map_nil, List.append_nil]
        rw [← hset, owners, owners, hcalls]

end Steps

end System

end ReadCommitted
