import FinSight.ReadCommitted.Interleaving

/-!
# Locking disciplines

A `Discipline` says what every program of a system achieves (`post` where it commits, `fail` where it gives
up), read at the committed database it meets at that moment, and that a commit disturbs nothing another
transaction has locked. Each program is examined alone (`Program.Meets`); the soundness theorem puts any number
of them together, in any interleaving.

* `Discipline.Sound` : locks are disjoint, and every running program still meets its specification;
* `Discipline.sound` : every reachable system is sound;
* `Discipline.Event`, `Discipline.event` : what a step of a sound system does, in terms of `post` and `fail`;
* `Discipline.finish` : what is known when a call ends;
* `Discipline.reachable_db` : a property of databases kept by every commit holds of every committed state.
-/

namespace ReadCommitted

variable {Db W L E C Q R : Type}

structure Discipline (G : Engine Db W E) (program : Q → Program Db W L E C R) where
  protocol : Protocol Db L
  ok : System Db W L E C Q R → Label Q C → Prop
  inv : Db → Prop
  assumes : Q → Program Db W L E C R → Db → Prop
  post : Q → Nat → Db → R → List W → List L → Db → Prop
  fail : Q → Nat → Db → E → List W → List L → Db → Prop
  ok_exec : ∀ {s : System Db W L E C Q R} {t c call tx}, ok s (.exec t c) → s.Running t call tx → inv s.db →
    assumes call.request tx.program s.db
  meets : ∀ q now origin fin, (program q).Meets G protocol now fin (assumes q)
    (fun r _ log locks => post q now origin r log locks fin)
    (fun e log locks => fail q now origin e log locks fin) origin [] []
  deferred : ∀ {q now origin r e log locks db db₀}, post q now origin r log locks db →
    protocol.Rely locks db₀ db → G.deferred (G.view log db₀) log = some e → fail q now origin e log locks db
  commit : ∀ {q now origin r log locks db}, inv db → post q now origin r log locks db →
    (∃ db₀, inv db₀ ∧ protocol.Rely locks db₀ db ∧ G.deferred (G.view log db₀) log = none) →
    inv (G.view log db) ∧ protocol.Guarantee locks db (G.view log db)

namespace Discipline
variable {G : Engine Db W E} {program : Q → Program Db W L E C R} (D : Discipline G program)

/-- The specification of `call`, for its program `p` in flight, at the commit database `fin`. -/
def Keeps (call : Call Db W L E C Q R) (fin prev : Db) (p : Program Db W L E C R) (log : List W)
    (locks : List L) : Prop :=
  p.Meets G D.protocol call.startedAt fin (D.assumes call.request)
    (fun r _ log locks => D.post call.request call.startedAt call.origin r log locks fin)
    (fun e log locks => D.fail call.request call.startedAt call.origin e log locks fin) prev log locks

structure Sound (s : System Db W L E C Q R) : Prop where
  inv : D.inv s.db
  disjoint : ∀ {t u call tx call' tx'}, s.Running t call tx → s.Running u call' tx' → t ≠ u →
    ∀ ℓ ∈ tx.locks, ℓ ∉ tx'.locks
  origin : ∀ {t : Nat} {call : Call Db W L E C Q R}, s.calls[t]? = some call → D.protocol.grow call.origin s.db
  keeps : ∀ {t call tx}, s.Running t call tx → ∀ fin, D.protocol.Rely tx.locks s.db fin →
    D.Keeps call fin s.db tx.program tx.log tx.locks
  prepared : ∀ {t call tx}, s.Running t call tx → tx.prepared = true →
    ∃ db₀, D.inv db₀ ∧ D.protocol.Rely tx.locks db₀ s.db ∧ G.deferred (G.view tx.log db₀) tx.log = none

/-- Before the first call. -/
theorem sound_init {s : System Db W L E C Q R} (hcalls : s.calls = []) (hinv : D.inv s.db) : D.Sound s where
  inv := hinv
  disjoint h := by have := h.get; simp [hcalls] at this
  origin h := by simp [hcalls] at h
  keeps h := by have := h.get; simp [hcalls] at this
  prepared h := by have := h.get; simp [hcalls] at this

variable {D}

/-- A transaction of the new state is one of the old state, or the one whose status was set. -/
theorem running_setStatus {s : System Db W L E C Q R} {t : Nat} {st : Status Db W L E C R} {u : Nat}
    {call : Call Db W L E C Q R} {tx : Txn Db W L E C R} (h : (s.setStatus t st).Running u call tx) :
    (u ≠ t ∧ s.Running u call tx) ∨
      (u = t ∧ st = .running tx ∧ ∃ call₀, s.calls[t]? = some call₀ ∧ call = { call₀ with status := st }) := by
  have hget := h.get
  rw [System.setStatus_get] at hget
  split at hget
  · next htu =>
    rw [Option.map_eq_some_iff] at hget
    obtain ⟨call₀, hcall₀, rfl⟩ := hget
    exact Or.inr ⟨htu.symm, h.status, call₀, htu ▸ hcall₀, rfl⟩
  · next htu => exact Or.inl ⟨fun h => htu h.symm, hget, h.status⟩

/-- Setting one status, the committed database unchanged. -/
theorem Sound.setStatus {s : System Db W L E C Q R} (hs : D.Sound s) {t : Nat} {call : Call Db W L E C Q R}
    {tx : Txn Db W L E C R} (hrun : s.Running t call tx) {st : Status Db W L E C R}
    (hlocks : ∀ {tx'}, st = .running tx' → ∀ ℓ ∈ tx'.locks, ℓ ∈ tx.locks ∨
      ∀ u call tx, s.Running u call tx → u ≠ t → ℓ ∉ tx.locks)
    (hkeeps : ∀ {tx'}, st = .running tx' → ∀ fin, D.protocol.Rely tx'.locks s.db fin →
      D.Keeps call fin s.db tx'.program tx'.log tx'.locks)
    (hprepared : ∀ {tx'}, st = .running tx' → tx'.prepared = true →
      ∃ db₀, D.inv db₀ ∧ D.protocol.Rely tx'.locks db₀ s.db ∧
        G.deferred (G.view tx'.log db₀) tx'.log = none) :
    D.Sound (s.setStatus t st) where
  inv := hs.inv
  disjoint := by
    intro u v c₁ x₁ c₂ x₂ h₁ h₂ hne ℓ hℓ
    rcases running_setStatus h₁ with ⟨hu, r₁⟩ | ⟨rfl, hst, -⟩
    · rcases running_setStatus h₂ with ⟨hv, r₂⟩ | ⟨rfl, hst, -⟩
      · exact hs.disjoint r₁ r₂ hne ℓ hℓ
      · intro hmem
        rcases hlocks hst ℓ hmem with h | h
        · exact hs.disjoint r₁ hrun hne ℓ hℓ h
        · exact h u c₁ x₁ r₁ hne hℓ
    · rcases running_setStatus h₂ with ⟨hv, r₂⟩ | ⟨rfl, -, -⟩
      · rcases hlocks hst ℓ hℓ with h | h
        · exact hs.disjoint hrun r₂ hne ℓ h
        · exact h v c₂ x₂ r₂ hv
      · exact absurd rfl hne
  origin := by
    intro u c hget
    rw [System.setStatus_get] at hget
    split at hget
    · rw [Option.map_eq_some_iff] at hget
      obtain ⟨c₀, hc₀, rfl⟩ := hget
      have h := hs.origin hc₀
      exact h
    · exact hs.origin hget
  keeps := by
    intro u c x h fin hrely
    rcases running_setStatus h with ⟨hu, h⟩ | ⟨hu, hst, c₀, hc₀, rfl⟩
    · exact hs.keeps h fin hrely
    · have hc : c₀ = call := Option.some.inj (hc₀.symm.trans hrun.get)
      subst hc
      exact hkeeps hst fin hrely
  prepared := by
    intro u c x h hp
    rcases running_setStatus h with ⟨hu, h⟩ | ⟨hu, hst, -⟩
    · exact hs.prepared h hp
    · exact hprepared hst hp

/-- A commit at a sound state: its result, and what it owes the others. -/
theorem Sound.commit {s : System Db W L E C Q R} (hs : D.Sound s) {t : Nat} {call : Call Db W L E C Q R}
    {tx : Txn Db W L E C R} (hrun : s.Running t call tx) {r : R} (hr : tx.program = .ret r)
    (hp : tx.prepared = true) :
    D.post call.request call.startedAt call.origin r tx.log tx.locks s.db ∧ D.inv (G.view tx.log s.db) ∧
      D.protocol.Guarantee tx.locks s.db (G.view tx.log s.db) := by
  have hpost : D.post call.request call.startedAt call.origin r tx.log tx.locks s.db := by
    have h := hs.keeps hrun s.db (Protocol.Rely.refl _ _)
    rw [hr] at h
    exact h
  exact ⟨hpost, D.commit hs.inv hpost (hs.prepared hrun hp)⟩

/-- An error at a sound state. -/
theorem Sound.failed {s : System Db W L E C Q R} (hs : D.Sound s) {t : Nat} {call : Call Db W L E C Q R}
    {tx : Txn Db W L E C R} (hrun : s.Running t call tx) {e : E} (he : tx.program = .throw e) :
    D.fail call.request call.startedAt call.origin e tx.log tx.locks s.db := by
  have h := hs.keeps hrun s.db (Protocol.Rely.refl _ _)
  rw [he] at h
  exact h

/-- The committed database moves on while a transaction keeps its locks. -/
theorem Sound.commitOther {s : System Db W L E C Q R} (hs : D.Sound s) {db : Db} (hinv : D.inv db)
    (hgrow : D.protocol.grow s.db db)
    (hrely : ∀ {t call tx}, s.Running t call tx → D.protocol.Rely tx.locks s.db db) :
    D.Sound { s with db := db } where
  inv := hinv
  disjoint h₁ h₂ := hs.disjoint ⟨h₁.get, h₁.status⟩ ⟨h₂.get, h₂.status⟩
  origin h := D.protocol.grow_trans (hs.origin h) hgrow
  keeps h fin hf := by
    have hr := hrely ⟨h.get, h.status⟩
    exact Program.Meets.later (fun _ _ _ _ _ _ hq => hq) hr (hs.keeps ⟨h.get, h.status⟩ fin (hr.trans hf))
  prepared h hp := by
    obtain ⟨db₀, hinv₀, hr, hd⟩ := hs.prepared ⟨h.get, h.status⟩ hp
    exact ⟨db₀, hinv₀, hr.trans (hrely ⟨h.get, h.status⟩), hd⟩

/-- A new transaction holds no lock. -/
theorem Sound.begin {s : System Db W L E C Q R} (hs : D.Sound s) (q : Q) :
    D.Sound { s with calls := s.calls ++ [⟨q, s.clock, s.db, .running ⟨program q, [], [], false⟩⟩] } := by
  have hold : ∀ {t call tx}, System.Running
      { s with calls := s.calls ++ [⟨q, s.clock, s.db, .running ⟨program q, [], [], false⟩⟩] } t call tx →
      s.Running t call tx ∨
        (t = s.calls.length ∧ call = ⟨q, s.clock, s.db, .running ⟨program q, [], [], false⟩⟩ ∧
          tx = ⟨program q, [], [], false⟩) := by
    intro t call tx h
    have hget := h.get
    simp only [List.getElem?_append] at hget
    split at hget
    · exact Or.inl ⟨hget, h.status⟩
    · next hlen =>
      rw [List.getElem?_singleton] at hget
      split at hget
      · next hzero =>
        have hcall := Option.some.inj hget
        subst hcall
        exact Or.inr ⟨by omega, rfl, (Status.running.inj h.status).symm⟩
      · cases hget
  refine ⟨hs.inv, ?_, ?_, ?_, ?_⟩
  · intro t u call tx call' tx' h₁ h₂ hne ℓ hℓ
    rcases hold h₁ with h₁ | ⟨-, -, rfl⟩
    · rcases hold h₂ with h₂ | ⟨-, -, rfl⟩
      · exact hs.disjoint h₁ h₂ hne ℓ hℓ
      · exact List.not_mem_nil
    · cases hℓ
  · intro t call hget
    simp only [List.getElem?_append] at hget
    split at hget
    · exact hs.origin hget
    · rw [List.getElem?_singleton] at hget
      split at hget
      · have hcall := Option.some.inj hget
        subst hcall
        exact D.protocol.grow_refl _
      · cases hget
  · intro t call tx h fin hrely
    rcases hold h with h | ⟨-, rfl, rfl⟩
    · exact hs.keeps h fin hrely
    · exact D.meets q s.clock s.db fin
  · intro t call tx h hp
    rcases hold h with h | ⟨-, -, rfl⟩
    · exact hs.prepared h hp
    · cases hp

variable (D) in
/-- What a step does, in terms of the specifications of the programs. -/
inductive Event (s : System Db W L E C Q R) : Label Q C → System Db W L E C Q R → Prop
  | tick (d : Nat) : Event s (.tick d) { s with clock := s.clock + d }
  | begin (q : Q) : Event s (.begin q)
      { s with calls := s.calls ++ [⟨q, s.clock, s.db, .running ⟨program q, [], [], false⟩⟩] }
  | work {l t call tx tx'} : s.Running t call tx → Event s l (s.setStatus t (.running tx'))
  | returned {t call tx r} : s.Running t call tx → tx.program = .ret r →
      D.post call.request call.startedAt call.origin r tx.log tx.locks s.db →
      D.inv (G.view tx.log s.db) → D.protocol.Guarantee tx.locks s.db (G.view tx.log s.db) →
      Event s (.commit t) { s.setStatus t (.finished (.returned r)) with db := G.view tx.log s.db }
  | failed {t call tx e} : s.Running t call tx → tx.program = .throw e →
      D.fail call.request call.startedAt call.origin e tx.log tx.locks s.db →
      Event s (.rollback t) (s.setStatus t (.finished (.failed e)))
  | aborted {t call tx} : s.Running t call tx → Event s (.abort t) (s.setStatus t (.finished .aborted))

variable [DecidableEq L]

theorem event {s s' : System Db W L E C Q R} {l : Label Q C} (hs : D.Sound s)
    (hstep : s.step G program l = some s') : D.Event s l s' := by
  cases l with
  | tick d =>
      cases hstep
      exact .tick d
  | begin q =>
      cases hstep
      exact .begin q
  | exec t c =>
      obtain ⟨call, tx, β, stmt, next, hrun, -, ⟨e, -, rfl⟩ | ⟨r, ws, ls, waits, -, -, rfl⟩⟩ :=
        System.exec_inv hstep
      · exact .work hrun
      · exact .work hrun
  | prepare t =>
      obtain ⟨call, tx, r, hrun, -, ⟨e, -, rfl⟩ | ⟨-, rfl⟩⟩ := System.prepare_inv hstep
      · exact .work hrun
      · exact .work hrun
  | commit t =>
      obtain ⟨call, tx, r, hrun, hr, hp, rfl⟩ := System.commit_inv hstep
      obtain ⟨hpost, hinv, hg⟩ := hs.commit hrun hr hp
      exact .returned hrun hr hpost hinv hg
  | rollback t =>
      obtain ⟨call, tx, e, hrun, he, rfl⟩ := System.rollback_inv hstep
      exact .failed hrun he (hs.failed hrun he)
  | abort t =>
      obtain ⟨call, tx, hrun, rfl⟩ := System.abort_inv hstep
      exact .aborted hrun

variable (D) in
/-- What is known when call `t` ends. -/
inductive Finish (s : System Db W L E C Q R) (t : Nat) (call : Call Db W L E C Q R) (tx : Txn Db W L E C R) :
    Outcome E R → System Db W L E C Q R → Prop
  | returned {r} : D.post call.request call.startedAt call.origin r tx.log tx.locks s.db →
      Finish s t call tx (.returned r) { s.setStatus t (.finished (.returned r)) with db := G.view tx.log s.db }
  | failed {e} : D.fail call.request call.startedAt call.origin e tx.log tx.locks s.db →
      Finish s t call tx (.failed e) (s.setStatus t (.finished (.failed e)))
  | aborted : Finish s t call tx .aborted (s.setStatus t (.finished .aborted))

theorem finish {s s' : System Db W L E C Q R} {l : Label Q C} (hs : D.Sound s) (hstep : s.step G program l = some s')
    {t : Nat} {call : Call Db W L E C Q R} {tx : Txn Db W L E C R} {o : Outcome E R} (h : s.Ends s' t call tx o) :
    D.Finish s t call tx o s' := by
  cases event hs hstep with
  | tick d => exact absurd rfl h.calls_ne
  | begin q =>
      have hlen := (List.getElem?_eq_some_iff.mp h.running.get).1
      exact absurd (List.getElem?_append_left hlen) h.calls_ne
  | work _ => cases (h.setStatus rfl).2
  | returned hrun _ hpost _ _ =>
      obtain ⟨rfl, hst⟩ := h.setStatus rfl
      cases hst
      obtain rfl := hrun.call_eq h.running
      obtain rfl := hrun.tx_eq h.running
      exact .returned hpost
  | failed hrun _ hfail =>
      obtain ⟨rfl, hst⟩ := h.setStatus rfl
      cases hst
      obtain rfl := hrun.call_eq h.running
      obtain rfl := hrun.tx_eq h.running
      exact .failed hfail
  | aborted hrun =>
      obtain ⟨rfl, hst⟩ := h.setStatus rfl
      cases hst
      exact .aborted

/-- A step keeps a system sound. -/
theorem sound_step {s s' : System Db W L E C Q R} {l : Label Q C} (hs : D.Sound s) (hok : D.ok s l)
    (hstep : s.step G program l = some s') : D.Sound s' := by
  cases l with
  | tick d =>
      cases hstep
      exact ⟨hs.inv, fun h₁ h₂ => hs.disjoint ⟨h₁.get, h₁.status⟩ ⟨h₂.get, h₂.status⟩, hs.origin,
        fun h => hs.keeps ⟨h.get, h.status⟩, fun h => hs.prepared ⟨h.get, h.status⟩⟩
  | begin q =>
      cases hstep
      exact hs.begin q
  | exec t c =>
      obtain ⟨call, tx, β, stmt, next, hrun, hcall, ⟨e, he, rfl⟩ | ⟨r, ws, ls, waits, hr, hfree, rfl⟩⟩ :=
        System.exec_inv hstep
      · refine hs.setStatus hrun ?_ ?_ ?_
        · rintro tx' ⟨⟩ ℓ hℓ
          exact Or.inl hℓ
        · rintro tx' ⟨⟩ fin hrely
          have h := hs.keeps hrun fin hrely
          have ha := D.ok_exec hok hrun hs.inv
          rw [Keeps, hcall] at h
          rw [hcall] at ha
          have hstmt := h s.db c (Protocol.Rely.refl _ _) hrely ha
          rw [he] at hstmt
          exact hstmt
        · rintro tx' ⟨⟩ hp
          cases hp
      · refine hs.setStatus hrun ?_ ?_ ?_
        · rintro tx' ⟨⟩ ℓ hℓ
          rcases List.mem_append.mp hℓ with hℓ | hℓ
          · exact Or.inl hℓ
          · refine Or.inr fun u call' tx' hrun' hne => ?_
            exact (System.free_iff s t _).mp hfree u call' tx' hrun' hne ℓ (List.mem_append_left _ hℓ)
        · rintro tx' ⟨⟩ fin hrely
          have hrely₀ : D.protocol.Rely tx.locks s.db fin :=
            hrely.weaken fun ℓ hℓ => List.mem_append_left _ hℓ
          have h := hs.keeps hrun fin hrely₀
          have ha := D.ok_exec hok hrun hs.inv
          rw [Keeps, hcall] at h
          rw [hcall] at ha
          have hstmt := h s.db c (Protocol.Rely.refl _ _) hrely₀ ha
          rw [hr] at hstmt
          exact hstmt hrely
        · rintro tx' ⟨⟩ hp
          cases hp
  | prepare t =>
      obtain ⟨call, tx, r, hrun, hr, ⟨e, he, rfl⟩ | ⟨hnone, rfl⟩⟩ := System.prepare_inv hstep
      · refine hs.setStatus hrun ?_ ?_ ?_
        · rintro tx' ⟨⟩ ℓ hℓ
          exact Or.inl hℓ
        · rintro tx' ⟨⟩ fin hrely
          have h := hs.keeps hrun fin hrely
          rw [Keeps, hr] at h
          exact D.deferred h hrely he
        · rintro tx' ⟨⟩ hp
          cases hp
      · refine hs.setStatus hrun ?_ ?_ ?_
        · rintro tx' ⟨⟩ ℓ hℓ
          exact Or.inl hℓ
        · rintro tx' ⟨⟩ fin hrely
          exact hs.keeps hrun fin hrely
        · rintro tx' ⟨⟩ -
          exact ⟨s.db, hs.inv, Protocol.Rely.refl _ _, hnone⟩
  | commit t =>
      obtain ⟨call, tx, r, hrun, hr, hp, rfl⟩ := System.commit_inv hstep
      obtain ⟨hpost, hinv, hg⟩ := hs.commit hrun hr hp
      have hdone : D.Sound (s.setStatus t (.finished (.returned r))) :=
        hs.setStatus hrun (by rintro tx' ⟨⟩) (by rintro tx' ⟨⟩) (by rintro tx' ⟨⟩)
      refine hdone.commitOther hinv hg.grow fun h => ?_
      rcases running_setStatus h with ⟨hu, h⟩ | ⟨-, hst, -⟩
      · exact hg.rely (hs.disjoint h hrun hu)
      · cases hst
  | rollback t =>
      obtain ⟨call, tx, e, hrun, he, rfl⟩ := System.rollback_inv hstep
      exact hs.setStatus hrun (by rintro tx' ⟨⟩) (by rintro tx' ⟨⟩) (by rintro tx' ⟨⟩)
  | abort t =>
      obtain ⟨call, tx, hrun, rfl⟩ := System.abort_inv hstep
      exact hs.setStatus hrun (by rintro tx' ⟨⟩) (by rintro tx' ⟨⟩) (by rintro tx' ⟨⟩)

/-- **Soundness.** Every run from a sound system whose steps the discipline admits stays sound. -/
theorem sound {s₀ s : System Db W L E C Q R} (h₀ : D.Sound s₀) (h : System.Reachable G program D.ok s₀ s) :
    D.Sound s := by
  induction h with
  | refl => exact h₀
  | step _ hok hstep ih => exact sound_step ih hok hstep

/-- **What every commit keeps holds of every committed database.** `P` is what is asked of the requests. -/
theorem reachable_db {J : Db → Prop} {P : Q → Prop} {s₀ s : System Db W L E C Q R} (h₀ : D.Sound s₀)
    (hcalls : s₀.calls = []) (hJ : J s₀.db) (hP : ∀ s q, D.ok s (.begin q) → P q)
    (hcommit : ∀ q now origin r log locks db, D.inv db → J db → P q → D.post q now origin r log locks db →
      J (G.view log db))
    (h : System.Reachable G program D.ok s₀ s) : J s.db := by
  induction h with
  | refl => exact hJ
  | step hrun hok hstep ih =>
      have hs := sound h₀ hrun
      cases event hs hstep with
      | tick d => exact ih
      | begin q => exact ih
      | work _ => exact ih
      | returned hr _ hpost _ _ => exact hcommit _ _ _ _ _ _ _ hs.inv ih (hrun.request hP hcalls hr.get) hpost
      | failed _ _ _ => exact ih
      | aborted _ => exact ih

end Discipline

end ReadCommitted
