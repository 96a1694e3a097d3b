import FinSight.ReadCommitted.Discipline
import FinSight.ReadCommitted.Sessions

/-!
# What clients may rely on

Clients remember what they have been told, while the database goes on. What comes from outside is recorded: an answer that
may come can depend on the answers before it.

* `Recorder`, `Recorded`, `Recorded.step` : sessions with the record of their answers;
* `Told` : what the response of a call says of any later database;
* `Reliance` : what is known of database and record (`known`), what a call needs (`asks`), and what a client relies on
  (`safe`), each kept as the others go on;
* `Reliance.Sound`, `Reliance.sound` : every reachable state keeps to it.
-/

namespace ReadCommitted

variable {Db W L E C Q R A S F Y K : Type}

/-- `accepts` : the answers that may come, `note` : the record after an answer. -/
structure Recorder (A S Y K : Type) where
  accepts : K → S → Y → Prop
  note : K → A → S → Y → K

structure Recorded (Db W L E C Q R A S F K : Type) where
  sessions : Sessions Db W L E C Q R A S F
  record : K

namespace Recorded
variable (X : Recorder A S Y K)

def after (s : Recorded Db W L E C Q R A S F K) : Move A Q C F Y → K
  | .answer i y =>
      match s.sessions.clients[i]? with
      | some ⟨a, .ready p⟩ => X.note s.record a p y
      | _ => s.record
  | _ => s.record

def step [DecidableEq L] (G : Engine Db W E) (program : Q → Program Db W L E C R) (B : Behaviour E Q R A S F Y)
    (s : Recorded Db W L E C Q R A S F K) (m : Move A Q C F Y) : Option (Recorded Db W L E C Q R A S F K) :=
  (s.sessions.step G program B m).map fun sessions => ⟨sessions, s.after X m⟩

/-- The answer of the move may come. -/
def Admits (s : Recorded Db W L E C Q R A S F K) (m : Move A Q C F Y) : Prop :=
  ∀ i y a p, m = .answer i y → s.sessions.clients[i]? = some ⟨a, .ready p⟩ → X.accepts s.record p y

inductive Reachable [DecidableEq L] (G : Engine Db W E) (program : Q → Program Db W L E C R) (B : Behaviour E Q R A S F Y)
    (s₀ : Recorded Db W L E C Q R A S F K) : Recorded Db W L E C Q R A S F K → Prop
  | refl : Reachable G program B s₀ s₀
  | step {s s' m} : Reachable G program B s₀ s → s.Admits X m → s.step X G program B m = some s' →
      Reachable G program B s₀ s'

end Recorded

/-! ## Reliance -/

section Reliance
variable {G : Engine Db W E} {program : Q → Program Db W L E C R} (D : Discipline G program)

/-- The call has committed at some database, and `db` is later. -/
def Told (q : Q) (origin : Db) (r : R) (db : Db) : Prop :=
  ∃ now fin log locks, D.post q now origin r log locks fin ∧ D.protocol.grow (G.view log fin) db

variable {D} in
theorem Told.later {q : Q} {origin : Db} {r : R} {db db' : Db} (h : Told D q origin r db) (hgrow : D.protocol.grow db db') :
    Told D q origin r db' := by
  obtain ⟨now, fin, log, locks, hpost, hdb⟩ := h
  exact ⟨now, fin, log, locks, hpost, D.protocol.grow_trans hdb hgrow⟩

/-- `next` is safe with whatever response the call may give from now on. -/
def Awaits (later : K → K → Prop) (safe : Db → K → A → S → Prop)
    (q : Q) (origin db : Db) (k : K) (a : A) (next : Except F R → S) : Prop :=
  ∀ db' k', D.protocol.grow db db' → later k k' →
    (∀ r, Told D q origin r db' → safe db' k' a (next (.ok r))) ∧ ∀ e, safe db' k' a (next (.error e))

structure Reliance (B : Behaviour E Q R A S F Y) (X : Recorder A S Y K) where
  later : K → K → Prop
  later_refl : ∀ k, later k k
  later_trans : ∀ {k k' k''}, later k k' → later k' k'' → later k k''
  later_note : ∀ k a p y, later k (X.note k a p y)
  known : Db → K → Prop
  asks : Db → Q → Prop
  safe : Db → K → A → S → Prop
  admits : ∀ (s : System Db W L E C Q R) (l : Label Q C), D.ok s l
  known_grow : ∀ {db db' k}, D.protocol.grow db db' → known db k → known db' k
  safe_later : ∀ {db db' k k' a p}, D.protocol.grow db db' → later k k' → safe db k a p → safe db' k' a p
  start : ∀ db k a, safe db k a (B.start a)
  transaction : ∀ {db k a p q next}, D.inv db → known db k → safe db k a p → B.transaction p = some (q, next) →
    asks db q ∧ Awaits D later safe q db db k a next
  answer : ∀ {db k a p y p'}, known db k → safe db k a p → X.accepts k p y → B.answer p y = some p' →
    known db (X.note k a p y) ∧ safe db (X.note k a p y) a p'

namespace Reliance
variable {D} {B : Behaviour E Q R A S F Y} {X : Recorder A S Y K} (H : Reliance D B X)

def StageSound (calls : List (Call Db W L E C Q R)) (db : Db) (k : K) (a : A) : Stage S F R → Prop
  | .ready p => H.safe db k a p
  | .waiting t next => ∃ call, calls[t]? = some call ∧ Awaits D H.later H.safe call.request call.origin db k a next

structure Sound (s : Recorded Db W L E C Q R A S F K) : Prop where
  system : D.Sound s.sessions.system
  known : H.known s.sessions.system.db s.record
  asks : ∀ call ∈ s.sessions.system.calls, H.asks call.origin call.request
  told : ∀ {t : Nat} {call : Call Db W L E C Q R} {r}, s.sessions.system.calls[t]? = some call →
    call.status = .finished (.returned r) → Told D call.request call.origin r s.sessions.system.db
  clients : ∀ {i : Nat} {client : Client A S F R}, s.sessions.clients[i]? = some client →
    H.StageSound s.sessions.system.calls s.sessions.system.db s.record client.request client.stage

theorem sound_init {s : Recorded Db W L E C Q R A S F K} (hclients : s.sessions.clients = [])
    (hcalls : s.sessions.system.calls = []) (hinv : D.inv s.sessions.system.db)
    (hknown : H.known s.sessions.system.db s.record) : H.Sound s where
  system := Discipline.sound_init D hcalls hinv
  known := hknown
  asks call hcall := by
    rw [hcalls] at hcall
    cases hcall
  told hget := by simp [hcalls] at hget
  clients hget := by simp [hclients] at hget

variable {H}

theorem StageSound.later {calls calls' : List (Call Db W L E C Q R)} {db db' : Db} {k k' : K} {a : A} {stage : Stage S F R}
    (h : H.StageSound calls db k a stage) (hgrow : D.protocol.grow db db') (hlater : H.later k k')
    (hcalls : ∀ (t : Nat) (call : Call Db W L E C Q R), calls[t]? = some call →
      ∃ call' : Call Db W L E C Q R, calls'[t]? = some call' ∧ call'.request = call.request ∧ call'.origin = call.origin) :
    H.StageSound calls' db' k' a stage := by
  cases stage with
  | ready p => exact H.safe_later hgrow hlater h
  | waiting t next =>
      obtain ⟨call, hget, hawaits⟩ := h
      obtain ⟨call', hget', hrequest, horigin⟩ := hcalls t call hget
      refine ⟨call', hget', ?_⟩
      rw [hrequest, horigin]
      exact fun db'' k'' hdb hk => hawaits db'' k'' (D.protocol.grow_trans hgrow hdb) (H.later_trans hlater hk)

/-- One client goes on. -/
theorem Sound.setStage {s : Recorded Db W L E C Q R A S F K} (h : H.Sound s) {i : Nat} {client : Client A S F R}
    (hget : s.sessions.clients[i]? = some client) {stage : Stage S F R} {k : K} (hlater : H.later s.record k)
    (hknown : H.known s.sessions.system.db k)
    (hstage : H.StageSound s.sessions.system.calls s.sessions.system.db k client.request stage) :
    H.Sound ⟨s.sessions.setStage i stage, k⟩ where
  system := h.system
  known := hknown
  asks := h.asks
  told := h.told
  clients := by
    intro j client' hget'
    have hsame : ∀ (t : Nat) (call : Call Db W L E C Q R), s.sessions.system.calls[t]? = some call →
        ∃ call' : Call Db W L E C Q R, s.sessions.system.calls[t]? = some call' ∧ call'.request = call.request ∧
          call'.origin = call.origin := fun t call hcall => ⟨call, hcall, rfl, rfl⟩
    unfold Sessions.setStage at hget'
    rw [List.getElem?_modify] at hget'
    obtain ⟨client₀, hget₀, heq⟩ := Option.map_eq_some_iff.mp hget'
    split at heq
    · next hij =>
      subst hij
      obtain rfl := Option.some.inj (hget.symm.trans hget₀)
      rw [← heq]
      exact hstage
    · rw [← heq]
      exact (h.clients hget₀).later (D.protocol.grow_refl _) hlater hsame

variable [DecidableEq L]

/-- The system goes on; `hnew` : what a call that begins needs. -/
theorem Sound.system_step {s : Recorded Db W L E C Q R A S F K} (h : H.Sound s) {l : Label Q C}
    {system : System Db W L E C Q R} (hstep : s.sessions.system.step G program l = some system)
    (hnew : ∀ q, l = .begin q → H.asks s.sessions.system.db q) :
    H.Sound ⟨{ s.sessions with system }, s.record⟩ := by
  have hsystem := Discipline.sound_step h.system (H.admits _ _) hstep
  have hgrow : D.protocol.grow s.sessions.system.db system.db := by
    cases Discipline.event h.system hstep with
    | returned _ _ _ _ hg => exact hg.grow
    | tick _ | begin _ | work _ | failed _ _ _ | aborted _ => exact D.protocol.grow_refl _
  refine ⟨hsystem, H.known_grow hgrow h.known, fun call hcall => ?_, fun {t call r} hget hst => ?_, fun {i client} hget => ?_⟩
  · obtain ⟨t, hget⟩ := List.mem_iff_getElem?.mp hcall
    rcases System.step_calls hstep hget with ⟨call₀, hget₀, hsame⟩ | ⟨q, hl, -, rfl⟩
    · rw [hsame]
      exact h.asks call₀ (List.mem_iff_getElem?.mpr ⟨t, hget₀⟩)
    · exact hnew q hl
  · rcases System.ends_of_finished hstep hget hst with hget₀ | ⟨call₀, tx, hends, rfl⟩
    · exact (h.told hget₀ hst).later hgrow
    · cases Discipline.finish h.system hstep hends with
      | returned hpost => exact ⟨_, _, _, _, hpost, D.protocol.grow_refl _⟩
  · refine (h.clients hget).later hgrow (H.later_refl _) fun t call hcall => ?_
    obtain ⟨st, hget', -⟩ := System.step_keeps hstep hcall
    exact ⟨_, hget', rfl, rfl⟩

theorem Sound.step {s s' : Recorded Db W L E C Q R A S F K} (h : H.Sound s) {m : Move A Q C F Y} (hok : s.Admits X m)
    (hstep : s.step X G program B m = some s') : H.Sound s' := by
  obtain ⟨sessions, hgo, rfl⟩ := Option.map_eq_some_iff.mp hstep
  clear hstep
  cases m with
  | request a =>
      cases hgo
      refine ⟨h.system, h.known, h.asks, h.told, fun {i client} hget => ?_⟩
      rw [List.getElem?_append] at hget
      split at hget
      · exact h.clients hget
      · rw [List.getElem?_singleton] at hget
        split at hget
        · cases hget
          exact H.start _ _ a
        · cases hget
  | transact i =>
      simp only [Sessions.step] at hgo
      split at hgo
      · next a p hget =>
        obtain ⟨⟨q, next⟩, hp, hgo⟩ := Option.bind_eq_some_iff.mp hgo
        obtain ⟨system, hsystem, rfl⟩ := Option.map_eq_some_iff.mp hgo
        obtain ⟨hasks, hawaits⟩ := H.transaction h.system.inv h.known (h.clients hget) hp
        have hgone := h.system_step hsystem fun q' hq => Label.begin.inj hq ▸ hasks
        cases hsystem
        refine hgone.setStage hget (H.later_refl _) hgone.known
          ⟨⟨q, s.sessions.system.clock, s.sessions.system.db, .running ⟨program q, [], [], false⟩⟩, ?_, hawaits⟩
        exact List.getElem?_concat_length
      · cases hgo
  | resume i lost =>
      simp only [Sessions.step] at hgo
      split at hgo
      · next a t next hget =>
        obtain ⟨o, ho, hgo⟩ := Option.bind_eq_some_iff.mp hgo
        obtain ⟨r, hr, rfl⟩ := Option.map_eq_some_iff.mp hgo
        refine h.setStage hget (H.later_refl _) h.known ?_
        obtain ⟨call, hcall, hawaits⟩ := h.clients hget
        obtain ⟨hok, herror⟩ := hawaits _ _ (D.protocol.grow_refl _) (H.later_refl _)
        cases r with
        | error e => exact herror e
        | ok r =>
            refine hok r (h.told hcall ?_)
            rw [System.outcome, hcall, Option.bind_some] at ho
            cases hst : call.status with
            | running tx =>
                rw [hst] at ho
                cases ho
            | finished o' =>
                rw [hst] at ho
                obtain rfl := Option.some.inj ho
                cases lost with
                | some e => cases o' <;> cases hr
                | none =>
                    cases o' with
                    | returned r' =>
                        cases hr
                        rfl
                    | failed e => cases hr
                    | aborted => cases hr
      · cases hgo
  | answer i y =>
      simp only [Sessions.step] at hgo
      split at hgo
      · next a p hget =>
        obtain ⟨p', hp', rfl⟩ := Option.map_eq_some_iff.mp hgo
        obtain ⟨hknown, hsafe⟩ := H.answer h.known (h.clients hget) (hok i y a p rfl hget) hp'
        have hafter : s.after X (.answer i y : Move A Q C F Y) = X.note s.record a p y := by simp only [Recorded.after, hget]
        rw [hafter]
        exact h.setStage hget (H.later_note _ _ _ _) hknown hsafe
      · cases hgo
  | system l =>
      simp only [Sessions.step] at hgo
      split at hgo
      · next hbegins =>
        obtain ⟨system, hsystem, rfl⟩ := Option.map_eq_some_iff.mp hgo
        refine h.system_step hsystem fun q hq => ?_
        rw [hq] at hbegins
        cases hbegins
      · cases hgo

/-- **Soundness.** Nobody is misled by what it was told before, in any run. -/
theorem sound {s₀ s : Recorded Db W L E C Q R A S F K} (h₀ : H.Sound s₀) (h : s₀.Reachable X G program B s) : H.Sound s := by
  induction h with
  | refl => exact h₀
  | step _ hok hstep ih => exact ih.step hok hstep

end Reliance

end Reliance

end ReadCommitted
