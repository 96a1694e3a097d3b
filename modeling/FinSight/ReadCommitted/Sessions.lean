import FinSight.ReadCommitted.Isolation

/-!
# Clients of a system

A client makes one transaction after another and is told what becomes of each; between two of them it may be answered from
outside. The answer to a transaction can be lost, also that of one which has committed.

* `Behaviour` : how clients go on, `Sessions` : a system with its clients, `Sessions.step` : the executable step function;
* `Move.only`, `only` : the moves of one owner's clients, in a run of their own;
* `Sessions.share` : the system as it is without the others;
* `run_only` : the run of an owner's clients by themselves takes its share to where the whole run does.
-/

namespace ReadCommitted

variable {Db W L E C Q R A S F Y T : Type}

/-- `transaction p` : what `p` has to begin, and how it goes on with the answer; `answer` : what comes from outside;
`thrown` : what an error of the database looks like. -/
structure Behaviour (E Q R A S F Y : Type) where
  start : A → S
  transaction : S → Option (Q × (Except F R → S))
  answer : S → Y → Option S
  thrown : E → F

/-- What a client learns of a transaction that has ended, where the answer is not lost. -/
def Behaviour.received (B : Behaviour E Q R A S F Y) : Outcome E R → Option F → Option (Except F R)
  | _, some lost => some (.error lost)
  | .returned r, none => some (.ok r)
  | .failed e, none => some (.error (B.thrown e))
  | .aborted, none => none

inductive Stage (S F R : Type) where
  | ready (p : S)
  | waiting (call : Nat) (next : Except F R → S)

structure Client (A S F R : Type) where
  request : A
  stage : Stage S F R

structure Sessions (Db W L E C Q R A S F : Type) where
  system : System Db W L E C Q R
  clients : List (Client A S F R)

/-- `system` : a step of a transaction, or of the clock. -/
inductive Move (A Q C F Y : Type) where
  | request (a : A)
  | transact (i : Nat)
  | resume (i : Nat) (lost : Option F)
  | answer (i : Nat) (y : Y)
  | system (l : Label Q C)

/-- How a call has ended. -/
def System.outcome (s : System Db W L E C Q R) (k : Nat) : Option (Outcome E R) :=
  (s.calls[k]?).bind fun call =>
    match call.status with
    | .finished o => some o
    | .running _ => none

namespace Sessions

def setStage (s : Sessions Db W L E C Q R A S F) (i : Nat) (stage : Stage S F R) : Sessions Db W L E C Q R A S F :=
  { s with clients := s.clients.modify i fun client => { client with stage } }

def step [DecidableEq L] (G : Engine Db W E) (program : Q → Program Db W L E C R) (B : Behaviour E Q R A S F Y)
    (s : Sessions Db W L E C Q R A S F) : Move A Q C F Y → Option (Sessions Db W L E C Q R A S F)
  | .request a => some { s with clients := s.clients ++ [⟨a, .ready (B.start a)⟩] }
  | .transact i =>
      match s.clients[i]? with
      | some ⟨_, .ready p⟩ =>
          (B.transaction p).bind fun (q, next) => (s.system.step G program (.begin q)).map fun system =>
            { s with system }.setStage i (.waiting s.system.calls.length next)
      | _ => none
  | .resume i lost =>
      match s.clients[i]? with
      | some ⟨_, .waiting k next⟩ =>
          (s.system.outcome k).bind fun o => (B.received o lost).map fun r => s.setStage i (.ready (next r))
      | _ => none
  | .answer i y =>
      match s.clients[i]? with
      | some ⟨_, .ready p⟩ => (B.answer p y).map fun p' => s.setStage i (.ready p')
      | _ => none
  | .system l => if l.begins.isEmpty then (s.system.step G program l).map fun system => { s with system } else none

def run [DecidableEq L] (G : Engine Db W E) (program : Q → Program Db W L E C R) (B : Behaviour E Q R A S F Y) :
    Sessions Db W L E C Q R A S F → List (Move A Q C F Y) → Option (Sessions Db W L E C Q R A S F)
  | s, [] => some s
  | s, m :: ms => (s.step G program B m).bind fun s' => run G program B s' ms

end Sessions

/-! ## The moves of one owner -/

/-- Whose the clients are, and the calls. -/
structure Owners (T : Type) where
  clients : List T
  calls : List T

section Only
variable [DecidableEq T] (owner : A → T) (t : T)

def Owners.after (o : Owners T) : Move A Q C F Y → Owners T
  | .request a => { o with clients := o.clients ++ [owner a] }
  | .transact i => { o with calls := o.calls ++ (o.clients[i]?).toList }
  | .resume _ _ | .answer _ _ | .system _ => o

/-- The move in the run of the owner's clients; clients and calls have other numbers there. -/
def Move.only (o : Owners T) : Move A Q C F Y → Option (Move A Q C F Y)
  | .request a => if owner a = t then some (.request a) else none
  | .transact i => if o.clients[i]? = some t then some (.transact (Shares.rank t o.clients i)) else none
  | .resume i lost => if o.clients[i]? = some t then some (.resume (Shares.rank t o.clients i) lost) else none
  | .answer i y => if o.clients[i]? = some t then some (.answer (Shares.rank t o.clients i) y) else none
  | .system l =>
      match l.call with
      | none => some (.system l)
      | some k => if o.calls[k]? = some t then some (.system (l.move (Shares.rank t o.calls k))) else none

/-- The run without the clients of the others. -/
def only : Owners T → List (Move A Q C F Y) → List (Move A Q C F Y)
  | _, [] => []
  | o, m :: ms => (m.only owner t o).toList ++ only (o.after owner m) ms

/-- The owners after a run. -/
def Owners.afterAll (o : Owners T) (ms : List (Move A Q C F Y)) : Owners T := ms.foldl (Owners.after owner) o

/-- The choices of a run, each with the owner of its call. -/
def choices : Owners T → List (Move A Q C F Y) → List (T × C)
  | _, [] => []
  | o, m :: ms =>
      (match m with
        | .system (.exec k c) => (o.calls[k]?.map fun t => (t, c)).toList
        | _ => []) ++ choices (o.after owner m) ms

/-- Every choice is made for the owner of its call. -/
def Supplied {G : Engine Db W E} (D : Division G C T) : Owners T → List (Move A Q C F Y) → Prop
  | _, [] => True
  | o, m :: ms => (∀ l, m = .system l → System.Supplied D o.calls l) ∧ Supplied D (o.after owner m) ms

omit [DecidableEq T] in
theorem supplied_append {G : Engine Db W E} {D : Division G C T} {o : Owners T} {ms ms' : List (Move A Q C F Y)}
    (h : Supplied owner D o (ms ++ ms')) : Supplied owner D o ms ∧ Supplied owner D (o.afterAll owner ms) ms' := by
  induction ms generalizing o with
  | nil => exact ⟨trivial, h⟩
  | cons m ms ih =>
      obtain ⟨hms, hms'⟩ := ih h.2
      exact ⟨⟨h.1, hms⟩, hms'⟩

omit [DecidableEq T] in
theorem supplied_of_choices {G : Engine Db W E} {D : Division G C T} {o : Owners T} {ms : List (Move A Q C F Y)}
    (h : ∀ p ∈ choices owner o ms, D.supplies p.1 p.2) : Supplied owner D o ms := by
  induction ms generalizing o with
  | nil => trivial
  | cons m ms ih =>
      refine ⟨fun l hl k c t hlabel hk => ?_, ih fun p hp => h p (List.mem_append_right _ hp)⟩
      subst hl hlabel
      exact h (t, c) (List.mem_append_left _ (by simp [hk]))

end Only

/-! ## The system of one owner -/

def Stage.move (f : Nat → Nat) : Stage S F R → Stage S F R
  | .ready p => .ready p
  | .waiting k next => .waiting (f k) next

def Client.move (f : Nat → Nat) (client : Client A S F R) : Client A S F R := { client with stage := client.stage.move f }

/-- Clients begin transactions of their own only. `Of t p` : `p` is where a client of `t` may be. -/
structure Behaviour.Loyal (B : Behaviour E Q R A S F Y) (owner : A → T) (callOwner : Q → T) (Of : T → S → Prop) : Prop where
  start : ∀ a, Of (owner a) (B.start a)
  transaction : ∀ {t p q next}, Of t p → B.transaction p = some (q, next) → callOwner q = t ∧ ∀ r, Of t (next r)
  answer : ∀ {t p y p'}, Of t p → B.answer p y = some p' → Of t p'

def Stage.Belongs (Of : T → S → Prop) (calls : List T) (t : T) : Stage S F R → Prop
  | .ready p => Of t p
  | .waiting k next => calls[k]? = some t ∧ ∀ r, Of t (next r)

theorem Stage.Belongs.later {Of : T → S → Prop} {calls : List T} {t : T} {stage : Stage S F R}
    (h : stage.Belongs Of calls t) (later : List T) : stage.Belongs Of (calls ++ later) t := by
  cases stage with
  | ready p => exact h
  | waiting k next =>
      have hlt := (List.getElem?_eq_some_iff.mp h.1).1
      exact ⟨(List.getElem?_append_left hlt).trans h.1, h.2⟩

namespace Sessions
variable [DecidableEq T] (owner : A → T) (callOwner : Q → T)

abbrev ownerOf (client : Client A S F R) : T := owner client.request

def owners (s : Sessions Db W L E C Q R A S F) : Owners T where
  clients := s.clients.map (ownerOf owner)
  calls := s.system.owners callOwner

/-- The owner's rows, calls and clients. -/
def share {G : Engine Db W E} (D : Division G C T) (t : T) (s : Sessions Db W L E C Q R A S F) :
    Sessions Db W L E C Q R A S F where
  system := s.system.share callOwner D t
  clients := (Shares.owned (ownerOf owner) t s.clients).map
    (Client.move (Shares.rank t (s.system.owners callOwner)))

/-- All clients are where their owners' clients may be, and wait for calls of their own. -/
structure Isolated {G : Engine Db W E} (D : Division G C T) (Of : T → S → Prop) (s : Sessions Db W L E C Q R A S F) :
    Prop where
  system : s.system.Isolated callOwner D
  clients : ∀ {i : Nat} {client : Client A S F R}, s.clients[i]? = some client →
    client.stage.Belongs Of (s.system.owners callOwner) (owner client.request)

variable {owner callOwner} {G : Engine Db W E} {D : Division G C T} {Of : T → S → Prop} {t : T}
  {s s' : Sessions Db W L E C Q R A S F} {i : Nat} {client : Client A S F R}

theorem share_get (hget : s.clients[i]? = some client) (ht : owner client.request = t) :
    (s.share owner callOwner D t).clients[Shares.rank t (s.owners owner callOwner).clients i]? =
      some (client.move (Shares.rank t (s.system.owners callOwner))) := by
  have hown : (Shares.owned (ownerOf owner) t s.clients)[Shares.rank t (s.owners owner callOwner).clients i]? =
      some client := Shares.getElem?_owned hget ht
  show ((Shares.owned (ownerOf owner) t s.clients).map _)[_]? = _
  rw [List.getElem?_map, hown]
  rfl

theorem share_setStage_own (hget : s.clients[i]? = some client) (ht : owner client.request = t) (stage : Stage S F R) :
    (s.setStage i stage).share owner callOwner D t =
      (s.share owner callOwner D t).setStage (Shares.rank t (s.owners owner callOwner).clients i)
        (stage.move (Shares.rank t (s.system.owners callOwner))) := by
  have hclients : Shares.owned (ownerOf owner) t (s.setStage i stage).clients =
      (Shares.owned (ownerOf owner) t s.clients).modify (Shares.rank t (s.owners owner callOwner).clients i) fun client =>
        { client with stage } := by
    unfold setStage
    exact Shares.modify_owned (by exact fun _ => rfl) hget ht
  unfold share
  rw [hclients]
  unfold setStage
  congr 1
  exact Shares.map_modify (by exact fun _ => rfl) _ _

theorem share_setStage_other (hget : s.clients[i]? = some client) (ht : owner client.request ≠ t) (stage : Stage S F R) :
    (s.setStage i stage).share owner callOwner D t = s.share owner callOwner D t := by
  have hclients : Shares.owned (ownerOf owner) t (s.setStage i stage).clients = Shares.owned (ownerOf owner) t s.clients := by
    unfold setStage
    exact Shares.modify_others (by exact fun _ => rfl) hget ht
  unfold share
  rw [hclients]
  rfl

/-- Calls that are added do not move the calls that clients wait for. -/
theorem share_system (hs : s.Isolated owner callOwner D Of) {system : System Db W L E C Q R} {later : List T}
    (howners : system.owners callOwner = s.system.owners callOwner ++ later) :
    ({ s with system } : Sessions Db W L E C Q R A S F).share owner callOwner D t =
      { s.share owner callOwner D t with system := system.share callOwner D t } := by
  unfold share
  congr 1
  refine List.map_congr_left fun client hclient => ?_
  obtain ⟨i, hget⟩ := List.mem_iff_getElem?.mp (Shares.mem_owned.mp hclient).1
  obtain ⟨a, stage⟩ := client
  cases stage with
  | ready p => rfl
  | waiting k next =>
      have hlt := (List.getElem?_eq_some_iff.mp (hs.clients hget).1).1
      simp only [Client.move, Stage.move]
      rw [howners, Shares.rank_append (Nat.le_of_lt hlt)]

theorem share_outcome {k : Nat} (hk : (s.system.owners callOwner)[k]? = some t) :
    (s.system.share callOwner D t).outcome (Shares.rank t (s.system.owners callOwner) k) = s.system.outcome k := by
  rw [System.owners, List.getElem?_map, Option.map_eq_some_iff] at hk
  obtain ⟨call, hcall, ht⟩ := hk
  have hown : (Shares.owned (System.ownerOf callOwner) t s.system.calls)[Shares.rank t (s.system.owners callOwner) k]? =
      some call := Shares.getElem?_owned hcall ht
  show (((Shares.owned (System.ownerOf callOwner) t s.system.calls).map (Call.share D t))[_]?).bind _ = _
  rw [List.getElem?_map, hown, System.outcome, hcall]
  rfl

section Steps
variable [DecidableEq L] {program : Q → Program Db W L E C R} {B : Behaviour E Q R A S F Y} {m : Move A Q C F Y}

theorem only_own {o : Owners T} {i : Nat} (hi : o.clients[i]? = some t) :
    ((Move.transact i : Move A Q C F Y).only owner t o = some (.transact (Shares.rank t o.clients i))) ∧
      (∀ lost, (Move.resume i lost : Move A Q C F Y).only owner t o = some (.resume (Shares.rank t o.clients i) lost)) ∧
      ∀ y, (Move.answer i y : Move A Q C F Y).only owner t o = some (.answer (Shares.rank t o.clients i) y) := by
  simp only [Move.only, if_pos hi, implies_true, and_self]

theorem only_other {o : Owners T} {i : Nat} (hi : o.clients[i]? ≠ some t) :
    ((Move.transact i : Move A Q C F Y).only owner t o = none) ∧
      (∀ lost, (Move.resume i lost : Move A Q C F Y).only owner t o = none) ∧
      ∀ y, (Move.answer i y : Move A Q C F Y).only owner t o = none := by
  simp only [Move.only, if_neg hi, implies_true, and_self]

/-- A move of the owner is made without the others, too, and a move of another is not seen. -/
theorem share_of_step (hloyal : B.Loyal owner callOwner Of) (hs : s.Isolated owner callOwner D Of)
    (hsupplied : ∀ l, m = .system l → System.Supplied D (s.owners owner callOwner).calls l)
    (h : s.step G program B m = some s') :
    run G program B (s.share owner callOwner D t) (m.only owner t (s.owners owner callOwner)).toList =
      some (s'.share owner callOwner D t) := by
  have hclient {i : Nat} {client : Client A S F R} (hget : s.clients[i]? = some client) :
      (s.owners owner callOwner).clients[i]? = some (owner client.request) := by
    show (s.clients.map (ownerOf owner))[i]? = _
    rw [List.getElem?_map, hget]
    rfl
  have hother {i : Nat} {client : Client A S F R} (hget : s.clients[i]? = some client) (ha : owner client.request ≠ t) :
      (s.owners owner callOwner).clients[i]? ≠ some t := by
    rw [hclient hget]
    exact fun heq => ha (Option.some.inj heq)
  have hown {i : Nat} {client : Client A S F R} (hget : s.clients[i]? = some client) (ha : owner client.request = t) :
      (s.share owner callOwner D t).clients[Shares.rank t (s.owners owner callOwner).clients i]? =
        some (client.move (Shares.rank t (s.system.owners callOwner))) := share_get hget ha
  cases m with
  | request a =>
      cases h
      by_cases ha : owner a = t
      · have hnew : Shares.owned (ownerOf owner) t [(⟨a, .ready (B.start a)⟩ : Client A S F R)] =
            [⟨a, .ready (B.start a)⟩] := Shares.owned_own (by simpa using ha)
        simp only [Move.only, if_pos ha, Option.toList_some, run, step, Option.bind_some, share, Shares.owned_append, hnew,
          List.map_append]
        rfl
      · have hnew : Shares.owned (ownerOf owner) t [(⟨a, .ready (B.start a)⟩ : Client A S F R)] = [] :=
          Shares.owned_other (by simpa using ha)
        simp only [Move.only, if_neg ha, Option.toList_none, run, share, Shares.owned_append, hnew, List.append_nil]
  | transact i =>
      simp only [step] at h
      split at h
      · next a p hget =>
        obtain ⟨⟨q, next⟩, hp, h⟩ := Option.bind_eq_some_iff.mp h
        obtain ⟨system, hstep, rfl⟩ := Option.map_eq_some_iff.mp h
        have hq : callOwner q = owner a := (hloyal.transaction (hs.clients hget) hp).1
        have hsystem := share_system (t := t) hs (System.owners_of_step hstep)
        by_cases ha : owner a = t
        · have hshare : (s.share owner callOwner D t).system.step G program (.begin q) =
              some (system.share callOwner D t) := System.share_begin_own (hq.trans ha) hstep
          have hplace : Shares.rank t (system.owners callOwner) s.system.calls.length =
              (s.share owner callOwner D t).system.calls.length := by
            have hlen : s.system.calls.length ≤ (s.system.owners callOwner).length :=
              Nat.le_of_eq (List.length_map (System.ownerOf callOwner)).symm
            rw [System.owners_of_step hstep, Shares.rank_append hlen]
            exact (Shares.length_owned.symm.trans (List.length_map _).symm)
          rw [(only_own ((hclient hget).trans (congrArg some ha))).1,
            share_setStage_own (s := { s with system }) hget ha, hsystem]
          simp only [Option.toList_some, run, step, hown hget ha, Client.move, Stage.move, hp, Option.bind_some, hshare,
            Option.map_some, hplace]
          rfl
        · have hshare := System.share_begin_other (D := D) (t := t) (hq.trans_ne ha) hstep
          rw [(only_other (hother hget ha)).1, share_setStage_other (s := { s with system }) hget ha, hsystem, hshare]
          rfl
      · cases h
  | resume i lost =>
      simp only [step] at h
      split at h
      · next a k next hget =>
        obtain ⟨o, ho, h⟩ := Option.bind_eq_some_iff.mp h
        obtain ⟨r, hr, rfl⟩ := Option.map_eq_some_iff.mp h
        by_cases ha : owner a = t
        · have hk : (s.system.owners callOwner)[k]? = some t := (hs.clients hget).1.trans (congrArg some ha)
          have ho' : (s.share owner callOwner D t).system.outcome (Shares.rank t (s.system.owners callOwner) k) = some o :=
            (share_outcome hk).trans ho
          rw [(only_own ((hclient hget).trans (congrArg some ha))).2.1, share_setStage_own hget ha]
          simp only [Option.toList_some, run, step, hown hget ha, Client.move, Stage.move, ho', Option.bind_some, hr,
            Option.map_some]
        · rw [(only_other (hother hget ha)).2.1, share_setStage_other hget ha]
          rfl
      · cases h
  | answer i y =>
      simp only [step] at h
      split at h
      · next a p hget =>
        obtain ⟨p', hp', rfl⟩ := Option.map_eq_some_iff.mp h
        by_cases ha : owner a = t
        · rw [(only_own ((hclient hget).trans (congrArg some ha))).2.2, share_setStage_own hget ha]
          simp only [Option.toList_some, run, step, hown hget ha, Client.move, Stage.move, Option.bind_some, hp',
            Option.map_some]
        · rw [(only_other (hother hget ha)).2.2, share_setStage_other hget ha]
          rfl
      · cases h
  | system l =>
      simp only [step] at h
      split at h
      · next hbegins =>
        obtain ⟨system, hstep, rfl⟩ := Option.map_eq_some_iff.mp h
        have howners : system.owners callOwner = s.system.owners callOwner ++ [] := by
          rw [System.owners_of_step hstep, List.isEmpty_iff.mp hbegins, List.map_nil]
        rw [share_system hs howners]
        cases hl : l.call with
        | none =>
            have htick : (s.share owner callOwner D t).system.step G program l = some (system.share callOwner D t) := by
              cases l with
              | tick d =>
                  cases hstep
                  rfl
              | begin q => cases hbegins
              | exec _ _ | prepare _ | commit _ | rollback _ | abort _ => cases hl
            simp only [Move.only, hl, Option.toList_some, run, step, if_pos hbegins, htick, Option.map_some, Option.bind_some]
        | some k =>
            obtain ⟨u, hk⟩ := System.owner_of_step hl hstep
            by_cases hu : u = t
            · subst hu
              have hshare : (s.share owner callOwner D u).system.step G program
                  (l.move (Shares.rank u (s.owners owner callOwner).calls k)) = some (system.share callOwner D u) :=
                System.share_of_step hs.system (hsupplied l rfl) hl hk hstep
              have hk' : (s.owners owner callOwner).calls[k]? = some u := hk
              have hbegins' : (l.move (Shares.rank u (s.owners owner callOwner).calls k)).begins.isEmpty = true := by
                rwa [Label.begins_move]
              simp only [Move.only, hl, if_pos hk', Option.toList_some, run, step, if_pos hbegins']
              rw [hshare]
              rfl
            · have hne : (s.owners owner callOwner).calls[k]? ≠ some t := by
                show (s.system.owners callOwner)[k]? ≠ _
                rw [hk]
                exact fun heq => hu (Option.some.inj heq)
              simp only [Move.only, hl, if_neg hne, Option.toList_none, run]
              rw [System.same_of_step hs.system hl hk hu hstep]
              rfl
      · cases h

omit [DecidableEq T] [DecidableEq L] in
theorem Isolated.init (hclients : s.clients = []) (hsystem : s.system.Isolated callOwner D) :
    s.Isolated owner callOwner D Of where
  system := hsystem
  clients hget := by simp [hclients] at hget

omit [DecidableEq T] [DecidableEq L] in
theorem Isolated.setStage (hs : s.Isolated owner callOwner D Of) (hget : s.clients[i]? = some client) {stage : Stage S F R}
    (hstage : stage.Belongs Of (s.system.owners callOwner) (owner client.request)) :
    (s.setStage i stage).Isolated owner callOwner D Of where
  system := hs.system
  clients := by
    intro u client' hget'
    unfold Sessions.setStage at hget'
    rw [List.getElem?_modify] at hget'
    obtain ⟨client₀, hget₀, heq⟩ := Option.map_eq_some_iff.mp hget'
    split at heq
    · next hu =>
      subst hu
      obtain rfl := Option.some.inj (hget.symm.trans hget₀)
      rw [← heq]
      exact hstage
    · rw [← heq]
      exact hs.clients hget₀

omit [DecidableEq T] [DecidableEq L] in
theorem Isolated.system_later (hs : s.Isolated owner callOwner D Of) {system : System Db W L E C Q R}
    (hsystem : system.Isolated callOwner D) {later : List T}
    (howners : system.owners callOwner = s.system.owners callOwner ++ later) :
    ({ s with system } : Sessions Db W L E C Q R A S F).Isolated owner callOwner D Of where
  system := hsystem
  clients hget := by
    rw [howners]
    exact (hs.clients hget).later later

omit [DecidableEq T] in
theorem Isolated.step (hprogram : ∀ q, (program q).Confined D (callOwner q) fun _ => True)
    (hloyal : B.Loyal owner callOwner Of) (hs : s.Isolated owner callOwner D Of)
    (hsupplied : ∀ l, m = .system l → System.Supplied D (s.system.owners callOwner) l)
    (h : s.step G program B m = some s') : s'.Isolated owner callOwner D Of := by
  cases m with
  | request a =>
      cases h
      refine ⟨hs.system, fun {i client} hget => ?_⟩
      rw [List.getElem?_append] at hget
      split at hget
      · exact hs.clients hget
      · rw [List.getElem?_singleton] at hget
        split at hget
        · cases hget
          exact hloyal.start a
        · cases hget
  | transact i =>
      simp only [Sessions.step] at h
      split at h
      · next a p hget =>
        obtain ⟨⟨q, next⟩, hp, h⟩ := Option.bind_eq_some_iff.mp h
        obtain ⟨system, hstep, rfl⟩ := Option.map_eq_some_iff.mp h
        obtain ⟨hq, hnext⟩ := hloyal.transaction (hs.clients hget) hp
        have hsystem := hs.system.step hprogram (fun _ _ _ hl => by cases hl) hstep
        have howners : system.owners callOwner = s.system.owners callOwner ++ [callOwner q] :=
          System.owners_of_step hstep
        refine (hs.system_later hsystem howners).setStage hget ⟨?_, hnext⟩
        have hlen : (s.system.owners callOwner).length = s.system.calls.length := List.length_map _
        show (system.owners callOwner)[s.system.calls.length]? = some (owner a)
        rw [howners, ← hlen, List.getElem?_concat_length, hq]
      · cases h
  | resume i lost =>
      simp only [Sessions.step] at h
      split at h
      · next a k next hget =>
        obtain ⟨o, ho, h⟩ := Option.bind_eq_some_iff.mp h
        obtain ⟨r, hr, rfl⟩ := Option.map_eq_some_iff.mp h
        exact hs.setStage hget ((hs.clients hget).2 r)
      · cases h
  | answer i y =>
      simp only [Sessions.step] at h
      split at h
      · next a p hget =>
        obtain ⟨p', hp', rfl⟩ := Option.map_eq_some_iff.mp h
        exact hs.setStage hget (hloyal.answer (hs.clients hget) hp')
      · cases h
  | system l =>
      simp only [Sessions.step] at h
      split at h
      · next hbegins =>
        obtain ⟨system, hstep, rfl⟩ := Option.map_eq_some_iff.mp h
        exact hs.system_later (hs.system.step hprogram (hsupplied l rfl) hstep) (System.owners_of_step hstep)
      · cases h

omit [DecidableEq T] [DecidableEq L] in
theorem owners_setStage (s : Sessions Db W L E C Q R A S F) (i : Nat) (stage : Stage S F R) :
    (s.setStage i stage).owners owner callOwner = s.owners owner callOwner := by
  have hclients : (s.setStage i stage).clients.map (ownerOf owner) = s.clients.map (ownerOf owner) := by
    unfold setStage
    exact Shares.map_owner_modify (by exact fun _ => rfl) s.clients i
  exact congrArg (Owners.mk · (s.system.owners callOwner)) hclients

omit [DecidableEq T] in
/-- The moves say whose the new clients and calls are. -/
theorem owners_of_step (hloyal : B.Loyal owner callOwner Of) (hs : s.Isolated owner callOwner D Of)
    (h : s.step G program B m = some s') :
    s'.owners owner callOwner = (s.owners owner callOwner).after owner m := by
  cases m with
  | request a =>
      cases h
      simp only [owners, Owners.after, List.map_append, List.map_cons, List.map_nil]
  | transact i =>
      simp only [step] at h
      split at h
      · next a p hget =>
        obtain ⟨⟨q, next⟩, hp, h⟩ := Option.bind_eq_some_iff.mp h
        obtain ⟨system, hstep, rfl⟩ := Option.map_eq_some_iff.mp h
        have hq := (hloyal.transaction (hs.clients hget) hp).1
        have howners : system.owners callOwner = s.system.owners callOwner ++ [callOwner q] :=
          System.owners_of_step hstep
        rw [owners_setStage]
        simp only [owners, Owners.after, howners, List.getElem?_map, hget, Option.map_some, Option.toList_some, hq]
      · cases h
  | resume i lost =>
      simp only [step] at h
      split at h
      · next a k next hget =>
        obtain ⟨o, ho, h⟩ := Option.bind_eq_some_iff.mp h
        obtain ⟨r, hr, rfl⟩ := Option.map_eq_some_iff.mp h
        exact owners_setStage s i _
      · cases h
  | answer i y =>
      simp only [step] at h
      split at h
      · next a p hget =>
        obtain ⟨p', hp', rfl⟩ := Option.map_eq_some_iff.mp h
        exact owners_setStage s i _
      · cases h
  | system l =>
      simp only [step] at h
      split at h
      · next hbegins =>
        obtain ⟨system, hstep, rfl⟩ := Option.map_eq_some_iff.mp h
        have howners : system.owners callOwner = s.system.owners callOwner := by
          rw [System.owners_of_step hstep, List.isEmpty_iff.mp hbegins, List.map_nil, List.append_nil]
        simp only [owners, Owners.after, howners]
      · cases h

omit [DecidableEq T] in
theorem run_append (s : Sessions Db W L E C Q R A S F) (ms ms' : List (Move A Q C F Y)) :
    run G program B s (ms ++ ms') = (run G program B s ms).bind fun s' => run G program B s' ms' := by
  induction ms generalizing s with
  | nil => rfl
  | cons m ms ih =>
      rw [List.cons_append, run, run, Option.bind_assoc]
      exact congrArg _ (funext ih)

omit [DecidableEq T] in
theorem Isolated.run (hprogram : ∀ q, (program q).Confined D (callOwner q) fun _ => True)
    (hloyal : B.Loyal owner callOwner Of) {ms : List (Move A Q C F Y)} (hs : s.Isolated owner callOwner D Of)
    (hsupplied : Supplied owner D (s.owners owner callOwner) ms) (h : Sessions.run G program B s ms = some s') :
    s'.Isolated owner callOwner D Of ∧ s'.owners owner callOwner = (s.owners owner callOwner).afterAll owner ms := by
  induction ms generalizing s with
  | nil =>
      cases h
      exact ⟨hs, rfl⟩
  | cons m ms ih =>
      obtain ⟨s₁, hstep, hrest⟩ := Option.bind_eq_some_iff.mp h
      have howners := owners_of_step hloyal hs hstep
      obtain ⟨hs', hafter⟩ := ih (hs.step hprogram hloyal hsupplied.1 hstep) (howners ▸ hsupplied.2) hrest
      exact ⟨hs', hafter.trans (congrArg (Owners.afterAll owner · ms) howners)⟩

/-- The clients of one owner, by themselves, take the owner's share to where the whole run takes it. -/
theorem run_only (hprogram : ∀ q, (program q).Confined D (callOwner q) fun _ => True)
    (hloyal : B.Loyal owner callOwner Of) {ms : List (Move A Q C F Y)} (hs : s.Isolated owner callOwner D Of)
    (hsupplied : Supplied owner D (s.owners owner callOwner) ms) (h : run G program B s ms = some s') :
    run G program B (s.share owner callOwner D t) (only owner t (s.owners owner callOwner) ms) =
      some (s'.share owner callOwner D t) := by
  induction ms generalizing s with
  | nil =>
      cases h
      rfl
  | cons m ms ih =>
      obtain ⟨s₁, hstep, hrest⟩ := Option.bind_eq_some_iff.mp h
      have hs₁ := hs.step hprogram hloyal hsupplied.1 hstep
      have howners := owners_of_step hloyal hs hstep
      rw [only, run_append, share_of_step hloyal hs hsupplied.1 hstep, Option.bind_some, ← howners]
      exact ih hs₁ (howners ▸ hsupplied.2) hrest

end Steps

end Sessions

end ReadCommitted
