import Mathlib.Data.List.Basic

/-!
# A queue of jobs

Jobs with ids, each handed to one worker at a time under a token. A worker that stops renewing its token loses the job,
whether it has died or not.

* `Queue.add` : ignored where the id exists, also that of a job that is kept after its end;
* `deliver`, `complete`, `retry`, `fail` : for a worker, which names its token; `promote`, `stall` : by the queue itself;
* `mem_*` : what becomes of a job that is waiting, delayed or active; `Keeps`, `keeps_*` : no id is new.
-/

namespace JobQueue

inductive JobState where
  | waiting
  | delayed
  | active (token : Nat)
  deriving DecidableEq

structure Job (I D : Type) where
  id : I
  data : D
  attemptsMade : Nat
  stalledCount : Nat
  state : JobState
  deriving DecidableEq

/-- How often a job is attempted, how often it may stall, and how many ended jobs are kept. -/
structure Policy where
  attempts : Nat
  maxStalledCount : Nat
  keepCompleted : Nat
  keepFailed : Nat

variable {I D : Type}

def Job.isActive (j : Job I D) : Bool :=
  match j.state with
  | .active _ => true
  | .waiting | .delayed => false

/-- The live jobs, and the kept ones that have ended, newest first. -/
structure Queue (I D : Type) where
  jobs : List (Job I D)
  completed : List (Job I D)
  failed : List (Job I D)
  deriving DecidableEq

namespace Queue

def empty : Queue I D := ⟨[], [], []⟩

/-- A job with this id is live or kept. -/
def has (q : Queue I D) (id : I) : Prop := ∃ j, (j ∈ q.jobs ∨ j ∈ q.completed ∨ j ∈ q.failed) ∧ j.id = id

instance [DecidableEq I] (q : Queue I D) (id : I) : Decidable (q.has id) :=
  decidable_of_iff (∃ j ∈ q.jobs ++ (q.completed ++ q.failed), j.id = id) (by simp [has])

def add [DecidableEq I] (q : Queue I D) (id : I) (data : D) : Queue I D :=
  if q.has id then q else { q with jobs := q.jobs ++ [⟨id, data, 0, 0, .waiting⟩] }

/-- A change of the live jobs that `p` holds of. -/
def change (q : Queue I D) (p : Job I D → Bool) (f : Job I D → Job I D) : Queue I D :=
  { q with jobs := q.jobs.map fun j => if p j then f j else j }

def waitingJob [DecidableEq I] (q : Queue I D) (id : I) : Option (Job I D) :=
  q.jobs.find? fun j => j.id = id && j.state = .waiting

/-- A waiting job goes to the worker `token`. -/
def deliver [DecidableEq I] [DecidableEq D] (q : Queue I D) (job : Job I D) (token : Nat) : Queue I D :=
  q.change (fun j => j = job) fun j => { j with state := .active token }

/-- The job that the worker `token` holds, unless it has lost it. -/
def heldBy (q : Queue I D) (token : Nat) : Option (Job I D) := q.jobs.find? fun j => j.state = .active token

/-- The jobs that the worker `token` does not hold. -/
def others (q : Queue I D) (token : Nat) : List (Job I D) := q.jobs.filter fun j => j.state ≠ .active token

def complete (π : Policy) (q : Queue I D) (token : Nat) : Queue I D where
  jobs := q.others token
  completed := ((q.heldBy token).toList ++ q.completed).take π.keepCompleted
  failed := q.failed

/-- An attempt has failed, and there is another one. -/
def retry (q : Queue I D) (token : Nat) : Queue I D :=
  q.change (fun j => j.state = .active token) fun j => { j with attemptsMade := j.attemptsMade + 1, state := .delayed }

/-- The last attempt has failed. -/
def fail (π : Policy) (q : Queue I D) (token : Nat) : Queue I D where
  jobs := q.others token
  completed := q.completed
  failed :=
    ((q.heldBy token).toList.map (fun j : Job I D => { j with attemptsMade := j.attemptsMade + 1 }) ++ q.failed).take
      π.keepFailed

/-- The delay of the jobs with this id is over. -/
def promote [DecidableEq I] (q : Queue I D) (id : I) : Queue I D :=
  q.change (fun j => j.id = id && j.state = .delayed) fun j => { j with state := .waiting }

def activeJob [DecidableEq I] (q : Queue I D) (id : I) : Option (Job I D) :=
  q.jobs.find? fun j => j.id = id && j.isActive

/-- The token of an active job has expired. -/
def stall [DecidableEq I] [DecidableEq D] (π : Policy) (q : Queue I D) (job : Job I D) : Queue I D :=
  if job.stalledCount < π.maxStalledCount then
    q.change (fun j => j = job) fun j => { j with stalledCount := j.stalledCount + 1, state := .waiting }
  else
    { q with
      jobs := q.jobs.filter fun j => j ≠ job
      failed := (job :: q.failed).take π.keepFailed }

/-! ## Live jobs -/

variable {q : Queue I D} {j job : Job I D} {token : Nat} {π : Policy} {id : I} {data : D}

theorem mem_others : j ∈ q.others token ↔ j ∈ q.jobs ∧ j.state ≠ .active token := by
  rw [others, List.mem_filter, decide_eq_true_iff]

theorem mem_change {p : Job I D → Bool} {f : Job I D → Job I D} (h : j ∈ q.jobs) (hp : p j = true) :
    f j ∈ (q.change p f).jobs := List.mem_map.mpr ⟨j, h, if_pos hp⟩

theorem mem_change_of_not {p : Job I D → Bool} {f : Job I D → Job I D} (h : j ∈ q.jobs) (hp : p j = false) :
    j ∈ (q.change p f).jobs := List.mem_map.mpr ⟨j, h, if_neg (by rw [hp]; exact Bool.false_ne_true)⟩

section
variable [DecidableEq I]

theorem mem_add (h : j ∈ q.jobs) : j ∈ (q.add id data).jobs := by
  unfold add
  split
  · exact h
  · exact List.mem_append_left _ h

theorem mem_add_new (h : ¬ q.has id) : ⟨id, data, 0, 0, .waiting⟩ ∈ (q.add id data).jobs := by
  rw [add, if_neg h]
  exact List.mem_append_right _ (List.mem_singleton_self _)

/-- A stall takes no other job away. -/
theorem mem_stall [DecidableEq D] (h : j ∈ q.jobs) (hne : j ≠ job) : j ∈ (q.stall π job).jobs := by
  unfold stall
  split
  · exact mem_change_of_not h (decide_eq_false hne)
  · exact List.mem_filter.mpr ⟨h, decide_eq_true hne⟩

end

/-! ## Ids -/

/-- No id is new. -/
def Keeps (q q' : Queue I D) : Prop := ∀ id, q'.has id → q.has id

theorem keeps_change {p : Job I D → Bool} {f : Job I D → Job I D} (hf : ∀ j, (f j).id = j.id) : Keeps q (q.change p f) := by
  rintro id ⟨j, hj | hj, rfl⟩
  · obtain ⟨j₀, hj₀, rfl⟩ := List.mem_map.mp hj
    refine ⟨j₀, Or.inl hj₀, ?_⟩
    split
    · exact (hf j₀).symm
    · rfl
  · exact ⟨j, Or.inr hj, rfl⟩

theorem mem_of_heldBy (h : j ∈ (q.heldBy token).toList) : j ∈ q.jobs :=
  List.mem_of_find?_eq_some (Option.mem_toList.mp h)

theorem keeps_complete : Keeps q (q.complete π token) := by
  rintro id ⟨j, hj | hj | hj, rfl⟩
  · exact ⟨j, Or.inl (mem_others.mp hj).1, rfl⟩
  · rcases List.mem_append.mp (List.mem_of_mem_take hj) with hj | hj
    · exact ⟨j, Or.inl (mem_of_heldBy hj), rfl⟩
    · exact ⟨j, Or.inr (Or.inl hj), rfl⟩
  · exact ⟨j, Or.inr (Or.inr hj), rfl⟩

theorem keeps_fail : Keeps q (q.fail π token) := by
  rintro id ⟨j, hj | hj | hj, rfl⟩
  · exact ⟨j, Or.inl (mem_others.mp hj).1, rfl⟩
  · exact ⟨j, Or.inr (Or.inl hj), rfl⟩
  · rcases List.mem_append.mp (List.mem_of_mem_take hj) with hj | hj
    · obtain ⟨j₀, hj₀, rfl⟩ := List.mem_map.mp hj
      exact ⟨j₀, Or.inl (mem_of_heldBy hj₀), rfl⟩
    · exact ⟨j, Or.inr (Or.inr hj), rfl⟩

section
variable [DecidableEq I]

theorem keeps_stall [DecidableEq D] (h : job ∈ q.jobs) : Keeps q (q.stall π job) := by
  unfold stall
  split
  · exact keeps_change fun _ => rfl
  · rintro id ⟨j, hj | hj | hj, rfl⟩
    · exact ⟨j, Or.inl (List.mem_filter.mp hj).1, rfl⟩
    · exact ⟨j, Or.inr (Or.inl hj), rfl⟩
    · rcases List.mem_cons.mp (List.mem_of_mem_take hj) with rfl | hj
      · exact ⟨j, Or.inl h, rfl⟩
      · exact ⟨j, Or.inr (Or.inr hj), rfl⟩

/-- The only id that an addition brings. -/
theorem has_add {x : I} (h : (q.add id data).has x) : q.has x ∨ x = id := by
  unfold add at h
  split at h
  · exact Or.inl h
  · obtain ⟨j, hj | hj, rfl⟩ := h
    · rcases List.mem_append.mp hj with hj | hj
      · exact Or.inl ⟨j, Or.inl hj, rfl⟩
      · rw [List.mem_singleton.mp hj]
        exact Or.inr rfl
    · exact Or.inl ⟨j, Or.inr hj, rfl⟩

end

end Queue

end JobQueue
