import Mathlib.Data.List.Chain
import Mathlib.Data.List.Count
import Mathlib.Data.List.Perm.Subperm
import Mathlib.Data.List.Range
import Mathlib.Logic.Function.Basic

/-!
# Counters that expire

A store counts calls under keys, and drops a counter a fixed time after its last increment.

* `increment` : the counter of a key, one higher, and its time again from now;
* `Call`, `answers` : a run of calls, in the order of their increments, and what each is answered;
* `answers_filter` : the calls of one counter are answered as if there were no others;
* `Unlapsed` : no counter is dropped between two of its calls; `answered_le` : then a counter answers no more than
  `limit` calls with a number up to `limit`;
* `outcomes` : what a service makes of the answers; `outcomes_filter`, `passed_le` : the same of its calls;
* `answers_lapsed` : a counter that lapses starts again.
-/

namespace Counters

structure Counter where
  count : Nat
  expiresAt : Int

abbrev Store (κ : Type) := κ → Option Counter

def Store.empty {κ : Type} : Store κ := fun _ => none

/-- The count of a counter that is not dropped yet. -/
def Counter.live (c : Option Counter) (now : Int) : Nat := (c.filter fun c => now < c.expiresAt).elim 0 Counter.count

/-- What becomes of a call: an answer in time, an increment without an answer in time, or neither. -/
inductive Reply
  | inTime | late | failed
  deriving DecidableEq

/-- A call: what it asks for, the clock it reads, and the instant of its increment. -/
structure Call (ρ : Type) where
  request : ρ
  now : Int
  effect : Int
  reply : Reply

/-- A run of calls: an increment takes effect between the reading of the clock and `timeout` later, in this order. -/
structure Timely {ρ : Type} (timeout : Nat) (cs : List (Call ρ)) : Prop where
  within : ∀ c ∈ cs, c.now ≤ c.effect ∧ c.effect ≤ c.now + timeout
  ordered : cs.Pairwise fun c d => c.effect ≤ d.effect

section Runs

variable {κ ρ : Type} [DecidableEq κ] (key : Call ρ → κ) (ttl : Int)

/-- The counter after a call. -/
def increment (s : Store κ) (c : Call ρ) : Counter where
  count := Counter.live (s (key c)) c.effect + 1
  expiresAt := c.effect + ttl

def after (s : Store κ) (c : Call ρ) : Store κ :=
  if c.reply = .failed then s else Function.update s (key c) (some (increment key ttl s c))

def answer (s : Store κ) (c : Call ρ) : Option Nat :=
  if c.reply = .inTime then some (increment key ttl s c).count else none

/-- The calls of a run with their answers. -/
def answers : Store κ → List (Call ρ) → List (Call ρ × Option Nat)
  | _, [] => []
  | s, c :: cs => (c, answer key ttl s c) :: answers (after key ttl s c) cs

/-- A run with what is made of every answer: an error, or none where the call passes. -/
def outcomes {ε : Type} (respond : Call ρ → Option Nat → Option ε) (cs : List (Call ρ)) : List (Call ρ × Option ε) :=
  (answers key ttl Store.empty cs).map fun a => (a.1, respond a.1 a.2)

/-- The calls that increment a counter. -/
def increments (k : κ) (cs : List (Call ρ)) : List (Call ρ) := cs.filter fun c => c.reply ≠ .failed ∧ key c = k

/-- Every increment of a counter takes effect before the one before it expires. -/
def Unlapsed (cs : List (Call ρ)) : Prop :=
  ∀ k, (increments key k cs).IsChain fun c d => d.effect < c.effect + ttl

variable {key ttl}

/-- A call is answered where it is answered in time, and with a number from 1 on. -/
theorem mem_answers {s : Store κ} {cs : List (Call ρ)} {a : Call ρ × Option Nat} (h : a ∈ answers key ttl s cs) :
    a.1 ∈ cs ∧ if a.1.reply = .inTime then ∃ n, a.2 = some (n + 1) else a.2 = none := by
  induction cs generalizing s with
  | nil => cases h
  | cons c cs ih =>
      rw [answers, List.mem_cons] at h
      rcases h with rfl | h
      · refine ⟨List.mem_cons_self, ?_⟩
        dsimp only
        unfold answer
        split
        · exact ⟨_, rfl⟩
        · rfl
      · exact ⟨List.mem_cons_of_mem c (ih h).1, (ih h).2⟩

theorem after_of_ne {s : Store κ} {c : Call ρ} {k : κ} (h : key c ≠ k) : after key ttl s c k = s k := by
  unfold after
  split
  · rfl
  · exact Function.update_of_ne (Ne.symm h) _ _

theorem after_self {s : Store κ} {c : Call ρ} :
    after key ttl s c (key c) = if c.reply = .failed then s (key c) else some (increment key ttl s c) := by
  unfold after
  split
  · rfl
  · exact Function.update_self _ _ _

/-- Only its own counter matters to a call. -/
theorem answer_congr {s s' : Store κ} {c : Call ρ} (h : s (key c) = s' (key c)) :
    answer key ttl s c = answer key ttl s' c ∧ after key ttl s c (key c) = after key ttl s' c (key c) := by
  have hsame : increment key ttl s c = increment key ttl s' c := by rw [increment, increment, h]
  rw [answer, answer, after_self, after_self, hsame, h]
  exact ⟨rfl, rfl⟩

/-- **The calls of one counter are answered as if there were no others.** -/
theorem answers_filter {s s' : Store κ} {k : κ} (h : s k = s' k) (cs : List (Call ρ)) :
    (answers key ttl s cs).filter (fun a => key a.1 = k) = answers key ttl s' (cs.filter fun c => key c = k) := by
  induction cs generalizing s s' with
  | nil => rfl
  | cons c cs ih =>
      rw [answers, List.filter_cons, List.filter_cons]
      by_cases hk : key c = k
      · subst hk
        obtain ⟨hanswer, hafter⟩ : answer key ttl s c = answer key ttl s' c ∧
          after key ttl s c (key c) = after key ttl s' c (key c) := answer_congr h
        rw [if_pos (by simp), if_pos (by simp), answers, hanswer, ih hafter]
      · rw [if_neg (by simpa using hk), if_neg (by simpa using hk), ih ((after_of_ne hk).trans h)]

/-- After an increment the counter has its number until it expires. -/
theorem live_after {s : Store κ} {c : Call ρ} (hc : c.reply ≠ .failed) {now : Int} (hnow : now < c.effect + ttl) :
    Counter.live (after key ttl s c (key c)) now = Counter.live (s (key c)) c.effect + 1 := by
  have hnow : now < (increment key ttl s c).expiresAt := hnow
  rw [after_self, if_neg hc, Counter.live, Option.filter_some, if_pos (decide_eq_true hnow)]
  rfl

/-- And then it has none. -/
theorem expired_after {s : Store κ} {c : Call ρ} (hc : c.reply ≠ .failed) {now : Int} (hnow : c.effect + ttl ≤ now) :
    Counter.live (after key ttl s c (key c)) now = 0 := by
  have hnow : ¬ now < (increment key ttl s c).expiresAt := Int.not_lt.mpr hnow
  rw [after_self, if_neg hc, Counter.live, Option.filter_some, if_neg (by simpa using hnow)]
  rfl

/-- The numbers that one counter answers go up, from the count that it has. -/
theorem numbers_increase {s : Store κ} {k : κ} {n : Nat} {cs : List (Call ρ)} (hkey : ∀ c ∈ cs, key c = k)
    (hlive : ∀ c ∈ (cs.filter fun c => c.reply ≠ .failed).head?, Counter.live (s k) c.effect = n)
    (hchain : (cs.filter fun c => c.reply ≠ .failed).IsChain fun c d => d.effect < c.effect + ttl) :
    ((answers key ttl s cs).filterMap Prod.snd).Pairwise (· < ·) ∧
      ∀ m ∈ (answers key ttl s cs).filterMap Prod.snd, n < m := by
  induction cs generalizing s n with
  | nil => exact ⟨List.Pairwise.nil, fun m hm => by cases hm⟩
  | cons c cs ih =>
      obtain ⟨hc, hrest⟩ := List.forall_mem_cons.mp hkey
      subst hc
      rw [List.filter_cons] at hlive hchain
      rw [answers, List.filterMap_cons]
      by_cases hreply : c.reply = .failed
      · have hnone : answer key ttl s c = none := if_neg (by rw [hreply]; decide)
        have hsame : after key ttl s c = s := if_pos hreply
        rw [if_neg (by simpa using hreply)] at hlive hchain
        rw [hnone, hsame]
        exact ih hrest hlive hchain
      · rw [if_pos (by simpa using hreply)] at hlive hchain
        have hn : Counter.live (s (key c)) c.effect = n := hlive c rfl
        obtain ⟨hnext, hchain⟩ := List.isChain_cons.mp hchain
        obtain ⟨hpairs, hall⟩ := ih (s := after key ttl s c) (n := n + 1) hrest
          (fun d hd => by rw [live_after hreply (hnext d hd), hn]) hchain
        have hlater : ∀ m ∈ (answers key ttl (after key ttl s c) cs).filterMap Prod.snd, n < m :=
          fun m hm => Nat.lt_of_succ_lt (hall m hm)
        by_cases hin : c.reply = .inTime
        · have hsome : answer key ttl s c = some (n + 1) := by rw [answer, if_pos hin, increment, hn]
          rw [hsome]
          exact ⟨List.pairwise_cons.mpr ⟨hall, hpairs⟩, List.forall_mem_cons.mpr ⟨Nat.lt_succ_self n, hlater⟩⟩
        · have hnone : answer key ttl s c = none := if_neg hin
          rw [hnone]
          exact ⟨hpairs, hlater⟩

/-- Numbers that go up from 1 to a limit are no more than the limit. -/
theorem length_le_of_increasing {ns : List Nat} {limit : Nat} (hpairs : ns.Pairwise (· < ·))
    (hrange : ∀ n ∈ ns, 0 < n ∧ n ≤ limit) : ns.length ≤ limit := by
  have hnodup : ns.Nodup := hpairs.imp Nat.ne_of_lt
  have hsub : ns ⊆ List.range' 1 limit := fun n hn => by
    rw [List.mem_range'_1]
    have := hrange n hn
    omega
  have hlength := (List.Nodup.subperm hnodup hsub).length_le
  rwa [List.length_range'] at hlength

/-- **A counter that does not lapse answers no more than `limit` calls with a number up to `limit`.** -/
theorem answered_le {cs : List (Call ρ)} (h : Unlapsed key ttl cs) (k : κ) (limit : Nat) :
    (answers key ttl Store.empty cs).countP (fun a => key a.1 = k ∧ a.2.any (· ≤ limit)) ≤ limit := by
  have hmine : (cs.filter fun c => key c = k).filter (fun c => c.reply ≠ .failed) = increments key k cs := by
    rw [List.filter_filter, increments]
    exact List.filter_congr fun c _ => by simp
  have hkey : ∀ c ∈ cs.filter fun c => key c = k, key c = k := fun c hc => of_decide_eq_true (List.mem_filter.mp hc).2
  obtain ⟨hpairs, hpos⟩ := numbers_increase (s := Store.empty) (n := 0) hkey (fun c _ => rfl) (hmine ▸ h k)
  have hcount : (answers key ttl Store.empty cs).countP (fun a => key a.1 = k ∧ a.2.any (· ≤ limit)) =
      (((answers key ttl Store.empty (cs.filter fun c => key c = k)).filterMap Prod.snd).filter (· ≤ limit)).length := by
    rw [← answers_filter (s := Store.empty) rfl, ← List.countP_eq_length_filter, List.countP_filterMap, List.countP_filter]
    refine List.countP_congr fun a _ => ?_
    cases a.2 <;> simp [and_comm]
  rw [hcount]
  refine length_le_of_increasing (hpairs.filter _) fun n hn => ?_
  obtain ⟨hmem, hle⟩ := List.mem_filter.mp hn
  exact ⟨hpos n hmem, by simpa using hle⟩

/-! ## Runs of a service -/

section Outcomes

variable {ε : Type} {respond : Call ρ → Option Nat → Option ε} {cs : List (Call ρ)}

theorem mem_outcomes {o : Call ρ × Option ε} (h : o ∈ outcomes key ttl respond cs) :
    o.1 ∈ cs ∧ ∃ count, o.2 = respond o.1 count := by
  obtain ⟨a, ha, rfl⟩ := List.mem_map.mp h
  exact ⟨(mem_answers ha).1, a.2, rfl⟩

theorem outcomes_filter (k : κ) :
    (outcomes key ttl respond cs).filter (fun o => key o.1 = k) =
      outcomes key ttl respond (cs.filter fun c => key c = k) := by
  rw [outcomes, outcomes, List.filter_map, ← answers_filter (s := Store.empty) rfl]
  rfl

/-- Where calls with a number over the limit do not pass, no more than the limit pass of one counter. -/
theorem passed_le [DecidableEq ε] {limit : Nat} (hrespond : ∀ c n, respond c (some n) = none → n ≤ limit)
    (h : Unlapsed key ttl cs) {k : κ} {p : Call ρ → Prop} [DecidablePred p] (hp : ∀ c, p c → key c = k) :
    (outcomes key ttl respond cs).countP (fun o => p o.1 ∧ o.1.reply = .inTime ∧ o.2 = none) ≤ limit := by
  refine le_trans ?_ (answered_le h k limit)
  rw [outcomes, List.countP_map]
  refine List.countP_mono_left fun a ha hpassed => ?_
  obtain ⟨hpa, hreply, hnone⟩ := of_decide_eq_true hpassed
  have hanswer := (mem_answers ha).2
  rw [if_pos hreply] at hanswer
  obtain ⟨n, hn⟩ := hanswer
  refine decide_eq_true ⟨hp _ hpa, ?_⟩
  dsimp only at hnone
  rw [hn] at hnone ⊢
  exact decide_eq_true (hrespond _ _ hnone)

end Outcomes

/-- No counter lapses where no two calls of one are too far apart. -/
theorem unlapsed_of_forall {cs : List (Call ρ)}
    (h : ∀ c ∈ cs, ∀ d ∈ cs, key c = key d → d.effect < c.effect + ttl) : Unlapsed key ttl cs := by
  intro k
  refine List.isChain_iff_forall_rel_of_append_cons_cons.mpr fun c d x y hsplit => ?_
  have hmem : ∀ e ∈ [c, d], e ∈ cs ∧ key e = k := by
    intro e he
    have hin : e ∈ increments key k cs := by
      rw [hsplit, List.mem_append]
      exact Or.inr (by rcases List.mem_pair.mp he with rfl | rfl <;> simp)
    obtain ⟨hcs, hp⟩ := List.mem_filter.mp hin
    exact ⟨hcs, (of_decide_eq_true hp).2⟩
  obtain ⟨hc, hck⟩ := hmem c (by simp)
  obtain ⟨hd, hdk⟩ := hmem d (by simp)
  exact h c hc d hd (hck.trans hdk.symm)

/-! ## Lapses -/

variable (key ttl) in
theorem length_answers (s : Store κ) (cs : List (Call ρ)) : (answers key ttl s cs).length = cs.length := by
  induction cs generalizing s with
  | nil => rfl
  | cons c cs ih => rw [answers, List.length_cons, List.length_cons, ih]

variable (key ttl) in
/-- Every call of a run has its outcome. -/
theorem map_fst_outcomes {ε : Type} (respond : Call ρ → Option Nat → Option ε) (cs : List (Call ρ)) :
    (outcomes key ttl respond cs).map Prod.fst = cs := by
  have hanswers : ∀ s, (answers key ttl s cs).map Prod.fst = cs := by
    induction cs with
    | nil => exact fun _ => rfl
    | cons c cs ih => exact fun s => congrArg (c :: ·) (ih _)
  unfold outcomes
  rw [List.map_map]
  exact hanswers Store.empty

/-- A counter that lapses starts again: a last call after many at one instant is answered as if it were the first. -/
theorem answers_lapsed {s : Store κ} {c d : Call ρ} {m n limit : Nat} (hkey : key d = key c) (hc : c.reply = .inTime)
    (hd : d.reply = .inTime) (httl : 0 < ttl) (hlapse : c.effect + ttl ≤ d.effect) (hlimit : 0 < limit)
    (hlive : Counter.live (s (key c)) c.effect = m) (hgone : Counter.live (s (key c)) d.effect = 0) (hle : m + n ≤ limit) :
    ∀ a ∈ answers key ttl s (List.replicate n c ++ [d]), a.2.any (· ≤ limit) = true := by
  induction n generalizing s m with
  | zero =>
      intro a ha
      obtain rfl : a = (d, answer key ttl s d) := List.mem_singleton.mp ha
      rw [answer, if_pos hd, increment, hkey, hgone]
      exact decide_eq_true hlimit
  | succ n ih =>
      have hreply : c.reply ≠ .failed := by
        rw [hc]
        decide
      rw [List.replicate_succ, List.cons_append, answers, List.forall_mem_cons]
      constructor
      · rw [answer, if_pos hc, increment, hlive]
        show decide (m + 1 ≤ limit) = true
        exact decide_eq_true (by omega)
      · refine ih (m := m + 1) ?_ (expired_after hreply hlapse) (by omega)
        rw [live_after hreply (by omega), hlive]

end Runs

end Counters
