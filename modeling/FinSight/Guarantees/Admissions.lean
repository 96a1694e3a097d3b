import FinSight.Lib.RateLimit

/-!
# Admissions of the rate limiter

* `InWindow` : the aligned windows; `window_eq_iff` : the index that the limiter computes;
* `admitted` : the requests of a window that are answered in time and let through; `Bounded` : no more than the limit;
* `bounded_of_unlapsed` : where no counter lapses; `bounded_of_prompt` : where increments take no time;
* `boundary` : a run over the end of a window, `not_bounded_boundary`;
* `rateLimit_bounded` : when the limiter bounds its admissions.
-/

namespace FinSight.RateLimiter

open Counters

variable (l : RateLimiter)

/-- The clock is in window `w`, in milliseconds. -/
def InWindow (w now : Int) : Prop := w * l.windowSec * 1000 ≤ now ∧ now < (w + 1) * l.windowSec * 1000

instance decidableInWindow (w now : Int) : Decidable (l.InWindow w now) := inferInstanceAs (Decidable (_ ∧ _))

/-- The requests of a key that read the clock in a window, were answered in time and were let through. -/
def admitted (cs : List (Call Text)) (key : Text) (w : Int) : Nat :=
  (l.run cs).countP fun o => (o.1.request = key ∧ l.InWindow w o.1.now) ∧ o.1.reply = .inTime ∧ o.2 = none

def Bounded (cs : List (Call Text)) : Prop := ∀ key w, l.admitted cs key w ≤ l.limit

variable {l}

theorem window_eq_iff {w now : Int} : l.window now = w ↔ l.InWindow w now := by
  have hpos : (0 : Int) < 1000 * l.windowSec := by
    have := l.windowSec_pos
    omega
  have hstart : w * (1000 * l.windowSec) = w * l.windowSec * 1000 := by ring
  have hend : (w + 1) * l.windowSec * 1000 = w * l.windowSec * 1000 + 1000 * l.windowSec := by ring
  rw [window, nowSec, Int.ediv_ediv_of_nonneg (by decide), Int.ediv_eq_iff_of_pos hpos, InWindow, hstart, hend]

theorem respond_eq_none {now : Int} {n : Nat} : l.respond now (some n) = none ↔ n ≤ l.limit := by
  rw [respond]
  split
  · next h => exact iff_of_false (by simp) (by omega)
  · next h => exact iff_of_true rfl (by omega)

theorem bounded_of_unlapsed {cs : List (Call Text)} (h : Unlapsed l.counterKey l.ttl cs) : l.Bounded cs := by
  intro key w
  refine passed_le (k := text "rl:" ++ l.name ++ text ":" ++ key ++ text ":" ++ decimalInt w)
    (p := fun c => c.request = key ∧ l.InWindow w c.now) (fun c n => respond_eq_none.mp) h ?_
  rintro c ⟨hrequest, hwindow⟩
  rw [counterKey, hrequest, window_eq_iff.mpr hwindow]

/-! ## Windows and latency -/

theorem colon_notMem_decimalInt (z : Int) : unit ':' ∉ decimalInt z := by
  have hdecimal : ∀ n, unit ':' ∉ decimal n := fun n h => absurd (isDigit_of_mem_decimal h) (by decide)
  cases z with
  | ofNat n => exact hdecimal n
  | negSucc n =>
      rw [decimalInt, List.mem_cons, not_or]
      exact ⟨by decide, hdecimal (n + 1)⟩

/-- What is after the last colon. -/
theorem eq_of_last_colon {x y x' y' : Text} (hy : unit ':' ∉ y) (hy' : unit ':' ∉ y')
    (h : x ++ unit ':' :: y = x' ++ unit ':' :: y') : y = y' := by
  rcases List.append_eq_append_iff.mp h with ⟨z, -, hz⟩ | ⟨z, -, hz⟩
  · cases z with
    | nil => exact (List.cons.inj hz).2
    | cons u z => exact absurd (by rw [(List.cons.inj hz).2]; simp) hy
  · cases z with
    | nil => exact (List.cons.inj hz).2.symm
    | cons u z => exact absurd (by rw [(List.cons.inj hz).2]; simp) hy'

/-- The requests of one counter are of one window. -/
theorem window_eq_of_counterKey {c d : Call Text} (h : l.counterKey c = l.counterKey d) : l.window c.now = l.window d.now := by
  have hkey : ∀ c, l.counterKey c = (text "rl:" ++ l.name ++ text ":" ++ c.request) ++ unit ':' :: decimalInt (l.window c.now) :=
    fun c => List.append_assoc _ _ _
  rw [hkey, hkey] at h
  exact decimalInt_injective (eq_of_last_colon (colon_notMem_decimalInt _) (colon_notMem_decimalInt _) h)

/-- Where increments take effect at once, no counter lapses within its window. -/
theorem unlapsed_of_prompt {cs : List (Call Text)} (h : Timely 0 cs) : Unlapsed l.counterKey l.ttl cs := by
  refine unlapsed_of_forall fun c hc d hd hkey => ?_
  have hsame := window_eq_of_counterKey hkey
  obtain ⟨hstart, -⟩ := window_eq_iff.mp hsame
  obtain ⟨-, hend⟩ := window_eq_iff.mp (rfl : l.window d.now = l.window d.now)
  have hafter := (h.within c hc).1
  have hprompt := (h.within d hd).2
  have hlength : (l.window d.now + 1) * l.windowSec * 1000 = l.window d.now * l.windowSec * 1000 + l.ttl := by
    rw [ttl]
    ring
  omega

/-! ## Over the end of a window -/

/-- A request of the empty key that is answered in time. -/
def request (now effect : Int) : Call Text := ⟨[], now, effect, .inTime⟩

/-- `limit` requests at the start of a window, and one that reads the clock in its last millisecond and is counted in
the next one. -/
def boundary (l : RateLimiter) : List (Call Text) :=
  List.replicate l.limit (request 0 0) ++ [request (l.ttl - 1) l.ttl]

theorem ttl_pos : 0 < l.ttl := by
  have := l.windowSec_pos
  rw [ttl]
  omega

theorem timely_boundary {timeout : Nat} (h : timeout ≠ 0) : Timely timeout (boundary l) := by
  have hpos := ttl_pos (l := l)
  refine ⟨fun c hc => ?_, ?_⟩
  · rcases List.mem_append.mp hc with hc | hc
    · rw [List.eq_of_mem_replicate hc]
      show (0 : Int) ≤ 0 ∧ (0 : Int) ≤ 0 + timeout
      omega
    · rw [List.mem_singleton.mp hc]
      show l.ttl - 1 ≤ l.ttl ∧ l.ttl ≤ l.ttl - 1 + timeout
      omega
  · refine List.pairwise_append.mpr ⟨List.pairwise_replicate.mpr (Or.inr (le_refl _)), List.pairwise_singleton _ _, ?_⟩
    intro c hc d hd
    rw [List.eq_of_mem_replicate hc, List.mem_singleton.mp hd]
    exact hpos.le

theorem inWindow_boundary : ∀ c ∈ boundary l, c.request = [] ∧ l.InWindow 0 c.now ∧ c.reply = .inTime := by
  have hpos := ttl_pos (l := l)
  have hend : (0 + 1) * (l.windowSec : Int) * 1000 = l.ttl := by
    rw [ttl]
    ring
  intro c hc
  rcases List.mem_append.mp hc with hc | hc
  · rw [List.eq_of_mem_replicate hc]
    refine ⟨rfl, ⟨?_, ?_⟩, rfl⟩
    · show (0 : Int) * l.windowSec * 1000 ≤ 0
      omega
    · show (0 : Int) < (0 + 1) * l.windowSec * 1000
      omega
  · rw [List.mem_singleton.mp hc]
    refine ⟨rfl, ⟨?_, ?_⟩, rfl⟩
    · show (0 : Int) * l.windowSec * 1000 ≤ l.ttl - 1
      omega
    · show l.ttl - 1 < (0 + 1) * (l.windowSec : Int) * 1000
      omega

/-- All of them are let through. -/
theorem not_bounded_boundary (hlimit : l.limit ≠ 0) : ¬ l.Bounded (boundary l) := by
  have hcalls := inWindow_boundary (l := l)
  have hfirst : request 0 0 ∈ boundary l := List.mem_append_left _ (List.mem_replicate.mpr ⟨hlimit, rfl⟩)
  have hlast : request (l.ttl - 1) l.ttl ∈ boundary l := List.mem_append_right _ (List.mem_singleton_self _)
  have hkey : l.counterKey (request (l.ttl - 1) l.ttl) = l.counterKey (request 0 0) := by
    rw [counterKey, counterKey, window_eq_iff.mpr (hcalls _ hfirst).2.1, window_eq_iff.mpr (hcalls _ hlast).2.1]
    rfl
  have hlapse : (request 0 0).effect + l.ttl ≤ (request (l.ttl - 1) l.ttl).effect := by
    show 0 + l.ttl ≤ l.ttl
    omega
  have hnumbers := answers_lapsed (s := Store.empty) (m := 0) (n := l.limit) hkey rfl rfl ttl_pos hlapse
    (Nat.pos_of_ne_zero hlimit) rfl rfl (by omega)
  have hall : l.admitted (boundary l) [] 0 = (boundary l).length := by
    rw [admitted, run, outcomes, List.countP_map, ← length_answers l.counterKey l.ttl Store.empty]
    refine List.countP_eq_length.mpr fun a ha => decide_eq_true ?_
    obtain ⟨hrequest, hwindow, hreply⟩ := hcalls _ (mem_answers ha).1
    have hnumber := hnumbers a ha
    refine ⟨⟨hrequest, hwindow⟩, hreply, ?_⟩
    show l.respond a.1.now a.2 = none
    cases hn : a.2 with
    | none => rfl
    | some n =>
        rw [hn] at hnumber
        exact respond_eq_none.mpr (of_decide_eq_true hnumber)
  intro hbounded
  have hle := hbounded [] 0
  rw [hall, boundary, List.length_append, List.length_replicate, List.length_singleton] at hle
  omega

/-- A limit of 0 lets nothing through. -/
theorem bounded_of_limit (h : l.limit = 0) (cs : List (Call Text)) : l.Bounded cs := by
  intro key w
  rw [h, Nat.le_zero, admitted, run, outcomes, List.countP_map, List.countP_eq_zero]
  intro a ha hp
  obtain ⟨-, hreply, hnone⟩ := of_decide_eq_true hp
  obtain ⟨n, hn⟩ : ∃ n, a.2 = some (n + 1) := by
    have := (mem_answers ha).2
    rwa [if_pos hreply] at this
  dsimp only at hnone
  rw [hn, respond_eq_none] at hnone
  omega

/-- **The limiter bounds the admissions of every run in which no counter lapses, and of all runs exactly where the
increments take no time, or nothing is let through.** -/
theorem rateLimit_bounded (l : RateLimiter) (timeout : Nat) :
    (∀ cs, Unlapsed l.counterKey l.ttl cs → l.Bounded cs) ∧
      ((∀ cs, Timely timeout cs → l.Bounded cs) ↔ timeout = 0 ∨ l.limit = 0) := by
  refine ⟨fun cs => bounded_of_unlapsed, ⟨fun h => ?_, ?_⟩⟩
  · by_contra hnot
    rw [not_or] at hnot
    exact not_bounded_boundary hnot.2 (h _ (timely_boundary hnot.1))
  · rintro (rfl | hlimit) cs h
    · exact bounded_of_unlapsed (unlapsed_of_prompt h)
    · exact bounded_of_limit hlimit cs

theorem sixty_pos : 0 < 60 := by decide

/-- One login a minute. -/
def loginLimiter : RateLimiter where
  name := text "login"
  limit := 1
  windowSec := 60
  windowSec_pos := sixty_pos

/-- Two logins in a minute, a second apart. -/
theorem rateLimit_bounded_login :
    loginLimiter.Bounded [request 0 0, request 1000 1000] ∧ loginLimiter.admitted [request 0 0, request 1000 1000] [] 0 = 1 :=
  ⟨(rateLimit_bounded loginLimiter 200).1 _ (unlapsed_of_prompt ⟨by simp [request], by simp [request]⟩), by decide⟩

/-- The second reads the clock a millisecond before the minute ends, and takes 101 milliseconds to be counted. -/
theorem rateLimit_exceeded :
    ¬ ∀ (l : RateLimiter) (timeout : Nat) (cs : List (Call Text)), Timely timeout cs → l.Bounded cs := by
  intro h
  have hrun : Timely 200 [request 0 0, request 59999 60100] := ⟨by simp [request], by simp [request]⟩
  have hadmitted : loginLimiter.admitted [request 0 0, request 59999 60100] [] 0 = 2 := by decide
  have hle := h loginLimiter 200 _ hrun [] 0
  rw [hadmitted] at hle
  exact absurd hle (by decide)

end FinSight.RateLimiter
