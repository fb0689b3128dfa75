import Mathlib

/-!
# The circuit breaker of the online providers

Each provider has a breaker: after three failures in a row it is open for thirty
seconds, and then one call is to be let through as a probe.  `Past.refuses` says
what a query is to answer, from the outcomes recorded so far.

The breaker keeps a count of failures and the end of the opening.  The query that
lets the probe through forgets both, so the breaker no longer knows that a probe is
on its way, and a failed probe is the first of three failures again.

Times are counted in nanoseconds.
-/

namespace CircuitBreaker

/-- How long a breaker stays open. -/
def cooldown : Nat := 30 * 10 ^ 9

/-- `CircuitBreaker` -/
structure Breaker where
  failures : UInt32
  limit : UInt32
  openUntil : Option Nat
deriving DecidableEq

namespace Breaker

/-- `CircuitBreaker::new`: three failures. -/
def new : Breaker := ⟨0, 3, none⟩

/-- Whether calls are refused, and the breaker after the query. -/
def isOpen (b : Breaker) (now : Nat) : Bool × Breaker :=
  match b.openUntil with
  | some deadline =>
      if now ≥ deadline then
        -- half-open: allow one probe
        (false, { b with openUntil := none, failures := 0 })
      else (true, b)
  | none => (false, b)

/-- `CircuitBreaker::success` -/
def success (b : Breaker) : Breaker := { b with failures := 0, openUntil := none }

/-- `CircuitBreaker::failure`: from the limit on, every failure opens the breaker anew.
-/
def failure (b : Breaker) (now : Nat) : Breaker :=
  let b := { b with failures := b.failures + 1 }
  if b.failures ≥ b.limit then { b with openUntil := some (now + cooldown) } else b

end Breaker

/-- `Provider` -/
inductive Provider
  | anthropic | openAI | ollama
deriving DecidableEq

/-- What is done with a breaker: it is asked before a call, and then told the outcome. -/
inductive Action
  | query | success | failure
deriving DecidableEq

/-- One call, to the breaker of one provider. -/
structure Event where
  provider : Provider
  time : Nat
  action : Action

/-- What the call does to the breaker. -/
def Breaker.after (b : Breaker) (now : Nat) : Action → Breaker
  | .query => (b.isOpen now).2
  | .success => b.success
  | .failure => b.failure now

/-- Change the first breaker that belongs to the provider. -/
def update (p : Provider) (f : Breaker → Breaker) :
    List (Provider × Breaker) → List (Provider × Breaker)
  | [] => []
  | (prov, b) :: rest => if prov = p then (prov, f b) :: rest else (prov, b) :: update p f rest

/-- `OnlineEngine`, as far as its breakers go. -/
structure OnlineEngine where
  breakers : List (Provider × Breaker)

namespace OnlineEngine

/-- A breaker for each provider. -/
def new : OnlineEngine :=
  ⟨[(.anthropic, Breaker.new), (.openAI, Breaker.new), (.ollama, Breaker.new)]⟩

/-- `breaker_open`: a provider without a breaker is not open. -/
def breakerOpen (e : OnlineEngine) (p : Provider) (now : Nat) : Bool × OnlineEngine :=
  (((e.breakers.lookup p).map fun b => (b.isOpen now).1).getD false,
    ⟨update p (fun b => (b.isOpen now).2) e.breakers⟩)

/-- `breaker_success` -/
def breakerSuccess (e : OnlineEngine) (p : Provider) : OnlineEngine :=
  ⟨update p Breaker.success e.breakers⟩

/-- `breaker_failure` -/
def breakerFailure (e : OnlineEngine) (p : Provider) (now : Nat) : OnlineEngine :=
  ⟨update p (fun b => b.failure now) e.breakers⟩

/-- One call. -/
def step (e : OnlineEngine) (event : Event) : OnlineEngine :=
  match event.action with
  | .query => (e.breakerOpen event.provider event.time).2
  | .success => e.breakerSuccess event.provider
  | .failure => e.breakerFailure event.provider event.time

/-- A history of calls. -/
def run (e : OnlineEngine) (history : List Event) : OnlineEngine := history.foldl step e

end OnlineEngine

/-- What has happened to one provider. -/
structure Past where
  /-- the failures since the last success -/
  failures : Nat := 0
  /-- when the last failure was recorded -/
  last : Nat := 0
  /-- a call has been let through after the opening, and no outcome recorded since -/
  probing : Bool := false
  /-- the failures since the last success or since a call was let through after an
  opening by three such failures -/
  fresh : Nat := 0
deriving DecidableEq

namespace Past

/-- What a call adds to the past of a breaker. -/
def step (past : Past) (now : Nat) : Action → Past
  | .success => { past with failures := 0, probing := false, fresh := 0 }
  | .failure => ⟨past.failures + 1, now, false, past.fresh + 1⟩
  | .query =>
      if 3 ≤ past.failures ∧ past.last + cooldown ≤ now then
        { past with probing := true, fresh := if 3 ≤ past.fresh then 0 else past.fresh }
      else past

/-- After three failures in a row calls are refused until the cooldown is over, and then
all but one until its outcome is known. -/
def refuses (past : Past) (now : Nat) : Bool :=
  3 ≤ past.failures && (now < past.last + cooldown || past.probing)

/-- After three failures in a row there is no query while a probe is on its way, and none
before the cooldown is over unless three failures have been recorded since the last probe. -/
def Quiet (past : Past) (now : Nat) : Prop :=
  3 ≤ past.failures → if now < past.last + cooldown then 3 ≤ past.fresh else past.probing = false

instance (past : Past) (now : Nat) : Decidable (past.Quiet now) := by
  unfold Quiet
  infer_instance

end Past

/-- What has happened to provider `p` in a history of all of them. -/
def past (p : Provider) (history : List Event) : Past :=
  history.foldl (fun past event =>
    if event.provider = p then past.step event.time event.action else past) {}

/-- Every query about `p` in the history is answered as it is to be. -/
def Answered (p : Provider) (history : List Event) : Prop :=
  ∀ before now later, history = before ++ ⟨p, now, .query⟩ :: later →
    ((OnlineEngine.new.run before).breakerOpen p now).1 = (past p before).refuses now

/-- Every query about `p` in the history comes at a quiet time. -/
def QuietQueries (p : Provider) (history : List Event) : Prop :=
  ∀ before now later, history = before ++ ⟨p, now, .query⟩ :: later → (past p before).Quiet now

/-- At no time have 2^32 fresh failures been counted. -/
def NoOverflow (p : Provider) (history : List Event) : Prop :=
  ∀ before, before <+: history → (past p before).fresh < 2 ^ 32

/-- What the breaker of a provider knows of its past. -/
structure Knows (b : Breaker) (past : Past) : Prop where
  failures : b.failures.toNat = past.fresh
  limit : b.limit = 3
  openUntil : b.openUntil = if 3 ≤ past.fresh then some (past.last + cooldown) else none
  fresh : past.fresh ≤ past.failures

namespace Knows

variable {b : Breaker} {past : Past}

/-- A new breaker knows that nothing has happened. -/
theorem new : Knows Breaker.new {} := ⟨rfl, rfl, rfl, Nat.le_refl 0⟩

/-- A breaker that knows its past is open if three failures are fresh and the cool-down
after the last one has not passed. -/
theorem isOpen (h : Knows b past) (now : Nat) :
    (b.isOpen now).1 = decide (3 ≤ past.fresh ∧ now < past.last + cooldown) := by
  unfold Breaker.isOpen
  rw [h.openUntil]
  by_cases hfresh : 3 ≤ past.fresh
  · rw [if_pos hfresh]
    dsimp only
    by_cases hover : now ≥ past.last + cooldown
    · rw [if_pos hover]
      simp [Nat.not_lt.mpr hover]
    · rw [if_neg hover]
      simp [hfresh, Nat.lt_of_not_le hover]
  · rw [if_neg hfresh]
    simp [hfresh]

/-- It knows of the query. -/
theorem query (h : Knows b past) (now : Nat) :
    Knows (b.isOpen now).2 (past.step now .query) := by
  unfold Breaker.isOpen Past.step
  rw [h.openUntil]
  dsimp only
  by_cases hfresh : 3 ≤ past.fresh
  · have hfailures : 3 ≤ past.failures := hfresh.trans h.fresh
    rw [if_pos hfresh]
    dsimp only
    by_cases hover : past.last + cooldown ≤ now
    · rw [if_pos hover, if_pos ⟨hfailures, hover⟩, if_pos hfresh]
      exact ⟨rfl, h.limit, rfl, Nat.zero_le _⟩
    · rw [if_neg hover, if_neg fun hboth => hover hboth.2]
      exact h
  · rw [if_neg hfresh]
    dsimp only
    split
    · exact ⟨h.failures, h.limit, h.openUntil, h.fresh⟩
    · exact h

/-- It knows of the success. -/
theorem success (h : Knows b past) (now : Nat) : Knows b.success (past.step now .success) :=
  ⟨rfl, h.limit, rfl, Nat.le_refl 0⟩

/-- It knows of the failure, as long as the count does not wrap. -/
theorem failure (h : Knows b past) (now : Nat) (hfresh : past.fresh + 1 < 2 ^ 32) :
    Knows (b.failure now) (past.step now .failure) := by
  have hcount : (b.failures + 1).toNat = past.fresh + 1 := by
    rw [UInt32.toNat_add, h.failures]
    exact Nat.mod_eq_of_lt hfresh
  have hlimit : b.failures + 1 ≥ b.limit ↔ 3 ≤ past.fresh + 1 := by
    rw [h.limit, ge_iff_le, UInt32.le_iff_toNat_le, hcount]
    rfl
  unfold Breaker.failure Past.step
  dsimp only
  by_cases hthree : 3 ≤ past.fresh + 1
  · rw [if_pos (hlimit.mpr hthree)]
    exact ⟨hcount, h.limit, (if_pos hthree).symm, Nat.succ_le_succ h.fresh⟩
  · rw [if_neg fun hge => hthree (hlimit.mp hge)]
    refine ⟨hcount, h.limit, ?_, Nat.succ_le_succ h.fresh⟩
    change b.openUntil = if 3 ≤ past.fresh + 1 then _ else none
    rw [if_neg hthree, h.openUntil, if_neg]
    omega

/-- It knows of any call. -/
theorem after (h : Knows b past) (now : Nat) (action : Action)
    (hfresh : (past.step now action).fresh < 2 ^ 32) :
    Knows (b.after now action) (past.step now action) := by
  cases action with
  | query => exact h.query now
  | success => exact h.success now
  | failure => exact h.failure now hfresh

/-- The answer is the right one exactly at a quiet time. -/
theorem answer_iff (h : Knows b past) (now : Nat) :
    (b.isOpen now).1 = past.refuses now ↔ past.Quiet now := by
  have hle := h.fresh
  rw [h.isOpen, Past.refuses, Past.Quiet, Bool.eq_iff_iff]
  simp only [decide_eq_true_eq, Bool.and_eq_true, Bool.or_eq_true]
  by_cases hover : now < past.last + cooldown
  · rw [if_pos hover]
    constructor
    · exact fun hiff hfailures => (hiff.mpr ⟨hfailures, Or.inl hover⟩).1
    · exact fun hquiet => ⟨fun hopen => ⟨hopen.1.trans hle, Or.inl hover⟩,
        fun hrefused => ⟨hquiet hrefused.1, hover⟩⟩
  · rw [if_neg hover]
    constructor
    · intro hiff hfailures
      refine Bool.eq_false_iff.mpr fun hprobing => hover ?_
      exact (hiff.mpr ⟨hfailures, Or.inr hprobing⟩).2
    · intro hquiet
      refine ⟨fun hopen => absurd hopen.2 hover, ?_⟩
      rintro ⟨hfailures, hnow | hprobing⟩
      · exact absurd hnow hover
      · rw [hquiet hfailures] at hprobing
        cases hprobing

end Knows

/-- Updating the breaker of one provider. -/
theorem lookup_update (p q : Provider) (f : Breaker → Breaker) (l : List (Provider × Breaker)) :
    (update p f l).lookup q = if p = q then (l.lookup q).map f else l.lookup q := by
  induction l with
  | nil => simp [update]
  | cons x l ih =>
      obtain ⟨prov, b⟩ := x
      rw [update]
      by_cases hp : prov = p
      · subst hp
        rw [if_pos rfl]
        by_cases hq : prov = q
        · subst hq
          simp
        · have hbeq : (q == prov) = false := beq_false_of_ne (Ne.symm hq)
          rw [if_neg hq, List.lookup_cons, List.lookup_cons, hbeq]
      · rw [if_neg hp, List.lookup_cons, List.lookup_cons, ih]
        by_cases hq : q = prov
        · subst hq
          rw [if_neg (Ne.symm hp), if_neg (Ne.symm hp)]
        · rw [beq_false_of_ne hq]

/-- A call updates the breaker of its provider alone. -/
private theorem lookup_step (e : OnlineEngine) (event : Event) (p : Provider) :
    (e.step event).breakers.lookup p = if event.provider = p then
      (e.breakers.lookup p).map (·.after event.time event.action) else e.breakers.lookup p := by
  unfold OnlineEngine.step
  cases haction : event.action with
  | query => exact lookup_update _ _ _ _
  | success => exact lookup_update _ _ _ _
  | failure => exact lookup_update _ _ _ _

/-- The past with one call more. -/
theorem past_append (p : Provider) (history : List Event) (event : Event) :
    past p (history ++ [event]) = if event.provider = p then
      (past p history).step event.time event.action else past p history := by
  unfold past
  rw [List.foldl_append]
  rfl

/-- After any history the breaker of a provider knows its past. -/
theorem run_knows (p : Provider) (history : List Event) (h : NoOverflow p history) :
    ∃ b, (OnlineEngine.new.run history).breakers.lookup p = some b ∧ Knows b (past p history) := by
  induction history using List.reverseRecOn with
  | nil =>
      refine ⟨Breaker.new, ?_, Knows.new⟩
      cases p <;> rfl
  | append_singleton history event ih =>
      obtain ⟨b, hb, hknows⟩ := ih fun before hbefore =>
        h before (hbefore.trans (List.prefix_append history [event]))
      have hrun : OnlineEngine.new.run (history ++ [event]) =
          (OnlineEngine.new.run history).step event := by
        unfold OnlineEngine.run
        rw [List.foldl_append]
        rfl
      have hfresh := h _ (List.prefix_refl _)
      rw [past_append] at hfresh
      rw [hrun, lookup_step, past_append, hb]
      by_cases hp : event.provider = p
      · rw [if_pos hp] at hfresh
        rw [if_pos hp, if_pos hp]
        exact ⟨_, rfl, hknows.after event.time event.action hfresh⟩
      · rw [if_neg hp, if_neg hp]
        exact ⟨b, rfl, hknows⟩

/-- The breaker of a provider works as it is to in a history of calls to all of them
exactly when every query about it comes at a quiet time. -/
theorem breaker_works (p : Provider) (history : List Event) (h : NoOverflow p history) :
    Answered p history ↔ QuietQueries p history := by
  refine forall_congr' fun before => forall_congr' fun now => forall_congr' fun later =>
    forall_congr' fun heq => ?_
  obtain ⟨b, hb, hknows⟩ := run_knows p before fun before' hbefore' =>
    h before' (hbefore'.trans ⟨_, heq.symm⟩)
  rw [← hknows.answer_iff now]
  unfold OnlineEngine.breakerOpen
  rw [hb]
  rfl

/-- There are not more failures than calls. -/
theorem fresh_le_length (p : Provider) (history : List Event) :
    (past p history).fresh ≤ history.length := by
  induction history using List.reverseRecOn with
  | nil => exact Nat.le_refl 0
  | append_singleton history event ih =>
      rw [past_append, List.length_append, List.length_singleton]
      split
      · unfold Past.step
        cases event.action with
        | success => exact Nat.zero_le _
        | failure => exact Nat.succ_le_succ ih
        | query =>
            dsimp only
            split
            · dsimp only
              split
              · exact Nat.zero_le _
              · exact Nat.le_succ_of_le ih
            · exact Nat.le_succ_of_le ih
      · exact Nat.le_succ_of_le ih

/-- Fewer than `2 ^ 32` calls cannot make the count wrap. -/
private theorem noOverflow_of_length {history : List Event} (h : history.length < 2 ^ 32)
    (p : Provider) :
    NoOverflow p history := fun before hbefore =>
  Nat.lt_of_le_of_lt ((fresh_le_length p before).trans hbefore.length_le) h

/-- Three failures, the probe after the cooldown, and its success. -/
def recovery : List Event :=
  [⟨.openAI, 0, .failure⟩, ⟨.openAI, 0, .failure⟩, ⟨.openAI, 0, .failure⟩,
    ⟨.openAI, cooldown, .query⟩, ⟨.openAI, cooldown, .success⟩]

/-- A breaker that opens, lets a query pass after the cool-down and is closed by its
success. -/
theorem recovery_works : Answered .openAI recovery := by
  refine (breaker_works .openAI recovery (noOverflow_of_length (by decide) _)).mpr ?_
  intro before now later heq
  have hat : before = recovery.take before.length := by
    rw [heq, List.take_left]
  have hquery : recovery[before.length]? = some ⟨.openAI, now, .query⟩ := by
    rw [heq, List.getElem?_append_right (Nat.le_refl _), Nat.sub_self]
    rfl
  rw [hat]
  match hlen : before.length with
  | 0 | 1 | 2 | 4 =>
      rw [hlen] at hquery
      cases hquery
  | 3 =>
      rw [hlen] at hquery
      cases hquery
      decide +kernel
  | n + 5 =>
      rw [hlen] at hquery
      cases hquery

/-- Two queries at the end of the cooldown are both let through. -/
def twoProbes : List Event :=
  [⟨.openAI, 0, .failure⟩, ⟨.openAI, 0, .failure⟩, ⟨.openAI, 0, .failure⟩,
    ⟨.openAI, cooldown, .query⟩, ⟨.openAI, cooldown, .query⟩]

/-- After the cool-down two queries pass, where the second one should wait for the
first. -/
theorem two_probes_pass : ¬Answered .openAI twoProbes := by
  intro h
  exact absurd (h (twoProbes.take 4) cooldown [] rfl) (by decide +kernel)

/-- A query right after a failed probe. -/
example : ¬Answered .openAI (recovery.take 4 ++
    [⟨.openAI, cooldown, .failure⟩, ⟨.openAI, cooldown, .query⟩]) := by
  intro h
  exact absurd (h (recovery.take 4 ++ [⟨.openAI, cooldown, .failure⟩]) cooldown [] rfl)
    (by decide +kernel)

end CircuitBreaker
