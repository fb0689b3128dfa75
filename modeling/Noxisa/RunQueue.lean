import Mathlib

/-!
# The priority run queue

The model of `RunQueue` in `scheduler/mod.rs`: eight first-in first-out queues
of process identifiers (`Pid`, here a natural number) and a byte whose bit `i`
says that queue `i` is not empty.

What the scheduler relies on is that a push adds one occurrence of the pid and
a pop removes one, whatever the level (`push_pids`, `pop_pids`), and that an
exact mask stays exact.
-/

namespace Scheduler

/-- `NPRIO` -/
def nprio : Nat := 8

/-- Where a priority is queued: `(prio as usize).min(NPRIO - 1)`. -/
def level (prio : Nat) : Fin nprio := ⟨min prio (nprio - 1), by unfold nprio; omega⟩

/-- Front of each list first. -/
structure RunQueue where
  q : Fin nprio → List Nat
  mask : BitVec nprio
deriving DecidableEq

/-- `RunQueue::new` -/
def RunQueue.new : RunQueue := { q := fun _ => [], mask := 0 }

/-- `1 << p` -/
def bit (p : Fin nprio) : BitVec nprio := (1 : BitVec nprio) <<< p.val

/-- `push` (scheduler/mod.rs): the back of its level's list, and the level's bit. -/
def RunQueue.push (r : RunQueue) (pid : Nat) (prio : Nat) : RunQueue :=
  let p := level prio
  { q := Function.update r.q p (r.q p ++ [pid]), mask := r.mask ||| bit p }

/-- The index of the lowest set bit; `none` for the mask 0. -/
def trailingZeros (mask : BitVec nprio) : Option (Fin nprio) :=
  (List.finRange nprio).find? (fun i => mask.getLsbD i)

/-- `none` leaves the queue as it was. -/
def RunQueue.pop (r : RunQueue) : Option (Nat × RunQueue) :=
  match trailingZeros r.mask with
  | none => none
  | some p =>
      match r.q p with
      | [] => none
      | pid :: rest =>
          let mask := if rest.isEmpty then r.mask &&& ~~~(bit p) else r.mask
          some (pid, { q := Function.update r.q p rest, mask := mask })

/-- All queued pids, level by level. -/
def RunQueue.pids (r : RunQueue) : List Nat := (List.finRange nprio).flatMap r.q

/-- Bit `i` of the mask is set exactly when queue `i` is not empty. -/
def RunQueue.MaskExact (r : RunQueue) : Prop :=
  ∀ i : Fin nprio, r.mask.getLsbD i = true ↔ r.q i ≠ []

/-- The queued tasks are those of the levels. -/
theorem mem_pids {r : RunQueue} {pid : Nat} : pid ∈ r.pids ↔ ∃ i, pid ∈ r.q i := by
  simp [RunQueue.pids]

/-- Changing one list of a family by one element changes the concatenation by
that element. -/
theorem flatMap_update_perm {ι α : Type} [DecidableEq ι] {is : List ι} (hnd : is.Nodup)
    {p : ι} (hp : p ∈ is) (f : ι → List α) {new old : List α} {x : α}
    (hold : f p = old) (hperm : new.Perm (x :: old)) :
    (is.flatMap (Function.update f p new)).Perm (x :: is.flatMap f) := by
  induction is with
  | nil => cases hp
  | cons i is ih =>
      obtain ⟨hi, hnd'⟩ := List.nodup_cons.mp hnd
      rw [List.flatMap_cons, List.flatMap_cons]
      by_cases h : p = i
      · subst h
        have hsame : is.flatMap (Function.update f p new) = is.flatMap f := by
          refine List.flatMap_congr (fun j hj => ?_)
          have hne : j ≠ p := fun heq => hi (heq ▸ hj)
          exact Function.update_of_ne hne _ _
        rw [Function.update_self, hsame, hold]
        exact hperm.append_right _
      · have hmem : p ∈ is := (List.mem_cons.mp hp).resolve_left h
        rw [Function.update_of_ne (Ne.symm h)]
        exact ((ih hnd' hmem).append_left _).trans List.perm_middle

/-- A push adds one occurrence. -/
theorem push_pids (r : RunQueue) (pid : Nat) (prio : Nat) :
    (r.push pid prio).pids.Perm (pid :: r.pids) :=
  flatMap_update_perm (List.nodup_finRange _) (List.mem_finRange _) r.q rfl
    (List.perm_append_singleton _ _)

/-- A push adds one task to one level. -/
theorem mem_push_q {r : RunQueue} {pid x : Nat} {prio : Nat} {i : Fin nprio} :
    x ∈ (r.push pid prio).q i ↔ x ∈ r.q i ∨ (x = pid ∧ i = level prio) := by
  by_cases h : i = level prio
  · subst h
    simp [RunQueue.push]
  · simp [RunQueue.push, h]

/-- The bit of a level is its own only. -/
theorem bit_getLsbD (p i : Fin nprio) : (bit p).getLsbD i = decide (i = p) := by
  revert p i
  decide

/-- A push keeps the mask exact. -/
theorem push_maskExact {r : RunQueue} (h : r.MaskExact) (pid : Nat) (prio : Nat) :
    (r.push pid prio).MaskExact := by
  intro i
  have hi := h i
  by_cases heq : i = level prio
  · subst heq
    simp only [RunQueue.push, BitVec.getLsbD_or, bit_getLsbD, Function.update_self]
    simp
  · simp only [RunQueue.push, BitVec.getLsbD_or, bit_getLsbD, Function.update_of_ne heq]
    simpa [heq] using hi

/-- The queue a pop takes from is the lowest one that is not empty. -/
theorem pop_cases {r r' : RunQueue} {pid : Nat} (h : r.pop = some (pid, r')) :
    ∃ p rest, trailingZeros r.mask = some p ∧ r.q p = pid :: rest ∧
      r' = { q := Function.update r.q p rest
             mask := if rest.isEmpty then r.mask &&& ~~~(bit p) else r.mask } := by
  unfold RunQueue.pop at h
  split at h
  next => cases h
  next p hp =>
    split at h
    next => cases h
    next x rest hq =>
      obtain ⟨rfl, rfl⟩ := Prod.mk.inj (Option.some.inj h)
      exact ⟨p, rest, hp, hq, rfl⟩

/-- A pop removes one occurrence of the pid it returns. -/
theorem pop_pids {r r' : RunQueue} {pid : Nat} (h : r.pop = some (pid, r')) :
    r.pids.Perm (pid :: r'.pids) := by
  obtain ⟨p, rest, _, hq, rfl⟩ := pop_cases h
  have hback : Function.update (Function.update r.q p rest) p (pid :: rest) = r.q := by
    rw [Function.update_idem, ← hq, Function.update_eq_self]
  have hperm := flatMap_update_perm (List.nodup_finRange nprio) (List.mem_finRange p)
    (Function.update r.q p rest) (x := pid) (Function.update_self p rest r.q)
    (List.Perm.refl (pid :: rest))
  rwa [hback] at hperm

/-- What is queued after a pop was queued at the same level before. -/
theorem pop_subset {r r' : RunQueue} {pid x : Nat} {i : Fin nprio}
    (h : r.pop = some (pid, r')) (hx : x ∈ r'.q i) : x ∈ r.q i := by
  obtain ⟨p, rest, _, hq, rfl⟩ := pop_cases h
  by_cases heq : i = p
  · subst heq
    rw [hq]
    exact List.mem_cons_of_mem _ (by simpa using hx)
  · simpa [heq] using hx

/-- A pop keeps the mask exact. -/
theorem pop_maskExact {r r' : RunQueue} {pid : Nat} (hmask : r.MaskExact)
    (h : r.pop = some (pid, r')) : r'.MaskExact := by
  obtain ⟨p, rest, _, hq, rfl⟩ := pop_cases h
  intro i
  have hi := hmask i
  by_cases heq : i = p
  · subst heq
    have hset : r.mask.getLsbD i = true := hi.mpr (by simp [hq])
    cases rest with
    | nil => simp [bit_getLsbD]
    | cons x rest => simpa using hset
  · cases rest with
    | nil =>
        simp only [List.isEmpty_nil, if_true, Function.update_of_ne heq, BitVec.getLsbD_and,
          BitVec.getLsbD_not, bit_getLsbD]
        simpa [heq] using hi
    | cons x rest => simpa [heq] using hi

/-- With an exact mask only the empty queue pops nothing. -/
theorem pop_none {r : RunQueue} (hmask : r.MaskExact) (h : r.pop = none) : r.pids = [] := by
  unfold RunQueue.pop at h
  split at h
  next hzero =>
    have hempty : ∀ i, r.q i = [] := by
      intro i
      by_contra hne
      have hclear := List.find?_eq_none.mp hzero i (List.mem_finRange i)
      exact hclear ((hmask i).mpr hne)
    exact List.flatMap_eq_nil_iff.mpr (fun i _ => hempty i)
  next p hp =>
    have hset := List.find?_some hp
    have hne := (hmask p).mp hset
    split at h
    next hnil => exact absurd hnil hne
    next => cases h

end Scheduler
