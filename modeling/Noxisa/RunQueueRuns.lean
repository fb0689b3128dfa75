import Noxisa.PriorityFifo
import Noxisa.RunQueue

/-!
# The run queue over all runs

Whatever is pushed and popped, the eight queues of the run queue are what waits
in a priority queue that serves the earliest task of the lowest level first,
sorted into levels, and the mask is exact (`run_refines`).
-/

namespace Scheduler

open PriorityFifo

/-- One call, with the answers of all pops so far. -/
def RunQueue.answer (st : RunQueue × List (Option Nat)) :
    Call Nat Nat → RunQueue × List (Option Nat)
  | .push pid prio => (st.1.push pid prio, st.2)
  | .pop =>
      match st.1.pop with
      | some (pid, r) => (r, st.2 ++ [some pid])
      | none => (st.1, st.2 ++ [none])

/-- The calls of a run, from `RunQueue::new`. -/
def RunQueue.run (calls : List (Call Nat Nat)) : RunQueue × List (Option Nat) :=
  calls.foldl RunQueue.answer (RunQueue.new, [])

/-- A call at the level where its priority is queued. -/
def atLevel : Call Nat Nat → Call Nat (Fin nprio)
  | .push pid prio => .push pid (level prio)
  | .pop => .pop

/-- The pids that are pushed. -/
def pushed : List (Call Nat Nat) → List Nat
  | [] => []
  | .push pid _ :: calls => pid :: pushed calls
  | .pop :: calls => pushed calls

/-- The queues are what waits, sorted into levels. -/
structure RunQueue.Holds (r : RunQueue) (w : List (Nat × Fin nprio)) : Prop where
  mask : r.MaskExact
  queues : ∀ i, r.q i = bucket i w

/-- The new queue holds nothing. -/
theorem RunQueue.Holds.new : RunQueue.new.Holds [] :=
  ⟨fun i => by simp [RunQueue.new], fun _ => rfl⟩

/-- A push is a push of the abstract queue, at its level. -/
theorem RunQueue.Holds.push {r : RunQueue} {w : List (Nat × Fin nprio)} (h : r.Holds w)
    (pid prio : Nat) : (r.push pid prio).Holds (w ++ [(pid, level prio)]) := by
  refine ⟨push_maskExact h.mask pid prio, fun i => ?_⟩
  rw [bucket_push, ← h.queues]
  by_cases hi : i = level prio
  · rw [if_pos hi, hi]
    exact Function.update_self _ _ _
  · rw [if_neg hi]
    exact Function.update_of_ne hi _ _

/-- The lowest set bit of an exact mask. -/
theorem trailingZeros_lowest {r : RunQueue} {p : Fin nprio} (h : r.MaskExact)
    (hp : trailingZeros r.mask = some p) (j : Fin nprio) (hj : j < p) : r.q j = [] := by
  by_contra hne
  have hset := (h j).mpr hne
  revert hp hj hset
  generalize r.mask = mask
  unfold trailingZeros
  intro hp hj hset
  obtain ⟨-, as, bs, heq, hall⟩ := List.find?_eq_some_iff_append.mp hp
  have hsorted := List.pairwise_lt_finRange nprio
  rw [heq] at hsorted
  have hmem : j ∈ as := by
    have hj' : j ∈ as ++ p :: bs := heq ▸ List.mem_finRange j
    rcases List.mem_append.mp hj' with hleft | hright
    · exact hleft
    · have hle : p ≤ j := by
        rcases List.mem_cons.mp hright with rfl | hbs
        · exact le_refl _
        · exact le_of_lt ((List.pairwise_cons.mp (List.pairwise_append.mp hsorted).2.1).1 j hbs)
      exact absurd hj (not_lt.mpr hle)
  have hclear := hall j hmem
  rw [hset] at hclear
  cases hclear

/-- A pop that finds nothing. -/
theorem RunQueue.Holds.empty {r : RunQueue} {w : List (Nat × Fin nprio)} (h : r.Holds w)
    (hpop : r.pop = none) : w = [] := by
  refine eq_nil_of_bucket (fun i => ?_)
  have hempty := List.flatMap_eq_nil_iff.mp (pop_none h.mask hpop) i (List.mem_finRange i)
  rw [← h.queues, hempty]

/-- **A pop serves the earliest task of the lowest level.** -/
theorem RunQueue.Holds.pop {r r' : RunQueue} {w : List (Nat × Fin nprio)} {pid : Nat}
    (h : r.Holds w) (hpop : r.pop = some (pid, r')) :
    ∃ i rest, Serves w (pid, i) rest ∧ r'.Holds rest := by
  obtain ⟨p, tl, hlowest, hq, heq⟩ := pop_cases hpop
  have hbucket : bucket p w = pid :: tl := by rw [← h.queues, hq]
  obtain ⟨rest, hserves, hsame, hother⟩ := serves_bucket hbucket (fun j hj => by
    rw [← h.queues, trailingZeros_lowest h.mask hlowest j hj])
  refine ⟨p, rest, hserves, pop_maskExact h.mask hpop, fun i => ?_⟩
  rw [heq]
  by_cases hi : i = p
  · rw [hi, hsame]
    exact Function.update_self _ _ _
  · rw [hother i hi, ← h.queues]
    exact Function.update_of_ne hi _ _

/-- What two runs of calls push is what each of them pushes. -/
theorem pushed_append (calls : List (Call Nat Nat)) (c : Call Nat Nat) :
    pushed (calls ++ [c]) = pushed calls ++ pushed [c] := by
  induction calls with
  | nil => rfl
  | cons d calls ih =>
      cases d with
      | push pid prio => rw [List.cons_append, pushed, ih, pushed, List.cons_append]
      | pop => rw [List.cons_append, pushed, ih, pushed]

/-- What a run has answered and left in the queues. -/
structure Refines (calls : List (Call Nat Nat)) (r : RunQueue) (outs : List (Option Nat)) :
    Prop where
  mask : r.MaskExact
  served : ∃ w, Trace (calls.map atLevel) outs w ∧ ∀ i, r.q i = bucket i w
  conserved : (pushed calls).Perm (outs.reduceOption ++ r.pids)

/-- **The run queue is a first-in first-out queue with priorities**, for every
sequence of calls. -/
theorem run_refines (calls : List (Call Nat Nat)) :
    Refines calls (RunQueue.run calls).1 (RunQueue.run calls).2 := by
  induction calls using List.reverseRecOn with
  | nil => exact ⟨RunQueue.Holds.new.mask, ⟨[], .start, RunQueue.Holds.new.queues⟩, .refl _⟩
  | append_singleton calls c ih =>
      obtain ⟨hmask, ⟨w, htrace, hqueues⟩, hperm⟩ := ih
      have hholds : (RunQueue.run calls).1.Holds w := ⟨hmask, hqueues⟩
      have hrun : RunQueue.run (calls ++ [c]) = RunQueue.answer (RunQueue.run calls) c := by
        simp [RunQueue.run]
      have hmap : (calls ++ [c]).map atLevel = calls.map atLevel ++ [atLevel c] := by simp
      rw [hrun]
      generalize RunQueue.run calls = st at *
      obtain ⟨r, outs⟩ := st
      cases c with
      | push pid prio =>
          have hpush := hholds.push pid prio
          refine ⟨hpush.mask, ⟨_, hmap ▸ htrace.push pid (level prio), hpush.queues⟩, ?_⟩
          rw [pushed_append]
          refine (hperm.append_right _).trans ?_
          rw [List.append_assoc]
          refine List.Perm.append_left _ ?_
          exact (List.perm_append_singleton pid r.pids).trans (push_pids r pid prio).symm
      | pop =>
          have hsame : pushed (calls ++ [.pop]) = pushed calls := by simp [pushed_append, pushed]
          cases hpop : r.pop with
          | none =>
              obtain rfl := hholds.empty hpop
              simp only [RunQueue.answer, hpop]
              refine ⟨hmask, ⟨[], hmap ▸ htrace.empty, hqueues⟩, ?_⟩
              rw [hsame]
              simpa [List.reduceOption_append] using hperm
          | some out =>
              obtain ⟨pid, r'⟩ := out
              obtain ⟨i, rest, hserves, hafter⟩ := hholds.pop hpop
              simp only [RunQueue.answer, hpop]
              refine ⟨hafter.mask, ⟨rest, hmap ▸ htrace.pop hserves, hafter.queues⟩, ?_⟩
              have hone := (pop_pids hpop).append_left outs.reduceOption
              rw [hsame]
              simpa [List.reduceOption_append] using hperm.trans hone

end Scheduler
