import Mathlib

/-!
# First come, first served, level by level

What a priority queue is for, apart from how it is built: calls push an item
with a level, or pop; what waits is kept in order of arrival, and a pop serves
the earliest item among those at the lowest level.  `Trace` says which answers
are right for a sequence of calls.

A queue built of one list for each level is described by `bucket`: the lists
are the waiting items, sorted into levels.  `bucket_push` and `serves_bucket`
say what a push and a pop do to them.
-/

namespace PriorityFifo

variable {α κ : Type} [LinearOrder κ]

/-- What is asked of the queue. -/
inductive Call (α κ : Type)
  | push (a : α) (k : κ)
  | pop

/-- `x` is the earliest of the waiting items at the lowest level, and `rest` is
what still waits without it. -/
def Serves (w : List (α × κ)) (x : α × κ) (rest : List (α × κ)) : Prop :=
  ∃ pre post, w = pre ++ x :: post ∧ rest = pre ++ post ∧
    (∀ y ∈ w, x.2 ≤ y.2) ∧ ∀ y ∈ pre, y.2 ≠ x.2

/-- The answers to a sequence of calls, and what waits after them. -/
inductive Trace : List (Call α κ) → List (Option α) → List (α × κ) → Prop
  | start : Trace [] [] []
  | push {calls : List (Call α κ)} {outs : List (Option α)} {w : List (α × κ)}
      (h : Trace calls outs w) (a : α) (k : κ) :
      Trace (calls ++ [.push a k]) outs (w ++ [(a, k)])
  | empty {calls : List (Call α κ)} {outs : List (Option α)} (h : Trace calls outs []) :
      Trace (calls ++ [.pop]) (outs ++ [none]) []
  | pop {calls : List (Call α κ)} {outs : List (Option α)} {w rest : List (α × κ)} {x : α × κ}
      (h : Trace calls outs w) (hserves : Serves w x rest) :
      Trace (calls ++ [.pop]) (outs ++ [some x.1]) rest

/-- The waiting items of level `k`, in order of arrival. -/
def bucket (k : κ) (w : List (α × κ)) : List α := (w.filter (fun x => x.2 = k)).map Prod.fst

/-- The bucket of two lists is that of one and then the other. -/
theorem bucket_append (k : κ) (w v : List (α × κ)) :
    bucket k (w ++ v) = bucket k w ++ bucket k v := by
  simp [bucket]

/-- An item of the level is in its bucket. -/
theorem bucket_cons_self (a : α) (k : κ) (w : List (α × κ)) :
    bucket k ((a, k) :: w) = a :: bucket k w := by
  simp [bucket]

/-- An item of another level is not. -/
theorem bucket_cons_other {j k : κ} (h : k ≠ j) (a : α) (w : List (α × κ)) :
    bucket j ((a, k) :: w) = bucket j w := by
  simp [bucket, h]

/-- An empty bucket has no item of its level waiting. -/
theorem bucket_eq_nil {k : κ} {w : List (α × κ)} : bucket k w = [] ↔ ∀ y ∈ w, y.2 ≠ k := by
  simp [bucket]

/-- A pushed item goes to the back of its own bucket. -/
theorem bucket_push (a : α) (j k : κ) (w : List (α × κ)) :
    bucket j (w ++ [(a, k)]) = if j = k then bucket j w ++ [a] else bucket j w := by
  rw [bucket_append]
  by_cases h : j = k
  · subst h
    rw [if_pos rfl, bucket_cons_self]
    rfl
  · rw [if_neg h, bucket_cons_other (Ne.symm h), ← List.append_nil (bucket j w)]
    simp [bucket]

/-- Nothing waits if no level has an item. -/
theorem eq_nil_of_bucket {w : List (α × κ)} (h : ∀ k, bucket k w = []) : w = [] := by
  cases w with
  | nil => rfl
  | cons x w => exact absurd rfl (bucket_eq_nil.mp (h x.2) x List.mem_cons_self)

/-- The first item of a level, with what came before it. -/
theorem split_bucket {k : κ} {a : α} {tl : List α} {w : List (α × κ)}
    (h : bucket k w = a :: tl) :
    ∃ pre post, w = pre ++ (a, k) :: post ∧ bucket k post = tl ∧ ∀ y ∈ pre, y.2 ≠ k := by
  induction w with
  | nil => cases h
  | cons x w ih =>
      obtain ⟨b, j⟩ := x
      by_cases hj : j = k
      · subst hj
        rw [bucket_cons_self] at h
        obtain ⟨rfl, htl⟩ := List.cons.inj h
        exact ⟨[], w, rfl, htl, nofun⟩
      · rw [bucket_cons_other hj] at h
        obtain ⟨pre, post, rfl, htl, hpre⟩ := ih h
        refine ⟨(b, j) :: pre, post, rfl, htl, fun y hy => ?_⟩
        rcases List.mem_cons.mp hy with rfl | hy
        · exact hj
        · exact hpre y hy

/-- **A pop from the lowest level that has an item** serves the right one. -/
theorem serves_bucket {k : κ} {a : α} {tl : List α} {w : List (α × κ)}
    (h : bucket k w = a :: tl) (hlow : ∀ j, j < k → bucket j w = []) :
    ∃ rest, Serves w (a, k) rest ∧ bucket k rest = tl ∧
      ∀ j, j ≠ k → bucket j rest = bucket j w := by
  obtain ⟨pre, post, rfl, htl, hpre⟩ := split_bucket h
  refine ⟨pre ++ post, ⟨pre, post, rfl, rfl, fun y hy => ?_, hpre⟩, ?_, fun j hj => ?_⟩
  · by_contra hlt
    exact bucket_eq_nil.mp (hlow y.2 (not_le.mp hlt)) y hy rfl
  · rw [bucket_append, bucket_eq_nil.mpr hpre, htl]
    rfl
  · rw [bucket_append, bucket_append, bucket_cons_other (Ne.symm hj)]

end PriorityFifo
