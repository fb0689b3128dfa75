import Mathlib

/-!
# Guarded runs of a transition system

A transition system has boot states and a partial step function on labelled
events; `none` means that the event is impossible in that state, or that it
ends the run.  `Run M ok s` says that `s` is reached by a run each of whose
events satisfied the guard `ok` in the state it was taken in.  An unguarded
run is `Reach M s`.

The guard is what separates the runs on which a property holds from the runs
that break it: a theorem about all runs and a theorem about the runs whose
steps all meet a condition are proved by the same rule, `Run.invariant`.
-/

/-- Boot states and a partial, labelled step function. -/
structure TransitionSystem (σ ε : Type) where
  boot : σ → Prop
  next : σ → ε → Option σ

namespace TransitionSystem

variable {σ ε : Type} (M : TransitionSystem σ ε)

/-- States reached by runs whose events all satisfy `ok`. -/
inductive Run (ok : σ → ε → Prop) : σ → Prop
  | boot {s : σ} (h : M.boot s) : Run ok s
  | step {s t : σ} {e : ε} (run : Run ok s) (hok : ok s e)
      (h : M.next s e = some t) : Run ok t

/-- States reached by any run. -/
def Reach : σ → Prop := M.Run (fun _ _ => True)

/-- Execute a list of events. -/
def exec : σ → List ε → Option σ
  | s, [] => some s
  | s, e :: es => (M.next s e).bind (fun t => exec t es)

/-- Execute a list of events that must all satisfy a decidable guard. -/
def execIf (ok : σ → ε → Prop) [∀ s e, Decidable (ok s e)] : σ → List ε → Option σ
  | s, [] => some s
  | s, e :: es => if ok s e then (M.next s e).bind (fun t => execIf ok t es) else none

variable {M}

/-- **The invariant rule.**  What holds at boot and is kept by every guarded
step holds in every state a guarded run reaches. -/
theorem Run.invariant {ok : σ → ε → Prop} {I : σ → Prop}
    (hboot : ∀ s, M.boot s → I s)
    (hstep : ∀ s e t, I s → ok s e → M.next s e = some t → I t)
    {s : σ} (h : M.Run ok s) : I s := by
  induction h with
  | boot h => exact hboot _ h
  | step _ hok hnext ih => exact hstep _ _ _ ih hok hnext

/-- A stronger guard has fewer runs. -/
theorem Run.mono {ok ok' : σ → ε → Prop}
    (hsub : ∀ s e, ok s e → ok' s e) {s : σ} (h : M.Run ok s) : M.Run ok' s := by
  induction h with
  | boot h => exact Run.boot h
  | step _ hok hnext ih => exact Run.step ih (hsub _ _ hok) hnext

/-- Forget the guard. -/
theorem Run.reach {ok : σ → ε → Prop} {s : σ} (h : M.Run ok s) : M.Reach s :=
  h.mono (fun _ _ _ => trivial)

/-- The invariant rule for unguarded runs. -/
theorem Reach.invariant {I : σ → Prop}
    (hboot : ∀ s, M.boot s → I s)
    (hstep : ∀ s e t, I s → M.next s e = some t → I t)
    {s : σ} (h : M.Reach s) : I s :=
  Run.invariant hboot (fun s e t hs _ => hstep s e t hs) h

/-- An executed event list is a run. -/
theorem Reach.exec {es : List ε} {s t : σ} (hs : M.Reach s)
    (h : M.exec s es = some t) : M.Reach t := by
  induction es generalizing s with
  | nil => exact Option.some.inj h ▸ hs
  | cons e es ih =>
      obtain ⟨mid, hmid, hrest⟩ := Option.bind_eq_some_iff.mp h
      exact ih (Run.step hs trivial hmid) hrest

/-- Two runs, one after the other. -/
theorem exec_append {es fs : List ε} {s t : σ} (h : M.exec s es = some t) :
    M.exec s (es ++ fs) = M.exec t fs := by
  induction es generalizing s with
  | nil =>
      obtain rfl := Option.some.inj h
      rfl
  | cons e es ih =>
      obtain ⟨mid, hmid, hrest⟩ := Option.bind_eq_some_iff.mp h
      rw [List.cons_append, exec, hmid]
      exact ih hrest

/-- An executed event list under a guard is a guarded run. -/
theorem Run.execIf {ok : σ → ε → Prop} [∀ s e, Decidable (ok s e)] {es : List ε} {s t : σ}
    (hs : M.Run ok s) (h : M.execIf ok s es = some t) : M.Run ok t := by
  induction es generalizing s with
  | nil => exact Option.some.inj h ▸ hs
  | cons e es ih =>
      rw [TransitionSystem.execIf] at h
      by_cases hok : ok s e
      · rw [if_pos hok] at h
        obtain ⟨mid, hmid, hrest⟩ := Option.bind_eq_some_iff.mp h
        exact ih (Run.step hs hok hmid) hrest
      · rw [if_neg hok] at h
        cases h

/-- A guard on the events alone. -/
theorem Run.exec {ok : σ → ε → Prop} {es : List ε} {s t : σ} (hs : M.Run ok s)
    (hok : ∀ e ∈ es, ∀ s, ok s e) (h : M.exec s es = some t) : M.Run ok t := by
  induction es generalizing s with
  | nil => exact Option.some.inj h ▸ hs
  | cons e es ih =>
      obtain ⟨mid, hmid, hrest⟩ := Option.bind_eq_some_iff.mp h
      have hrun := Run.step hs (hok e List.mem_cons_self s) hmid
      exact ih hrun (fun e' he' => hok e' (List.mem_cons_of_mem e he')) hrest

end TransitionSystem
