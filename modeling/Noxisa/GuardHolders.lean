import Noxisa.PreemptionRuns

/-!
# Who holds a guard

A read guard of the task table does not stop the timer.  A task that is
switched away while it has one keeps it until it runs again, so a guard in the
hands of a zombie that has lost the CPU is never given back.  `exit_current`
has a read guard when it makes its task a zombie; if no interrupt comes before
it drops the guard, every guard is held by a task that is going to run
(`calm_guards`).
-/

namespace Preemption

open Scheduler

/-- The read guards are those of live tasks, one each. -/
structure Readers (m : Machine) : Prop where
  nodup : m.readers.Nodup
  live : ∀ h ∈ m.readers, m.Alive h ∧ (m.at h).role.reads = true

/-- `exit_current` has a read guard, and its task is a zombie. -/
def Point.exitsReading : Point → Bool
  | .exitDrop => true
  | _ => false

section

variable {strict : Prop} {m m' : Machine} {locals : List (Nat × Nat)} {lost : List Nat} {next : Nat}

/-- A task without a read guard is not among the readers. -/
theorem Readers.not_mem (hr : Readers m) (hrole : m.point.role.reads = false) :
    m.self ∉ m.readers := by
  intro hmem
  have hreads := (hr.live m.self hmem).2
  rw [Machine.at_self, hrole] at hreads
  cases hreads

/-- Another task keeps its guard. -/
theorem Readers.other (hr : Readers m) (ho : Others m m') {x : Nat} (hx : x ≠ m.self)
    (hmem : x ∈ m.readers) : m'.Alive x ∧ (m'.at x).role.reads = true := by
  obtain ⟨halive, hreads⟩ := hr.live x hmem
  obtain ⟨halive', hat⟩ := ho x hx halive
  exact ⟨halive', hat ▸ hreads⟩

/-- **A step** takes or drops the guard of the running task. -/
theorem Readers.step (hr : Readers m) (h : Stepped strict m m') : Readers m' := by
  cases h.reads with
  | same hself hreaders hrole =>
      refine ⟨hreaders ▸ hr.nodup, fun x hx => ?_⟩
      rw [hreaders] at hx
      by_cases hxs : x = m.self
      · have hreads := (hr.live x hx).2
        rw [hxs, Machine.at_self, ← hrole] at hreads
        rw [hxs, ← hself, Machine.at_self]
        exact ⟨Or.inl rfl, hreads⟩
      · exact hr.other h.others hxs hx
  | lock hself hreaders hrole hrole' =>
      refine ⟨hreaders ▸ List.nodup_cons.mpr ⟨hr.not_mem hrole, hr.nodup⟩, fun x hx => ?_⟩
      rw [hreaders] at hx
      by_cases hxs : x = m.self
      · rw [hxs, ← hself, Machine.at_self]
        exact ⟨Or.inl rfl, hrole'⟩
      · exact hr.other h.others hxs ((List.mem_cons.mp hx).resolve_left hxs)
  | unlock hself hreaders =>
      refine ⟨hreaders ▸ hr.nodup.erase _, fun x hx => ?_⟩
      rw [hreaders] at hx
      obtain ⟨hxs, hmem⟩ := hr.nodup.mem_erase_iff.mp hx
      exact hr.other h.others hxs hmem
  | leave hreaders hrole =>
      refine ⟨hreaders ▸ hr.nodup, fun x hx => ?_⟩
      rw [hreaders] at hx
      have hxs : x ≠ m.self := by
        rintro rfl
        exact hr.not_mem hrole hx
      exact hr.other h.others hxs hx

/-- The task that loses the CPU keeps its guard, and it is not a zombie. -/
theorem Readers.preempted (hI : Invariant strict m locals lost) (hr : Readers m)
    (hpre : m.Preempts) (hp : Preempted m m' next) (hinc : m.point.role.incoming = none)
    (hdrop : m.point ≠ .exitDrop) : Readers m' := by
  refine ⟨hp.readers_eq ▸ hr.nodup, fun x hx => ?_⟩
  rw [hp.readers_eq] at hx
  obtain ⟨halive, hreads⟩ := hr.live x hx
  rw [hp.at_eq]
  by_cases hxs : x = m.self
  · subst hxs
    refine ⟨(hp.alive_self hI).mpr (fun hst => ?_), hreads⟩
    rw [Machine.at_self] at hreads
    have hrq := hI.running.rqOwner
    rw [hpre.2.1] at hrq
    have hlocks : m.point.role.locks = false := by
      by_contra hl
      rw [Bool.not_eq_false] at hl
      rw [hl] at hrq
      cases hrq
    rcases role_zombie hst hinc hlocks with hpoint | hpoint | ⟨n, hpoint⟩
    · exact hdrop hpoint
    · rw [hpoint] at hreads
      cases hreads
    · rw [hpoint] at hreads
      cases hreads
  · exact ⟨(hp.alive_iff hxs).mpr halive, hreads⟩

end

/-- Every guard is in the hands of a task that runs or has not exited. -/
structure GuardsLive (m : Machine) : Prop where
  readers : ∀ h ∈ m.readers, m.Alive h
  writer : ∀ h, m.writer = some h → m.Alive h
  rqOwner : ∀ h, m.rqOwner = some h → m.Alive h

/-- **Guards in calm runs.**  If no interrupt switches tasks during a handover,
or while `exit_current` has its read guard as a zombie, no guard is ever held by
a zombie that has lost the CPU. -/
theorem calm_guards {m : Machine} (h : preemption.Run (Calm Point.exitsReading) m) :
    GuardsLive m := by
  have hinv : Inv False m ∧ Readers m := by
    refine TransitionSystem.Run.invariant (I := fun m => Inv False m ∧ Readers m) ?_ ?_ h
    · rintro _ ⟨cr3, rfl⟩
      exact ⟨(boot_invariant cr3).inv, List.nodup_nil, nofun⟩
    · rintro m e m' ⟨⟨locals, lost, hI⟩, hr⟩ hcalm hnext
      refine ⟨(next_kept (fun hs => hs.elim) hI hcalm hnext).inv, ?_⟩
      cases e with
      | call op =>
          simp only [preemption, Machine.next] at hnext
          split at hnext
          next hwork =>
            obtain rfl := Option.some.inj hnext
            exact hr.step (hI.call hwork op)
          next => cases hnext
      | step => exact hr.step (hI.step hcalm hnext)
      | tick =>
          obtain rfl := Option.some.inj hnext
          by_cases hpre : m.Preempts
          · obtain ⟨hhands, hbad⟩ := hcalm hpre
            have hinc := incoming_eq_none.mpr hhands
            obtain ⟨next, hp, -⟩ := hI.preempted hpre hinc
            refine hr.preempted hI hpre hp hinc (fun hdrop => ?_)
            rw [hdrop] at hbad
            cases hbad
          · rw [tick_idle hpre]
            exact hr
  obtain ⟨⟨locals, lost, hI⟩, hr⟩ := hinv
  refine ⟨fun x hx => (hr.live x hx).1, fun x hx => Or.inl ?_, fun x hx => Or.inl ?_⟩
  · have hwriter := hI.running.writer
    rw [hx] at hwriter
    split at hwriter
    · exact Option.some.inj hwriter
    · cases hwriter
  · have hrq := hI.running.rqOwner
    rw [hx] at hrq
    split at hrq
    · exact Option.some.inj hrq
    · cases hrq

/-- A task is switched away while it reads, and another one exits. -/
theorem sample_calm_guards : ∃ m,
    preemption.execIf (Calm Point.exitsReading) (bootMachine 0x1000)
      (calling .spawn 7 ++ calling .get 1 ++ [.tick] ++ calling .exitCurrent 2) = some m ∧
    m.readers = [2, 1] ∧ GuardsLive m := by
  have hrun : (preemption.execIf (Calm Point.exitsReading) (bootMachine 0x1000)
      (calling .spawn 7 ++ calling .get 1 ++ [.tick] ++ calling .exitCurrent 2)).map
        Machine.readers = some [2, 1] := by
    decide +kernel
  obtain ⟨m, hm, hreaders⟩ := Option.map_eq_some_iff.mp hrun
  exact ⟨m, hm, hreaders,
    calm_guards (TransitionSystem.Run.execIf (TransitionSystem.Run.boot ⟨_, rfl⟩) hm)⟩

/-- **A guard is lost**: task 2 is a zombie and has lost the CPU with its read
guard, and a `tasks.write()` waits for it. -/
theorem guard_lost : ∃ m, preemption.Reach m ∧ ¬GuardsLive m ∧
    ∃ pid, m.point = .reapWrite pid ∧ m.step.isNone := by
  have hboot : preemption.Reach (bootMachine 0x1000) := TransitionSystem.Run.boot ⟨_, rfl⟩
  have hrun : (preemption.exec (bootMachine 0x1000) (calling .spawn 7 ++ calling .yieldNow 15 ++
      calling .exitCurrent 3 ++ [.tick] ++ calling (.reap 2) 0)).map (fun m =>
        (m.readers, m.self, (lookup m.sched.tasks 2).map Tcb.state, m.step.isNone)) =
      some ([2], 1, some .zombie, true) := by
    decide +kernel
  have hpoint : (preemption.exec (bootMachine 0x1000) (calling .spawn 7 ++ calling .yieldNow 15 ++
      calling .exitCurrent 3 ++ [.tick] ++ calling (.reap 2) 0)).map Machine.point =
      some (.reapWrite 2) := by
    decide +kernel
  obtain ⟨m, hm, hfacts⟩ := Option.map_eq_some_iff.mp hrun
  simp only [Prod.mk.injEq] at hfacts
  obtain ⟨hreaders, hself, hstate, hwaits⟩ := hfacts
  rw [hm] at hpoint
  refine ⟨m, hboot.exec hm, fun h => ?_, 2, Option.some.inj hpoint, hwaits⟩
  rcases h.readers 2 (hreaders ▸ List.mem_singleton_self 2) with heq | ⟨t, ht, hst⟩
  · rw [hself] at heq
    cases heq
  · rw [ht] at hstate
    exact hst (Option.some.inj hstate)

end Preemption
