import Noxisa.PreemptionSteps

/-!
# The timer interrupt

A timer interrupt that finds both locks free and a pid in the queue switches
tasks in one go.  `Preempted` says all it does.  It keeps the invariant if
`current` names the running task; it loses the pid that `exit_current` has
popped, if it comes right before the store to `current`.
-/

namespace Preemption

open Scheduler

/-- The interrupt switches tasks. -/
def Machine.Preempts (m : Machine) : Prop :=
  m.writer = none ∧ m.rqOwner = none ∧ m.sched.rq.pop.isSome

instance (m : Machine) : Decidable m.Preempts := inferInstanceAs (Decidable (_ ∧ _))

section

variable {strict : Prop} {m m' : Machine} {locals : List (Nat × Nat)} {lost : List Nat} {next : Nat}

/-- An interrupt that switches to the task `next`. -/
structure Preempted (m m' : Machine) (next : Nat) : Prop where
  queued : next ∈ m.sched.rq.pids
  next_ne : next ≠ m.self
  alive : m.Alive next
  self_eq : m'.self = next
  point_eq : m'.point = m.left next
  left_eq : m'.left = Function.update m.left m.self m.point
  readers_eq : m'.readers = m.readers
  writer_eq : m'.writer = none
  rqOwner_eq : m'.rqOwner = none
  current_eq : m'.sched.current = next
  nextPid_eq : m'.sched.nextPid = m.sched.nextPid
  length_eq : m'.sched.tasks.length = m.sched.tasks.length
  lookup_eq : ∀ x, lookup m'.sched.tasks x =
    if x = next then (lookup m.sched.tasks x).map (fun t => { t with state := .running })
    else if x = m.self then (lookup m.sched.tasks x).map (outgoing ⟨m.self, m.point⟩)
    else lookup m.sched.tasks x

/-- An interrupt that does not preempt does nothing. -/
theorem tick_idle (h : ¬m.Preempts) : m.tick = m := by
  unfold Machine.tick
  by_cases hfree : m.writer = none ∧ m.rqOwner = none
  · rw [if_pos hfree]
    have hpop : m.sched.rq.pop = none := by
      cases hpop : m.sched.rq.pop with
      | none => rfl
      | some out => exact absurd ⟨hfree.1, hfree.2, by rw [hpop]; rfl⟩ h
    have hidle : m.sched.tryPreempt m.cpu = (.idle, m.sched, m.cpu) := by
      rw [tryPreempt, reschedule, hpop]
    rw [hidle]
    rfl
  · rw [if_neg hfree]

/-- **What an interrupt does.** -/
theorem Invariant.preempted (h : Invariant strict m locals lost) (hpre : m.Preempts)
    (hinc : m.point.role.incoming = none) :
    ∃ next, Preempted m m.tick next ∧ Placed next (locals.map Prod.snd ++ lost) m.tick.sched := by
  obtain ⟨hwriter, hrq, hpop⟩ := hpre
  have hcur := h.current_eq hinc
  have hplaced := h.places.placed
  rw [role_exempt_self hinc, ← hcur] at hplaced
  have hleave : CanLeave m.sched m.sched.current := by
    intro t ht
    obtain ⟨u, hu, hst⟩ := h.running.state
    rw [hcur] at ht
    obtain rfl := Option.some.inj (ht.symm.trans hu)
    rw [hst]
    exact role_leaves hinc
  rcases hplaced.reschedule m.cpu h.births.zero hleave with
    ⟨hidle, -⟩ | ⟨next, s, t, hrun, hmem, ht, hplaced', hnext, hpid, hlen, hlook⟩
  · exfalso
    rw [reschedule] at hidle
    cases hq : m.sched.rq.pop with
    | none =>
        rw [hq] at hpop
        cases hpop
    | some out =>
        obtain ⟨next, rq⟩ := out
        obtain ⟨hne, t, ht, -⟩ := (hplaced.pop hq).waiting next List.mem_cons_self
        obtain ⟨s', hs', -⟩ := @switchTo_switched _ { m.sched with rq := rq } m.cpu _ _
          (Ne.symm hne) ht
        rw [hq] at hidle
        dsimp only at hidle
        rw [hs'] at hidle
        cases hidle
  · have hne : next ≠ m.self := hcur ▸ (hplaced.waiting next (List.mem_append_right _ hmem)).1
    have halive : m.Alive next := by
      obtain ⟨-, u, hu, hst⟩ := hplaced.waiting next (List.mem_append_right _ hmem)
      exact Or.inr ⟨u, hu, by rw [hst]; decide⟩
    have htick : m.tick = { m with
        sched := s, self := next, point := m.left next, cr3 := t.cr3
        left := Function.update m.left m.self m.point } := by
      unfold Machine.tick
      rw [if_pos ⟨hwriter, hrq⟩]
      have hrun' : m.sched.tryPreempt m.cpu = (.switched, s, ⟨t.ctx, t.cr3⟩) := hrun
      rw [hrun', (h.regs.owned next t ht).1]
      rfl
    rw [htick]
    refine ⟨next, ⟨hmem, hne, halive, rfl, rfl, rfl, rfl, hwriter, hrq, hnext, hpid, hlen, ?_⟩,
      hplaced'⟩
    intro x
    change lookup s.tasks x = _
    rw [hlook]
    by_cases hx : x = next
    · rw [if_pos hx, if_pos hx, hx, ht]
      rfl
    · rw [if_neg hx, if_neg hx, hcur]
      by_cases hself : x = m.self
      · rw [if_pos hself, if_pos ⟨hself, hself ▸ h.self_ne_zero⟩]
        rfl
      · rw [if_neg hself, if_neg (fun hand => hself hand.1)]

/-- Who is alive after an interrupt. -/
theorem Preempted.alive_iff (hp : Preempted m m' next) {x : Nat} (hself : x ≠ m.self) :
    m'.Alive x ↔ m.Alive x := by
  by_cases hx : x = next
  · subst hx
    exact iff_of_true (Or.inl hp.self_eq.symm) hp.alive
  · have hx' : x ≠ m'.self := hp.self_eq ▸ hx
    simp only [Machine.Alive, hx', hself, false_or]
    rw [hp.lookup_eq, if_neg hx, if_neg hself]

/-- The task taken off the core lives on unless it has become a zombie. -/
theorem Preempted.alive_self (h : Invariant strict m locals lost) (hp : Preempted m m' next) :
    m'.Alive m.self ↔ m.point.role.state ≠ .zombie := by
  obtain ⟨t, ht, hst⟩ := h.running.state
  have hself' : m.self ≠ m'.self := hp.self_eq ▸ hp.next_ne.symm
  simp only [Machine.Alive, hself', false_or]
  rw [hp.lookup_eq, if_neg hp.next_ne.symm, if_pos rfl, ht]
  simp only [Option.map_some, Option.some.injEq, exists_eq_left', outgoing, ← hst]
  by_cases hrun : t.state = .running
  · simp [hrun]
  · simp [hrun]

/-- Every task stays where it is. -/
theorem Preempted.at_eq (hp : Preempted m m' next) (x : Nat) : m'.at x = m.at x := by
  by_cases hx : x = next
  · have hx' : x = m'.self := hx.trans hp.self_eq.symm
    rw [hx', Machine.at_self, ← hx', hx, Machine.at_other hp.next_ne, hp.point_eq]
  · rw [Machine.at_other (hp.self_eq ▸ hx), hp.left_eq, Function.update_apply]
    rfl

/-- What is in the local variables of a task that has not exited stays there. -/
theorem Preempted.has_iff (h : Invariant strict m locals lost) (hp : Preempted m m' next)
    {f : Duty → Option Nat}
    (hzombie : m.point.role.state = .zombie → f m.point.role.toDuty = none) (x y : Nat) :
    m'.Has f x y ↔ m.Has f x y := by
  rw [Machine.Has, Machine.Has, hp.at_eq]
  by_cases hself : x = m.self
  · subst hself
    rw [hp.alive_self h, Machine.at_self]
    constructor
    · exact fun hand => ⟨Or.inl rfl, hand.2⟩
    · rintro ⟨-, hf⟩
      refine ⟨fun hst => ?_, hf⟩
      rw [hzombie hst] at hf
      cases hf
  · rw [hp.alive_iff hself]

/-- The saved registers after an interrupt. -/
theorem Preempted.registers (h : Invariant strict m locals lost) (hp : Preempted m m' next)
    (hpre : m.Preempts) (hinc : m.point.role.incoming = none) : Registers m' := by
  refine ⟨fun x t' ht' => ?_, fun x hx hne => ?_⟩
  · rw [hp.lookup_eq] at ht'
    rw [hp.left_eq, Function.update_apply]
    by_cases hxn : x = next
    · rw [if_pos hxn] at ht'
      obtain ⟨t, ht, rfl⟩ := Option.map_eq_some_iff.mp ht'
      rw [if_neg (hxn ▸ hp.next_ne)]
      exact h.regs.owned x t ht
    · rw [if_neg hxn] at ht'
      by_cases hself : x = m.self
      · rw [if_pos hself] at ht' ⊢
        obtain ⟨t, ht, rfl⟩ := Option.map_eq_some_iff.mp ht'
        rw [hself]
        exact ⟨rfl, (h.regs.owned x t ht).2⟩
      · rw [if_neg hself] at ht' ⊢
        exact h.regs.owned x t' ht'
  · rw [hp.self_eq] at hne
    rw [hp.left_eq, Function.update_apply]
    by_cases hself : x = m.self
    · rw [if_pos hself, hself]
      rw [hself, hp.alive_self h] at hx
      have hrun := h.running
      have hwriter := hrun.writer
      have hrq := hrun.rqOwner
      rw [hpre.1] at hwriter
      rw [hpre.2.1] at hrq
      refine ⟨hinc, (role_leaves hinc).resolve_right hx, ?_, ?_, hrun.fits⟩
      · by_contra hw
        rw [Bool.not_eq_false] at hw
        rw [hw] at hwriter
        cases hwriter
      · by_contra hl
        rw [Bool.not_eq_false] at hl
        rw [hl] at hrq
        cases hrq
    · rw [if_neg hself]
      exact h.regs.parked x ((hp.alive_iff hself).mp hx) hself

/-- **An interrupt outside a handover** keeps the invariant. -/
theorem Invariant.tick (h : Invariant strict m locals lost)
    (hinc : m.Preempts → m.point.role.incoming = none)
    (hstrict : strict → m.Preempts → ∀ n, m.point ≠ .exitStore n) : Kept strict m m.tick := by
  by_cases hpre : m.Preempts
  · have hinc := hinc hpre
    obtain ⟨next, hp, hplaced⟩ := h.preempted hpre hinc
    have hpark := h.regs.parked next hp.alive hp.next_ne
    have hexempt : m.tick.point.role.exempt m.tick.self = next := by
      rw [hp.point_eq, role_exempt_self hpark.incoming, hp.self_eq]
    have hregs := hp.registers h hpre hinc
    have hrunning : Running m.tick m.tick.point := by
      obtain ⟨t, ht⟩ := h.alive_block hp.alive
      have ht' : lookup m.tick.sched.tasks m.tick.self = some { t with state := .running } := by
        rw [hp.self_eq, hp.lookup_eq, if_pos rfl, ht]
        rfl
      refine running_arrive ?_ (hp.current_eq.trans hp.self_eq.symm) ht' rfl hp.writer_eq
        hp.rqOwner_eq
      rw [hp.point_eq, hp.self_eq]
      exact hpark
    have hbirths : Births m.tick := by
      refine h.births.keep (hp.has_iff h role_zombie_child) hp.nextPid_eq hp.length_eq.le ?_
      intro x hx
      rw [hp.lookup_eq, hx]
      split
      · rfl
      · split <;> rfl
    have hothers : Others m m.tick :=
      fun x hx halive => ⟨(hp.alive_iff hx).mpr halive, hp.at_eq x⟩
    have hblocks : Blocks m m.tick := by
      intro x t _ ht
      rw [hp.lookup_eq, ht]
      by_cases hxn : x = next
      · subst hxn
        obtain ⟨u, hu, hst⟩ := hp.alive.resolve_left hp.next_ne
        obtain rfl := Option.some.inj (ht.symm.trans hu)
        exact ⟨_, if_pos rfl, rfl, fun hzombie => absurd hzombie hst⟩
      · rw [if_neg hxn]
        by_cases hself : x = m.self
        · refine ⟨_, if_pos hself, rfl, fun hzombie => ?_⟩
          simp [outgoing, hzombie]
        · exact ⟨t, if_neg hself, rfl, id⟩
    by_cases hlose : ∃ n, m.point = .exitStore n
    · -- the pid that was popped is in no local variable of a live task any more
      obtain ⟨n, hn⟩ := hlose
      have hholds : m.point.role.holds = some n := by rw [hn]; rfl
      obtain ⟨hperm, hnd⟩ := h.places.split hholds
      refine ⟨⟨locals.erase (m.self, n), n :: lost, ⟨⟨?_, ?_, ?_⟩, hregs, hrunning, hbirths⟩⟩,
        hothers, hblocks⟩
      · rw [hexempt]
        exact hplaced.perm (hperm.trans List.perm_middle.symm)
      · intro x y
        rw [hnd.mem_erase_iff, h.places.locals_iff, Machine.Has, Machine.Has, hp.at_eq]
        by_cases hself : x = m.self
        · subst hself
          rw [hp.alive_self h, Machine.at_self, hn]
          refine iff_of_false ?_ (fun hand => hand.1 rfl)
          rintro ⟨hne, -, hy⟩
          exact hne (Prod.ext rfl (Option.some.inj hy).symm)
        · rw [hp.alive_iff hself]
          have hne : (x, y) ≠ (m.self, n) := fun heq => hself (Prod.mk.inj heq).1
          exact and_iff_right hne
      · exact fun hs => absurd hn (hstrict hs hpre n)
    · refine ⟨⟨locals, lost, ⟨h.places.keep (hp.has_iff h ?_) (hexempt ▸ hplaced), hregs, hrunning,
        hbirths⟩⟩, hothers, hblocks⟩
      intro hst
      have hlocks : m.point.role.locks = false := by
        have hrq := h.running.rqOwner
        rw [hpre.2.1] at hrq
        by_contra hl
        rw [Bool.not_eq_false] at hl
        rw [hl] at hrq
        cases hrq
      rcases role_zombie hst hinc hlocks with hpoint | hpoint | hpoint
      · rw [hpoint]; rfl
      · rw [hpoint]; rfl
      · exact absurd hpoint hlose
  · rw [tick_idle hpre]
    exact ⟨h.inv, Others.refl m, blocks_of_tasks rfl⟩

end

end Preemption
