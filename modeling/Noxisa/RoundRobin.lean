import Noxisa.SchedulerRuns

/-!
# Round robin

All tasks have the priority that `spawn` gives them, so that one of the queues is in use.  A
task that waits there as number `i` (from 0) is the current one after `i + 1` switches, and
not before, whatever is spawned, reaped or computed in between (`waits_its_turn`).
-/

namespace Scheduler

variable {κ : Type} {s : Scheduler κ} {cpu : Cpu κ}

/-- The queue for the priority of `spawn`. -/
def queue (s : Scheduler κ) : List Nat := s.rq.q (level defaultPrio)

/-- All tasks have the priority that `spawn` gives. -/
def OnePriority (s : Scheduler κ) : Prop :=
  ∀ pid t, lookup s.tasks pid = some t → t.priority = defaultPrio

/-- With one priority in use, a task is queued behind all the others. -/
theorem queue_enqueue (s : Scheduler κ) (pid : Nat) :
    queue (s.enqueue pid defaultPrio) = queue s ++ [pid] := by
  unfold queue enqueue RunQueue.push
  exact Function.update_self (level defaultPrio) _ s.rq.q

/-- A pop takes the head of that queue. -/
theorem Consistent.pop_queue (h : Consistent s) (hprio : OnePriority s) :
    s.rq.pop = none ∧ queue s = [] ∨
    ∃ next rest rq, queue s = next :: rest ∧ s.rq.pop = some (next, rq) ∧
      rq.q (level defaultPrio) = rest := by
  cases hpop : s.rq.pop with
  | none =>
      have hempty := List.flatMap_eq_nil_iff.mp (pop_none h.placed.mask hpop)
      exact Or.inl ⟨rfl, hempty _ (List.mem_finRange _)⟩
  | some out =>
      obtain ⟨next, rq⟩ := out
      obtain ⟨p, rest, -, hq, rfl⟩ := pop_cases hpop
      have hnext : next ∈ s.rq.q p := hq ▸ List.mem_cons_self
      obtain ⟨-, t, ht, -⟩ := h.placed.waiting next (mem_pids.mpr ⟨p, hnext⟩)
      have hlevel : level defaultPrio = p := hprio next t ht ▸ h.placed.levels p next hnext t ht
      refine Or.inr ⟨next, rest, _, ?_, rfl, ?_⟩
      · rw [queue, hlevel]
        exact hq
      · rw [hlevel]
        exact Function.update_self _ _ _

/-- Who leaves the CPU goes to the end of the queue. -/
theorem Consistent.demote_queue (h : Consistent s) (hprio : OnePriority s) {rq : RunQueue}
    {rest : List Nat} (hrq : rq.q (level defaultPrio) = rest) :
    queue (if s.current ≠ 0 then { s with rq := rq }.demote s.current else { s with rq := rq }) =
      rest ++ if s.current = 0 then [] else [s.current] := by
  by_cases hzero : s.current = 0
  · rw [if_neg (not_not.mpr hzero), if_pos hzero, List.append_nil]
    exact hrq
  · obtain ⟨t, ht, hrun⟩ := h.running hzero
    rw [if_pos hzero, if_neg hzero, ← hrq]
    unfold demote
    rw [show lookup ({ s with rq := rq } : Scheduler κ).tasks s.current = some t from ht]
    dsimp only
    rw [if_pos hrun, hprio _ t ht]
    exact queue_enqueue _ _

/-- **A reschedule** is idle, or hands the CPU to the head of the queue. -/
theorem Consistent.reschedule_queue (h : Consistent s) (hprio : OnePriority s) (cpu : Cpu κ) :
    queue s = [] ∧ (Scheduler.reschedule s cpu).2.1 = s ∨
    ∃ next rest, queue s = next :: rest ∧ (Scheduler.reschedule s cpu).2.1.current = next ∧
      queue (Scheduler.reschedule s cpu).2.1 =
        rest ++ if s.current = 0 then [] else [s.current] := by
  rcases h.pop_queue hprio with ⟨hpop, hqueue⟩ | ⟨next, rest, rq, hqueue, hpop, hrq⟩
  · refine Or.inl ⟨hqueue, ?_⟩
    rw [Scheduler.reschedule, hpop]
  · refine Or.inr ⟨next, rest, hqueue, ?_⟩
    obtain ⟨hne, t, ht, -⟩ := (h.placed.pop hpop).waiting next List.mem_cons_self
    obtain ⟨s', hs', hcur, -, -, hrq', -⟩ :=
      @switchTo_switched κ { s with rq := rq } cpu next t (Ne.symm hne) ht
    rw [Scheduler.reschedule, hpop]
    dsimp only
    rw [hs']
    refine ⟨hcur, ?_⟩
    rw [queue, hrq']
    exact h.demote_queue hprio hrq

/-- An operation that gives the CPU to another task, if one is queued. -/
def Op.switches : Op → Bool
  | .run | .yieldNow | .tryPreempt | .exitCurrent => true
  | .spawn _ | .reap _ | .work _ _ => false

/-- What an operation does to the queue. -/
inductive Turn (s s' : Scheduler κ) (op : Op) : Prop
  | waits (new : List Nat) (hswitch : op.switches = false) (hcurrent : s'.current = s.current)
      (hqueue : queue s' = queue s ++ new)
  | idles (hswitch : op.switches = true) (hempty : queue s = []) (hcurrent : s'.current = s.current)
      (hqueue : queue s' = queue s)
  | turns (next : Nat) (rest new : List Nat) (hswitch : op.switches = true)
      (hhead : queue s = next :: rest) (hcurrent : s'.current = next)
      (hqueue : queue s' = rest ++ new)

/-- **A switch serves the head of the queue.** -/
theorem reschedule_turn (h : Consistent s) (hprio : OnePriority s) (cpu : Cpu κ) {op : Op}
    (hop : op.switches = true) : Turn s (Scheduler.reschedule s cpu).2.1 op := by
  rcases h.reschedule_queue hprio cpu with ⟨hempty, hsame⟩ | ⟨next, rest, hhead, hcur, hqueue⟩
  · exact .idles hop hempty (by rw [hsame]) (by rw [hsame])
  · exact .turns next rest _ hop hhead hcur hqueue

/-- A task that exits is not queued. -/
theorem exitCurrent_turn {s' : Scheduler κ} {cpu' : Cpu κ} (h : Consistent s)
    (hprio : OnePriority s) (hexit : Scheduler.exitCurrent s = .ok (s', cpu')) :
    Turn s s' .exitCurrent := by
  have hrq : ∀ z : Scheduler κ, (if s.current ≠ 0 then s.setState s.current .zombie else s) = z →
      z.rq = s.rq := by
    rintro z rfl
    split <;> rfl
  unfold Scheduler.exitCurrent at hexit
  generalize hz : (if s.current ≠ 0 then s.setState s.current .zombie else s) = z at hexit
  rcases h.pop_queue hprio with ⟨hpop, -⟩ | ⟨next, rest, rq, hqueue, hpop, htail⟩
  · simp only [hrq z hz, hpop] at hexit
    cases hexit
  · simp only [hrq z hz, hpop] at hexit
    split at hexit
    next => cases hexit
    next t ht =>
      obtain ⟨rfl, -⟩ := Prod.mk.inj (Outcome.ok.inj hexit)
      exact .turns next rest [] rfl hqueue rfl (by rw [List.append_nil]; exact htail)

/-- **Every operation.** -/
theorem next_turn {k k' : Kernel} {op : Op} (h : Consistent k.sched) (hprio : OnePriority k.sched)
    (hnext : k.next op = some k') : Turn k.sched k'.sched op := by
  cases op with
  | spawn entry =>
      simp only [Kernel.next] at hnext
      split at hnext
      next pid k1 hrun =>
        obtain rfl := Option.some.inj hnext
        obtain ⟨-, -, stackPhys, ctx, -, heq⟩ := spawn_ok hrun
        rw [heq]
        exact .waits [pid] rfl rfl (queue_enqueue _ _)
      next => cases hnext
  | run =>
      obtain rfl := Option.some.inj hnext
      exact reschedule_turn h hprio _ rfl
  | yieldNow =>
      obtain rfl := Option.some.inj hnext
      exact reschedule_turn h hprio _ rfl
  | tryPreempt =>
      obtain rfl := Option.some.inj hnext
      exact reschedule_turn h hprio _ rfl
  | exitCurrent =>
      simp only [Kernel.next] at hnext
      split at hnext
      next s cpu hrun =>
        obtain rfl := Option.some.inj hnext
        exact exitCurrent_turn h hprio hrun
      next => cases hnext
  | reap pid =>
      simp only [Kernel.next] at hnext
      split at hnext
      next k1 hrun =>
        obtain rfl := Option.some.inj hnext
        obtain ⟨t, -, -, heq⟩ := reap_ok hrun
        rw [heq]
        exact .waits [] rfl rfl (List.append_nil _).symm
      next => cases hnext
  | work cpu mem =>
      obtain rfl := Option.some.inj hnext
      exact .waits [] rfl rfl (List.append_nil _).symm

/-- A reschedule gives no task another priority. -/
theorem Consistent.reschedule_onePriority (h : Consistent s) (hprio : OnePriority s)
    (cpu : Cpu κ) : OnePriority (Scheduler.reschedule s cpu).2.1 := by
  rcases h.placed.reschedule cpu h.zero h.canLeave with
    ⟨heq, -⟩ | ⟨next, s', t, heq, -, ht, -, -, -, -, hlook⟩
  · rw [heq]
    exact hprio
  · rw [heq]
    intro pid u hu
    rw [hlook] at hu
    split at hu
    · obtain rfl := Option.some.inj hu
      exact hprio next t ht
    · split at hu
      · obtain ⟨v, hv, rfl⟩ := Option.map_eq_some_iff.mp hu
        exact hprio pid v hv
      · exact hprio pid u hu

/-- Nor does the exit of the running task. -/
theorem Consistent.exitCurrent_onePriority {s' : Scheduler κ} {cpu' : Cpu κ} (h : Consistent s)
    (hprio : OnePriority s) (hexit : Scheduler.exitCurrent s = .ok (s', cpu')) :
    OnePriority s' := by
  rcases h.placed.exitCurrent h.zero with
    ⟨heq, -⟩ | ⟨next, s₁, t, heq, -, ht, -, -, -, -, hlook⟩
  · rw [heq] at hexit
    cases hexit
  · rw [heq] at hexit
    obtain ⟨rfl, -⟩ := Prod.mk.inj (Outcome.ok.inj hexit)
    intro pid u hu
    rw [hlook] at hu
    split at hu
    · obtain rfl := Option.some.inj hu
      exact hprio next t ht
    · split at hu
      · obtain ⟨v, hv, rfl⟩ := Option.map_eq_some_iff.mp hu
        exact hprio pid v hv
      · exact hprio pid u hu

/-- No operation changes a priority. -/
theorem next_onePriority {k k' : Kernel} {op : Op} (h : Consistent k.sched)
    (hprio : OnePriority k.sched) (hnext : k.next op = some k') : OnePriority k'.sched := by
  cases op with
  | spawn entry =>
      simp only [Kernel.next] at hnext
      split at hnext
      next pid k1 hrun =>
        obtain rfl := Option.some.inj hnext
        obtain ⟨-, -, stackPhys, ctx, -, heq⟩ := spawn_ok hrun
        rw [heq]
        intro x u hu
        change lookup (insert k.sched.tasks pid _) x = some u at hu
        rw [lookup_insert] at hu
        split at hu
        · obtain rfl := Option.some.inj hu
          rfl
        · exact hprio x u hu
      next => cases hnext
  | run =>
      obtain rfl := Option.some.inj hnext
      exact h.reschedule_onePriority hprio _
  | yieldNow =>
      obtain rfl := Option.some.inj hnext
      exact h.reschedule_onePriority hprio _
  | tryPreempt =>
      obtain rfl := Option.some.inj hnext
      exact h.reschedule_onePriority hprio _
  | exitCurrent =>
      simp only [Kernel.next] at hnext
      split at hnext
      next s cpu hrun =>
        obtain rfl := Option.some.inj hnext
        exact h.exitCurrent_onePriority hprio hrun
      next => cases hnext
  | reap pid =>
      simp only [Kernel.next] at hnext
      split at hnext
      next k1 hrun =>
        obtain rfl := Option.some.inj hnext
        obtain ⟨t, -, -, heq⟩ := reap_ok hrun
        rw [heq]
        intro x u hu
        change lookup (remove k.sched.tasks pid) x = some u at hu
        rw [lookup_remove] at hu
        split at hu
        · cases hu
        · exact hprio x u hu
      next => cases hnext
  | work cpu mem =>
      obtain rfl := Option.some.inj hnext
      exact hprio

/-- In every state, all tasks have one priority. -/
theorem reach_onePriority {k : Kernel} (hk : schedulerSystem.Reach k) :
    Consistent k.sched ∧ OnePriority k.sched := by
  refine TransitionSystem.Reach.invariant
    (I := fun k => Consistent k.sched ∧ OnePriority k.sched) ?_ ?_ hk
  · intro k hboot
    rw [show k.sched = initial from hboot]
    exact ⟨initial_consistent, fun pid t ht => by cases (lookup_nil pid).symm.trans ht⟩
  · rintro k op k' ⟨h, hprio⟩ hnext
    exact ⟨next_consistent h hnext, next_onePriority h hprio hnext⟩

/-- **Waiting**: a task that is number `i` in the queue moves up by one at each switch, and is
not the current one. -/
theorem exec_waits {ops : List Op} {k k' : Kernel} {i pid : Nat} (hk : schedulerSystem.Reach k)
    (hi : (queue k.sched)[i]? = some pid) (hcount : ops.countP Op.switches ≤ i)
    (hexec : schedulerSystem.exec k ops = some k') :
    (queue k'.sched)[i - ops.countP Op.switches]? = some pid := by
  induction ops generalizing k i with
  | nil =>
      obtain rfl := Option.some.inj hexec
      exact hi
  | cons op ops ih =>
      obtain ⟨mid, hmid, hrest⟩ := Option.bind_eq_some_iff.mp hexec
      obtain ⟨h, hprio⟩ := reach_onePriority hk
      have hreach : schedulerSystem.Reach mid := hk.step trivial hmid
      rw [List.countP_cons] at hcount ⊢
      cases next_turn h hprio hmid with
      | waits new hswitch hcurrent hqueue =>
          rw [hswitch] at hcount ⊢
          have hi' : (queue mid.sched)[i]? = some pid := by
            obtain ⟨hlt, -⟩ := List.getElem?_eq_some_iff.mp hi
            rw [hqueue, List.getElem?_append_left hlt]
            exact hi
          exact ih hreach hi' hcount hrest
      | idles hswitch hempty hcurrent hqueue =>
          rw [hempty] at hi
          cases hi
      | turns next rest new hswitch hhead hcurrent hqueue =>
          rw [hswitch, if_pos rfl] at hcount ⊢
          obtain ⟨j, rfl⟩ : ∃ j, i = j + 1 := ⟨i - 1, by omega⟩
          rw [hhead, List.getElem?_cons_succ] at hi
          have hi' : (queue mid.sched)[j]? = some pid := by
            obtain ⟨hlt, -⟩ := List.getElem?_eq_some_iff.mp hi
            rw [hqueue, List.getElem?_append_left hlt]
            exact hi
          rw [Nat.add_sub_add_right]
          exact ih hreach hi' (by omega) hrest

/-- **Everyone gets a turn**: number `i` in the queue has to wait for `i` switches, and the
next one is to it. -/
theorem waits_its_turn {k k' : Kernel} (hk : schedulerSystem.Reach k) {i pid : Nat}
    (hi : (queue k.sched)[i]? = some pid) {ops : List Op}
    (hexec : schedulerSystem.exec k ops = some k') :
    (ops.countP Op.switches ≤ i → k'.sched.current ≠ pid) ∧
      (ops.countP Op.switches = i → ∀ op k'', op.switches = true → k'.next op = some k'' →
        k''.sched.current = pid) := by
  have hreach : schedulerSystem.Reach k' := hk.exec hexec
  obtain ⟨h, hprio⟩ := reach_onePriority hreach
  constructor
  · intro hcount hcurrent
    have hwaits := exec_waits hk hi hcount hexec
    have hmem : pid ∈ k'.sched.rq.pids := mem_pids.mpr ⟨_, List.mem_of_getElem? hwaits⟩
    exact (h.placed.waiting pid (List.mem_append_right _ hmem)).1 hcurrent.symm
  · intro hcount op k'' hop hnext
    have hhead := exec_waits hk hi hcount.le hexec
    rw [hcount, Nat.sub_self] at hhead
    cases next_turn h hprio hnext with
    | waits new hswitch hcurrent hqueue => cases hop.symm.trans hswitch
    | idles hswitch hempty hcurrent hqueue =>
        rw [hempty] at hhead
        cases hhead
    | turns next rest new hswitch hhead' hcurrent hqueue =>
        rw [hhead'] at hhead
        rw [hcurrent]
        exact Option.some.inj hhead

/-- Of two queued tasks, the second one has its turn after the first. -/
theorem sample_waits_its_turn : ∃ k k' k'',
    schedulerSystem.exec sampleKernel [.spawn 0x8000, .run, .spawn 0x9000, .spawn 0xA000] = some k ∧
      schedulerSystem.exec k [.yieldNow, .spawn 0xB000] = some k' ∧
      k'.next .tryPreempt = some k'' ∧ k''.sched.current = 3 := by
  have hrun : ((schedulerSystem.exec sampleKernel
      [.spawn 0x8000, .run, .spawn 0x9000, .spawn 0xA000]).bind fun k =>
        (schedulerSystem.exec k [.yieldNow, .spawn 0xB000]).bind fun k' =>
          (k'.next .tryPreempt).map fun _ => queue k.sched) = some [2, 3] := by
    decide +kernel
  obtain ⟨k, hk, hrun⟩ := Option.bind_eq_some_iff.mp hrun
  obtain ⟨k', hk', hrun⟩ := Option.bind_eq_some_iff.mp hrun
  obtain ⟨k'', hk'', hqueue⟩ := Option.map_eq_some_iff.mp hrun
  have hboot : schedulerSystem.Reach sampleKernel := TransitionSystem.Run.boot rfl
  have hreach : schedulerSystem.Reach k := hboot.exec hk
  have hi : (queue k.sched)[1]? = some 3 := by rw [hqueue]; rfl
  exact ⟨k, k', k'', hk, hk', hk'',
    (waits_its_turn hreach hi hk').2 rfl .tryPreempt k'' rfl hk''⟩

end Scheduler
