import Noxisa.PreemptionFrame

/-!
# Setting up isolated tasks

`spawn_isolated` lets `spawn` queue the new task, with `isolated_trampoline` as
its entry point, and stores its page table, user entry, stack and capabilities
afterwards, in a second critical section.  In between the queue holds a task
that is not set up.

The one point where an interrupt can switch tasks in that window is before the
write lock of the second section (`Point.inWindow`): before it the lock of the
run queue is taken, after it the write lock.  `isolated_start_ready` says that
without such an interrupt every isolated task is set up before it gets the CPU.
With one, the task is left to the others as it is (`window_left_open`).
`trampoline_set_up` says of each state when the whole queue is right.
-/

namespace Preemption

open Scheduler

/-- The task is in `isolated_trampoline`. -/
def Point.enters : Point → Option Isolation
  | .trampoline i | .trampolineRead i _ | .trampolineUse i _ | .trampolineDrop i => some i
  | _ => none

/-- The isolated task that has a block, and that this code still has to set up. -/
def Point.owes : Point → Option (Nat × Isolation)
  | .spawnDrop b | .spawnLock b | .spawnPush b | .spawnUnlock b =>
      match b.entry with
      | .thread => none
      | .trampoline i => some (b.pid, i)
  | .isolateWrite pid i | .isolatePatch pid i => some (pid, i)
  | _ => none

/-- The isolated task that is queued, and that this code still has to set up. -/
def Point.publishes : Point → Option Nat
  | .spawnUnlock b =>
      match b.entry with
      | .thread => none
      | .trampoline _ => some b.pid
  | .isolateWrite pid _ | .isolatePatch pid _ => some pid
  | _ => none

/-- The new task is queued, and no lock is taken. -/
def Point.inWindow : Point → Bool
  | .isolateWrite _ _ => true
  | _ => false

/-- The block has what the spawner has passed. -/
def Machine.IsSetUp (m : Machine) (i : Isolation) (pid : Nat) : Prop :=
  ∃ t, lookup m.sched.tasks pid = some t ∧
    isolation t = (i.cr3, i.userEntry, i.userStackTop, i.caps)

/-- **Isolated tasks are ready**: a task in the trampoline is set up, and so is
each one that waits there in the queue, unless the code that runs is that of its
spawner, on its way to the set-up. -/
structure StartsReady (m : Machine) : Prop where
  running : ∀ i, m.point.enters = some i → m.IsSetUp i m.self
  queued : ∀ p ∈ m.sched.rq.pids, p ≠ m.self → ∀ t, lookup m.sched.tasks p = some t →
    ∀ i, t.ctx.point.enters = some i → m.IsSetUp i p ∨ m.point.owes = some (p, i)

/-- Each task that waits in the queue to enter the trampoline is set up. -/
def QueueSetUp (m : Machine) : Prop :=
  ∀ p ∈ m.sched.rq.pids, p ≠ m.self → ∀ t, lookup m.sched.tasks p = some t →
    ∀ i, t.ctx.point.enters = some i → m.IsSetUp i p

/-- The task `h` is going to set up the task `x`. -/
def Machine.Owes (m : Machine) (h x : Nat) (i : Isolation) : Prop :=
  m.Alive h ∧ (m.at h).owes = some (x, i)

/-- Every isolated task is set up, or one spawner is about to do it; then it has
not run, and while its spawner does not run it is not even queued. -/
structure Setups (m : Machine) : Prop where
  unique : ∀ h h' x i j, m.Owes h x i → m.Owes h' x j → h = h'
  waits : ∀ h x i, m.Owes h x i → x ≠ m.self ∧ m.Alive x ∧ m.left x = .trampoline i
  bare : ∀ h x i, m.Owes h x i → ∃ t, lookup m.sched.tasks x = some t ∧ t.userEntry = 0
  held : ∀ h x i, m.Owes h x i → h ≠ m.self → m.Has Duty.holds h x
  queued : ∀ x, m.point.publishes = some x → x ∈ m.sched.rq.pids
  setUp : ∀ x i, m.Alive x → (m.at x).enters = some i → m.IsSetUp i x ∨ ∃ h, m.Owes h x i

section

variable {strict : Prop} {m m' : Machine} {locals : List (Nat × Nat)} {lost : List Nat}
  {p : Point} {x : Nat} {i : Isolation}

/-- Where the spawner can be interrupted. -/
theorem owes_role (h : p.owes = some (x, i)) : p.role.state = .running ∧
    (p.role.writes = true ∨ p.role.locks = true ∨ p.role.holds = some x ∨ p.inWindow = true) := by
  cases p
  case spawnDrop b => exact ⟨rfl, Or.inl rfl⟩
  case spawnPush b => exact ⟨rfl, Or.inr (Or.inl rfl)⟩
  case spawnUnlock b => exact ⟨rfl, Or.inr (Or.inl rfl)⟩
  case isolateWrite pid j => exact ⟨rfl, Or.inr (Or.inr (Or.inr rfl))⟩
  case isolatePatch pid j => exact ⟨rfl, Or.inl rfl⟩
  case spawnLock b =>
    cases hentry : b.entry with
    | thread => simp [Point.owes, hentry] at h
    | trampoline j =>
        simp only [Point.owes, hentry, Option.some.injEq, Prod.mk.injEq] at h
        exact ⟨rfl, Or.inr (Or.inr (Or.inl (congrArg some h.1)))⟩
  all_goals cases h

/-- A point that enters a task writes to no block. -/
private theorem enters_writesTo (h : p.enters = some i) : p.writesTo = none := by
  cases p <;> first | rfl | cases h

/-- A point that restores a context owes nothing. -/
private theorem restores_owes (h : p.restores = true) : p.owes = none := by
  cases p <;> first | rfl | cases h

/-- What is queued is not held. -/
theorem publishes_owes (h : p.publishes = some x) :
    p.role.holds = none ∧ ∃ i, p.owes = some (x, i) := by
  cases p
  case spawnUnlock b =>
    cases hentry : b.entry with
    | thread => simp [Point.publishes, hentry] at h
    | trampoline i =>
        simp only [Point.publishes, hentry, Option.some.injEq] at h
        refine ⟨rfl, i, ?_⟩
        simp only [Point.owes, hentry, h]
  case isolateWrite pid i =>
    obtain rfl := Option.some.inj h
    exact ⟨rfl, i, rfl⟩
  case isolatePatch pid i =>
    obtain rfl := Option.some.inj h
    exact ⟨rfl, i, rfl⟩
  all_goals cases h

/-- What has to be set up is held or queued. -/
private theorem owes_cases (h : p.owes = some (x, i)) :
    p.role.holds = some x ∨ p.publishes = some x := by
  cases p
  case spawnDrop b | spawnLock b | spawnPush b =>
    cases hentry : b.entry with
    | thread => simp [Point.owes, hentry] at h
    | trampoline j =>
        simp only [Point.owes, hentry, Option.some.injEq, Prod.mk.injEq] at h
        exact Or.inl (congrArg some h.1)
  case spawnUnlock b =>
    cases hentry : b.entry with
    | thread => simp [Point.owes, hentry] at h
    | trampoline j =>
        simp only [Point.owes, hentry, Option.some.injEq, Prod.mk.injEq] at h
        exact Or.inr (by simp only [Point.publishes, hentry, h.1])
  case isolateWrite pid j | isolatePatch pid j =>
    simp only [Point.owes, Option.some.injEq, Prod.mk.injEq] at h
    exact Or.inr (congrArg some h.1)
  all_goals cases h

/-- A call begins without a debt. -/
private theorem entry_owes (entry : Entry) : entry.point.owes = none := by
  cases entry <;> rfl

/-- How the code gets from one of these points to another. -/
structure Launches (m m' : Machine) : Prop where
  enters : ∀ i, m'.point.enters = some i → m.point.enters = some i
  owes : ∀ x i, m'.point.owes = some (x, i) → m.point.owes = some (x, i) ∨
    ∃ b, m.point = .spawnStore b ∧ b.pid = x ∧ b.entry = .trampoline i
  kept : ∀ x i, m.point.owes = some (x, i) → m'.point.owes = some (x, i) ∨
    m.point = .isolatePatch x i
  publishes : ∀ x, m'.point.publishes = some x →
    m.point.publishes = some x ∧ m'.sched = m.sched ∨ m'.sched = m.sched.enqueue x defaultPrio

/-- Both points are elsewhere. -/
theorem Launches.plain (henters : m'.point.enters = none) (howes : m'.point.owes = none)
    (hpub : m'.point.publishes = none) (hold : m.point.owes = none) : Launches m m' := by
  refine ⟨fun i hi => ?_, fun x i hi => ?_, fun x i hi => ?_, fun x hx => ?_⟩
  · rw [henters] at hi
    cases hi
  · rw [howes] at hi
    cases hi
  · rw [hold] at hi
    cases hi
  · rw [hpub] at hx
    cases hx

/-- The code goes on with the same. -/
theorem Launches.along (henters : m'.point.enters = m.point.enters)
    (howes : m'.point.owes = m.point.owes) (hpub : m'.point.publishes = m.point.publishes)
    (hsched : m'.sched = m.sched) : Launches m m' :=
  ⟨fun _ hi => henters ▸ hi, fun _ _ hi => Or.inl (howes ▸ hi), fun _ _ hi => Or.inl (howes ▸ hi),
    fun _ hx => Or.inl ⟨hpub ▸ hx, hsched⟩⟩

/-- A step launches nobody but the task it enters. -/
theorem step_launches (hstep : m.step = some m') (hrestore : m.point.restores = false) :
    Launches m m' := by
  cases hq : m.point
  case trampolineUse i pid =>
    simp only [Machine.step, hq] at hstep
    split at hstep
    · obtain rfl := Option.some.inj hstep
      exact .along (by rw [hq]; rfl) (by rw [hq]; rfl) (by rw [hq]; rfl) rfl
    · cases hstep
  case spawnStore b =>
    simp only [Machine.step, hq] at hstep
    split at hstep
    · cases hstep
    · obtain rfl := Option.some.inj hstep
      refine ⟨fun j hj => (by cases hj), fun x i hi => Or.inr ⟨b, hq, ?_⟩, fun x i hi => ?_,
        fun x hx => (by cases hx)⟩
      · cases hentry : b.entry with
        | thread => simp [Machine.withSched, Point.owes, hentry] at hi
        | trampoline j => simpa [Machine.withSched, Point.owes, hentry] using hi
      · rw [hq] at hi
        cases hi
  case spawnPush b =>
    simp only [Machine.step, hq] at hstep
    obtain rfl := Option.some.inj hstep
    refine ⟨fun j hj => (by cases hj), fun x j hj => Or.inl (by rw [hq]; exact hj),
      fun x j hj => Or.inl (by rw [hq] at hj; exact hj), fun x hx => Or.inr ?_⟩
    cases hentry : b.entry with
    | thread => simp [Machine.withSched, Point.publishes, hentry] at hx
    | trampoline j =>
        simp only [Machine.withSched, Point.publishes, hentry, Option.some.injEq] at hx
        rw [← hx]
        rfl
  case spawnUnlock b =>
    cases hentry : b.entry with
    | thread =>
        simp only [Machine.step, hq, hentry] at hstep
        obtain rfl := Option.some.inj hstep
        exact .plain rfl rfl rfl (by rw [hq, Point.owes, hentry])
    | trampoline i =>
        simp only [Machine.step, hq, hentry] at hstep
        obtain rfl := Option.some.inj hstep
        refine .along (by rw [hq]; rfl) ?_ ?_ rfl
        · rw [hq, Point.owes.eq_def (.spawnUnlock b)]
          simp only [hentry]
          rfl
        · rw [hq, Point.publishes.eq_def (.spawnUnlock b)]
          simp only [hentry]
          rfl
  case isolatePatch pid i =>
    simp only [Machine.step, hq] at hstep
    obtain rfl := Option.some.inj hstep
    refine ⟨fun j hj => (by cases hj), fun x j hj => (by cases hj), fun x j hj => Or.inr ?_,
      fun x hx => (by cases hx)⟩
    rw [hq] at hj
    obtain ⟨rfl, rfl⟩ := Prod.mk.inj (Option.some.inj hj)
    exact hq
  case exitPromote next =>
    simp only [Machine.step, hq] at hstep
    obtain ⟨t, -, rfl⟩ := Option.map_eq_some_iff.mp hstep
    exact .plain rfl rfl rfl (by rw [hq]; rfl)
  case reapTake pid =>
    simp only [Machine.step, hq] at hstep
    obtain ⟨t, -, rfl⟩ := Option.map_eq_some_iff.mp hstep
    exact .plain rfl rfl rfl (by rw [hq]; rfl)
  case yieldUnlock next =>
    cases next <;>
    · simp only [Machine.step, hq] at hstep
      obtain rfl := Option.some.inj hstep
      exact .plain rfl rfl rfl (by rw [hq]; rfl)
  case switchDrop prev next cr3 =>
    cases cr3 <;>
    · simp only [Machine.step, hq] at hstep
      obtain rfl := Option.some.inj hstep
      exact .plain rfl rfl rfl (by rw [hq]; rfl)
  case exitUnlock next =>
    cases next with
    | none => simp [Machine.step, hq] at hstep
    | some next =>
        simp only [Machine.step, hq] at hstep
        obtain rfl := Option.some.inj hstep
        exact .plain rfl rfl rfl (by rw [hq]; rfl)
  case switchRestore => simp [hq, Point.restores] at hrestore
  case exitRestore => simp [hq, Point.restores] at hrestore
  all_goals
    simp only [Machine.step, hq, Machine.readLock, Machine.writeLock, Machine.rqLock] at hstep
  all_goals (repeat' split at hstep)
  all_goals cases hstep
  all_goals first
    | exact .plain rfl rfl rfl (by rw [hq]; rfl)
    | exact .along (by rw [hq]; rfl) (by rw [hq]; rfl) (by rw [hq]; rfl) rfl

/-- A task that is set up stays so, if its block is not written to. -/
theorem Machine.IsSetUp.blocks (h : m.IsSetUp i x) (hb : Blocks m m')
    (hx : m.point.writesTo ≠ some x) : m'.IsSetUp i x := by
  obtain ⟨t, ht, hiso⟩ := h
  obtain ⟨t', ht', hsame, -⟩ := hb x t hx ht
  exact ⟨t', ht', hsame.trans hiso⟩

/-- What the running task owes is said by its point. -/
theorem Machine.Owes.alive (h : m.Owes m.self x i) : m.point.owes = some (x, i) := by
  have howes := h.2
  rwa [Machine.at_self] at howes

/-- The set-up. -/
private theorem isSetUp_patch (hstep : m.step = some m') (hpoint : m.point = .isolatePatch x i)
    (hblock : ∃ t, lookup m.sched.tasks x = some t) : m'.IsSetUp i x := by
  obtain ⟨t, ht⟩ := hblock
  simp only [Machine.step, hpoint, Option.some.injEq] at hstep
  subst hstep
  refine ⟨i.patch t, ?_, rfl⟩
  change lookup (Scheduler.adjust m.sched.tasks x i.patch) x = _
  rw [lookup_adjust, if_pos rfl, ht]
  rfl

/-- A task that is held by its spawner is not the one that comes next. -/
theorem Setups.not_incoming (hs : Setups m) (h : Invariant strict m locals lost)
    {st : State} {n y : Nat} (hrole : m.point.role.incoming = some (n, st)) (hst : st ≠ .runnable)
    (howes : m.Owes y x i) (hy : y ≠ m.self) : x ≠ n := by
  rintro rfl
  obtain ⟨-, -, t, ht, hrun⟩ := h.held (hs.held y x i howes hy)
  obtain ⟨-, u, hu, hstate⟩ := h.running.incoming x st hrole
  obtain rfl := Option.some.inj (ht.symm.trans hu)
  exact hst (hstate.symm.trans hrun)

/-- A new task. -/
theorem spawnStore_born {b : Birth} (hpoint : m.point = .spawnStore b) (hstep : m.step = some m') :
    m'.point = .spawnDrop b ∧ m'.left b.pid = b.entry.point ∧
      ∃ t, lookup m'.sched.tasks b.pid = some t ∧ t.state ≠ .zombie ∧ t.userEntry = 0 := by
  simp only [Machine.step, hpoint] at hstep
  split at hstep
  · cases hstep
  · obtain rfl := Option.some.inj hstep
    refine ⟨rfl, Function.update_self .., newTcb b.pid 0 b.cr3 ⟨b.pid, b.entry.point⟩, ?_, ?_, rfl⟩
    · change lookup (Scheduler.insert m.sched.tasks b.pid _) b.pid = _
      rw [lookup_insert, if_pos rfl]
    · exact State.noConfusion

/-- Where the others are, when the same task runs on. -/
structure RunsOn (m m' : Machine) : Prop where
  self_eq : m'.self = m.self
  at_eq : ∀ x, x ≠ m.self → m.Alive x → m'.Alive x ∧ m'.at x = m.at x
  back : ∀ x, x ≠ m.self → m'.Alive x → m.Alive x ∨ ∃ b, m.point = .spawnStore b ∧ x = b.pid ∧
    m'.at x = b.entry.point
  launches : Launches m m'

/-- A step of the code has the running task run on. -/
theorem Invariant.runsOn (h : Invariant strict m locals lost) (hreap : m.reapsZombie = true)
    (hstep : m.step = some m') (hrestore : m.point.restores = false) : RunsOn m m' := by
  have hon := step_on hstep hrestore
  refine ⟨hon.self_eq, (h.step hreap hstep).others, fun x hx halive => ?_,
    step_launches hstep hrestore⟩
  rcases h.alive_back hreap hstep hon hx halive with hold | ⟨b, hb, hxb⟩
  · exact Or.inl hold
  · refine Or.inr ⟨b, hb, hxb, ?_⟩
    rw [Machine.at_other (hon.self_eq ▸ hx), hxb]
    exact (spawnStore_born hb hstep).2.1

/-- Who owes a set-up has owed it, or has just stored the block. -/
theorem RunsOn.owes_back (hon : RunsOn m m') {y : Nat} (howes : m'.Owes y x i) :
    m.Owes y x i ∨
      y = m.self ∧ ∃ b, m.point = .spawnStore b ∧ b.pid = x ∧ b.entry = .trampoline i := by
  obtain ⟨halive, hpoint⟩ := howes
  by_cases hy : y = m.self
  · subst hy
    rw [← hon.self_eq, Machine.at_self] at hpoint
    rcases hon.launches.owes x i hpoint with hold | hnew
    · exact Or.inl ⟨Or.inl rfl, by rw [Machine.at_self]; exact hold⟩
    · exact Or.inr ⟨rfl, hnew⟩
  · rcases hon.back y hy halive with hold | ⟨b, -, -, hborn⟩
    · rw [(hon.at_eq y hy hold).2] at hpoint
      exact Or.inl ⟨hold, hpoint⟩
    · rw [hborn, entry_owes] at hpoint
      cases hpoint

/-- A set-up stays due until it is made. -/
theorem RunsOn.owes_on (hon : RunsOn m m') {y : Nat} (howes : m.Owes y x i) :
    m'.Owes y x i ∨ y = m.self ∧ m.point = .isolatePatch x i := by
  obtain ⟨halive, hpoint⟩ := howes
  by_cases hy : y = m.self
  · subst hy
    rw [Machine.at_self] at hpoint
    rcases hon.launches.kept x i hpoint with hkept | hdone
    · exact Or.inl ⟨Or.inl hon.self_eq.symm, by rw [← hon.self_eq, Machine.at_self]; exact hkept⟩
    · exact Or.inr ⟨rfl, hdone⟩
  · obtain ⟨halive', hat⟩ := hon.at_eq y hy halive
    exact Or.inl ⟨halive', hat ▸ hpoint⟩

/-- The pid of a task that is being stored is new. -/
theorem Invariant.born_new (h : Invariant strict m locals lost) {b : Birth}
    (hpoint : m.point = .spawnStore b) : lookup m.sched.tasks b.pid = none :=
  (h.births.child_new m.self b.pid (Machine.has_self.mpr (by rw [hpoint]; rfl))).2.2

/-- A task that is alive, and does not run, has a block that is not a zombie's. -/
theorem Machine.Alive.block (halive : m.Alive x) (hx : x ≠ m.self) :
    ∃ t, lookup m.sched.tasks x = some t ∧ t.state ≠ .zombie :=
  halive.resolve_left hx

/-- A store to the block of another task that has not exited is a set-up. -/
theorem Invariant.patches (h : Invariant strict m locals lost) (hreap : m.reapsZombie = true)
    (hx : x ≠ m.self) (halive : m.Alive x) (hwrites : m.point.writesTo = some x) :
    ∃ j, m.point = .isolatePatch x j := by
  obtain ⟨t, ht, hst⟩ := halive.block hx
  have hfits := h.running.fits
  cases hq : m.point
  case isolatePatch pid j =>
    rw [hq] at hwrites
    obtain rfl := Option.some.inj hwrites
    exact ⟨j, rfl⟩
  case setApply pid f =>
    rw [hq] at hwrites hfits
    obtain rfl := Option.some.inj hwrites
    exact absurd hfits hx
  case reapTake pid =>
    rw [hq] at hwrites
    obtain rfl := Option.some.inj hwrites
    simp only [Machine.reapsZombie, hq, ht, Option.map_some, decide_eq_true_eq] at hreap
    exact absurd (Option.some.inj hreap) hst
  all_goals
    rw [hq] at hwrites
    cases hwrites

/-- **A step of the running task.** -/
theorem Setups.runsOn (hs : Setups m) (h : Invariant strict m locals lost)
    (hreap : m.reapsZombie = true) (hstep : m.step = some m')
    (hrestore : m.point.restores = false) : Setups m' := by
  have hon := h.runsOn hreap hstep hrestore
  have hblocks := (h.step hreap hstep).blocks
  -- a set-up that is due is not that of the task that is being stored
  have hold_new : ∀ {y x i b}, m.Owes y x i → m.point = .spawnStore b → b.pid ≠ x := by
    rintro y x i b howes hb rfl
    obtain ⟨hne, halive, -⟩ := hs.waits y b.pid i howes
    obtain ⟨t, ht, -⟩ := halive.block hne
    rw [h.born_new hb] at ht
    cases ht
  have hpatch : ∀ {x j}, m.point = .isolatePatch x j → m.Owes m.self x j := fun hq =>
    ⟨Or.inl rfl, by rw [Machine.at_self, hq]; rfl⟩
  refine ⟨?unique, ?waits, ?bare, ?held, ?queued, ?setUp⟩
  case unique =>
    intro y y' x i j hy hy'
    rcases hon.owes_back hy with hy | ⟨hself, b, hb, hbx, -⟩
    · rcases hon.owes_back hy' with hy' | ⟨hself', b', hb', hbx', -⟩
      · exact hs.unique y y' x i j hy hy'
      · exact absurd hbx' (hold_new hy hb')
    · rcases hon.owes_back hy' with hy' | ⟨hself', -⟩
      · exact absurd hbx (hold_new hy' hb)
      · exact hself.trans hself'.symm
  case waits =>
    intro y x i hy
    rcases hon.owes_back hy with hy | ⟨-, b, hb, rfl, hentry⟩
    · obtain ⟨hne, halive, hleft⟩ := hs.waits y x i hy
      obtain ⟨halive', hat⟩ := hon.at_eq x hne halive
      have hne' : x ≠ m'.self := hon.self_eq ▸ hne
      rw [Machine.at_other hne, Machine.at_other hne'] at hat
      exact ⟨hne', halive', hat.trans hleft⟩
    · obtain ⟨-, hleft, t, ht, hst, -⟩ := spawnStore_born hb hstep
      have hne : b.pid ≠ m.self := by
        obtain ⟨u, hu, -⟩ := h.running.state
        intro heq
        rw [← heq, h.born_new hb] at hu
        cases hu
      refine ⟨hon.self_eq ▸ hne, Or.inr ⟨t, ht, hst⟩, ?_⟩
      rw [hleft, hentry]
      rfl
  case bare =>
    intro y x i hy
    rcases hon.owes_back hy with hold | ⟨-, b, hb, rfl, -⟩
    · obtain ⟨t, ht, hzero⟩ := hs.bare y x i hold
      obtain ⟨hne, halive, -⟩ := hs.waits y x i hold
      by_cases hwrites : m.point.writesTo = some x
      · -- then the set-up is not due any more
        obtain ⟨j, hq⟩ := h.patches hreap hne halive hwrites
        obtain rfl := hs.unique y m.self x i j hold (hpatch hq)
        have hpoint := hy.2
        rw [← hon.self_eq, Machine.at_self] at hpoint
        simp only [Machine.step, hq, Option.some.injEq] at hstep
        subst hstep
        cases hpoint
      · obtain ⟨t', ht', hiso, -⟩ := hblocks x t hwrites ht
        exact ⟨t', ht', (congrArg (fun f => f.2.1) hiso).trans hzero⟩
    · obtain ⟨-, -, t, ht, -, hzero⟩ := spawnStore_born hb hstep
      exact ⟨t, ht, hzero⟩
  case held =>
    intro y x i hy hne
    have hne' : y ≠ m.self := hon.self_eq ▸ hne
    rcases hon.owes_back hy with hy | ⟨hself, -⟩
    · obtain ⟨halive, hholds⟩ := hs.held y x i hy hne'
      obtain ⟨halive', hat⟩ := hon.at_eq y hne' halive
      exact ⟨halive', hat ▸ hholds⟩
    · exact absurd hself hne'
  case queued =>
    intro x hx
    rcases hon.launches.publishes x hx with ⟨hpub, hsched⟩ | hsched
    · rw [hsched]
      exact hs.queued x hpub
    · rw [hsched]
      exact (push_pids m.sched.rq x defaultPrio).mem_iff.mpr List.mem_cons_self
  case setUp =>
    intro x i halive henters
    by_cases hx : x = m.self
    · -- the task that runs has been in the trampoline before
      subst hx
      rw [← hon.self_eq, Machine.at_self] at henters
      have hbefore := hon.launches.enters i henters
      rcases hs.setUp m.self i (Or.inl rfl) (by rw [Machine.at_self]; exact hbefore) with
        hset | ⟨y, hy⟩
      · refine Or.inl (hset.blocks hblocks ?_)
        rw [enters_writesTo hbefore]
        exact (Option.some_ne_none _).symm
      · exact absurd rfl (hs.waits y m.self i hy).1
    · rcases hon.back x hx halive with hold | ⟨b, hb, hxb, hborn⟩
      · rw [(hon.at_eq x hx hold).2] at henters
        by_cases hwrites : m.point.writesTo = some x
        · obtain ⟨j, hq⟩ := h.patches hreap hx hold hwrites
          rw [Machine.at_other hx, (hs.waits m.self x j (hpatch hq)).2.2] at henters
          obtain rfl : j = i := Option.some.inj henters
          obtain ⟨t, ht, -⟩ := hold.block hx
          exact Or.inl (isSetUp_patch hstep hq ⟨t, ht⟩)
        · rcases hs.setUp x i hold henters with hset | ⟨y, hy⟩
          · exact Or.inl (hset.blocks hblocks hwrites)
          · rcases hon.owes_on hy with hy' | ⟨-, hq⟩
            · exact Or.inr ⟨y, hy'⟩
            · exact absurd (by rw [hq]; rfl) hwrites
      · refine Or.inr ⟨m.self, Or.inl hon.self_eq.symm, ?_⟩
        rw [← hon.self_eq, Machine.at_self, (spawnStore_born hb hstep).1]
        rw [hborn] at henters
        cases hentry : b.entry with
        | thread =>
            rw [hentry] at henters
            cases henters
        | trampoline j =>
            rw [hentry] at henters
            obtain rfl : j = i := Option.some.inj henters
            simp only [Point.owes, hentry, hxb]

/-- A task that gets the CPU publishes none. -/
theorem Setups.publishes_left (hs : Setups m) {y : Nat} (halive : m.Alive y) (hy : y ≠ m.self) :
    (m.left y).publishes = none := by
  cases hpub : (m.left y).publishes with
  | none => rfl
  | some x =>
      obtain ⟨hholds, i, howes⟩ := publishes_owes hpub
      have hheld := (hs.held y x i ⟨halive, by rw [Machine.at_other hy]; exact howes⟩ hy).2
      rw [Machine.at_other hy, hholds] at hheld
      cases hheld

/-- **A step that gives the CPU to another task.** -/
theorem Setups.restored (hs : Setups m) (h : Invariant strict m locals lost) {next : Nat}
    (hrestore : m.point.restores = true) (hr : Restored m m' next) : Setups m' := by
  have hgone : ∀ y, m'.Alive y → y = m.self → m.left y = .work := by
    rintro y halive rfl
    refine hr.back.resolve_right (fun hzombie => ?_)
    obtain ⟨t, ht, hst⟩ := halive.resolve_left (hr.self_eq ▸ hr.next_ne.symm)
    obtain ⟨u, hu, hstate⟩ := h.running.state
    rw [hr.sched_eq] at ht
    obtain rfl := Option.some.inj (ht.symm.trans hu)
    exact hst (hstate.trans hzombie)
  have halive_next : m.Alive next := by
    obtain ⟨-, t, ht, hst⟩ := h.running.incoming next .running hr.incoming
    exact Or.inr ⟨t, ht, by rw [hst]; exact State.noConfusion⟩
  have halive_back : ∀ y, m'.Alive y → m.Alive y := by
    intro y halive
    by_cases hy : y = next
    · rw [hy]
      exact halive_next
    · obtain ⟨t, ht, hst⟩ := halive.resolve_left (hr.self_eq ▸ hy)
      rw [hr.sched_eq] at ht
      exact Or.inr ⟨t, ht, hst⟩
  have halive_on : ∀ y, y ≠ m.self → m.Alive y → m'.Alive y := by
    intro y hy halive
    obtain ⟨t, ht, hst⟩ := halive.block hy
    exact Or.inr ⟨t, by rw [hr.sched_eq, ht], hst⟩
  have howes_back : ∀ y x i, m'.Owes y x i → y ≠ m.self ∧ m.Owes y x i := by
    rintro y x i ⟨halive, hpoint⟩
    rw [hr.at_eq] at hpoint
    have hy : y ≠ m.self := by
      intro hy
      rw [hgone y halive hy] at hpoint
      cases hpoint
    exact ⟨hy, halive_back y halive, by rw [Machine.at_other hy]; exact hpoint⟩
  have howes_on : ∀ y x i, m.Owes y x i → m'.Owes y x i := by
    rintro y x i ⟨halive, hpoint⟩
    have hy : y ≠ m.self := by
      rintro rfl
      rw [Machine.at_self, restores_owes hrestore] at hpoint
      cases hpoint
    rw [Machine.at_other hy] at hpoint
    exact ⟨halive_on y hy halive, by rw [hr.at_eq]; exact hpoint⟩
  refine ⟨?unique, ?waits, ?bare, ?held, ?queued, ?setUp⟩
  case unique =>
    intro y y' x i j hy hy'
    exact hs.unique y y' x i j (howes_back y x i hy).2 (howes_back y' x j hy').2
  case waits =>
    intro y x i hy
    obtain ⟨hne, hold⟩ := howes_back y x i hy
    obtain ⟨hx, halive, hleft⟩ := hs.waits y x i hold
    have hnext := hs.not_incoming h hr.incoming State.noConfusion hold hne
    exact ⟨hr.self_eq ▸ hnext, halive_on x hx halive, by rw [hr.left_eq]; exact hleft⟩
  case bare =>
    intro y x i hy
    rw [hr.sched_eq]
    exact hs.bare y x i (howes_back y x i hy).2
  case held =>
    intro y x i hy _
    obtain ⟨hne, hold⟩ := howes_back y x i hy
    obtain ⟨halive, hholds⟩ := hs.held y x i hold hne
    rw [Machine.at_other hne] at hholds
    exact ⟨hy.1, by rw [hr.at_eq]; exact hholds⟩
  case queued =>
    intro x hx
    rw [hr.point_eq, hs.publishes_left halive_next hr.next_ne] at hx
    cases hx
  case setUp =>
    intro x i halive henters
    rw [hr.at_eq] at henters
    have hx : x ≠ m.self := by
      intro hx
      rw [hgone x halive hx] at henters
      cases henters
    rcases hs.setUp x i (halive_back x halive) (by rw [Machine.at_other hx]; exact henters) with
      ⟨t, ht, hiso⟩ | ⟨y, hy⟩
    · exact Or.inl ⟨t, by rw [hr.sched_eq, ht], hiso⟩
    · exact Or.inr ⟨y, howes_on y x i hy⟩

/-- An interrupt that switches tasks comes where no lock is held. -/
theorem Machine.Preempts.free (h : Invariant strict m locals lost) (hpre : m.Preempts) :
    m.point.role.writes = false ∧ m.point.role.locks = false := by
  have hwriter := h.running.writer
  have hrq := h.running.rqOwner
  rw [hpre.1] at hwriter
  rw [hpre.2.1] at hrq
  constructor
  · cases hrole : m.point.role.writes with
    | false => rfl
    | true =>
        rw [hrole] at hwriter
        cases hwriter
  · cases hrole : m.point.role.locks with
    | false => rfl
    | true =>
        rw [hrole] at hrq
        cases hrq

/-- **An interrupt outside the window.** -/
theorem Setups.tick (hs : Setups m) (h : Invariant False m locals lost)
    (hcalm : m.Preempts → m.point.handsOver = false ∧ m.point.inWindow = false) :
    Setups m.tick := by
  by_cases hpre : m.Preempts
  · obtain ⟨hinc, hwindow⟩ := hcalm hpre
    have hinc := incoming_eq_none.mpr hinc
    obtain ⟨next, hp, -⟩ := h.preempted hpre hinc
    have hblocks := (h.tick (fun _ => hinc) (fun hf => hf.elim)).blocks
    obtain ⟨hwrites, hlocks⟩ := hpre.free h
    have hkeep : ∀ x, m.point.writesTo ≠ some x := by
      intro x
      rw [writesTo_of_writes hwrites]
      exact (Option.some_ne_none x).symm
    -- a set-up that is due is due to a task that holds the pid
    have hholds : ∀ y x i, m.Owes y x i → m.Has Duty.holds y x := by
      intro y x i howes
      by_cases hy : y = m.self
      · subst hy
        obtain ⟨-, hrole⟩ := owes_role howes.alive
        rw [hwrites, hlocks, hwindow] at hrole
        simp only [Bool.false_eq_true, false_or, or_false] at hrole
        exact Machine.has_self.mpr hrole
      · exact hs.held y x i howes hy
    have halive : ∀ y, y ≠ m.self → (m.tick.Alive y ↔ m.Alive y) := fun y hy => hp.alive_iff hy
    have howes_iff : ∀ y x i, m.tick.Owes y x i ↔ m.Owes y x i := by
      intro y x i
      rw [Machine.Owes, Machine.Owes, hp.at_eq]
      by_cases hy : y = m.self
      · subst hy
        rw [Machine.at_self]
        refine and_congr_left (fun hpoint => iff_of_true ?_ (Or.inl rfl))
        rw [hp.alive_self h, (owes_role hpoint).1]
        exact State.noConfusion
      · rw [halive y hy]
    refine ⟨?unique, ?waits, ?bare, ?held, ?queued, ?setUp⟩
    case unique =>
      intro y y' x i j hy hy'
      exact hs.unique y y' x i j ((howes_iff y x i).mp hy) ((howes_iff y' x j).mp hy')
    case waits =>
      intro y x i hy
      have hold := (howes_iff y x i).mp hy
      obtain ⟨hx, hxalive, hleft⟩ := hs.waits y x i hold
      have hnext : x ≠ next := by
        rintro rfl
        exact (h.held (hholds y x i hold)).2.1 hp.queued
      refine ⟨hp.self_eq ▸ hnext, (halive x hx).mpr hxalive, ?_⟩
      rw [hp.left_eq, Function.update_of_ne hx]
      exact hleft
    case bare =>
      intro y x i hy
      obtain ⟨t, ht, hzero⟩ := hs.bare y x i ((howes_iff y x i).mp hy)
      obtain ⟨t', ht', hiso, -⟩ := hblocks x t (hkeep x) ht
      exact ⟨t', ht', (congrArg (fun f => f.2.1) hiso).trans hzero⟩
    case held =>
      intro y x i hy _
      have hold := hholds y x i ((howes_iff y x i).mp hy)
      exact ⟨hy.1, by rw [hp.at_eq]; exact hold.2⟩
    case queued =>
      intro x hx
      rw [hp.point_eq, hs.publishes_left hp.alive hp.next_ne] at hx
      cases hx
    case setUp =>
      intro x i hx henters
      rw [hp.at_eq] at henters
      have hxalive : m.Alive x := by
        by_cases hself : x = m.self
        · exact Or.inl hself
        · exact (halive x hself).mp hx
      rcases hs.setUp x i hxalive henters with hset | ⟨y, hy⟩
      · exact Or.inl (hset.blocks hblocks (hkeep x))
      · exact Or.inr ⟨y, (howes_iff y x i).mpr hy⟩
  · rw [tick_idle hpre]
    exact hs

/-- A call that begins owes nobody anything. -/
private theorem op_owes (op : Op) : op.point.owes = none := by
  cases op <;> rfl

/-- It enters nobody. -/
private theorem op_enters (op : Op) : op.point.enters = none := by
  cases op <;> rfl

/-- It publishes nobody. -/
private theorem op_publishes (op : Op) : op.point.publishes = none := by
  cases op <;> rfl

/-- A call starts with no set-up due. -/
theorem Setups.goto (hs : Setups m) {p : Point} (howes : p.owes = m.point.owes)
    (henters : p.enters = m.point.enters) (hpub : p.publishes = none) : Setups (m.goto p) := by
  have hat : ∀ {α : Type} (f : Point → α), f p = f m.point → ∀ y,
      f ((m.goto p).at y) = f (m.at y) := by
    intro α f hf y
    by_cases hy : y = m.self
    · rw [hy, Machine.at_self]
      exact (congrArg f (if_pos rfl)).trans hf
    · rw [Machine.at_other hy]
      exact congrArg f (if_neg hy)
  have howes_iff : ∀ y x i, (m.goto p).Owes y x i ↔ m.Owes y x i := fun y x i =>
    and_congr_right fun _ => by rw [hat Point.owes howes]
  refine ⟨?unique, ?waits, ?bare, ?held, ?queued, ?setUp⟩
  case unique =>
    intro y y' x i j hy hy'
    exact hs.unique y y' x i j ((howes_iff y x i).mp hy) ((howes_iff y' x j).mp hy')
  case waits => exact fun y x i hy => hs.waits y x i ((howes_iff y x i).mp hy)
  case bare => exact fun y x i hy => hs.bare y x i ((howes_iff y x i).mp hy)
  case held =>
    intro y x i hy hne
    obtain ⟨halive, hholds⟩ := hs.held y x i ((howes_iff y x i).mp hy) hne
    have hne' : y ≠ m.self := hne
    have hsame : (m.goto p).at y = m.at y := (if_neg hne).trans (Machine.at_other hne').symm
    exact ⟨halive, hsame ▸ hholds⟩
  case queued =>
    intro x hx
    cases hpub.symm.trans hx
  case setUp =>
    intro x i halive hx
    rw [hat Point.enters henters] at hx
    rcases hs.setUp x i halive hx with hset | ⟨y, hy⟩
    · exact Or.inl hset
    · exact Or.inr ⟨y, (howes_iff y x i).mpr hy⟩

/-- **One event** outside the window. -/
theorem Setups.next (hs : Setups m) (h : Invariant False m locals lost) {e : Event}
    (hcalm : Calm Point.inWindow m e) (hnext : m.next e = some m') : Setups m' := by
  cases e with
  | call op =>
      simp only [Machine.next] at hnext
      split at hnext
      next hwork =>
        obtain rfl := Option.some.inj hnext
        exact hs.goto (by rw [op_owes, hwork]; rfl) (by rw [op_enters, hwork]; rfl)
          (op_publishes op)
      next => cases hnext
  | step =>
      cases hrestore : m.point.restores with
      | false => exact hs.runsOn h hcalm hnext hrestore
      | true =>
          obtain ⟨next, hr⟩ := h.restored hrestore hnext
          exact hs.restored h hrestore hr
  | tick =>
      obtain rfl := Option.some.inj hnext
      exact hs.tick h hcalm

/-- Nothing is due when the first task runs alone. -/
theorem boot_setups (cr3 : Nat) : Setups (bootMachine cr3) := by
  have hat : ∀ y, (bootMachine cr3).at y = .work := by
    intro y
    unfold Machine.at
    split <;> rfl
  have hnone : ∀ y x i, ¬(bootMachine cr3).Owes y x i := by
    rintro y x i ⟨-, hpoint⟩
    rw [hat] at hpoint
    cases hpoint
  refine ⟨?unique, ?waits, ?bare, ?held, ?queued, ?setUp⟩
  case unique => exact fun y _ x i _ hy => absurd hy (hnone y x i)
  case waits => exact fun y x i hy => absurd hy (hnone y x i)
  case bare => exact fun y x i hy => absurd hy (hnone y x i)
  case held => exact fun y x i hy => absurd hy (hnone y x i)
  case queued =>
    intro x hx
    cases hx
  case setUp =>
    intro x i _ henters
    rw [hat] at henters
    cases henters

/-- **Every run** with the condition sets up whoever is to be. -/
theorem run_setups (hrun : preemption.Run (Calm Point.inWindow) m) :
    ∃ locals lost, Invariant False m locals lost ∧ Setups m := by
  refine TransitionSystem.Run.invariant
    (I := fun m => ∃ locals lost, Invariant False m locals lost ∧ Setups m) ?_ ?_ hrun
  · rintro _ ⟨cr3, rfl⟩
    exact ⟨[], [], boot_invariant cr3, boot_setups cr3⟩
  · rintro m e m' ⟨locals, lost, hm, hs⟩ hcalm hnext
    obtain ⟨locals', lost', hm'⟩ := (next_kept (fun hf => hf.elim) hm hcalm hnext).inv
    exact ⟨locals', lost', hm', hs.next hm hcalm hnext⟩

/-- A queued task other than the running one is where it lost the CPU, alive. -/
theorem Invariant.queued_task (h : Invariant strict m locals lost) (hx : x ∈ m.sched.rq.pids)
    {t : Tcb Regs} (ht : lookup m.sched.tasks x = some t) :
    t.ctx.point = m.left x ∧ m.Alive x := by
  obtain ⟨-, u, hu, hst⟩ := h.places.placed.waiting x (List.mem_append_right _ hx)
  exact ⟨by rw [(h.regs.owned x t ht).1], Or.inr ⟨u, hu, by rw [hst]; exact State.noConfusion⟩⟩

/-- **Then whoever enters is ready.** -/
theorem Setups.ready (hs : Setups m) (h : Invariant strict m locals lost) : StartsReady m := by
  constructor
  · intro i henters
    rcases hs.setUp m.self i (Or.inl rfl) (by rw [Machine.at_self]; exact henters) with
      hset | ⟨y, hy⟩
    · exact hset
    · exact absurd rfl (hs.waits y m.self i hy).1
  · intro x hx hself t ht i henters
    obtain ⟨hctx, halive⟩ := h.queued_task hx ht
    rw [hctx] at henters
    rcases hs.setUp x i halive (by rw [Machine.at_other hself]; exact henters) with
      hset | ⟨y, hy⟩
    · exact Or.inl hset
    · by_cases hy' : y = m.self
      · subst hy'
        exact Or.inr hy.alive
      · exact absurd hx (h.held (hs.held y x i hy hy')).2.1

/-- The queue is right unless the running task is on its way to a set-up. -/
theorem Setups.queue_iff (hs : Setups m) (h : Invariant strict m locals lost) :
    QueueSetUp m ↔
      ∀ x i, m.point.publishes = some x → m.point.owes = some (x, i) → m.IsSetUp i x := by
  constructor
  · intro hqueue x i hpub howes
    have hx := hs.queued x hpub
    have hself : m.Owes m.self x i := ⟨Or.inl rfl, by rw [Machine.at_self]; exact howes⟩
    obtain ⟨hne, -, hleft⟩ := hs.waits m.self x i hself
    obtain ⟨t, ht, -⟩ := hs.bare m.self x i hself
    refine hqueue x hx hne t ht i ?_
    rw [(h.queued_task hx ht).1, hleft]
    rfl
  · intro hpub p hp hne t ht i henters
    rcases (hs.ready h).queued p hp hne t ht i henters with hset | howes
    · exact hset
    · rcases owes_cases howes with hholds | hpublishes
      · have hhas : m.Has Duty.holds m.self p := ⟨Or.inl rfl, by rw [Machine.at_self]; exact hholds⟩
        exact absurd hp (h.held hhas).2.1
      · exact hpub p i hpublishes howes

/-- **An interrupt in the window** leaves the new task to the others as it is. -/
theorem Setups.window_left_open (hs : Setups m) (h : Invariant strict m locals lost)
    (hpoint : m.point = .isolateWrite x i) (hentry : i.userEntry ≠ 0) (hpre : m.Preempts) :
    ¬ StartsReady m.tick := by
  have hinc : m.point.role.incoming = none := by rw [hpoint]; rfl
  obtain ⟨next, hp, hplaced⟩ := h.preempted hpre hinc
  have howes : m.Owes m.self x i := ⟨Or.inl rfl, by rw [Machine.at_self, hpoint]; rfl⟩
  obtain ⟨hself, -, hleft⟩ := hs.waits m.self x i howes
  obtain ⟨t, ht, hzero⟩ := hs.bare m.self x i howes
  have hqueued := hs.queued x (by rw [hpoint]; rfl)
  have hbare : ∀ {u}, lookup m.tick.sched.tasks x = some u → u.userEntry = 0 := by
    intro u hu
    rw [hp.lookup_eq, ht] at hu
    by_cases hxn : x = next
    · rw [if_pos hxn] at hu
      obtain rfl := Option.some.inj hu
      exact hzero
    · rw [if_neg hxn, if_neg hself] at hu
      obtain rfl := Option.some.inj hu
      exact hzero
  have hnot : ¬ m.tick.IsSetUp i x := by
    rintro ⟨u, hu, hiso⟩
    exact hentry ((congrArg (fun f => f.2.1) hiso).symm.trans (hbare hu))
  intro hready
  by_cases hxn : x = next
  · -- the new task has got the CPU
    have henters : m.tick.point.enters = some i := by
      rw [hp.point_eq, ← hxn, hleft]
      rfl
    have hset := hready.running i henters
    rw [hp.self_eq, ← hxn] at hset
    exact hnot hset
  · have hlook : lookup m.tick.sched.tasks x = some t := by
      rw [hp.lookup_eq, if_neg hxn, if_neg hself, ht]
    -- it is still queued: it is in nobody's hands
    have hpids : x ∈ m.tick.sched.rq.pids := by
      obtain ⟨-, u, hu, hst⟩ :=
        h.places.placed.waiting x (List.mem_append_right _ hqueued)
      obtain rfl := Option.some.inj (ht.symm.trans hu)
      rcases hplaced.placed x t hlook hxn with hzombie | hmem
      · rw [hst] at hzombie
        cases hzombie
      · refine (List.mem_append.mp hmem).resolve_left (fun hheld => ?_)
        exact List.disjoint_of_nodup_append h.places.placed.nodup hheld hqueued
    have hctx : t.ctx.point.enters = some i := by
      rw [(h.queued_task hqueued ht).1, hleft]
      rfl
    have hself' : x ≠ m.tick.self := hp.self_eq ▸ hxn
    rcases hready.queued x hpids hself' t hlook i hctx with hset | hdue
    · exact hnot hset
    · -- only its spawner owes the set-up, and that does not run
      rw [hp.point_eq] at hdue
      have hother : m.Owes next x i :=
        ⟨hp.alive, by rw [Machine.at_other hp.next_ne]; exact hdue⟩
      exact hp.next_ne (hs.unique next m.self x i i hother howes)

/-- **Isolated tasks start ready.**  In every run in which no interrupt switches
tasks during a handover or in the window of `spawn_isolated`, and only zombies
are reaped, every task is set up before it runs `isolated_trampoline`.  The
window cannot be left out: whatever the run has been, an interrupt that switches
tasks there leaves a task queued, or running, that is not set up. -/
theorem isolated_start_ready (hrun : preemption.Run (Calm Point.inWindow) m) :
    StartsReady m ∧ ∀ x i, m.point = .isolateWrite x i → i.userEntry ≠ 0 → m.Preempts →
      ¬ StartsReady m.tick := by
  obtain ⟨locals, lost, h, hs⟩ := run_setups hrun
  exact ⟨hs.ready h, fun x i hpoint hentry hpre => hs.window_left_open h hpoint hentry hpre⟩

/-- **Set up before the trampoline.**  Under the same condition no task is in
`isolated_trampoline` before it is set up; and the queue holds no task that is to start there
without having been set up, except for one that the running task has just put there and is on
its way to set up. -/
theorem trampoline_set_up (hrun : preemption.Run (Calm Point.inWindow) m) :
    (∀ i, m.point.enters = some i → m.IsSetUp i m.self) ∧
      (QueueSetUp m ↔
        ∀ x i, m.point.publishes = some x → m.point.owes = some (x, i) → m.IsSetUp i x) := by
  obtain ⟨locals, lost, h, hs⟩ := run_setups hrun
  exact ⟨(hs.ready h).running, hs.queue_iff h⟩

end

/-- What the sample task is set up with. -/
def sampleIsolation : Isolation where
  cr3 := 0x5000
  userEntry := 0x400000
  userStackTop := 0x6000
  caps := 1
  tableFrames := [0x5000]
  userStackPhys := 0x5000

/-- A program is started, and an interrupt gives it the CPU: after the set-up,
and before it. -/
theorem sample_isolated_start : (∃ m,
    preemption.execIf (Calm Point.inWindow) (bootMachine 0x1000)
      (calling (.spawnIsolated sampleIsolation) 10 ++ [.tick, .step, .step]) = some m ∧
    m.point.enters = some sampleIsolation ∧ StartsReady m) ∧
    ∃ m, preemption.execIf (Calm Point.inWindow) (bootMachine 0x1000)
      (calling (.spawnIsolated sampleIsolation) 7) = some m ∧ ¬ StartsReady m.tick := by
  have hboot : preemption.Run (Calm Point.inWindow) (bootMachine 0x1000) :=
    TransitionSystem.Run.boot ⟨_, rfl⟩
  constructor
  · have hrun : (preemption.execIf (Calm Point.inWindow) (bootMachine 0x1000)
        (calling (.spawnIsolated sampleIsolation) 10 ++ [.tick, .step, .step])).map
          (fun m => m.point.enters) = some (some sampleIsolation) := by
      decide +kernel
    obtain ⟨m, hm, henters⟩ := Option.map_eq_some_iff.mp hrun
    exact ⟨m, hm, henters, (isolated_start_ready (hboot.execIf hm)).1⟩
  · have hrun : (preemption.execIf (Calm Point.inWindow) (bootMachine 0x1000)
        (calling (.spawnIsolated sampleIsolation) 7)).map
          (fun m => (m.point, decide m.Preempts)) =
            some (.isolateWrite 2 sampleIsolation, true) := by
      decide +kernel
    obtain ⟨m, hm, hfacts⟩ := Option.map_eq_some_iff.mp hrun
    obtain ⟨hpoint, hpre⟩ := Prod.mk.inj hfacts
    exact ⟨m, hm, (isolated_start_ready (hboot.execIf hm)).2 2 sampleIsolation hpoint
      (by decide) (of_decide_eq_true hpre)⟩

/-- A program is set up when it enters the trampoline, and the queue is right before. -/
theorem sample_trampoline_set_up : ∃ m, preemption.execIf (Calm Point.inWindow) (bootMachine 0x1000)
    (calling (.spawnIsolated sampleIsolation) 10 ++ [.tick, .step, .step]) = some m ∧
      m.point.enters = some sampleIsolation ∧ m.IsSetUp sampleIsolation m.self ∧ QueueSetUp m := by
  have hrun : (preemption.execIf (Calm Point.inWindow) (bootMachine 0x1000)
      (calling (.spawnIsolated sampleIsolation) 10 ++ [.tick, .step, .step])).map
        (fun m => (m.point.enters, m.point.publishes)) = some (some sampleIsolation, none) := by
    decide +kernel
  obtain ⟨m, hm, hfacts⟩ := Option.map_eq_some_iff.mp hrun
  obtain ⟨henters, hpublishes⟩ := Prod.mk.inj hfacts
  obtain ⟨hrunning, hqueue⟩ :=
    trampoline_set_up (TransitionSystem.Run.execIf (TransitionSystem.Run.boot ⟨_, rfl⟩) hm)
  exact ⟨m, hm, henters, hrunning _ henters,
    hqueue.mpr fun x i hpub => absurd (hpublishes.symm.trans hpub) (by simp)⟩

/-- **An interrupt in the window** lets the new task into the trampoline too early. -/
theorem trampoline_too_early : ∃ m, preemption.Reach m ∧
    m.point.enters = some sampleIsolation ∧ ¬m.IsSetUp sampleIsolation m.self := by
  have hrun : (preemption.exec (bootMachine 0x1000)
      (calling (.spawnIsolated sampleIsolation) 7 ++ [.tick])).map (fun m => (m.point.enters,
        (lookup m.sched.tasks m.self).map (fun t => t.userEntry))) =
          some (some sampleIsolation, some 0) := by
    decide +kernel
  obtain ⟨m, hm, hfacts⟩ := Option.map_eq_some_iff.mp hrun
  obtain ⟨henters, hentry⟩ := Prod.mk.inj hfacts
  have hboot : preemption.Reach (bootMachine 0x1000) := TransitionSystem.Run.boot ⟨_, rfl⟩
  refine ⟨m, hboot.exec hm, henters, ?_⟩
  rintro ⟨t, ht, hiso⟩
  rw [ht] at hentry
  have hzero : t.userEntry = 0 := Option.some.inj hentry
  have hset : t.userEntry = 0x400000 := congrArg (fun f => f.2.1) hiso
  rw [hzero] at hset
  cases hset

end Preemption
