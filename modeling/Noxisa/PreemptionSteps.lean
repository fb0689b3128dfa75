import Noxisa.PreemptionInvariant

/-!
# One step under interrupts

Every step of a task keeps the invariant, and so does every timer interrupt
that comes at the right point.  Most steps change neither a state nor the run
queue, and what their points owe is the same (`Invariant.goto` and its variants
for the locks); the others are walks along the rules of `Placed`.

A task that gets the CPU goes on where it lost it (`running_arrive`).
-/

namespace Preemption

open FrameAllocator MachineWord Scheduler

section

variable {strict : Prop} {m m' : Machine} {locals : List (Nat × Nat)} {lost : List Nat}
  {p q : Point} {next : Nat}

/-- An event keeps the invariant, and disturbs no other task. -/
structure Kept (strict : Prop) (m m' : Machine) : Prop where
  inv : Inv strict m'
  others : Others m m'
  blocks : Blocks m m'

/-- A step of the running task. -/
structure Stepped (strict : Prop) (m m' : Machine) : Prop extends Kept strict m m' where
  reads : Reads m m'

/-- The invariant with the locals and the lost pids that it is about. -/
theorem Invariant.inv (h : Invariant strict m locals lost) : Inv strict m := ⟨locals, lost, h⟩

/-- The running task has a block, which is not in slot 0. -/
theorem Invariant.self_ne_zero (h : Invariant strict m locals lost) : m.self ≠ 0 := by
  obtain ⟨t, ht, -⟩ := h.running.state
  intro hzero
  rw [hzero, h.births.zero] at ht
  cases ht

/-- Outside a handover `current` is the running task. -/
theorem Invariant.current_eq (h : Invariant strict m locals lost)
    (hinc : m.point.role.incoming = none) : m.sched.current = m.self := by
  rw [h.running.current, hinc]
  rfl

/-- The step changes no state, no priority, no registers and no queue. -/
structure Quiet (m m' : Machine) : Prop where
  self_eq : m'.self = m.self
  left_eq : m'.left = m.left
  rq_eq : m'.sched.rq = m.sched.rq
  current_eq : m'.sched.current = m.sched.current
  nextPid_eq : m'.sched.nextPid = m.sched.nextPid
  length_eq : m'.sched.tasks.length = m.sched.tasks.length
  blocks_eq : ∀ x, (lookup m'.sched.tasks x).map (fun t => (t.state, t.priority, t.ctx)) =
    (lookup m.sched.tasks x).map (fun t => (t.state, t.priority, t.ctx))
  duty_eq : m'.point.role.toDuty = m.point.role.toDuty
  writer : m'.writer = if m'.point.role.writes then some m'.self else none
  rqOwner : m'.rqOwner = if m'.point.role.locks then some m'.self else none
  fits : m'.point.Fits m'.self

/-- A quiet step keeps what a block says about its task. -/
theorem Quiet.block (h : Quiet m m') {x : Nat} {t : Tcb Regs}
    (ht : lookup m.sched.tasks x = some t) :
    ∃ t', lookup m'.sched.tasks x = some t' ∧ t'.state = t.state ∧ t'.priority = t.priority ∧
      t'.ctx = t.ctx := by
  have hx := h.blocks_eq x
  rw [ht, Option.map_some] at hx
  obtain ⟨t', ht', heq⟩ := Option.map_eq_some_iff.mp hx
  simp only [Prod.mk.injEq] at heq
  exact ⟨t', ht', heq⟩

/-- It forgets no task. -/
theorem Quiet.retains (h : Quiet m m') : Retains m.sched.tasks m'.sched.tasks := by
  intro x t' ht'
  have hx := (h.blocks_eq x).symm
  rw [ht', Option.map_some] at hx
  obtain ⟨t, ht, heq⟩ := Option.map_eq_some_iff.mp hx
  simp only [Prod.mk.injEq] at heq
  exact ⟨t, ht, heq.2.2.symm, heq.2.1.symm⟩

/-- It leaves everybody else where they are. -/
theorem Quiet.steady (h : Quiet m m') : Steady m m' := by
  refine steady_of_states h.self_eq (fun x _ => congrFun h.left_eq x) (fun x _ => ?_)
  have hx := congrArg (Option.map Prod.fst) (h.blocks_eq x)
  rwa [Option.map_map, Option.map_map] at hx

/-- **A quiet step keeps the invariant.** -/
theorem Invariant.quiet (h : Invariant strict m locals lost) (hq : Quiet m m')
    (hblocks : Blocks m m') (hreads : Reads m m') : Stepped strict m m' := by
  have hs := hq.steady
  have hincoming : m'.point.role.incoming = m.point.role.incoming :=
    congrArg Duty.incoming hq.duty_eq
  have hholds : m'.point.role.holds = m.point.role.holds := congrArg Duty.holds hq.duty_eq
  refine ⟨⟨⟨locals, lost, ⟨?_, ?_, ?_, ?_⟩⟩, hs.others, hblocks⟩, hreads⟩
  · refine h.places.keep ((hs.follows _).same hholds) ?_
    have hexempt : m'.point.role.exempt m'.self = m.point.role.exempt m.self := by
      rw [Role.exempt, hincoming, hholds, hq.self_eq, Role.exempt]
    rw [hexempt]
    refine h.places.placed.congr hq.rq_eq (fun x _ => ?_)
    have hx := congrArg (Option.map (fun b => (b.1, b.2.1))) (hq.blocks_eq x)
    rwa [Option.map_map, Option.map_map] at hx
  · exact h.regs.keep hs hq.left_eq hq.retains
  · refine ⟨?_, ?_, ?_, hq.writer, hq.rqOwner, hq.fits, ?_⟩
    · rw [hq.current_eq, hincoming, hq.self_eq]
      exact h.running.current
    · obtain ⟨t, ht, hst⟩ := h.running.state
      obtain ⟨t', ht', hst', -⟩ := hq.block ht
      rw [hq.self_eq]
      exact ⟨t', ht', hst'.trans (hst.trans (congrArg Duty.state hq.duty_eq).symm)⟩
    · intro n st hn
      rw [hincoming] at hn
      obtain ⟨hne, t, ht, hst⟩ := h.running.incoming n st hn
      obtain ⟨t', ht', hst', -⟩ := hq.block ht
      rw [hq.self_eq]
      exact ⟨hne, t', ht', hst'.trans hst⟩
    · intro hsaved
      rw [hq.left_eq, hq.self_eq]
      exact h.running.saved ((congrArg Duty.saved hq.duty_eq).symm.trans hsaved)
  · exact h.births.keep ((hs.follows _).same (congrArg Duty.child hq.duty_eq)) hq.nextPid_eq
      hq.length_eq.le (fun x hx => hq.retains.none hx)

/-- A step that does not touch the scheduler. -/
theorem Invariant.move (h : Invariant strict m locals lost) (hself : m'.self = m.self)
    (hleft : m'.left = m.left) (hsched : m'.sched = m.sched)
    (hduty : m'.point.role.toDuty = m.point.role.toDuty)
    (hwriter : m'.writer = if m'.point.role.writes then some m'.self else none)
    (hrq : m'.rqOwner = if m'.point.role.locks then some m'.self else none)
    (hfits : m'.point.Fits m'.self) (hreads : Reads m m') : Stepped strict m m' :=
  h.quiet ⟨hself, hleft, by rw [hsched], by rw [hsched], by rw [hsched], by rw [hsched],
    fun _ => by rw [hsched], hduty, hwriter, hrq, hfits⟩ (blocks_of_tasks (by rw [hsched])) hreads

/-- The code goes on to a point of the same kind. -/
theorem Invariant.goto (h : Invariant strict m locals lost) (hq : m.point = q)
    (hrole : p.role = q.role) (hfits : p.Fits m.self) : Stepped strict m (m.goto p) := by
  subst hq
  refine h.move rfl rfl rfl (congrArg Role.toDuty hrole) ?_ ?_ hfits
    (.same rfl rfl (congrArg Role.reads hrole))
  · refine h.running.writer.trans ?_
    rw [← hrole]
    rfl
  · refine h.running.rqOwner.trans ?_
    rw [← hrole]
    rfl

/-- A change in place of what no other task looks at. -/
theorem Invariant.adjust (h : Invariant strict m locals lost) (hq : m.point = q)
    {f : Tcb Regs → Tcb Regs} {pid : Nat}
    (hf : ∀ t, (f t).state = t.state ∧ (f t).priority = t.priority ∧ (f t).ctx = t.ctx)
    (hwrites : q.writesTo = some pid) (hrole : p.role = q.role) (hfits : p.Fits m.self) :
    Stepped strict m (m.withSched { m.sched with tasks := adjust m.sched.tasks pid f } p) := by
  subst hq
  refine h.quiet ⟨rfl, rfl, rfl, rfl, rfl, length_adjust _ _ _, fun x => ?_,
    congrArg Role.toDuty hrole, ?_, ?_, hfits⟩ ?_ (.same rfl rfl (congrArg Role.reads hrole))
  · change (lookup (Scheduler.adjust m.sched.tasks pid f) x).map _ = _
    rw [lookup_adjust]
    split
    · rw [Option.map_map]
      congr 1
      funext t
      simp [hf t]
    · rfl
  · refine h.running.writer.trans ?_
    rw [← hrole]
    rfl
  · refine h.running.rqOwner.trans ?_
    rw [← hrole]
    rfl
  · exact blocks_of_adjust rfl (fun hne => absurd hwrites hne)

/-- The readers' lock is taken, with one more reader. -/
private theorem readLock_some (h : m.readLock p = some m') :
    m' = { m with readers := m.self :: m.readers, point := p } := by
  unfold Machine.readLock at h
  split at h
  · exact (Option.some.inj h).symm
  · cases h

/-- The writer's lock is taken. -/
private theorem writeLock_some (h : m.writeLock p = some m') :
    m' = { m with writer := some m.self, point := p } := by
  unfold Machine.writeLock at h
  split at h
  · exact (Option.some.inj h).symm
  · cases h

/-- The lock of the queue is taken. -/
private theorem rqLock_some (h : m.rqLock p = some m') :
    m' = { m with rqOwner := some m.self, point := p } := by
  unfold Machine.rqLock at h
  split at h
  · exact (Option.some.inj h).symm
  · cases h

/-- The readers' lock, for the invariant: the point now reads. -/
theorem Invariant.readLock (h : Invariant strict m locals lost) (hq : m.point = q)
    (hstep : m.readLock p = some m') (hnone : q.role.reads = false)
    (hrole : p.role = { q.role with reads := true }) (hfits : p.Fits m.self) :
    Stepped strict m m' := by
  obtain rfl := readLock_some hstep
  subst hq
  refine h.move rfl rfl rfl ((congrArg Role.toDuty hrole).trans rfl) ?_ ?_ hfits
    (.lock rfl rfl hnone ((congrArg Role.reads hrole).trans rfl))
  · refine h.running.writer.trans ?_
    simp only [hrole]
  · refine h.running.rqOwner.trans ?_
    simp only [hrole]

/-- It is given back. -/
theorem Invariant.readUnlock (h : Invariant strict m locals lost) (hq : m.point = q)
    (hrole : p.role = { q.role with reads := false }) (hfits : p.Fits m.self) :
    Stepped strict m (m.readUnlock p) := by
  subst hq
  refine h.move rfl rfl rfl ((congrArg Role.toDuty hrole).trans rfl) ?_ ?_ hfits (.unlock rfl rfl)
  · refine h.running.writer.trans ?_
    simp only [Machine.readUnlock, hrole]
  · refine h.running.rqOwner.trans ?_
    simp only [Machine.readUnlock, hrole]

/-- The writer's lock: nobody else reads. -/
theorem Invariant.writeLock (h : Invariant strict m locals lost) (hq : m.point = q)
    (hstep : m.writeLock p = some m') (hrole : p.role = { q.role with writes := true })
    (hfits : p.Fits m.self) : Stepped strict m m' := by
  obtain rfl := writeLock_some hstep
  subst hq
  refine h.move rfl rfl rfl ((congrArg Role.toDuty hrole).trans rfl) ?_ ?_ hfits
    (.same rfl rfl ((congrArg Role.reads hrole).trans rfl))
  · simp [hrole]
  · refine h.running.rqOwner.trans ?_
    simp only [hrole]

/-- It is given back. -/
theorem Invariant.writeUnlock (h : Invariant strict m locals lost) (hq : m.point = q)
    (hrole : p.role = { q.role with writes := false }) (hfits : p.Fits m.self) :
    Stepped strict m (m.writeUnlock p) := by
  subst hq
  refine h.move rfl rfl rfl ((congrArg Role.toDuty hrole).trans rfl) ?_ ?_ hfits
    (.same rfl rfl ((congrArg Role.reads hrole).trans rfl))
  · simp [Machine.writeUnlock, hrole]
  · refine h.running.rqOwner.trans ?_
    simp only [Machine.writeUnlock, hrole]

/-- The lock of the queue. -/
theorem Invariant.rqLock (h : Invariant strict m locals lost) (hq : m.point = q)
    (hstep : m.rqLock p = some m') (hrole : p.role = { q.role with locks := true })
    (hfits : p.Fits m.self) : Stepped strict m m' := by
  obtain rfl := rqLock_some hstep
  subst hq
  refine h.move rfl rfl rfl ((congrArg Role.toDuty hrole).trans rfl) ?_ ?_ hfits
    (.same rfl rfl ((congrArg Role.reads hrole).trans rfl))
  · refine h.running.writer.trans ?_
    simp only [hrole]
  · simp [hrole]

/-- It is given back. -/
theorem Invariant.rqUnlock (h : Invariant strict m locals lost) (hq : m.point = q)
    (hrole : p.role = { q.role with locks := false }) (hfits : p.Fits m.self) :
    Stepped strict m (m.rqUnlock p) := by
  subst hq
  refine h.move rfl rfl rfl ((congrArg Role.toDuty hrole).trans rfl) ?_ ?_ hfits
    (.same rfl rfl ((congrArg Role.reads hrole).trans rfl))
  · refine h.running.writer.trans ?_
    simp only [Machine.rqUnlock, hrole]
  · simp [Machine.rqUnlock, hrole]

/-- A pop makes a queued pid a held one. -/
theorem Invariant.pop (h : Invariant strict m locals lost) (hq : m.point = q) {rq : RunQueue}
    (hpop : m.sched.rq.pop = some (next, rq)) (hrole : p.role = { q.role with holds := some next })
    (hnone : q.role.holds = none) (hinc : q.role.incoming = none) (hsaved : q.role.saved = false)
    (hfits : p.Fits m.self) : Stepped strict m (m.withSched { m.sched with rq := rq } p) := by
  subst hq
  have hs : Steady m (m.withSched { m.sched with rq := rq } p) := steady_of_tasks rfl rfl rfl
  have hinc' : p.role.incoming = none := by rw [hrole]; exact hinc
  have hholds : p.role.holds = some next := by rw [hrole]
  have hreads : p.role.reads = m.point.role.reads := by rw [hrole]
  refine ⟨⟨⟨(m.self, next) :: locals, lost, ⟨?_, ?_, ?_, ?_⟩⟩, hs.others,
    blocks_of_tasks rfl⟩, .same rfl rfl hreads⟩
  · refine h.places.take (hs.follows _) hnone hholds ?_
    have hplaced := h.places.placed
    rw [role_exempt_self hinc] at hplaced
    change Placed (p.role.exempt m.self) _ _
    rw [role_exempt_self hinc']
    exact hplaced.pop hpop
  · exact h.regs.keep hs rfl (Retains.refl _)
  · have hrun := h.running
    have hsame : (p.role.state, p.role.writes, p.role.locks, p.role.saved) =
        (m.point.role.state, m.point.role.writes, m.point.role.locks, m.point.role.saved) := by
      rw [hrole]
    simp only [Prod.mk.injEq] at hsame
    obtain ⟨hstate, hwrites, hlocks, hsaved'⟩ := hsame
    change Running _ p
    refine ⟨?_, hstate ▸ hrun.state, ?_, hwrites ▸ hrun.writer, hlocks ▸ hrun.rqOwner, hfits, ?_⟩
    · rw [hinc']
      exact h.current_eq hinc
    · intro n st hn
      rw [hinc'] at hn
      cases hn
    · intro hs'
      rw [hsaved', hsaved] at hs'
      cases hs'
  · have hchild : p.role.child = m.point.role.child := by rw [hrole]
    exact h.births.keep ((hs.follows _).same hchild) rfl (Nat.le_refl _) (fun _ hx => hx)

/-- `current` is stored before anything else changes. -/
theorem Invariant.swap (h : Invariant strict m locals lost) (hq : m.point = .swap next) :
    Stepped strict m (m.withSched { m.sched with current := next } (.switchRead m.self next)) := by
  have hs : Steady m (m.withSched { m.sched with current := next } (.switchRead m.self next)) :=
    steady_of_tasks rfl rfl rfl
  have hholds : m.point.role.holds = some next := by rw [hq]; rfl
  obtain ⟨hne, t, ht, hst⟩ := h.places.held hholds
  refine ⟨⟨⟨locals, lost, ⟨?_, ?_, ?_, ?_⟩⟩, hs.others, blocks_of_tasks rfl⟩,
    .same rfl rfl (by rw [hq]; rfl)⟩
  · refine h.places.keep ((hs.follows _).same (by rw [hq]; rfl)) ?_
    have hplaced := h.places.placed
    rw [role_exempt_holds hholds] at hplaced
    exact hplaced.congr rfl (fun _ _ => rfl)
  · exact h.regs.keep hs rfl (Retains.refl _)
  · have hrun : Running m (.swap next) := hq ▸ h.running
    refine ⟨rfl, hrun.state, ?_, hrun.writer, hrun.rqOwner, rfl, Bool.false_ne_true.elim⟩
    rintro n st ⟨⟩
    exact ⟨hne, t, ht, hst⟩
  · exact h.births.keep ((hs.follows _).same (by rw [hq]; rfl)) rfl (Nat.le_refl _) (fun _ hx => hx)

/-- The running task queues itself, and has handed over. -/
theorem Invariant.switchPush (h : Invariant strict m locals lost)
    (hq : m.point = .switchPush m.self next defaultPrio) :
    Stepped strict m
      (m.withSched (m.sched.enqueue m.self defaultPrio) (.switchUnlock m.self next)) := by
  have hs : Steady m
      (m.withSched (m.sched.enqueue m.self defaultPrio) (.switchUnlock m.self next)) :=
    steady_of_tasks rfl rfl rfl
  have hholds : m.point.role.holds = some next := by rw [hq]; rfl
  have hrun : Running m (.switchPush m.self next defaultPrio) := hq ▸ h.running
  obtain ⟨t, ht, hst⟩ := hrun.state
  have hprio := (h.regs.owned m.self t ht).2
  refine ⟨⟨⟨_, lost, ⟨h.places.drop (hs.follows _) hholds rfl ?_, ?_, ?_, ?_⟩⟩, hs.others,
    blocks_of_tasks rfl⟩, .same rfl rfl (by rw [hq]; rfl)⟩
  · intro held hplaced
    rw [role_exempt_holds hholds] at hplaced
    have hheld := (hplaced.hold ht hst h.self_ne_zero h.births.zero).enqueue ht
    rw [hprio] at hheld
    refine hheld.handOver (fun u hu => ?_)
    change lookup m.sched.tasks 0 = some u at hu
    rw [h.births.zero] at hu
    cases hu
  · exact h.regs.keep hs rfl (Retains.refl _)
  · exact ⟨hrun.current, hrun.state, hrun.incoming, hrun.writer, hrun.rqOwner, rfl,
      Bool.false_ne_true.elim⟩
  · exact h.births.keep ((hs.follows _).same (by rw [hq]; rfl)) rfl (Nat.le_refl _) (fun _ hx => hx)

/-- A new task is queued by the one that made it. -/
theorem Invariant.spawnPush (h : Invariant strict m locals lost) {b : Birth}
    (hq : m.point = .spawnPush b) :
    Stepped strict m (m.withSched (m.sched.enqueue b.pid defaultPrio) (.spawnUnlock b)) := by
  have hs : Steady m (m.withSched (m.sched.enqueue b.pid defaultPrio) (.spawnUnlock b)) :=
    steady_of_tasks rfl rfl rfl
  have hholds : m.point.role.holds = some b.pid := by rw [hq]; rfl
  have hrun : Running m (.spawnPush b) := hq ▸ h.running
  obtain ⟨-, t, ht, -⟩ := h.places.held hholds
  have hprio := (h.regs.owned b.pid t ht).2
  refine ⟨⟨⟨_, lost, ⟨h.places.drop (hs.follows _) hholds rfl ?_, ?_, ?_, ?_⟩⟩, hs.others,
    blocks_of_tasks rfl⟩, .same rfl rfl (by rw [hq]; rfl)⟩
  · intro held hplaced
    have hqueued := hplaced.enqueue ht
    rw [hprio, role_exempt_holds hholds] at hqueued
    exact hqueued
  · exact h.regs.keep hs rfl (Retains.refl _)
  · exact ⟨hrun.current, hrun.state, hrun.incoming, hrun.writer, hrun.rqOwner, trivial,
      Bool.false_ne_true.elim⟩
  · exact h.births.keep ((hs.follows _).same (by rw [hq]; rfl)) rfl (Nat.le_refl _) (fun _ hx => hx)

/-- `exit_current` hands over with its store to `current`. -/
theorem Invariant.exitStore (h : Invariant strict m locals lost) (hq : m.point = .exitStore next) :
    Stepped strict m (m.withSched { m.sched with current := next } (.exitReadNext next)) := by
  have hs : Steady m (m.withSched { m.sched with current := next } (.exitReadNext next)) :=
    steady_of_tasks rfl rfl rfl
  have hholds : m.point.role.holds = some next := by rw [hq]; rfl
  have hrun : Running m (.exitStore next) := hq ▸ h.running
  obtain ⟨hne, hblock⟩ := h.places.held hholds
  refine ⟨⟨⟨_, lost, ⟨h.places.drop (hs.follows _) hholds rfl ?_, ?_, ?_, ?_⟩⟩, hs.others,
    blocks_of_tasks rfl⟩, .same rfl rfl (by rw [hq]; rfl)⟩
  · intro held hplaced
    rw [role_exempt_holds hholds] at hplaced
    refine (hplaced.handOver (fun t ht => ?_)).congr rfl (fun _ _ => rfl)
    obtain ⟨u, hu, hst⟩ := hrun.state
    obtain rfl := Option.some.inj (ht.symm.trans hu)
    exact hst
  · exact h.regs.keep hs rfl (Retains.refl _)
  · refine ⟨rfl, hrun.state, ?_, hrun.writer, hrun.rqOwner, trivial, Bool.false_ne_true.elim⟩
    rintro n st ⟨⟩
    exact ⟨hne, hblock⟩
  · exact h.births.keep ((hs.follows _).same (by rw [hq]; rfl)) rfl (Nat.le_refl _) (fun _ hx => hx)

/-- A task that changes its state is not forgotten. -/
theorem setState_retains (pid : Nat) (st : State) :
    Retains m.sched.tasks (m.sched.setState pid st).tasks :=
  retains_adjust _ _ (fun _ => ⟨rfl, rfl⟩)

/-- No other task changes. -/
theorem setState_other {pid x : Nat} {st : State} (hne : x ≠ pid) :
    lookup (m.sched.setState pid st).tasks x = lookup m.sched.tasks x := by
  rw [setState, lookup_adjust, if_neg hne]

/-- The task has the new state. -/
theorem setState_same {pid : Nat} {st : State} {t : Tcb Regs}
    (ht : lookup m.sched.tasks pid = some t) :
    lookup (m.sched.setState pid st).tasks pid = some { t with state := st } := by
  rw [setState, lookup_adjust, if_pos rfl, ht]
  rfl

/-- The running task stores its own state. -/
theorem Invariant.setOwn (h : Invariant strict m locals lost) (hq : m.point = q) {st : State}
    (hrole : p.role = { q.role with state := st }) (hexempt : q.role.exempt m.self = m.self)
    (hlive : q.role.state ≠ .zombie) (hsaved : q.role.saved = false) (hfits : p.Fits m.self) :
    Stepped strict m (m.withSched (m.sched.setState m.self st) p) := by
  subst hq
  have hreads : p.role.reads = m.point.role.reads := by rw [hrole]
  have hblocks : Blocks m (m.withSched (m.sched.setState m.self st) p) := by
    refine blocks_of_adjust (p := m.self) rfl (fun _ t ht => ⟨rfl, fun hzombie => ?_⟩)
    obtain ⟨u, hu, hst⟩ := h.running.state
    obtain rfl := Option.some.inj (ht.symm.trans hu)
    exact absurd (hst.symm.trans hzombie) hlive
  have hs : Steady m (m.withSched (m.sched.setState m.self st) p) :=
    steady_of_states rfl (fun _ _ => rfl) (fun x hne => congrArg _ (setState_other hne))
  have hsame : (p.role.holds, p.role.child, p.role.incoming, p.role.writes, p.role.locks,
      p.role.saved, p.role.state) = (m.point.role.holds, m.point.role.child, m.point.role.incoming,
        m.point.role.writes, m.point.role.locks, false, st) := by
    rw [hrole, ← hsaved]
  simp only [Prod.mk.injEq] at hsame
  obtain ⟨hholds, hchild, hinc, hwrites, hlocks, hsaved', hstate⟩ := hsame
  have hrun := h.running
  refine ⟨⟨⟨locals, lost, ⟨h.places.keep ((hs.follows _).same hholds) ?_, ?_, ?_, ?_⟩⟩, hs.others,
    hblocks⟩, .same rfl rfl hreads⟩
  · have hplaced := h.places.placed
    have hexempt' : p.role.exempt m.self = m.self := by
      rw [Role.exempt, hinc, hholds]
      exact hexempt
    rw [hexempt] at hplaced
    change Placed (p.role.exempt m.self) _ _
    rw [hexempt']
    exact hplaced.adjust_ex _
  · exact h.regs.keep hs rfl (setState_retains _ _)
  · change Running _ p
    refine ⟨hinc ▸ hrun.current, ?_, ?_, hwrites ▸ hrun.writer, hlocks ▸ hrun.rqOwner, hfits, ?_⟩
    · obtain ⟨t, ht, -⟩ := hrun.state
      exact ⟨_, setState_same ht, hstate.symm⟩
    · intro n st' hn
      rw [hinc] at hn
      obtain ⟨hne, t, ht, hst⟩ := hrun.incoming n st' hn
      exact ⟨hne, t, (setState_other hne).trans ht, hst⟩
    · intro hs'
      rw [hsaved'] at hs'
      cases hs'
  · exact h.births.keep ((hs.follows _).same hchild) rfl (length_adjust _ _ _).le
      (fun _ hx => (setState_retains _ _).none hx)

/-- The running task marks the one it hands over to. -/
theorem Invariant.promote (h : Invariant strict m locals lost) (hq : m.point = q)
    (hinc : q.role.incoming = some (next, .runnable)) (hholds : q.role.holds = none)
    (hrole : p.role = { q.role with incoming := some (next, .running) })
    (hsaved : q.role.saved = false) (hfits : p.Fits m.self) :
    Stepped strict m (m.withSched (m.sched.setState next .running) p) := by
  subst hq
  have hrun := h.running
  obtain ⟨hne, t, ht, hst⟩ := hrun.incoming next _ hinc
  have hreads : p.role.reads = m.point.role.reads := by rw [hrole]
  have hblocks : Blocks m (m.withSched (m.sched.setState next .running) p) := by
    refine blocks_of_adjust (p := next) rfl (fun _ u hu => ⟨rfl, fun hzombie => ?_⟩)
    obtain rfl := Option.some.inj (ht.symm.trans hu)
    cases hst.symm.trans hzombie
  have hnext : lookup (m.sched.setState next .running).tasks next =
      some { t with state := .running } := setState_same ht
  have hs : Steady m (m.withSched (m.sched.setState next .running) p) := by
    refine ⟨rfl, fun _ _ => rfl, fun x hx => ?_⟩
    by_cases hxn : x = next
    · subst hxn
      have hnew : (m.withSched (m.sched.setState x .running) p).Alive x :=
        Or.inr ⟨_, hnext, by simp⟩
      have hold : m.Alive x := Or.inr ⟨t, ht, by rw [hst]; decide⟩
      exact iff_of_true hnew hold
    · have hlook : lookup (m.withSched (m.sched.setState next .running) p).sched.tasks x =
          lookup m.sched.tasks x := setState_other hxn
      rw [Machine.Alive, Machine.Alive, hlook]
      rfl
  have hsame : (p.role.holds, p.role.child, p.role.writes, p.role.locks, p.role.saved,
      p.role.state) = (m.point.role.holds, m.point.role.child, m.point.role.writes,
        m.point.role.locks, false, m.point.role.state) := by
    rw [hrole, ← hsaved]
  have hinc' : p.role.incoming = some (next, .running) := by rw [hrole]
  simp only [Prod.mk.injEq] at hsame
  obtain ⟨hholds', hchild, hwrites, hlocks, hsaved', hstate⟩ := hsame
  refine ⟨⟨⟨locals, lost, ⟨h.places.keep ((hs.follows _).same hholds') ?_, ?_, ?_, ?_⟩⟩, hs.others,
    hblocks⟩, .same rfl rfl hreads⟩
  · have hplaced := h.places.placed
    rw [role_exempt_incoming hinc hholds] at hplaced
    change Placed (p.role.exempt m.self) _ _
    rw [role_exempt_incoming hinc' (hholds'.trans hholds)]
    exact hplaced.adjust_ex _
  · exact h.regs.keep hs rfl (setState_retains _ _)
  · change Running _ p
    refine ⟨?_, ?_, ?_, hwrites ▸ hrun.writer, hlocks ▸ hrun.rqOwner, hfits, ?_⟩
    · rw [hinc']
      have hcur := hrun.current
      rw [hinc] at hcur
      exact hcur
    · obtain ⟨u, hu, hstu⟩ := hrun.state
      exact ⟨u, (setState_other (Ne.symm hne)).trans hu, hstu.trans hstate.symm⟩
    · intro n st' hn
      rw [hinc'] at hn
      cases hn
      exact ⟨hne, _, hnext, rfl⟩
    · intro hs'
      rw [hsaved'] at hs'
      cases hs'
  · exact h.births.keep ((hs.follows _).same hchild) rfl (length_adjust _ _ _).le
      (fun _ hx => (setState_retains _ _).none hx)

/-- A task that gets the CPU goes on where it lost it. -/
theorem running_arrive {t : Tcb Regs} (hpark : Parkable m.self p)
    (hcur : m.sched.current = m.self) (ht : lookup m.sched.tasks m.self = some t)
    (hst : t.state = .running) (hwriter : m.writer = none) (hrq : m.rqOwner = none) :
    Running m p := by
  have hinc := hpark.incoming
  refine ⟨?_, ⟨t, ht, hst.trans hpark.state.symm⟩, ?_, ?_, ?_, hpark.fits, ?_⟩
  · rw [hinc]
    exact hcur
  · intro n st hn
    rw [hinc] at hn
    cases hn
  · rw [hpark.writes]
    exact hwriter
  · rw [hpark.locks]
    exact hrq
  · exact fun hsaved => absurd hinc (role_saved hsaved)

/-- The saving half of `context_switch`. -/
theorem Invariant.save (h : Invariant strict m locals lost)
    (hq : m.point = .switchSave m.self next) :
    Stepped strict m (m.save m.self .work (.switchRestore next)) := by
  have hlook : ∀ x, lookup (m.save m.self .work (.switchRestore next)).sched.tasks x =
      if x = m.self then (lookup m.sched.tasks x).map (fun t => { t with ctx := ⟨m.self, .work⟩ })
      else lookup m.sched.tasks x := fun x => lookup_adjust _ _ _ _
  have hleft : ∀ x, x ≠ m.self → (m.save m.self .work (.switchRestore next)).left x = m.left x :=
    fun x hx => Function.update_of_ne hx _ _
  have hs : Steady m (m.save m.self .work (.switchRestore next)) :=
    steady_of_states rfl hleft (fun x hx => by rw [hlook, if_neg hx])
  have hrun : Running m (.switchSave m.self next) := hq ▸ h.running
  have hblocks : Blocks m (m.save m.self .work (.switchRestore next)) :=
    blocks_of_adjust (p := m.self) rfl (fun _ _ _ => ⟨rfl, id⟩)
  refine ⟨⟨⟨locals, lost, ⟨?_, ⟨?_, ?_⟩, ?_, ?_⟩⟩, hs.others, hblocks⟩,
    .same rfl rfl (by rw [hq]; rfl)⟩
  · refine h.places.keep ((hs.follows _).same (by rw [hq]; rfl)) ?_
    have hplaced := h.places.placed
    rw [hq] at hplaced
    exact hplaced.adjust (fun _ => ⟨rfl, rfl⟩)
  · intro x t' ht'
    rw [hlook] at ht'
    by_cases hx : x = m.self
    · rw [if_pos hx] at ht'
      obtain ⟨t, ht, rfl⟩ := Option.map_eq_some_iff.mp ht'
      subst hx
      refine ⟨?_, (h.regs.owned _ t ht).2⟩
      change _ = (⟨m.self, Function.update m.left m.self .work m.self⟩ : Regs)
      rw [Function.update_self]
    · rw [if_neg hx] at ht'
      rw [hleft x hx]
      exact h.regs.owned x t' ht'
  · intro x hx hne
    rw [hleft x hne]
    exact h.regs.parked x ((hs.alive_iff x hne).mp hx) hne
  · refine ⟨hrun.current, ?_, ?_, hrun.writer, hrun.rqOwner, trivial,
      fun _ => Function.update_self ..⟩
    · obtain ⟨t, ht, hst⟩ := hrun.state
      refine ⟨{ t with ctx := ⟨m.self, .work⟩ }, ?_, hst⟩
      change lookup (m.save m.self .work (.switchRestore next)).sched.tasks m.self = _
      rw [hlook, if_pos rfl, ht]
      rfl
    · intro n st hn
      obtain ⟨hne, t, ht, hst⟩ := hrun.incoming n st hn
      exact ⟨hne, t, ((hlook n).trans (if_neg hne)).trans ht, hst⟩
  · refine h.births.keep ((hs.follows _).same (by rw [hq]; rfl)) rfl (length_adjust _ _ _).le ?_
    intro x hx
    rw [hlook, hx]
    split <;> rfl

/-- Nothing is forgotten by a task that has nothing to remember. -/
theorem restore_has (h : Invariant strict m locals lost) (hne : next ≠ m.self)
    (halive : m.Alive next)
    (hleave : m.point.role.state = .zombie ∨ m.left m.self = .work) (f : Duty → Option Nat)
    (hwork : f Point.work.role.toDuty = none) (hnone : f m.point.role.toDuty = none) (x y : Nat) :
    (Machine.Has { m with self := next, point := m.left next } f x y ↔ m.Has f x y) := by
  by_cases hx : x = next
  · subst hx
    refine (Machine.has_self (m := { m with self := x, point := m.left x })).trans ?_
    rw [Machine.Has, Machine.at_other hne]
    exact (and_iff_right halive).symm
  · have hat : Machine.at { m with self := next, point := m.left next } x = m.left x :=
      Machine.at_other (m := { m with self := next, point := m.left next }) hx
    by_cases hself : x = m.self
    · subst hself
      rw [Machine.has_self, hnone]
      refine iff_of_false ?_ (by simp)
      rintro ⟨hlive, hf⟩
      rw [hat] at hf
      rcases hleave with hzombie | hleft
      · obtain ⟨t, ht, hst⟩ := h.running.state
        obtain ⟨u, hu, hstu⟩ := hlive.resolve_left hx
        obtain rfl := Option.some.inj (ht.symm.trans hu)
        exact hstu (hst.trans hzombie)
      · rw [hleft, hwork] at hf
        cases hf
    · rw [Machine.Has, Machine.Has, hat, Machine.at_other hself]
      simp only [Machine.Alive, hx, hself, false_or]

/-- **The restoring half of `context_switch`** starts the task that `current`
names. -/
theorem Invariant.restore (h : Invariant strict m locals lost) (hq : m.point = q)
    (hinc : q.role.incoming = some (next, .running)) (hholds : q.role.holds = none)
    (hchild : q.role.child = none) (hreads : q.role.reads = false)
    (hwrites : q.role.writes = false) (hlocks : q.role.locks = false)
    (hleave : q.role.state = .zombie ∨ m.left m.self = .work) {t : Tcb Regs}
    (ht : lookup m.sched.tasks next = some t) : Stepped strict m (m.restore t.ctx) := by
  subst hq
  have hrun := h.running
  obtain ⟨hne, u, hu, hst⟩ := hrun.incoming next _ hinc
  obtain rfl := Option.some.inj (ht.symm.trans hu)
  have halive : m.Alive next := Or.inr ⟨t, ht, by rw [hst]; decide⟩
  have hpark := h.regs.parked next halive hne
  have hctx : m.restore t.ctx = { m with self := next, point := m.left next } := by
    rw [(h.regs.owned next t ht).1]
    rfl
  rw [hctx]
  have hhas := fun f hwork hnone => restore_has h hne halive hleave f hwork hnone
  have hothers : Others m { m with self := next, point := m.left next } := by
    intro x hx hlive
    rw [Machine.at_other hx]
    by_cases hxn : x = next
    · subst hxn
      exact ⟨Or.inl rfl, if_pos rfl⟩
    · exact ⟨Or.inr (hlive.resolve_left hx), if_neg hxn⟩
  refine ⟨⟨⟨locals, lost, ⟨h.places.keep (hhas _ rfl hholds) ?_, ⟨h.regs.owned, ?_⟩, ?_, ?_⟩⟩, hothers,
    blocks_of_tasks rfl⟩, .leave rfl hreads⟩
  · have hplaced := h.places.placed
    rw [role_exempt_incoming hinc hholds] at hplaced
    change Placed ((m.left next).role.exempt next) _ _
    rw [role_exempt_self hpark.incoming]
    exact hplaced
  · intro x hx hxne
    change Parkable x (m.left x)
    have hlive := hx.resolve_left hxne
    by_cases hself : x = m.self
    · subst hself
      rcases hleave with hzombie | hleft
      · obtain ⟨v, hv, hstv⟩ := hrun.state
        obtain ⟨w, hw, hstw⟩ := hlive
        obtain rfl := Option.some.inj (hv.symm.trans hw)
        exact absurd (hstv.trans hzombie) hstw
      · rw [hleft]
        exact ⟨rfl, rfl, rfl, rfl, trivial⟩
    · exact h.regs.parked x (Or.inr hlive) hself
  · refine running_arrive hpark ?_ ht hst ?_ ?_
    · have hcur := hrun.current
      rw [hinc] at hcur
      exact hcur
    · have hwriter := hrun.writer
      rw [hwrites] at hwriter
      exact hwriter
    · have hrq := hrun.rqOwner
      rw [hlocks] at hrq
      exact hrq
  · exact h.births.keep (hhas _ rfl hchild) rfl (Nat.le_refl _) (fun _ hx => hx)

/-- A task that is alive has a block. -/
theorem Invariant.alive_block (h : Invariant strict m locals lost) {x : Nat} (hx : m.Alive x) :
    ∃ t, lookup m.sched.tasks x = some t := by
  rcases hx with rfl | ⟨t, ht, -⟩
  · obtain ⟨t, ht, -⟩ := h.running.state
    exact ⟨t, ht⟩
  · exact ⟨t, ht⟩

/-- A task has a pid below the length of the table. -/
private theorem lookup_lt {ts : Tasks Regs} {x : Nat} {t : Tcb Regs} (ht : lookup ts x = some t) :
    x < ts.length := by
  by_contra hge
  have hnone : lookup ts x = none := by simp [lookup, List.getElem?_eq_none (not_lt.mp hge)]
  rw [hnone] at ht
  cases ht

/-- Every pid beyond the heap is in the hands of a task, one each. -/
theorem Invariant.nextPid_le (h : Invariant strict m locals lost) :
    m.sched.nextPid ≤ 2 * maxTasks := by
  have hbear : ∀ p ∈ Finset.Ico maxTasks m.sched.nextPid, ∃ x, m.Has Duty.child x p := by
    intro p hp
    obtain ⟨hle, hlt⟩ := Finset.mem_Ico.mp hp
    exact h.births.child_all p hle hlt
  choose! bearer hbearer using hbear
  have hcard : (Finset.Ico maxTasks m.sched.nextPid).card ≤
      (Finset.range m.sched.tasks.length).card := by
    refine Finset.card_le_card_of_injOn bearer (fun p hp => ?_) (fun p hp p' hp' heq => ?_)
    · obtain ⟨t, ht⟩ := h.alive_block (hbearer p hp).1
      exact Finset.mem_coe.mpr (Finset.mem_range.mpr (lookup_lt ht))
    · have hp2 := (hbearer p hp).2
      rw [heq, (hbearer p' hp').2] at hp2
      exact (Option.some.inj hp2).symm
  have hlen := h.births.length_le
  rw [Nat.card_Ico, Finset.card_range] at hcard
  omega

/-- The counter of pids does not wrap. -/
theorem Invariant.takePid_eq (h : Invariant strict m locals lost) :
    takePid m.sched = (m.sched.nextPid, { m.sched with nextPid := m.sched.nextPid + 1 }) := by
  have hle := h.nextPid_le
  have hmax : maxTasks = 131072 := by decide
  have hmod : m.sched.nextPid % 2 ^ 32 = m.sched.nextPid := Nat.mod_eq_of_lt (by omega)
  have hadd : add m.sched.nextPid 1 = m.sched.nextPid + 1 := add_eq (by unfold modulus; omega)
  rw [takePid, hmod, hadd]

/-- A pid is taken. -/
theorem Invariant.spawnPid (h : Invariant strict m locals lost) {entry : Entry}
    (hq : m.point = .spawnPid entry) :
    Stepped strict m (m.withSched { m.sched with nextPid := m.sched.nextPid + 1 }
      (.spawnWrite ⟨m.sched.nextPid, entry, m.cr3⟩)) := by
  generalize hm' : m.withSched { m.sched with nextPid := m.sched.nextPid + 1 }
    (.spawnWrite ⟨m.sched.nextPid, entry, m.cr3⟩) = m'
  have hs : Steady m m' := by
    subst hm'
    exact steady_of_tasks rfl rfl rfl
  have hrun : Running m (.spawnPid entry) := hq ▸ h.running
  have hchild : ∀ x p, m'.Has Duty.child x p ↔
      if x = m.self then p = m.sched.nextPid else m.Has Duty.child x p := by
    intro x p
    rw [hs.follows Duty.child x p]
    subst hm'
    by_cases hx : x = m.self
    · rw [if_pos hx, if_pos hx]
      exact Option.some_inj.trans eq_comm
    · rw [if_neg hx, if_neg hx]
  have hnone : lookup m.sched.tasks m.sched.nextPid = none := by
    cases hx : lookup m.sched.tasks m.sched.nextPid with
    | none => rfl
    | some t => exact absurd (h.births.fresh _ t hx) (Nat.lt_irrefl _)
  have hlt : ∀ x p, m.Has Duty.child x p → p < m.sched.nextPid :=
    fun x p hp => (h.births.child_new x p hp).2.1
  have hold : ∀ p, ¬m.Has Duty.child m.self p := by
    intro p hp
    have hpoint := Machine.has_self.mp hp
    rw [hq] at hpoint
    cases hpoint
  refine ⟨⟨⟨locals, lost, ⟨?_, ?_, ?_, ?_⟩⟩, hs.others, blocks_of_tasks (by rw [← hm']; rfl)⟩,
    .same hs.self_eq (by rw [← hm']; rfl) (by rw [← hm', hq]; rfl)⟩
  · subst hm'
    refine h.places.keep ((hs.follows _).same (by rw [hq]; rfl)) ?_
    have hplaced := h.places.placed
    rw [hq] at hplaced
    exact hplaced.congr rfl (fun _ _ => rfl)
  · subst hm'
    exact h.regs.keep hs rfl (Retains.refl _)
  · subst hm'
    exact ⟨hrun.current, hrun.state, hrun.incoming, hrun.writer, hrun.rqOwner, trivial,
      Bool.false_ne_true.elim⟩
  · have hnext : m'.sched.nextPid = m.sched.nextPid + 1 := by rw [← hm']; rfl
    have htasks : m'.sched.tasks = m.sched.tasks := by rw [← hm']; rfl
    refine ⟨htasks ▸ h.births.zero, by omega, ?_, htasks ▸ h.births.length_le, ?_, ?_, ?_⟩
    · intro p t ht
      rw [htasks] at ht
      have := h.births.fresh p t ht
      omega
    · intro x p hp
      rw [hchild] at hp
      rw [hnext, htasks]
      by_cases hx : x = m.self
      · rw [if_pos hx] at hp
        subst hp
        exact ⟨h.births.positive.ne', Nat.lt_succ_self _, hnone⟩
      · rw [if_neg hx] at hp
        obtain ⟨hzero, hlt', hnone'⟩ := h.births.child_new x p hp
        exact ⟨hzero, by omega, hnone'⟩
    · intro x x' p hp hp'
      rw [hchild] at hp hp'
      by_cases hx : x = m.self
      · by_cases hx' : x' = m.self
        · exact hx.trans hx'.symm
        · rw [if_pos hx] at hp
          rw [if_neg hx'] at hp'
          have := hlt x' p hp'
          omega
      · rw [if_neg hx] at hp
        by_cases hx' : x' = m.self
        · rw [if_pos hx'] at hp'
          have := hlt x p hp
          omega
        · rw [if_neg hx'] at hp'
          exact h.births.child_inj x x' p hp hp'
    · intro p hle hlt'
      rw [hnext] at hlt'
      by_cases hp : p = m.sched.nextPid
      · exact ⟨m.self, (hchild _ _).mpr ((if_pos rfl).mpr hp)⟩
      · obtain ⟨x, hx⟩ := h.births.child_all p hle (by omega)
        refine ⟨x, (hchild _ _).mpr ?_⟩
        have hne : x ≠ m.self := by
          rintro rfl
          exact hold p hx
        rw [if_neg hne]
        exact hx

/-- A call begins without any lock. -/
theorem entry_role (e : Entry) : e.point.role = {} := by
  cases e <;> rfl

/-- The block of a new task. -/
def Birth.block (b : Birth) : Tcb Regs := newTcb b.pid 0 b.cr3 ⟨b.pid, b.entry.point⟩

/-- What `spawnStore` makes of a machine. -/
def Machine.born (m : Machine) (b : Birth) : Machine :=
  { m with
    sched := { m.sched with tasks := insert m.sched.tasks b.pid b.block }
    point := .spawnDrop b
    left := Function.update m.left b.pid b.entry.point }

/-- **A new task** is stored; its pid is held by the one that made it. -/
theorem Invariant.spawnStore (h : Invariant strict m locals lost) {b : Birth}
    (hq : m.point = .spawnStore b) (hstep : m.step = some m') : Stepped strict m m' := by
  have hbear : m.Has Duty.child m.self b.pid := by rw [Machine.has_self, hq]; rfl
  obtain ⟨hzero, hlt, hnone⟩ := h.births.child_new _ _ hbear
  have hrun : Running m (.spawnStore b) := hq ▸ h.running
  have hslot : b.pid < maxTasks ∧ m' = m.born b := by
    simp only [Machine.step, hq] at hstep
    split at hstep
    · cases hstep
    next hroom =>
      refine ⟨?_, (Option.some.inj hstep).symm⟩
      have hlen := h.births.length_le
      rw [heapHolds_iff] at hroom
      omega
  obtain ⟨hmax, rfl⟩ := hslot
  generalize hm' : m.born b = m'
  have hlook : ∀ x, lookup m'.sched.tasks x =
      if x = b.pid then some b.block else lookup m.sched.tasks x := by
    subst hm'
    exact fun x => lookup_insert _ _ _ _
  have hself : m'.self = m.self := by subst hm'; rfl
  have hleft : ∀ x, m'.left x = if x = b.pid then b.entry.point else m.left x := by
    subst hm'
    exact fun x => Function.update_apply _ _ _ _
  have hne : b.pid ≠ m.self := by
    intro heq
    obtain ⟨t, ht, -⟩ := hrun.state
    rw [← heq, hnone] at ht
    cases ht
  have hblocks : Blocks m m' := by
    intro x t _ ht
    have hb : x ≠ b.pid := by
      rintro rfl
      rw [hnone] at ht
      cases ht
    exact ⟨t, by rw [hlook, if_neg hb, ht], rfl, id⟩
  have hparked : Parkable b.pid b.entry.point := by
    have hrole := entry_role b.entry
    refine ⟨by rw [hrole], by rw [hrole], by rw [hrole], by rw [hrole], ?_⟩
    cases b.entry <;> trivial
  -- the new task is alive, and has nothing in its local variables
  have hfollows : ∀ f : Duty → Option Nat, f ({} : Role).toDuty = none → Follows f m m' := by
    intro f hf x y
    by_cases hx : x = m.self
    · rw [if_pos hx, hx, ← hself, Machine.has_self]
    · rw [if_neg hx, Machine.Has, Machine.Has, Machine.at_other hx,
        Machine.at_other (hself ▸ hx), hleft]
      by_cases hb : x = b.pid
      · subst hb
        rw [if_pos rfl, entry_role, hf]
        refine iff_of_false (by simp) ?_
        rintro ⟨hlive, -⟩
        obtain ⟨t, ht⟩ := h.alive_block hlive
        rw [hnone] at ht
        cases ht
      · simp only [Machine.Alive, hself, hlook, if_neg hb]
  have hothers : Others m m' := by
    intro x hx halive
    obtain ⟨t, ht⟩ := h.alive_block halive
    have hb : x ≠ b.pid := by
      rintro rfl
      rw [hnone] at ht
      cases ht
    obtain ⟨u, hu, hstu⟩ := halive.resolve_left hx
    refine ⟨Or.inr ⟨u, ?_, hstu⟩, ?_⟩
    · rw [hlook, if_neg hb, hu]
    · rw [Machine.at_other hx, Machine.at_other (hself ▸ hx), hleft, if_neg hb]
  refine ⟨⟨⟨(m.self, b.pid) :: locals, lost, ⟨?_, ⟨?_, ?_⟩, ?_, ?_⟩⟩, hothers, hblocks⟩,
    .same hself (by rw [← hm']; rfl) (by rw [← hm', hq]; rfl)⟩
  · refine h.places.take (hfollows _ rfl) (by rw [hq]; rfl) (by subst hm'; rfl) ?_
    have hplaced := h.places.placed
    rw [hq] at hplaced
    subst hm'
    exact hplaced.insert hnone hne rfl
  · intro x t ht
    rw [hlook] at ht
    rw [hleft]
    by_cases hb : x = b.pid
    · rw [if_pos hb] at ht ⊢
      obtain rfl := Option.some.inj ht
      rw [hb]
      exact ⟨rfl, rfl⟩
    · rw [if_neg hb] at ht ⊢
      exact h.regs.owned x t ht
  · intro x hx hxne
    rw [hself] at hxne
    rw [hleft]
    by_cases hb : x = b.pid
    · rw [if_pos hb, hb]
      exact hparked
    · rw [if_neg hb]
      obtain ⟨t, ht, hst⟩ := hx.resolve_left (hself ▸ hxne)
      rw [hlook, if_neg hb] at ht
      exact h.regs.parked x (Or.inr ⟨t, ht, hst⟩) hxne
  · obtain ⟨t, ht, hst⟩ := hrun.state
    have hblock : lookup m'.sched.tasks m.self = some t := by rw [hlook, if_neg hne.symm, ht]
    subst hm'
    refine ⟨hrun.current, ⟨t, hblock, hst⟩, (fun _ _ h => by cases h), hrun.writer,
      hrun.rqOwner, trivial, Bool.false_ne_true.elim⟩
  · have hnext : m'.sched.nextPid = m.sched.nextPid := by subst hm'; rfl
    have hchild : ∀ x p, m'.Has Duty.child x p ↔ x ≠ m.self ∧ m.Has Duty.child x p := by
      intro x p
      rw [hfollows Duty.child rfl x p]
      by_cases hx : x = m.self
      · rw [if_pos hx]
        refine iff_of_false ?_ (fun hand => hand.1 hx)
        subst hm'
        intro hand
        cases hand
      · rw [if_neg hx]
        exact (and_iff_right hx).symm
    refine ⟨?_, hnext ▸ h.births.positive, ?_, ?_, ?_, ?_, ?_⟩
    · rw [hlook, if_neg (Ne.symm hzero)]
      exact h.births.zero
    · intro p t ht
      rw [hlook] at ht
      rw [hnext]
      by_cases hb : p = b.pid
      · rw [hb]
        exact hlt
      · rw [if_neg hb] at ht
        exact h.births.fresh p t ht
    · have hlen : m'.sched.tasks.length = max m.sched.tasks.length (b.pid + 1) := by
        subst hm'
        simp only [Machine.born, Scheduler.insert, List.length_set, List.length_append,
          List.length_replicate]
        omega
      have := h.births.length_le
      omega
    · intro x p hp
      obtain ⟨hx, hp⟩ := (hchild x p).mp hp
      obtain ⟨hzero', hlt', hnone'⟩ := h.births.child_new x p hp
      refine ⟨hzero', hnext ▸ hlt', ?_⟩
      rw [hlook, if_neg, hnone']
      rintro rfl
      exact hx (h.births.child_inj x m.self _ hp hbear)
    · intro x x' p hp hp'
      exact h.births.child_inj x x' p ((hchild x p).mp hp).2 ((hchild x' p).mp hp').2
    · intro p hle hlt'
      rw [hnext] at hlt'
      obtain ⟨x, hx⟩ := h.births.child_all p hle hlt'
      refine ⟨x, (hchild x p).mpr ⟨?_, hx⟩⟩
      rintro rfl
      have hsame : p = b.pid := Option.some.inj (hx.2.symm.trans hbear.2)
      omega

/-- The block of a zombie is taken away. -/
theorem Invariant.reapTake (h : Invariant strict m locals lost) {pid : Nat}
    (hq : m.point = .reapTake pid) {t : Tcb Regs} (ht : lookup m.sched.tasks pid = some t)
    (hst : t.state = .zombie) :
    Stepped strict m
      (m.withSched { m.sched with tasks := remove m.sched.tasks pid } (.reapDrop t.state)) := by
  have hrun : Running m (.reapTake pid) := hq ▸ h.running
  obtain ⟨u, hu, hstu⟩ := hrun.state
  have hne : pid ≠ m.self := by
    rintro rfl
    obtain rfl := Option.some.inj (ht.symm.trans hu)
    rw [hst] at hstu
    cases hstu
  have hother : ∀ x, x ≠ pid → lookup (remove m.sched.tasks pid) x = lookup m.sched.tasks x :=
    fun x hx => by rw [lookup_remove, if_neg hx]
  have hgone : lookup (remove m.sched.tasks pid) pid = none := by
    rw [lookup_remove, if_pos rfl]
  have hs : Steady m (m.withSched { m.sched with tasks := remove m.sched.tasks pid }
      (.reapDrop t.state)) := by
    refine ⟨rfl, fun _ _ => rfl, fun x hx => ?_⟩
    by_cases hxp : x = pid
    · subst hxp
      refine iff_of_false ?_ ?_
      · rintro (hself | ⟨v, hv, -⟩)
        · exact hx hself
        · change lookup (remove m.sched.tasks x) x = some v at hv
          rw [hgone] at hv
          cases hv
      · rintro (hself | ⟨v, hv, hstv⟩)
        · exact hx hself
        · obtain rfl := Option.some.inj (ht.symm.trans hv)
          exact hstv hst
    · have hlook : lookup (m.withSched { m.sched with tasks := remove m.sched.tasks pid }
          (.reapDrop t.state)).sched.tasks x = lookup m.sched.tasks x := hother x hxp
      rw [Machine.Alive, Machine.Alive, hlook]
      rfl
  have hblocks : Blocks m (m.withSched { m.sched with tasks := remove m.sched.tasks pid }
      (.reapDrop t.state)) := by
    intro x v hx hv
    rw [hq] at hx
    have hxp : x ≠ pid := fun heq => hx (congrArg some heq.symm)
    exact ⟨v, (hother x hxp).trans hv, rfl, id⟩
  have hretains : Retains m.sched.tasks (remove m.sched.tasks pid) := by
    intro x v hv
    have hx : x ≠ pid := by
      rintro rfl
      rw [hgone] at hv
      cases hv
    exact ⟨v, (hother x hx).symm.trans hv, rfl, rfl⟩
  refine ⟨⟨⟨locals, lost, ⟨?_, ?_, ?_, ?_⟩⟩, hs.others, hblocks⟩,
    .same rfl rfl (by rw [hq]; rfl)⟩
  · refine h.places.keep ((hs.follows _).same (by rw [hq]; rfl)) ?_
    have hplaced := h.places.placed
    rw [hq] at hplaced
    exact hplaced.remove ht hst
  · exact h.regs.keep hs rfl hretains
  · exact ⟨hrun.current, ⟨u, (hother _ hne.symm).trans hu, hstu⟩, (fun _ _ h => by cases h),
      hrun.writer, hrun.rqOwner, trivial, Bool.false_ne_true.elim⟩
  · exact h.births.keep ((hs.follows _).same (by rw [hq]; rfl)) rfl
      (List.length_set ..).le (fun x hx => hretains.none hx)

end

end Preemption
