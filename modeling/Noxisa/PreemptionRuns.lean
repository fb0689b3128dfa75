import Noxisa.PreemptionTick

/-!
# Runs under interrupts

The invariant holds in every run in which no interrupt switches tasks during a
handover and only zombies are reaped (`calm_inv`).  Read off it: the registers
that a switch saves are those of the task whose block they go to
(`calm_registers`), and if no interrupt comes right before the store of
`exit_current` to `current` either, no task is ever lost (`calm_located`).  One
interrupt at the wrong point breaks each of the two.
-/

namespace Preemption

open FrameAllocator MachineWord Scheduler

/-- From the store of another pid to `current` to the swap of the registers. -/
def Point.handsOver : Point → Bool
  | .switchRead _ _ | .switchLoad _ _ | .switchStore _ _ _ | .switchLock _ _ _
  | .switchPush _ _ _ | .switchUnlock _ _ | .switchPromote _ _ | .switchDrop _ _ _
  | .switchCr3 _ _ _ | .switchSave _ _ | .switchRestore _ | .exitReadNext _ | .exitPromote _
  | .exitDropNext _ _ | .exitCr3 _ _ | .exitRestore _ => true
  | _ => false

/-- A task is on its way to the core at the points of a hand-over. -/
theorem incoming_eq_none {p : Point} : p.role.incoming = none ↔ p.handsOver = false := by
  cases p <;> simp [Point.role, Point.handsOver]

/-- The block that a `reap` is about to take is that of a zombie. -/
def Machine.reapsZombie (m : Machine) : Bool :=
  match m.point with
  | .reapTake pid => (lookup m.sched.tasks pid).map Tcb.state = some .zombie
  | _ => true

/-- Interrupts do nothing during a handover and at the points that `bad` names,
and only zombies are reaped. -/
def Calm (bad : Point → Bool) (m : Machine) : Event → Prop
  | .tick => m.Preempts → m.point.handsOver = false ∧ bad m.point = false
  | .step => m.reapsZombie = true
  | .call _ => True

instance (bad : Point → Bool) (m : Machine) (e : Event) : Decidable (Calm bad m e) :=
  match e with
  | .tick => inferInstanceAs (Decidable (_ → _ ∧ _))
  | .step => inferInstanceAs (Decidable (_ = _))
  | .call _ => isTrue trivial

section

variable {strict : Prop} {m m' : Machine} {locals : List (Nat × Nat)} {lost : List Nat}

/-- The setters change neither a task's state, its priority nor its context. -/
theorem setter_keeps (t : Tcb Regs) (f : Setter) :
    (Setter.apply t f).state = t.state ∧ (Setter.apply t f).priority = t.priority ∧
      (Setter.apply t f).ctx = t.ctx := by
  cases f with
  | allocFd file =>
      simp only [Setter.apply]
      split <;> exact ⟨rfl, rfl, rfl⟩
  | _ => exact ⟨rfl, rfl, rfl⟩

/-- **Every step of a task** keeps the invariant. -/
theorem Invariant.step (h : Invariant strict m locals lost)
    (hreap : m.reapsZombie = true)
    (hstep : m.step = some m') : Stepped strict m m' := by
  have hrun := h.running
  have hcur := h.current_eq
  have hfits := hrun.fits
  obtain ⟨self, hself, hstate⟩ := hrun.state
  cases hq : m.point with
  | work => simp [Machine.step, hq] at hstep
  | trampoline i =>
      simp only [Machine.step, hq, Option.some.injEq] at hstep
      subst hstep
      exact h.goto hq rfl (hcur (by rw [hq]; rfl))
  | trampolineRead i pid =>
      simp only [Machine.step, hq] at hstep
      rw [hq] at hfits
      exact h.readLock hq hstep rfl rfl hfits
  | trampolineUse i pid =>
      simp only [Machine.step, hq] at hstep
      split at hstep
      · obtain rfl := Option.some.inj hstep
        exact h.goto hq rfl trivial
      · cases hstep
  | trampolineDrop i =>
      simp only [Machine.step, hq, Option.some.injEq] at hstep
      subst hstep
      exact h.readUnlock hq rfl trivial
  | yieldLock =>
      simp only [Machine.step, hq] at hstep
      exact h.rqLock hq hstep rfl trivial
  | yieldPop =>
      simp only [Machine.step, hq] at hstep
      split at hstep
      next next rq hpop =>
        obtain rfl := Option.some.inj hstep
        exact h.pop hq hpop rfl rfl rfl rfl trivial
      next =>
        obtain rfl := Option.some.inj hstep
        exact h.goto hq rfl trivial
  | yieldUnlock next =>
      cases next with
      | none =>
          simp only [Machine.step, hq, Option.some.injEq] at hstep
          subst hstep
          exact h.rqUnlock hq rfl trivial
      | some next =>
          simp only [Machine.step, hq, Option.some.injEq] at hstep
          subst hstep
          exact h.rqUnlock hq rfl trivial
  | swap next =>
      have hne := (h.places.held (by rw [hq]; rfl : m.point.role.holds = some next)).1
      have hcur := hcur (by rw [hq]; rfl)
      simp only [Machine.step, hq, hcur, if_neg hne.symm, Option.some.injEq] at hstep
      subst hstep
      exact h.swap hq
  | switchRead prev next =>
      simp only [Machine.step, hq] at hstep
      rw [hq] at hfits
      exact h.readLock hq hstep rfl rfl hfits
  | switchLoad prev next =>
      rw [hq] at hfits hstate
      obtain rfl : prev = m.self := hfits
      have hrunning : self.state = .running := hstate
      simp only [Machine.step, hq, if_neg h.self_ne_zero, hself, if_pos hrunning,
        Option.some.injEq] at hstep
      subst hstep
      exact h.goto hq rfl ⟨rfl, (h.regs.owned _ _ hself).2⟩
  | switchStore prev next prio =>
      rw [hq] at hfits
      obtain ⟨rfl, rfl⟩ : prev = m.self ∧ prio = defaultPrio := hfits
      simp only [Machine.step, hq, Option.some.injEq] at hstep
      subst hstep
      exact h.setOwn hq rfl rfl (by simp [Point.role]) rfl ⟨rfl, rfl⟩
  | switchLock prev next prio =>
      simp only [Machine.step, hq] at hstep
      rw [hq] at hfits
      exact h.rqLock hq hstep rfl hfits
  | switchPush prev next prio =>
      rw [hq] at hfits
      obtain ⟨rfl, rfl⟩ : prev = m.self ∧ prio = defaultPrio := hfits
      simp only [Machine.step, hq, Option.some.injEq] at hstep
      subst hstep
      exact h.switchPush hq
  | switchUnlock prev next =>
      simp only [Machine.step, hq, Option.some.injEq] at hstep
      subst hstep
      rw [hq] at hfits
      exact h.rqUnlock hq rfl hfits
  | switchPromote prev next =>
      obtain ⟨-, t, ht, -⟩ := hrun.incoming next .runnable (by rw [hq]; rfl)
      simp only [Machine.step, hq, ht, Option.some.injEq] at hstep
      subst hstep
      rw [hq] at hfits
      exact h.promote hq rfl rfl rfl rfl ⟨hfits, fun hnone => by cases hnone⟩
  | switchDrop prev next cr3 =>
      rw [hq] at hfits
      obtain ⟨hprev, hcr3⟩ : prev = m.self ∧ cr3 ≠ none := hfits
      cases cr3 with
      | none => exact absurd rfl hcr3
      | some cr3 =>
          simp only [Machine.step, hq, Option.some.injEq] at hstep
          subst hstep
          exact h.readUnlock hq rfl hprev
  | switchCr3 prev next cr3 =>
      simp only [Machine.step, hq, Option.some.injEq] at hstep
      subst hstep
      rw [hq] at hrun hfits
      exact h.move rfl rfl rfl (by rw [hq]; rfl) hrun.writer hrun.rqOwner hfits
        (.same rfl rfl (by rw [hq]; rfl))
  | switchSave prev next =>
      rw [hq] at hfits
      obtain rfl : prev = m.self := hfits
      simp only [Machine.step, hq, if_neg h.self_ne_zero, Option.some.injEq] at hstep
      subst hstep
      exact h.save hq
  | switchRestore next =>
      simp only [Machine.step, hq] at hstep
      obtain ⟨t, ht, rfl⟩ := Option.map_eq_some_iff.mp hstep
      exact h.restore hq rfl rfl rfl rfl rfl rfl (Or.inr (hrun.saved (by rw [hq]; rfl))) ht
  | exitLoad =>
      have hcur := hcur (by rw [hq]; rfl)
      have hne : m.sched.current ≠ 0 := hcur ▸ h.self_ne_zero
      simp only [Machine.step, hq, if_pos hne, Option.some.injEq] at hstep
      subst hstep
      exact h.goto hq rfl hcur
  | exitRead pid =>
      simp only [Machine.step, hq] at hstep
      rw [hq] at hfits
      exact h.readLock hq hstep rfl rfl hfits
  | exitZombie pid =>
      rw [hq] at hfits
      obtain rfl : pid = m.self := hfits
      simp only [Machine.step, hq, Option.some.injEq] at hstep
      subst hstep
      exact h.setOwn hq rfl rfl (by simp [Point.role]) rfl trivial
  | exitDrop =>
      simp only [Machine.step, hq, Option.some.injEq] at hstep
      subst hstep
      exact h.readUnlock hq rfl trivial
  | exitLock =>
      simp only [Machine.step, hq] at hstep
      exact h.rqLock hq hstep rfl trivial
  | exitPop =>
      simp only [Machine.step, hq] at hstep
      split at hstep
      next next rq hpop =>
        obtain rfl := Option.some.inj hstep
        exact h.pop hq hpop rfl rfl rfl rfl trivial
      next =>
        obtain rfl := Option.some.inj hstep
        exact h.goto hq rfl trivial
  | exitUnlock next =>
      cases next with
      | none => simp [Machine.step, hq] at hstep
      | some next =>
          simp only [Machine.step, hq, Option.some.injEq] at hstep
          subst hstep
          exact h.rqUnlock hq rfl trivial
  | exitStore next =>
      simp only [Machine.step, hq, Option.some.injEq] at hstep
      subst hstep
      exact h.exitStore hq
  | exitReadNext next =>
      simp only [Machine.step, hq] at hstep
      exact h.readLock hq hstep rfl rfl trivial
  | exitPromote next =>
      simp only [Machine.step, hq] at hstep
      obtain ⟨t, -, rfl⟩ := Option.map_eq_some_iff.mp hstep
      exact h.promote hq rfl rfl rfl rfl trivial
  | exitDropNext next cr3 =>
      simp only [Machine.step, hq, Option.some.injEq] at hstep
      subst hstep
      exact h.readUnlock hq rfl trivial
  | exitCr3 next cr3 =>
      simp only [Machine.step, hq, Option.some.injEq] at hstep
      subst hstep
      rw [hq] at hrun
      exact h.move rfl rfl rfl (by rw [hq]; rfl) hrun.writer hrun.rqOwner trivial
        (.same rfl rfl (by rw [hq]; rfl))
  | exitRestore next =>
      simp only [Machine.step, hq] at hstep
      obtain ⟨t, ht, rfl⟩ := Option.map_eq_some_iff.mp hstep
      exact h.restore hq rfl rfl rfl rfl rfl rfl (Or.inl rfl) ht
  | spawnPid entry =>
      simp only [Machine.step, hq, h.takePid_eq, Option.some.injEq] at hstep
      subst hstep
      exact h.spawnPid hq
  | spawnWrite b =>
      simp only [Machine.step, hq] at hstep
      exact h.writeLock hq hstep rfl trivial
  | spawnStore b => exact h.spawnStore hq hstep
  | spawnDrop b =>
      simp only [Machine.step, hq, Option.some.injEq] at hstep
      subst hstep
      exact h.writeUnlock hq rfl trivial
  | spawnLock b =>
      simp only [Machine.step, hq] at hstep
      exact h.rqLock hq hstep rfl trivial
  | spawnPush b =>
      simp only [Machine.step, hq, Option.some.injEq] at hstep
      subst hstep
      exact h.spawnPush hq
  | spawnUnlock b =>
      simp only [Machine.step, hq] at hstep
      split at hstep
      · obtain rfl := Option.some.inj hstep
        exact h.rqUnlock hq rfl trivial
      · obtain rfl := Option.some.inj hstep
        exact h.rqUnlock hq rfl trivial
  | isolateWrite pid i =>
      simp only [Machine.step, hq] at hstep
      exact h.writeLock hq hstep rfl trivial
  | isolatePatch pid i =>
      simp only [Machine.step, hq, Option.some.injEq] at hstep
      subst hstep
      exact h.adjust (f := i.patch) hq (fun _ => ⟨rfl, rfl, rfl⟩) rfl rfl trivial
  | isolateDrop =>
      simp only [Machine.step, hq, Option.some.injEq] at hstep
      subst hstep
      exact h.writeUnlock hq rfl trivial
  | reapWrite pid =>
      simp only [Machine.step, hq] at hstep
      exact h.writeLock hq hstep rfl trivial
  | reapTake pid =>
      simp only [Machine.step, hq] at hstep
      obtain ⟨t, ht, rfl⟩ := Option.map_eq_some_iff.mp hstep
      simp only [Machine.reapsZombie, hq, ht, Option.map_some, decide_eq_true_eq] at hreap
      exact h.reapTake hq ht (Option.some.inj hreap)
  | reapDrop st =>
      simp only [Machine.step, hq, Option.some.injEq] at hstep
      subst hstep
      exact h.writeUnlock hq rfl trivial
  | reapCheck st =>
      simp only [Machine.step, hq] at hstep
      split at hstep
      · obtain rfl := Option.some.inj hstep
        exact h.goto hq rfl trivial
      · cases hstep
  | getRead =>
      simp only [Machine.step, hq] at hstep
      exact h.readLock hq hstep rfl rfl trivial
  | getDrop =>
      simp only [Machine.step, hq, Option.some.injEq] at hstep
      subst hstep
      exact h.readUnlock hq rfl trivial
  | setLoad f =>
      simp only [Machine.step, hq, Option.some.injEq] at hstep
      subst hstep
      exact h.goto hq rfl (hcur (by rw [hq]; rfl))
  | setWrite pid f =>
      simp only [Machine.step, hq] at hstep
      rw [hq] at hfits
      exact h.writeLock hq hstep rfl hfits
  | setApply pid f =>
      simp only [Machine.step, hq, Option.some.injEq] at hstep
      subst hstep
      exact h.adjust hq (fun t => setter_keeps t f) rfl rfl trivial
  | setDrop =>
      simp only [Machine.step, hq, Option.some.injEq] at hstep
      subst hstep
      exact h.writeUnlock hq rfl trivial

/-- The scheduler when the first task runs. -/
theorem bootSched_spec (cr3 : Nat) :
    Consistent (bootSched cr3) ∧ (bootSched cr3).current = 1 ∧ (bootSched cr3).nextPid = 2 ∧
      ∀ x, lookup (bootSched cr3).tasks x =
        if x = 1 then some { newTcb 1 0 cr3 ⟨1, .work⟩ with state := .running } else none := by
  have hadd : add (initial (κ := Regs)).nextPid 1 = 2 := by decide +kernel
  have hspawned := @Consistent.spawn _ _ 1 (newTcb 1 0 cr3 ⟨1, .work⟩)
    (initial_consistent (κ := Regs)) (by decide) (fun _ => by decide) rfl rfl
  rw [hadd] at hspawned
  have hcons := (hspawned.reschedule ⟨⟨0, .work⟩, cr3⟩).1
  have hempty : (initial (κ := Regs)).rq.pids = [] := by
    simp [initial, RunQueue.new, RunQueue.pids]
  have hpids := push_pids (initial (κ := Regs)).rq 1 defaultPrio
  rw [hempty] at hpids
  rcases hspawned.placed.reschedule ⟨⟨0, .work⟩, cr3⟩ hspawned.zero hspawned.canLeave with
    ⟨-, hnone⟩ | ⟨next, s', t, heq, hmem, ht, -, hcur, hnext, -, hlook⟩
  · have hmem : 1 ∈ ((initial (κ := Regs)).rq.push 1 defaultPrio).pids :=
      hpids.mem_iff.mpr List.mem_cons_self
    change ((initial (κ := Regs)).rq.push 1 defaultPrio).pids = [] at hnone
    rw [hnone] at hmem
    cases hmem
  · obtain rfl : next = 1 := List.mem_singleton.mp (hpids.mem_iff.mp hmem)
    change lookup (Scheduler.insert [] 1 (newTcb 1 0 cr3 ⟨1, .work⟩)) 1 = some t at ht
    rw [lookup_insert, if_pos rfl] at ht
    have hs' : bootSched cr3 = s' := congrArg (fun out => out.2.1) heq
    refine ⟨hcons, ?_, ?_, fun x => ?_⟩
    · rw [hs', hcur]
    · rw [hs', hnext]
      rfl
    · rw [hs', hlook]
      obtain rfl := Option.some.inj ht
      by_cases hx : x = 1
      · rw [if_pos hx, if_pos hx]
      · rw [if_neg hx, if_neg hx, if_neg (fun hand => hand.2 hand.1)]
        change lookup (Scheduler.insert [] 1 (newTcb 1 0 cr3 (⟨1, .work⟩ : Regs))) x = none
        rw [lookup_insert, if_neg hx, lookup_nil]

/-- The first task runs alone. -/
theorem boot_invariant (cr3 : Nat) : Invariant strict (bootMachine cr3) [] [] := by
  obtain ⟨hcons, hcur, hnext, hlook⟩ := bootSched_spec cr3
  have hnone : ∀ (f : Duty → Option Nat), f ({} : Role).toDuty = none →
      ∀ x y, ¬(bootMachine cr3).Has f x y := by
    rintro f hf x y ⟨-, hy⟩
    have hat : (bootMachine cr3).at x = .work := by
      unfold Machine.at
      split <;> rfl
    rw [hat] at hy
    cases hf.symm.trans hy
  have hblock : ∀ x t, lookup (bootMachine cr3).sched.tasks x = some t →
      x = 1 ∧ t = { newTcb 1 0 cr3 ⟨1, .work⟩ with state := .running } := by
    intro x t ht
    have hx : (if x = 1 then some _ else none) = some t := (hlook x).symm.trans ht
    split at hx
    next heq => exact ⟨heq, (Option.some.inj hx).symm⟩
    next => cases hx
  have hself : lookup (bootMachine cr3).sched.tasks (bootMachine cr3).self =
      some { newTcb 1 0 cr3 ⟨1, .work⟩ with state := .running } := (hlook 1).trans (if_pos rfl)
  refine ⟨⟨?_, ?_, fun _ => rfl⟩, ⟨?_, ?_⟩, ?_, ?_⟩
  · have hplaced := hcons.placed
    rw [hcur] at hplaced
    exact hplaced
  · intro x y
    exact iff_of_false (by simp) (hnone _ rfl x y)
  · intro x t ht
    obtain ⟨rfl, rfl⟩ := hblock x t ht
    exact ⟨rfl, rfl⟩
  · rintro x (rfl | ⟨t, ht, -⟩) hne
    · exact absurd rfl hne
    · exact absurd (hblock x t ht).1 hne
  · exact ⟨hcur, ⟨_, hself, rfl⟩, nofun, rfl, rfl, trivial, Bool.false_ne_true.elim⟩
  · refine ⟨hcons.zero, hcons.positive, hcons.fresh, hcons.length_le, ?_, ?_, ?_⟩
    · exact fun x y hy => absurd hy (hnone _ rfl x y)
    · exact fun x x' y hy => absurd hy (hnone _ rfl x y)
    · intro y hle hlt
      have hmax : maxTasks = 131072 := by decide
      have hnext' : (bootMachine cr3).sched.nextPid = 2 := hnext
      omega

/-- A call starts with nothing in its hands. -/
theorem Invariant.call (h : Invariant strict m locals lost) (hwork : m.point = .work)
    (op : Preemption.Op) : Stepped strict m (m.goto op.point) := by
  have hrole : op.point.role = Point.work.role := by cases op <;> rfl
  have hfits : op.point.Fits m.self := by cases op <;> trivial
  exact h.goto hwork hrole hfits

/-- **One event of a calm run** keeps the invariant. -/
theorem next_kept {bad : Point → Bool} (hbad : strict → ∀ n, bad (.exitStore n) = true)
    {e : Event} (h : Invariant strict m locals lost) (hcalm : Calm bad m e)
    (hnext : m.next e = some m') : Kept strict m m' := by
  cases e with
  | call op =>
      simp only [Machine.next] at hnext
      split at hnext
      next hwork =>
        obtain rfl := Option.some.inj hnext
        exact (h.call hwork op).toKept
      next => cases hnext
  | step => exact (h.step hcalm hnext).toKept
  | tick =>
      obtain rfl := Option.some.inj hnext
      refine h.tick (fun hpre => incoming_eq_none.mpr (hcalm hpre).1) (fun hs hpre n hn => ?_)
      have hgood := (hcalm hpre).2
      rw [hn, hbad hs n] at hgood
      cases hgood

/-- **The invariant holds in every calm run.** -/
theorem calm_inv {bad : Point → Bool} (hbad : strict → ∀ n, bad (.exitStore n) = true)
    (h : preemption.Run (Calm bad) m) : Inv strict m := by
  refine TransitionSystem.Run.invariant (I := Inv strict) ?_ ?_ h
  · rintro _ ⟨cr3, rfl⟩
    exact (boot_invariant cr3).inv
  · rintro m e m' ⟨locals, lost, hm⟩ hcalm hnext
    exact (next_kept hbad hm hcalm hnext).inv

end

/-- **Every saved context is its task's own**: it is in the block of the task
whose code lost the CPU, at the point where it lost it. -/
structure OwnRegisters (m : Machine) : Prop where
  own : ∀ p t, lookup m.sched.tasks p = some t → t.ctx = ⟨p, m.left p⟩
  saves : ∀ prev next, m.point = .switchSave prev next → prev = m.self
  current : m.point.handsOver = false → m.sched.current = m.self

/-- **Registers in calm runs.**  If no interrupt switches tasks during a
handover, `context_switch` saves the registers of the running task into its own
block, and every task goes on where it was switched out. -/
theorem calm_registers {m : Machine} (h : preemption.Run (Calm (fun _ => false)) m) :
    OwnRegisters m := by
  obtain ⟨locals, lost, hI⟩ := @calm_inv False _ _ (fun hs => hs.elim) h
  refine ⟨fun p t ht => (hI.regs.owned p t ht).1, fun prev next hp => ?_, fun hp => ?_⟩
  · have hfits := hI.running.fits
    rw [hp] at hfits
    exact hfits
  · exact hI.current_eq (incoming_eq_none.mpr hp)

/-- A call and the steps it takes. -/
def calling (op : Op) (steps : Nat) : List Event := .call op :: List.replicate steps .step

/-- Where a task that has not exited can be: it runs, or `current` names it, or
it is queued, or it is in a local variable of a task that is going to run. -/
def Machine.Located (m : Machine) (p : Nat) : Prop :=
  p = m.self ∨ p = m.sched.current ∨ p ∈ m.sched.rq.pids ∨ ∃ h, m.Has Duty.holds h p

/-- No runnable task is lost. -/
def NoneLost (m : Machine) : Prop :=
  ∀ p t, lookup m.sched.tasks p = some t → t.state ≠ .zombie → m.Located p

/-- `exit_current` has popped a pid and let go of the run queue. -/
def Point.storesCurrent : Point → Bool
  | .exitStore _ => true
  | _ => false

/-- **No task is lost in calm runs.**  If no interrupt switches tasks during a
handover, or between the pop of `exit_current` and its store to `current`, every
task that has not exited has its place. -/
theorem calm_located {m : Machine} (h : preemption.Run (Calm Point.storesCurrent) m) :
    NoneLost m := by
  obtain ⟨locals, lost, hI⟩ := @calm_inv True _ _ (fun _ _ => rfl) h
  obtain rfl := hI.places.lost_nil trivial
  intro p t ht hst
  by_cases hex : p = m.point.role.exempt m.self
  · -- the exempt task runs, or it is the one that `current` names
    cases hholds : m.point.role.holds with
    | some n => exact Or.inl (hex.trans (role_exempt_holds hholds m.self))
    | none =>
        cases hinc : m.point.role.incoming with
        | none => exact Or.inl (hex.trans (role_exempt_self hinc m.self))
        | some out =>
            obtain ⟨n, st⟩ := out
            have hcur := hI.running.current
            rw [hinc] at hcur
            have hpid := hex.trans (role_exempt_incoming hinc hholds m.self)
            exact Or.inr (Or.inl (hpid.trans hcur.symm))
  · rcases hI.places.placed.placed p t ht hex with hzombie | hmem
    · exact absurd hzombie hst
    · rw [List.append_nil] at hmem
      rcases List.mem_append.mp hmem with hheld | hqueued
      · obtain ⟨⟨x, q⟩, hx, rfl⟩ := List.mem_map.mp hheld
        exact Or.inr (Or.inr (Or.inr ⟨x, (hI.places.locals_iff x q).mp hx⟩))
      · exact Or.inr (Or.inr (Or.inl hqueued))

/-- Two tasks are spawned, the first one yields and the second one exits. -/
theorem sample_calm_located : ∃ m,
    preemption.execIf (Calm Point.storesCurrent) (bootMachine 0x1000)
      (calling .spawn 7 ++ calling .spawn 7 ++ calling .yieldNow 15 ++ calling .exitCurrent 7) =
        some m ∧ NoneLost m := by
  have hrun : (preemption.execIf (Calm Point.storesCurrent) (bootMachine 0x1000)
      (calling .spawn 7 ++ calling .spawn 7 ++ calling .yieldNow 15 ++
        calling .exitCurrent 7)).isSome := by
    decide +kernel
  obtain ⟨m, hm⟩ := Option.isSome_iff_exists.mp hrun
  exact ⟨m, hm, calm_located (TransitionSystem.Run.execIf (TransitionSystem.Run.boot ⟨_, rfl⟩) hm)⟩

/-- **An interrupt in `exit_current`** loses task 3: the exited task 2 has
popped it and does not run again. -/
theorem task_lost : ∃ m, preemption.Reach m ∧ ¬NoneLost m := by
  have hboot : preemption.Reach (bootMachine 0x1000) := TransitionSystem.Run.boot ⟨_, rfl⟩
  have hpoints : (preemption.exec (bootMachine 0x1000) (calling .spawn 7 ++ calling .spawn 7 ++
      calling .yieldNow 15 ++ calling .exitCurrent 7 ++ [.tick])).map (fun m =>
        (m.point, m.left 3)) = some (.work, .work) := by
    decide +kernel
  have hsched : (preemption.exec (bootMachine 0x1000) (calling .spawn 7 ++ calling .spawn 7 ++
      calling .yieldNow 15 ++ calling .exitCurrent 7 ++ [.tick])).map (fun m =>
        (m.self, m.sched.current, m.sched.rq.pids, m.sched.tasks.map (Option.map Tcb.state))) =
      some (1, 1, [], [none, some .running, some .zombie, some .runnable]) := by
    decide +kernel
  obtain ⟨m, hm, hfacts⟩ := Option.map_eq_some_iff.mp hsched
  simp only [Prod.mk.injEq] at hfacts
  obtain ⟨hself, hcur, hrq, htasks⟩ := hfacts
  rw [hm] at hpoints
  obtain ⟨hpoint, hleft⟩ := Prod.mk.inj (Option.some.inj hpoints)
  have hstate : ∀ x, (lookup m.sched.tasks x).map Tcb.state =
      (([none, some .running, some .zombie, some .runnable] : List (Option State))[x]?).join := by
    intro x
    rw [← htasks, List.getElem?_map, lookup]
    cases m.sched.tasks[x]? with
    | none => rfl
    | some o => rfl
  refine ⟨m, hboot.exec hm, fun h => ?_⟩
  obtain ⟨t, ht, hst⟩ := Option.map_eq_some_iff.mp (hstate 3)
  rcases h 3 t ht (by rw [hst]; decide) with hrun | hrun | hrun | ⟨x, halive, hholds⟩
  · rw [hself] at hrun
    cases hrun
  · rw [hcur] at hrun
    cases hrun
  · rw [hrq] at hrun
    cases hrun
  · -- tasks 1 and 3 are in their own code, and task 2 is dead
    have hat : m.at x = .work := by
      by_cases hx : x = m.self
      · rw [hx, Machine.at_self, hpoint]
      · obtain ⟨u, hu, hstu⟩ := halive.resolve_left hx
        have hux := hstate x
        rw [hu] at hux
        rw [hself] at hx
        rcases x with _ | _ | _ | _ | x
        · cases hux
        · exact absurd rfl hx
        · exact absurd (Option.some.inj hux) hstu
        · rw [Machine.at_other (by rw [hself]; decide), hleft]
        · cases hux
    rw [hat] at hholds
    cases hholds

end Preemption
