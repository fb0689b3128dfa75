import Noxisa.PreemptionRuns

/-!
# What an event leaves alone

A step either restores the registers of another task (`Restored`), or the same
task runs on (`StepsOn`).  A zombie stays one until it is reaped, and an
interrupt moves nobody along.
-/

namespace Preemption

open Scheduler

/-- The step restores the registers of another task. -/
def Point.restores : Point → Bool
  | .switchRestore _ | .exitRestore _ => true
  | _ => false

/-- `is_zombie` -/
def Machine.isZombie (m : Machine) (pid : Nat) : Bool :=
  ((lookup m.sched.tasks pid).map (fun t => decide (t.state = .zombie))).getD false

/-- A zombie is a stored task in that state. -/
theorem Machine.isZombie_iff {m : Machine} {pid : Nat} :
    m.isZombie pid = true ↔ ∃ t, lookup m.sched.tasks pid = some t ∧ t.state = .zombie := by
  unfold Machine.isZombie
  cases lookup m.sched.tasks pid with
  | none => simp
  | some t => simp

section

variable {strict : Prop} {m m' : Machine} {locals : List (Nat × Nat)} {lost : List Nat}

/-- What a step does to the points where the tasks have lost the CPU: the running
one saves its registers on its way out, and a new one starts at its entry point. -/
inductive LeftStep (m m' : Machine) : Prop
  | same (hleft : m'.left = m.left)
  | save (prev next : Nat) (hpoint : m.point = .switchSave prev next)
      (hleft : m'.left = Function.update m.left m.self .work)
  | born (b : Birth) (hpoint : m.point = .spawnStore b)
      (hleft : m'.left = Function.update m.left b.pid b.entry.point)

/-- **A step that restores nothing**: the same task runs on, and the only new block
is that of a new task. -/
structure StepsOn (m m' : Machine) : Prop where
  self_eq : m'.self = m.self
  left : LeftStep m m'
  none : ∀ x, lookup m.sched.tasks x = none → lookup m'.sched.tasks x = none ∨
    ∃ b, m.point = .spawnStore b ∧ x = b.pid

/-- Adjusting a block stores no task. -/
theorem lookup_adjust_none {ts : Tasks Regs} {x : Nat} (h : lookup ts x = none) (p : Nat)
    (f : Tcb Regs → Tcb Regs) : lookup (adjust ts p f) x = none := by
  rw [lookup_adjust, h]
  split <;> rfl

/-- A step at a point that restores nothing leaves the task running. -/
theorem step_on (hstep : m.step = some m') (hrestore : m.point.restores = false) :
    StepsOn m m' := by
  have hsame : m'.self = m.self → m'.left = m.left → m'.sched.tasks = m.sched.tasks →
      StepsOn m m' := fun hself hleft htasks =>
    ⟨hself, .same hleft, fun x hx => Or.inl (by rw [htasks, hx])⟩
  have hadjust : ∀ p f, m'.self = m.self → m'.left = m.left →
      m'.sched.tasks = adjust m.sched.tasks p f → StepsOn m m' := fun p f hself hleft htasks =>
    ⟨hself, .same hleft, fun x hx => Or.inl (by rw [htasks, lookup_adjust_none hx])⟩
  cases hq : m.point
  case switchStore prev next prio =>
    simp only [Machine.step, hq] at hstep
    obtain rfl := Option.some.inj hstep
    exact hadjust prev _ rfl rfl rfl
  case switchPromote prev next =>
    simp only [Machine.step, hq] at hstep
    split at hstep
    · obtain rfl := Option.some.inj hstep
      exact hadjust next _ rfl rfl rfl
    · obtain rfl := Option.some.inj hstep
      exact hsame rfl rfl rfl
  case switchSave prev next =>
    simp only [Machine.step, hq] at hstep
    split at hstep
    · obtain rfl := Option.some.inj hstep
      exact hsame rfl rfl rfl
    · obtain rfl := Option.some.inj hstep
      exact ⟨rfl, .save prev next hq rfl, fun x hx => Or.inl (lookup_adjust_none hx prev _)⟩
  case exitZombie pid =>
    simp only [Machine.step, hq] at hstep
    obtain rfl := Option.some.inj hstep
    exact hadjust pid _ rfl rfl rfl
  case exitPromote next =>
    simp only [Machine.step, hq] at hstep
    obtain ⟨t, -, rfl⟩ := Option.map_eq_some_iff.mp hstep
    exact hadjust next _ rfl rfl rfl
  case spawnStore b =>
    simp only [Machine.step, hq] at hstep
    split at hstep
    · cases hstep
    · obtain rfl := Option.some.inj hstep
      refine ⟨rfl, .born b hq rfl, fun x hx => ?_⟩
      change lookup (Scheduler.insert m.sched.tasks b.pid _) x = none ∨ _
      by_cases hxb : x = b.pid
      · exact Or.inr ⟨b, hq, hxb⟩
      · rw [lookup_insert, if_neg hxb]
        exact Or.inl hx
  case isolatePatch pid i =>
    simp only [Machine.step, hq] at hstep
    obtain rfl := Option.some.inj hstep
    exact hadjust pid _ rfl rfl rfl
  case setApply pid f =>
    simp only [Machine.step, hq] at hstep
    obtain rfl := Option.some.inj hstep
    exact hadjust pid _ rfl rfl rfl
  case reapTake pid =>
    simp only [Machine.step, hq] at hstep
    obtain ⟨t, -, rfl⟩ := Option.map_eq_some_iff.mp hstep
    refine ⟨rfl, .same rfl, fun x hx => Or.inl ?_⟩
    change lookup (remove m.sched.tasks pid) x = none
    rw [lookup_remove, hx]
    split <;> rfl
  case yieldUnlock next =>
    cases next <;>
    · simp only [Machine.step, hq] at hstep
      obtain rfl := Option.some.inj hstep
      exact hsame rfl rfl rfl
  case switchDrop prev next cr3 =>
    cases cr3 <;>
    · simp only [Machine.step, hq] at hstep
      obtain rfl := Option.some.inj hstep
      exact hsame rfl rfl rfl
  case exitUnlock next =>
    cases next with
    | none => simp [Machine.step, hq] at hstep
    | some next =>
        simp only [Machine.step, hq] at hstep
        obtain rfl := Option.some.inj hstep
        exact hsame rfl rfl rfl
  case switchRestore => simp [hq, Point.restores] at hrestore
  case exitRestore => simp [hq, Point.restores] at hrestore
  all_goals
    simp only [Machine.step, hq, Machine.readLock, Machine.writeLock, Machine.rqLock] at hstep
  all_goals (repeat' split at hstep)
  all_goals cases hstep
  all_goals exact hsame rfl rfl rfl

/-- A restore of the registers of `next`. -/
structure Restored (m m' : Machine) (next : Nat) : Prop where
  next_ne : next ≠ m.self
  incoming : m.point.role.incoming = some (next, .running)
  holds : m.point.role.holds = none
  self_eq : m'.self = next
  point_eq : m'.point = m.left next
  left_eq : m'.left = m.left
  sched_eq : m'.sched = m.sched
  back : m.left m.self = .work ∨ m.point.role.state = .zombie

/-- Every task is where it lost the CPU last. -/
theorem Restored.at_eq {next : Nat} (hr : Restored m m' next) (x : Nat) : m'.at x = m.left x := by
  by_cases hx : x = m'.self
  · rw [hx, Machine.at_self, hr.point_eq, hr.self_eq]
  · rw [Machine.at_other hx, hr.left_eq]

/-- **A step that restores** gives the CPU to the task that `current` names. -/
theorem Invariant.restored (h : Invariant strict m locals lost)
    (hrestore : m.point.restores = true) (hstep : m.step = some m') :
    ∃ next, Restored m m' next := by
  have hback : ∀ next, m.point.role.incoming = some (next, .running) →
      m.point.role.holds = none → (m.left m.self = .work ∨ m.point.role.state = .zombie) →
      (lookup m.sched.tasks next).map (fun t => m.restore t.ctx) = some m' →
      Restored m m' next := by
    intro next hinc hholds hback hrun
    obtain ⟨t, ht, rfl⟩ := Option.map_eq_some_iff.mp hrun
    obtain ⟨hctx, -⟩ := h.regs.owned next t ht
    have hne := (h.running.incoming next .running hinc).1
    exact ⟨hne, hinc, hholds, by rw [hctx]; rfl, by rw [hctx]; rfl, rfl, rfl, hback⟩
  cases hq : m.point
  case switchRestore next =>
    simp only [Machine.step, hq] at hstep
    have hwork := h.running.saved (by rw [hq]; rfl)
    exact ⟨next, hback next (by rw [hq]; rfl) (by rw [hq]; rfl) (Or.inl hwork) hstep⟩
  case exitRestore next =>
    simp only [Machine.step, hq] at hstep
    exact ⟨next, hback next (by rw [hq]; rfl) (by rw [hq]; rfl) (Or.inr (by rw [hq]; rfl)) hstep⟩
  all_goals
    rw [hq] at hrestore
    cases hrestore

/-- A change that keeps the states keeps the zombies. -/
theorem isZombie_adjust (p : Point) (pid x : Nat) {f : Tcb Regs → Tcb Regs}
    (hf : ∀ t, (f t).state = t.state) :
    (m.withSched { m.sched with tasks := adjust m.sched.tasks pid f } p).isZombie x =
      m.isZombie x := by
  unfold Machine.isZombie Machine.withSched
  dsimp only
  rw [lookup_adjust]
  by_cases hx : x = pid
  · subst hx
    rw [if_pos rfl]
    cases lookup m.sched.tasks x with
    | none => rfl
    | some t => simp [hf t]
  · rw [if_neg hx]

/-- A step that does not write to a zombie leaves it one. -/
theorem Blocks.isZombie (h : Blocks m m') {x : Nat} (hx : m.point.writesTo ≠ some x)
    (hz : m.isZombie x = true) : m'.isZombie x = true := by
  obtain ⟨t, ht, hst⟩ := Machine.isZombie_iff.mp hz
  obtain ⟨t', ht', -, hstay⟩ := h x t hx ht
  exact Machine.isZombie_iff.mpr ⟨t', ht', hstay hst⟩

/-- **A zombie stays one** until it is reaped. -/
theorem Invariant.isZombie_step (h : Invariant strict m locals lost)
    (hreap : m.reapsZombie = true) (hstep : m.step = some m') {x : Nat}
    (hx : m.point ≠ .reapTake x) (hz : m.isZombie x = true) : m'.isZombie x = true := by
  by_cases hwrites : m.point.writesTo = some x
  · cases hq : m.point
    case isolatePatch pid i =>
      simp only [Machine.step, hq, Option.some.injEq] at hstep
      subst hstep
      exact (isZombie_adjust .isolateDrop pid x (f := i.patch) (fun _ => rfl)).trans hz
    case setApply pid f =>
      simp only [Machine.step, hq, Option.some.injEq] at hstep
      subst hstep
      exact (isZombie_adjust .setDrop pid x (fun t => (setter_keeps t f).1)).trans hz
    case reapTake pid =>
      rw [hq] at hwrites
      obtain rfl := Option.some.inj hwrites
      exact absurd hq hx
    all_goals
      rw [hq] at hwrites
      cases hwrites
  · exact (h.step hreap hstep).blocks.isZombie hwrites hz

/-- An interrupt moves nobody along. -/
theorem Invariant.tick_at (h : Invariant strict m locals lost)
    (hcalm : m.Preempts → m.point.handsOver = false) (x : Nat) : m.tick.at x = m.at x := by
  by_cases hpre : m.Preempts
  · obtain ⟨next, hp, -⟩ := h.preempted hpre (incoming_eq_none.mpr (hcalm hpre))
    exact hp.at_eq x
  · rw [tick_idle hpre]

/-- A point that writes nothing writes to no task. -/
theorem writesTo_of_writes {p : Point} (h : p.role.writes = false) : p.writesTo = none := by
  cases p <;> first | rfl | cases h

/-- An interrupt leaves a zombie one. -/
theorem Invariant.isZombie_tick (h : Invariant False m locals lost)
    (hcalm : m.Preempts → m.point.handsOver = false) {x : Nat} (hz : m.isZombie x = true) :
    m.tick.isZombie x = true := by
  by_cases hpre : m.Preempts
  · have hwrites : m.point.role.writes = false := by
      have hwriter := h.running.writer
      rw [hpre.1] at hwriter
      cases hrole : m.point.role.writes with
      | false => rfl
      | true =>
          rw [hrole] at hwriter
          cases hwriter
    have hkept := h.tick (fun hpre => incoming_eq_none.mpr (hcalm hpre)) (fun hs => hs.elim)
    refine hkept.blocks.isZombie ?_ hz
    rw [writesTo_of_writes hwrites]
    exact (Option.some_ne_none x).symm
  · rw [tick_idle hpre]
    exact hz

/-- The reaped task is gone. -/
private theorem reapTake_gone {x : Nat} (hx : m.point = .reapTake x) (hstep : m.step = some m') :
    lookup m'.sched.tasks x = none := by
  simp only [Machine.step, hx] at hstep
  obtain ⟨t, -, rfl⟩ := Option.map_eq_some_iff.mp hstep
  change lookup (remove m.sched.tasks x) x = none
  rw [lookup_remove, if_pos rfl]

/-- Nobody comes back to life, and nobody is born but in `spawn`. -/
theorem Invariant.alive_back (h : Invariant strict m locals lost) (hreap : m.reapsZombie = true)
    (hstep : m.step = some m') (hon : StepsOn m m') {x : Nat} (hself : x ≠ m.self)
    (halive : m'.Alive x) : m.Alive x ∨ ∃ b, m.point = .spawnStore b ∧ x = b.pid := by
  obtain ⟨t', ht', hst'⟩ := halive.resolve_left (hon.self_eq ▸ hself)
  cases ht : lookup m.sched.tasks x with
  | none =>
      rcases hon.none x ht with hnone | hborn
      · rw [hnone] at ht'
        cases ht'
      · exact Or.inr hborn
  | some t =>
      refine Or.inl (Or.inr ⟨t, ht, fun hst => hst' ?_⟩)
      have hx : m.point ≠ .reapTake x := by
        intro hx
        rw [reapTake_gone hx hstep] at ht'
        cases ht'
      have hz := h.isZombie_step hreap hstep hx (Machine.isZombie_iff.mpr ⟨t, ht, hst⟩)
      obtain ⟨t'', ht'', hst''⟩ := Machine.isZombie_iff.mp hz
      obtain rfl := Option.some.inj (ht'.symm.trans ht'')
      exact hst''

/-- A pid in a local variable is that of a Runnable task, which is not queued. -/
theorem Invariant.held (h : Invariant strict m locals lost) {x y : Nat}
    (hx : m.Has Duty.holds y x) : x ≠ m.point.role.exempt m.self ∧ x ∉ m.sched.rq.pids ∧
      ∃ t, lookup m.sched.tasks x = some t ∧ t.state = .runnable := by
  have hmem : x ∈ locals.map Prod.snd ++ lost :=
    List.mem_append_left _ (List.mem_map.mpr ⟨(y, x), (h.places.locals_iff y x).mpr hx, rfl⟩)
  obtain ⟨hne, hblock⟩ := h.places.placed.waiting x (List.mem_append_left _ hmem)
  exact ⟨hne, List.disjoint_of_nodup_append h.places.placed.nodup hmem, hblock⟩

end

end Preemption
