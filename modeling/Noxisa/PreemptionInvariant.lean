import Noxisa.Placement
import Noxisa.Preemption
import Noxisa.SchedulerRuns

/-!
# What interrupted tasks keep true

`Point.role` is a table: what the code at a point owes to the other tasks, and
which guards it has.  The invariant is read off that table, for the running
task at the point it is at and for every other task at the point where it lost
the CPU.

The invariant holds as long as no interrupt switches tasks while `current`
names a task other than the running one (`Inside`), and no live task is
reaped.  If in addition no interrupt comes between the pop of `exit_current`
and its store to `current`, no pid is ever lost: `lost` lists those that were.
-/

namespace Preemption

open Scheduler

/-- What the code at a point owes to other tasks. -/
structure Duty where
  /-- a pid in a local variable that is neither queued nor current -/
  holds : Option Nat := none
  /-- a pid taken for a task that is not stored yet -/
  child : Option Nat := none
  /-- the task that `current` names instead of this one, and its state -/
  incoming : Option (Nat × State) := none
  /-- the state of the task itself -/
  state : State := .running
  /-- the registers are in the block already -/
  saved : Bool := false

/-- The duty at a point, and the guards. -/
structure Role extends Duty where
  reads : Bool := false
  writes : Bool := false
  locks : Bool := false

/-- What holds of a task at each point; the points not listed are like `work`. -/
def Point.role : Point → Role
  | .trampolineUse _ _ | .trampolineDrop _ | .getDrop => { reads := true }
  | .yieldPop => { locks := true }
  | .yieldUnlock next => { locks := true, holds := next }
  | .swap next => { holds := some next }
  | .switchRead _ next => { holds := some next, incoming := some (next, .runnable) }
  | .switchLoad _ next | .switchStore _ next _ =>
      { reads := true, holds := some next, incoming := some (next, .runnable) }
  | .switchLock _ next _ =>
      { reads := true, holds := some next, incoming := some (next, .runnable), state := .runnable }
  | .switchPush _ next _ =>
      { reads := true, locks := true, holds := some next, incoming := some (next, .runnable)
        state := .runnable }
  | .switchUnlock _ next =>
      { reads := true, locks := true, incoming := some (next, .runnable), state := .runnable }
  | .switchPromote _ next =>
      { reads := true, incoming := some (next, .runnable), state := .runnable }
  | .switchDrop _ next _ => { reads := true, incoming := some (next, .running), state := .runnable }
  | .switchCr3 _ next _ | .switchSave _ next =>
      { incoming := some (next, .running), state := .runnable }
  | .switchRestore next =>
      { incoming := some (next, .running), state := .runnable, saved := true }
  | .exitZombie _ => { reads := true }
  | .exitDrop => { reads := true, state := .zombie }
  | .exitLock => { state := .zombie }
  | .exitPop => { locks := true, state := .zombie }
  | .exitUnlock next => { locks := true, holds := next, state := .zombie }
  | .exitStore next => { holds := some next, state := .zombie }
  | .exitReadNext next => { incoming := some (next, .runnable), state := .zombie }
  | .exitPromote next => { reads := true, incoming := some (next, .runnable), state := .zombie }
  | .exitDropNext next _ => { reads := true, incoming := some (next, .running), state := .zombie }
  | .exitCr3 next _ | .exitRestore next => { incoming := some (next, .running), state := .zombie }
  | .spawnWrite b => { child := some b.pid }
  | .spawnStore b => { writes := true, child := some b.pid }
  | .spawnDrop b => { writes := true, holds := some b.pid }
  | .spawnLock b => { holds := some b.pid }
  | .spawnPush b => { locks := true, holds := some b.pid }
  | .spawnUnlock _ => { locks := true }
  | .isolatePatch _ _ | .isolateDrop | .reapTake _ | .reapDrop _ | .setApply _ _ | .setDrop =>
      { writes := true }
  | _ => {}

/-- What the local variables at a point are, for the task `h`. -/
def Point.Fits (h : Nat) : Point → Prop
  | .trampolineRead _ pid | .trampolineUse _ pid | .exitRead pid | .exitZombie pid
  | .setWrite pid _ | .setApply pid _ => pid = h
  | .switchRead prev _ | .switchLoad prev _ | .switchUnlock prev _ | .switchPromote prev _
  | .switchCr3 prev _ _ | .switchSave prev _ => prev = h
  | .switchStore prev _ prio | .switchLock prev _ prio | .switchPush prev _ prio =>
      prev = h ∧ prio = defaultPrio
  | .switchDrop prev _ cr3 => prev = h ∧ cr3 ≠ none
  | _ => True

/-- The task whose whereabouts are open: the running one, or the one it has
handed over to. -/
def Role.exempt (r : Role) (self : Nat) : Nat :=
  match r.incoming, r.holds with
  | some (next, _), none => next
  | _, _ => self

/-- Where a task that has lost the CPU can be. -/
structure Parkable (h : Nat) (p : Point) : Prop where
  incoming : p.role.incoming = none
  state : p.role.state = .running
  writes : p.role.writes = false
  locks : p.role.locks = false
  fits : p.Fits h

/-- Where the code of a task is. -/
def Machine.at (m : Machine) (h : Nat) : Point := if h = m.self then m.point else m.left h

/-- A task that runs or has not exited. -/
def Machine.Alive (m : Machine) (h : Nat) : Prop :=
  h = m.self ∨ ∃ t, lookup m.sched.tasks h = some t ∧ t.state ≠ .zombie

/-- `p` is in a local variable of the task `h`, which is going to run. -/
def Machine.Has (m : Machine) (f : Duty → Option Nat) (h p : Nat) : Prop :=
  m.Alive h ∧ f (m.at h).role.toDuty = some p

/-- Every task is exempt, a zombie, queued, held or lost. -/
structure Whereabouts (strict : Prop) (m : Machine) (locals : List (Nat × Nat))
    (lost : List Nat) : Prop where
  placed : Placed (m.point.role.exempt m.self) (locals.map Prod.snd ++ lost) m.sched
  locals_iff : ∀ h p, (h, p) ∈ locals ↔ m.Has Duty.holds h p
  lost_nil : strict → lost = []

/-- The saved registers of a task are its own. -/
structure Registers (m : Machine) : Prop where
  owned : ∀ p t, lookup m.sched.tasks p = some t →
    t.ctx = ⟨p, m.left p⟩ ∧ t.priority = defaultPrio
  parked : ∀ p, m.Alive p → p ≠ m.self → Parkable p (m.left p)

/-- The running task is where `p` says. -/
structure Running (m : Machine) (p : Point) : Prop where
  current : m.sched.current = (p.role.incoming.map Prod.fst).getD m.self
  state : ∃ t, lookup m.sched.tasks m.self = some t ∧ t.state = p.role.state
  incoming : ∀ n st, p.role.incoming = some (n, st) →
    n ≠ m.self ∧ ∃ t, lookup m.sched.tasks n = some t ∧ t.state = st
  writer : m.writer = if p.role.writes then some m.self else none
  rqOwner : m.rqOwner = if p.role.locks then some m.self else none
  fits : p.Fits m.self
  saved : p.role.saved = true → m.left m.self = .work

/-- No pid is handed out twice. -/
structure Births (m : Machine) : Prop where
  zero : lookup m.sched.tasks 0 = none
  positive : 0 < m.sched.nextPid
  fresh : ∀ p t, lookup m.sched.tasks p = some t → p < m.sched.nextPid
  length_le : m.sched.tasks.length ≤ maxTasks
  child_new : ∀ h p, m.Has Duty.child h p →
    p ≠ 0 ∧ p < m.sched.nextPid ∧ lookup m.sched.tasks p = none
  child_inj : ∀ h h' p, m.Has Duty.child h p → m.Has Duty.child h' p → h = h'
  child_all : ∀ p, maxTasks ≤ p → p < m.sched.nextPid → ∃ h, m.Has Duty.child h p

/-- **The invariant**: where everybody is, what the contexts hold, and what holds of the
running task and of the one being born. -/
structure Invariant (strict : Prop) (m : Machine) (locals : List (Nat × Nat))
    (lost : List Nat) : Prop where
  places : Whereabouts strict m locals lost
  regs : Registers m
  running : Running m m.point
  births : Births m

/-- The invariant, with the ghosts hidden. -/
def Inv (strict : Prop) (m : Machine) : Prop := ∃ locals lost, Invariant strict m locals lost

/-- A task demotes itself only to hand over. -/
theorem role_leaves {p : Point} (h : p.role.incoming = none) :
    p.role.state = .running ∨ p.role.state = .zombie := by
  cases p <;> simp_all [Point.role]

/-- The registers are saved early only to hand over. -/
theorem role_saved {p : Point} (h : p.role.saved = true) : p.role.incoming ≠ none := by
  cases p <;> simp_all [Point.role]

/-- An exiting task has no pid for a new one. -/
theorem role_zombie_child {p : Point} (h : p.role.state = .zombie) : p.role.child = none := by
  cases p <;> simp_all [Point.role]

/-- Where an exiting task can be interrupted before it hands over. -/
theorem role_zombie {p : Point} (h : p.role.state = .zombie) (hi : p.role.incoming = none)
    (hl : p.role.locks = false) : p = .exitDrop ∨ p = .exitLock ∨ ∃ n, p = .exitStore n := by
  cases p <;> simp_all [Point.role]

/-- A point that brings no task in leaves the code to the task that runs it. -/
theorem role_exempt_self {r : Role} (h : r.incoming = none) (self : Nat) : r.exempt self = self := by
  unfold Role.exempt
  rw [h]

/-- So does one that holds a task. -/
theorem role_exempt_holds {r : Role} {p : Nat} (h : r.holds = some p) (self : Nat) :
    r.exempt self = self := by
  unfold Role.exempt
  rw [h]
  cases r.incoming <;> rfl

/-- Otherwise it belongs to the task that is brought in. -/
theorem role_exempt_incoming {r : Role} {n : Nat} {st : State} (h : r.incoming = some (n, st))
    (hh : r.holds = none) (self : Nat) : r.exempt self = n := by
  unfold Role.exempt
  rw [h, hh]

section

variable {m m' : Machine} {f : Duty → Option Nat} {h p : Nat}

/-- The running task is at the point of the machine. -/
theorem Machine.at_self (m : Machine) : m.at m.self = m.point := if_pos rfl

/-- Everybody else is where they left. -/
theorem Machine.at_other (hne : h ≠ m.self) : m.at h = m.left h := if_neg hne

/-- What the running task has to do is said by its point. -/
theorem Machine.has_self : m.Has f m.self p ↔ f m.point.role.toDuty = some p := by
  rw [Machine.Has, Machine.at_self]
  exact and_iff_right (Or.inl rfl)

/-- What the running task has in its local variables may change; nothing else. -/
def Follows (f : Duty → Option Nat) (m m' : Machine) : Prop :=
  ∀ h p, m'.Has f h p ↔ if h = m.self then f m'.point.role.toDuty = some p else m.Has f h p

/-- A duty that does not change is that of the same tasks. -/
theorem Follows.same (hf : Follows f m m')
    (hsame : f m'.point.role.toDuty = f m.point.role.toDuty) (h p : Nat) :
    m'.Has f h p ↔ m.Has f h p := by
  rw [hf h p]
  by_cases hself : h = m.self
  · rw [if_pos hself, hself, Machine.has_self, hsame]
  · rw [if_neg hself]

/-- The same task runs on, and every other one is where it was. -/
structure Steady (m m' : Machine) : Prop where
  self_eq : m'.self = m.self
  left_eq : ∀ h, h ≠ m.self → m'.left h = m.left h
  alive_iff : ∀ h, h ≠ m.self → (m'.Alive h ↔ m.Alive h)

/-- In a steady step everybody else's duties are the same. -/
theorem Steady.follows (hs : Steady m m') (f : Duty → Option Nat) : Follows f m m' := by
  intro h p
  by_cases hself : h = m.self
  · rw [if_pos hself, hself, ← hs.self_eq, Machine.has_self]
  · have hself' : h ≠ m'.self := hs.self_eq ▸ hself
    rw [if_neg hself, Machine.Has, Machine.Has, Machine.at_other hself, Machine.at_other hself',
      hs.left_eq h hself, hs.alive_iff h hself]

/-- The other tasks that are alive stay where they are. -/
def Others (m m' : Machine) : Prop :=
  ∀ x, x ≠ m.self → m.Alive x → m'.Alive x ∧ m'.at x = m.at x

/-- Nothing has happened to the others. -/
theorem Others.refl (m : Machine) : Others m m := fun _ _ halive => ⟨halive, rfl⟩

/-- In a steady step nothing has. -/
theorem Steady.others (hs : Steady m m') : Others m m' := by
  intro x hx halive
  refine ⟨(hs.alive_iff x hx).mpr halive, ?_⟩
  rw [Machine.at_other hx, Machine.at_other (hs.self_eq ▸ hx), hs.left_eq x hx]

/-- What a step does to the read guards: the running task takes one, drops its
own, or does neither; or it leaves the CPU, with none. -/
inductive Reads (m m' : Machine) : Prop
  | same (hself : m'.self = m.self) (hreaders : m'.readers = m.readers)
      (hrole : m'.point.role.reads = m.point.role.reads)
  | lock (hself : m'.self = m.self) (hreaders : m'.readers = m.self :: m.readers)
      (hrole : m.point.role.reads = false) (hrole' : m'.point.role.reads = true)
  | unlock (hself : m'.self = m.self) (hreaders : m'.readers = m.readers.erase m.self)
  | leave (hreaders : m'.readers = m.readers) (hrole : m.point.role.reads = false)

/-- What `isolated_trampoline` reads, and the page table it runs on. -/
def isolation (t : Tcb Regs) : Nat × Nat × Nat × Nat :=
  (t.cr3, t.userEntry, t.userStackTop, t.caps)

/-- The block that the next step stores to, or takes away. -/
def Point.writesTo : Point → Option Nat
  | .isolatePatch pid _ | .setApply pid _ | .reapTake pid => some pid
  | _ => none

/-- Blocks stay, and zombies stay zombies. -/
def Blocks (m m' : Machine) : Prop :=
  ∀ x t, m.point.writesTo ≠ some x → lookup m.sched.tasks x = some t →
    ∃ t', lookup m'.sched.tasks x = some t' ∧ isolation t' = isolation t ∧
      (t.state = .zombie → t'.state = .zombie)

/-- The blocks are the same. -/
theorem blocks_of_tasks (htasks : m'.sched.tasks = m.sched.tasks) : Blocks m m' :=
  fun _ t _ ht => ⟨t, by rw [htasks, ht], rfl, id⟩

/-- One block is changed, of a task that the point may write to, or in nothing that
matters. -/
theorem blocks_of_adjust {g : Tcb Regs → Tcb Regs}
    (htasks : m'.sched.tasks = adjust m.sched.tasks p g)
    (hg : m.point.writesTo ≠ some p → ∀ t, lookup m.sched.tasks p = some t →
      isolation (g t) = isolation t ∧ (t.state = .zombie → (g t).state = .zombie)) :
    Blocks m m' := by
  intro x t hx ht
  rw [htasks, lookup_adjust, ht]
  by_cases hxp : x = p
  · subst hxp
    rw [if_pos rfl]
    exact ⟨g t, rfl, hg hx t ht⟩
  · rw [if_neg hxp]
    exact ⟨t, rfl, rfl, id⟩

/-- Blocks with the same states. -/
theorem steady_of_states (hself : m'.self = m.self) (hleft : ∀ h, h ≠ m.self → m'.left h = m.left h)
    (hstate : ∀ h, h ≠ m.self → (lookup m'.sched.tasks h).map Tcb.state =
      (lookup m.sched.tasks h).map Tcb.state) : Steady m m' := by
  have halive : ∀ {x : Machine}, x.self = m.self → ∀ h, h ≠ m.self →
      (x.Alive h ↔ ∃ st, (lookup x.sched.tasks h).map Tcb.state = some st ∧ st ≠ .zombie) := by
    intro x hx h hne
    have hne' : h ≠ x.self := hx ▸ hne
    simp only [Machine.Alive, hne', false_or, Option.map_eq_some_iff]
    constructor
    · rintro ⟨t, ht, hst⟩
      exact ⟨t.state, ⟨t, ht, rfl⟩, hst⟩
    · rintro ⟨st, ⟨t, ht, rfl⟩, hst⟩
      exact ⟨t, ht, hst⟩
  exact ⟨hself, hleft, fun h hne => by rw [halive hself h hne, halive rfl h hne, hstate h hne]⟩

/-- Nothing happens to the blocks. -/
theorem steady_of_tasks (hself : m'.self = m.self) (hleft : m'.left = m.left)
    (htasks : m'.sched.tasks = m.sched.tasks) : Steady m m' :=
  steady_of_states hself (fun h _ => congrFun hleft h) (fun h _ => by rw [htasks])

end

section

variable {strict : Prop} {m m' : Machine} {locals : List (Nat × Nat)} {lost : List Nat} {p : Nat}

/-- The ghost lists follow what is held. -/
theorem Whereabouts.keep (hw : Whereabouts strict m locals lost)
    (hhas : ∀ h q, m'.Has Duty.holds h q ↔ m.Has Duty.holds h q)
    (hplaced : Placed (m'.point.role.exempt m'.self) (locals.map Prod.snd ++ lost) m'.sched) :
    Whereabouts strict m' locals lost :=
  ⟨hplaced, fun h q => (hw.locals_iff h q).trans (hhas h q).symm, hw.lost_nil⟩

/-- The running task takes a pid. -/
theorem Whereabouts.take (hw : Whereabouts strict m locals lost) (hf : Follows Duty.holds m m')
    (hold : m.point.role.holds = none) (hnew : m'.point.role.holds = some p)
    (hplaced : Placed (m'.point.role.exempt m'.self) (p :: (locals.map Prod.snd ++ lost)) m'.sched) :
    Whereabouts strict m' ((m.self, p) :: locals) lost := by
  refine ⟨hplaced, fun h q => ?_, hw.lost_nil⟩
  rw [hf h q, List.mem_cons]
  by_cases hself : h = m.self
  · subst hself
    have hnone : (m.self, q) ∉ locals := by
      rw [hw.locals_iff, Machine.has_self, hold]
      simp
    rw [if_pos rfl, hnew]
    simp only [hnone, or_false, Prod.mk.injEq, true_and, Option.some.injEq]
    exact eq_comm
  · rw [if_neg hself, ← hw.locals_iff h q]
    simp [hself]

/-- What the running task holds is in the list once. -/
theorem Whereabouts.split (hw : Whereabouts strict m locals lost)
    (hold : m.point.role.holds = some p) :
    (locals.map Prod.snd ++ lost).Perm
        (p :: ((locals.erase (m.self, p)).map Prod.snd ++ lost)) ∧ locals.Nodup := by
  have hmem : (m.self, p) ∈ locals := (hw.locals_iff _ _).mpr (Machine.has_self.mpr hold)
  have hnd := hw.placed.nodup
  rw [List.append_assoc] at hnd
  refine ⟨?_, List.Nodup.of_map Prod.snd (List.Nodup.of_append_left hnd)⟩
  exact ((List.perm_cons_erase hmem).map Prod.snd).append_right lost

/-- The running task gives away the pid it holds. -/
theorem Whereabouts.drop (hw : Whereabouts strict m locals lost) (hf : Follows Duty.holds m m')
    (hold : m.point.role.holds = some p) (hnew : m'.point.role.holds = none)
    (hplaced : ∀ held, Placed (m.point.role.exempt m.self) (p :: held) m.sched →
      Placed (m'.point.role.exempt m'.self) held m'.sched) :
    Whereabouts strict m' (locals.erase (m.self, p)) lost := by
  obtain ⟨hperm, hnd⟩ := hw.split hold
  refine ⟨hplaced _ (hw.placed.perm hperm), fun h q => ?_, hw.lost_nil⟩
  rw [hf h q, hnd.mem_erase_iff, hw.locals_iff h q]
  by_cases hself : h = m.self
  · subst hself
    rw [if_pos rfl, hnew, Machine.has_self, hold]
    simp only [ne_eq, Prod.mk.injEq, true_and, Option.some.injEq, reduceCtorEq, iff_false, not_and]
    exact fun hne heq => hne heq.symm
  · rw [if_neg hself]
    simp [hself]

/-- What is held is Runnable, and not the exempt task. -/
theorem Whereabouts.held (hw : Whereabouts strict m locals lost)
    (hold : m.point.role.holds = some p) :
    p ≠ m.self ∧ ∃ t, lookup m.sched.tasks p = some t ∧ t.state = .runnable := by
  have hplaced := hw.placed.perm (hw.split hold).1
  obtain ⟨hne, hblock⟩ := hplaced.waiting p List.mem_cons_self
  rw [role_exempt_holds hold] at hne
  exact ⟨hne, hblock⟩

/-- Blocks that have kept their registers and priorities. -/
def Retains (ts ts' : Tasks Regs) : Prop :=
  ∀ p t', lookup ts' p = some t' →
    ∃ t, lookup ts p = some t ∧ t'.ctx = t.ctx ∧ t'.priority = t.priority

/-- No task is forgotten. -/
theorem Retains.refl (ts : Tasks Regs) : Retains ts ts := fun _ t h => ⟨t, h, rfl, rfl⟩

/-- A change that keeps context and priority forgets none. -/
theorem retains_adjust (ts : Tasks Regs) (p : Nat) {f : Tcb Regs → Tcb Regs}
    (hf : ∀ t, (f t).ctx = t.ctx ∧ (f t).priority = t.priority) : Retains ts (adjust ts p f) := by
  intro x t' ht'
  rw [lookup_adjust] at ht'
  by_cases hx : x = p
  · rw [if_pos hx] at ht'
    obtain ⟨t, ht, rfl⟩ := Option.map_eq_some_iff.mp ht'
    exact ⟨t, ht, hf t⟩
  · rw [if_neg hx] at ht'
    exact ⟨t', ht', rfl, rfl⟩

/-- The contexts still hold what they held. -/
theorem Registers.keep (hr : Registers m) (hs : Steady m m') (hleft : m'.left = m.left)
    (hts : Retains m.sched.tasks m'.sched.tasks) : Registers m' := by
  refine ⟨fun q t' ht' => ?_, fun q hq hne => ?_⟩
  · obtain ⟨t, ht, hctx, hprio⟩ := hts q t' ht'
    rw [hctx, hprio, hleft]
    exact hr.owned q t ht
  · rw [hs.self_eq] at hne
    rw [hleft]
    exact hr.parked q ((hs.alive_iff q hne).mp hq) hne

/-- No births, and no new blocks. -/
theorem Births.keep (hb : Births m) (hhas : ∀ h q, m'.Has Duty.child h q ↔ m.Has Duty.child h q)
    (hnext : m'.sched.nextPid = m.sched.nextPid)
    (hlen : m'.sched.tasks.length ≤ m.sched.tasks.length)
    (hts : ∀ q, lookup m.sched.tasks q = none → lookup m'.sched.tasks q = none) : Births m' := by
  refine ⟨hts 0 hb.zero, hnext ▸ hb.positive, fun q t ht => ?_, hlen.trans hb.length_le, ?_, ?_, ?_⟩
  · rw [hnext]
    cases hq : lookup m.sched.tasks q with
    | none =>
        rw [hts q hq] at ht
        cases ht
    | some t => exact hb.fresh q t hq
  · intro h q hq
    obtain ⟨hzero, hlt, hnone⟩ := hb.child_new h q ((hhas h q).mp hq)
    exact ⟨hzero, hnext ▸ hlt, hts q hnone⟩
  · exact fun h h' q hq hq' => hb.child_inj h h' q ((hhas h q).mp hq) ((hhas h' q).mp hq')
  · intro q hle hlt
    rw [hnext] at hlt
    obtain ⟨h, hh⟩ := hb.child_all q hle hlt
    exact ⟨h, (hhas h q).mpr hh⟩

/-- A task that was not there is not there. -/
theorem Retains.none {ts ts' : Tasks Regs} (h : Retains ts ts') {q : Nat} (hq : lookup ts q = none) :
    lookup ts' q = none := by
  cases hq' : lookup ts' q with
  | none => rfl
  | some t' =>
      obtain ⟨t, ht, -⟩ := h q t' hq'
      rw [hq] at ht
      cases ht

end

end Preemption
