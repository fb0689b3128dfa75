import Noxisa.PreemptionFrame

/-!
# Waiting for a zombie

Five commands of the shell (`spawn`, `isotest`, `captest`, `drawtest` and
`restest`) launch an isolated task, yield to it at most ten times, looking each
time whether it is a zombie, and reap it.  The loop ends with what it has seen
last, and `reap` comes in either case; `multitest`, `conctest` and `preempttest`
reap what they have seen to be a zombie only.

The shell is the first task.  Its code is one of the commands and the call that
the command is in; all other tasks do what they like, except that only the shell
reaps.  A zombie stays one until it is reaped, so that `reap` meets a zombie as
long as the last look of a loop does (`waits_reap_zombies`); a child that does
not exit in time stops the kernel (`live_child_reaped`).
-/

namespace Preemption

open Scheduler

/-- The points of `reap`. -/
def Point.inReap : Point → Bool
  | .reapWrite _ | .reapTake _ | .reapDrop _ | .reapCheck _ => true
  | _ => false

/-- The points of `exit_current`. -/
def Point.inExit : Point → Bool
  | .exitLoad | .exitRead _ | .exitZombie _ | .exitDrop | .exitLock | .exitPop | .exitUnlock _
  | .exitStore _ | .exitReadNext _ | .exitPromote _ | .exitDropNext _ _ | .exitCr3 _ _
  | .exitRestore _ => true
  | _ => false

/-- A zombie has not left `exit_current`. -/
private theorem inExit_of_zombie {p : Point} (h : p.role.state = .zombie) : p.inExit = true := by
  cases p <;> first | rfl | cases h

/-- One step along `reap`. -/
inductive ReapStep (m m' : Machine) : Prop
  | write (pid : Nat) (hold : m.point = .reapWrite pid) (hnew : m'.point = .reapTake pid)
  | take (pid : Nat) (t : Tcb Regs) (hold : m.point = .reapTake pid)
      (ht : lookup m.sched.tasks pid = some t) (hnew : m'.point = .reapDrop t.state)
  | drop (st : State) (hold : m.point = .reapDrop st) (hnew : m'.point = .reapCheck st)

/-- The running task goes on: it is not deeper in `exit_current`, and in `reap` by
one step. -/
structure Onward (m m' : Machine) : Prop where
  inExit : m'.point.inExit = true → m.point.inExit = true
  inReap : m'.point.inReap = true → ReapStep m m'

/-- A step leaves the other tasks where they are, unless it switches to one. -/
theorem step_onward {m m' : Machine} (hstep : m.step = some m')
    (hrestore : m.point.restores = false) : Onward m m' := by
  cases hq : m.point
  case reapWrite pid =>
    simp only [Machine.step, hq, Machine.writeLock] at hstep
    split at hstep
    · obtain rfl := Option.some.inj hstep
      exact ⟨Bool.false_ne_true.elim, fun _ => .write pid hq rfl⟩
    · cases hstep
  case reapTake pid =>
    simp only [Machine.step, hq] at hstep
    obtain ⟨t, ht, rfl⟩ := Option.map_eq_some_iff.mp hstep
    exact ⟨Bool.false_ne_true.elim, fun _ => .take pid t hq ht rfl⟩
  case reapDrop st =>
    simp only [Machine.step, hq] at hstep
    obtain rfl := Option.some.inj hstep
    exact ⟨Bool.false_ne_true.elim, fun _ => .drop st hq rfl⟩
  case exitPromote next =>
    simp only [Machine.step, hq] at hstep
    obtain ⟨t, -, rfl⟩ := Option.map_eq_some_iff.mp hstep
    exact ⟨fun _ => by rw [hq]; rfl, Bool.false_ne_true.elim⟩
  case yieldUnlock next =>
    cases next <;>
    · simp only [Machine.step, hq] at hstep
      obtain rfl := Option.some.inj hstep
      exact ⟨Bool.false_ne_true.elim, Bool.false_ne_true.elim⟩
  case switchDrop prev next cr3 =>
    cases cr3 <;>
    · simp only [Machine.step, hq] at hstep
      obtain rfl := Option.some.inj hstep
      exact ⟨Bool.false_ne_true.elim, Bool.false_ne_true.elim⟩
  case exitUnlock next =>
    cases next with
    | none => simp [Machine.step, hq] at hstep
    | some next =>
        simp only [Machine.step, hq] at hstep
        obtain rfl := Option.some.inj hstep
        exact ⟨fun _ => by rw [hq]; rfl, Bool.false_ne_true.elim⟩
  case switchRestore => simp [hq, Point.restores] at hrestore
  case exitRestore => simp [hq, Point.restores] at hrestore
  all_goals
    simp only [Machine.step, hq, Machine.readLock, Machine.writeLock, Machine.rqLock] at hstep
  all_goals (repeat' split at hstep)
  all_goals cases hstep
  all_goals first
    | exact ⟨Bool.false_ne_true.elim, Bool.false_ne_true.elim⟩
    | exact ⟨fun _ => by rw [hq]; rfl, Bool.false_ne_true.elim⟩

/-- The shell is the first task. -/
def shellPid : Nat := 1

/-- Which command the shell is in, and the call that it is in or that has just
returned.  A look with `some n` is that of a loop after `n` yields, one with
`none` that of a command that checks before it reaps; `seen` is what
`is_zombie` has read, once it has. -/
inductive Phase
  | prompt
  | launching (child : Option Nat)
  | looking (pid : Nat) (loop : Option Nat) (seen : Option Bool)
  | yielding (pid yields : Nat)
  | reaping (pid : Nat)
deriving DecidableEq

/-- What the command does when its call has returned: its next call. -/
def Phase.next : Phase → Phase × Option Op
  | .prompt => (.prompt, none)
  | .launching none => (.prompt, none)
  | .launching (some pid) => (.looking pid (some 0) none, some .get)
  | .looking pid loop none => (.looking pid loop none, none)
  | .looking pid _ (some true) => (.reaping pid, some (.reap pid))
  | .looking _ none (some false) => (.prompt, none)
  | .looking pid (some n) (some false) =>
      if n < 10 then (.yielding pid n, some .yieldNow) else (.reaping pid, some (.reap pid))
  | .yielding pid n => (.looking pid (some (n + 1)) none, some .get)
  | .reaping _ => (.prompt, none)

/-- The pid that a loop looks at for the last time. -/
def Phase.lastLook : Phase → Option Nat
  | .looking pid (some n) none => if n < 10 then none else some pid
  | _ => none

/-- The machine, and what the shell is doing. -/
structure Shell where
  machine : Machine
  phase : Phase

/-- What can happen: the shell's commands, its loop of looks, and everybody else. -/
inductive ShellEvent
  /-- a call of a task, or of the shell between its commands -/
  | call (op : Op)
  /-- one of the five commands calls `spawn_isolated` -/
  | launch (i : Isolation)
  /-- another command calls `is_zombie` -/
  | look (pid : Nat)
  /-- a call of a command has returned -/
  | returned
  /-- `is_zombie` reads the state -/
  | load
  | step
  | tick

/-- The calls of other code than the commands: nobody else reaps, and the shell
does not exit. -/
def Op.free (self : Nat) : Op → Bool
  | .reap _ => false
  | .exitCurrent => self ≠ shellPid
  | _ => true

namespace Shell

/-- The shell runs, and no call is under way. -/
def AtWork (s : Shell) : Prop := s.machine.self = shellPid ∧ s.machine.point = .work

instance (s : Shell) : Decidable s.AtWork := inferInstanceAs (Decidable (_ ∧ _))

/-- The shell is about to drop the guard under which `is_zombie` reads. -/
def Reading (s : Shell) : Prop := s.machine.self = shellPid ∧ s.machine.point = .getDrop

instance (s : Shell) : Decidable s.Reading := inferInstanceAs (Decidable (_ ∧ _))

/-- `spawn` gives the command the pid of its child. -/
def noted (s : Shell) : Phase :=
  match s.phase, s.machine.point with
  | .launching _, .spawnPid _ =>
      if s.machine.self = shellPid then .launching (some (takePid s.machine.sched).1) else s.phase
  | phase, _ => phase

/-- One event. The shell's own calls follow its phase. -/
def next (s : Shell) : ShellEvent → Option Shell
  | .call op =>
      if op.free s.machine.self ∧ (s.machine.self = shellPid → s.phase = .prompt) then
        (s.machine.next (.call op)).map (fun m => { s with machine := m })
      else none
  | .launch i =>
      if s.AtWork ∧ s.phase = .prompt then
        some ⟨s.machine.goto (Op.spawnIsolated i).point, .launching none⟩
      else none
  | .look pid =>
      if s.AtWork ∧ s.phase = .prompt then
        some ⟨s.machine.goto Op.get.point, .looking pid none none⟩
      else none
  | .returned =>
      if s.AtWork then
        match s.phase.next with
        | (phase, some op) => some ⟨s.machine.goto op.point, phase⟩
        | (phase, none) => some ⟨s.machine, phase⟩
      else none
  | .load =>
      match s.phase with
      | .looking pid loop none =>
          if s.Reading then some ⟨s.machine, .looking pid loop (some (s.machine.isZombie pid))⟩
          else none
      | _ => none
  | .step =>
      match s.phase with
      | .looking _ _ none =>
          if s.Reading then none else s.machine.step.map (fun m => ⟨m, s.phase⟩)
      | _ => s.machine.step.map (fun m => ⟨m, s.noted⟩)
  | .tick => some { s with machine := s.machine.tick }

/-- The next thing that happens when the shell goes on is a `reap(pid)`. -/
def Reaps (s : Shell) (pid : Nat) : Prop :=
  s.AtWork ∧ ∃ phase, s.phase.next = (phase, some (.reap pid))

end Shell

/-- Runs from the boot of the shell. -/
def shellSystem : TransitionSystem Shell ShellEvent where
  boot := fun s => ∃ cr3, s = ⟨bootMachine cr3, .prompt⟩
  next := Shell.next

/-- **Only zombies are reaped**: `reap` is called on a zombie, takes a zombie, and
its check passes. -/
structure ReapsZombies (s : Shell) : Prop where
  call : ∀ pid, s.Reaps pid → s.machine.isZombie pid = true
  take : ∀ pid, s.machine.point = .reapTake pid → s.machine.isZombie pid = true
  check : ∀ st, s.machine.point = .reapCheck st → st = .zombie

/-- The last look of a loop sees a zombie, and no interrupt switches tasks during
a handover. -/
def Shell.InTime (s : Shell) : ShellEvent → Prop
  | .load => ∀ pid ∈ s.phase.lastLook, s.machine.isZombie pid = true
  | .tick => s.machine.Preempts → s.machine.point.handsOver = false
  | _ => True

instance (s : Shell) (e : ShellEvent) : Decidable (s.InTime e) :=
  match e with
  | .load => inferInstanceAs (Decidable (∀ _ ∈ _, _))
  | .tick => inferInstanceAs (Decidable (_ → _))
  | .call _ | .launch _ | .look _ | .returned | .step => instDecidableTrue

/-- What the point `p` of the shell says about the task that it reaps. -/
structure ReapPoint (s : Shell) (p : Point) : Prop where
  inExit : p.inExit = false
  inReap : p.inReap = true → ∃ pid, s.phase = .reaping pid
  target : ∀ pid, p = .reapWrite pid ∨ p = .reapTake pid → s.machine.isZombie pid = true
  state : ∀ st, p = .reapDrop st ∨ p = .reapCheck st → st = .zombie

/-- Only the shell reaps, and what it reaps or has seen to be a zombie is one. -/
structure Shell.Sound (s : Shell) : Prop where
  inv : Inv False s.machine
  left : ∀ x, x ≠ shellPid → (s.machine.left x).inReap = false
  point : s.machine.self ≠ shellPid → s.machine.point.inReap = false
  shell : ReapPoint s (s.machine.at shellPid)
  seen : ∀ pid loop, s.phase = .looking pid loop (some true) → s.machine.isZombie pid = true
  last : ∀ pid n, s.phase = .looking pid (some n) (some false) → n < 10

section

variable {s : Shell} {m m' : Machine} {phase : Phase}

/-- A point of neither call says nothing of a zombie. -/
theorem ReapPoint.plain {p : Point} (hexit : p.inExit = false) (hreap : p.inReap = false) :
    ReapPoint s p := by
  refine ⟨hexit, fun h => ?_, fun pid h => ?_, fun st h => ?_⟩
  · rw [hreap] at h
    cases h
  · rcases h with rfl | rfl <;> cases hreap
  · rcases h with rfl | rfl <;> cases hreap

/-- The zombies of a point are still there. -/
theorem ReapPoint.keep {p : Point} (h : ReapPoint s p)
    (hphase : ∀ pid, s.phase = .reaping pid → phase = .reaping pid)
    (hzombie : ∀ pid, s.machine.isZombie pid = true → m.isZombie pid = true) :
    ReapPoint ⟨m, phase⟩ p := by
  refine ⟨h.inExit, fun hp => ?_, fun pid hp => hzombie pid (h.target pid hp), h.state⟩
  obtain ⟨pid, hpid⟩ := h.inReap hp
  exact ⟨pid, hphase pid hpid⟩

/-- Whoever takes a block takes that of a zombie, and it is the shell. -/
theorem Shell.Sound.takes (h : s.Sound) {pid : Nat} (hp : s.machine.point = .reapTake pid) :
    s.machine.self = shellPid ∧ s.machine.isZombie pid = true := by
  have hself : s.machine.self = shellPid := by
    by_contra hne
    have hpoint := h.point hne
    rw [hp] at hpoint
    cases hpoint
  refine ⟨hself, h.shell.target pid (Or.inr ?_)⟩
  rw [← hself, Machine.at_self, hp]

/-- The shell reaps a zombie only. -/
theorem Shell.Sound.reapsZombie (h : s.Sound) : s.machine.reapsZombie = true := by
  unfold Machine.reapsZombie
  split
  next pid hp =>
    obtain ⟨t, ht, hst⟩ := Machine.isZombie_iff.mp (h.takes hp).2
    simp [ht, hst]
  next => rfl

/-- It was in `reap` before. -/
theorem ReapStep.old (h : ReapStep m m') : m.point.inReap = true := by
  cases h with
  | write pid hold => rw [hold]; rfl
  | take pid t hold => rw [hold]; rfl
  | drop st hold => rw [hold]; rfl

/-- The shell goes on. -/
theorem ReapPoint.onward (h : ReapPoint s s.machine.point) (hon : Onward s.machine m)
    (hphase : ∀ pid, s.phase = .reaping pid → phase = .reaping pid)
    (hzombie : (∀ pid, s.machine.point ≠ .reapTake pid) → ∀ x, s.machine.isZombie x = true →
      m.isZombie x = true) : ReapPoint ⟨m, phase⟩ m.point := by
  have hexit : m.point.inExit = false := by
    by_contra hin
    have hold := hon.inExit (Bool.not_eq_false _ ▸ hin)
    rw [h.inExit] at hold
    cases hold
  cases hreap : m.point.inReap with
  | false => exact .plain hexit hreap
  | true =>
      have hgoes := hon.inReap hreap
      obtain ⟨pid, hpid⟩ := h.inReap hgoes.old
      refine ⟨hexit, fun _ => ⟨pid, hphase pid hpid⟩, fun x hx => ?_, fun st hst => ?_⟩
      · cases hgoes with
        | write y hold hnew =>
            have hz := h.target y (Or.inl hold)
            rw [hnew] at hx
            obtain rfl : y = x := by simpa using hx
            exact hzombie (fun z hz => by rw [hold] at hz; cases hz) y hz
        | take y t hold ht hnew => rw [hnew] at hx; simp at hx
        | drop st hold hnew => rw [hnew] at hx; simp at hx
      · cases hgoes with
        | write y hold hnew => rw [hnew] at hst; simp at hst
        | take y t hold ht hnew =>
            obtain ⟨t', ht', hstate⟩ := Machine.isZombie_iff.mp (h.target y (Or.inr hold))
            obtain rfl := Option.some.inj (ht.symm.trans ht')
            rw [hnew] at hst
            obtain rfl : t.state = st := by simpa using hst
            exact hstate
        | drop st' hold hnew =>
            rw [hnew] at hst
            obtain rfl : st' = st := by simpa using hst
            exact h.state st' (Or.inl hold)

/-- A point that is saved on the way out, or an entry point, is in neither call. -/
theorem LeftStep.plain (h : LeftStep m m') (x : Nat) : m'.left x = m.left x ∨
    (m'.left x).inExit = false ∧ (m'.left x).inReap = false := by
  cases h with
  | same heq => exact Or.inl (congrFun heq x)
  | save _ _ _ heq =>
      rw [heq, Function.update_apply]
      split
      · exact Or.inr ⟨rfl, rfl⟩
      · exact Or.inl rfl
  | born b _ heq =>
      rw [heq, Function.update_apply]
      split
      · right
        cases b.entry <;> exact ⟨rfl, rfl⟩
      · exact Or.inl rfl

/-- The command is where it was, or has learned who its child is. -/
def Phase.Learns (old new : Phase) : Prop :=
  new = old ∨ ∃ c c', old = .launching c ∧ new = .launching c'

/-- **A step of a task.** -/
theorem Shell.Sound.step (h : s.Sound) (hstep : s.machine.step = some m)
    (hphase : s.phase.Learns phase) : Shell.Sound ⟨m, phase⟩ := by
  obtain ⟨locals, lost, hI⟩ := h.inv
  have hreaping : ∀ pid, s.phase = .reaping pid → phase = .reaping pid := by
    intro pid hp
    rcases hphase with rfl | ⟨c, c', hold, -⟩
    · exact hp
    · cases hold.symm.trans hp
  have hlooking : ∀ pid loop b, phase = .looking pid loop (some b) →
      s.phase = .looking pid loop (some b) := by
    intro pid loop b hp
    rcases hphase with rfl | ⟨c, c', -, hnew⟩
    · exact hp
    · cases hnew.symm.trans hp
  -- only the shell takes a block, and it does so in the phase `reaping`
  have hother : s.machine.self ≠ shellPid → ∀ pid, s.machine.point ≠ .reapTake pid :=
    fun hne pid hp => hne (h.takes hp).1
  have hstays : (∀ pid, s.machine.point ≠ .reapTake pid) → ∀ x, s.machine.isZombie x = true →
      m.isZombie x = true := fun hne x hz => hI.isZombie_step h.reapsZombie hstep (hne x) hz
  have hseen : ∀ pid loop, phase = .looking pid loop (some true) → m.isZombie pid = true := by
    intro pid loop hp
    have hold := hlooking pid loop true hp
    refine hstays (fun x hx => ?_) pid (h.seen pid loop hold)
    have hin : (s.machine.at shellPid).inReap = true := by
      rw [← (h.takes hx).1, Machine.at_self, hx]
      rfl
    obtain ⟨y, hy⟩ := h.shell.inReap hin
    cases hold.symm.trans hy
  have hlast : ∀ pid n, phase = .looking pid (some n) (some false) → n < 10 := fun pid n hp =>
    h.last pid n (hlooking pid _ _ hp)
  by_cases hrestore : s.machine.point.restores = true
  · obtain ⟨next, hr⟩ := hI.restored hrestore hstep
    have hsame : ∀ x, s.machine.isZombie x = true → m.isZombie x = true := by
      intro x hz
      rw [Machine.isZombie, hr.sched_eq]
      exact hz
    refine ⟨(hI.step h.reapsZombie hstep).inv, fun x hx => hr.left_eq ▸ h.left x hx, fun hx => ?_,
      ?_, hseen, hlast⟩
    · rw [← Machine.at_self m, hr.at_eq]
      exact h.left _ hx
    · change ReapPoint ⟨m, phase⟩ (m.at shellPid)
      rw [hr.at_eq]
      by_cases hself : s.machine.self = shellPid
      · rw [← hself]
        rcases hr.back with hwork | hzombie
        · rw [hwork]
          exact .plain rfl rfl
        · have hno := h.shell.inExit
          rw [← hself, Machine.at_self, inExit_of_zombie hzombie] at hno
          cases hno
      · have hshell := h.shell
        rw [Machine.at_other (Ne.symm hself)] at hshell
        exact hshell.keep hreaping hsame
  · have hon := step_onward hstep (Bool.eq_false_iff.mpr hrestore)
    obtain ⟨hsame, hleft, -⟩ := step_on hstep (Bool.eq_false_iff.mpr hrestore)
    have hplain := hleft.plain
    refine ⟨(hI.step h.reapsZombie hstep).inv, fun x hx => ?_, fun hx => ?_, ?_, hseen, hlast⟩
    · rcases hplain x with heq | ⟨-, hreap⟩
      · exact heq ▸ h.left x hx
      · exact hreap
    · have hself : s.machine.self ≠ shellPid := hsame ▸ hx
      by_contra hin
      have hold := (hon.inReap (Bool.not_eq_false _ ▸ hin)).old
      rw [h.point hself] at hold
      cases hold
    · change ReapPoint ⟨m, phase⟩ (m.at shellPid)
      by_cases hself : s.machine.self = shellPid
      · have hshell := h.shell
        rw [← hself, Machine.at_self] at hshell
        rw [← hself, ← hsame, Machine.at_self]
        exact hshell.onward hon hreaping hstays
      · have hself' : shellPid ≠ m.self := fun heq => hself (hsame ▸ heq.symm)
        rw [Machine.at_other hself']
        rcases hplain shellPid with heq | ⟨hexit, hreap⟩
        · have hshell := h.shell
          rw [Machine.at_other (Ne.symm hself)] at hshell
          rw [heq]
          exact hshell.keep hreaping (hstays (hother hself))
        · exact .plain hexit hreap

/-- Nobody but the shell is in `reap`. -/
theorem Shell.Sound.others (h : s.Sound) {x : Nat} (hx : x ≠ shellPid) :
    (s.machine.at x).inReap = false := by
  by_cases hself : x = s.machine.self
  · subst hself
    rw [Machine.at_self]
    exact h.point hx
  · rw [Machine.at_other hself]
    exact h.left x hx

/-- A shell at work is at its loop. -/
theorem Shell.AtWork.at_eq (hat : s.AtWork) : s.machine.at shellPid = .work := by
  rw [← hat.1, Machine.at_self, hat.2]

/-- The shell goes on to another part of its code. -/
theorem Shell.Sound.turn (h : s.Sound) {p : Point} (hat : s.machine.at shellPid = p)
    (hexit : p.inExit = false) (hreap : p.inReap = false)
    (hseen : ∀ pid loop, phase = .looking pid loop (some true) → s.machine.isZombie pid = true)
    (hlast : ∀ pid n, phase = .looking pid (some n) (some false) → n < 10) :
    Shell.Sound ⟨s.machine, phase⟩ := by
  refine ⟨h.inv, h.left, h.point, ?_, hseen, hlast⟩
  rw [hat]
  exact .plain hexit hreap

/-- A command of the shell makes a call. -/
theorem Shell.Sound.command (h : s.Sound) (hat : s.AtWork) (op : Op)
    (hpoint : ReapPoint ⟨s.machine.goto op.point, phase⟩ op.point)
    (hlook : ∀ pid loop b, phase ≠ .looking pid loop (some b)) :
    Shell.Sound ⟨s.machine.goto op.point, phase⟩ := by
  obtain ⟨locals, lost, hI⟩ := h.inv
  refine ⟨(hI.call hat.2 op).inv, h.left, fun hne => absurd hat.1 hne, ?_,
    fun pid loop hp => absurd hp (hlook _ _ _), fun pid n hp => absurd hp (hlook _ _ _)⟩
  have hself : (s.machine.goto op.point).at shellPid = op.point := by
    rw [← hat.1]
    exact Machine.at_self _
  rw [hself]
  exact hpoint

/-- A call that is free is neither of the two. -/
theorem Op.free_point {self : Nat} {op : Op} (h : op.free self = true) :
    op.point.inReap = false ∧ (self = shellPid → op.point.inExit = false) := by
  cases op with
  | exitCurrent =>
      refine ⟨rfl, fun hself => ?_⟩
      simp [Op.free, hself] at h
  | reap pid => cases h
  | _ => exact ⟨rfl, fun _ => rfl⟩

/-- A call of other code. -/
theorem Shell.Sound.call (h : s.Sound) {op : Op} (hwork : s.machine.point = .work)
    (hfree : op.free s.machine.self = true) : Shell.Sound ⟨s.machine.goto op.point, s.phase⟩ := by
  obtain ⟨locals, lost, hI⟩ := h.inv
  obtain ⟨hreap, hexit⟩ := Op.free_point hfree
  refine ⟨(hI.call hwork op).inv, h.left, fun _ => hreap, ?_, h.seen, h.last⟩
  change ReapPoint _ ((s.machine.goto op.point).at shellPid)
  by_cases hself : s.machine.self = shellPid
  · have hat : (s.machine.goto op.point).at shellPid = op.point := by
      rw [← hself]
      exact Machine.at_self _
    rw [hat]
    exact .plain (hexit hself) hreap
  · have hat : (s.machine.goto op.point).at shellPid = s.machine.at shellPid := by
      rw [Machine.at_other (Ne.symm hself), Machine.at_other (m := s.machine.goto op.point)
        (Ne.symm hself)]
      rfl
    rw [hat]
    exact h.shell.keep (fun _ hp => hp) (fun _ hz => hz)

/-- An interrupt. -/
theorem Shell.Sound.tick (h : s.Sound)
    (hcalm : s.machine.Preempts → s.machine.point.handsOver = false) :
    Shell.Sound ⟨s.machine.tick, s.phase⟩ := by
  obtain ⟨locals, lost, hI⟩ := h.inv
  have hat := hI.tick_at hcalm
  have hzombie : ∀ x, s.machine.isZombie x = true → s.machine.tick.isZombie x = true :=
    fun x hz => hI.isZombie_tick hcalm hz
  have hkept := hI.tick (fun hpre => incoming_eq_none.mpr (hcalm hpre)) (fun hs => hs.elim)
  refine ⟨hkept.inv, fun x hx => ?_, fun hx => ?_, ?_, fun pid loop hp => hzombie pid
    (h.seen pid loop hp), h.last⟩
  · by_cases hpre : s.machine.Preempts
    · obtain ⟨next, hp, -⟩ := hI.preempted hpre (incoming_eq_none.mpr (hcalm hpre))
      change (s.machine.tick.left x).inReap = false
      rw [hp.left_eq, Function.update_apply]
      by_cases hself : x = s.machine.self
      · rw [if_pos hself]
        exact h.point (hself ▸ hx)
      · rw [if_neg hself]
        exact h.left x hx
    · rw [tick_idle hpre]
      exact h.left x hx
  · change s.machine.tick.point.inReap = false
    rw [← Machine.at_self s.machine.tick, hat]
    exact h.others hx
  · change ReapPoint _ (s.machine.tick.at shellPid)
    rw [hat]
    exact h.shell.keep (fun _ hp => hp) hzombie

/-- The shell reaps a zombie. -/
theorem Shell.Sound.reaps (h : s.Sound) (hat : s.AtWork) {pid : Nat}
    (hz : s.machine.isZombie pid = true) :
    Shell.Sound ⟨s.machine.goto (Op.reap pid).point, .reaping pid⟩ := by
  refine h.command hat (.reap pid) ⟨rfl, fun _ => ⟨pid, rfl⟩, fun x hx => ?_, fun st hst => ?_⟩
    nofun
  · obtain rfl : pid = x := by simpa [Op.point] using hx
    exact hz
  · simp [Op.point] at hst

/-- A call of a command has returned. -/
theorem Shell.Sound.returned (h : s.Sound) (hat : s.AtWork) {t : Shell}
    (hnext : s.next .returned = some t) : t.Sound := by
  simp only [Shell.next, if_pos hat] at hnext
  have hrest : ∀ phase, (∀ pid loop b, phase ≠ .looking pid loop (some b)) →
      Shell.Sound ⟨s.machine, phase⟩ := fun phase hlook =>
    h.turn hat.at_eq rfl rfl (fun _ _ hp => absurd hp (hlook _ _ _))
      (fun _ _ hp => absurd hp (hlook _ _ _))
  cases hphase : s.phase with
  | prompt =>
      simp only [hphase, Phase.next, Option.some.injEq] at hnext
      exact hnext ▸ hrest _ nofun
  | launching child =>
      cases child with
      | none =>
          simp only [hphase, Phase.next, Option.some.injEq] at hnext
          exact hnext ▸ hrest _ nofun
      | some pid =>
          simp only [hphase, Phase.next, Option.some.injEq] at hnext
          exact hnext ▸ h.command hat .get (.plain rfl rfl) nofun
  | looking pid loop seen =>
      cases seen with
      | none =>
          simp only [hphase, Phase.next, Option.some.injEq] at hnext
          exact hnext ▸ hrest _ nofun
      | some b =>
          cases b with
          | true =>
              simp only [hphase, Phase.next, Option.some.injEq] at hnext
              exact hnext ▸ h.reaps hat (h.seen pid loop hphase)
          | false =>
              cases loop with
              | none =>
                  simp only [hphase, Phase.next, Option.some.injEq] at hnext
                  exact hnext ▸ hrest _ nofun
              | some n =>
                  simp only [hphase, Phase.next, if_pos (h.last pid n hphase),
                    Option.some.injEq] at hnext
                  exact hnext ▸ h.command hat .yieldNow (.plain rfl rfl) nofun
  | yielding pid n =>
      simp only [hphase, Phase.next, Option.some.injEq] at hnext
      exact hnext ▸ h.command hat .get (.plain rfl rfl) nofun
  | reaping pid =>
      simp only [hphase, Phase.next, Option.some.injEq] at hnext
      exact hnext ▸ hrest _ nofun

/-- `is_zombie` reads. -/
theorem Shell.Sound.load (h : s.Sound) {pid : Nat} {loop : Option Nat} (hread : s.Reading)
    (hphase : s.phase = .looking pid loop none) (htime : s.InTime .load) :
    Shell.Sound ⟨s.machine, .looking pid loop (some (s.machine.isZombie pid))⟩ := by
  have hat : s.machine.at shellPid = .getDrop := by
    rw [← hread.1, Machine.at_self, hread.2]
  refine h.turn hat rfl rfl (fun x l hp => ?_) (fun x n hp => ?_)
  · simp only [Phase.looking.injEq, Option.some.injEq] at hp
    exact hp.1 ▸ hp.2.2
  · simp only [Phase.looking.injEq, Option.some.injEq] at hp
    obtain ⟨rfl, rfl, hz⟩ := hp
    by_contra hn
    have hlast : s.phase.lastLook = some pid := by
      rw [hphase, Phase.lastLook, if_neg hn]
    rw [htime pid hlast] at hz
    cases hz

/-- **One event** keeps the invariant. -/
theorem Shell.Sound.next {t : Shell} {e : ShellEvent} (h : s.Sound) (htime : s.InTime e)
    (hnext : s.next e = some t) : t.Sound := by
  cases e with
  | call op =>
      simp only [Shell.next] at hnext
      split at hnext
      next hfree =>
        obtain ⟨m, hm, rfl⟩ := Option.map_eq_some_iff.mp hnext
        simp only [Machine.next] at hm
        split at hm
        next hwork =>
          obtain rfl := Option.some.inj hm
          exact h.call hwork hfree.1
        next => cases hm
      next => cases hnext
  | launch i =>
      simp only [Shell.next] at hnext
      split at hnext
      next hat =>
        obtain rfl := Option.some.inj hnext
        exact h.command hat.1 (.spawnIsolated i) (.plain rfl rfl) (fun _ _ _ hlook => by cases hlook)
      next => cases hnext
  | look pid =>
      simp only [Shell.next] at hnext
      split at hnext
      next hat =>
        obtain rfl := Option.some.inj hnext
        exact h.command hat.1 .get (.plain rfl rfl) (fun _ _ _ hlook => by cases hlook)
      next => cases hnext
  | returned =>
      simp only [Shell.next] at hnext
      split at hnext
      next hat =>
        refine h.returned hat ?_
        rw [Shell.next, if_pos hat]
        exact hnext
      next => cases hnext
  | load =>
      simp only [Shell.next] at hnext
      split at hnext
      next pid loop hphase =>
        split at hnext
        next hread =>
          obtain rfl := Option.some.inj hnext
          exact h.load hread hphase htime
        next => cases hnext
      next => cases hnext
  | step =>
      have hnoted : s.phase.Learns s.noted := by
        unfold Shell.noted
        split
        next c entry hphase hpoint =>
          split
          · exact Or.inr ⟨c, _, hphase, rfl⟩
          · exact Or.inl rfl
        next => exact Or.inl rfl
      simp only [Shell.next] at hnext
      split at hnext
      next =>
        split at hnext
        next => cases hnext
        next =>
          obtain ⟨m, hm, rfl⟩ := Option.map_eq_some_iff.mp hnext
          exact h.step hm (Or.inl rfl)
      next =>
        obtain ⟨m, hm, rfl⟩ := Option.map_eq_some_iff.mp hnext
        exact h.step hm hnoted
  | tick =>
      obtain rfl := Option.some.inj hnext
      exact h.tick htime

end

/-- A command reaps after it has seen a zombie, or at the end of its loop. -/
theorem Phase.next_reap {p q : Phase} {pid : Nat} (h : p.next = (q, some (.reap pid))) :
    (∃ loop, p = .looking pid loop (some true)) ∨
      ∃ n, p = .looking pid (some n) (some false) ∧ ¬ n < 10 := by
  unfold Phase.next at h
  split at h
  case h_5 loop =>
    simp only [Prod.mk.injEq, Option.some.injEq, Op.reap.injEq] at h
    exact Or.inl ⟨loop, h.2 ▸ rfl⟩
  case h_7 n =>
    split at h
    · simp at h
    next hn =>
      simp only [Prod.mk.injEq, Option.some.injEq, Op.reap.injEq] at h
      exact Or.inr ⟨n, h.2 ▸ rfl, hn⟩
  all_goals simp at h

/-- The shell when it has booted. -/
private theorem boot_sound (cr3 : Nat) : Shell.Sound ⟨bootMachine cr3, .prompt⟩ := by
  refine ⟨(boot_invariant cr3).inv, fun _ _ => rfl, fun _ => rfl, ?_, nofun, nofun⟩
  exact .plain rfl rfl

/-- **The commands reap zombies.**  In every run in which the last look of a loop
sees a zombie, and no interrupt switches tasks during a handover, `reap` is
called on zombies only, and never fails. -/
theorem waits_reap_zombies {s : Shell} (h : shellSystem.Run Shell.InTime s) : ReapsZombies s := by
  have hs : s.Sound := by
    refine TransitionSystem.Run.invariant (I := Shell.Sound) ?_ ?_ h
    · rintro _ ⟨cr3, rfl⟩
      exact boot_sound cr3
    · exact fun s e t hs htime hnext => hs.next htime hnext
  refine ⟨?_, fun pid hp => (hs.takes hp).2, fun st hp => ?_⟩
  · rintro pid ⟨-, phase, hnext⟩
    rcases Phase.next_reap hnext with ⟨loop, hphase⟩ | ⟨n, hphase, hn⟩
    · exact hs.seen pid loop hphase
    · exact absurd (hs.last pid n hphase) hn
  · have hself : s.machine.self = shellPid := by
      by_contra hne
      have hpoint := hs.point hne
      rw [hp] at hpoint
      cases hpoint
    refine hs.shell.state st (Or.inr ?_)
    rw [← hself, Machine.at_self, hp]

/-- The command looks at its child. -/
def lookAgain : List ShellEvent := [.returned, .step, .load, .step]

/-- A child is launched with the page table 0x5000. -/
def launchChild : List ShellEvent :=
  .launch ⟨0x5000, 0x400000, 0x9000, 1, [0x5000], 0x8000⟩ :: List.replicate 10 .step

/-- The command looks, yields to the child, and gets the CPU back with the next
interrupt. -/
def fruitlessLook : List ShellEvent :=
  lookAgain ++ .returned :: List.replicate 15 .step ++ [.tick]

/-- The sample shell. -/
def startShell : Shell := ⟨bootMachine 0x1000, .prompt⟩

/-- The child exits when the command yields to it for the first time. -/
theorem sample_waits_reap_zombies : ∃ s,
    shellSystem.execIf Shell.InTime startShell (launchChild ++ lookAgain ++
      .returned :: List.replicate 19 .step ++ .call .exitCurrent :: List.replicate 13 .step ++
        lookAgain ++ [.returned, .step]) = some s ∧
    s.machine.point = .reapTake 2 ∧ ReapsZombies s := by
  have hrun : (shellSystem.execIf Shell.InTime startShell (launchChild ++ lookAgain ++
      .returned :: List.replicate 19 .step ++ .call .exitCurrent :: List.replicate 13 .step ++
        lookAgain ++ [.returned, .step])).map (fun s => s.machine.point) =
          some (.reapTake 2) := by
    decide +kernel
  obtain ⟨s, hs, hpoint⟩ := Option.map_eq_some_iff.mp hrun
  have hboot : shellSystem.Run Shell.InTime startShell := .boot ⟨_, rfl⟩
  exact ⟨s, hs, hpoint, waits_reap_zombies (hboot.execIf hs)⟩

/-- **A live child is reaped.**  A child that does not exit in the time of ten
yields is taken out of the table, and the check of `reap` panics. -/
theorem live_child_reaped : ∃ s, shellSystem.Reach s ∧ ¬ReapsZombies s ∧
    s.machine.point = .reapCheck .runnable ∧ s.machine.step = none := by
  have hrun : (shellSystem.exec startShell (launchChild ++
      (List.replicate 10 fruitlessLook).flatten ++ lookAgain ++
        .returned :: List.replicate 3 .step)).map (fun s => s.machine.point) =
          some (.reapCheck .runnable) := by
    decide +kernel
  obtain ⟨s, hs, hpoint⟩ := Option.map_eq_some_iff.mp hrun
  have hboot : shellSystem.Reach startShell := .boot ⟨_, rfl⟩
  refine ⟨s, hboot.exec hs, fun h => ?_, hpoint, ?_⟩
  · cases h.check .runnable hpoint
  · simp [Machine.step, hpoint]

end Preemption
