import Noxisa.Scheduler
import Noxisa.TransitionSystem

/-!
# The scheduler under timer interrupts

One CPU, and a timer interrupt that may come between any two steps of a task.
The steps are those of `yield_now`, `switch_to`, `exit_current`, `spawn`,
`spawn_isolated`, `reap` and the accessors, cut at every access to what the
tasks share: the two locks, `current`, the states and the saved registers.  A
`Point` is where a task's code is, with its local variables.

`irq0_timer` runs with interrupts off, so that the whole of `try_preempt` is
one event; it does nothing if it fails to get a lock.  What it calls is the
`switch_to` of the operations that run to completion.

`self` is the task whose code runs: its registers point into its stack.  The
field `current` of the scheduler is what the scheduler takes it to be.  Two
ghosts say what the code does not: `left` is where the code of a task lost the
CPU last, and an entry point at the trampoline carries what its spawner is
about to store.  What is on the stacks comes in with `Resumption`.  An allocation
succeeds, up to the size of the heap: a fuller heap only has fewer runs.
-/

namespace Preemption

open Scheduler

/-- What the accessors of a task's own block store. -/
inductive Setter
  | caps (caps : Nat)
  | identity (uid gid : Nat)
  | cwd (path : String)
  | args (args : List String)
  | allocFd (file : OpenFile)
  | fdOffset (fd offset : Nat)
  | closeFd (fd : Nat)
deriving DecidableEq

/-- What a setter does to the block of the running task. -/
def Setter.apply {κ : Type} (t : Tcb κ) : Setter → Tcb κ
  | .caps c => { t with caps := c }
  | .identity u g => { t with uid := u, gid := g }
  | .cwd path => { t with cwd := path }
  | .args as => { t with args := as }
  | .allocFd file =>
      match t.openFiles.findIdx? Option.isNone with
      | some slot => { t with openFiles := t.openFiles.set slot (some file) }
      | none => { t with openFiles := t.openFiles ++ [some file] }
  | .fdOffset fd offset =>
      { t with openFiles :=
          t.openFiles.modify fd (Option.map (fun file => { file with offset := offset })) }
  | .closeFd fd => { t with openFiles := t.openFiles.set fd none }

/-- What a new task is to run. -/
inductive Entry
  | thread
  | trampoline (i : Isolation)
deriving DecidableEq

/-- The local variables of `spawn` once it has its pid. -/
structure Birth where
  pid : Nat
  entry : Entry
  cr3 : Nat
deriving DecidableEq

/-- Where the code of a task is: about to do what the name says. -/
inductive Point
  /-- the task's own code, in either ring -/
  | work
  -- `isolated_trampoline` and `current_user_entry_stack`
  | trampoline (i : Isolation)
  | trampolineRead (i : Isolation) (pid : Nat)
  | trampolineUse (i : Isolation) (pid : Nat)
  | trampolineDrop (i : Isolation)
  -- `yield_now`
  | yieldLock
  | yieldPop
  | yieldUnlock (next : Option Nat)
  -- `switch_to`; the null pointer is the pid 0
  | swap (next : Nat)
  | switchRead (prev next : Nat)
  | switchLoad (prev next : Nat)
  | switchStore (prev next prio : Nat)
  | switchLock (prev next prio : Nat)
  | switchPush (prev next prio : Nat)
  | switchUnlock (prev next : Nat)
  | switchPromote (prev next : Nat)
  | switchDrop (prev next : Nat) (cr3 : Option Nat)
  | switchCr3 (prev next cr3 : Nat)
  | switchSave (prev next : Nat)
  | switchRestore (next : Nat)
  -- `exit_current`
  | exitLoad
  | exitRead (pid : Nat)
  | exitZombie (pid : Nat)
  | exitDrop
  | exitLock
  | exitPop
  | exitUnlock (next : Option Nat)
  | exitStore (next : Nat)
  | exitReadNext (next : Nat)
  | exitPromote (next : Nat)
  | exitDropNext (next cr3 : Nat)
  | exitCr3 (next cr3 : Nat)
  | exitRestore (next : Nat)
  -- `spawn`
  | spawnPid (entry : Entry)
  | spawnWrite (b : Birth)
  | spawnStore (b : Birth)
  | spawnDrop (b : Birth)
  | spawnLock (b : Birth)
  | spawnPush (b : Birth)
  | spawnUnlock (b : Birth)
  -- the rest of `spawn_isolated`
  | isolateWrite (pid : Nat) (i : Isolation)
  | isolatePatch (pid : Nat) (i : Isolation)
  | isolateDrop
  -- `reap`
  | reapWrite (pid : Nat)
  | reapTake (pid : Nat)
  | reapDrop (st : State)
  | reapCheck (st : State)
  -- the accessors that read, and those that write
  | getRead
  | getDrop
  | setLoad (f : Setter)
  | setWrite (pid : Nat) (f : Setter)
  | setApply (pid : Nat) (f : Setter)
  | setDrop
deriving DecidableEq

/-- Where a new task begins. -/
def Entry.point : Entry → Point
  | .thread => .work
  | .trampoline i => .trampoline i

/-- The registers of a task: whose stack they point into, and where its code
is. -/
structure Regs where
  owner : Nat
  point : Point
deriving DecidableEq

/-- The scheduler's state with its locks, where the running code is, and where everybody
else has left. -/
structure Machine where
  sched : Scheduler Regs
  self : Nat
  point : Point
  /-- who holds read guards of `tasks` -/
  readers : List Nat
  /-- who holds the write guard of `tasks` -/
  writer : Option Nat
  /-- who holds the guard of `rq` -/
  rqOwner : Option Nat
  cr3 : Nat
  left : Nat → Point

/-- What a task's own code can call. -/
inductive Op
  | yieldNow
  | exitCurrent
  | spawn
  | spawnIsolated (i : Isolation)
  | reap (pid : Nat)
  | get
  | set (f : Setter)

/-- Where a call begins. -/
def Op.point : Op → Point
  | .yieldNow => .yieldLock
  | .exitCurrent => .exitLoad
  | .spawn => .spawnPid .thread
  | .spawnIsolated i => .spawnPid (.trampoline i)
  | .reap pid => .reapWrite pid
  | .get => .getRead
  | .set f => .setLoad f

namespace Machine

/-- The machine one step further, at the point `p`.  A step that waits for a lock
is impossible until the lock is free. -/
def goto (m : Machine) (p : Point) : Machine := { m with point := p }

/-- The code goes on with another state. -/
def withSched (m : Machine) (s : Scheduler Regs) (p : Point) : Machine :=
  { m with sched := s, point := p }

/-- `tasks.read()` -/
def readLock (m : Machine) (p : Point) : Option Machine :=
  if m.writer = none then some { m with readers := m.self :: m.readers, point := p } else none

/-- A readers' lock is given back. -/
def readUnlock (m : Machine) (p : Point) : Machine :=
  { m with readers := m.readers.erase m.self, point := p }

/-- `tasks.write()` -/
def writeLock (m : Machine) (p : Point) : Option Machine :=
  if m.writer = none ∧ m.readers = [] then some { m with writer := some m.self, point := p }
  else none

/-- The writer's lock is. -/
def writeUnlock (m : Machine) (p : Point) : Machine := { m with writer := none, point := p }

/-- `rq.lock()` -/
def rqLock (m : Machine) (p : Point) : Option Machine :=
  if m.rqOwner = none then some { m with rqOwner := some m.self, point := p } else none

/-- The lock of the queue is. -/
def rqUnlock (m : Machine) (p : Point) : Machine := { m with rqOwner := none, point := p }

/-- The saving half of `context_switch`: the registers of the running task, into
the block of `pid`. -/
def save (m : Machine) (pid : Nat) (back next : Point) : Machine :=
  { m with
    sched := m.sched.saveCtx pid ⟨m.self, back⟩
    left := Function.update m.left m.self back
    point := next }

/-- The restoring half. -/
def restore (m : Machine) (regs : Regs) : Machine :=
  { m with self := regs.owner, point := regs.point }

/-- The next step of the running task; `none` if it has to wait, and if it
panics. -/
def step (m : Machine) : Option Machine :=
  match m.point with
  | .work => none
  | .trampoline i => some (m.goto (.trampolineRead i m.sched.current))
  | .trampolineRead i pid => m.readLock (.trampolineUse i pid)
  | .trampolineUse i pid =>
      match lookup m.sched.tasks pid with
      | some _ => some (m.goto (.trampolineDrop i))
      | none => none
  | .trampolineDrop _ => some (m.readUnlock .work)
  | .yieldLock => m.rqLock .yieldPop
  | .yieldPop =>
      match m.sched.rq.pop with
      | some (next, rq) => some (m.withSched { m.sched with rq := rq } (.yieldUnlock (some next)))
      | none => some (m.goto (.yieldUnlock none))
  | .yieldUnlock none => some (m.rqUnlock .work)
  | .yieldUnlock (some next) => some (m.rqUnlock (.swap next))
  | .swap next =>
      let prev := m.sched.current
      let s := { m.sched with current := next }
      if prev = next then some (m.withSched s .work)
      else some (m.withSched s (.switchRead prev next))
  | .switchRead prev next => m.readLock (.switchLoad prev next)
  | .switchLoad prev next =>
      if prev = 0 then some (m.goto (.switchPromote 0 next))
      else
        match lookup m.sched.tasks prev with
        | some t =>
            if t.state = .running then some (m.goto (.switchStore prev next t.priority))
            else some (m.goto (.switchPromote prev next))
        | none => some (m.goto (.switchPromote 0 next))
  | .switchStore prev next prio =>
      some (m.withSched (m.sched.setState prev .runnable) (.switchLock prev next prio))
  | .switchLock prev next prio => m.rqLock (.switchPush prev next prio)
  | .switchPush prev next prio =>
      some (m.withSched (m.sched.enqueue prev prio) (.switchUnlock prev next))
  | .switchUnlock prev next => some (m.rqUnlock (.switchPromote prev next))
  | .switchPromote prev next =>
      match lookup m.sched.tasks next with
      | some t =>
          some (m.withSched (m.sched.setState next .running) (.switchDrop prev next (some t.cr3)))
      | none => some (m.goto (.switchDrop prev next none))
  | .switchDrop _ _ none => some (m.readUnlock .work)
  | .switchDrop prev next (some cr3) => some (m.readUnlock (.switchCr3 prev next cr3))
  | .switchCr3 prev next cr3 => some ({ m with cr3 := cr3 }.goto (.switchSave prev next))
  | .switchSave prev next =>
      if prev = 0 then some (m.goto (.switchRestore next))
      else some (m.save prev .work (.switchRestore next))
  | .switchRestore next => (lookup m.sched.tasks next).map (fun t => m.restore t.ctx)
  | .exitLoad =>
      if m.sched.current ≠ 0 then some (m.goto (.exitRead m.sched.current))
      else some (m.goto .exitLock)
  | .exitRead pid => m.readLock (.exitZombie pid)
  | .exitZombie pid => some (m.withSched (m.sched.setState pid .zombie) .exitDrop)
  | .exitDrop => some (m.readUnlock .exitLock)
  | .exitLock => m.rqLock .exitPop
  | .exitPop =>
      match m.sched.rq.pop with
      | some (next, rq) => some (m.withSched { m.sched with rq := rq } (.exitUnlock (some next)))
      | none => some (m.goto (.exitUnlock none))
  | .exitUnlock none => none
  | .exitUnlock (some next) => some (m.rqUnlock (.exitStore next))
  | .exitStore next => some (m.withSched { m.sched with current := next } (.exitReadNext next))
  | .exitReadNext next => m.readLock (.exitPromote next)
  | .exitPromote next =>
      (lookup m.sched.tasks next).map (fun t =>
        m.withSched (m.sched.setState next .running) (.exitDropNext next t.cr3))
  | .exitDropNext next cr3 => some (m.readUnlock (.exitCr3 next cr3))
  | .exitCr3 next cr3 => some ({ m with cr3 := cr3 }.goto (.exitRestore next))
  | .exitRestore next => (lookup m.sched.tasks next).map (fun t => m.restore t.ctx)
  | .spawnPid entry =>
      let (pid, s) := takePid m.sched
      some (m.withSched s (.spawnWrite ⟨pid, entry, m.cr3⟩))
  | .spawnWrite b => m.writeLock (.spawnStore b)
  | .spawnStore b =>
      if m.sched.tasks.length ≤ b.pid ∧ ¬HeapHolds slotSize (b.pid + 1) then none
      else
        let t := newTcb b.pid 0 b.cr3 ⟨b.pid, b.entry.point⟩
        some { m.withSched { m.sched with tasks := insert m.sched.tasks b.pid t } (.spawnDrop b) with
          left := Function.update m.left b.pid b.entry.point }
  | .spawnDrop b => some (m.writeUnlock (.spawnLock b))
  | .spawnLock b => m.rqLock (.spawnPush b)
  | .spawnPush b => some (m.withSched (m.sched.enqueue b.pid defaultPrio) (.spawnUnlock b))
  | .spawnUnlock b =>
      match b.entry with
      | .thread => some (m.rqUnlock .work)
      | .trampoline i => some (m.rqUnlock (.isolateWrite b.pid i))
  | .isolateWrite pid i => m.writeLock (.isolatePatch pid i)
  | .isolatePatch pid i =>
      some (m.withSched { m.sched with tasks := adjust m.sched.tasks pid i.patch } .isolateDrop)
  | .isolateDrop => some (m.writeUnlock .work)
  | .reapWrite pid => m.writeLock (.reapTake pid)
  | .reapTake pid =>
      (lookup m.sched.tasks pid).map (fun t =>
        m.withSched { m.sched with tasks := remove m.sched.tasks pid } (.reapDrop t.state))
  | .reapDrop st => some (m.writeUnlock (.reapCheck st))
  | .reapCheck st => if st = .zombie then some (m.goto .work) else none
  | .getRead => m.readLock .getDrop
  | .getDrop => some (m.readUnlock .work)
  | .setLoad f => some (m.goto (.setWrite m.sched.current f))
  | .setWrite pid f => m.writeLock (.setApply pid f)
  | .setApply pid f =>
      some (m.withSched
        { m.sched with tasks := adjust m.sched.tasks pid (Setter.apply · f) } .setDrop)
  | .setDrop => some (m.writeUnlock .work)

/-- The registers the timer interrupt finds. -/
def cpu (m : Machine) : Cpu Regs := { ctx := ⟨m.self, m.point⟩, cr3 := m.cr3 }

/-- `irq0_timer`: `try_preempt`, unless a lock is taken. -/
def tick (m : Machine) : Machine :=
  if m.writer = none ∧ m.rqOwner = none then
    let (path, s, cpu) := m.sched.tryPreempt m.cpu
    { m with
      sched := s, self := cpu.ctx.owner, point := cpu.ctx.point, cr3 := cpu.cr3
      left := if path = .switched then Function.update m.left m.self m.point else m.left }
  else m

end Machine

/-- What can happen: a call begins, the code goes a step, or the timer interrupts it. -/
inductive Event
  | call (op : Op)
  | step
  | tick

/-- One event. -/
def Machine.next (m : Machine) : Event → Option Machine
  | .call op => if m.point = .work then some (m.goto op.point) else none
  | .step => m.step
  | .tick => some m.tick

/-- The first task, spawned at boot and switched to by `run`. -/
def bootSched (cr3 : Nat) : Scheduler Regs :=
  let spawned : Scheduler Regs :=
    { (initial : Scheduler Regs) with tasks := insert [] 1 (newTcb 1 0 cr3 ⟨1, .work⟩), nextPid := 2 }
  ((spawned.enqueue 1 defaultPrio).run ⟨⟨0, .work⟩, cr3⟩).2.1

/-- The machine when the shell runs. -/
def bootMachine (cr3 : Nat) : Machine :=
  { sched := bootSched cr3, self := 1, point := .work
    readers := [], writer := none, rqOwner := none, cr3 := cr3, left := fun _ => .work }

/-- Runs under interrupts. -/
def preemption : TransitionSystem Machine Event where
  boot := fun m => ∃ cr3, m = bootMachine cr3
  next := Machine.next

end Preemption
