import Noxisa.PhysicalMemory
import Noxisa.RunQueue

/-!
# The scheduler

The model of `scheduler/mod.rs` for operations that run to completion: the
table of task control blocks, the run queue, `current`, and the functions that
move a task between them.  The type `κ` of saved contexts is a parameter, so
that the same functions serve register contexts and program points.

A context pointer is named by the pid of the block it points into.  Everything
that is proved about the table goes through `lookup` and the three lemmas
`lookup_adjust`, `lookup_insert` and `lookup_remove`.
-/

namespace Scheduler

/-- `Blocked` is never stored by the source. -/
inductive State
  | runnable
  | running
  | blocked
  | zombie
deriving DecidableEq

/-- `vfs::OpenFile`, without the methods. -/
structure OpenFile where
  path : String
  offset : Nat
  flags : Nat
deriving DecidableEq

/-- A task control block. -/
structure Tcb (κ : Type) where
  pid : Nat
  state : State
  priority : Nat
  ctx : κ
  stackPhys : Nat
  caps : Nat
  uid : Nat
  gid : Nat
  cr3 : Nat
  userEntry : Nat
  userStackTop : Nat
  isolatedTableFrames : Option (List Nat)
  isolatedUserStackPhys : Nat
  cwd : String
  openFiles : List (Option OpenFile)
  args : List String
deriving DecidableEq

/-- `Vec<Option<Box<Tcb>>>`, indexed by pid. -/
abbrev Tasks (κ : Type) := List (Option (Tcb κ))

/-- The registers a switch saves and restores, and the page table root. -/
structure Cpu (κ : Type) where
  ctx : κ
  cr3 : Nat
deriving DecidableEq

/-- `DEFAULT_PRIO` -/
def defaultPrio : Nat := 4

/-- The kernel heap, on which the vectors of the kernel are. -/
def heapSize : Nat := 2 * 1024 * 1024

/-- The capacity of a `Vec` that has grown to `n` elements: it starts at four,
and doubles each time it is full. -/
def vecCapacity (n : Nat) : Nat := if n = 0 then 0 else max 4 (2 ^ ((n - 1).log2 + 1))

/-- An otherwise empty heap can hold a `Vec` grown to `n` elements of the given
size.  When the buffer doubles, the old one is copied from, so both are on the
heap together.  What else there is on the heap is not in the model: this is the
most that it can ever grant. -/
def HeapHolds (size n : Nat) : Prop := size * (vecCapacity n + vecCapacity n / 2) ≤ heapSize

instance (size n : Nat) : Decidable (HeapHolds size n) :=
  inferInstanceAs (Decidable (_ ≤ _))

/-- The size of an `Option<Box<Tcb>>`. -/
def slotSize : Nat := 8

end Scheduler

/-- The state behind `Scheduler::get()`. -/
structure Scheduler (κ : Type) where
  tasks : Scheduler.Tasks κ
  rq : Scheduler.RunQueue
  current : Nat
  nextPid : Nat
deriving DecidableEq

namespace Scheduler

open FrameAllocator MachineWord PhysicalMemory

variable {κ : Type}

/-- `tasks.get(pid).and_then(|s| s.as_deref())` -/
def lookup (ts : Tasks κ) (pid : Nat) : Option (Tcb κ) := ts[pid]?.join

/-- Change a block in place. -/
def adjust (ts : Tasks κ) (pid : Nat) (f : Tcb κ → Tcb κ) : Tasks κ :=
  ts.modify pid (Option.map f)

/-- `resize_with` if the vector is too short, then store the block. -/
def insert (ts : Tasks κ) (pid : Nat) (t : Tcb κ) : Tasks κ :=
  (ts ++ List.replicate (pid + 1 - ts.length) none).set pid (some t)

/-- `take` the slot. -/
def remove (ts : Tasks κ) (pid : Nat) : Tasks κ := ts.set pid none

/-- The scheduler before the first `spawn`. -/
def initial : Scheduler κ := { tasks := [], rq := RunQueue.new, current := 0, nextPid := 1 }

/-- The state of a task is stored. -/
def setState (s : Scheduler κ) (pid : Nat) (st : State) : Scheduler κ :=
  { s with tasks := adjust s.tasks pid (fun t => { t with state := st }) }

/-- The saving half of `context_switch`. -/
def saveCtx (s : Scheduler κ) (pid : Nat) (ctx : κ) : Scheduler κ :=
  { s with tasks := adjust s.tasks pid (fun t => { t with ctx := ctx }) }

/-- A task goes to the end of its queue. -/
def enqueue (s : Scheduler κ) (pid : Nat) (prio : Nat) : Scheduler κ :=
  { s with rq := s.rq.push pid prio }

/-- `next_pid.fetch_add(1) as Nat` -/
def takePid (s : Scheduler κ) : Nat × Scheduler κ :=
  (s.nextPid % 2 ^ 32, { s with nextPid := MachineWord.add s.nextPid 1 })

/-- The block `spawn` builds. -/
def newTcb (pid : Nat) (stackPhys cr3 : Nat) (ctx : κ) : Tcb κ :=
  { pid := pid, state := .runnable, priority := defaultPrio, ctx := ctx
    stackPhys := stackPhys, caps := 0, uid := 1000, gid := 1000, cr3 := cr3
    userEntry := 0, userStackTop := 0, isolatedTableFrames := none
    isolatedUserStackPhys := 0, cwd := "/", openFiles := [], args := [] }

/-- What `spawn_isolated` sets in the block that `spawn` has built. -/
structure Isolation where
  cr3 : Nat
  userEntry : Nat
  userStackTop : Nat
  caps : Nat
  tableFrames : List Nat
  userStackPhys : Nat
deriving DecidableEq

/-- The fields that `spawn_isolated` writes once the task is there. -/
def Isolation.patch (i : Isolation) (t : Tcb κ) : Tcb κ :=
  { t with
    cr3 := i.cr3, userEntry := i.userEntry, userStackTop := i.userStackTop, caps := i.caps
    isolatedTableFrames := some i.tableFrames, isolatedUserStackPhys := i.userStackPhys }

/-- The part of `switch_to` about the outgoing task: a Running task becomes
Runnable and is queued at once; any other is left alone. -/
def demote (s : Scheduler κ) (prev : Nat) : Scheduler κ :=
  match lookup s.tasks prev with
  | some t =>
      if t.state = .running then (s.setState prev .runnable).enqueue prev t.priority else s
  | none => s

/-- How a reschedule ends: nothing was queued, the popped task is the current
one, the popped task has no block, or the registers were swapped. -/
inductive Path
  | idle
  | same
  | lost
  | switched
deriving DecidableEq

/-- `switch_to`.  The context of `next` is read after that of `prev` is saved,
which makes no difference since they are different tasks. -/
def switchTo (s : Scheduler κ) (cpu : Cpu κ) (next : Nat) : Path × Scheduler κ × Cpu κ :=
  let prev := s.current
  let s := { s with current := next }
  if prev = next then (.same, s, cpu)
  else
    let s := if prev ≠ 0 then s.demote prev else s
    match lookup s.tasks next with
    | none => (.lost, s, cpu)
    | some t =>
        let s := s.setState next .running
        let s := if prev ≠ 0 then s.saveCtx prev cpu.ctx else s
        (.switched, s, { ctx := t.ctx, cr3 := t.cr3 })

/-- Pop the run queue, then `switch_to`. -/
def reschedule (s : Scheduler κ) (cpu : Cpu κ) : Path × Scheduler κ × Cpu κ :=
  match s.rq.pop with
  | none => (.idle, s, cpu)
  | some (next, rq) => switchTo { s with rq := rq } cpu next

/-- One round of `run`'s loop. -/
def run (s : Scheduler κ) (cpu : Cpu κ) : Path × Scheduler κ × Cpu κ := reschedule s cpu

/-- `yield_now` -/
def yieldNow (s : Scheduler κ) (cpu : Cpu κ) : Path × Scheduler κ × Cpu κ := reschedule s cpu

/-- `try_preempt` when neither lock is taken; otherwise it does nothing. -/
def tryPreempt (s : Scheduler κ) (cpu : Cpu κ) : Path × Scheduler κ × Cpu κ := reschedule s cpu

/-- `exit_current`.  The registers of the exiting task are not saved. -/
def exitCurrent (s : Scheduler κ) : Outcome Empty (Scheduler κ × Cpu κ) :=
  let s := if s.current ≠ 0 then s.setState s.current .zombie else s
  match s.rq.pop with
  | none => .panic "exit_current: no runnable task left to switch to"
  | some (next, rq) =>
      match lookup s.tasks next with
      | none => .panic "exit_current: next_pid popped from rq has no Tcb"
      | some t =>
          .ok ({ s with rq := rq, current := next }.setState next .running,
            { ctx := t.ctx, cr3 := t.cr3 })

/-- Layout of the context that `context_switch` saves. -/
structure CpuCtx where
  r15 : Nat
  r14 : Nat
  r13 : Nat
  r12 : Nat
  rbp : Nat
  rbx : Nat
  rsp : Nat
  rip : Nat
deriving DecidableEq

/-- What the scheduler's operations read and write. -/
structure Kernel where
  mem : Memory
  sched : Scheduler CpuCtx
  cpu : Cpu CpuCtx

section

variable {ε α : Type}

/-- What is done to the memory. -/
def onMemory (c : Command Memory ε α) : Command Kernel ε α :=
  Command.zoom Kernel.mem (fun m k => { k with mem := m }) c

/-- What is done to the tasks. -/
def onSched (f : Scheduler CpuCtx → Scheduler CpuCtx) : Command Kernel ε Unit :=
  Command.modify (fun k => { k with sched := f k.sched })

/-- Write `entry` as a fake return address below the top of the stack. -/
def initStack (stackTop entry : Nat) : Command Memory ε Nat := do
  let rsp := sub (stackTop / 16 * 16) 8
  Command.modify (fun m => m.writeWord rsp entry)
  return rsp

/-- `tasks[pid] = Some(tcb)`.  To make the vector longer than the heap can ever
hold is the allocation error panic. -/
def storeTcb (pid : Nat) (t : Tcb CpuCtx) : Command Kernel ε Unit := fun k =>
  if k.sched.tasks.length ≤ pid ∧ ¬HeapHolds slotSize (pid + 1) then (.panic "OOM allocating", k)
  else (.ok (), { k with sched := { k.sched with tasks := insert k.sched.tasks pid t } })

/-- `spawn`, less the name. -/
def spawn (entry : Nat) : Command Kernel ε Nat := do
  let pid ← Command.gets (fun k => (takePid k.sched).1)
  onSched (fun s => (takePid s).2)
  let stackPhys ← onMemory (allocContiguousExpect 4 "OOM: kernel thread stack (contiguous)")
  let rsp ← onMemory (initStack (add stackPhys (4 * pageSize)) entry)
  let cr3 ← Command.gets (fun k => k.cpu.cr3)
  storeTcb pid (newTcb pid stackPhys cr3
    { r15 := 0, r14 := 0, r13 := 0, r12 := 0, rbp := 0, rbx := 0, rsp := rsp, rip := entry })
  onSched (fun s => s.enqueue pid defaultPrio)
  return pid

/-- `spawn` with the trampoline as entry, then the patch. -/
def spawnIsolated (trampoline : Nat) (i : Isolation) : Command Kernel ε Nat := do
  let pid ← spawn trampoline
  onSched (fun s => { s with tasks := adjust s.tasks pid i.patch })
  return pid

/-- `teardown_isolated_process`, if the task has tables of its own. -/
def teardown (t : Tcb CpuCtx) : Command Memory ε Unit :=
  match t.isolatedTableFrames with
  | some frames => freeAll (frames ++ [t.isolatedUserStackPhys])
  | none => pure ()

/-- `reap`: the block is taken out before its state is looked at. -/
def reap (pid : Nat) : Command Kernel ε Unit := do
  match ← Command.gets (fun k => lookup k.sched.tasks pid) with
  | none => Command.panic s!"reap: pid {pid} has no Tcb"
  | some t =>
      onSched (fun s => { s with tasks := remove s.tasks pid })
      if t.state ≠ .zombie then
        Command.panic
          s!"reap: pid {pid} is not Zombie - refusing to free a live task's memory"
      onMemory (teardown t)
      onMemory (freeAll ((List.range 4).map (fun i => add t.stackPhys (mul i pageSize))))

end

/-- A vector is as long as it must be. -/
theorem vecCapacity_le {n k : Nat} (hk : 2 ≤ k) (hn : n ≤ 2 ^ k) : vecCapacity n ≤ 2 ^ k := by
  have hfour : 4 ≤ 2 ^ k := Nat.pow_le_pow_right Nat.two_pos hk
  unfold vecCapacity
  split
  · exact Nat.zero_le _
  · refine max_le hfour (Nat.pow_le_pow_right Nat.two_pos ?_)
    by_cases hone : n - 1 = 0
    · rw [hone]
      exact le_trans (by decide) hk
    · exact (Nat.log2_lt hone).mpr (by omega)

/-- Beyond a power of two there is the next one. -/
theorem lt_vecCapacity {n k : Nat} (hn : 2 ^ k < n) : 2 ^ (k + 1) ≤ vecCapacity n := by
  have hpos : 0 < 2 ^ k := Nat.two_pow_pos k
  have hlog : k ≤ (n - 1).log2 := (Nat.le_log2 (by omega)).mpr (by omega)
  rw [vecCapacity, if_neg (by omega)]
  exact le_max_of_le_right (Nat.pow_le_pow_right Nat.two_pos (by omega))

/-- There is no task in an empty table. -/
@[simp] theorem lookup_nil (pid : Nat) : lookup ([] : Tasks κ) pid = none := by
  simp [lookup]

/-- A change in place is seen at its own pid only. -/
theorem lookup_adjust (ts : Tasks κ) (pid x : Nat) (f : Tcb κ → Tcb κ) :
    lookup (adjust ts pid f) x = if x = pid then (lookup ts x).map f else lookup ts x := by
  unfold lookup adjust
  rw [List.getElem?_modify]
  by_cases h : x = pid
  · subst h
    cases hx : ts[x]? with
    | none => simp
    | some o => cases o <;> simp
  · simp [h, Ne.symm h]

/-- A stored block is found, and the other slots are as they were. -/
theorem lookup_insert (ts : Tasks κ) (pid x : Nat) (t : Tcb κ) :
    lookup (insert ts pid t) x = if x = pid then some t else lookup ts x := by
  unfold lookup insert
  rw [List.getElem?_set]
  by_cases h : x = pid
  · subst h
    have hlen : x < ts.length + (x + 1 - ts.length) := by omega
    simp [hlen]
  · simp only [Ne.symm h, if_false, h]
    rw [List.getElem?_append]
    by_cases hlt : x < ts.length
    · simp [hlt]
    · have hnone : ts[x]? = none := List.getElem?_eq_none (by omega)
      simp only [hlt, if_false, hnone, List.getElem?_replicate]
      split <;> rfl

/-- A task that has been taken out is gone, the others are there. -/
theorem lookup_remove (ts : Tasks κ) (pid x : Nat) :
    lookup (remove ts pid) x = if x = pid then none else lookup ts x := by
  unfold lookup remove
  rw [List.getElem?_set]
  by_cases h : x = pid
  · subst h
    by_cases hlt : x < ts.length <;> simp [hlt]
  · simp [h, Ne.symm h]

/-- A change forgets no task. -/
@[simp] theorem length_adjust (ts : Tasks κ) (pid : Nat) (f : Tcb κ → Tcb κ) :
    (adjust ts pid f).length = ts.length := by
  simp [adjust]

/-- The block of the outgoing task after a switch. -/
def outgoing (ctx : κ) (t : Tcb κ) : Tcb κ :=
  { t with state := if t.state = .running then .runnable else t.state, ctx := ctx }

section

variable {s : Scheduler κ} {cpu : Cpu κ} {next : Nat} {t : Tcb κ}

/-- What is demoted does not run by that. -/
theorem demote_current (s : Scheduler κ) (p : Nat) : (s.demote p).current = s.current := by
  unfold demote
  split
  · split <;> rfl
  · rfl

/-- No pid is handed out. -/
theorem demote_nextPid (s : Scheduler κ) (p : Nat) : (s.demote p).nextPid = s.nextPid := by
  unfold demote
  split
  · split <;> rfl
  · rfl

/-- No task is forgotten. -/
theorem demote_length (s : Scheduler κ) (p : Nat) :
    (s.demote p).tasks.length = s.tasks.length := by
  unfold demote
  split
  · split
    · exact length_adjust _ _ _
    · rfl
  · rfl

/-- The queue after a demotion does not depend on who runs. -/
theorem demote_rq (s : Scheduler κ) (c p : Nat) :
    ({ s with current := c }.demote p).rq = (s.demote p).rq := by
  unfold demote
  cases lookup s.tasks p with
  | none => rfl
  | some t => dsimp only; split <;> rfl

/-- A task that was running can be chosen again; everything else stays. -/
theorem demote_lookup (s : Scheduler κ) (p x : Nat) :
    lookup (s.demote p).tasks x =
      if x = p then
        (lookup s.tasks x).map
          (fun t => { t with state := if t.state = .running then .runnable else t.state })
      else lookup s.tasks x := by
  unfold demote
  by_cases hx : x = p
  · subst hx
    cases ht : lookup s.tasks x with
    | none => simp [ht]
    | some t =>
        by_cases hrun : t.state = .running
        · simp [hrun, setState, enqueue, lookup_adjust, ht]
        · simp [hrun, ht]
  · split
    next t ht =>
      by_cases hrun : t.state = .running
      · simp [hrun, setState, enqueue, lookup_adjust, hx]
      · simp [hrun, hx]
    next => simp [hx]

/-- A switch to another task that has a block goes through: the registers are
saved in the outgoing block, which is Running no longer, and taken from the
incoming one, which is. -/
theorem switchTo_switched (hne : s.current ≠ next) (ht : lookup s.tasks next = some t) :
    ∃ s', switchTo s cpu next = (.switched, s', { ctx := t.ctx, cr3 := t.cr3 }) ∧
      s'.current = next ∧ s'.nextPid = s.nextPid ∧ s'.tasks.length = s.tasks.length ∧
      s'.rq = (if s.current ≠ 0 then s.demote s.current else s).rq ∧
      ∀ x, lookup s'.tasks x =
        if x = next then some { t with state := .running }
        else if x = s.current ∧ x ≠ 0 then (lookup s.tasks x).map (outgoing cpu.ctx)
        else lookup s.tasks x := by
  by_cases h0 : s.current = 0
  · refine ⟨{ s with current := next }.setState next .running, ?_, rfl, rfl,
      length_adjust _ _ _, by simp [h0, setState], ?_⟩
    · simp [switchTo, h0, ht, h0 ▸ hne]
    · intro x
      by_cases hx : x = next
      · subst hx
        simp [setState, lookup_adjust, ht]
      · have hcur : ¬(x = s.current ∧ x ≠ 0) := fun h => h.2 (h.1.trans h0)
        simp [setState, lookup_adjust, hx, hcur]
  · have hlook : lookup ({ s with current := next }.demote s.current).tasks next = some t := by
      rw [demote_lookup, if_neg (Ne.symm hne)]
      exact ht
    refine ⟨(({ s with current := next }.demote s.current).setState next .running).saveCtx
      s.current cpu.ctx, ?_, ?_, ?_, ?_, ?_, ?_⟩
    · simp [switchTo, hne, h0, hlook]
    · exact demote_current _ _
    · exact demote_nextPid _ _
    · simp only [saveCtx, setState, length_adjust, demote_length]
    · simpa [saveCtx, setState, h0] using demote_rq s next s.current
    · intro x
      simp only [saveCtx, setState, lookup_adjust, demote_lookup]
      by_cases hx : x = next
      · subst hx
        simp [Ne.symm hne, ht]
      · by_cases hc : x = s.current
        · subst hc
          simp only [if_true, hx, if_false, h0, ne_eq, not_false_eq_true, and_true, Option.map_map]
          rfl
        · simp [hx, hc]

end

end Scheduler
