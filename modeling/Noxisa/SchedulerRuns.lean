import Noxisa.Placement
import Noxisa.TransitionSystem

/-!
# Runs of scheduler operations

Runs of the scheduler in which each operation completes before the next one
begins.  `work` stands for the code in between: it may leave the registers and
the memory in any state.

The invariant `Consistent` is `Placed` with the current task exempt and nothing
held, the current task Running, and the bounds that keep a pid from being
handed out twice: the vector of tasks cannot outgrow the heap, so the counter
never gets to where `as Nat` truncates.
-/

namespace Scheduler

open FrameAllocator MachineWord PhysicalMemory

/-- What the kernel asks of the scheduler, each call as a whole, and anything else it
does with the processor and memory. -/
inductive Op
  | spawn (entry : Nat)
  | run
  | yieldNow
  | tryPreempt
  | exitCurrent
  | reap (pid : Nat)
  | work (cpu : Cpu CpuCtx) (mem : Memory)

/-- The kernel after a reschedule. -/
def Kernel.resume (k : Kernel) (out : Path × Scheduler CpuCtx × Cpu CpuCtx) : Kernel :=
  { k with sched := out.2.1, cpu := out.2.2 }

/-- One operation; `none` if it panics. -/
def Kernel.next (k : Kernel) : Op → Option Kernel
  | .spawn entry =>
      match (spawn entry : Command Kernel Empty Nat) k with
      | (.ok _, k') => some k'
      | _ => none
  | .run => some (k.resume (k.sched.run k.cpu))
  | .yieldNow => some (k.resume (k.sched.yieldNow k.cpu))
  | .tryPreempt => some (k.resume (k.sched.tryPreempt k.cpu))
  | .exitCurrent =>
      match exitCurrent k.sched with
      | .ok (s, cpu) => some { k with sched := s, cpu := cpu }
      | _ => none
  | .reap pid =>
      match (reap pid : Command Kernel Empty Unit) k with
      | (.ok _, k') => some k'
      | _ => none
  | .work cpu mem => some { k with cpu := cpu, mem := mem }

/-- The scheduler from boot on. -/
def schedulerSystem : TransitionSystem Kernel Op where
  boot := fun k => k.sched = initial
  next := Kernel.next

/-- The largest number of slots the vector of tasks can have: the heap cannot
hold the buffer of as many and one of twice as many. -/
def maxTasks : Nat := 2 ^ 17

/-- **There are at most `maxTasks` slots.** -/
theorem heapHolds_iff {n : Nat} : HeapHolds slotSize n ↔ n ≤ maxTasks := by
  have hheap : heapSize = 2097152 := by decide
  have hsize : slotSize = 8 := rfl
  rw [HeapHolds, hsize, hheap, maxTasks]
  constructor
  · intro h
    by_contra hn
    have hcap := lt_vecCapacity (k := 17) (not_le.mp hn)
    omega
  · intro h
    have hcap := vecCapacity_le (k := 17) (by decide) h
    omega

/-- **The invariant** between the calls. -/
structure Consistent {κ : Type} (s : Scheduler κ) : Prop where
  placed : Placed s.current [] s
  running : s.current ≠ 0 → ∃ t, lookup s.tasks s.current = some t ∧ t.state = .running
  zero : lookup s.tasks 0 = none
  fresh : ∀ pid t, lookup s.tasks pid = some t → pid < s.nextPid
  positive : 0 < s.nextPid
  nextPid_le : s.nextPid ≤ maxTasks
  length_le : s.tasks.length ≤ maxTasks

/-- What a `spawn` that returns has done to the scheduler. -/
theorem spawn_ok {ε : Type} {entry : Nat} {k k' : Kernel} {pid : Nat}
    (h : (spawn entry : Command Kernel ε Nat) k = (.ok pid, k')) :
    pid = k.sched.nextPid % 2 ^ 32 ∧
    (k.sched.tasks.length ≤ pid → HeapHolds slotSize (pid + 1)) ∧
    ∃ stackPhys ctx, (k.mem.allocContiguousFrames 4).1 = some stackPhys ∧
      k'.sched = ({ k.sched with
        nextPid := add k.sched.nextPid 1
        tasks := insert k.sched.tasks pid (newTcb pid stackPhys k.cpu.cr3 ctx) } :
          Scheduler CpuCtx).enqueue pid defaultPrio := by
  simp only [spawn, Command.gets_bind, onSched, Command.modify_bind] at h
  obtain ⟨stackPhys, k1, h1, h⟩ := Command.bind_eq_ok.mp h
  obtain ⟨mem1, hstack, rfl⟩ := Command.zoom_eq_ok.mp h1
  have hfirst : (k.mem.allocContiguousFrames 4).1 = some stackPhys := by
    unfold allocContiguousExpect at hstack
    split at hstack
    next a m' heq =>
      obtain ⟨hout, -⟩ := Prod.mk.inj hstack
      rw [heq, Outcome.ok.inj hout]
    next => simp at hstack
  obtain ⟨rsp, k2, h2, h⟩ := Command.bind_eq_ok.mp h
  obtain ⟨mem2, -, rfl⟩ := Command.zoom_eq_ok.mp h2
  rw [Command.gets_bind] at h
  obtain ⟨⟨⟩, k3, h3, h⟩ := Command.bind_eq_ok.mp h
  rw [Command.modify_bind] at h
  obtain ⟨hpid, rfl⟩ := Prod.mk.inj h
  obtain rfl := Outcome.ok.inj hpid
  unfold storeTcb at h3
  split at h3
  next => simp at h3
  next hroom =>
    obtain ⟨-, rfl⟩ := Prod.mk.inj h3
    refine ⟨rfl, ?_, stackPhys, _, hfirst, rfl⟩
    intro hlen
    by_contra hbig
    exact hroom ⟨hlen, hbig⟩

/-- What a `reap` that returns has done to the scheduler. -/
theorem reap_ok {ε : Type} {k k' : Kernel} {pid : Nat}
    (h : (reap pid : Command Kernel ε Unit) k = (.ok (), k')) :
    ∃ t, lookup k.sched.tasks pid = some t ∧ t.state = .zombie ∧
      k'.sched = { k.sched with tasks := remove k.sched.tasks pid } := by
  simp only [reap, Command.gets_bind] at h
  cases ht : lookup k.sched.tasks pid with
  | none => simp [ht] at h
  | some t =>
      simp only [ht, onSched, Command.modify_bind] at h
      by_cases hzombie : t.state = .zombie
      · simp only [hzombie, ne_eq, not_true_eq_false, if_false] at h
        obtain ⟨⟨⟩, k1, h1, h2⟩ := Command.bind_eq_ok.mp h
        obtain ⟨mem1, -, rfl⟩ := Command.zoom_eq_ok.mp h1
        obtain ⟨mem2, -, rfl⟩ := Command.zoom_eq_ok.mp h2
        exact ⟨t, rfl, hzombie, rfl⟩
      · simp only [hzombie, ne_eq, not_false_eq_true, if_true] at h
        obtain ⟨_, _, h1, _⟩ := Command.bind_eq_ok.mp h
        simp at h1

section

variable {κ : Type} {s s' : Scheduler κ} {cpu : Cpu κ}

/-- Where the invariant holds, the running task may be taken off the core. -/
theorem Consistent.canLeave (h : Consistent s) : CanLeave s s.current := by
  intro t ht
  by_cases hzero : s.current = 0
  · rw [hzero, h.zero] at ht
    cases ht
  · obtain ⟨t', ht', hrun⟩ := h.running hzero
    obtain rfl := Option.some.inj (ht'.symm.trans ht)
    exact Or.inl hrun

/-- A hand-over to `next` that adds no block. -/
theorem Consistent.moved {next : Nat} {t : Tcb κ} (h : Consistent s) (hp : Placed next [] s')
    (hcur : s'.current = next) (hpid : s'.nextPid = s.nextPid)
    (hlen : s'.tasks.length = s.tasks.length) (ht : lookup s'.tasks next = some t)
    (hrun : t.state = .running)
    (hold : ∀ x, lookup s.tasks x = none → lookup s'.tasks x = none) : Consistent s' := by
  refine ⟨hcur ▸ hp, fun _ => ⟨t, hcur ▸ ht, hrun⟩, hold 0 h.zero, ?_, hpid ▸ h.positive,
    hpid ▸ h.nextPid_le, hlen ▸ h.length_le⟩
  intro pid u hu
  rw [hpid]
  cases hx : lookup s.tasks pid with
  | none => rw [hold pid hx] at hu; cases hu
  | some v => exact h.fresh pid v hx

/-- **A reschedule keeps the scheduler consistent**, and it finds the block of
the task it has popped. -/
theorem Consistent.reschedule (h : Consistent s) (cpu : Cpu κ) :
    Consistent (Scheduler.reschedule s cpu).2.1 ∧ (Scheduler.reschedule s cpu).1 ≠ .lost := by
  rcases h.placed.reschedule cpu h.zero h.canLeave with
    ⟨heq, -⟩ | ⟨next, s', t, heq, -, ht, hp, hcur, hpid, hlen, hlook⟩
  · rw [heq]
    exact ⟨h, by simp⟩
  · rw [heq]
    refine ⟨h.moved hp hcur hpid hlen ((hlook next).trans (if_pos rfl)) rfl ?_, by simp⟩
    intro x hx
    rw [hlook]
    by_cases hnext : x = next
    · rw [hnext, ht] at hx
      cases hx
    · simp [hnext, hx]

/-- **An exit keeps the scheduler consistent**, and it finds the block of the
task it has popped. -/
theorem Consistent.exitCurrent (h : Consistent s) :
    (∀ s' cpu, Scheduler.exitCurrent s = .ok (s', cpu) → Consistent s') ∧
      Scheduler.exitCurrent s ≠ .panic "exit_current: next_pid popped from rq has no Tcb" := by
  rcases h.placed.exitCurrent h.zero with
    ⟨heq, -⟩ | ⟨next, s', t, heq, -, ht, hp, hcur, hpid, hlen, hlook⟩
  · rw [heq]
    exact ⟨fun _ _ hok => by simp at hok, by simp⟩
  · rw [heq]
    refine ⟨fun u c hok => ?_, by simp⟩
    obtain ⟨rfl, -⟩ := Prod.mk.inj (Outcome.ok.inj hok)
    refine h.moved hp hcur hpid hlen ((hlook next).trans (if_pos rfl)) rfl ?_
    intro x hx
    rw [hlook]
    by_cases hnext : x = next
    · rw [hnext, ht] at hx
      cases hx
    · simp [hnext, hx]

/-- A new task is stored under a pid that no block has had so far, and queued. -/
theorem Consistent.spawn {pid : Nat} {t : Tcb κ} (h : Consistent s)
    (hpid : pid = s.nextPid % 2 ^ 32) (hroom : s.tasks.length ≤ pid → HeapHolds slotSize (pid + 1))
    (hst : t.state = .runnable) (hprio : t.priority = defaultPrio) :
    Consistent (({ s with
      nextPid := add s.nextPid 1
      tasks := insert s.tasks pid t } : Scheduler κ).enqueue pid defaultPrio) := by
  have hmax : maxTasks = 131072 := by decide
  have hle := h.nextPid_le
  have hpos := h.positive
  have heq : pid = s.nextPid := hpid.trans (Nat.mod_eq_of_lt (by omega))
  have hadd : add s.nextPid 1 = s.nextPid + 1 := add_eq (by unfold modulus; omega)
  have hnone : lookup s.tasks pid = none := by
    cases hx : lookup s.tasks pid with
    | none => rfl
    | some v => exact absurd (h.fresh pid v hx) (by omega)
  have hslot : pid < maxTasks := by
    by_cases hin : s.tasks.length ≤ pid
    · exact heapHolds_iff.mp (hroom hin)
    · have := h.length_le
      omega
  have hne : pid ≠ s.current := by
    rintro rfl
    obtain ⟨t', ht', -⟩ := h.running (by omega)
    rw [hnone] at ht'
    cases ht'
  have hheld := h.placed.insert hnone hne hst
  have hqueued := hheld.enqueue (t := t) (by simp [lookup_insert])
  rw [hprio] at hqueued
  refine ⟨hqueued.congr rfl (fun _ _ => rfl), ?_, ?_, ?_, ?_, ?_, ?_⟩
  · intro hzero
    obtain ⟨t', ht', hrun⟩ := h.running hzero
    refine ⟨t', ?_, hrun⟩
    simpa [enqueue, lookup_insert, Ne.symm hne] using ht'
  · have h0 : ¬0 = pid := by omega
    simpa [enqueue, lookup_insert, h0] using h.zero
  · intro x u hu
    simp only [enqueue, lookup_insert] at hu ⊢
    rw [hadd]
    split at hu
    next hx => omega
    next hx =>
      have := h.fresh x u hu
      omega
  · simp only [enqueue, hadd]
    omega
  · simp only [enqueue, hadd]
    omega
  · have hlen := h.length_le
    simp only [enqueue, Scheduler.insert, List.length_set, List.length_append,
      List.length_replicate]
    omega

/-- The slot of a zombie can be taken. -/
theorem Consistent.reap {pid : Nat} {t : Tcb κ} (h : Consistent s)
    (ht : lookup s.tasks pid = some t) (hst : t.state = .zombie) :
    Consistent { s with tasks := remove s.tasks pid } := by
  have hne : s.current ≠ 0 → s.current ≠ pid := by
    rintro hzero rfl
    obtain ⟨t', ht', hrun⟩ := h.running hzero
    obtain rfl := Option.some.inj (ht'.symm.trans ht)
    rw [hst] at hrun
    cases hrun
  refine ⟨h.placed.remove ht hst, ?_, ?_, ?_, h.positive, h.nextPid_le, ?_⟩
  · intro hzero
    obtain ⟨t', ht', hrun⟩ := h.running hzero
    exact ⟨t', by simpa [lookup_remove, hne hzero] using ht', hrun⟩
  · simp [lookup_remove, h.zero]
  · intro x u hu
    simp only [lookup_remove] at hu
    split at hu
    next => cases hu
    next => exact h.fresh x u hu
  · simpa [Scheduler.remove] using h.length_le

/-- A change in place of anything but the state and the priority. -/
theorem Consistent.adjust {pid : Nat} {f : Tcb κ → Tcb κ} (h : Consistent s)
    (hf : ∀ t, (f t).state = t.state ∧ (f t).priority = t.priority) :
    Consistent { s with tasks := Scheduler.adjust s.tasks pid f } := by
  refine ⟨(h.placed.adjust hf).congr rfl (fun _ _ => rfl), ?_, ?_, ?_, h.positive, h.nextPid_le, ?_⟩
  · intro hzero
    obtain ⟨t, ht, hrun⟩ := h.running hzero
    by_cases hcur : s.current = pid
    · exact ⟨f t, by simp [lookup_adjust, hcur, hcur ▸ ht], (hf t).1.trans hrun⟩
    · exact ⟨t, by simpa [lookup_adjust, hcur] using ht, hrun⟩
  · simp [lookup_adjust, h.zero]
  · intro x u hu
    cases hx : lookup s.tasks x with
    | none =>
        simp [lookup_adjust, hx] at hu
    | some v => exact h.fresh x v hx
  · simpa using h.length_le

/-- The scheduler at boot. -/
theorem initial_consistent : Consistent (initial : Scheduler κ) := by
  have hnone : ∀ pid, lookup (initial : Scheduler κ).tasks pid = none := fun _ => lookup_nil _
  have hempty : (initial : Scheduler κ).rq.pids = [] := by
    simp [initial, RunQueue.new, RunQueue.pids]
  refine ⟨⟨?_, ?_, ?_, ?_, ?_⟩, ?_, hnone 0, ?_, Nat.one_pos, ?_, Nat.zero_le _⟩
  · intro i
    simp [initial, RunQueue.new]
  · simp [hempty]
  · simp [hempty]
  · intro i pid _ t ht
    rw [hnone] at ht
    cases ht
  · intro pid t ht
    rw [hnone] at ht
    cases ht
  · exact fun h => absurd rfl h
  · intro pid t ht
    rw [hnone] at ht
    cases ht
  · simp [initial, maxTasks]

end

/-- **One operation keeps the scheduler consistent.** -/
theorem next_consistent {k k' : Kernel} {op : Op} (h : Consistent k.sched)
    (hnext : k.next op = some k') : Consistent k'.sched := by
  cases op with
  | spawn entry =>
      simp only [Kernel.next] at hnext
      split at hnext
      next pid k1 hrun =>
        obtain rfl := Option.some.inj hnext
        obtain ⟨hpid, hroom, stackPhys, ctx, -, heq⟩ := spawn_ok hrun
        rw [heq]
        exact h.spawn hpid hroom rfl rfl
      next => cases hnext
  | run =>
      obtain rfl := Option.some.inj hnext
      exact (h.reschedule _).1
  | yieldNow =>
      obtain rfl := Option.some.inj hnext
      exact (h.reschedule _).1
  | tryPreempt =>
      obtain rfl := Option.some.inj hnext
      exact (h.reschedule _).1
  | exitCurrent =>
      simp only [Kernel.next] at hnext
      split at hnext
      next s cpu hrun =>
        obtain rfl := Option.some.inj hnext
        exact h.exitCurrent.1 s cpu hrun
      next => cases hnext
  | reap pid =>
      simp only [Kernel.next] at hnext
      split at hnext
      next k1 hrun =>
        obtain rfl := Option.some.inj hnext
        obtain ⟨t, ht, hst, heq⟩ := reap_ok hrun
        rw [heq]
        exact h.reap ht hst
      next => cases hnext
  | work cpu mem =>
      obtain rfl := Option.some.inj hnext
      exact h

/-- The scheduler is consistent in every reachable state. -/
theorem reach_consistent {k : Kernel} (hk : schedulerSystem.Reach k) : Consistent k.sched := by
  refine TransitionSystem.Reach.invariant (I := fun k => Consistent k.sched)
    ?_ (fun _ _ _ hs hnext => next_consistent hs hnext) hk
  intro k hboot
  rw [show k.sched = initial from hboot]
  exact initial_consistent

/-- Where the tasks of a scheduler are: the current one is Running and not
queued, every other one is Runnable and queued once, at its own level, or a
zombie and not queued, and every queued pid has a block. -/
structure WellPlaced {κ : Type} (s : Scheduler κ) : Prop where
  current_running : s.current ≠ 0 → ∃ t, lookup s.tasks s.current = some t ∧ t.state = .running
  current_not_queued : s.current ∉ s.rq.pids
  others : ∀ pid t, lookup s.tasks pid = some t → pid ≠ s.current →
    (t.state = .runnable ∧ s.rq.pids.count pid = 1 ∧ pid ∈ s.rq.q (level t.priority)) ∨
    (t.state = .zombie ∧ pid ∉ s.rq.pids)
  queued_has_block : ∀ pid ∈ s.rq.pids, ∃ t, lookup s.tasks pid = some t

/-- The invariant places every task. -/
theorem Consistent.wellPlaced {κ : Type} {s : Scheduler κ} (h : Consistent s) : WellPlaced s := by
  refine ⟨h.running, fun hmem => (h.placed.waiting _ hmem).1 rfl, ?_, ?_⟩
  · intro pid t ht hne
    by_cases hmem : pid ∈ s.rq.pids
    · obtain ⟨-, t', ht', hst⟩ := h.placed.waiting pid hmem
      obtain rfl := Option.some.inj (ht'.symm.trans ht)
      obtain ⟨i, hi⟩ := mem_pids.mp hmem
      have hlevel := h.placed.levels i pid hi t' ht
      exact Or.inl ⟨hst, List.count_eq_one_of_mem h.placed.nodup hmem, hlevel ▸ hi⟩
    · exact Or.inr ⟨(h.placed.placed pid t ht hne).resolve_right hmem, hmem⟩
  · intro pid hmem
    obtain ⟨-, t, ht, -⟩ := h.placed.waiting pid hmem
    exact ⟨t, ht⟩

/-- **Every task is where it should be**, in every state reached by operations
that run to completion.  So no reschedule is lost after it has replaced
`current`, and no exit pops a pid without a block. -/
theorem tasks_well_placed {k : Kernel} (hk : schedulerSystem.Reach k) :
    WellPlaced k.sched ∧
      (k.sched.run k.cpu).1 ≠ .lost ∧
      (k.sched.yieldNow k.cpu).1 ≠ .lost ∧
      (k.sched.tryPreempt k.cpu).1 ≠ .lost ∧
      exitCurrent k.sched ≠ .panic "exit_current: next_pid popped from rq has no Tcb" := by
  have hcons := reach_consistent hk
  have hfound : (reschedule k.sched k.cpu).1 ≠ .lost := (hcons.reschedule k.cpu).2
  exact ⟨hcons.wellPlaced, hfound, hfound, hfound, hcons.exitCurrent.2⟩

/-- One megabyte of frames, nothing spawned. -/
def sampleKernel : Kernel where
  mem := ⟨init (addRegion Pmm.empty 0x400000 0x100000), fun _ => 0, Trace.empty⟩
  sched := initial
  cpu := ⟨⟨0, 0, 0, 0, 0, 0, 0, 0⟩, 0x1000⟩

/-- Two tasks are spawned, the first yields to the second, which exits and is
reaped. -/
theorem sample_tasks_well_placed :
    ∃ k, schedulerSystem.exec sampleKernel
        [.spawn 0x8000, .run, .spawn 0x9000, .yieldNow, .exitCurrent, .reap 2] = some k ∧
      k.sched.current = 1 ∧ k.sched.rq.pids = [] ∧ WellPlaced k.sched := by
  have hrun : (schedulerSystem.exec sampleKernel
      [.spawn 0x8000, .run, .spawn 0x9000, .yieldNow, .exitCurrent, .reap 2]).map
        (fun k => (k.sched.current, k.sched.rq.pids)) = some (1, []) := by
    decide +kernel
  obtain ⟨k, hk, heq⟩ := Option.map_eq_some_iff.mp hrun
  have hreach := TransitionSystem.Reach.exec (TransitionSystem.Run.boot rfl) hk
  exact ⟨k, hk, congrArg Prod.fst heq, congrArg Prod.snd heq, (tasks_well_placed hreach).1⟩

end Scheduler
