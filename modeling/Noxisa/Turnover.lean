import Noxisa.TaskLifetime

/-!
# Tasks that come and go

A stack is a block of four frames, and blocks are only ever bumped.  `reap`
gives the four frames back to the free list, one at a time.  So each `spawn`
uses up one of the stacks that fit behind `next` (`stackRoom`), and nothing
makes room again: however many frames are free, the machine panics at the first
`spawn` without room (`turnover_spawns_iff`).

Turnover uses up the heap as well: pids are never handed out again, so that the
vector of tasks gets longer with each `spawn`, and the free list gets longer
with each `reap`.  The heap is shared with everybody else, and how far it goes
is a parameter (`HeapRoom`).
-/

namespace Scheduler

open FrameAllocator MachineWord PhysicalMemory RangePool

/-- The number of stacks that can still be bumped. -/
def stackRoom (p : Pmm) : Nat := capacity (4 * pageSize) (unbumped p)

/-- The acts of a machine on which tasks are spawned, run, exit and are reaped,
and nobody else asks for frames. -/
def Act.Turnover : Act → Prop
  | .spawnProgram .. => False
  | .allocFrame => False
  | .allocContiguousFrames _ => False
  | _ => True

instance (act : Act) : Decidable act.Turnover :=
  match act with
  | .spawnProgram .. | .allocFrame | .allocContiguousFrames _ => instDecidableFalse
  | .spawn _ | .run | .yieldNow | .tryPreempt | .exitCurrent | .reap _ | .setIdentity _ _
  | .setCwd _ | .allocFd _ | .setFdOffset _ _ | .closeFd _ | .freeFrame _ | .work _ _ =>
      instDecidableTrue

/-- The number of stacks the act asks for. -/
def Act.spawns : Act → Nat
  | .spawn _ => 1
  | _ => 0

/-- How many tasks a list of calls spawns. -/
def spawns (acts : List Act) : Nat := (acts.map Act.spawns).sum

/-- What the heap has room for.  A refused allocation is a panic and ends the
run.  Until then pids go up and a list keeps its capacity, so two numbers say
all that a heap can do to a run. -/
structure HeapRoom where
  /-- the first pid for which it refuses the block or the longer vector -/
  pids : Nat
  /-- the largest capacity that it grants the free list -/
  frees : Nat

/-- The kernel's task numbers and free frames are within the room of its heap. -/
def HeapRoom.Holds (room : HeapRoom) (s : Machine) : Prop :=
  s.kernel.sched.nextPid ≤ room.pids ∧ s.kernel.mem.pmm.freeList.length ≤ room.frees

instance (room : HeapRoom) (s : Machine) : Decidable (room.Holds s) :=
  inferInstanceAs (Decidable (_ ∧ _))

/-- Runs of a machine on such a heap: an act that needs more than it has room
for is the allocation error panic. -/
def heapSystem {limit : Nat} (map : MemoryMap limit) (room : HeapRoom) :
    TransitionSystem Machine Act where
  boot := fun s => (lifeSystem map).boot s ∧ room.Holds s
  next := fun s act => (s.next act).filter (fun s' => room.Holds s')

section

variable {limit : Nat} {p : Pmm}

/-- A stack takes one of the room, and is refused when there is none. -/
private theorem allocContiguousFrames_room (hl : limit + 4 * pageSize < modulus)
    (hb : Bounded limit p) :
    stackRoom p = stackRoom (FrameAllocator.allocContiguousFrames p 4).2 +
      (if (FrameAllocator.allocContiguousFrames p 4).1.isSome then 1 else 0) := by
  obtain ⟨hcarve, -, -⟩ := allocContiguousFrames_carve hl hb
  have hcap := carve_unit_capacity (u := 4 * pageSize) (by decide) (unbumped p)
  rw [← hcarve] at hcap
  exact hcap

/-- There is a stack as long as there is room. -/
theorem allocContiguousFrames_isSome_iff (hl : limit + 4 * pageSize < modulus)
    (hb : Bounded limit p) :
    (FrameAllocator.allocContiguousFrames p 4).1.isSome ↔ 0 < stackRoom p := by
  obtain ⟨hcarve, -, -⟩ := allocContiguousFrames_carve hl hb
  have hunit := carve_unit_isSome_iff (u := 4 * pageSize) (by decide) (unbumped p)
  rw [← hcarve] at hunit
  exact hunit

/-- `alloc_contiguous_frames` of the whole memory is that of its allocator. -/
theorem memory_allocContiguousFrames (m : Memory) (n : Nat) :
    (m.allocContiguousFrames n).1 = (FrameAllocator.allocContiguousFrames m.pmm n).1 ∧
      (m.allocContiguousFrames n).2.pmm = (FrameAllocator.allocContiguousFrames m.pmm n).2 := by
  unfold Memory.allocContiguousFrames
  cases FrameAllocator.allocContiguousFrames m.pmm n with
  | mk o p => cases o <;> exact ⟨rfl, rfl⟩

end

section

variable {ε : Type} {rs : List Range}

/-- Freeing a frame leaves the bump side alone. -/
theorem freeFrameOrPanic_keeps (f : Nat) :
    Command.Keeps (fun m : Memory => unbumped m.pmm = rs) (freeFrameOrPanic (ε := ε) f) := by
  intro m hm
  rw [freeFrameOrPanic, Memory.freeFrame, FrameAllocator.freeFrame]
  by_cases hf : f ∈ m.pmm.freeList
  · rw [if_pos hf]
    exact hm
  · rw [if_neg hf, ← hm]
    exact unbumped_congr rfl rfl rfl

/-- Freeing frames one after another leaves the unbumped part of the regions as it is.
-/
theorem freeAll_keeps (frames : List Nat) :
    Command.Keeps (fun m : Memory => unbumped m.pmm = rs) (freeAll (ε := ε) frames) := by
  induction frames with
  | nil => exact Command.Keeps.pure _
  | cons f frames ih => exact (freeFrameOrPanic_keeps f).bind (fun _ => ih)

/-- A command on the memory keeps of the kernel what it keeps of the memory. -/
theorem onMemory_keeps {α : Type} {I : Memory → Prop} {c : Command Memory ε α}
    (h : Command.Keeps I c) : Command.Keeps (fun k : Kernel => I k.mem) (onMemory c) :=
  fun k hk => h k.mem hk

/-- **`reap` makes no room for a stack.** -/
theorem reap_keeps (pid : Nat) :
    Command.Keeps (fun k : Kernel => unbumped k.mem.pmm = rs) (reap (ε := ε) pid) := by
  intro k hk
  simp only [reap, Command.gets_bind]
  cases lookup k.sched.tasks pid with
  | none => exact hk
  | some t =>
      simp only [onSched, Command.modify_bind]
      by_cases hst : t.state = .zombie
      · obtain ⟨frames, hteardown, -⟩ := teardown_frames (ε := ε) t
        rw [if_neg (not_not.mpr hst), hteardown]
        apply (onMemory_keeps (freeAll_keeps frames)).bind
        · exact fun _ => onMemory_keeps (freeAll_keeps _)
        · exact hk
      · rw [if_pos hst]
        exact hk

end

/-- A command that begins with storing a task: it panics where the slots find no room on
the heap, and goes on with the task stored elsewhere. -/
private theorem storeTcb_bind {ε α : Type} (pid : Nat) (t : Tcb CpuCtx)
    (f : Unit → Command Kernel ε α)
    (k : Kernel) :
    (storeTcb pid t >>= f) k =
      if k.sched.tasks.length ≤ pid ∧ ¬HeapHolds slotSize (pid + 1) then
        (.panic "OOM allocating", k)
      else f () { k with sched := { k.sched with tasks := insert k.sched.tasks pid t } } := by
  rw [Command.bind_apply, storeTcb]
  split_ifs <;> rfl

/-- **How `spawn` ends**: it panics without a stack, it panics without a slot,
or it returns the pid. -/
theorem spawn_outcome {ε : Type} (entry : Nat) (k : Kernel) :
    ((spawn entry : Command Kernel ε Nat) k).1 =
      if (k.mem.allocContiguousFrames 4).1.isSome then
        if k.sched.tasks.length ≤ (takePid k.sched).1 ∧
            ¬HeapHolds slotSize ((takePid k.sched).1 + 1) then .panic "OOM allocating"
        else .ok (takePid k.sched).1
      else .panic "OOM: kernel thread stack (contiguous)" := by
  simp only [spawn, Command.gets_bind, onSched, Command.modify_bind]
  rw [onMemory_bind]
  simp only [allocContiguousExpect]
  cases k.mem.allocContiguousFrames 4 with
  | mk o m =>
      cases o with
      | none => rfl
      | some a =>
          simp only [onMemory_bind, initStack, Command.modify_bind, Command.pure_apply,
            Command.gets_bind, Option.isSome_some, if_true, storeTcb_bind]
          rw [apply_ite Prod.fst]
          rfl

/-- A `spawn` that returns has left the allocator as the block for its stack did. -/
theorem spawn_pmm {ε : Type} {entry pid : Nat} {k k' : Kernel}
    (hrun : (spawn entry : Command Kernel ε Nat) k = (.ok pid, k')) :
    k'.mem.pmm = (FrameAllocator.allocContiguousFrames k.mem.pmm 4).2 ∧
      (FrameAllocator.allocContiguousFrames k.mem.pmm 4).1.isSome := by
  obtain ⟨-, -, stackPhys, -, hfirst, -⟩ := spawn_ok hrun
  have hmem := spawn_mem (ε := ε) entry k
  rw [hrun] at hmem
  obtain ⟨hout, hpmm⟩ := memory_allocContiguousFrames k.mem 4
  refine ⟨?_, by rw [← hout, hfirst]; rfl⟩
  rw [hmem, ← hpmm]
  cases k.mem.allocContiguousFrames 4 with
  | mk o m =>
      cases o with
      | none => rfl
      | some a => exact writeWord_pmm m _ entry

/-- A `spawn` that returns has taken a stack, and no frame of the free list. -/
theorem spawn_room {ε : Type} {limit entry pid : Nat} {k k' : Kernel}
    (hl : limit + 4 * pageSize < modulus) (hb : Bounded limit k.mem.pmm)
    (hrun : (spawn entry : Command Kernel ε Nat) k = (.ok pid, k')) :
    stackRoom k'.mem.pmm + 1 = stackRoom k.mem.pmm ∧
      k'.mem.pmm.freeList = k.mem.pmm.freeList := by
  obtain ⟨hpmm, hsome⟩ := spawn_pmm hrun
  have hroom := allocContiguousFrames_room hl hb
  rw [if_pos hsome] at hroom
  rw [hpmm]
  exact ⟨hroom.symm, (allocContiguousFrames_carve hl hb).2.1⟩

/-- The slots of a consistent scheduler run out at `maxTasks`. -/
theorem Consistent.slot_iff {s : Scheduler CpuCtx} (h : Consistent s) :
    (s.tasks.length ≤ (takePid s).1 ∧ ¬HeapHolds slotSize ((takePid s).1 + 1)) ↔
      maxTasks ≤ s.nextPid := by
  have hpid : (takePid s).1 = s.nextPid := (nextPid_eq h).1
  have hlen := h.length_le
  rw [hpid, heapHolds_iff]
  omega

section

variable {map : MemoryMap (2 ^ 52)} {s s' : Machine}

/-- The scheduler's calls move no frames and take no pid. -/
theorem next_moved {act : Act} (hs : Consistent s.kernel.sched) (hact : act.Turnover)
    (hspawn : ∀ entry, act ≠ .spawn entry) (hreap : ∀ pid, act ≠ .reap pid)
    (hfree : ∀ addr, act ≠ .freeFrame addr) (hnext : s.next act = some s') : Moved s s' := by
  cases act with
  | spawn entry => exact absurd rfl (hspawn entry)
  | reap pid => exact absurd rfl (hreap pid)
  | freeFrame addr => exact absurd rfl (hfree addr)
  | spawnProgram _ _ _ _ => exact hact.elim
  | allocFrame => exact hact.elim
  | allocContiguousFrames _ => exact hact.elim
  | run | yieldNow | tryPreempt =>
      obtain rfl := Option.some.inj hnext
      exact moved_resume hs
  | exitCurrent =>
      simp only [Machine.next] at hnext
      split at hnext
      next sched cpu hexit =>
        obtain rfl := Option.some.inj hnext
        exact moved_exit hs hexit
      next => cases hnext
  | setIdentity _ _ | setCwd _ =>
      obtain rfl := Option.some.inj hnext
      exact moved_current hs (fun _ => ⟨rfl, rfl, rfl⟩)
  | allocFd of =>
      obtain ⟨out, hout, rfl⟩ := Option.map_eq_some_iff.mp hnext
      exact moved_allocFd hs hout
  | setFdOffset fd offset =>
      obtain rfl := Option.some.inj hnext
      exact moved_setFdOffset hs fd offset
  | closeFd fd =>
      obtain rfl := Option.some.inj hnext
      exact moved_closeFd hs fd
  | work cpu ram =>
      obtain rfl := Option.some.inj hnext
      exact ⟨rfl, rfl, rfl, fun _ => rfl, hs⟩

/-- **One act**: a `spawn` takes a stack and a pid, and no act gives one back. -/
theorem turnover_step (act : Act) (hs : Solvent map s) (hact : act.Turnover)
    (hnext : s.next act = some s') :
    stackRoom s'.kernel.mem.pmm + act.spawns = stackRoom s.kernel.mem.pmm ∧
      s'.kernel.sched.nextPid = s.kernel.sched.nextPid + act.spawns := by
  have hfour : 2 ^ 52 + 4 * pageSize < modulus := by decide
  have hquiet : act.spawns = 0 → Moved s s' →
      stackRoom s'.kernel.mem.pmm + act.spawns = stackRoom s.kernel.mem.pmm ∧
        s'.kernel.sched.nextPid = s.kernel.sched.nextPid + act.spawns := by
    intro hzero hmoved
    rw [hzero, hmoved.pmm_eq, hmoved.nextPid_eq]
    exact ⟨rfl, rfl⟩
  cases act with
  | spawn entry =>
      simp only [Machine.next] at hnext
      split at hnext
      next pid k hrun =>
        obtain rfl := Option.some.inj hnext
        obtain ⟨t, hadded⟩ :=
          spawn_added (k := s.kernel.fresh) hfour hs.consistent (fresh_books hs) rfl hrun
        have hroom := spawn_room (k := s.kernel.fresh) hfour hs.ledger.sound.bounded hrun
        exact ⟨hroom.1, hadded.nextPid_eq⟩
      next => cases hnext
  | reap pid =>
      simp only [Machine.next] at hnext
      split at hnext
      next k hrun =>
        obtain rfl := Option.some.inj hnext
        obtain ⟨-, -, -, hsched⟩ := reap_ok hrun
        have hkeeps := (reap_keeps (ε := Empty) pid).of_ok rfl hrun
        refine ⟨?_, ?_⟩
        · exact congrArg (capacity (4 * pageSize)) hkeeps
        · rw [hsched]
          rfl
      next => cases hnext
  | freeFrame addr =>
      simp only [Machine.next] at hnext
      split at hnext
      next hmem =>
        obtain ⟨m, hm, rfl⟩ := Option.map_eq_some_iff.mp hnext
        have hkeeps := freeFrameOrPanic_keeps (ε := Empty) addr s.kernel.mem rfl
        rw [freeFrameOrPanic, hm] at hkeeps
        exact ⟨congrArg (capacity (4 * pageSize)) hkeeps, rfl⟩
      next => cases hnext
  | spawnProgram _ _ _ _ => exact hact.elim
  | allocFrame => exact hact.elim
  | allocContiguousFrames _ => exact hact.elim
  | _ =>
      apply hquiet rfl
      apply next_moved hs.consistent hact _ _ _ hnext <;> intros <;> intro h <;> cases h

/-- A step on the heap is a step that the heap has room for. -/
theorem heap_next {room : HeapRoom} {act : Act} :
    (heapSystem map room).next s act = some s' ↔ s.next act = some s' ∧ room.Holds s' := by
  simp [heapSystem, Option.filter_eq_some_iff]

/-- A run within the heap room is a run of the life system, and ends within the room. -/
theorem heap_reach {room : HeapRoom} (h : (heapSystem map room).Reach s) :
    (lifeSystem map).Reach s ∧ room.Holds s := by
  refine TransitionSystem.Reach.invariant
    (I := fun s => (lifeSystem map).Reach s ∧ room.Holds s) ?_ ?_ h
  · rintro s ⟨hboot, hroom⟩
    exact ⟨TransitionSystem.Run.boot hboot, hroom⟩
  · rintro s act s' ⟨hreach, -⟩ hstep
    obtain ⟨hnext, hroom⟩ := heap_next.mp hstep
    exact ⟨TransitionSystem.Run.step hreach trivial hnext, hroom⟩

/-- **A run**: the room and the pids, by the number of spawns. -/
theorem turnover_run {room : HeapRoom} {acts : List Act} (hs : Solvent map s)
    (hacts : ∀ act ∈ acts, act.Turnover) (hrun : (heapSystem map room).exec s acts = some s') :
    Solvent map s' ∧ stackRoom s'.kernel.mem.pmm + spawns acts = stackRoom s.kernel.mem.pmm ∧
      s'.kernel.sched.nextPid = s.kernel.sched.nextPid + spawns acts := by
  induction acts generalizing s with
  | nil =>
      obtain rfl := Option.some.inj hrun
      exact ⟨hs, rfl, rfl⟩
  | cons act acts ih =>
      obtain ⟨mid, hstep, hrest⟩ := Option.bind_eq_some_iff.mp hrun
      have hnext := (heap_next.mp hstep).1
      have hact := hacts act List.mem_cons_self
      obtain ⟨hroom, hpid⟩ := turnover_step _ hs hact hnext
      have hmid := (next_stepped (by decide) hs hnext).solvent
      obtain ⟨hlast, hroom', hpid'⟩ :=
        ih hmid (fun act' h => hacts act' (List.mem_cons_of_mem act h)) hrest
      have hsum : spawns (act :: acts) = act.spawns + spawns acts := rfl
      refine ⟨hlast, ?_, ?_⟩
      · omega
      · omega

/-- **When a `spawn` returns**: there is a stack, there is a slot, and the heap
has room for the new task. -/
theorem spawn_next_iff {room : HeapRoom} (hs : Solvent map s) (hroom : room.Holds s)
    (entry : Nat) :
    ((heapSystem map room).next s (.spawn entry)).isSome ↔
      0 < stackRoom s.kernel.mem.pmm ∧ s.kernel.sched.nextPid < min maxTasks room.pids := by
  have hfour : 2 ^ 52 + 4 * pageSize < modulus := by decide
  have hstack := allocContiguousFrames_isSome_iff (p := s.kernel.fresh.mem.pmm) hfour
    hs.ledger.sound.bounded
  rw [← (memory_allocContiguousFrames s.kernel.fresh.mem 4).1] at hstack
  have hslot : s.kernel.fresh.sched.tasks.length ≤ (takePid s.kernel.fresh.sched).1 ∧
      ¬HeapHolds slotSize ((takePid s.kernel.fresh.sched).1 + 1) ↔
        maxTasks ≤ s.kernel.sched.nextPid := hs.consistent.slot_iff
  have hout := spawn_outcome (ε := Empty) entry s.kernel.fresh
  simp only [hslot] at hout
  rw [Option.isSome_iff_exists, lt_min_iff]
  constructor
  · rintro ⟨s', hstep⟩
    obtain ⟨hnext, hpids, -⟩ := heap_next.mp hstep
    obtain ⟨hless, hpid⟩ := turnover_step (.spawn entry) hs trivial hnext
    simp only [Machine.next] at hnext
    split at hnext
    next pid k hrun =>
      rw [hrun] at hout
      simp only [Act.spawns] at hless hpid
      split at hout
      · split at hout
        · cases hout
        next hslots => exact ⟨by omega, by omega, by omega⟩
      · cases hout
    next => cases hnext
  · rintro ⟨hpos, hmax, hpids⟩
    rw [if_pos (hstack.mpr hpos), if_neg (by omega)] at hout
    have hrun := Command.eq_of_fst hout
    have hnext : s.next (.spawn entry) =
        some { s with kernel := ((spawn entry : Command Kernel Empty Nat) s.kernel.fresh).2 } := by
      rw [Machine.next, hrun]
    have hpid := (turnover_step (.spawn entry) hs trivial hnext).2
    have hlist := (spawn_room (k := s.kernel.fresh) hfour hs.ledger.sound.bounded hrun).2
    refine ⟨_, heap_next.mpr ⟨hnext, ?_, ?_⟩⟩
    · rw [hpid]
      exact hpids
    · change _ = s.kernel.mem.pmm.freeList at hlist
      rw [hlist]
      exact hroom.2

/-- **When a `reap` returns**: the heap has room for the free list with the
frames of the task. -/
theorem reap_next_iff {room : HeapRoom} (hs : Solvent map s) (hroom : room.Holds s) {pid : Nat}
    {t : Tcb CpuCtx} (ht : lookup s.kernel.sched.tasks pid = some t) (hst : t.state = .zombie) :
    ((heapSystem map room).next s (.reap pid)).isSome ↔
      s.kernel.mem.pmm.freeList.length + t.frames.length ≤ room.frees := by
  have htotal : (account map).total < modulus :=
    lt_of_le_of_lt (bootPmm_free_le (by decide) map) (by decide)
  obtain ⟨k, hrun, hlist, -, hsched, -⟩ := reap_ledger (ε := Empty) htotal ht hst (hs.split ht)
  have hnext : s.next (.reap pid) = some { s with kernel := k } := by rw [Machine.next, hrun]
  have hlen : k.mem.pmm.freeList.length = t.frames.length + s.kernel.mem.pmm.freeList.length := by
    rw [hlist, List.length_append, List.length_reverse]
  rw [Option.isSome_iff_exists]
  constructor
  · rintro ⟨s', hstep⟩
    obtain ⟨hnext', -, hfrees⟩ := heap_next.mp hstep
    obtain rfl := Option.some.inj (hnext.symm.trans hnext')
    change k.mem.pmm.freeList.length ≤ _ at hfrees
    omega
  · intro hfrees
    refine ⟨_, heap_next.mpr ⟨hnext, ?_, ?_⟩⟩
    · change k.sched.nextPid ≤ _
      rw [hsched]
      exact hroom.1
    · change k.mem.pmm.freeList.length ≤ _
      omega

/-- **Spawning goes on as long as the bump side has room.**  After any tasks
have come and gone, the next `spawn` panics for want of a stack exactly when as
many have been spawned as there was room for at the start.  It returns exactly
when there have been fewer, and the vector of tasks has a slot left and the heap
room for it; and the next `reap` returns exactly when the heap has room for the
frames that it puts on the free list. -/
theorem turnover_spawns_iff {map : MemoryMap (2 ^ 52)} {room : HeapRoom} {s s' : Machine}
    {acts : List Act} (hs : (heapSystem map room).Reach s) (hacts : ∀ act ∈ acts, act.Turnover)
    (hrun : (heapSystem map room).exec s acts = some s') (entry : Nat) :
    (((spawn entry : Command Kernel Empty Nat) s'.kernel).1 =
        .panic "OOM: kernel thread stack (contiguous)" ↔
      stackRoom s.kernel.mem.pmm ≤ spawns acts) ∧
    (((heapSystem map room).next s' (.spawn entry)).isSome ↔
      spawns acts < stackRoom s.kernel.mem.pmm ∧
        s.kernel.sched.nextPid + spawns acts < min maxTasks room.pids) ∧
    ∀ pid t, lookup s'.kernel.sched.tasks pid = some t → t.state = .zombie →
      (((heapSystem map room).next s' (.reap pid)).isSome ↔
        s'.kernel.mem.pmm.freeList.length + t.frames.length ≤ room.frees) := by
  obtain ⟨hsolvent, hroom, hpid⟩ := turnover_run (lifeSystem_solvent (heap_reach hs).1) hacts hrun
  have hholds := (heap_reach (TransitionSystem.Reach.exec hs hrun)).2
  refine ⟨?_, ?_, fun pid t ht hst => reap_next_iff hsolvent hholds ht hst⟩
  · have hfour : 2 ^ 52 + 4 * pageSize < modulus := by decide
    have hstack := allocContiguousFrames_isSome_iff hfour hsolvent.ledger.sound.bounded
    rw [← (memory_allocContiguousFrames s'.kernel.mem 4).1] at hstack
    rw [spawn_outcome]
    by_cases hfree : (s'.kernel.mem.allocContiguousFrames 4).1.isSome
    · have hpos := hstack.mp hfree
      rw [if_pos hfree]
      split <;> simp <;> omega
    · have hzero := mt hstack.mpr hfree
      rw [if_neg hfree]
      simp
      omega
  · rw [spawn_next_iff hsolvent hholds]
    omega

end

/-- One region, with room for two stacks. -/
def tightMap : MemoryMap (2 ^ 52) where
  entries := [⟨0x400000, 0x8000⟩]
  ascending := List.pairwise_singleton _ _
  bounded := by decide

/-- A task is spawned, runs, exits and is reaped. -/
def round : List Act := [.spawn 0x200, .yieldNow, .exitCurrent, .reap 2]

/-- A heap with room for a thousand tasks and for as many free frames as there can be. -/
def ampleHeap : HeapRoom := { pids := 1000, frees := 65536 }

/-- The first task runs. -/
def startMachine {limit : Nat} (map : MemoryMap limit) : Machine :=
  ((heapSystem map ampleHeap).exec (bootMachine map) [.spawn 0x100, .run]).getD (bootMachine map)

/-- The machine after one round of the sample calls. -/
def roundMachine {limit : Nat} (map : MemoryMap limit) : Machine :=
  ((heapSystem map ampleHeap).exec (startMachine map) round).getD (startMachine map)

/-- The boot machine is reached within the sample heap room. -/
theorem boot_ample {limit : Nat} (map : MemoryMap limit) (hlist : (bootPmm map).freeList = []) :
    (heapSystem map ampleHeap).Reach (bootMachine map) := by
  refine TransitionSystem.Run.boot ⟨⟨rfl, rfl, rfl⟩, show 1 ≤ 1000 by decide, ?_⟩
  change (bootPmm map).freeList.length ≤ _
  rw [hlist]
  exact Nat.zero_le _

/-- Three reached machines that meet the hypotheses: the turnover theorem at a round of
the sample calls. -/
theorem sample_turnover_spawns :
    (((spawn 0x200 : Command Kernel Empty Nat) (roundMachine wideMap).kernel).1 =
        .panic "OOM: kernel thread stack (contiguous)" ↔
      stackRoom (startMachine wideMap).kernel.mem.pmm ≤ spawns round) ∧
    (((heapSystem wideMap ampleHeap).next (roundMachine wideMap) (.spawn 0x200)).isSome ↔
      spawns round < stackRoom (startMachine wideMap).kernel.mem.pmm ∧
        (startMachine wideMap).kernel.sched.nextPid + spawns round <
          min maxTasks ampleHeap.pids) ∧
    ∀ pid t, lookup (roundMachine wideMap).kernel.sched.tasks pid = some t → t.state = .zombie →
      (((heapSystem wideMap ampleHeap).next (roundMachine wideMap) (.reap pid)).isSome ↔
        (roundMachine wideMap).kernel.mem.pmm.freeList.length + t.frames.length ≤
          ampleHeap.frees) := by
  have hstart : (heapSystem wideMap ampleHeap).exec (bootMachine wideMap) [.spawn 0x100, .run] =
      some (startMachine wideMap) := eq_some_getD (by decide +kernel) (bootMachine wideMap)
  have hround : (heapSystem wideMap ampleHeap).exec (startMachine wideMap) round =
      some (roundMachine wideMap) := eq_some_getD (by decide +kernel) (startMachine wideMap)
  exact turnover_spawns_iff
    (TransitionSystem.Reach.exec (boot_ample wideMap (by decide +kernel)) hstart)
    (by decide) hround 0x200

/-- **One round is too many**, with ample room on the heap.  The stack of the
first task is back, as four free frames, and the second task gets none. -/
theorem turnover_stops : (heapSystem tightMap ampleHeap).Reach (startMachine tightMap) ∧
    ((heapSystem tightMap ampleHeap).next (startMachine tightMap) (.spawn 0x200)).isSome ∧
    (heapSystem tightMap ampleHeap).exec (startMachine tightMap) round =
      some (roundMachine tightMap) ∧
    (roundMachine tightMap).kernel.mem.pmm.freeList.length = 4 ∧
    ((spawn 0x200 : Command Kernel Empty Nat) (roundMachine tightMap).kernel).1 =
      .panic "OOM: kernel thread stack (contiguous)" := by
  have hstart : (heapSystem tightMap ampleHeap).exec (bootMachine tightMap) [.spawn 0x100, .run] =
      some (startMachine tightMap) := eq_some_getD (by decide +kernel) (bootMachine tightMap)
  refine ⟨?_, ?_, ?_, ?_, ?_⟩
  · exact TransitionSystem.Reach.exec (boot_ample tightMap (by decide +kernel)) hstart
  · decide +kernel
  · exact eq_some_getD (by decide +kernel) (startMachine tightMap)
  · decide +kernel
  · decide +kernel

end Scheduler
