import Noxisa.ProcessResources
import Noxisa.ProgramFrames

/-!
# What a task owns, from its spawn to its end

A `Machine` is the kernel together with the frames that others hold.  Its runs
are made of all calls that hand out or take back frames, of the scheduler, and
of whatever the tasks do to registers, memory and their own resources.

In every state the frames of all tasks and those of others are what the
allocator has given away (`Solvent`), and the block of a task lists the same
frames as long as it is there (`Owns`).  So a `reap` frees each frame that its
`spawn_program` was handed once, and no other, and the free count is back at
its value if nothing else was handed out or taken back
(`reap_frees_program_frames`).
-/

namespace Scheduler

open ByteMemory ElfLoader FrameAllocator MachineWord PhysicalMemory RangePool UserPageTable

section

variable {ε : Type} {a : Account} {held : List Nat}

/-- **Freeing a list of held frames** puts each of them on the free list. -/
theorem freeAll_ledger (ht : a.total < modulus) :
    ∀ (frames : List Nat) (m : Memory), Ledger a m.pmm (frames ++ held) →
      ∃ m', (freeAll frames : Command Memory ε Unit) m = (.ok (), m') ∧
        m'.pmm.freeList = frames.reverse ++ m.pmm.freeList ∧ Ledger a m'.pmm held := by
  intro frames
  induction frames with
  | nil => exact fun m h => ⟨m, rfl, rfl, h⟩
  | cons f frames ih =>
      intro m h
      obtain ⟨p, hp, hlist, hrest⟩ := h.freeFrame ht
      obtain ⟨m', hrun, hlist', hledger⟩ := ih { m.zeroFrame f with pmm := p } hrest
      refine ⟨m', ?_, ?_, hledger⟩
      · rw [freeAll, Command.bind_apply, freeFrameOrPanic, Memory.freeFrame, hp]
        exact hrun
      · rw [hlist', hlist, List.reverse_cons, List.append_assoc]
        rfl

/-- Frames of two lists are given back one list after the other. -/
theorem freeAll_append (xs ys : List Nat) (m : Memory) :
    (freeAll (xs ++ ys) : Command Memory ε Unit) m =
      (freeAll xs >>= fun _ => freeAll ys) m := by
  induction xs generalizing m with
  | nil => rfl
  | cons x xs ih =>
      simp only [List.cons_append, freeAll, Command.bind_apply]
      cases freeFrameOrPanic (ε := ε) x m with
      | mk o m' =>
          cases o with
          | ok _ =>
              have hrest := ih m'
              rw [Command.bind_apply] at hrest
              exact hrest
          | err e => rfl
          | panic s => rfl

/-- The frames that `teardown` frees come first in the list. -/
theorem teardown_frames (t : Tcb CpuCtx) : ∃ frames,
    (teardown t : Command Memory ε Unit) = freeAll frames ∧
      t.frames = frames ++ (List.range 4).map (fun i => add t.stackPhys (mul i pageSize)) := by
  unfold teardown Tcb.frames
  cases t.isolatedTableFrames with
  | none => exact ⟨[], rfl, rfl⟩
  | some frames => exact ⟨_, rfl, rfl⟩

/-- `reap` of a zombie, from the freeing of what its block lists. -/
theorem reap_run {k : Kernel} {pid : Nat} {t : Tcb CpuCtx} {m : Memory}
    (ht : lookup k.sched.tasks pid = some t) (hst : t.state = .zombie)
    (hrun : (freeAll t.frames : Command Memory ε Unit) k.mem = (.ok (), m)) :
    (reap pid : Command Kernel ε Unit) k = (.ok (),
      { k with sched := { k.sched with tasks := remove k.sched.tasks pid }, mem := m }) := by
  obtain ⟨frames, hteardown, hframes⟩ := teardown_frames (ε := ε) t
  rw [hframes, freeAll_append, ← hteardown] at hrun
  obtain ⟨⟨⟩, m1, hfirst, hsecond⟩ := Command.bind_eq_ok.mp hrun
  have hzombie : ¬t.state ≠ .zombie := not_not.mpr hst
  simp only [reap, Command.gets_bind, ht, onSched, Command.modify_bind, hzombie, if_false]
  rw [onMemory_bind, hfirst]
  simp only [onMemory, Command.zoom, hsecond]

/-- **`reap` of a zombie** frees the frames that its block lists. -/
theorem reap_ledger {k : Kernel} {pid : Nat} {t : Tcb CpuCtx} (htotal : a.total < modulus)
    (ht : lookup k.sched.tasks pid = some t) (hst : t.state = .zombie)
    (h : Ledger a k.mem.pmm (t.frames ++ held)) :
    ∃ k', (reap pid : Command Kernel ε Unit) k = (.ok (), k') ∧
      k'.mem.pmm.freeList = t.frames.reverse ++ k.mem.pmm.freeList ∧
      Ledger a k'.mem.pmm held ∧
      k'.sched = { k.sched with tasks := remove k.sched.tasks pid } ∧ k'.cpu = k.cpu := by
  obtain ⟨m, hrun, hlist, hledger⟩ := freeAll_ledger (ε := ε) htotal t.frames k.mem h
  exact ⟨_, reap_run ht hst hrun, hlist, hledger, rfl, rfl⟩

end

section

variable {κ : Type} {ts ts' : Tasks κ} {pid : Nat}

/-- What the block of a task lists. -/
def listed (ts : Tasks κ) (pid : Nat) : Option (List Nat) := (lookup ts pid).map Tcb.frames

/-- The frames of the task with a pid, if there is one. -/
def framesAt (ts : Tasks κ) (pid : Nat) : List Nat := (listed ts pid).getD []

/-- The frames of all tasks, in the order of their pids. -/
def taskFrames (ts : Tasks κ) : List Nat :=
  (List.range ts.length).flatMap (framesAt ts)

/-- There are no tasks behind the end of the vector. -/
theorem taskFrames_range (ts : Tasks κ) {n : Nat} (h : ts.length ≤ n) :
    (List.range n).flatMap (framesAt ts) = taskFrames ts := by
  obtain ⟨d, rfl⟩ := Nat.exists_eq_add_of_le h
  have hrest : ((List.range d).map (fun x => ts.length + x)).flatMap (framesAt ts) = [] := by
    rw [List.flatMap_eq_nil_iff]
    intro x hx
    obtain ⟨i, -, rfl⟩ := List.mem_map.mp hx
    simp [framesAt, listed, lookup]
  rw [List.range_add, List.flatMap_append, hrest, List.append_nil, taskFrames]

/-- Tasks with the same frames. -/
theorem taskFrames_congr (h : ∀ x, framesAt ts' x = framesAt ts x) :
    taskFrames ts' = taskFrames ts := by
  rw [← taskFrames_range _ (le_max_left ts'.length ts.length),
    ← taskFrames_range _ (le_max_right ts'.length ts.length)]
  have hsame : framesAt ts' = framesAt ts := funext h
  rw [hsame]

/-- A change at one pid. -/
theorem taskFrames_update (h : ∀ x, x ≠ pid → framesAt ts' x = framesAt ts x) :
    ∃ others, (taskFrames ts).Perm (framesAt ts pid ++ others) ∧
      (taskFrames ts').Perm (framesAt ts' pid ++ others) := by
  generalize hn : max (max ts.length ts'.length) (pid + 1) = n
  have hmem : pid ∈ List.range n := List.mem_range.mpr (by omega)
  have hsplit := List.perm_cons_erase hmem
  have hnd : pid ∉ (List.range n).erase pid := List.nodup_range.not_mem_erase
  refine ⟨((List.range n).erase pid).flatMap (framesAt ts), ?_, ?_⟩
  · rw [← @taskFrames_range _ ts n (by omega)]
    exact hsplit.flatMap_right _
  · rw [← @taskFrames_range _ ts' n (by omega)]
    have hsame : ((List.range n).erase pid).flatMap (framesAt ts) =
        ((List.range n).erase pid).flatMap (framesAt ts') := by
      refine List.flatMap_congr (fun x hx => (h x ?_).symm)
      rintro rfl
      exact hnd hx
    rw [hsame]
    exact hsplit.flatMap_right _

/-- A change of blocks that lists the same frames. -/
private theorem listed_map {f : Tcb κ → Tcb κ} (hf : ∀ t, (f t).frames = t.frames) {x : Nat}
    (h : lookup ts' x = (lookup ts x).map f) : listed ts' x = listed ts x := by
  unfold listed
  rw [h, Option.map_map]
  congr 1
  funext t
  exact hf t

/-- A change that leaves the frames alone leaves the tables alone. -/
theorem listed_adjust {f : Tcb κ → Tcb κ} (hf : ∀ t, (f t).frames = t.frames) (x : Nat) :
    listed (adjust ts pid f) x = listed ts x := by
  by_cases hx : x = pid
  · exact listed_map hf ((lookup_adjust ts pid x f).trans (if_pos hx))
  · unfold listed
    rw [lookup_adjust, if_neg hx]

end

/-- The kernel, and the frames that others than the tasks hold. -/
structure Machine where
  kernel : Kernel
  loose : List Nat

/-- What can happen: the calls of the scheduler, system calls of a task, and the
allocator's for the kernel itself. -/
inductive Act
  | spawn (entry : Nat)
  | spawnProgram (trampoline room : Nat) (elf : Slice) (caps : Nat)
  | run
  | yieldNow
  | tryPreempt
  | exitCurrent
  | reap (pid : Nat)
  | setIdentity (uid gid : Nat)
  | setCwd (path : String)
  | allocFd (of : OpenFile)
  | setFdOffset (fd : Int) (offset : Nat)
  | closeFd (fd : Int)
  | allocFrame
  | allocContiguousFrames (n : Nat)
  | freeFrame (addr : Nat)
  | work (cpu : Cpu CpuCtx) (ram : Mem)

/-- A call starts with the empty trace. -/
def Kernel.fresh (k : Kernel) : Kernel := { k with mem := { k.mem with trace := Trace.empty } }

/-- The machine with another scheduler. -/
def Machine.withSched (s : Machine) (sched : Scheduler CpuCtx) : Machine :=
  { s with kernel := { s.kernel with sched := sched } }

/-- The machine after a reschedule. -/
def Machine.resume (s : Machine) (out : Path × Scheduler CpuCtx × Cpu CpuCtx) : Machine :=
  { s with kernel := s.kernel.resume out }

/-- One step; `none` if it panics.  Nobody gives back what a `spawn_program`
that returns an error has been handed. -/
def Machine.next (s : Machine) : Act → Option Machine
  | .spawn entry =>
      match (Scheduler.spawn entry : Command Kernel Empty Nat) s.kernel.fresh with
      | (.ok _, k) => some { s with kernel := k }
      | _ => none
  | .spawnProgram trampoline room elf caps =>
      match Scheduler.spawnProgram trampoline room elf caps s.kernel.fresh with
      | (.ok _, k) => some { s with kernel := k }
      | (.err _, k) => some { kernel := k, loose := k.mem.trace.taken ++ s.loose }
      | (.panic _, _) => none
  | .run => some (s.resume (s.kernel.sched.run s.kernel.cpu))
  | .yieldNow => some (s.resume (s.kernel.sched.yieldNow s.kernel.cpu))
  | .tryPreempt => some (s.resume (s.kernel.sched.tryPreempt s.kernel.cpu))
  | .exitCurrent =>
      match Scheduler.exitCurrent s.kernel.sched with
      | .ok (sched, cpu) => some { s with kernel := { s.kernel with sched := sched, cpu := cpu } }
      | _ => none
  | .reap pid =>
      match (Scheduler.reap pid : Command Kernel Empty Unit) s.kernel with
      | (.ok _, k) => some { s with kernel := k }
      | _ => none
  | .setIdentity uid gid => some (s.withSched (Scheduler.setIdentity s.kernel.sched uid gid))
  | .setCwd path => some (s.withSched (Scheduler.setCwd s.kernel.sched path))
  | .allocFd of => (Scheduler.allocFd s.kernel.sched of).map (fun out => s.withSched out.2)
  | .setFdOffset fd offset => some (s.withSched (Scheduler.setFdOffset s.kernel.sched fd offset))
  | .closeFd fd => some (s.withSched (Scheduler.closeFd s.kernel.sched fd).2)
  | .allocFrame =>
      let out := s.kernel.mem.allocFrame
      some { kernel := { s.kernel with mem := out.2 }, loose := out.1.toList ++ s.loose }
  | .allocContiguousFrames n =>
      if n ≤ 2 ^ 20 then
        let out := s.kernel.mem.allocContiguousFrames n
        some { kernel := { s.kernel with mem := out.2 }, loose := blockFrames out.1 n ++ s.loose }
      else none
  | .freeFrame addr =>
      if addr ∈ s.loose then
        (s.kernel.mem.freeFrame addr).map (fun m =>
          { kernel := { s.kernel with mem := m }, loose := s.loose.erase addr })
      else none
  | .work cpu ram =>
      some { s with kernel := { s.kernel with cpu := cpu, mem := { s.kernel.mem with ram := ram } } }

/-- Runs of a machine from boot. -/
def lifeSystem {limit : Nat} (map : MemoryMap limit) : TransitionSystem Machine Act where
  boot := fun s => s.kernel.sched = initial ∧ s.kernel.mem.pmm = bootPmm map ∧ s.loose = []
  next := Machine.next

/-- Runs of a machine from a given state. -/
def lifeFrom (s : Machine) : TransitionSystem Machine Act where
  boot := fun s' => s' = s
  next := Machine.next

/-- The frames that the allocator has given away, and not got back. -/
def Machine.held (s : Machine) : List Nat := taskFrames s.kernel.sched.tasks ++ s.loose

/-- The account of the machine over a memory map. -/
def account {limit : Nat} (map : MemoryMap limit) : Account :=
  { limit := limit, total := (bootPmm map).free, starts := map.Starts }

/-- The step hands out no frame and takes none back. -/
def Machine.Still (s : Machine) (act : Act) : Prop :=
  (s.next act).elim True (fun s' => s'.held.Perm s.held)

instance (s : Machine) (act : Act) : Decidable (s.Still act) :=
  match h : s.next act with
  | none => isTrue (by simp [Machine.Still, h])
  | some s' => decidable_of_iff (s'.held.Perm s.held) (by simp [Machine.Still, h])

/-- **Nothing is lost and nothing is held twice.** -/
structure Solvent {limit : Nat} (map : MemoryMap limit) (s : Machine) : Prop where
  ledger : Ledger (account map) s.kernel.mem.pmm s.held
  consistent : Consistent s.kernel.sched

/-- A step that neither hands out nor takes back a frame. -/
structure Moved (s s' : Machine) : Prop where
  pmm_eq : s'.kernel.mem.pmm = s.kernel.mem.pmm
  loose_eq : s'.loose = s.loose
  nextPid_eq : s'.kernel.sched.nextPid = s.kernel.sched.nextPid
  listed_eq : ∀ x, listed s'.kernel.sched.tasks x = listed s.kernel.sched.tasks x
  consistent : Consistent s'.kernel.sched

/-- **A step and the tasks**: what a task lists afterwards it has listed before,
unless it is new. -/
structure Stepped {limit : Nat} (map : MemoryMap limit) (s s' : Machine) : Prop where
  solvent : Solvent map s'
  listed_old : ∀ x frames, listed s'.kernel.sched.tasks x = some frames →
    listed s.kernel.sched.tasks x = some frames ∨ s.kernel.sched.nextPid ≤ x
  nextPid_le : s.kernel.sched.nextPid ≤ s'.kernel.sched.nextPid

section

variable {limit : Nat} {map : MemoryMap limit} {s s' : Machine}

/-- The same frames are held. -/
theorem Moved.held_eq (h : Moved s s') : s'.held = s.held := by
  have hframes : taskFrames s'.kernel.sched.tasks = taskFrames s.kernel.sched.tasks :=
    taskFrames_congr (fun x => congrArg (fun o => o.getD []) (h.listed_eq x))
  rw [Machine.held, hframes, h.loose_eq, Machine.held]

/-- An act that moves no frame keeps the books. -/
theorem Moved.stepped (h : Moved s s') (hs : Solvent map s) : Stepped map s s' := by
  refine ⟨⟨?_, h.consistent⟩, ?_, h.nextPid_eq.ge⟩
  · rw [h.pmm_eq, h.held_eq]
    exact hs.ledger
  · intro x frames hx
    rw [h.listed_eq] at hx
    exact Or.inl hx

/-- What a reschedule leaves alone in all blocks: all but states and registers. -/
theorem reschedule_view {β : Type} {f : Tcb CpuCtx → β}
    (hf : ∀ t st ctx, f { t with state := st, ctx := ctx } = f t) {sched : Scheduler CpuCtx}
    (hs : Consistent sched) (cpu : Cpu CpuCtx) (x : Nat) :
    (lookup (reschedule sched cpu).2.1.tasks x).map f = (lookup sched.tasks x).map f := by
  rcases hs.placed.reschedule cpu hs.zero hs.canLeave with
    ⟨heq, -⟩ | ⟨next, sched', t, heq, -, ht, -, -, -, -, hlook⟩
  · rw [heq]
  · rw [heq]
    change (lookup sched'.tasks x).map f = _
    rw [hlook]
    by_cases hx : x = next
    · subst hx
      rw [if_pos rfl, ht]
      exact congrArg some (hf t .running t.ctx)
    · rw [if_neg hx]
      split
      · rw [Option.map_map]
        congr 1
        funext t
        exact hf t _ cpu.ctx
      · rfl

/-- What an exit leaves alone in all blocks. -/
theorem exitCurrent_view {β : Type} {f : Tcb CpuCtx → β}
    (hf : ∀ t st ctx, f { t with state := st, ctx := ctx } = f t) {sched sched' : Scheduler CpuCtx}
    {cpu : Cpu CpuCtx} (hs : Consistent sched) (hexit : exitCurrent sched = .ok (sched', cpu)) :
    sched'.nextPid = sched.nextPid ∧
      ∀ x, (lookup sched'.tasks x).map f = (lookup sched.tasks x).map f := by
  rcases hs.placed.exitCurrent hs.zero with
    ⟨heq, -⟩ | ⟨next, sched'', t, heq, -, ht, -, -, hpid, -, hlook⟩
  · rw [heq] at hexit
    cases hexit
  · obtain ⟨rfl, -⟩ := Prod.mk.inj (Outcome.ok.inj (heq.symm.trans hexit))
    refine ⟨hpid, fun x => ?_⟩
    rw [hlook]
    by_cases hx : x = next
    · subst hx
      rw [if_pos rfl, ht]
      exact congrArg some (hf t .running t.ctx)
    · rw [if_neg hx]
      split
      · rw [Option.map_map]
        congr 1
        funext t
        exact hf t .zombie t.ctx
      · rfl

/-- A switch hands out no pid. -/
theorem reschedule_nextPid {sched : Scheduler CpuCtx} (hs : Consistent sched) (cpu : Cpu CpuCtx) :
    (reschedule sched cpu).2.1.nextPid = sched.nextPid := by
  rcases hs.placed.reschedule cpu hs.zero hs.canLeave with
    ⟨heq, -⟩ | ⟨next, sched', t, heq, -, -, -, -, hpid, -, -⟩
  · rw [heq]
  · rw [heq]
    exact hpid

/-- A reschedule moves no frames. -/
theorem moved_resume (hs : Consistent s.kernel.sched) :
    Moved s (s.resume (reschedule s.kernel.sched s.kernel.cpu)) :=
  ⟨rfl, rfl, reschedule_nextPid hs _, reschedule_view (fun _ _ _ => rfl) hs _,
    (hs.reschedule s.kernel.cpu).1⟩

/-- An exit moves no frames. -/
theorem moved_exit (hs : Consistent s.kernel.sched) {sched : Scheduler CpuCtx} {cpu : Cpu CpuCtx}
    (hexit : exitCurrent s.kernel.sched = .ok (sched, cpu)) :
    Moved s { s with kernel := { s.kernel with sched := sched, cpu := cpu } } := by
  obtain ⟨hpid, hframes⟩ := exitCurrent_view (f := Tcb.frames) (fun _ _ _ => rfl) hs hexit
  exact ⟨rfl, rfl, hpid, hframes, hs.exitCurrent.1 _ _ hexit⟩

/-- A change of the resources of the current task moves no frames. -/
theorem moved_current (hs : Consistent s.kernel.sched) {f : Tcb CpuCtx → Tcb CpuCtx}
    (hf : ∀ t, (f t).frames = t.frames ∧ (f t).state = t.state ∧ (f t).priority = t.priority) :
    Moved s (s.withSched (adjustCurrent s.kernel.sched f)) :=
  ⟨rfl, rfl, rfl, fun x => listed_adjust (fun t => (hf t).1) x,
    hs.adjust (fun t => (hf t).2)⟩

/-- Nothing happens. -/
theorem moved_refl (hs : Consistent s.kernel.sched) : Moved s s :=
  ⟨rfl, rfl, rfl, fun _ => rfl, hs⟩

/-- A descriptor is allocated. -/
theorem moved_allocFd (hs : Consistent s.kernel.sched) {of : OpenFile} {out : Int × Scheduler CpuCtx}
    (h : Scheduler.allocFd s.kernel.sched of = some out) : Moved s (s.withSched out.2) := by
  unfold Scheduler.allocFd at h
  split at h
  · obtain rfl := Option.some.inj h
    exact moved_refl hs
  · split at h
    · obtain rfl := Option.some.inj h
      exact moved_current hs (fun _ => ⟨rfl, rfl, rfl⟩)
    · split at h
      · cases h
      · obtain rfl := Option.some.inj h
        exact moved_current hs (fun _ => ⟨rfl, rfl, rfl⟩)

/-- An offset is moved. -/
theorem moved_setFdOffset (hs : Consistent s.kernel.sched) (fd : Int) (offset : Nat) :
    Moved s (s.withSched (Scheduler.setFdOffset s.kernel.sched fd offset)) := by
  unfold Scheduler.setFdOffset
  split
  · exact moved_refl hs
  · exact moved_current hs (fun _ => ⟨rfl, rfl, rfl⟩)

/-- A descriptor is closed. -/
theorem moved_closeFd (hs : Consistent s.kernel.sched) (fd : Int) :
    Moved s (s.withSched (Scheduler.closeFd s.kernel.sched fd).2) := by
  unfold Scheduler.closeFd
  split
  · exact moved_refl hs
  · exact moved_current hs (fun _ => ⟨rfl, rfl, rfl⟩)

/-- A slot behind the last pid is empty. -/
theorem framesAt_nextPid {sched : Scheduler CpuCtx} (hs : Consistent sched) :
    framesAt sched.tasks sched.nextPid = [] := by
  cases hx : lookup sched.tasks sched.nextPid with
  | none => simp [framesAt, listed, hx]
  | some t => exact absurd (hs.fresh _ t hx) (Nat.lt_irrefl _)

/-- The frames of all tasks with a new one. -/
theorem inserted_frames {ts ts' : Tasks CpuCtx} {pid : Nat} {t : Tcb CpuCtx}
    (hempty : framesAt ts pid = [])
    (hlook : ∀ x, lookup ts' x = if x = pid then some t else lookup ts x) :
    (taskFrames ts').Perm (t.frames ++ taskFrames ts) := by
  have hother : ∀ x, x ≠ pid → framesAt ts' x = framesAt ts x := by
    intro x hx
    simp only [framesAt, listed, hlook, if_neg hx]
  obtain ⟨others, hold, hnew⟩ := taskFrames_update hother
  have hmine : framesAt ts' pid = t.frames := by
    simp [framesAt, listed, hlook]
  rw [hmine] at hnew
  rw [hempty, List.nil_append] at hold
  exact hnew.trans (hold.symm.append_left _)

/-- A new task adds its frames to those of the others. -/
theorem added_frames (hs : Consistent s.kernel.sched) {pid : Nat} {t : Tcb CpuCtx} {k : Kernel}
    (h : Added (account map) s.held s.kernel.fresh pid t k) :
    (taskFrames k.sched.tasks).Perm (t.frames ++ taskFrames s.kernel.sched.tasks) := by
  have hpid : pid = s.kernel.sched.nextPid := h.pid_eq
  exact inserted_frames (hpid ▸ framesAt_nextPid hs) h.lookup_eq

/-- **A new task** lists what the call was handed. -/
theorem stepped_added (hs : Consistent s.kernel.sched) {pid : Nat} {t : Tcb CpuCtx} {k : Kernel}
    (h : Added (account map) s.held s.kernel.fresh pid t k) :
    Stepped map s { s with kernel := k } := by
  have hlook : ∀ x, lookup k.sched.tasks x =
      if x = pid then some t else lookup s.kernel.sched.tasks x := h.lookup_eq
  have hnext : k.sched.nextPid = s.kernel.sched.nextPid + 1 := h.nextPid_eq
  refine ⟨⟨h.books.perm ?_, h.consistent⟩, ?_, ?_⟩
  · have hsplit := (added_frames hs h).append_right s.loose
    rw [List.append_assoc] at hsplit
    exact (h.taken.append_right _).trans hsplit.symm
  · intro x frames hx
    by_cases heq : x = pid
    · have hpid : pid = s.kernel.sched.nextPid := h.pid_eq
      exact Or.inr (by omega)
    · change listed k.sched.tasks x = _ at hx
      simp only [listed, hlook, if_neg heq] at hx
      exact Or.inl hx
  · change s.kernel.sched.nextPid ≤ k.sched.nextPid
    omega

/-- The books of a call at its start. -/
theorem fresh_books (hs : Solvent map s) : Books (account map) s.held s.kernel.fresh.mem :=
  hs.ledger

/-- The kernel takes frames for itself. -/
theorem stepped_loose {loose : List Nat} {m : Memory} (hs : Solvent map s) (handed : List Nat)
    (h : Ledger (account map) m.pmm (handed ++ s.held)) (hloose : loose.Perm (handed ++ s.loose)) :
    Stepped map s { kernel := { s.kernel with mem := m }, loose := loose } := by
  refine ⟨⟨h.perm ?_, hs.consistent⟩, fun x frames hx => Or.inl hx, Nat.le_refl _⟩
  have hmove : (handed ++ (taskFrames s.kernel.sched.tasks ++ s.loose)).Perm
      (taskFrames s.kernel.sched.tasks ++ (handed ++ s.loose)) := by
    rw [← List.append_assoc, ← List.append_assoc]
    exact List.perm_append_comm.append_right _
  exact hmove.trans (hloose.symm.append_left _)

/-- The frames of all tasks without a zombie. -/
theorem removed_frames (ts : Tasks CpuCtx) {pid : Nat} {t : Tcb CpuCtx}
    (ht : lookup ts pid = some t) : (taskFrames ts).Perm (t.frames ++ taskFrames (remove ts pid)) := by
  have hother : ∀ x, x ≠ pid → framesAt (remove ts pid) x = framesAt ts x := by
    intro x hx
    simp only [framesAt, listed, lookup_remove, if_neg hx]
  obtain ⟨others, hold, hnew⟩ := taskFrames_update hother
  have hmine : framesAt ts pid = t.frames := by
    simp [framesAt, listed, ht]
  have hgone : framesAt (remove ts pid) pid = [] := by
    simp [framesAt, listed, lookup_remove]
  rw [hmine] at hold
  rw [hgone, List.nil_append] at hnew
  exact hold.trans (hnew.symm.append_left _)

/-- The ledger with the frames of one task in front. -/
theorem Solvent.split (hs : Solvent map s) {pid : Nat} {t : Tcb CpuCtx}
    (ht : lookup s.kernel.sched.tasks pid = some t) :
    Ledger (account map) s.kernel.mem.pmm
      (t.frames ++ (taskFrames (remove s.kernel.sched.tasks pid) ++ s.loose)) := by
  refine hs.ledger.perm ?_
  rw [← List.append_assoc]
  exact (removed_frames _ ht).append_right _

/-- **Every step keeps the machine solvent**, and no task lists anything new. -/
theorem next_stepped (hl : limit + 2 ^ 20 * pageSize < modulus) {act : Act} (hs : Solvent map s)
    (hnext : s.next act = some s') : Stepped map s s' := by
  have hone : limit + pageSize < modulus := by
    simp only [pageSize] at hl ⊢
    omega
  have hfour : limit + 4 * pageSize < modulus := by
    simp only [pageSize] at hl ⊢
    omega
  have htotal : (account map).total < modulus :=
    lt_of_le_of_lt (bootPmm_free_le hone map) (by omega)
  cases act with
  | spawn entry =>
      simp only [Machine.next] at hnext
      split at hnext
      next pid k hrun =>
        obtain rfl := Option.some.inj hnext
        obtain ⟨t, hadded⟩ :=
          spawn_added (k := s.kernel.fresh) hfour hs.consistent (fresh_books hs) rfl hrun
        exact stepped_added hs.consistent hadded
      next => cases hnext
  | spawnProgram trampoline room elf caps =>
      simp only [Machine.next] at hnext
      split at hnext
      next pid k hrun =>
        obtain rfl := Option.some.inj hnext
        obtain ⟨t, hadded⟩ := spawnProgram_added (k := s.kernel.fresh) hfour htotal hs.consistent
          (fresh_books hs) rfl hrun
        exact stepped_added hs.consistent hadded
      next e k hrun =>
        obtain rfl := Option.some.inj hnext
        obtain ⟨hbooks, hsched⟩ := spawnProgram_err hfour htotal (fresh_books hs) hrun
        refine ⟨⟨?_, ?_⟩, ?_, ?_⟩
        · have hheld : (Machine.held ⟨k, k.mem.trace.taken ++ s.loose⟩) =
              taskFrames s.kernel.sched.tasks ++ (k.mem.trace.taken ++ s.loose) := by
            rw [Machine.held, hsched]
            rfl
          rw [hheld]
          refine Ledger.perm hbooks ?_
          rw [Machine.held, ← List.append_assoc, ← List.append_assoc]
          exact List.perm_append_comm.append_right _
        · rw [hsched]
          exact hs.consistent
        · intro x frames hx
          rw [hsched] at hx
          exact Or.inl hx
        · rw [hsched]
          exact Nat.le_refl _
      next => cases hnext
  | run =>
      obtain rfl := Option.some.inj hnext
      exact (moved_resume hs.consistent).stepped hs
  | yieldNow =>
      obtain rfl := Option.some.inj hnext
      exact (moved_resume hs.consistent).stepped hs
  | tryPreempt =>
      obtain rfl := Option.some.inj hnext
      exact (moved_resume hs.consistent).stepped hs
  | exitCurrent =>
      simp only [Machine.next] at hnext
      split at hnext
      next sched cpu hexit =>
        obtain rfl := Option.some.inj hnext
        exact (moved_exit hs.consistent hexit).stepped hs
      next => cases hnext
  | reap pid =>
      simp only [Machine.next] at hnext
      split at hnext
      next k hrun =>
        obtain rfl := Option.some.inj hnext
        obtain ⟨t, ht, hst, -⟩ := reap_ok hrun
        obtain ⟨k', hrun', -, hledger, hsched, -⟩ :=
          reap_ledger (ε := Empty) htotal ht hst (hs.split ht)
        obtain ⟨-, rfl⟩ := Prod.mk.inj (hrun.symm.trans hrun')
        refine ⟨⟨?_, ?_⟩, ?_, ?_⟩
        · have hheld : (Machine.held { s with kernel := k }) =
              taskFrames (remove s.kernel.sched.tasks pid) ++ s.loose := by
            rw [Machine.held, hsched]
          rw [hheld]
          exact hledger
        · rw [hsched]
          exact hs.consistent.reap ht hst
        · intro x frames hx
          rw [hsched] at hx
          unfold listed at hx ⊢
          rw [lookup_remove] at hx
          split at hx
          next => cases hx
          next => exact Or.inl hx
        · rw [hsched]
      next => cases hnext
  | setIdentity uid gid =>
      obtain rfl := Option.some.inj hnext
      exact Moved.stepped (moved_current hs.consistent (fun _ => ⟨rfl, rfl, rfl⟩)) hs
  | setCwd path =>
      obtain rfl := Option.some.inj hnext
      exact Moved.stepped (moved_current hs.consistent (fun _ => ⟨rfl, rfl, rfl⟩)) hs
  | allocFd of =>
      obtain ⟨out, hout, rfl⟩ := Option.map_eq_some_iff.mp hnext
      exact (moved_allocFd hs.consistent hout).stepped hs
  | setFdOffset fd offset =>
      obtain rfl := Option.some.inj hnext
      exact (moved_setFdOffset hs.consistent fd offset).stepped hs
  | closeFd fd =>
      obtain rfl := Option.some.inj hnext
      exact (moved_closeFd hs.consistent fd).stepped hs
  | allocFrame =>
      obtain rfl := Option.some.inj hnext
      refine stepped_loose hs (s.kernel.mem.allocFrame.1.toList) ?_ (List.Perm.refl _)
      cases ha : s.kernel.mem.allocFrame with
      | mk o m =>
          cases o with
          | none =>
              obtain ⟨p, hp, rfl⟩ := allocFrame_none ha
              exact hs.ledger.allocFrame hone htotal hp
          | some f =>
              obtain ⟨p, hp, rfl⟩ := allocFrame_some ha
              exact hs.ledger.allocFrame hone htotal hp
  | allocContiguousFrames n =>
      simp only [Machine.next] at hnext
      split at hnext
      next hn =>
        obtain rfl := Option.some.inj hnext
        have hblock : limit + n * pageSize < modulus := by
          have := Nat.mul_le_mul_right pageSize hn
          omega
        refine stepped_loose hs (blockFrames (s.kernel.mem.allocContiguousFrames n).1 n) ?_
          (List.Perm.refl _)
        cases ha : s.kernel.mem.allocContiguousFrames n with
        | mk o m =>
            cases o with
            | none =>
                obtain ⟨p, hp, rfl⟩ := allocContiguousFrames_none ha
                exact hs.ledger.allocContiguousFrames hblock hp
            | some f =>
                obtain ⟨p, hp, rfl⟩ := allocContiguousFrames_some ha
                exact hs.ledger.allocContiguousFrames hblock hp
      next => cases hnext
  | freeFrame addr =>
      simp only [Machine.next] at hnext
      split at hnext
      next hmem =>
        obtain ⟨m, hm, rfl⟩ := Option.map_eq_some_iff.mp hnext
        obtain ⟨p, hp, rfl⟩ := Option.map_eq_some_iff.mp hm
        have hfront : s.held.Perm (addr :: (taskFrames s.kernel.sched.tasks ++ s.loose.erase addr)) :=
          ((List.perm_cons_erase hmem).append_left _).trans List.perm_middle
        obtain ⟨p', hp', -, hledger⟩ := (hs.ledger.perm hfront).freeFrame htotal
        obtain rfl := Option.some.inj (hp'.symm.trans hp)
        exact ⟨⟨hledger, hs.consistent⟩, fun x frames hx => Or.inl hx, Nat.le_refl _⟩
      next => cases hnext
  | work cpu ram =>
      obtain rfl := Option.some.inj hnext
      exact Moved.stepped ⟨rfl, rfl, rfl, fun _ => rfl, hs.consistent⟩ hs

end

section

variable {map : MemoryMap (2 ^ 52)} {s s' : Machine}

/-- **Every reachable state** is solvent. -/
theorem lifeSystem_solvent (h : (lifeSystem map).Reach s) : Solvent map s := by
  refine TransitionSystem.Reach.invariant (I := Solvent map) ?_ ?_ h
  · rintro s ⟨hsched, hpmm, hloose⟩
    have hheld : s.held = [] := by
      rw [Machine.held, hsched, hloose]
      rfl
    refine ⟨⟨?_, ?_⟩, ?_⟩
    · rw [hheld, hpmm]
      exact bootPmm_sound (by decide) (by decide) map
    · rw [hheld, hpmm]
      exact bootPmm_counted (by decide) map
    · rw [hsched]
      exact initial_consistent
  · exact fun s act s' hs hnext => (next_stepped (by decide) hs hnext).solvent

/-- The task with a pid, as long as it is there, lists the same frames. -/
structure Owns (map : MemoryMap (2 ^ 52)) (pid : Nat) (frames : List Nat) (s : Machine) : Prop where
  solvent : Solvent map s
  pid_lt : pid < s.kernel.sched.nextPid
  same : ∀ fs, listed s.kernel.sched.tasks pid = some fs → fs = frames

variable {pid : Nat} {frames : List Nat}

/-- **A block lists the same frames for life.** -/
theorem owns_run (hs : Owns map pid frames s) (h : (lifeFrom s).Reach s') :
    Owns map pid frames s' := by
  refine TransitionSystem.Reach.invariant (I := Owns map pid frames) ?_ ?_ h
  · rintro _ rfl
    exact hs
  · intro s act s' hs hnext
    have hstep := next_stepped (by decide) hs.solvent hnext
    refine ⟨hstep.solvent, hs.pid_lt.trans_le hstep.nextPid_le, fun fs hfs => ?_⟩
    rcases hstep.listed_old pid fs hfs with hold | hnew
    · exact hs.same fs hold
    · exact absurd hs.pid_lt (Nat.not_lt.mpr hnew)

/-- A run without traffic. -/
private theorem still_held (h : (lifeFrom s).Run Machine.Still s') : s'.held.Perm s.held := by
  refine TransitionSystem.Run.invariant (I := fun s' => s'.held.Perm s.held) ?_ ?_ h
  · rintro _ rfl
    exact List.Perm.refl _
  · intro t act t' ht hstill hnext
    have hnext' : t.next act = some t' := hnext
    rw [Machine.Still, hnext'] at hstill
    exact hstill.trans ht

/-- A new program owns what its `spawn_program` was handed. -/
theorem spawnProgram_owns (hs : Solvent map s) {trampoline room caps : Nat} {elf : Slice}
    {k : Kernel} (hspawn : spawnProgram trampoline room elf caps s.kernel.fresh = (.ok pid, k)) :
    ∃ frames, k.mem.trace.taken.Perm frames ∧ Owns map pid frames { s with kernel := k } ∧
      (Machine.held { s with kernel := k }).Perm (frames ++ s.held) := by
  have htotal : (account map).total < modulus :=
    lt_of_le_of_lt (bootPmm_free_le (by decide) map) (by decide)
  obtain ⟨t, hadded⟩ := spawnProgram_added (k := s.kernel.fresh) (by simp only [account]; decide)
    htotal hs.consistent (fresh_books hs) rfl hspawn
  have hmine : listed k.sched.tasks pid = some t.frames := by
    rw [listed, hadded.lookup_eq, if_pos rfl]
    rfl
  refine ⟨t.frames, hadded.taken, ⟨(stepped_added hs.consistent hadded).solvent, ?_, ?_⟩, ?_⟩
  · change pid < k.sched.nextPid
    rw [hadded.pid_eq, hadded.nextPid_eq]
    exact Nat.lt_succ_self _
  · intro fs hfs
    exact Option.some.inj (hfs.symm.trans hmine)
  · rw [Machine.held, Machine.held, ← List.append_assoc]
    exact (added_frames hs.consistent hadded).append_right _

/-- **`reap` frees the frames of the program**, each once and no others.  Over a
memory map with a region to start in, and with no traffic in between, the free
count is what it was before `spawn_program`. -/
theorem reap_frees_program_frames {map : MemoryMap (2 ^ 52)} {s s' : Machine}
    {trampoline room caps pid : Nat} {elf : Slice} {k : Kernel} {t : Tcb CpuCtx}
    (hs : (lifeSystem map).Reach s)
    (hspawn : spawnProgram trampoline room elf caps s.kernel.fresh = (.ok pid, k))
    (hrun : (lifeFrom { s with kernel := k }).Reach s')
    (ht : lookup s'.kernel.sched.tasks pid = some t) (hst : t.state = .zombie) :
    ∃ k', (reap pid : Command Kernel Empty Unit) s'.kernel = (.ok (), k') ∧
      (∃ freed, k'.mem.pmm.freeList = freed ++ s'.kernel.mem.pmm.freeList ∧ freed.Nodup ∧
        freed.Perm k.mem.trace.taken) ∧
      (map.Starts → (lifeFrom { s with kernel := k }).Run Machine.Still s' →
        freeFrames k'.mem.pmm = freeFrames s.kernel.mem.pmm) := by
  have hbefore := lifeSystem_solvent hs
  obtain ⟨frames, htaken, howns, hspawned⟩ := spawnProgram_owns hbefore hspawn
  have hafter := owns_run howns hrun
  have hframes : t.frames = frames := by
    refine hafter.same _ ?_
    rw [listed, ht]
    rfl
  have htotal : (account map).total < modulus :=
    lt_of_le_of_lt (bootPmm_free_le (by decide) map) (by decide)
  have hsplit := hafter.solvent.split ht
  obtain ⟨k', hreap, hlist, hledger, -, -⟩ := reap_ledger (ε := Empty) htotal ht hst hsplit
  rw [hframes] at hlist hsplit
  refine ⟨k', hreap, ⟨frames.reverse, hlist, ?_, (List.reverse_perm _).trans htaken.symm⟩, ?_⟩
  · have hnodup := List.Nodup.of_append_left hsplit.sound.separated.nodup
    exact List.nodup_reverse.mpr (List.Nodup.of_append_left hnodup)
  · intro hstarts hstill
    have hsame := (still_held hstill).trans hspawned
    have hfirst := (hbefore.ledger.counted hstarts).balance
    have hlast := (hledger.counted hstarts).balance
    have hmid := (hsplit.counted hstarts).balance
    have hmid' := (hafter.solvent.ledger.counted hstarts).balance
    have hlen := hsame.length_eq
    rw [List.length_append] at hlen hmid
    change k'.mem.pmm.free = s.kernel.mem.pmm.free
    omega

end

/-- The machine when the scheduler starts, with a whole memory. -/
def bootMachine {limit : Nat} (map : MemoryMap limit) : Machine where
  kernel := ⟨⟨bootPmm map, fun _ => 0, Trace.empty⟩, initial, ⟨⟨0, 0, 0, 0, 0, 0, 0, 0⟩, 0x1000⟩⟩
  loose := []

/-- The shell runs as task 1. -/
def shellMachine {limit : Nat} (map : MemoryMap limit) : Machine :=
  ((lifeSystem map).exec (bootMachine map) [.spawn 0x100, .run]).getD (bootMachine map)

/-- A program is task 2. -/
def programKernel {limit : Nat} (map : MemoryMap limit) : Kernel :=
  (spawnProgram 0x8000 100 goodElf 0 (shellMachine map).kernel.fresh).2

/-- The same with a program spawned. -/
def programMachine {limit : Nat} (map : MemoryMap limit) : Machine :=
  { shellMachine map with kernel := programKernel map }

/-- The program has run, and has exited. -/
def exitedMachine {limit : Nat} (map : MemoryMap limit) : Machine :=
  ((lifeFrom (programMachine map)).execIf Machine.Still (programMachine map)
    [.yieldNow, .exitCurrent]).getD (programMachine map)

/-- An option that holds something. -/
theorem eq_some_getD {α : Type} {o : Option α} (h : o.isSome) (d : α) : o = some (o.getD d) := by
  cases o with
  | none => cases h
  | some a => rfl

/-- One region of a mebibyte. -/
def wideMap : MemoryMap (2 ^ 52) where
  entries := [⟨0x400000, 0x100000⟩]
  ascending := lowMap.ascending
  bounded := by decide

/-- The frames of the program come back, each once, and the free count is what it was
before. -/
theorem sample_reap_frees_program_frames : ∃ k',
    (reap 2 : Command Kernel Empty Unit) (exitedMachine wideMap).kernel = (.ok (), k') ∧
      (∃ freed, k'.mem.pmm.freeList = freed ++ (exitedMachine wideMap).kernel.mem.pmm.freeList ∧
        freed.Nodup ∧ freed.Perm (programKernel wideMap).mem.trace.taken) ∧
      freeFrames k'.mem.pmm = freeFrames (shellMachine wideMap).kernel.mem.pmm := by
  have hreach : (lifeSystem wideMap).Reach (shellMachine wideMap) :=
    TransitionSystem.Reach.exec (TransitionSystem.Run.boot ⟨rfl, rfl, rfl⟩)
      (eq_some_getD (by decide +kernel) (bootMachine wideMap))
  have hok : (spawnProgram 0x8000 100 goodElf 0 (shellMachine wideMap).kernel.fresh).1 = .ok 2 := by
    decide +kernel
  have hspawn : spawnProgram 0x8000 100 goodElf 0 (shellMachine wideMap).kernel.fresh =
      (.ok 2, programKernel wideMap) := Command.eq_of_fst hok
  have hrun : (lifeFrom (programMachine wideMap)).Run Machine.Still (exitedMachine wideMap) :=
    TransitionSystem.Run.execIf (TransitionSystem.Run.boot rfl)
      (eq_some_getD (by decide +kernel) (programMachine wideMap))
  have hstate : (lookup (exitedMachine wideMap).kernel.sched.tasks 2).map Tcb.state =
      some .zombie := by decide +kernel
  obtain ⟨t, ht, hzombie⟩ := Option.map_eq_some_iff.mp hstate
  obtain ⟨k', hreap, hfreed, hcount⟩ := reap_frees_program_frames (k := programKernel wideMap)
    hreach hspawn hrun.reach ht hzombie
  refine ⟨k', hreap, hfreed, hcount ⟨⟨0x400000, 0x500000⟩, by decide +kernel, by decide⟩ hrun⟩

/-- A region that ends half a page above 1 MiB. -/
def edgeMap : MemoryMap (2 ^ 52) where
  entries := [⟨0xF8000, 0x8800⟩]
  ascending := by decide
  bounded := by decide

/-- **The free count can drift.**  `add_region` keeps the whole pages of the
region, `init` finds nothing above 1 MiB to start in, and the counter stops at 0. -/
theorem reap_free_count_drifts : (∃ e ∈ edgeMap.entries, 0x100000 < e.base + e.length) ∧
    (lifeSystem edgeMap).Reach (shellMachine edgeMap) ∧
    spawnProgram 0x8000 100 goodElf 0 (shellMachine edgeMap).kernel.fresh =
      (.ok 2, programKernel edgeMap) ∧
    (lifeFrom (programMachine edgeMap)).Run Machine.Still (exitedMachine edgeMap) ∧
    ∃ k', (reap 2 : Command Kernel Empty Unit) (exitedMachine edgeMap).kernel = (.ok (), k') ∧
      freeFrames k'.mem.pmm ≠ freeFrames (shellMachine edgeMap).kernel.mem.pmm := by
  have hok : (spawnProgram 0x8000 100 goodElf 0 (shellMachine edgeMap).kernel.fresh).1 = .ok 2 := by
    decide +kernel
  have hspawn : spawnProgram 0x8000 100 goodElf 0 (shellMachine edgeMap).kernel.fresh =
      (.ok 2, programKernel edgeMap) := Command.eq_of_fst hok
  have hreap : ((reap 2 : Command Kernel Empty Unit) (exitedMachine edgeMap).kernel).1 = .ok () := by
    decide +kernel
  refine ⟨⟨⟨0xF8000, 0x8800⟩, List.mem_singleton.mpr rfl, by decide⟩, ?_, hspawn, ?_,
    ((reap 2 : Command Kernel Empty Unit) (exitedMachine edgeMap).kernel).2,
    Command.eq_of_fst hreap, ?_⟩
  · exact TransitionSystem.Reach.exec (TransitionSystem.Run.boot ⟨rfl, rfl, rfl⟩)
      (eq_some_getD (by decide +kernel) (bootMachine edgeMap))
  · exact TransitionSystem.Run.execIf (TransitionSystem.Run.boot rfl)
      (eq_some_getD (by decide +kernel) (programMachine edgeMap))
  · decide +kernel

end Scheduler
