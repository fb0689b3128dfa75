import Noxisa.TaskLifetime

/-!
# Tasks do not see each other's resources

The accessors load `current` first and access the block of that pid in a second
step, under the lock of the table.  A `World` is a machine together with the call
that each task is in the middle of; every act of the machine, a context switch
among them, may come between the two steps.

`Resources` is what a task owns on its own, and `Resources.call` what an accessor
would do to it if there were no other task.  `run_resources` says that the
accessors of the scheduler do just that to the block of the current task.  What
each task has been told and what it owns is what `Resources.call` says of its own
calls alone (`tasks_isolated`).
-/

namespace Scheduler

open FrameAllocator MachineWord

/-- The accessors of a task's own block. -/
inductive Access
  | caps
  | setCaps (caps : Nat)
  | uid
  | gid
  | setIdentity (uid gid : Nat)
  | cwd
  | setCwd (path : String)
  | args
  | setArgs (args : List String)
  | allocFd (of : OpenFile)
  | fdInfo (fd : Int)
  | setFdOffset (fd : Int) (offset : Nat)
  | closeFd (fd : Int)
  | openFdCount
deriving DecidableEq

/-- What an accessor returns. -/
inductive Reply
  | done
  | number (n : Nat)
  | path (path : String)
  | args (args : List String)
  | fd (fd : Int)
  | file (of : Option OpenFile)
  | closed (closed : Bool)
deriving DecidableEq

section

variable {κ : Type}

/-- One accessor, called by the current task; `none` if it panics. -/
def Access.run (s : Scheduler κ) : Access → Option (Reply × Scheduler κ)
  | .caps => some (.number (Scheduler.caps s), s)
  | .setCaps c => some (.done, Scheduler.setCaps s c)
  | .uid => some (.number (Scheduler.uid s), s)
  | .gid => some (.number (Scheduler.gid s), s)
  | .setIdentity u g => some (.done, Scheduler.setIdentity s u g)
  | .cwd => some (.path (Scheduler.cwd s), s)
  | .setCwd path => some (.done, Scheduler.setCwd s path)
  | .args => some (.args (Scheduler.args s), s)
  | .setArgs as => some (.done, Scheduler.setArgs s as)
  | .allocFd of => (Scheduler.allocFd s of).map (fun out => (.fd out.1, out.2))
  | .fdInfo fd => some (.file (Scheduler.fdInfo s fd), s)
  | .setFdOffset fd offset => some (.done, Scheduler.setFdOffset s fd offset)
  | .closeFd fd => some (.closed (Scheduler.closeFd s fd).1, (Scheduler.closeFd s fd).2)
  | .openFdCount => some (.number (Scheduler.openFdCount s), s)

/-- The second step of an accessor, whoever is current by then: it works with the
pid that it has loaded. -/
def Access.runAs (s : Scheduler κ) (pid : Nat) (a : Access) : Option (Reply × Scheduler κ) :=
  (a.run { s with current := pid }).map (fun out => (out.1, { out.2 with current := s.current }))

/-- Calls one after another, by the current task. -/
def alone (s : Scheduler κ) : List Access → Option (List Reply × Scheduler κ)
  | [] => some ([], s)
  | a :: as =>
      (a.run s).bind (fun out =>
        (alone out.2 as).map (fun rest => (out.1 :: rest.1, rest.2)))

/-- What a process has of its own. -/
structure Resources where
  caps : Nat
  uid : Nat
  gid : Nat
  cwd : String
  args : List String
  openFiles : List (Option OpenFile)
deriving DecidableEq

/-- The resources in its block. -/
def Tcb.resources (t : Tcb κ) : Resources :=
  { caps := t.caps, uid := t.uid, gid := t.gid, cwd := t.cwd, args := t.args
    openFiles := t.openFiles }

/-- The block with other resources. -/
def Tcb.withResources (r : Resources) (t : Tcb κ) : Tcb κ :=
  { t with
    caps := r.caps, uid := r.uid, gid := r.gid, cwd := r.cwd, args := r.args
    openFiles := r.openFiles }

/-- The open file behind a descriptor. -/
def Resources.file (r : Resources) (fd : Int) : Option OpenFile :=
  if fd < 0 then none else r.openFiles[fd.toNat]?.join

/-- What an accessor does to the resources of a task that is on its own. -/
def Resources.call (r : Resources) : Access → Option (Reply × Resources)
  | .caps => some (.number r.caps, r)
  | .setCaps caps => some (.done, { r with caps := caps })
  | .uid => some (.number r.uid, r)
  | .gid => some (.number r.gid, r)
  | .setIdentity uid gid => some (.done, { r with uid := uid, gid := gid })
  | .cwd => some (.path r.cwd, r)
  | .setCwd path => some (.done, { r with cwd := path })
  | .args => some (.args r.args, r)
  | .setArgs args => some (.done, { r with args := args })
  | .allocFd of =>
      match r.openFiles.findIdx? Option.isNone with
      | some slot => some (.fd slot, { r with openFiles := r.openFiles.set slot (some of) })
      | none =>
          if ¬HeapHolds openFileSize (r.openFiles.length + 1) then none
          else some (.fd r.openFiles.length, { r with openFiles := r.openFiles ++ [some of] })
  | .fdInfo fd => some (.file (r.file fd), r)
  | .setFdOffset fd offset =>
      if fd < 0 then some (.done, r)
      else some (.done, { r with
        openFiles :=
          r.openFiles.modify fd.toNat (Option.map (fun of => { of with offset := offset })) })
  | .closeFd fd =>
      match r.file fd with
      | none => some (.closed false, r)
      | some _ => some (.closed true, { r with openFiles := r.openFiles.set fd.toNat none })
  | .openFdCount => some (.number (r.openFiles.countP Option.isSome), r)

/-- With its own resources it is what it was. -/
@[simp] theorem withResources_resources (t : Tcb κ) : t.withResources t.resources = t := rfl

/-- Two changes that agree on the current block. -/
theorem adjustCurrent_congr {s : Scheduler κ} {t : Tcb κ} (ht : currentTcb s = some t)
    {f g : Tcb κ → Tcb κ} (h : f t = g t) : adjustCurrent s f = adjustCurrent s g := by
  have htasks : adjust s.tasks s.current f = adjust s.tasks s.current g := by
    apply List.ext_getElem?
    intro i
    unfold adjust
    rw [List.getElem?_modify, List.getElem?_modify]
    by_cases hi : s.current = i
    · subst hi
      unfold currentTcb lookup at ht
      cases hslot : s.tasks[s.current]? with
      | none => rfl
      | some slot =>
          rw [hslot] at ht
          obtain rfl : slot = some t := ht
          simp [h]
    · simp [hi]
  rw [adjustCurrent, adjustCurrent, htasks]

/-- A change that is none. -/
theorem adjustCurrent_self {s : Scheduler κ} {f : Tcb κ → Tcb κ}
    (h : ∀ t, currentTcb s = some t → f t = t) : adjustCurrent s f = s := by
  have htasks : adjust s.tasks s.current f = s.tasks := by
    apply List.ext_getElem?
    intro i
    unfold adjust
    rw [List.getElem?_modify]
    by_cases hi : s.current = i
    · subst hi
      cases hslot : s.tasks[s.current]? with
      | none => rfl
      | some slot =>
          cases slot with
          | none => simp
          | some t =>
              have ht : currentTcb s = some t := by
                rw [currentTcb, lookup, hslot]
                rfl
              simp [h t ht]
    · simp [hi]
  rw [adjustCurrent, htasks]

/-- **The accessors of the current task** do to its block what they would do to a
task on its own, and nothing else. -/
theorem run_resources {s : Scheduler κ} {t : Tcb κ} (ht : currentTcb s = some t) (a : Access) :
    a.run s = (t.resources.call a).map (fun out =>
      (out.1, adjustCurrent s (Tcb.withResources out.2))) := by
  have hsame : adjustCurrent s (Tcb.withResources t.resources) = s := by
    apply adjustCurrent_self
    intro t' ht'
    obtain rfl := Option.some.inj (ht.symm.trans ht')
    exact withResources_resources t
  have hfile : ∀ fd, fdInfo s fd = t.resources.file fd := by
    intro fd
    have htcb : lookup s.tasks s.current = some t := ht
    rw [fdInfo, fileAt, htcb]
    rfl
  cases a with
  | caps =>
      rw [Resources.call, Option.map_some, hsame, Access.run, caps, ht]
      rfl
  | uid =>
      rw [Resources.call, Option.map_some, hsame, Access.run, uid, ht]
      rfl
  | gid =>
      rw [Resources.call, Option.map_some, hsame, Access.run, gid, ht]
      rfl
  | cwd =>
      rw [Resources.call, Option.map_some, hsame, Access.run, cwd, ht]
      rfl
  | args =>
      rw [Resources.call, Option.map_some, hsame, Access.run, args, ht]
      rfl
  | openFdCount =>
      rw [Resources.call, Option.map_some, hsame, Access.run, openFdCount, ht]
      rfl
  | fdInfo fd => rw [Resources.call, Option.map_some, hsame, Access.run, hfile]
  | setCaps c => exact congrArg (fun s' => some (Reply.done, s')) (adjustCurrent_congr ht rfl)
  | setIdentity u g =>
      exact congrArg (fun s' => some (Reply.done, s')) (adjustCurrent_congr ht rfl)
  | setCwd path => exact congrArg (fun s' => some (Reply.done, s')) (adjustCurrent_congr ht rfl)
  | setArgs as => exact congrArg (fun s' => some (Reply.done, s')) (adjustCurrent_congr ht rfl)
  | allocFd of =>
      simp only [Access.run, Resources.call, allocFd, ht]
      change
        Option.map _ (match t.openFiles.findIdx? Option.isNone with | some slot => _ | none => _) =
        Option.map _ (match t.openFiles.findIdx? Option.isNone with | some slot => _ | none => _)
      cases t.openFiles.findIdx? Option.isNone with
      | some slot =>
          exact congrArg (fun s' => some (Reply.fd slot, s')) (adjustCurrent_congr ht rfl)
      | none =>
          change Option.map _ (if ¬HeapHolds openFileSize (t.openFiles.length + 1) then _ else _) =
            Option.map _ (if ¬HeapHolds openFileSize (t.openFiles.length + 1) then _ else _)
          by_cases hfull : ¬HeapHolds openFileSize (t.openFiles.length + 1)
          · rw [if_pos hfull, if_pos hfull]
            rfl
          · rw [if_neg hfull, if_neg hfull]
            exact congrArg (fun s' => some (Reply.fd t.openFiles.length, s'))
              (adjustCurrent_congr ht rfl)
  | setFdOffset fd offset =>
      simp only [Access.run, Resources.call, setFdOffset]
      by_cases hneg : fd < 0
      · simp [hneg, hsame]
      · rw [if_neg hneg, if_neg hneg]
        exact congrArg (fun s' => some (Reply.done, s')) (adjustCurrent_congr ht rfl)
  | closeFd fd =>
      simp only [Access.run, Resources.call, closeFd, hfile]
      cases t.resources.file fd with
      | none => simp [hsame]
      | some of =>
          exact congrArg (fun s' => some (Reply.closed true, s')) (adjustCurrent_congr ht rfl)

/-- Without a block an accessor falls back to a default. -/
theorem run_default {s : Scheduler κ} (h : currentTcb s = none) (a : Access) :
    ∃ reply, a.run s = some (reply, s) := by
  have hself : ∀ f, adjustCurrent s f = s := fun f =>
    adjustCurrent_self (fun t ht => absurd (h.symm.trans ht) (by simp))
  have hfile : ∀ fd, fdInfo s fd = none := by
    intro fd
    have hnone : lookup s.tasks s.current = none := h
    rw [fdInfo, fileAt, hnone]
    split <;> rfl
  cases a with
  | setCaps c => exact ⟨.done, congrArg (fun s' => some (Reply.done, s')) (hself _)⟩
  | setIdentity u g => exact ⟨.done, congrArg (fun s' => some (Reply.done, s')) (hself _)⟩
  | setCwd path => exact ⟨.done, congrArg (fun s' => some (Reply.done, s')) (hself _)⟩
  | setArgs as => exact ⟨.done, congrArg (fun s' => some (Reply.done, s')) (hself _)⟩
  | allocFd of => exact ⟨.fd (-1), by simp [Access.run, allocFd, h]⟩
  | setFdOffset fd offset =>
      refine ⟨.done, ?_⟩
      rw [Access.run, setFdOffset, hself]
      split <;> rfl
  | closeFd fd => exact ⟨.closed false, by simp [Access.run, closeFd, hfile]⟩
  | caps => exact ⟨_, rfl⟩
  | uid => exact ⟨_, rfl⟩
  | gid => exact ⟨_, rfl⟩
  | cwd => exact ⟨_, rfl⟩
  | args => exact ⟨_, rfl⟩
  | fdInfo fd => exact ⟨_, rfl⟩
  | openFdCount => exact ⟨_, rfl⟩

/-- The second step of an accessor, for the task that has loaded its own pid. -/
theorem runAs_resources {s : Scheduler κ} {pid : Nat} {t : Tcb κ} (ht : lookup s.tasks pid = some t)
    (a : Access) :
    a.runAs s pid = (t.resources.call a).map (fun out =>
      (out.1, { s with tasks := adjust s.tasks pid (Tcb.withResources out.2) })) := by
  have hcur : currentTcb { s with current := pid } = some t := ht
  rw [Access.runAs, run_resources hcur, Option.map_map]
  rfl

/-- Without a task of that pid a call changes nothing. -/
theorem runAs_default {s : Scheduler κ} {pid : Nat} (h : lookup s.tasks pid = none) (a : Access) :
    ∃ reply, a.runAs s pid = some (reply, s) := by
  have hcur : currentTcb { s with current := pid } = none := h
  obtain ⟨reply, hrun⟩ := run_default hcur a
  exact ⟨reply, by rw [Access.runAs, hrun]; rfl⟩

/-- The resources after the calls of a log, if they return what the log says. -/
def Resources.replay (r : Resources) : List (Access × Reply) → Option Resources
  | [] => some r
  | e :: es =>
      (r.call e.1).bind (fun out => if out.1 = e.2 then out.2.replay es else none)

/-- Calls that are replayed, and then others. -/
theorem replay_append (r : Resources) (es fs : List (Access × Reply)) :
    r.replay (es ++ fs) = (r.replay es).bind (fun r' => r'.replay fs) := by
  induction es generalizing r with
  | nil => rfl
  | cons e es ih =>
      simp only [List.cons_append, Resources.replay]
      cases r.call e.1 with
      | none => rfl
      | some out =>
          simp only [Option.bind_some]
          by_cases h : out.1 = e.2
          · rw [if_pos h, if_pos h, ih]
          · rw [if_neg h, if_neg h]
            rfl

/-- **A log that replays** is what the calls return when they run alone. -/
theorem alone_replay {s : Scheduler κ} {t : Tcb κ} {log : List (Access × Reply)} {r : Resources}
    (ht : currentTcb s = some t) (h : t.resources.replay log = some r) :
    ∃ s', alone s (log.map Prod.fst) = some (log.map Prod.snd, s') ∧
      (currentTcb s').map Tcb.resources = some r := by
  induction log generalizing s t with
  | nil =>
      obtain rfl := Option.some.inj h
      exact ⟨s, rfl, by rw [ht]; rfl⟩
  | cons e es ih =>
      rw [Resources.replay] at h
      obtain ⟨out, hcall, hrest⟩ := Option.bind_eq_some_iff.mp h
      by_cases heq : out.1 = e.2
      · rw [if_pos heq] at hrest
        have hnext : currentTcb (adjustCurrent s (Tcb.withResources out.2)) =
            some (t.withResources out.2) := by
          rw [currentTcb_adjustCurrent, ht]
          rfl
        obtain ⟨s', halone, hfinal⟩ := ih hnext hrest
        refine ⟨s', ?_, hfinal⟩
        rw [List.map_cons, alone, run_resources ht, hcall, Option.map_some, Option.bind_some, halone,
          Option.map_some, List.map_cons, heq]
      · rw [if_neg heq] at hrest
        cases hrest

end

/-- The acts that are accessor calls themselves. -/
def Act.Accessor : Act → Prop
  | .setIdentity _ _ => True
  | .setCwd _ => True
  | .allocFd _ => True
  | .setFdOffset _ _ => True
  | .closeFd _ => True
  | _ => False

instance (act : Act) : Decidable act.Accessor := by
  cases act <;> unfold Act.Accessor <;> infer_instance

/-- What the scheduler has for a pid. -/
def resourcesAt (s : Scheduler CpuCtx) (pid : Nat) : Option Resources :=
  (lookup s.tasks pid).map Tcb.resources

/-- A machine, the calls that tasks are in the middle of with the pid they have
loaded, what each task has called and been told so far, and what it owned at
its spawn. -/
structure CallMachine where
  machine : Machine
  pending : Nat → Option (Access × Nat)
  log : Nat → List (Access × Reply)
  born : Nat → Option Resources

/-- An act, a call that a task is about to make, or the call itself. -/
inductive CallEvent
  | act (act : Act)
  | load (a : Access)
  | access

namespace CallMachine

/-- The running task. -/
def current (w : CallMachine) : Nat := w.machine.kernel.sched.current

/-- One step; an act is anything but an accessor, whatever the running task is in
the middle of. -/
def next (w : CallMachine) : CallEvent → Option CallMachine
  | .act act =>
      if act.Accessor then none
      else (w.machine.next act).map (fun m =>
        { w with
          machine := m
          born := fun pid => (w.born pid).or (resourcesAt m.kernel.sched pid) })
  | .load a =>
      if w.pending w.current = none then
        some { w with pending := Function.update w.pending w.current (some (a, w.current)) }
      else none
  | .access =>
      match w.pending w.current with
      | none => none
      | some (a, pid) =>
          (a.runAs w.machine.kernel.sched pid).map (fun out =>
            { w with
              machine := w.machine.withSched out.2
              pending := Function.update w.pending w.current none
              log := Function.update w.log w.current (w.log w.current ++ [(a, out.1)]) })

end CallMachine

/-- Runs in which every task makes its own calls, in any order. -/
def callSystem {limit : Nat} (map : MemoryMap limit) : TransitionSystem CallMachine CallEvent where
  boot := fun w => (lifeSystem map).boot w.machine ∧ (∀ pid, w.pending pid = none) ∧
    (∀ pid, w.log pid = []) ∧ ∀ pid, w.born pid = none
  next := CallMachine.next

/-- **Everybody is on his own**: a task in the middle of a call has loaded its own
pid, and the block of a task is what its own calls have made of it. -/
structure OnOwn {limit : Nat} (map : MemoryMap limit) (w : CallMachine) : Prop where
  solvent : Solvent map w.machine
  own : ∀ p a pid, w.pending p = some (a, pid) → pid = p
  unborn : ∀ p, w.machine.kernel.sched.nextPid ≤ p → w.log p = [] ∧ w.born p = none
  zero : w.born 0 = none
  present : ∀ p, (resourcesAt w.machine.kernel.sched p).isSome → (w.born p).isSome
  replayed : ∀ p r, w.born p = some r → ∃ r', r.replay (w.log p) = some r' ∧
    ∀ r'', resourcesAt w.machine.kernel.sched p = some r'' → r'' = r'

section

variable {limit : Nat} {map : MemoryMap limit} {s s' : Machine}

/-- What an act leaves of the blocks, seen through anything but states and saved
registers: a block that is there afterwards was there, unless it is new. -/
theorem next_view {β : Type} {f : Tcb CpuCtx → β}
    (hf : ∀ t st ctx, f { t with state := st, ctx := ctx } = f t)
    (hl : limit + 2 ^ 20 * pageSize < modulus) {act : Act} (hs : Solvent map s)
    (hact : ¬act.Accessor) (hnext : s.next act = some s') (x : Nat) {v : β}
    (hv : (lookup s'.kernel.sched.tasks x).map f = some v) :
    (lookup s.kernel.sched.tasks x).map f = some v ∨ s.kernel.sched.nextPid ≤ x := by
  have hfour : limit + 4 * pageSize < modulus := by
    simp only [pageSize] at hl ⊢
    omega
  have htotal : (account map).total < modulus :=
    lt_of_le_of_lt (bootPmm_free_le (by simp only [pageSize] at hl ⊢; omega) map) (by omega)
  have hadded : ∀ {pid : Nat} {t : Tcb CpuCtx} {k : Kernel},
      Added (account map) s.held s.kernel.fresh pid t k →
      (lookup k.sched.tasks x).map f = some v →
      (lookup s.kernel.sched.tasks x).map f = some v ∨ s.kernel.sched.nextPid ≤ x := by
    intro pid t k h hk
    rw [h.lookup_eq] at hk
    by_cases heq : x = pid
    · exact Or.inr (heq ▸ h.pid_eq.ge)
    · rw [if_neg heq] at hk
      exact Or.inl hk
  cases act with
  | setIdentity _ _ => exact absurd trivial hact
  | setCwd _ => exact absurd trivial hact
  | allocFd _ => exact absurd trivial hact
  | setFdOffset _ _ => exact absurd trivial hact
  | closeFd _ => exact absurd trivial hact
  | spawn entry =>
      simp only [Machine.next] at hnext
      split at hnext
      next pid k hrun =>
        obtain rfl := Option.some.inj hnext
        obtain ⟨t, h⟩ :=
          spawn_added (k := s.kernel.fresh) hfour hs.consistent (fresh_books hs) rfl hrun
        exact hadded h hv
      next => cases hnext
  | spawnProgram trampoline room elf caps =>
      simp only [Machine.next] at hnext
      split at hnext
      next pid k hrun =>
        obtain rfl := Option.some.inj hnext
        obtain ⟨t, h⟩ := spawnProgram_added (k := s.kernel.fresh) hfour htotal hs.consistent
          (fresh_books hs) rfl hrun
        exact hadded h hv
      next e k hrun =>
        obtain rfl := Option.some.inj hnext
        obtain ⟨-, hsched⟩ := spawnProgram_err hfour htotal (fresh_books hs) hrun
        rw [hsched] at hv
        exact Or.inl hv
      next => cases hnext
  | run | yieldNow | tryPreempt =>
      obtain rfl := Option.some.inj hnext
      exact Or.inl ((reschedule_view hf hs.consistent s.kernel.cpu x).symm.trans hv)
  | exitCurrent =>
      simp only [Machine.next] at hnext
      split at hnext
      next sched cpu hexit =>
        obtain rfl := Option.some.inj hnext
        exact Or.inl (((exitCurrent_view hf hs.consistent hexit).2 x).symm.trans hv)
      next => cases hnext
  | reap pid =>
      simp only [Machine.next] at hnext
      split at hnext
      next k hrun =>
        obtain rfl := Option.some.inj hnext
        obtain ⟨-, -, -, hsched⟩ := reap_ok hrun
        rw [hsched, lookup_remove] at hv
        by_cases hx : x = pid
        · rw [if_pos hx] at hv
          cases hv
        · rw [if_neg hx] at hv
          exact Or.inl hv
      next => cases hnext
  | allocFrame =>
      obtain rfl := Option.some.inj hnext
      exact Or.inl hv
  | allocContiguousFrames n =>
      simp only [Machine.next] at hnext
      split at hnext
      next =>
        obtain rfl := Option.some.inj hnext
        exact Or.inl hv
      next => cases hnext
  | freeFrame addr =>
      simp only [Machine.next] at hnext
      split at hnext
      next =>
        obtain ⟨m, -, rfl⟩ := Option.map_eq_some_iff.mp hnext
        exact Or.inl hv
      next => cases hnext
  | work cpu ram =>
      obtain rfl := Option.some.inj hnext
      exact Or.inl hv

end

section

variable {map : MemoryMap (2 ^ 52)} {w w' : CallMachine}

/-- **An act of the scheduler** gives nobody anything of somebody else. -/
theorem OnOwn.act (h : OnOwn map w) {act : Act} (hnext : w.next (.act act) = some w') :
    OnOwn map w' := by
  simp only [CallMachine.next] at hnext
  split at hnext
  next => cases hnext
  next hact =>
    obtain ⟨m, hm, rfl⟩ := Option.map_eq_some_iff.mp hnext
    have hstep := next_stepped (by decide) h.solvent hm
    have hzero : resourcesAt m.kernel.sched 0 = none := by
      rw [resourcesAt, hstep.solvent.consistent.zero]
      rfl
    have hview : ∀ x r, resourcesAt m.kernel.sched x = some r →
        resourcesAt w.machine.kernel.sched x = some r ∨ w.machine.kernel.sched.nextPid ≤ x :=
      fun x r hr => next_view (fun _ _ _ => rfl) (by decide) h.solvent hact hm x hr
    refine ⟨hstep.solvent, h.own, fun p hp => ?_, ?_, fun p hp => ?_, fun p r hr => ?_⟩
    · obtain ⟨hlog, hborn⟩ := h.unborn p (hstep.nextPid_le.trans hp)
      refine ⟨hlog, ?_⟩
      cases ht : lookup m.kernel.sched.tasks p with
      | none => simp [hborn, resourcesAt, ht]
      | some t =>
          have hlt := hstep.solvent.consistent.fresh p t ht
          exact absurd hlt (Nat.not_lt.mpr hp)
    · simp [h.zero, hzero]
    · simp [hp]
    · cases hborn : w.born p with
      | some r₀ =>
          simp only [hborn, Option.some_or, Option.some.injEq] at hr
          subst hr
          obtain ⟨r', hreplay, hsame⟩ := h.replayed p r₀ hborn
          refine ⟨r', hreplay, fun r'' hr'' => ?_⟩
          rcases hview p r'' hr'' with hold | hnew
          · exact hsame r'' hold
          · exact absurd (h.unborn p hnew).2 (by simp [hborn])
      | none =>
          simp only [hborn, Option.none_or] at hr
          rcases hview p r hr with hold | hnew
          · have hsome := h.present p (Option.isSome_of_eq_some hold)
            rw [hborn] at hsome
            cases hsome
          · refine ⟨r, ?_, fun r'' hr'' => Option.some.inj (hr''.symm.trans hr)⟩
            rw [(h.unborn p hnew).1]
            rfl

/-- **A task that decides on a call** has only its own in mind. -/
theorem OnOwn.load (h : OnOwn map w) {a : Access} (hnext : w.next (.load a) = some w') :
    OnOwn map w' := by
  simp only [CallMachine.next] at hnext
  split at hnext
  next =>
    obtain rfl := Option.some.inj hnext
    refine ⟨h.solvent, fun p b pid hp => ?_, h.unborn, h.zero, h.present, h.replayed⟩
    by_cases hcur : p = w.current
    · subst hcur
      dsimp only at hp
      rw [Function.update_self] at hp
      exact (Prod.mk.inj (Option.some.inj hp)).2.symm
    · dsimp only at hp
      rw [Function.update_of_ne hcur] at hp
      exact h.own p b pid hp
  next => cases hnext

/-- A call that has ended is pending no more. -/
theorem OnOwn.own_done (h : OnOwn map w) {p pid : Nat} {a : Access}
    (hp : Function.update w.pending w.current none p = some (a, pid)) : pid = p := by
  by_cases hcur : p = w.current
  · rw [hcur, Function.update_self] at hp
    cases hp
  · rw [Function.update_of_ne hcur] at hp
    exact h.own p a pid hp

/-- The second step of a call without a task. -/
theorem OnOwn.access_default (h : OnOwn map w) {a : Access} {reply : Reply}
    (hzero : w.current = 0) :
    OnOwn map { w with
      pending := Function.update w.pending w.current none
      log := Function.update w.log w.current (w.log w.current ++ [(a, reply)]) } := by
  have hlog : ∀ p, p ≠ 0 →
      Function.update w.log w.current (w.log w.current ++ [(a, reply)]) p = w.log p := by
    intro p hp
    rw [hzero, Function.update_of_ne hp]
  refine ⟨h.solvent, fun _ _ _ => h.own_done, fun p hp => ?_, h.zero, h.present, fun p r hr => ?_⟩
  · have hpos := h.solvent.consistent.positive
    obtain ⟨hold, hborn⟩ := h.unborn p hp
    refine ⟨?_, hborn⟩
    dsimp only at hp ⊢
    rw [hlog p (by omega), hold]
  · have hne : p ≠ 0 := by
      intro hp
      have hborn : w.born p = some r := hr
      rw [hp, h.zero] at hborn
      cases hborn
    obtain ⟨r', hreplay, hsame⟩ := h.replayed p r hr
    refine ⟨r', ?_, hsame⟩
    dsimp only
    rw [hlog p hne]
    exact hreplay

/-- The second step of a call of a task. -/
theorem OnOwn.access_own (h : OnOwn map w) {a : Access} {t : Tcb CpuCtx} {out : Reply × Resources}
    (ht : lookup w.machine.kernel.sched.tasks w.current = some t)
    (hcall : t.resources.call a = some out) {sched : Scheduler CpuCtx}
    (hsched : sched = { w.machine.kernel.sched with
      tasks := adjust w.machine.kernel.sched.tasks w.current (Tcb.withResources out.2) }) :
    OnOwn map { w with
      machine := w.machine.withSched sched
      pending := Function.update w.pending w.current none
      log := Function.update w.log w.current (w.log w.current ++ [(a, out.1)]) } := by
  have hcons := h.solvent.consistent
  have hpid : sched.nextPid = w.machine.kernel.sched.nextPid := by rw [hsched]
  have hmoved : Moved w.machine (w.machine.withSched sched) := by
    refine ⟨rfl, rfl, hpid, fun x => ?_, ?_⟩
    · change listed sched.tasks x = _
      rw [hsched]
      exact listed_adjust (f := Tcb.withResources out.2) (fun _ => rfl) x
    · change Consistent sched
      rw [hsched]
      exact hcons.adjust (fun _ => ⟨rfl, rfl⟩)
  have hview : ∀ x, resourcesAt sched x =
      if x = w.current then some out.2 else resourcesAt w.machine.kernel.sched x := by
    intro x
    rw [hsched, resourcesAt, lookup_adjust]
    by_cases hx : x = w.current
    · subst hx
      rw [if_pos rfl, if_pos rfl, ht]
      rfl
    · rw [if_neg hx, if_neg hx]
      rfl
  have hold : resourcesAt w.machine.kernel.sched w.current = some t.resources := by
    rw [resourcesAt, ht]
    rfl
  refine ⟨(hmoved.stepped h.solvent).solvent, fun _ _ _ => h.own_done, fun p hp => ?_, h.zero,
    fun p hp => ?_, fun p r hr => ?_⟩
  · have hlt := hcons.fresh _ t ht
    change sched.nextPid ≤ p at hp
    have hne : p ≠ w.current := by
      rintro rfl
      omega
    obtain ⟨hlog, hborn⟩ := h.unborn p (hpid ▸ hp)
    refine ⟨?_, hborn⟩
    dsimp only
    rw [Function.update_of_ne hne, hlog]
  · by_cases hcur : p = w.current
    · rw [hcur]
      exact h.present _ (Option.isSome_of_eq_some hold)
    · change (resourcesAt sched p).isSome at hp
      rw [hview, if_neg hcur] at hp
      exact h.present p hp
  · obtain ⟨r', hreplay, hsame⟩ := h.replayed p r hr
    by_cases hcur : p = w.current
    · subst hcur
      obtain rfl := hsame _ hold
      refine ⟨out.2, ?_, fun r'' hr'' => ?_⟩
      · dsimp only
        rw [Function.update_self, replay_append, hreplay, Option.bind_some, Resources.replay, hcall]
        exact if_pos rfl
      · change resourcesAt sched _ = _ at hr''
        rw [hview, if_pos rfl] at hr''
        exact (Option.some.inj hr'').symm
    · refine ⟨r', ?_, fun r'' hr'' => ?_⟩
      · dsimp only
        rw [Function.update_of_ne hcur]
        exact hreplay
      · change resourcesAt sched _ = _ at hr''
        rw [hview, if_neg hcur] at hr''
        exact hsame r'' hr''

/-- **A call** answers from the caller's resources and changes those alone. -/
theorem OnOwn.access (h : OnOwn map w) (hnext : w.next .access = some w') : OnOwn map w' := by
  simp only [CallMachine.next] at hnext
  split at hnext
  next => cases hnext
  next a pid hpending =>
    obtain rfl := h.own _ _ _ hpending
    obtain ⟨out, hout, rfl⟩ := Option.map_eq_some_iff.mp hnext
    cases ht : lookup w.machine.kernel.sched.tasks w.current with
    | none =>
        have hzero : w.current = 0 := by
          by_contra hne
          obtain ⟨t, hsome, -⟩ := h.solvent.consistent.running hne
          exact absurd (ht.symm.trans hsome) (by simp)
        obtain ⟨reply, hrun⟩ := runAs_default ht a
        obtain rfl := Option.some.inj (hrun.symm.trans hout)
        exact h.access_default hzero
    | some t =>
        rw [runAs_resources ht] at hout
        obtain ⟨out', hcall, rfl⟩ := Option.map_eq_some_iff.mp hout
        exact h.access_own ht hcall rfl

/-- Everybody is on his own in every state. -/
theorem callSystem_onOwn (h : (callSystem map).Reach w) : OnOwn map w := by
  refine TransitionSystem.Reach.invariant (I := OnOwn map) ?_ ?_ h
  · rintro w ⟨hboot, hpending, hlog, hborn⟩
    have hsolvent : Solvent map w.machine := lifeSystem_solvent (TransitionSystem.Run.boot hboot)
    have hnone : ∀ p, resourcesAt w.machine.kernel.sched p = none := by
      intro p
      rw [resourcesAt, hboot.1]
      rfl
    refine ⟨hsolvent, fun p a pid hp => ?_, fun p _ => ⟨hlog p, hborn p⟩, hborn 0, fun p hp => ?_,
      fun p r hr => ?_⟩
    · rw [hpending] at hp
      cases hp
    · rw [hnone] at hp
      cases hp
    · rw [hborn] at hr
      cases hr
  · intro w e w' hw hnext
    cases e with
    | act act => exact hw.act hnext
    | load a => exact hw.load hnext
    | access => exact hw.access hnext

/-- **Tasks do not see each other's resources.**  In every state of every run,
take a task and what it owned at its spawn.  If it makes the calls it has made
so far in the same order, with these resources and with nothing in between,
each call returns what it has returned, and in the end the task owns what its
block says, as long as it has one. -/
theorem tasks_isolated {map : MemoryMap (2 ^ 52)} {w : CallMachine}
    (hw : (callSystem map).Reach w) {p : Nat} {r : Resources} (hborn : w.born p = some r)
    {s : Scheduler CpuCtx} (hs : (currentTcb s).map Tcb.resources = some r) :
    ∃ s', alone s ((w.log p).map Prod.fst) = some ((w.log p).map Prod.snd, s') ∧
      ∀ t, lookup w.machine.kernel.sched.tasks p = some t →
        (currentTcb s').map Tcb.resources = some t.resources := by
  obtain ⟨r', hreplay, hsame⟩ := (callSystem_onOwn hw).replayed p r hborn
  obtain ⟨t₀, ht₀, rfl⟩ := Option.map_eq_some_iff.mp hs
  obtain ⟨s', halone, hfinal⟩ := alone_replay ht₀ hreplay
  refine ⟨s', halone, fun t ht => ?_⟩
  have hblock : resourcesAt w.machine.kernel.sched p = some t.resources := by
    rw [resourcesAt, ht]
    rfl
  rw [hfinal, hsame _ hblock]

end

/-- What a thread owns at its spawn. -/
def newResources : Resources :=
  { caps := 0, uid := 1000, gid := 1000, cwd := "/", args := [], openFiles := [] }

/-- The machine at the start, with no call made. -/
def bootCalls {limit : Nat} (map : MemoryMap limit) : CallMachine :=
  { machine := bootMachine map, pending := fun _ => none, log := fun _ => [], born := fun _ => none }

/-- Both calls of task 1 are interrupted between their steps, the first one by a
call of task 2. -/
def mixedEvents : List CallEvent :=
  [.act (.spawn 0x100), .act .run, .act (.spawn 0x200),
    .load (.setCwd "/tmp"), .act .tryPreempt, .load (.setCwd "/home"), .access, .act .yieldNow,
    .access, .load .cwd, .act .tryPreempt, .act .yieldNow, .access]

/-- The first task changes its directory and asks for it. -/
def mixedLog : List (Access × Reply) := [(.setCwd "/tmp", .done), (.cwd, .path "/tmp")]

/-- Two tasks, of which the first one sees its own directory. -/
theorem sample_tasks_isolated : ∃ w,
    (callSystem wideMap).exec (bootCalls wideMap) mixedEvents = some w ∧
    w.log 1 = mixedLog ∧ ∃ s', alone (shellMachine wideMap).kernel.sched ((w.log 1).map Prod.fst) =
      some ((w.log 1).map Prod.snd, s') ∧
      ∀ t, lookup w.machine.kernel.sched.tasks 1 = some t →
        (currentTcb s').map Tcb.resources = some t.resources := by
  have hexec : ((callSystem wideMap).exec (bootCalls wideMap) mixedEvents).map
      (fun w => (w.log 1, w.born 1)) = some (mixedLog, some newResources) := by decide +kernel
  obtain ⟨w, hw, hboth⟩ := Option.map_eq_some_iff.mp hexec
  have hreach : (callSystem wideMap).Reach w := TransitionSystem.Reach.exec
    (TransitionSystem.Run.boot ⟨⟨rfl, rfl, rfl⟩, fun _ => rfl, fun _ => rfl, fun _ => rfl⟩) hw
  have hstart : (currentTcb (shellMachine wideMap).kernel.sched).map Tcb.resources =
      some newResources := by decide +kernel
  exact ⟨w, hw, congrArg Prod.fst hboth, tasks_isolated hreach (congrArg Prod.snd hboth) hstart⟩

end Scheduler
