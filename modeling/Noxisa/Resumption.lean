import Noxisa.PreemptionRuns
import Noxisa.SyscallFrames

/-!
# Going on after a switch

The scheduler under interrupts (`Preemption`) and the stacks of the kernel
(`KernelStacks`), as one machine.  An event of the scheduler that gives the CPU
to another task comes together with the switch of the stack pointer.  What code
does between the steps of the scheduler, in ring 3 or in the kernel, are events
of the stacks alone.

`left` takes down, when a task loses the CPU, its stack pointer and the words
that are on its stack in memory.  If no interrupt switches tasks during a
handover, and nobody starts at the top of a shared stack while another task has
frames there, each task that gets the CPU back finds the stack as it left it,
and goes on at the point where it was (`registers_and_frames`).
-/

namespace Resumption

open KernelStacks (Rsp Word Stack Intact Sane Spells RingAlone CallAlone kernelStacks)
open Preemption (Calm OwnRegisters preemption)

/-- A stack pointer, and the words that memory has below it. -/
structure Frames where
  rsp : Rsp
  words : List Word
deriving DecidableEq

/-- What a task has on its stack.  A user's stack is no memory of the kernel. -/
def framesOf {n : Nat} (m : KernelStacks.Machine n) (pid : Fin n) : Frames where
  rsp := (m.tasks pid).rsp
  words :=
    match (m.tasks pid).rsp with
    | .user _ => []
    | .kernel s depth => (List.range depth).map (m.mem s)

/-- Both machines.  The number of a task is its pid. -/
structure Machine (n : Nat) where
  sched : Preemption.Machine
  kstacks : KernelStacks.Machine n
  left : Fin n → Option Frames

/-- What happens on one core: the code between two steps of the scheduler, and the
scheduler's own steps, with the stacks they are taken on. -/
inductive Event (n : Nat)
  /-- code between the steps of the scheduler -/
  | code (e : KernelStacks.Event n)
  /-- the scheduler, and the same task goes on -/
  | stay (e : Preemption.Event)
  /-- the scheduler, and another task goes on, on a stack of its own -/
  | switch (e : Preemption.Event) (k : KernelStacks.Event n)

namespace Machine

variable {n : Nat}

/-- The running task is in an interrupt handler. -/
def InInterrupt (m : Machine n) : Prop :=
  m.kstacks.task.acts.head?.map KernelStacks.Activation.cause = some .irq

instance (m : Machine n) : Decidable m.InInterrupt := inferInstanceAs (Decidable (_ = _))

/-- Inside a function of the scheduler, code pushes and pops and is interrupted. -/
def Admits (m : Machine n) : KernelStacks.Event n → Prop
  | .push _ | .pop | .interrupt _ => True
  | .ret => m.sched.point = .work ∨ m.InInterrupt
  | .compute _ _ | .syscall _ _ | .step _ | .enter _ => m.sched.point = .work
  | .preempt _ | .yieldTo _ | .exit _ => False

instance (m : Machine n) (e : KernelStacks.Event n) : Decidable (m.Admits e) :=
  match e with
  | .push _ | .pop | .interrupt _ => isTrue trivial
  | .ret => inferInstanceAs (Decidable (_ ∨ _))
  | .compute _ _ | .syscall _ _ | .step _ | .enter _ => inferInstanceAs (Decidable (_ = _))
  | .preempt _ | .yieldTo _ | .exit _ => isFalse id

/-- `try_preempt` runs in the handler, with interrupts off; everything else is
called by kernel code outside of it. -/
def Runs (m : Machine n) : Preemption.Event → Prop
  | .tick => m.kstacks.interrupts = false
  | .call _ | .step => m.kstacks.task.InKernel ∧ ¬m.InInterrupt

instance (m : Machine n) (e : Preemption.Event) : Decidable (m.Runs e) :=
  match e with
  | .tick => inferInstanceAs (Decidable (_ = _))
  | .call _ | .step => inferInstanceAs (Decidable (_ ∧ _))

/-- The switch of the stacks that belongs to an event of the scheduler. -/
def switches (m : Machine n) (e : Preemption.Event) (k : KernelStacks.Event n) : Bool :=
  match e, k, m.sched.point with
  | .tick, .preempt _, _ => true
  | .step, .yieldTo _, .switchRestore _ => true
  | .step, .exit _, .exitRestore _ => true
  | _, _, _ => false

/-- One event: both halves take it, and a switch writes down the frames that the task
going off leaves on its stack. -/
def next (m : Machine n) : Event n → Option (Machine n)
  | .code e =>
      if m.Admits e then (m.kstacks.next e).map (fun s => { m with kstacks := s }) else none
  | .stay e =>
      if m.Runs e then
        (m.sched.next e).bind (fun s =>
          if s.self = m.sched.self then some { m with sched := s } else none)
      else none
  | .switch e k =>
      if m.Runs e ∧ m.switches e k then
        (m.sched.next e).bind (fun s => (m.kstacks.next k).bind (fun t =>
          if (t.cur : Nat) = s.self then
            some {
              sched := s
              kstacks := t
              left := Function.update m.left m.kstacks.cur (some (framesOf m.kstacks m.kstacks.cur)) }
          else none))
      else none

end Machine

/-- The scheduler and the kernel stacks run together; at boot they agree on the running
task. -/
def resumption (n : Nat) : TransitionSystem (Machine n) (Event n) where
  boot := fun m => preemption.boot m.sched ∧ (kernelStacks n).boot m.kstacks ∧
    (m.kstacks.cur : Nat) = m.sched.self ∧ m.left = fun _ => none
  next := Machine.next

/-- Nobody starts on a shared stack while another task has its frames there. -/
def StacksAlone {n : Nat} (m : KernelStacks.Machine n) (e : KernelStacks.Event n) : Prop :=
  RingAlone m e ∧ CallAlone m e

instance {n : Nat} (m : KernelStacks.Machine n) (e : KernelStacks.Event n) :
    Decidable (StacksAlone m e) := inferInstanceAs (Decidable (_ ∧ _))

/-- The condition on an event. -/
def Safe {n : Nat} (m : Machine n) : Event n → Prop
  | .code e => StacksAlone m.kstacks e
  | .stay e => Calm (fun _ => false) m.sched e
  | .switch e _ => Calm (fun _ => false) m.sched e

instance {n : Nat} (m : Machine n) (e : Event n) : Decidable (Safe m e) :=
  match e with
  | .code e => inferInstanceAs (Decidable (StacksAlone m.kstacks e))
  | .stay e => inferInstanceAs (Decidable (Calm (fun _ => false) m.sched e))
  | .switch e _ => inferInstanceAs (Decidable (Calm (fun _ => false) m.sched e))

/-- **A task goes on as it was left**: at the point where its code lost the CPU,
with the stack pointer and the words on the stack that it had then. -/
structure GoesOn {n : Nat} (m m' : Machine n) : Prop where
  point : m'.sched.point = m.sched.left m'.sched.self
  frames : ∀ f, m.left m'.kstacks.cur = some f → framesOf m'.kstacks m'.kstacks.cur = f

section

variable {n : Nat} {m m' : Machine n}

/-- The running task of the stacks changes with a switch only. -/
theorem admits_cur {k : KernelStacks.Machine n} {e : KernelStacks.Event n} (hok : m.Admits e)
    (hnext : m.kstacks.next e = some k) : k.cur = m.kstacks.cur := by
  cases e with
  | preempt next => exact hok.elim
  | yieldTo next => exact hok.elim
  | exit next => exact hok.elim
  | step after =>
      simp only [KernelStacks.Machine.next, KernelStacks.Machine.step] at hnext
      split at hnext
      next instr code _ _ =>
        cases instr <;> simp only [KernelStacks.Machine.execute] at hnext
        all_goals first
          | (obtain rfl := Option.some.inj hnext; rfl)
          | (split at hnext
             · obtain rfl := Option.some.inj hnext
               rfl
             · cases hnext)
      next => cases hnext
  | syscall rip rflags =>
      simp only [KernelStacks.Machine.next] at hnext
      split at hnext
      · split at hnext
        · obtain rfl := Option.some.inj hnext
          rfl
        · cases hnext
      · cases hnext
  | pop =>
      simp only [KernelStacks.Machine.next, KernelStacks.Machine.pop] at hnext
      split at hnext
      · split at hnext
        · obtain rfl := Option.some.inj hnext
          rfl
        · cases hnext
      · cases hnext
  | ret =>
      simp only [KernelStacks.Machine.next, KernelStacks.Machine.ret] at hnext
      split at hnext
      · split at hnext
        · cases hnext
        · obtain rfl := Option.some.inj hnext
          rfl
      · cases hnext
  | interrupt frame =>
      simp only [KernelStacks.Machine.next, KernelStacks.Machine.interrupt] at hnext
      split at hnext
      · obtain rfl := Option.some.inj hnext
        rfl
      · cases hnext
  | compute regs rsp | push w | enter rsp =>
      simp only [KernelStacks.Machine.next] at hnext
      split at hnext
      · obtain rfl := Option.some.inj hnext
        rfl
      · cases hnext

/-- **A switch of the stacks** writes no word; the other tasks are as they were,
and so is the outgoing one if it is still alive. -/
structure Switched (k k' : KernelStacks.Machine n) : Prop where
  mem_eq : k'.mem = k.mem
  cur_ne : k'.cur ≠ k.cur
  alive : k.alive k'.cur
  tasks_eq : ∀ pid, pid ≠ k.cur ∨ k'.alive pid → k'.tasks pid = k.tasks pid

/-- What `switch_to` does when it goes through. -/
theorem switchTo_switched {k k' : KernelStacks.Machine n} {next : Fin n}
    (h : k.switchTo next = some k') : Switched k k' := by
  unfold KernelStacks.Machine.switchTo at h
  split at h
  next hguard =>
    obtain rfl := Option.some.inj h
    exact ⟨rfl, hguard.1, hguard.2, fun _ _ => rfl⟩
  next => cases h

/-- An admitted switch of the scheduler is a switch of the stacks, made on the running
task's own stack. -/
theorem switches_switched {e : Preemption.Event} {k : KernelStacks.Event n}
    {t : KernelStacks.Machine n} (hok : m.switches e k) (hnext : m.kstacks.next k = some t) :
    Switched m.kstacks t ∧ StacksAlone m.kstacks k := by
  cases k with
  | preempt next =>
      simp only [KernelStacks.Machine.next] at hnext
      split at hnext
      · exact ⟨switchTo_switched hnext, trivial, trivial⟩
      · cases hnext
  | yieldTo next =>
      simp only [KernelStacks.Machine.next] at hnext
      split at hnext
      · exact ⟨switchTo_switched hnext, trivial, trivial⟩
      · cases hnext
  | exit next =>
      simp only [KernelStacks.Machine.next] at hnext
      split at hnext
      · refine ⟨?_, trivial, trivial⟩
        unfold KernelStacks.Machine.switchTo at hnext
        split at hnext
        next hguard =>
          obtain rfl := Option.some.inj hnext
          have hne : next ≠ m.kstacks.cur := hguard.1
          have halive : _ ≠ KernelStacks.Mode.exited := hguard.2
          simp only [KernelStacks.Machine.set, Function.update_of_ne hne] at halive
          refine ⟨rfl, hne, halive, fun pid hpid => Function.update_of_ne ?_ _ _⟩
          rintro rfl
          rcases hpid with hpid | hpid
          · exact hpid rfl
          · refine hpid ?_
            change (Function.update m.kstacks.tasks m.kstacks.cur _ m.kstacks.cur).mode = _
            rw [Function.update_self]
        next => cases hnext
      · cases hnext
  | _ => cases e <;> simp [Machine.switches] at hok

/-- What holds in all runs: both machines are in runs of their own that meet
their conditions, and agree on who runs. -/
structure Kept (m : Machine n) : Prop where
  agree : (m.kstacks.cur : Nat) = m.sched.self
  sched : preemption.Run (Calm (fun _ => false)) m.sched
  kstacks : (kernelStacks n).Run StacksAlone m.kstacks
  left : ∀ pid f, pid ≠ m.kstacks.cur → m.kstacks.alive pid → m.left pid = some f →
    f = ⟨(m.kstacks.tasks pid).rsp, (m.kstacks.tasks pid).live.reverse⟩

/-- On all stacks there is what the tasks have pushed. -/
theorem stacksAlone_intact {k : KernelStacks.Machine n}
    (h : (kernelStacks n).Run StacksAlone k) : Sane k ∧ ∀ s, Intact s k := by
  have hring := KernelStacks.run_sole (h.mono (fun _ _ hok => hok.1))
  refine ⟨hring.1, fun s => ?_⟩
  cases s with
  | own pid => exact KernelStacks.own_frames h.reach pid
  | syscallKstack => exact (KernelStacks.run_callsOk (h.mono (fun _ _ hok => hok.2))).kept.frames
  | rsp0Stack => exact hring.2.intact

/-- What a task that is alive has on its stack is what it has pushed. -/
theorem framesOf_eq {k : KernelStacks.Machine n} (h : (kernelStacks n).Run StacksAlone k)
    {pid : Fin n} (halive : k.alive pid) :
    framesOf k pid = ⟨(k.tasks pid).rsp, (k.tasks pid).live.reverse⟩ := by
  obtain ⟨hsane, hintact⟩ := stacksAlone_intact h
  have hfits := (hsane.ok pid).nested.fits
  unfold framesOf
  cases hrsp : (k.tasks pid).rsp with
  | user a =>
      rw [hrsp] at hfits
      have hlive : (k.tasks pid).live = [] := hfits
      rw [hlive]
      rfl
  | kernel s depth =>
      rw [hrsp] at hfits
      have hdepth : depth = (k.tasks pid).live.length := hfits
      have hspells : Spells (k.mem s) (k.tasks pid).live :=
        hintact s pid halive ⟨depth, hrsp⟩
      rw [hdepth]
      exact congrArg _ hspells

/-- Code between the steps of the scheduler writes over no frames of a task that is off
the core. -/
theorem Kept.code (h : Kept m) {e : KernelStacks.Event n} (hok : StacksAlone m.kstacks e)
    (hnext : m.next (.code e) = some m') : Kept m' := by
  simp only [Machine.next] at hnext
  split at hnext
  next hadmits =>
    obtain ⟨k, hk, rfl⟩ := Option.map_eq_some_iff.mp hnext
    have hcur := admits_cur hadmits hk
    have hsane := (stacksAlone_intact h.kstacks).1
    have hmoved := KernelStacks.next_moved hsane hk
    refine ⟨?_, h.sched, .step h.kstacks hok hk, fun pid f hpid halive hf => ?_⟩
    · rw [hcur]
      exact h.agree
    · have hother : k.tasks pid = m.kstacks.tasks pid := hmoved.others pid (hcur ▸ hpid)
      have halive' : m.kstacks.alive pid := by
        unfold KernelStacks.Machine.alive at halive ⊢
        rwa [hother] at halive
      change f = ⟨(k.tasks pid).rsp, (k.tasks pid).live.reverse⟩
      rw [hother]
      exact h.left pid f (hcur ▸ hpid) halive' hf
  next => cases hnext

/-- A step of the scheduler after which the same task goes on keeps what the tasks left.
-/
theorem Kept.stay (h : Kept m) {e : Preemption.Event} (hok : Calm (fun _ => false) m.sched e)
    (hnext : m.next (.stay e) = some m') : Kept m' := by
  simp only [Machine.next] at hnext
  split at hnext
  · obtain ⟨s, hs, hrest⟩ := Option.bind_eq_some_iff.mp hnext
    split at hrest
    next hself =>
      obtain rfl := Option.some.inj hrest
      exact ⟨h.agree.trans hself.symm, .step h.sched hok hs, h.kstacks, h.left⟩
    next => cases hrest
  · cases hnext

/-- What a switch is made of. -/
theorem next_switch {e : Preemption.Event} {k : KernelStacks.Event n}
    (hnext : m.next (.switch e k) = some m') :
    m.switches e k ∧ m.sched.next e = some m'.sched ∧ m.kstacks.next k = some m'.kstacks ∧
      (m'.kstacks.cur : Nat) = m'.sched.self ∧
      m'.left = Function.update m.left m.kstacks.cur (some (framesOf m.kstacks m.kstacks.cur)) := by
  simp only [Machine.next] at hnext
  split at hnext
  next hok =>
    obtain ⟨s, hs, hrest⟩ := Option.bind_eq_some_iff.mp hnext
    obtain ⟨t, ht, hlast⟩ := Option.bind_eq_some_iff.mp hrest
    split at hlast
    next hagree =>
      obtain rfl := Option.some.inj hlast
      exact ⟨hok.2, hs, ht, hagree, rfl⟩
    next => cases hlast
  next => cases hnext

/-- A step that switches keeps what the other tasks left, and writes down what this one
leaves. -/
theorem Kept.switch (h : Kept m) {e : Preemption.Event} {k : KernelStacks.Event n}
    (hok : Calm (fun _ => false) m.sched e) (hnext : m.next (.switch e k) = some m') :
    Kept m' := by
  obtain ⟨hswitches, hs, ht, hagree, hleft⟩ := next_switch hnext
  obtain ⟨hswitched, halone⟩ := switches_switched hswitches ht
  refine ⟨hagree, .step h.sched hok hs, .step h.kstacks halone ht, fun pid f hpid halive hf => ?_⟩
  have hsame := hswitched.tasks_eq pid (Or.inr halive)
  have halive' : m.kstacks.alive pid := by
    unfold KernelStacks.Machine.alive at halive ⊢
    rwa [hsame] at halive
  rw [hsame]
  by_cases hcur : pid = m.kstacks.cur
  · -- the outgoing task: what is taken down is what it has pushed
    subst hcur
    rw [hleft, Function.update_self] at hf
    obtain rfl := Option.some.inj hf
    exact framesOf_eq h.kstacks halive'
  · rw [hleft, Function.update_of_ne hcur] at hf
    exact h.left pid f hcur halive' hf

/-- **The invariant holds in every safe run.** -/
theorem run_kept (h : (resumption n).Run Safe m) : Kept m := by
  refine h.invariant ?_ ?_
  · rintro m ⟨hsched, hstacks, hagree, hleft⟩
    refine ⟨hagree, .boot hsched, .boot hstacks, fun pid f _ _ hf => ?_⟩
    rw [hleft] at hf
    cases hf
  · intro m e m' hm hok hnext
    cases e with
    | code e => exact hm.code hok hnext
    | stay e => exact hm.stay hok hnext
    | switch e k => exact hm.switch hok hnext

/-- The task that the scheduler goes on with is at the point where it lost the CPU. -/
theorem resumed_point {s s' : Preemption.Machine} {e : Preemption.Event}
    (h : preemption.Run (Calm (fun _ => false)) s) (hok : Calm (fun _ => false) s e)
    (hnext : s.next e = some s') (hself : s'.self ≠ s.self)
    (hpoint : e = .step → ∃ next, s.point = .switchRestore next ∨ s.point = .exitRestore next)
    (hcall : ∀ op, e ≠ .call op) : s'.point = s.left s'.self := by
  obtain ⟨locals, lost, hI⟩ := @Preemption.calm_inv False _ _ (fun hs => hs.elim) h
  cases e with
  | call op => exact absurd rfl (hcall op)
  | step =>
      have hrestored : ∃ next t, Scheduler.lookup s.sched.tasks next = some t ∧
          s' = s.restore t.ctx := by
        obtain ⟨next, hq | hq⟩ := hpoint rfl
        all_goals
          simp only [Preemption.Machine.next, Preemption.Machine.step, hq] at hnext
          obtain ⟨t, ht, hs'⟩ := Option.map_eq_some_iff.mp hnext
          exact ⟨next, t, ht, hs'.symm⟩
      obtain ⟨next, t, ht, rfl⟩ := hrestored
      rw [(hI.regs.owned next t ht).1]
      rfl
  | tick =>
      obtain rfl := Option.some.inj hnext
      by_cases hpre : s.Preempts
      · have hinc := Preemption.incoming_eq_none.mpr (hok hpre).1
        obtain ⟨next, hp, -⟩ := hI.preempted hpre hinc
        rw [hp.point_eq, hp.self_eq]
      · rw [Preemption.tick_idle hpre] at hself
        exact absurd rfl hself

/-- The task a switch brings on finds the frames it left. -/
theorem Kept.goesOn (h : Kept m) {e : Preemption.Event} {k : KernelStacks.Event n}
    (hok : Safe m (.switch e k)) (hnext : m.next (.switch e k) = some m') : GoesOn m m' := by
  obtain ⟨hswitches, hs, ht, hagree, -⟩ := next_switch hnext
  obtain ⟨hswitched, -⟩ := switches_switched hswitches ht
  refine ⟨resumed_point h.sched hok hs ?_ ?_ ?_, fun f hf => ?_⟩
  · rw [← hagree, ← h.agree]
    exact fun heq => hswitched.cur_ne (Fin.ext heq)
  · rintro rfl
    cases k <;> cases hq : m.sched.point <;> simp_all [Machine.switches]
  · rintro op rfl
    cases k <;> simp [Machine.switches] at hswitches
  · have hsame := hswitched.tasks_eq m'.kstacks.cur (Or.inl hswitched.cur_ne)
    have hleft := h.left _ f hswitched.cur_ne hswitched.alive hf
    rw [hleft, ← framesOf_eq h.kstacks hswitched.alive]
    unfold framesOf
    rw [hsame, hswitched.mem_eq]

end

/-- Task 1 runs in the kernel, and two more can be spawned. -/
def bootMachine : Machine 3 where
  sched := Preemption.bootMachine 0x1000
  kstacks := KernelStacks.bootMachine 1
  left := fun _ => none

/-- Task 1 spawns task 2 and is interrupted; `try_preempt` goes on with task 2,
which yields up to the restoring half of `context_switch`. -/
def handover : List (Event 3) :=
  (Preemption.calling .spawn 7).map .stay ++
    [.code (.interrupt (KernelStacks.userFrame 0x100000 0)), .code (.push 7),
      .switch .tick (.preempt 2), .code (.push 8)] ++
    (Preemption.calling .yieldNow 14).map .stay

end Resumption
