import Noxisa.TransitionSystem

/-!
# The kernel's stacks

SYSCALL does not switch stacks.  `syscall_handler` keeps RSP in one global variable and goes
on at the top of one global stack, with interrupts enabled: nothing writes IA32_FMASK, which
is 0 after a reset.  An interrupt in ring 3 goes on at the top of the stack that the TSS
names, which is one for all tasks as well; in ring 0 it goes on where RSP is.  Interrupts are
off from there until the handler returns, or until `try_preempt` switches tasks.

Which task the timer switches to is open, and so is what compiled code pushes and pops.  A
task that is not spawned yet is one that has not run.  Control goes where it is meant to:
`live` is a ghost with the words that a task has pushed and not popped, and the question is
whether the stack still has them.  Registers are those that the handler pushes and pops.
-/

namespace KernelStacks

/-- A word of memory or of a register. -/
abbrev Word := UInt64

/-- The stacks that the kernel runs on. -/
inductive Stack
  /-- of a task's `Tcb` -/
  | own (pid : Nat)
  /-- `SYSCALL_KSTACK` -/
  | syscallKstack
  /-- `RSP0_STACK` -/
  | rsp0Stack
deriving DecidableEq

/-- The stack pointer: any address of a user, or the number of words on a kernel stack. -/
inductive Rsp
  | user (address : Word)
  | kernel (stack : Stack) (depth : Nat)
deriving DecidableEq

/-- The registers that `syscall_handler` uses. -/
inductive Reg
  | rax | rcx | r11 | rdx
deriving DecidableEq

/-- Their contents. -/
structure Regs where
  rax : Word
  rcx : Word
  r11 : Word
  rdx : Word
deriving DecidableEq

/-- A register is read. -/
def Regs.get (r : Regs) : Reg → Word
  | .rax => r.rax
  | .rcx => r.rcx
  | .r11 => r.r11
  | .rdx => r.rdx

/-- A register is written. -/
def Regs.set (r : Regs) (w : Word) : Reg → Regs
  | .rax => { r with rax := w }
  | .rcx => { r with rcx := w }
  | .r11 => { r with r11 := w }
  | .rdx => { r with rdx := w }

/-- The functions that `syscall_handler` calls. -/
inductive Callee
  | checkedSysWrite | checkedSysDraw | sysExitHandler
deriving DecidableEq

/-- The instructions of `syscall_handler`. -/
inductive Instr
  /-- `mov [saved_rsp], rsp` -/
  | saveRsp
  /-- `lea rsp, [kstack + 8192]` -/
  | loadKstack
  | push (r : Reg)
  | call (f : Callee)
  | pop (r : Reg)
  /-- `mov rsp, [saved_rsp]` -/
  | loadRsp
  | sysretq
deriving DecidableEq

/-- What `syscall_handler` does for the value of `rax`. -/
def syscallHandler (rax : Word) : List Instr :=
  .saveRsp :: .loadKstack ::
    if rax = 1 then
      [.push .rcx, .push .r11, .push .rdx, .call .checkedSysWrite, .pop .rax, .pop .r11, .pop .rcx,
        .loadRsp, .sysretq]
    else if rax = 2 then
      [.push .rcx, .push .r11, .call .checkedSysDraw, .pop .r11, .pop .rcx, .loadRsp, .sysretq]
    else if rax = 60 then [.call .sysExitHandler]
    else [.loadRsp, .sysretq]

/-- Why code runs on a kernel stack. -/
inductive Cause
  | call (f : Callee)
  | irq
deriving DecidableEq

/-- A function of the handler, or an interrupt handler, under way, with the stack pointer and
the live words to return to.  The first `floor` words of the stack are not its own. -/
structure Activation where
  cause : Cause
  rsp : Rsp
  live : List Word
  floor : Nat
deriving DecidableEq

/-- What a task is doing. -/
inductive Mode
  /-- kernel code on the task's own stack -/
  | kernel
  | ring3
  /-- `syscall_handler`, with the rest of its code -/
  | handler (code : List Instr)
  | exited
deriving DecidableEq

/-- A task: its registers, its stack pointer and what is on its kernel stack. -/
structure Task where
  regs : Regs
  rsp : Rsp
  /-- what is on the kernel stack, the last word first -/
  live : List Word
  mode : Mode
  /-- the innermost one first -/
  acts : List Activation
  /-- RSP at the last SYSCALL -/
  callRsp : Word
deriving DecidableEq

/-- All tasks, the one that runs, and the memory of the kernel stacks. -/
structure Machine (n : Nat) where
  tasks : Fin n → Task
  cur : Fin n
  interrupts : Bool
  savedUserRsp : Word
  mem : Stack → Nat → Word

/-- The frame that the CPU pushes. -/
structure InterruptStackFrame where
  ss : Word
  rsp : Word
  rflags : Word
  cs : Word
  rip : Word
deriving DecidableEq

/-- In the order of the pushes. -/
def InterruptStackFrame.words (f : InterruptStackFrame) : List Word :=
  [f.ss, f.rsp, f.rflags, f.cs, f.rip]

/-- What can happen next. -/
inductive Event (n : Nat)
  /-- code in ring 3 sets the registers -/
  | compute (regs : Regs) (rsp : Word)
  | syscall (rip rflags : Word)
  /-- the next instruction of `syscall_handler`; a call pushes the address after it -/
  | step (after : Word)
  /-- a push of other kernel code -/
  | push (w : Word)
  | pop
  /-- the innermost function or interrupt handler returns -/
  | ret
  | interrupt (frame : InterruptStackFrame)
  /-- `try_preempt` in the interrupt handler switches tasks -/
  | preempt (next : Fin n)
  /-- a kernel thread yields -/
  | yieldTo (next : Fin n)
  /-- `exit_current` -/
  | exit (next : Fin n)
  /-- `jump_to_userspace` -/
  | enter (rsp : Word)
deriving DecidableEq

/-- In ring 3, and not interrupted. -/
def Task.InRing3 (t : Task) : Prop := t.mode = .ring3 ∧ t.acts = []

instance (t : Task) : Decidable t.InRing3 := inferInstanceAs (Decidable (_ ∧ _))

/-- In kernel code other than `syscall_handler` itself. -/
def Task.InKernel (t : Task) : Prop := t.mode = .kernel ∨ t.acts ≠ []

instance (t : Task) : Decidable t.InKernel := inferInstanceAs (Decidable (_ ∨ _))

/-- How deep the stack was when the innermost function or handler was entered. -/
def Task.floor (t : Task) : Nat := (t.acts.head?.map Activation.floor).getD 0

/-- Write words upwards from a depth. -/
def writeAll (mem : Nat → Word) (depth : Nat) (words : List Word) : Nat → Word :=
  match words with
  | [] => mem
  | w :: words => writeAll (Function.update mem depth w) (depth + 1) words

/-- The task after its pushes. -/
def Task.pushed (t : Task) (words : List Word) : Task :=
  match t.rsp with
  | .user a => { t with rsp := .user (a - 8 * UInt64.ofNat words.length) }
  | .kernel s depth =>
      { t with rsp := .kernel s (depth + words.length), live := words.reverse ++ t.live }

/-- The kernel stacks after pushes with this stack pointer. -/
def Rsp.write (rsp : Rsp) (words : List Word) (mem : Stack → Nat → Word) : Stack → Nat → Word :=
  match rsp with
  | .user _ => mem
  | .kernel s depth => Function.update mem s (writeAll (mem s) depth words)

namespace Machine

variable {n : Nat}

/-- The running task. -/
def task (m : Machine n) : Task := m.tasks m.cur

/-- The running task is changed. -/
def set (m : Machine n) (t : Task) : Machine n :=
  { m with tasks := Function.update m.tasks m.cur t }

/-- The current task is `t`, and pushes. -/
def push (m : Machine n) (t : Task) (words : List Word) : Machine n :=
  { m.set (t.pushed words) with mem := t.rsp.write words m.mem }

/-- A task that has not exited. -/
def alive (m : Machine n) (pid : Fin n) : Prop := (m.tasks pid).mode ≠ .exited

instance (m : Machine n) (pid : Fin n) : Decidable (m.alive pid) :=
  inferInstanceAs (Decidable (_ ≠ _))

/-- Go on with another task; interrupts are on. -/
def switchTo (m : Machine n) (next : Fin n) : Option (Machine n) :=
  if next ≠ m.cur ∧ m.alive next then some { m with cur := next, interrupts := true } else none

/-- An instruction of `syscall_handler`, for the current task `t`. -/
def execute (m : Machine n) (t : Task) (after : Word) : Instr → Option (Machine n)
  | .saveRsp =>
      match t.rsp with
      | .user a => some { m.set t with savedUserRsp := a }
      | .kernel _ _ => none
  | .loadKstack => some (m.set { t with rsp := .kernel .syscallKstack 0, live := [] })
  | .push r => some (m.push t [t.regs.get r])
  | .call f =>
      let call : Activation := ⟨.call f, t.rsp, t.live, t.live.length + 1⟩
      some (m.push { t with acts := call :: t.acts } [after])
  | .pop r =>
      match t.rsp with
      | .kernel s (depth + 1) =>
          some (m.set { t with
            rsp := .kernel s depth, live := t.live.tail
            regs := t.regs.set (m.mem s depth) r })
      | _ => none
  | .loadRsp => some (m.set { t with rsp := .user m.savedUserRsp, live := [] })
  | .sysretq => some (m.set { t with mode := .ring3 })

/-- The next instruction of `syscall_handler`. -/
def step (m : Machine n) (after : Word) : Option (Machine n) :=
  match m.task.acts, m.task.mode with
  | [], .handler (instr :: code) => m.execute { m.task with mode := .handler code } after instr
  | _, _ => none

/-- A `pop`, above what the innermost function or handler found. -/
def pop (m : Machine n) : Option (Machine n) :=
  match m.task.rsp with
  | .kernel s (depth + 1) =>
      if m.task.InKernel ∧ m.task.floor < m.task.live.length then
        some (m.set { m.task with rsp := .kernel s depth, live := m.task.live.tail })
      else none
  | _ => none

/-- `ret`, or `iretq`; `sys_exit_handler` does not return. -/
def ret (m : Machine n) : Option (Machine n) :=
  match m.task.acts with
  | act :: acts =>
      if act.cause = .call .sysExitHandler then none
      else
        some { m.set { m.task with rsp := act.rsp, live := act.live, acts := acts } with
          interrupts := m.interrupts || act.cause == .irq }
  | [] => none

/-- The CPU takes an interrupt. -/
def interrupt (m : Machine n) (frame : InterruptStackFrame) : Option (Machine n) :=
  if m.interrupts then
    let t := if m.task.InRing3 then { m.task with rsp := .kernel .rsp0Stack 0, live := [] }
      else m.task
    let irq : Activation := ⟨.irq, m.task.rsp, m.task.live, t.live.length + 5⟩
    some { m.push { t with acts := irq :: t.acts } frame.words with interrupts := false }
  else none

/-- One event: none where it cannot happen. -/
def next (m : Machine n) : Event n → Option (Machine n)
  | .compute regs rsp =>
      if m.task.InRing3 then some (m.set { m.task with regs := regs, rsp := .user rsp }) else none
  | .syscall rip rflags =>
      match m.task.rsp with
      | .user a =>
          if m.task.InRing3 then
            some (m.set { m.task with
              regs := { m.task.regs with rcx := rip, r11 := rflags }
              mode := .handler (syscallHandler m.task.regs.rax)
              callRsp := a })
          else none
      | .kernel _ _ => none
  | .step after => m.step after
  | .push w => if m.task.InKernel then some (m.push m.task [w]) else none
  | .pop => m.pop
  | .ret => m.ret
  | .interrupt frame => m.interrupt frame
  | .preempt next =>
      if m.interrupts = false then m.switchTo next else none
  | .yieldTo next => if m.task.mode = .kernel ∧ m.task.acts = [] then m.switchTo next else none
  | .exit next =>
      if (m.task.mode = .kernel ∧ m.task.acts = []) ∨
          m.task.acts.head?.map Activation.cause = some (.call .sysExitHandler) then
        (m.set { m.task with mode := .exited }).switchTo next
      else none
  | .enter rsp =>
      if m.task.mode = .kernel ∧ m.task.acts = [] then
        some (m.set { m.task with mode := .ring3, rsp := .user rsp, live := [] })
      else none

end Machine

/-- A task before it first runs, on its own kernel stack. -/
def bootTask (pid : Nat) : Task where
  regs := ⟨0, 0, 0, 0⟩
  rsp := .kernel (.own pid) 0
  live := []
  mode := .kernel
  acts := []
  callRsp := 0

/-- The machine before anything runs. -/
def bootMachine {n : Nat} (pid : Fin n) : Machine n where
  tasks := fun pid => bootTask pid
  cur := pid
  interrupts := true
  savedUserRsp := 0
  mem := fun _ _ => 0

/-- Runs of the machine of `n` tasks. -/
def kernelStacks (n : Nat) : TransitionSystem (Machine n) (Event n) where
  boot := fun m => ∃ pid, m = bootMachine pid
  next := Machine.next

/-- The stack pointer is in the stack. -/
def Task.On (t : Task) (s : Stack) : Prop := ∃ depth, t.rsp = .kernel s depth

instance (t : Task) (s : Stack) : Decidable (t.On s) :=
  match h : t.rsp with
  | .user _ => isFalse fun ⟨_, hdepth⟩ => by
      rw [h] at hdepth
      cases hdepth
  | .kernel s' depth =>
      if hs : s' = s then isTrue ⟨depth, hs ▸ h⟩
      else isFalse fun ⟨_, hdepth⟩ => hs (Rsp.kernel.inj (h.symm.trans hdepth)).1

/-- The stack, from the bottom, has these words. -/
def Spells (mem : Nat → Word) (live : List Word) : Prop :=
  (List.range live.length).map mem = live.reverse

instance (mem : Nat → Word) (live : List Word) : Decidable (Spells mem live) :=
  inferInstanceAs (Decidable (_ = _))

/-- **The frames on a stack** are those that its tasks have pushed. -/
def Intact {n : Nat} (s : Stack) (m : Machine n) : Prop :=
  ∀ pid, m.alive pid → (m.tasks pid).On s → Spells (m.mem s) (m.tasks pid).live

instance {n : Nat} (s : Stack) (m : Machine n) : Decidable (Intact s m) :=
  inferInstanceAs (Decidable (∀ _, _ → _ → _))

end KernelStacks
