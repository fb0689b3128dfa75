import Noxisa.StackFrames

/-!
# Interrupts in ring 3

All interrupts in ring 3 start at the top of one stack, and the timer's handler may not
return for long.  If no interrupt comes in ring 3 while another task has its frames there,
the frames stay until that task runs again (`interrupt_frames_kept`).  With two tasks in
ring 3, the second timer interrupt is on top of the frames of the first one.
-/

namespace KernelStacks

variable {n : Nat}

/-- An interrupt in ring 3 finds nobody else's frames on `RSP0_STACK`. -/
def RingAlone (m : Machine n) : Event n → Prop
  | .interrupt _ => m.task.InRing3 →
      ∀ pid, pid ≠ m.cur → m.alive pid → ¬(m.tasks pid).On .rsp0Stack
  | _ => True

instance (m : Machine n) (e : Event n) : Decidable (RingAlone m e) :=
  match e with
  | .interrupt _ => inferInstanceAs (Decidable (_ → ∀ _, _ → _ → ¬_))
  | .compute _ _ | .syscall _ _ | .step _ | .push _ | .pop | .ret | .preempt _ | .yieldTo _
  | .exit _ | .enter _ => isTrue trivial

/-- The machine boots in a sane state. -/
theorem boot_sane (pid : Fin n) : Sane (bootMachine pid) := by
  have hok : ∀ pid : Nat, (bootTask pid).Ok := fun pid => ⟨rfl, nofun, nofun⟩
  exact ⟨fun pid => hok pid, nofun⟩

/-- At boot, every task is on its own stack. -/
theorem boot_sole (pid : Fin n) {s : Stack} (hs : ∀ pid, s ≠ .own pid) :
    Sole s (bootMachine pid) := by
  have hon : ∀ pid', ¬((bootMachine pid).tasks pid').On s := by
    rintro pid' ⟨depth, hdepth⟩
    exact hs pid' (Rsp.kernel.inj hdepth).1.symm
  exact ⟨fun pid' _ _ _ hon' _ => (hon pid' hon').elim, fun pid' _ hon' => (hon pid' hon').elim⟩

/-- The stack that the TSS names has one task at a time. -/
theorem run_sole {m : Machine n} (h : (kernelStacks n).Run RingAlone m) :
    Sane m ∧ Sole .rsp0Stack m := by
  refine TransitionSystem.Run.invariant (I := fun m => Sane m ∧ Sole .rsp0Stack m) ?_ ?_ h
  · rintro _ ⟨pid, rfl⟩
    exact ⟨boot_sane pid, boot_sole pid nofun⟩
  · rintro m e m' ⟨hsane, hsole⟩ hok hnext
    have hmoved := next_moved hsane hnext
    refine ⟨hsane.moved hmoved, hsole.moved hsane.alive hmoved fun harrives => ?_⟩
    cases e with
    | interrupt frame => exact hok harrives.2
    | step after => cases harrives.1
    | _ => cases harrives

/-- On the stack of its own a task is alone at boot, -/
private theorem boot_own (pid : Fin n) (own : Nat) : Sole (.own own) (bootMachine pid) := by
  refine ⟨fun pid₁ pid₂ _ _ hon₁ hon₂ => ?_, fun _ _ _ => spells_nil _⟩
  obtain ⟨_, hdepth₁⟩ := hon₁
  obtain ⟨_, hdepth₂⟩ := hon₂
  have hown₁ := Stack.own.inj (Rsp.kernel.inj hdepth₁).1
  have hown₂ := Stack.own.inj (Rsp.kernel.inj hdepth₂).1
  exact Fin.ext (hown₁.trans hown₂.symm)

/-- and in every run: nobody arrives there. -/
theorem own_frames {m : Machine n} (h : (kernelStacks n).Reach m) (own : Nat) :
    Intact (.own own) m := by
  have hinv : Sane m ∧ Sole (.own own) m := by
    refine TransitionSystem.Reach.invariant (I := fun m => Sane m ∧ Sole (.own own) m) ?_ ?_ h
    · rintro _ ⟨pid, rfl⟩
      exact ⟨boot_sane pid, boot_own pid own⟩
    · rintro m e m' ⟨hsane, hsole⟩ hnext
      have hmoved := next_moved hsane hnext
      refine ⟨hsane.moved hmoved, hsole.moved hsane.alive hmoved fun harrives => ?_⟩
      cases e with
      | interrupt frame => cases harrives.1
      | step after => cases harrives.1
      | _ => cases harrives
  exact hinv.2.intact

/-- The frame of a task in ring 3. -/
def userFrame (rip rsp : Word) : InterruptStackFrame :=
  { ss := 0x1B, rsp := rsp, rflags := 0x202, cs := 0x23, rip := rip }

end KernelStacks
