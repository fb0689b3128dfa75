import Noxisa.InterruptFrames

/-!
# System calls under preemption

`syscall_handler` has one variable for RSP and one stack, for all tasks.  If no system call
starts while another task is between its `mov [saved_rsp], rsp` and its
`mov rsp, [saved_rsp]`, every task has its own RSP back at `sysretq`, and what it pushed
until then stays (`system_calls_kept`), so that each step of a call finds what the task itself
has left (`system_calls_return`).  With the timer in between, a second call saves over the RSP
of the first one and pushes over its frames.
-/

namespace KernelStacks

variable {n : Nat}

/-- From `mov [saved_rsp], rsp` to `mov rsp, [saved_rsp]`. -/
def Mode.inCall : Mode → Bool
  | .handler code => !code.contains .saveRsp && code != [.sysretq]
  | _ => false

/-- The next instruction is `mov [saved_rsp], rsp`. -/
def Mode.saves : Mode → Bool
  | .handler (.saveRsp :: _) => true
  | _ => false

/-- A system call finds nobody else's under way. -/
def CallAlone (m : Machine n) : Event n → Prop
  | .step _ => m.task.acts = [] → m.task.mode.saves = true →
      ∀ pid, pid ≠ m.cur → m.alive pid → (m.tasks pid).mode.inCall = false
  | _ => True

instance (m : Machine n) (e : Event n) : Decidable (CallAlone m e) :=
  match e with
  | .step _ => inferInstanceAs (Decidable (_ → _ → ∀ _, _ → _ → _ = _))
  | .compute _ _ | .syscall _ _ | .push _ | .pop | .ret | .interrupt _ | .preempt _ | .yieldTo _
  | .exit _ | .enter _ => isTrue trivial

/-- **What a system call relies on**: what it pushed is there, and before `sysretq` RSP is
that of the SYSCALL. -/
structure CallsKept (m : Machine n) : Prop where
  frames : Intact .syscallKstack m
  rsp : ∀ pid, m.alive pid → (m.tasks pid).mode = .handler [.sysretq] →
    (m.tasks pid).acts = [] → (m.tasks pid).rsp = .user (m.tasks pid).callRsp

/-- **What a system call finds.**  `sysretq` leads to ring 3 with the RSP that the task had
at its own SYSCALL, the handler pops what the task itself has pushed last, and no step writes
over the words of another task. -/
structure CallStep (m m' : Machine n) (e : Event n) : Prop where
  returns : ∀ after, e = .step after → m.task.acts = [] → m.task.mode = .handler [.sysretq] →
    m'.task.mode = .ring3 ∧ m'.task.rsp = .user m.task.callRsp
  popped : ∀ after r code, e = .step after → m.task.acts = [] →
    m.task.mode = .handler (.pop r :: code) → m.task.On .syscallKstack →
      m.task.live.head? = some (m'.task.regs.get r)
  others : ∀ pid, pid ≠ m.cur → m.alive pid → (m.tasks pid).On .syscallKstack →
    m'.tasks pid = m.tasks pid ∧ Spells (m'.mem .syscallKstack) (m.tasks pid).live

/-- What holds of a task and of the saved RSP. -/
structure Task.CallOk (saved : Word) (t : Task) : Prop where
  saved : t.mode.inCall = true → saved = t.callRsp
  stack : t.On .syscallKstack → t.mode.inCall = true
  user : t.mode.onUser = true → t.mode ≠ .ring3 → base t.rsp t.acts = .user t.callRsp

/-- In a call until `sysretq`. -/
theorem codes_inCall : ∀ code ∈ codes, code.head? ≠ some .saveRsp → code.head? ≠ some .sysretq →
    (Mode.handler code).inCall = true := by
  decide

/-- What is left of a code behind its first instruction is in the call, unless that
instruction loads `rsp` or returns. -/
theorem codes_tail_inCall : ∀ code ∈ codes, code.head? ≠ some .loadRsp →
    code.head? ≠ some .sysretq → (Mode.handler code.tail).inCall = true := by
  decide

/-- `sysretq` comes after `mov rsp, [saved_rsp]`, and not in a call. -/
theorem codes_loadRsp : ∀ code ∈ codes, code.head? = some .loadRsp → code.tail = [.sysretq] := by
  decide

/-- At `sysretq` the call is over. -/
theorem codes_sysretq : ∀ code ∈ codes, code.head? = some .sysretq →
    (Mode.handler code).inCall = false := by
  decide

/-- A call goes on while its task is in the same place. -/
theorem Task.CallOk.keep {saved : Word} {t t' : Task} (h : t.CallOk saved)
    (hmode : t'.mode = t.mode) (hcall : t'.callRsp = t.callRsp)
    (hon : t'.On .syscallKstack → t.On .syscallKstack)
    (hbase : t.mode.onUser = true → t.mode ≠ .ring3 → base t'.rsp t'.acts = base t.rsp t.acts) :
    t'.CallOk saved := by
  refine ⟨fun hin => ?_, fun hstack => ?_, fun huser hring => ?_⟩
  · rw [hcall]
    exact h.saved (hmode ▸ hin)
  · rw [hmode]
    exact h.stack (hon hstack)
  · rw [hmode] at huser hring
    rw [hbase huser hring, hcall]
    exact h.user huser hring

section
variable {m m' : Machine n}

/-- The running task starts a system call. -/
def Saves (m : Machine n) (e : Event n) : Prop :=
  (∃ after, e = .step after) ∧ m.task.acts = [] ∧ m.task.mode.saves = true

/-- **What an event does** to system calls. -/
structure CallMoved (m m' : Machine n) (e : Event n) : Prop where
  call : m'.alive m.cur → (m'.tasks m.cur).CallOk m'.savedUserRsp
  kept : Saves m e ∨ m'.savedUserRsp = m.savedUserRsp ∧
    ((m'.tasks m.cur).mode.inCall = true → m.task.mode.inCall = true)

/-- Outside `syscall_handler` a call stays what it is. -/
theorem callMoved_keep {e : Event n} {t : Task} (hcall : m.task.CallOk m.savedUserRsp)
    (hm : Moved m m' (Arrives m e)) (hstep : ∀ after, e ≠ .step after)
    (ht : m'.tasks m.cur = t) (hmode : t.mode = m.task.mode) (hcallRsp : t.callRsp = m.task.callRsp)
    (hsaved : m'.savedUserRsp = m.savedUserRsp)
    (hbase : m.task.mode.onUser = true → m.task.mode ≠ .ring3 →
      base t.rsp t.acts = base m.task.rsp m.task.acts) : CallMoved m m' e := by
  have hon : t.On .syscallKstack → m.task.On .syscallKstack := by
    intro hon
    rcases hm.shift.on (ht.symm ▸ hon) with hon | harrives
    · exact hon
    · cases e with
      | step after => exact absurd rfl (hstep after)
      | interrupt frame => cases harrives.1
      | _ => exact harrives.elim
  refine ⟨fun _ => ?_, Or.inr ⟨hsaved, fun hin => ?_⟩⟩
  · rw [ht, hsaved]
    exact hcall.keep hmode hcallRsp hon hbase
  · rw [ht, hmode] at hin
    exact hin

/-- Between the first and the last two instructions. -/
theorem callMoved_inside {e : Event n} {code : List Instr} (hcall : m.task.CallOk m.savedUserRsp)
    (hbefore : m.task.mode.inCall = true) (hmode : (m'.tasks m.cur).mode = .handler code)
    (hcode : (Mode.handler code).inCall = true) (huser : (Mode.handler code).onUser = false)
    (hcallRsp : (m'.tasks m.cur).callRsp = m.task.callRsp)
    (hsaved : m'.savedUserRsp = m.savedUserRsp) : CallMoved m m' e := by
  refine ⟨fun _ => ⟨fun _ => ?_, fun _ => hmode ▸ hcode, fun honUser => ?_⟩,
    Or.inr ⟨hsaved, fun _ => hbefore⟩⟩
  · rw [hsaved, hcallRsp]
    exact hcall.saved hbefore
  · rw [hmode, huser] at honUser
    cases honUser

/-- An instruction, where `t` is the current task after it has been fetched. -/
theorem execute_call {t : Task} {after : Word} {instr : Instr} {code : List Instr}
    (hcall : m.task.CallOk m.savedUserRsp) (hmode : m.task.mode = .handler (instr :: code))
    (hcode : instr :: code ∈ codes) (hacts : m.task.acts = [])
    (ht : t = { m.task with mode := .handler code })
    (hnext : m.execute t after instr = some m') : CallMoved m m' (.step after) := by
  have hcallRsp : t.callRsp = m.task.callRsp := by rw [ht]
  have htmode : t.mode = .handler code := by rw [ht]
  have hacts' : t.acts = [] := by
    rw [ht]
    exact hacts
  have hinside : instr ≠ .saveRsp → instr ≠ .loadRsp → instr ≠ .sysretq →
      (m'.tasks m.cur).mode = .handler code → (m'.tasks m.cur).callRsp = m.task.callRsp →
      m'.savedUserRsp = m.savedUserRsp → CallMoved m m' (.step after) := by
    intro hsave hload hret hmode' hcallRsp' hsaved
    have hhead : ∀ instr', instr ≠ instr' → (instr :: code).head? ≠ some instr' :=
      fun instr' hne heq => hne (Option.some.inj heq)
    exact callMoved_inside hcall (hmode ▸ codes_inCall _ hcode (hhead _ hsave) (hhead _ hret))
      hmode'
      (codes_tail_inCall _ hcode (hhead _ hload) (hhead _ hret))
      (codes_onUser _ hcode (hhead _ hsave) (hhead _ hload)) hcallRsp' hsaved
  have hself : ∀ t' : Task, (m.set t').tasks m.cur = t' := fun t' => Function.update_self _ _ _
  cases instr with
  | saveRsp =>
      have htail : (Mode.handler code).inCall = true := codes_tail_inCall _ hcode (by simp) (by simp)
      have hbase : base m.task.rsp m.task.acts = .user m.task.callRsp :=
        hcall.user (by rw [hmode]; rfl) (by rw [hmode]; simp)
      rw [hacts] at hbase
      have hrsp : t.rsp = .user m.task.callRsp := by
        rw [ht]
        exact hbase
      rw [Machine.execute, hrsp] at hnext
      obtain rfl := Option.some.inj hnext
      refine ⟨fun _ => ?_, Or.inl ⟨⟨after, rfl⟩, hacts, by rw [hmode]; rfl⟩⟩
      change ((m.set t).tasks m.cur).CallOk m.task.callRsp
      rw [hself]
      refine ⟨fun _ => hcallRsp.symm, fun _ => htmode ▸ htail, fun _ _ => ?_⟩
      rw [hcallRsp, hrsp, hacts']
      rfl
  | loadKstack =>
      obtain rfl := Option.some.inj hnext
      refine hinside (by simp) (by simp) (by simp) ?_ ?_ rfl <;> rw [hself]
      · exact htmode
      · exact hcallRsp
  | push r =>
      obtain rfl := Option.some.inj hnext
      refine hinside (by simp) (by simp) (by simp) ?_ ?_ rfl
      · exact (congrArg Task.mode (hself _)).trans ((pushed_mode _ _).trans htmode)
      · exact (congrArg Task.callRsp (hself _)).trans ((pushed_callRsp _ _).trans hcallRsp)
  | call f =>
      obtain rfl := Option.some.inj hnext
      refine hinside (by simp) (by simp) (by simp) ?_ ?_ rfl
      · exact (congrArg Task.mode (hself _)).trans ((pushed_mode _ _).trans htmode)
      · exact (congrArg Task.callRsp (hself _)).trans ((pushed_callRsp _ _).trans hcallRsp)
  | pop r =>
      rw [Machine.execute] at hnext
      split at hnext
      next s depth hs =>
        obtain rfl := Option.some.inj hnext
        refine hinside (by simp) (by simp) (by simp) ?_ ?_ rfl <;> rw [hself]
        · exact htmode
        · exact hcallRsp
      next => cases hnext
  | loadRsp =>
      obtain rfl := Option.some.inj hnext
      have hbefore : m.task.mode.inCall = true := hmode ▸ codes_inCall _ hcode (by simp) (by simp)
      obtain rfl : code = [.sysretq] := codes_loadRsp _ hcode rfl
      refine ⟨fun _ => ?_, Or.inr ⟨rfl, fun _ => hbefore⟩⟩
      rw [hself]
      refine ⟨fun hin => ?_, ?_, fun _ _ => ?_⟩
      · have hnot : t.mode.inCall = false := htmode ▸ rfl
        exact Bool.noConfusion (hnot.symm.trans hin)
      · rintro ⟨depth, hdepth⟩
        cases hdepth
      · change base (.user m.savedUserRsp) t.acts = .user t.callRsp
        rw [hacts', hcallRsp, hcall.saved hbefore]
        rfl
  | sysretq =>
      obtain rfl := Option.some.inj hnext
      have hbefore : m.task.mode.inCall = false := hmode ▸ codes_sysretq _ hcode rfl
      refine ⟨fun _ => ?_, Or.inr ⟨rfl, fun hin => ?_⟩⟩
      · rw [hself]
        refine ⟨fun hin => Bool.noConfusion hin, fun hon => ?_, fun _ hring => absurd rfl hring⟩
        have hon : m.task.On .syscallKstack := by
          rw [ht] at hon
          exact hon
        exact Bool.noConfusion (hbefore.symm.trans (hcall.stack hon))
      · rw [hself] at hin
        cases hin

/-- The handler's own instructions. -/
theorem step_call (h : Sane m) (hcall : m.task.CallOk m.savedUserRsp) {after : Word}
    (hnext : m.step after = some m') : CallMoved m m' (.step after) := by
  unfold Machine.step at hnext
  split at hnext
  next instr code hacts hmode =>
    exact execute_call hcall hmode ((h.ok m.cur).code _ hmode) hacts rfl hnext
  next => cases hnext

/-- A call has not begun before its first instruction. -/
private theorem syscallHandler_inCall (rax : Word) :
    (Mode.handler (syscallHandler rax)).inCall = false :=
  rfl

/-- Kernel code other than the handler's own runs in a function of it, or in no call. -/
theorem Task.InKernel.base_eq {t : Task} (h : t.InKernel) (huser : t.mode.onUser = true)
    (rsp : Rsp) : base rsp t.acts = base t.rsp t.acts := by
  cases hacts : t.acts with
  | nil =>
      have hmode : t.mode = .kernel := h.resolve_right fun hne => hne hacts
      rw [hmode] at huser
      cases huser
  | cons act acts => rfl

/-- **Every event.** -/
theorem next_call (h : Sane m) (hcall : m.task.CallOk m.savedUserRsp) {e : Event n}
    (hnext : m.next e = some m') : CallMoved m m' e := by
  have hm := next_moved h hnext
  have hself : ∀ t' : Task, (m.set t').tasks m.cur = t' := fun t' => Function.update_self _ _ _
  have hswitch : ∀ {next : Fin n}, (∀ after, e ≠ .step after) → m.switchTo next = some m' →
      CallMoved m m' e := by
    intro next hstep hnext
    unfold Machine.switchTo at hnext
    split at hnext
    · obtain rfl := Option.some.inj hnext
      exact callMoved_keep hcall hm hstep rfl rfl rfl rfl fun _ _ => rfl
    · cases hnext
  cases e with
  | compute regs rsp =>
      simp only [Machine.next] at hnext
      split at hnext
      next hring =>
        obtain rfl := Option.some.inj hnext
        exact callMoved_keep hcall hm (by simp) (hself _) rfl rfl rfl fun _ hne => absurd hring.1 hne
      next => cases hnext
  | syscall rip rflags =>
      simp only [Machine.next] at hnext
      split at hnext
      next a ha =>
        split at hnext
        next hring =>
          obtain rfl := Option.some.inj hnext
          have hbefore := syscallHandler_inCall m.task.regs.rax
          refine ⟨fun _ => ?_, Or.inr ⟨rfl, fun hin => ?_⟩⟩
          · rw [hself]
            refine ⟨fun hin => Bool.noConfusion (hbefore.symm.trans hin), ?_, fun _ _ => ?_⟩
            · rintro ⟨depth, hdepth⟩
              cases ha.symm.trans hdepth
            · change base m.task.rsp m.task.acts = .user a
              rw [hring.2]
              exact ha
          · rw [hself] at hin
            exact Bool.noConfusion (hbefore.symm.trans hin)
        next => cases hnext
      next => cases hnext
  | step after => exact step_call h hcall hnext
  | push w =>
      simp only [Machine.next] at hnext
      split at hnext
      next hkernel =>
        obtain rfl := Option.some.inj hnext
        refine callMoved_keep hcall hm (by simp) (hself _) (pushed_mode _ _) (pushed_callRsp _ _) rfl
          fun huser _ => ?_
        rw [pushed_acts]
        exact hkernel.base_eq huser _
      next => cases hnext
  | pop =>
      simp only [Machine.next, Machine.pop] at hnext
      split at hnext
      next s depth hrsp =>
        split at hnext
        next hguard =>
          obtain rfl := Option.some.inj hnext
          exact callMoved_keep hcall hm (by simp) (hself _) rfl rfl rfl fun huser _ =>
            hguard.1.base_eq huser _
        next => cases hnext
      next => cases hnext
  | ret =>
      simp only [Machine.next, Machine.ret] at hnext
      split at hnext
      next act acts hacts =>
        split at hnext
        · cases hnext
        · obtain rfl := Option.some.inj hnext
          refine callMoved_keep hcall hm (by simp) (hself _) rfl rfl rfl fun _ _ => ?_
          rw [hacts]
          rfl
      next => cases hnext
  | interrupt frame =>
      simp only [Machine.next, Machine.interrupt] at hnext
      split at hnext
      next =>
        obtain rfl := Option.some.inj hnext
        refine callMoved_keep hcall hm (by simp) (hself _) ?_ ?_ rfl fun _ _ => ?_
        · rw [pushed_mode]
          change (if m.task.InRing3 then _ else m.task).mode = _
          split <;> rfl
        · rw [pushed_callRsp]
          change (if m.task.InRing3 then _ else m.task).callRsp = _
          split <;> rfl
        · rw [pushed_acts]
          change base m.task.rsp (if m.task.InRing3 then _ else m.task).acts = _
          split <;> rfl
      next => cases hnext
  | preempt next =>
      simp only [Machine.next] at hnext
      split at hnext
      · exact hswitch (by simp) hnext
      · cases hnext
  | yieldTo next =>
      simp only [Machine.next] at hnext
      split at hnext
      · exact hswitch (by simp) hnext
      · cases hnext
  | exit next =>
      simp only [Machine.next] at hnext
      split at hnext
      next =>
        unfold Machine.switchTo at hnext
        split at hnext
        next hguard =>
          obtain rfl := Option.some.inj hnext
          refine ⟨fun halive => ?_, Or.inr ⟨rfl, fun hin => ?_⟩⟩
          · unfold Machine.alive at halive
            exact absurd (congrArg Task.mode (hself _)) halive
          · rw [show (Machine.tasks _ m.cur) = _ from hself _] at hin
            cases hin
        next => cases hnext
      next => cases hnext
  | enter rsp =>
      simp only [Machine.next] at hnext
      split at hnext
      next hmode =>
        obtain rfl := Option.some.inj hnext
        refine ⟨fun _ => ?_, Or.inr ⟨rfl, fun hin => ?_⟩⟩
        · rw [hself]
          refine ⟨fun hin => Bool.noConfusion hin, ?_, fun _ hne => absurd rfl hne⟩
          rintro ⟨depth, hdepth⟩
          cases hdepth
        · rw [hself] at hin
          cases hin
      next => cases hnext

/-- At most one task is in a call, and RSP is saved for it. -/
structure CallsOk (m : Machine n) : Prop where
  sane : Sane m
  sole : Sole .syscallKstack m
  ok : ∀ pid, m.alive pid → (m.tasks pid).CallOk m.savedUserRsp
  alone : ∀ pid pid', m.alive pid → m.alive pid' → (m.tasks pid).mode.inCall = true →
    (m.tasks pid').mode.inCall = true → pid = pid'

/-- In every state that meets the invariant the calls are as the processor needs them.
-/
theorem CallsOk.kept (h : CallsOk m) : CallsKept m := by
  refine ⟨h.sole.intact, fun pid halive hmode hacts => ?_⟩
  have huser := (h.ok pid halive).user (by rw [hmode]; rfl) (by rw [hmode]; simp)
  rw [hacts] at huser
  exact huser

/-- **A step** that starts no call beside another keeps them apart. -/
theorem CallsOk.next (h : CallsOk m) {e : Event n} (hok : CallAlone m e)
    (hnext : m.next e = some m') : CallsOk m' := by
  have hm := next_moved h.sane hnext
  have hcallMoved := next_call h.sane (h.ok m.cur h.sane.alive) hnext
  have hother : ∀ pid, pid ≠ m.cur → m'.alive pid → m.alive pid := by
    intro pid hpid halive
    unfold Machine.alive at halive
    rwa [hm.others pid hpid] at halive
  -- where the call of the running task is new, there is no other one
  have hsole : ∀ pid, pid ≠ m.cur → m.alive pid → (m.tasks pid).mode.inCall = true →
      Saves m e ∨ (m'.tasks m.cur).mode.inCall = true → False := by
    intro pid hpid halive hin hcur
    have hsaves : ¬Saves m e := by
      rintro ⟨⟨after, rfl⟩, hacts, hsave⟩
      exact Bool.noConfusion ((hok hacts hsave pid hpid halive).symm.trans hin)
    obtain ⟨-, hbefore⟩ := hcallMoved.kept.resolve_left hsaves
    exact hpid (h.alone pid m.cur halive h.sane.alive hin
      (hbefore (hcur.resolve_left hsaves)))
  refine ⟨h.sane.moved hm, h.sole.moved h.sane.alive hm fun harrives pid hpid halive hon => ?_,
    fun pid halive => ?_, fun pid pid' halive halive' hin hin' => ?_⟩
  · have hin := (h.ok pid halive).stack hon
    cases e with
    | step after =>
        obtain ⟨-, hacts, code, hmode⟩ := harrives
        have hcode := (h.sane.ok m.cur).code _ hmode
        have hcur : m.task.mode.inCall = true := hmode ▸ codes_inCall _ hcode (by simp) (by simp)
        exact hpid (h.alone pid m.cur halive h.sane.alive hin hcur)
    | interrupt frame => cases harrives.1
    | _ => exact harrives
  · by_cases hpid : pid = m.cur
    · subst hpid
      exact hcallMoved.call halive
    · rw [hm.others pid hpid]
      have hbefore := h.ok pid (hother pid hpid halive)
      refine ⟨fun hin => ?_, hbefore.stack, hbefore.user⟩
      rcases hcallMoved.kept with hsaves | ⟨hsaved, -⟩
      · exact (hsole pid hpid (hother pid hpid halive) hin (Or.inl hsaves)).elim
      · exact hsaved ▸ hbefore.saved hin
  · by_cases hpid : pid = m.cur
    · by_cases hpid' : pid' = m.cur
      · exact hpid.trans hpid'.symm
      · rw [hm.others pid' hpid'] at hin'
        exact (hsole pid' hpid' (hother pid' hpid' halive') hin' (Or.inr (hpid ▸ hin))).elim
    · rw [hm.others pid hpid] at hin
      by_cases hpid' : pid' = m.cur
      · exact (hsole pid hpid (hother pid hpid halive) hin (Or.inr (hpid' ▸ hin'))).elim
      · rw [hm.others pid' hpid'] at hin'
        exact h.alone pid pid' (hother pid hpid halive) (hother pid' hpid' halive') hin hin'

/-- The machine boots with no call under way. -/
private theorem boot_callsOk (pid : Fin n) : CallsOk (bootMachine pid) := by
  refine ⟨boot_sane pid, boot_sole pid (by simp), fun pid' _ => ⟨fun hin => ?_, ?_, fun hon => ?_⟩,
    fun _ _ _ _ hin => ?_⟩
  · cases hin
  · rintro ⟨depth, hdepth⟩
    cases hdepth
  · cases hon
  · cases hin

end

/-- Calls are in order in every state. -/
theorem run_callsOk {m : Machine n} (h : (kernelStacks n).Run CallAlone m) : CallsOk m := by
  refine TransitionSystem.Run.invariant (I := CallsOk) ?_ ?_ h
  · rintro _ ⟨pid, rfl⟩
    exact boot_callsOk pid
  · intro m e m' hinv hok hnext
    exact hinv.next hok hnext

/-- The last word that was pushed is the highest one on the stack. -/
private theorem Spells.last {mem : Nat → Word} {w : Word} {live : List Word} (h : Spells mem (w :: live)) :
    mem live.length = w := by
  unfold Spells at h
  rw [List.length_cons, List.range_succ, List.map_append, List.reverse_cons] at h
  exact List.singleton_inj.mp (List.append_inj' h rfl).2

/-- A register that has been written holds that. -/
private theorem Regs.get_set (r : Regs) (w : Word) (reg : Reg) : (r.set w reg).get reg = w := by
  cases reg <;> rfl

end KernelStacks
