import Noxisa.KernelStacks

/-!
# Frames on the kernel's stacks

A task has its frames on one kernel stack, those of an interrupted function below those of
the handler (`Nested`).  An event leaves the frames of the other tasks alone; the
running task pops some of its own, pushes more, or starts at the top of a stack that is not
its own (`Arrives`).  If nobody else is on that stack then, all frames on it stay what they
were (`Sole`).
-/

namespace KernelStacks

section
variable {mem : Nat → Word} {live live' words : List Word}

/-- What is left when words are taken off is still spelled out. -/
theorem Spells.suffix (h : Spells mem live) (hsub : live' <:+ live) : Spells mem live' := by
  have hprefix : live'.reverse <+: live.reverse := List.reverse_prefix.mpr hsub
  have htake : live'.reverse = live.reverse.take live'.length := by
    have heq := List.prefix_iff_eq_take.mp hprefix
    rwa [List.length_reverse] at heq
  have hrange : (List.range live.length).take live'.length = List.range live'.length := by
    rw [List.take_range, Nat.min_eq_left hsub.length_le]
  unfold Spells
  rw [htake, ← h, ← List.map_take, hrange]

/-- A word that is pushed is spelled out on top. -/
theorem Spells.push (h : Spells mem live) (w : Word) :
    Spells (Function.update mem live.length w) (w :: live) := by
  have hsame : (List.range live.length).map (Function.update mem live.length w) =
      (List.range live.length).map mem := by
    refine List.map_congr_left fun i hi => ?_
    exact Function.update_of_ne (Nat.ne_of_lt (List.mem_range.mp hi)) w mem
  unfold Spells
  rw [List.length_cons, List.range_succ, List.map_append, hsame, h, List.map_singleton,
    Function.update_self, List.reverse_cons]

/-- Several words that are pushed. -/
theorem Spells.writeAll (h : Spells mem live) :
    Spells (writeAll mem live.length words) (words.reverse ++ live) := by
  induction words generalizing mem live with
  | nil => exact h
  | cons w words ih =>
      have hpushed := ih (h.push w)
      rw [List.reverse_cons, List.append_assoc]
      exact hpushed

/-- An empty stack is spelled out by any memory. -/
theorem spells_nil (mem : Nat → Word) : Spells mem [] := rfl

end

/-- The stack pointer points right after the live words. -/
def Rsp.Fits (rsp : Rsp) (live : List Word) : Prop :=
  match rsp with
  | .user _ => live = []
  | .kernel _ depth => depth = live.length

/-- From a user's stack to any stack; a kernel stack is not left. -/
def Rsp.Leads : Rsp → Rsp → Prop
  | .user _, _ => True
  | .kernel s _, .kernel s' _ => s = s'
  | .kernel _ _, .user _ => False

/-- What there is to return to is on the same stack, below. -/
def Nested (rsp : Rsp) (live : List Word) : List Activation → Prop
  | [] => rsp.Fits live
  | act :: acts =>
      rsp.Fits live ∧ act.rsp.Leads rsp ∧ act.live <:+ live ∧ act.live.length ≤ act.floor ∧
        Nested act.rsp act.live acts

section
variable {rsp rsp' : Rsp} {live live' words : List Word} {acts : List Activation} {act : Activation}

/-- Nested frames fit on the stack. -/
theorem Nested.fits (h : Nested rsp live acts) : rsp.Fits live := by
  cases acts with
  | nil => exact h
  | cons act acts => exact h.1

/-- Another stack pointer on the same stack, with the frames below still there. -/
theorem Nested.move (h : Nested rsp live acts) (hfits : rsp'.Fits live')
    (hleads : ∀ back : Rsp, back.Leads rsp → back.Leads rsp')
    (hlive : ∀ act ∈ acts.head?, act.live <:+ live → act.live.length ≤ act.floor →
      act.live <:+ live') : Nested rsp' live' acts := by
  cases acts with
  | nil => exact hfits
  | cons act acts =>
      obtain ⟨-, hstack, hsub, hfloor, hrest⟩ := h
      exact ⟨hfits, hleads _ hstack, hlive act rfl hsub hfloor, hfloor, hrest⟩

/-- A stack pointer leads back to itself. -/
theorem Rsp.Leads.refl (rsp : Rsp) : rsp.Leads rsp := by
  cases rsp with
  | user a => trivial
  | kernel s depth => rfl

/-- It leads back to the same stack at another depth. -/
theorem Rsp.Leads.kernel {back : Rsp} {s : Stack} {depth : Nat} (h : back.Leads (.kernel s depth))
    (depth' : Nat) : back.Leads (.kernel s depth') := by
  cases back with
  | user a => trivial
  | kernel s' d => exact h

/-- It leads back to ring 3 at any address. -/
theorem Rsp.Leads.user {back : Rsp} {a : Word} (h : back.Leads (.user a)) (a' : Word) :
    back.Leads (.user a') := by
  cases back with
  | user a => trivial
  | kernel s d => exact h.elim

end

/-- The stack pointer outside all functions and interrupts. -/
def base : Rsp → List Activation → Rsp
  | rsp, [] => rsp
  | _, act :: acts => base act.rsp acts

/-- Every point of `syscall_handler`. -/
def codes : List (List Instr) :=
  ([1, 2, 60, 0] : List Word).flatMap fun rax => (syscallHandler rax).tails

/-- The handler's code is one of the code lists. -/
private theorem syscallHandler_mem (rax : Word) : syscallHandler rax ∈ codes := by
  unfold syscallHandler
  split
  · decide
  · split
    · decide
    · split <;> decide

/-- So is what is left of it after an instruction. -/
theorem codes_tail : ∀ code ∈ codes, code.tail ∈ codes := by decide

/-- RSP is the user's there. -/
def Mode.onUser : Mode → Bool
  | .ring3 | .handler (.saveRsp :: _) | .handler (.loadKstack :: _)
  | .handler (.sysretq :: _) => true
  | _ => false

/-- RSP is the user's after SYSCALL and before `sysretq` only. -/
theorem codes_onUser : ∀ code ∈ codes, code.head? ≠ some .saveRsp → code.head? ≠ some .loadRsp →
    (Mode.handler code.tail).onUser = false := by
  decide

/-- What holds of every task. -/
structure Task.Ok (t : Task) : Prop where
  nested : Nested t.rsp t.live t.acts
  code : ∀ code, t.mode = .handler code → code ∈ codes
  base : t.mode.onUser = true → ∃ a, base t.rsp t.acts = .user a

section
variable {t : Task} {words : List Word}

/-- Pushing words starts no function. -/
theorem pushed_acts (t : Task) (words : List Word) : (t.pushed words).acts = t.acts := by
  unfold Task.pushed
  split <;> rfl

/-- It does not change what the task is doing. -/
theorem pushed_mode (t : Task) (words : List Word) : (t.pushed words).mode = t.mode := by
  unfold Task.pushed
  split <;> rfl

/-- Nor what it had as its stack pointer at the last call. -/
theorem pushed_callRsp (t : Task) (words : List Word) : (t.pushed words).callRsp = t.callRsp := by
  unfold Task.pushed
  split <;> rfl

/-- Nor the stack it is on. -/
theorem pushed_on {s : Stack} (h : (t.pushed words).On s) : t.On s := by
  obtain ⟨depth, hdepth⟩ := h
  unfold Task.pushed at hdepth
  split at hdepth
  next a ha => cases hdepth
  next s' depth' hs =>
    obtain ⟨rfl, -⟩ := Rsp.kernel.inj hdepth
    exact ⟨depth', hs⟩

/-- Pushes are above the frames there are. -/
theorem pushed_nested (h : Nested t.rsp t.live t.acts) (words : List Word) :
    Nested (t.pushed words).rsp (t.pushed words).live t.acts := by
  have hfits := h.fits
  unfold Task.pushed
  split
  next a ha =>
    rw [ha] at h hfits
    exact h.move hfits (fun back hback => hback.user _) fun act _ hsub _ => hsub
  next s depth hs =>
    rw [hs] at h hfits
    refine h.move ?_ (fun back hback => hback.kernel _) fun act _ hsub _ =>
      hsub.trans (List.suffix_append _ _)
    change depth + words.length = (words.reverse ++ t.live).length
    rw [List.length_append, List.length_reverse, show depth = t.live.length from hfits]
    exact Nat.add_comm _ _

/-- A task that is in order is so with more words pushed. -/
theorem pushed_ok (h : t.Ok) (words : List Word) : (t.pushed words).Ok := by
  refine ⟨?_, fun code hcode => h.code code (pushed_mode t words ▸ hcode), fun huser => ?_⟩
  · rw [pushed_acts]
    exact pushed_nested h.nested words
  · rw [pushed_mode] at huser
    obtain ⟨a, ha⟩ := h.base huser
    rw [pushed_acts]
    cases hacts : t.acts with
    | nil =>
        rw [hacts] at ha
        have hrsp : t.rsp = .user a := ha
        unfold Task.pushed
        rw [hrsp]
        exact ⟨_, rfl⟩
    | cons act acts =>
        rw [hacts] at ha
        exact ⟨a, ha⟩

end

section
variable {n : Nat} {m m' : Machine n} {arrives : Stack → Prop}

/-- The running task starts at the top of a kernel stack that is not its own. -/
def Arrives (m : Machine n) (e : Event n) (s : Stack) : Prop :=
  match e with
  | .interrupt _ => s = .rsp0Stack ∧ m.task.InRing3
  | .step _ => s = .syscallKstack ∧ m.task.acts = [] ∧
      ∃ code, m.task.mode = .handler (.loadKstack :: code)
  | _ => False

/-- What happens to the frames of the running task. -/
inductive Shift (m m' : Machine n) (arrives : Stack → Prop) : Prop
  | stays (hmem : m'.mem = m.mem)
      (hon : ∀ s, (m'.tasks m.cur).On s → m.task.On s ∧ (m'.tasks m.cur).live <:+ m.task.live)
  | writes (s : Stack) (base words : List Word)
      (hmem : m'.mem = Function.update m.mem s (writeAll (m.mem s) base.length words))
      (hon : ∀ s', (m'.tasks m.cur).On s' → s' = s)
      (hlive : (m'.tasks m.cur).live = words.reverse ++ base)
      (hbase : m.task.On s ∧ base = m.task.live ∨ base = [] ∧ arrives s)

/-- The running task comes to a stack only where it arrives. -/
theorem Shift.on {s : Stack} (h : Shift m m' arrives) (hon : (m'.tasks m.cur).On s) :
    m.task.On s ∨ arrives s := by
  cases h with
  | stays hmem hstay => exact Or.inl (hstay s hon).1
  | writes s' base words hmem hon' hlive hbase =>
      obtain rfl := hon' s hon
      exact hbase.imp And.left And.right

/-- **What an event does**: nothing to the other tasks. -/
structure Moved (m m' : Machine n) (arrives : Stack → Prop) : Prop where
  others : ∀ pid, pid ≠ m.cur → m'.tasks pid = m.tasks pid
  ok : (m'.tasks m.cur).Ok
  alive : m'.alive m'.cur
  shift : Shift m m' arrives

/-- The running task has not exited. -/
structure Sane (m : Machine n) : Prop where
  ok : ∀ pid, (m.tasks pid).Ok
  alive : m.alive m.cur

/-- **A move** keeps the machine sane. -/
theorem Sane.moved (h : Sane m) (hm : Moved m m' arrives) : Sane m' := by
  refine ⟨fun pid => ?_, hm.alive⟩
  by_cases hpid : pid = m.cur
  · exact hpid ▸ hm.ok
  · rw [hm.others pid hpid]
    exact h.ok pid

/-- The running task has not exited. -/
theorem alive_cur {t : Task} (htasks : m'.tasks = Function.update m.tasks m.cur t)
    (hcur : m'.cur = m.cur) (h : t.mode ≠ .exited) : m'.alive m'.cur := by
  unfold Machine.alive
  rw [hcur, htasks, Function.update_self]
  exact h

/-- The running task changes, and the stacks do not. -/
theorem moved_set {t : Task} (htasks : m'.tasks = Function.update m.tasks m.cur t)
    (hmem : m'.mem = m.mem) (halive : m'.alive m'.cur) (ht : t.Ok)
    (hon : ∀ s, t.On s → m.task.On s ∧ t.live <:+ m.task.live) : Moved m m' arrives := by
  have hself : m'.tasks m.cur = t := by rw [htasks, Function.update_self]
  refine ⟨fun pid hpid => ?_, hself ▸ ht, halive, .stays hmem ?_⟩
  · rw [htasks, Function.update_of_ne hpid]
  · rw [hself]
    exact hon

/-- The running task pushes, where it is or at the top of another stack. -/
theorem moved_push {t : Task} (words : List Word)
    (htasks : m'.tasks = Function.update m.tasks m.cur (t.pushed words))
    (hmem : m'.mem = t.rsp.write words m.mem) (hcur : m'.cur = m.cur)
    (ht : t.Ok) (halive : t.mode ≠ .exited)
    (hbase : ∀ s depth, t.rsp = .kernel s depth →
      m.task.On s ∧ t.live = m.task.live ∨ t.live = [] ∧ arrives s) : Moved m m' arrives := by
  have hself : m'.tasks m.cur = t.pushed words := by rw [htasks, Function.update_self]
  have hmode : (t.pushed words).mode ≠ .exited := pushed_mode t words ▸ halive
  refine ⟨fun pid hpid => ?_, hself ▸ pushed_ok ht words, alive_cur htasks hcur hmode, ?_⟩
  · rw [htasks, Function.update_of_ne hpid]
  · cases hrsp : t.rsp with
    | user a =>
        refine .stays (by rw [hmem, hrsp]; rfl) fun s hs => ?_
        rw [hself] at hs
        obtain ⟨depth, hdepth⟩ := pushed_on hs
        rw [hrsp] at hdepth
        cases hdepth
    | kernel s depth =>
        have hfits := ht.nested.fits
        rw [hrsp] at hfits
        refine .writes s t.live words ?_ (fun s' hs' => ?_) ?_ (hbase s depth hrsp)
        · rw [hmem, hrsp, ← show depth = t.live.length from hfits]
          rfl
        · rw [hself] at hs'
          obtain ⟨depth', hdepth'⟩ := pushed_on hs'
          rw [hrsp] at hdepth'
          exact (Rsp.kernel.inj hdepth').1.symm
        · rw [hself]
          unfold Task.pushed
          rw [hrsp]

/-- A proper end of a list is an end of its tail. -/
private theorem suffix_tail {live live' : List Word} (h : live' <:+ live)
    (hlength : live'.length < live.length) : live' <:+ live.tail := by
  cases live with
  | nil => cases hlength
  | cons w live =>
      rcases List.suffix_cons_iff.mp h with rfl | h
      · exact absurd hlength (Nat.lt_irrefl _)
      · exact h

/-- The task pops a word that is its own. -/
theorem Task.Ok.pop {t : Task} {s : Stack} {depth : Nat} (ht : t.Ok)
    (hrsp : t.rsp = .kernel s (depth + 1)) (hfloor : t.floor < t.live.length)
    (huser : t.mode.onUser = true → t.acts ≠ []) :
    Task.Ok { t with rsp := .kernel s depth, live := t.live.tail } := by
  have hnested := ht.nested
  have hfits := hnested.fits
  rw [hrsp] at hnested hfits
  refine ⟨hnested.move ?_ (fun back hback => hback.kernel _) fun act hact hsub hbelow => ?_,
    ht.code, fun hmode => ?_⟩
  · have hlength : depth + 1 = t.live.length := hfits
    change depth = t.live.tail.length
    rw [List.length_tail, ← hlength]
    rfl
  · have hact' : t.floor = act.floor := by
      unfold Task.floor
      rw [hact]
      rfl
    exact suffix_tail hsub (Nat.lt_of_le_of_lt hbelow (hact' ▸ hfloor))
  · obtain ⟨a, ha⟩ := ht.base hmode
    change ∃ a, KernelStacks.base _ t.acts = _
    cases hacts : t.acts with
    | nil => exact absurd hacts (huser hmode)
    | cons act acts =>
        rw [hacts] at ha
        exact ⟨a, ha⟩

/-- The next instruction of the handler. -/
theorem Task.Ok.advance {t : Task} {instr : Instr} {code : List Instr} (ht : t.Ok)
    (hmode : t.mode = .handler (instr :: code))
    (huser : (Mode.handler code).onUser = true → t.mode.onUser = true) :
    Task.Ok { t with mode := .handler code } := by
  refine ⟨ht.nested, fun code' hcode' => ?_, fun honUser => ht.base (huser honUser)⟩
  obtain rfl := Mode.handler.inj hcode'
  exact codes_tail _ (ht.code _ hmode)

/-- An instruction, where `t` is the current task after it has been fetched. -/
theorem execute_moved {t : Task} {after : Word} {instr : Instr} (hrsp : t.rsp = m.task.rsp)
    (hlive : t.live = m.task.live) (hacts : t.acts = []) (halive : t.mode ≠ .exited)
    (harrive : instr = .loadKstack → arrives .syscallKstack)
    (hcode : ∀ code, t.mode = .handler code → code ∈ codes)
    (ht : instr ≠ .loadRsp → t.Ok)
    (huser : instr ≠ .saveRsp → instr ≠ .loadRsp → t.mode.onUser = false)
    (hret : instr = .sysretq → ∃ a, t.rsp = .user a)
    (hnext : m.execute t after instr = some m') : Moved m m' arrives := by
  have hon : ∀ s, t.On s → m.task.On s ∧ t.live <:+ m.task.live := by
    rintro s ⟨depth, hdepth⟩
    exact ⟨⟨depth, hrsp ▸ hdepth⟩, hlive ▸ List.suffix_refl _⟩
  have hpushes : ∀ s depth, t.rsp = .kernel s depth →
      m.task.On s ∧ t.live = m.task.live ∨ t.live = [] ∧ arrives s :=
    fun s depth hs => Or.inl ⟨⟨depth, hrsp ▸ hs⟩, hlive⟩
  cases instr with
  | saveRsp =>
      rw [Machine.execute] at hnext
      split at hnext
      · obtain rfl := Option.some.inj hnext
        exact moved_set rfl rfl (alive_cur rfl rfl halive) (ht nofun) hon
      · cases hnext
  | loadKstack =>
      obtain rfl := Option.some.inj hnext
      refine moved_push (t := { t with rsp := .kernel .syscallKstack 0, live := [] }) [] rfl
        (Function.update_eq_self _ _).symm rfl ⟨?_, hcode, ?_⟩ halive ?_
      · rw [hacts]
        rfl
      · intro honUser
        rw [show t.mode.onUser = false from huser nofun nofun] at honUser
        cases honUser
      · intro s depth hs
        obtain ⟨rfl, -⟩ := Rsp.kernel.inj hs
        exact Or.inr ⟨rfl, harrive rfl⟩
  | push r =>
      obtain rfl := Option.some.inj hnext
      exact moved_push _ rfl rfl rfl (ht nofun) halive hpushes
  | call f =>
      obtain rfl := Option.some.inj hnext
      have hnested := (ht nofun).nested
      refine moved_push [after] rfl rfl rfl ⟨?_, hcode, ?_⟩ halive hpushes
      · exact ⟨hnested.fits, .refl _, List.suffix_refl _, Nat.le_succ _, hnested⟩
      · intro honUser
        rw [show t.mode.onUser = false from huser nofun nofun] at honUser
        cases honUser
  | pop r =>
      rw [Machine.execute] at hnext
      split at hnext
      next s depth hs =>
        obtain rfl := Option.some.inj hnext
        have hfits := (ht nofun).nested.fits
        rw [hs] at hfits
        have hfloor : t.floor < t.live.length := by
          rw [Task.floor, hacts, ← show depth + 1 = t.live.length from hfits]
          exact Nat.succ_pos depth
        have hpop := (ht nofun).pop hs hfloor fun honUser => by
          rw [huser nofun nofun] at honUser
          cases honUser
        refine moved_set rfl rfl (alive_cur rfl rfl halive) ⟨hpop.nested, hpop.code, hpop.base⟩ ?_
        rintro s' ⟨depth', hdepth'⟩
        obtain ⟨rfl, -⟩ := Rsp.kernel.inj hdepth'
        exact ⟨(hon s ⟨_, hs⟩).1, (List.tail_suffix _).trans (hon s ⟨_, hs⟩).2⟩
      next => cases hnext
  | loadRsp =>
      obtain rfl := Option.some.inj hnext
      refine moved_set rfl rfl (alive_cur rfl rfl halive) ⟨?_, hcode, fun _ => ?_⟩ ?_
      · rw [hacts]
        rfl
      · rw [hacts]
        exact ⟨_, rfl⟩
      · rintro s ⟨depth, hdepth⟩
        cases hdepth
  | sysretq =>
      obtain rfl := Option.some.inj hnext
      refine moved_set rfl rfl (alive_cur rfl rfl nofun) ⟨(ht nofun).nested, nofun, fun _ => ?_⟩ hon
      rw [hacts]
      exact hret rfl

/-- **An instruction of the handler** moves the machine as the events do. -/
theorem step_moved (h : Sane m) {after : Word} (hnext : m.step after = some m') :
    Moved m m' (Arrives m (.step after)) := by
  have ht := h.ok m.cur
  unfold Machine.step at hnext
  split at hnext
  next instr code hacts hmode =>
    have hcode := ht.code _ hmode
    have hquiet : instr ≠ .saveRsp → instr ≠ .loadRsp → (Mode.handler code).onUser = false :=
      fun hsave hload => codes_onUser _ hcode (fun heq => hsave (Option.some.inj heq))
        fun heq => hload (Option.some.inj heq)
    refine execute_moved (t := { m.task with mode := .handler code }) rfl rfl hacts nofun ?_ ?_ ?_
      hquiet ?_ hnext
    · rintro rfl
      exact ⟨rfl, hacts, code, hmode⟩
    · intro code' hcode'
      obtain rfl := Mode.handler.inj hcode'
      exact codes_tail _ hcode
    · intro hload
      refine ht.advance hmode fun honUser => ?_
      by_cases hsave : instr = .saveRsp
      · rw [show (m.tasks m.cur).mode = _ from hmode, hsave]
        rfl
      · rw [hquiet hsave hload] at honUser
        cases honUser
    · rintro rfl
      have hbase := ht.base (by rw [show (m.tasks m.cur).mode = _ from hmode]; rfl)
      rw [show (m.tasks m.cur).acts = _ from hacts] at hbase
      exact hbase
  next => cases hnext

/-- **A switch** does, if the task leaves no more behind than it had. -/
theorem switchTo_moved {t : Task} {next : Fin n} (ht : t.Ok)
    (hon : ∀ s, t.On s → m.task.On s ∧ t.live <:+ m.task.live)
    (hnext : (m.set t).switchTo next = some m') : Moved m m' arrives := by
  unfold Machine.switchTo at hnext
  split at hnext
  next hguard =>
    obtain rfl := Option.some.inj hnext
    exact moved_set rfl rfl hguard.2 ht hon
  next => cases hnext

/-- The interrupt handler starts above the frames there are, or on `RSP0_STACK`. -/
theorem interrupt_moved (h : Sane m) {frame : InterruptStackFrame}
    (hnext : m.interrupt frame = some m') : Moved m m' (Arrives m (.interrupt frame)) := by
  have ht : m.task.Ok := h.ok m.cur
  have hfits := ht.nested.fits
  unfold Machine.interrupt at hnext
  split at hnext
  next =>
    by_cases hring : m.task.InRing3
    · simp only [if_pos hring, Option.some.injEq] at hnext
      subst hnext
      obtain ⟨a, ha⟩ := ht.base (by rw [hring.1]; rfl)
      rw [hring.2] at ha
      have hrsp : m.task.rsp = .user a := ha
      rw [hrsp] at hfits
      have hlive : m.task.live = [] := hfits
      refine moved_push frame.words rfl rfl rfl ⟨⟨rfl, ?_, ?_, ?_, ht.nested⟩, ht.code,
        ht.base⟩ h.alive ?_
      · rw [hrsp]
        trivial
      · rw [hlive]
      · rw [hlive]
        exact Nat.zero_le _
      · intro s depth hs
        obtain ⟨rfl, -⟩ := Rsp.kernel.inj hs
        exact Or.inr ⟨rfl, rfl, hring⟩
    · simp only [if_neg hring, Option.some.injEq] at hnext
      subst hnext
      refine moved_push frame.words rfl rfl rfl
        ⟨⟨hfits, .refl _, List.suffix_refl _, Nat.le_add_right _ _, ht.nested⟩, ht.code, ht.base⟩
        h.alive fun s depth hs => Or.inl ⟨⟨depth, hs⟩, rfl⟩
  next => cases hnext

/-- **Every event.** -/
theorem next_moved (h : Sane m) {e : Event n} (hnext : m.next e = some m') :
    Moved m m' (Arrives m e) := by
  have ht : m.task.Ok := h.ok m.cur
  have halive : m.task.mode ≠ .exited := h.alive
  have hsame : ∀ s, m.task.On s → m.task.On s ∧ m.task.live <:+ m.task.live :=
    fun s hs => ⟨hs, List.suffix_refl _⟩
  have hswitch : ∀ {next : Fin n} {arrives : Stack → Prop}, m.switchTo next = some m' →
      Moved m m' arrives := by
    intro next arrives hnext
    have hset : m.set m.task = m := by
      unfold Machine.set Machine.task
      rw [Function.update_eq_self]
    exact switchTo_moved ht hsame (hset.symm ▸ hnext)
  cases e with
  | compute regs rsp =>
      simp only [Machine.next] at hnext
      split at hnext
      next hring =>
        obtain rfl := Option.some.inj hnext
        obtain ⟨a, ha⟩ := ht.base (by rw [hring.1]; rfl)
        have hlive := ht.nested.fits
        rw [hring.2] at ha
        rw [show m.task.rsp = .user a from ha] at hlive
        refine moved_set rfl rfl (alive_cur rfl rfl halive) ⟨?_, ht.code, fun _ => ?_⟩ ?_
        · rw [hring.2]
          exact hlive
        · rw [hring.2]
          exact ⟨_, rfl⟩
        · rintro s ⟨depth, hdepth⟩
          cases hdepth
      next => cases hnext
  | syscall rip rflags =>
      simp only [Machine.next] at hnext
      split at hnext
      next a ha =>
        split at hnext
        next hring =>
          obtain rfl := Option.some.inj hnext
          refine moved_set rfl rfl (alive_cur rfl rfl nofun) ⟨ht.nested, ?_, fun _ => ?_⟩ hsame
          · rintro code hcode
            obtain rfl := Mode.handler.inj hcode
            exact syscallHandler_mem _
          · exact ht.base (by rw [hring.1]; rfl)
        next => cases hnext
      next => cases hnext
  | step after => exact step_moved h hnext
  | push w =>
      simp only [Machine.next] at hnext
      split at hnext
      · obtain rfl := Option.some.inj hnext
        exact moved_push _ rfl rfl rfl ht halive fun s depth hs => Or.inl ⟨⟨depth, hs⟩, rfl⟩
      · cases hnext
  | pop =>
      simp only [Machine.next, Machine.pop] at hnext
      split at hnext
      next s depth hrsp =>
        split at hnext
        next hguard =>
          obtain rfl := Option.some.inj hnext
          have hpop := ht.pop hrsp hguard.2 fun honUser hacts => by
            rcases hguard.1 with hmode | hne
            · rw [hmode] at honUser
              cases honUser
            · exact hne hacts
          refine moved_set rfl rfl (alive_cur rfl rfl halive) hpop ?_
          rintro s' ⟨depth', hdepth'⟩
          obtain ⟨rfl, -⟩ := Rsp.kernel.inj hdepth'
          exact ⟨⟨_, hrsp⟩, List.tail_suffix _⟩
        next => cases hnext
      next => cases hnext
  | ret =>
      simp only [Machine.next, Machine.ret] at hnext
      split at hnext
      next act acts hacts =>
        split at hnext
        · cases hnext
        · obtain rfl := Option.some.inj hnext
          have hnested := ht.nested
          rw [hacts] at hnested
          obtain ⟨-, hleads, hsub, -, hrest⟩ := hnested
          refine moved_set rfl rfl (alive_cur rfl rfl halive)
            ⟨hrest, ht.code, fun honUser => ?_⟩ ?_
          · have hbase := ht.base honUser
            rw [hacts] at hbase
            exact hbase
          · rintro s ⟨depth, hdepth⟩
            have hdepth : act.rsp = .kernel s depth := hdepth
            rw [hdepth] at hleads
            cases hrsp : m.task.rsp with
            | user a =>
                rw [hrsp] at hleads
                exact hleads.elim
            | kernel s' depth' =>
                rw [hrsp] at hleads
                obtain rfl : s = s' := hleads
                exact ⟨⟨_, hrsp⟩, hsub⟩
      next => cases hnext
  | interrupt frame => exact interrupt_moved h hnext
  | preempt next =>
      simp only [Machine.next] at hnext
      split at hnext
      · exact hswitch hnext
      · cases hnext
  | yieldTo next =>
      simp only [Machine.next] at hnext
      split at hnext
      · exact hswitch hnext
      · cases hnext
  | exit next =>
      simp only [Machine.next] at hnext
      split at hnext
      · exact switchTo_moved (t := { m.task with mode := .exited }) ⟨ht.nested, nofun, nofun⟩
          hsame hnext
      · cases hnext
  | enter rsp =>
      simp only [Machine.next] at hnext
      split at hnext
      next hmode =>
        obtain rfl := Option.some.inj hnext
        refine moved_set rfl rfl (alive_cur rfl rfl nofun) ⟨?_, nofun, fun _ => ?_⟩ ?_
        · rw [hmode.2]
          rfl
        · rw [hmode.2]
          exact ⟨_, rfl⟩
        · rintro s ⟨depth, hdepth⟩
          cases hdepth
      next => cases hnext

/-- At most one task is on the stack, and its frames are intact. -/
structure Sole (s : Stack) (m : Machine n) : Prop where
  exclusive : ∀ pid pid', m.alive pid → m.alive pid' → (m.tasks pid).On s → (m.tasks pid').On s →
    pid = pid'
  intact : Intact s m

/-- **Frames stay** if nobody starts at the top of a stack that another task is on. -/
theorem Sole.moved {s : Stack} (h : Sole s m) (halive : m.alive m.cur) (hm : Moved m m' arrives)
    (hfree : arrives s → ∀ pid, pid ≠ m.cur → m.alive pid → ¬(m.tasks pid).On s) : Sole s m' := by
  have hother : ∀ pid, pid ≠ m.cur → m'.alive pid → (m'.tasks pid).On s →
      m.alive pid ∧ (m.tasks pid).On s := by
    intro pid hpid hpidalive hon
    unfold Machine.alive at hpidalive
    rw [hm.others pid hpid] at hpidalive hon
    exact ⟨hpidalive, hon⟩
  have halone : ∀ pid, pid ≠ m.cur → m'.alive pid → (m'.tasks pid).On s →
      m.task.On s ∨ arrives s → False := by
    rintro pid hpid hpidalive hon hcur
    obtain ⟨hpidalive, hon⟩ := hother pid hpid hpidalive hon
    rcases hcur with hcur | harrives
    · exact hpid (h.exclusive pid m.cur hpidalive halive hon hcur)
    · exact hfree harrives pid hpid hpidalive hon
  refine ⟨fun pid pid' hpid hpid' hon hon' => ?_, fun pid hpid hon => ?_⟩
  · by_cases hcur : pid = m.cur
    · by_cases hcur' : pid' = m.cur
      · exact hcur.trans hcur'.symm
      · exact (halone pid' hcur' hpid' hon' (hm.shift.on (hcur ▸ hon))).elim
    · by_cases hcur' : pid' = m.cur
      · exact (halone pid hcur hpid hon (hm.shift.on (hcur' ▸ hon'))).elim
      · obtain ⟨hpid, hon⟩ := hother pid hcur hpid hon
        obtain ⟨hpid', hon'⟩ := hother pid' hcur' hpid' hon'
        exact h.exclusive pid pid' hpid hpid' hon hon'
  · by_cases hcur : pid = m.cur
    · subst hcur
      cases hm.shift with
      | stays hmem hstay =>
          obtain ⟨hbefore, hsub⟩ := hstay s hon
          rw [hmem]
          exact (h.intact m.cur halive hbefore).suffix hsub
      | writes s' base words hmem hon' hlive hbase =>
          obtain rfl := hon' s hon
          have hspells : Spells (m.mem s) base := by
            rcases hbase with ⟨hbefore, rfl⟩ | ⟨rfl, -⟩
            · exact h.intact m.cur halive hbefore
            · exact spells_nil _
          rw [hmem, Function.update_self, hlive]
          exact hspells.writeAll
    · obtain ⟨hpidalive, hbefore⟩ := hother pid hcur hpid hon
      have hspells := h.intact pid hpidalive hbefore
      rw [hm.others pid hcur]
      cases hm.shift with
      | stays hmem hstay => exact hmem ▸ hspells
      | writes s' base words hmem hon' hlive hbase =>
          have hne : s ≠ s' := by
            rintro rfl
            exact halone pid hcur hpid hon (hbase.imp And.left And.right)
          rw [hmem, Function.update_of_ne hne]
          exact hspells

end

end KernelStacks
