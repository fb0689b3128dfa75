import Noxisa.Scheduler

/-!
# Where a task can be

`Placed ex held s` says where every task with a block is, except for one task
`ex` that is exempt: it is a zombie, or it is Runnable and occurs exactly once
among the queued pids and the pids `held` in local variables.  Nothing else is
queued or held.

The exempt task is the one that runs.  An operation of the scheduler is a walk
along the rules below: a pop makes a queued pid a held one, the demotion of the
exempt task queues it and makes the held pid exempt in its place.  The rules
say nothing about interrupts; they serve the operations that run to completion
and the preemptible ones alike.
-/

namespace Scheduler

variable {κ : Type}

/-- **Every task is where its state says**, the exempt one and those held by a call in
progress apart. -/
structure Placed (ex : Nat) (held : List Nat) (s : Scheduler κ) : Prop where
  mask : s.rq.MaskExact
  nodup : (held ++ s.rq.pids).Nodup
  /-- what is held or queued is Runnable, and not the exempt task -/
  waiting : ∀ pid ∈ held ++ s.rq.pids,
    pid ≠ ex ∧ ∃ t, lookup s.tasks pid = some t ∧ t.state = .runnable
  /-- a pid is queued at the level of its task -/
  levels : ∀ i, ∀ pid ∈ s.rq.q i, ∀ t, lookup s.tasks pid = some t → level t.priority = i
  /-- no task is anywhere else -/
  placed : ∀ pid t, lookup s.tasks pid = some t → pid ≠ ex →
    t.state = .zombie ∨ pid ∈ held ++ s.rq.pids

section

variable {ex p next : Nat} {held held' : List Nat} {s : Scheduler κ} {t : Tcb κ}

/-- The order of what is held does not matter. -/
theorem Placed.perm (h : Placed ex held s) (hp : held.Perm held') : Placed ex held' s := by
  have hperm := hp.append_right s.rq.pids
  refine ⟨h.mask, hperm.nodup_iff.mp h.nodup, ?_, h.levels, ?_⟩
  · intro pid hpid
    exact h.waiting pid (hperm.mem_iff.mpr hpid)
  · intro pid t ht hne
    exact (h.placed pid t ht hne).imp_right hperm.mem_iff.mp

/-- A popped pid is held. -/
theorem Placed.pop {rq : RunQueue} (h : Placed ex held s) (hpop : s.rq.pop = some (next, rq)) :
    Placed ex (next :: held) { s with rq := rq } := by
  have hperm : (held ++ s.rq.pids).Perm (next :: held ++ rq.pids) :=
    ((pop_pids hpop).append_left held).trans List.perm_middle
  refine ⟨pop_maskExact h.mask hpop, hperm.nodup_iff.mp h.nodup, ?_, ?_, ?_⟩
  · intro pid hpid
    exact h.waiting pid (hperm.mem_iff.mpr hpid)
  · intro i pid hpid
    exact h.levels i pid (pop_subset hpop hpid)
  · intro pid t ht hne
    exact (h.placed pid t ht hne).imp_right hperm.mem_iff.mp

/-- Blocks may change as long as states and priorities stay, except for the
exempt task, whose block may change in any way; `current` plays no part. -/
theorem Placed.congr {s' : Scheduler κ} (h : Placed ex held s) (hrq : s'.rq = s.rq)
    (hsame : ∀ pid, pid ≠ ex →
      (lookup s'.tasks pid).map (fun t => (t.state, t.priority)) =
        (lookup s.tasks pid).map (fun t => (t.state, t.priority))) :
    Placed ex held s' := by
  refine ⟨hrq ▸ h.mask, hrq ▸ h.nodup, ?_, ?_, ?_⟩
  · intro pid hpid
    rw [hrq] at hpid
    obtain ⟨hne, t, ht, hst⟩ := h.waiting pid hpid
    have hmap := hsame pid hne
    rw [ht, Option.map_some] at hmap
    obtain ⟨t', ht', heq⟩ := Option.map_eq_some_iff.mp hmap
    exact ⟨hne, t', ht', (congrArg Prod.fst heq).trans hst⟩
  · intro i pid hpid t' ht'
    rw [hrq] at hpid
    have hne := (h.waiting pid (List.mem_append_right _ (mem_pids.mpr ⟨i, hpid⟩))).1
    have hmap := hsame pid hne
    rw [ht', Option.map_some] at hmap
    obtain ⟨t, ht, heq⟩ := Option.map_eq_some_iff.mp hmap.symm
    rw [← (Prod.mk.inj heq).2]
    exact h.levels i pid hpid t ht
  · intro pid t' ht' hne
    have hmap := hsame pid hne
    rw [ht', Option.map_some] at hmap
    obtain ⟨t, ht, heq⟩ := Option.map_eq_some_iff.mp hmap.symm
    rw [← (Prod.mk.inj heq).1, hrq]
    exact h.placed pid t ht hne

/-- A change in place of anything but the state and the priority. -/
theorem Placed.adjust (h : Placed ex held s) {f : Tcb κ → Tcb κ}
    (hf : ∀ t, (f t).state = t.state ∧ (f t).priority = t.priority) :
    Placed ex held { s with tasks := Scheduler.adjust s.tasks p f } := by
  refine h.congr rfl (fun pid _ => ?_)
  rw [lookup_adjust]
  split
  · rw [Option.map_map]
    congr 1
    funext t
    simp [hf t]
  · rfl

/-- Any change in place of the exempt task. -/
theorem Placed.adjust_ex (h : Placed ex held s) (f : Tcb κ → Tcb κ) :
    Placed ex held { s with tasks := Scheduler.adjust s.tasks ex f } := by
  refine h.congr rfl (fun pid hne => ?_)
  rw [lookup_adjust, if_neg hne]

/-- A held task that is queued at its level is held no longer. -/
theorem Placed.enqueue (h : Placed ex (p :: held) s) (ht : lookup s.tasks p = some t) :
    Placed ex held (s.enqueue p t.priority) := by
  have hperm : (p :: held ++ s.rq.pids).Perm (held ++ (s.rq.push p t.priority).pids) :=
    List.perm_middle.symm.trans ((push_pids _ _ _).symm.append_left held)
  refine ⟨push_maskExact h.mask _ _, hperm.nodup_iff.mp h.nodup, ?_, ?_, ?_⟩
  · intro pid hpid
    exact h.waiting pid (hperm.mem_iff.mpr hpid)
  · intro i pid hpid t' ht'
    rcases mem_push_q.mp hpid with hold | ⟨rfl, rfl⟩
    · exact h.levels i pid hold t' ht'
    · obtain rfl := Option.some.inj (ht'.symm.trans ht)
      rfl
  · intro pid t' ht' hne
    exact (h.placed pid t' ht' hne).imp_right hperm.mem_iff.mp

/-- The exempt task, if it is Runnable, can become a held one: nothing is
exempt then. -/
theorem Placed.hold (h : Placed ex held s) (ht : lookup s.tasks ex = some t)
    (hst : t.state = .runnable) (hex : ex ≠ 0) (h0 : lookup s.tasks 0 = none) :
    Placed 0 (ex :: held) s := by
  have hfresh : ex ∉ held ++ s.rq.pids := fun hmem => (h.waiting ex hmem).1 rfl
  refine ⟨h.mask, List.nodup_cons.mpr ⟨hfresh, h.nodup⟩, ?_, h.levels, ?_⟩
  · intro pid hpid
    rcases List.mem_cons.mp hpid with rfl | hpid
    · exact ⟨hex, t, ht, hst⟩
    · obtain ⟨-, t', ht', hst'⟩ := h.waiting pid hpid
      refine ⟨?_, t', ht', hst'⟩
      rintro rfl
      rw [h0] at ht'
      cases ht'
  · intro pid t' ht' _
    by_cases heq : pid = ex
    · subst heq
      exact Or.inr List.mem_cons_self
    · exact (h.placed pid t' ht' heq).imp_right (List.mem_cons_of_mem _)

/-- A held task becomes the exempt one, once the old one is accounted for: it
is a zombie, or it has no block. -/
theorem Placed.handOver (h : Placed ex (next :: held) s)
    (hgone : ∀ t, lookup s.tasks ex = some t → t.state = .zombie) :
    Placed next held s := by
  have hcons := List.nodup_cons.mp h.nodup
  refine ⟨h.mask, hcons.2, ?_, h.levels, ?_⟩
  · intro pid hpid
    obtain ⟨-, t, ht, hst⟩ := h.waiting pid (List.mem_cons_of_mem _ hpid)
    exact ⟨fun heq => hcons.1 (heq ▸ hpid), t, ht, hst⟩
  · intro pid t ht hne
    by_cases heq : pid = ex
    · subst heq
      exact Or.inl (hgone t ht)
    · exact (h.placed pid t ht heq).imp_right
        (fun hmem => (List.mem_cons.mp hmem).resolve_left hne)

/-- A new Runnable task is held by whoever made it. -/
theorem Placed.insert (h : Placed ex held s) (hnone : lookup s.tasks p = none) (hex : p ≠ ex)
    (hst : t.state = .runnable) :
    Placed ex (p :: held) { s with tasks := Scheduler.insert s.tasks p t } := by
  have hfresh : p ∉ held ++ s.rq.pids := by
    intro hmem
    obtain ⟨-, t', ht', -⟩ := h.waiting p hmem
    rw [hnone] at ht'
    cases ht'
  have hother : ∀ pid, pid ≠ p → lookup (Scheduler.insert s.tasks p t) pid = lookup s.tasks pid :=
    fun pid hne => by rw [lookup_insert, if_neg hne]
  refine ⟨h.mask, List.nodup_cons.mpr ⟨hfresh, h.nodup⟩, ?_, ?_, ?_⟩
  · intro pid hpid
    rcases List.mem_cons.mp hpid with rfl | hpid
    · exact ⟨hex, t, by rw [lookup_insert, if_pos rfl], hst⟩
    · obtain ⟨hne, t', ht', hst'⟩ := h.waiting pid hpid
      have hpp : pid ≠ p := fun heq => hfresh (heq ▸ hpid)
      exact ⟨hne, t', (hother pid hpp).trans ht', hst'⟩
  · intro i pid hpid t' ht'
    have hpp : pid ≠ p :=
      fun heq => hfresh (heq ▸ List.mem_append_right _ (mem_pids.mpr ⟨i, hpid⟩))
    exact h.levels i pid hpid t' ((hother pid hpp).symm.trans ht')
  · intro pid t' ht' hne
    by_cases heq : pid = p
    · subst heq
      exact Or.inr List.mem_cons_self
    · exact (h.placed pid t' ((hother pid heq).symm.trans ht') hne).imp_right
        (List.mem_cons_of_mem _)

/-- Taking the block of a zombie away. -/
theorem Placed.remove (h : Placed ex held s) (ht : lookup s.tasks p = some t)
    (hst : t.state = .zombie) : Placed ex held { s with tasks := Scheduler.remove s.tasks p } := by
  have hnot : p ∉ held ++ s.rq.pids := by
    intro hmem
    obtain ⟨-, t', ht', hst'⟩ := h.waiting p hmem
    obtain rfl := Option.some.inj (ht'.symm.trans ht)
    rw [hst] at hst'
    cases hst'
  have hother : ∀ pid, pid ≠ p → lookup (Scheduler.remove s.tasks p) pid = lookup s.tasks pid :=
    fun pid hne => by rw [lookup_remove, if_neg hne]
  refine ⟨h.mask, h.nodup, ?_, ?_, ?_⟩
  · intro pid hpid
    obtain ⟨hne, t', ht', hst'⟩ := h.waiting pid hpid
    exact ⟨hne, t', (hother pid (fun heq => hnot (heq ▸ hpid))).trans ht', hst'⟩
  · intro i pid hpid t' ht'
    have hpp : pid ≠ p :=
      fun heq => hnot (heq ▸ List.mem_append_right _ (mem_pids.mpr ⟨i, hpid⟩))
    exact h.levels i pid hpid t' ((hother pid hpp).symm.trans ht')
  · intro pid t' ht' hne
    have hpp : pid ≠ p := by
      rintro rfl
      simp [lookup_remove] at ht'
    exact h.placed pid t' ((hother pid hpp).symm.trans ht') hne

/-- A task that can be switched away from: it is Running, or it has exited. -/
def CanLeave (s : Scheduler κ) (p : Nat) : Prop :=
  ∀ t, lookup s.tasks p = some t → t.state = .running ∨ t.state = .zombie

/-- The demotion of the exempt task puts a held one in its place. -/
theorem Placed.demote (h : Placed p (next :: held) s) (hp : p ≠ 0)
    (h0 : lookup s.tasks 0 = none) (hleave : CanLeave s p) : Placed next held (s.demote p) := by
  unfold Scheduler.demote
  cases ht : lookup s.tasks p with
  | none => exact h.handOver (fun t h => by rw [ht] at h; cases h)
  | some t =>
      by_cases hrun : t.state = .running
      · have hstored : lookup (s.setState p .runnable).tasks p =
            some { t with state := .runnable } := by
          simp [setState, lookup_adjust, ht]
        have h0' : lookup (s.setState p .runnable).tasks 0 = none := by
          simp [setState, lookup_adjust, h0]
        have hheld := (h.adjust_ex (fun t => { t with state := .runnable })).hold hstored rfl hp h0'
        have hqueued := hheld.enqueue hstored
        simp only [hrun, if_true]
        refine hqueued.handOver (fun u hu => ?_)
        have hnone : some u = none := hu.symm.trans h0'
        cases hnone
      · have hzombie := (hleave t ht).resolve_left hrun
        simp only [hrun, if_false]
        refine h.handOver (fun t' ht' => ?_)
        obtain rfl := Option.some.inj (ht'.symm.trans ht)
        exact hzombie

/-- **A switch from the exempt task to a held one** goes through, and makes
the held one exempt. -/
theorem Placed.switchTo {cpu : Cpu κ} (h : Placed s.current (next :: held) s)
    (h0 : lookup s.tasks 0 = none) (hleave : CanLeave s s.current) :
    ∃ s' t, Scheduler.switchTo s cpu next = (.switched, s', { ctx := t.ctx, cr3 := t.cr3 }) ∧
      lookup s.tasks next = some t ∧ Placed next held s' ∧
      s'.current = next ∧ s'.nextPid = s.nextPid ∧ s'.tasks.length = s.tasks.length ∧
      ∀ x, lookup s'.tasks x =
        if x = next then some { t with state := .running }
        else if x = s.current ∧ x ≠ 0 then (lookup s.tasks x).map (outgoing cpu.ctx)
        else lookup s.tasks x := by
  obtain ⟨hne, t, ht, -⟩ := h.waiting next List.mem_cons_self
  obtain ⟨s', hs', hcur, hpid, hlen, hrq, hlook⟩ := switchTo_switched (Ne.symm hne) ht
  refine ⟨s', t, hs', ht, ?_, hcur, hpid, hlen, hlook⟩
  by_cases hzero : s.current = 0
  · have hgone : Placed next held s := h.handOver (fun t h => by rw [hzero, h0] at h; cases h)
    refine hgone.congr (by simp [hrq, hzero]) (fun pid hpid' => ?_)
    have hprev : ¬(pid = s.current ∧ pid ≠ 0) := fun hp => hp.2 (hp.1.trans hzero)
    rw [hlook, if_neg hpid', if_neg hprev]
  · have hgone := h.demote hzero h0 hleave
    refine hgone.congr (by simp [hrq, hzero]) (fun pid hpid' => ?_)
    rw [hlook, if_neg hpid', demote_lookup]
    by_cases hprev : pid = s.current
    · subst hprev
      simp only [hzero, ne_eq, not_false_eq_true, and_true, if_true, Option.map_map]
      rfl
    · simp [hprev]

/-- **A reschedule** finds nothing queued, or switches to a queued task. -/
theorem Placed.reschedule (cpu : Cpu κ) (h : Placed s.current held s)
    (h0 : lookup s.tasks 0 = none) (hleave : CanLeave s s.current) :
    (Scheduler.reschedule s cpu = (.idle, s, cpu) ∧ s.rq.pids = []) ∨
    ∃ next s' t, Scheduler.reschedule s cpu = (.switched, s', { ctx := t.ctx, cr3 := t.cr3 }) ∧
      next ∈ s.rq.pids ∧ lookup s.tasks next = some t ∧ Placed next held s' ∧
      s'.current = next ∧ s'.nextPid = s.nextPid ∧ s'.tasks.length = s.tasks.length ∧
      ∀ x, lookup s'.tasks x =
        if x = next then some { t with state := .running }
        else if x = s.current ∧ x ≠ 0 then (lookup s.tasks x).map (outgoing cpu.ctx)
        else lookup s.tasks x := by
  cases hpop : s.rq.pop with
  | none => exact Or.inl ⟨by simp [Scheduler.reschedule, hpop], pop_none h.mask hpop⟩
  | some out =>
      obtain ⟨next, rq⟩ := out
      have hmem : next ∈ s.rq.pids := (pop_pids hpop).mem_iff.mpr List.mem_cons_self
      obtain ⟨s', t, hs', hrest⟩ :=
        Placed.switchTo (s := { s with rq := rq }) (h.pop hpop) h0 hleave
      exact Or.inr ⟨next, s', t, by simpa [Scheduler.reschedule, hpop] using hs', hmem, hrest⟩

/-- **An exit** finds nothing queued, or hands over to a queued task; it never
pops a pid without a block. -/
theorem Placed.exitCurrent (h : Placed s.current held s) (h0 : lookup s.tasks 0 = none) :
    (Scheduler.exitCurrent s = .panic "exit_current: no runnable task left to switch to" ∧
      s.rq.pids = []) ∨
    ∃ next s' t, Scheduler.exitCurrent s = .ok (s', { ctx := t.ctx, cr3 := t.cr3 }) ∧
      next ∈ s.rq.pids ∧ lookup s.tasks next = some t ∧ Placed next held s' ∧
      s'.current = next ∧ s'.nextPid = s.nextPid ∧ s'.tasks.length = s.tasks.length ∧
      ∀ x, lookup s'.tasks x =
        if x = next then some { t with state := .running }
        else if x = s.current then (lookup s.tasks x).map (fun t => { t with state := .zombie })
        else lookup s.tasks x := by
  -- with no current task the store is skipped, but slot 0 is empty anyway
  have hstore : (if s.current ≠ 0 then s.setState s.current .zombie else s).tasks.length =
      s.tasks.length := by
    split
    · exact length_adjust _ _ _
    · rfl
  have hlook : ∀ x, lookup (if s.current ≠ 0 then s.setState s.current .zombie else s).tasks x =
      if x = s.current then (lookup s.tasks x).map (fun t => { t with state := .zombie })
      else lookup s.tasks x := by
    intro x
    by_cases hzero : s.current = 0
    · by_cases hx : x = s.current
      · simp [hzero, hx, h0]
      · simp [hzero, hzero ▸ hx]
    · simp [hzero, setState, lookup_adjust]
  have hmark : Placed s.current held
      (if s.current ≠ 0 then s.setState s.current .zombie else s) := by
    split
    · exact h.adjust_ex _
    · exact h
  generalize hz : (if s.current ≠ 0 then s.setState s.current .zombie else s) = z at *
  have hfields : z.rq = s.rq ∧ z.current = s.current ∧ z.nextPid = s.nextPid := by
    rw [← hz]
    split <;> exact ⟨rfl, rfl, rfl⟩
  obtain ⟨hrq, hzcur, hzpid⟩ := hfields
  cases hpop : z.rq.pop with
  | none =>
      refine Or.inl ⟨by simp only [Scheduler.exitCurrent, hz, hpop], ?_⟩
      rw [← hrq]
      exact pop_none hmark.mask hpop
  | some out =>
      obtain ⟨next, rq⟩ := out
      have hmem : next ∈ z.rq.pids := (pop_pids hpop).mem_iff.mpr List.mem_cons_self
      have hpopped := hmark.pop hpop
      obtain ⟨hne, t, ht, -⟩ := hpopped.waiting next List.mem_cons_self
      have hgone : Placed next held { z with rq := rq } := by
        refine hpopped.handOver (fun t' ht' => ?_)
        simp only at ht'
        rw [hlook, if_pos rfl] at ht'
        obtain ⟨u, -, rfl⟩ := Option.map_eq_some_iff.mp ht'
        rfl
      refine Or.inr ⟨next, { z with rq := rq, current := next }.setState next .running, t,
        ?_, hrq ▸ hmem, ?_, ?_, rfl, hzpid, ?_, ?_⟩
      · simp only at ht
        simp only [Scheduler.exitCurrent, hz, hpop, ht]
      · simp only at ht
        rw [hlook, if_neg hne] at ht
        exact ht
      · have hcur : Placed next held { z with rq := rq, current := next } :=
          hgone.congr rfl (fun _ _ => rfl)
        exact hcur.adjust_ex _
      · exact (length_adjust _ _ _).trans hstore
      · intro x
        simp only [setState, lookup_adjust]
        by_cases hx : x = next
        · subst hx
          simp only at ht
          simp [ht]
        · simp [hx, hlook]

end

end Scheduler
