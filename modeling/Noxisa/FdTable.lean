import Noxisa.VfsMediation

/-!
# The descriptor table of a task

The table is a vector of optional slots: `alloc_fd` takes the first empty one or
appends, `close_fd` empties one, and the numbers are signed.  `FdCall` says what
one call may do to the table as its task sees it, and `fd_table` says it for
every sequence of calls, with what it means for a number that was closed.
-/

namespace Vfs

open Scheduler

/-- `alloc_fd` leaves the scheduler, or changes the open files of the current block. -/
theorem allocFd_snd {s s' : Scheduler Unit} {of : OpenFile} {fd : Int}
    (h : allocFd s of = some (fd, s')) : s' = s ∨ ∃ f, s' = adjustCurrent s f := by
  unfold allocFd at h
  split at h
  · exact Or.inl (Prod.mk.inj (Option.some.inj h)).2.symm
  · split at h
    · exact Or.inr ⟨_, (Prod.mk.inj (Option.some.inj h)).2.symm⟩
    · split at h
      · cases h
      · exact Or.inr ⟨_, (Prod.mk.inj (Option.some.inj h)).2.symm⟩

/-- The number is the least one that is not open. -/
theorem allocFd_least {s s' : Scheduler Unit} {of : OpenFile} {fd : Int}
    (htask : (currentTcb s).isSome) (h : allocFd s of = some (fd, s')) :
    0 ≤ fd ∧ fdInfo s fd = none ∧ ∀ n, 0 ≤ n → n < fd → (fdInfo s n).isSome := by
  obtain ⟨t, ht⟩ := Option.isSome_iff_exists.mp htask
  have hinfo : ∀ n : Nat, fdInfo s n = t.openFiles[n]?.join := by
    intro n
    rw [fdInfo, fileAt, if_neg (by omega), show lookup s.tasks s.current = some t from ht,
      Option.bind_some, Int.toNat_natCast]
  have hbelow : ∀ slot : Nat, (∀ n : Nat, n < slot → (t.openFiles[n]?.join).isSome) →
      ∀ n : Int, 0 ≤ n → n < slot → (fdInfo s n).isSome := by
    intro slot hfull n hpos hlt
    obtain ⟨m, rfl⟩ := Int.eq_ofNat_of_zero_le hpos
    rw [hinfo]
    exact hfull m (by omega)
  unfold allocFd at h
  rw [ht] at h
  dsimp only at h
  cases hslot : t.openFiles.findIdx? Option.isNone with
  | some slot =>
      simp only [hslot, Option.some.injEq, Prod.mk.injEq] at h
      obtain ⟨rfl, -⟩ := h
      obtain ⟨hlt, hnone, hfull⟩ := List.findIdx?_eq_some_iff_getElem.mp hslot
      refine ⟨Int.natCast_nonneg slot, ?_, hbelow slot (fun n hn => ?_)⟩
      · rw [hinfo, List.getElem?_eq_getElem hlt, Option.isNone_iff_eq_none.mp hnone]
        rfl
      · have hsome := hfull n hn
        rw [List.getElem?_eq_getElem (by omega), Option.join_some]
        exact Option.isSome_iff_ne_none.mpr (by simpa using hsome)
  | none =>
      simp only [hslot] at h
      rw [List.findIdx?_eq_none_iff] at hslot
      split at h
      · cases h
      · obtain ⟨rfl, -⟩ := Prod.mk.inj (Option.some.inj h)
        refine ⟨Int.natCast_nonneg _, ?_, hbelow _ (fun n hn => ?_)⟩
        · rw [hinfo, List.getElem?_eq_none (Nat.le_refl _)]
          rfl
        · have hfull := hslot t.openFiles[n] (List.getElem_mem hn)
          rw [List.getElem?_eq_getElem hn, Option.join_some]
          simpa using hfull

/-- What a call may do to the descriptors of its task. -/
structure FdCall (k : Kernel) (call : Call) (reply : Reply) (k' : Kernel) : Prop where
  opened : ∀ path flags fd, call = .openFile path flags → reply = .opened fd →
    (0 ≤ fd ∧ fdInfo k.sched fd = none ∧ ∀ n, 0 ≤ n → n < fd → (fdInfo k.sched n).isSome) ∧
    fdInfo k'.sched fd = some ⟨resolvePath (cwd k.sched) path, 0, flags⟩ ∧
    ∀ other, other ≠ fd → fdInfo k'.sched other = fdInfo k.sched other
  closed : ∀ fd, call = .closeFd fd →
    (reply = .closed true ↔ (fdInfo k.sched fd).isSome) ∧ fdInfo k'.sched fd = none ∧
    ∀ other, other ≠ fd → fdInfo k'.sched other = fdInfo k.sched other
  stale : ∀ fd, fdInfo k.sched fd = none →
    (∀ len, call = .readFd fd len → reply = .failed .notFound ∧ k' = k) ∧
    (∀ buf, call = .writeFd fd buf → reply = .failed .notFound ∧ k' = k) ∧
    (call = .closeFd fd → reply = .closed false ∧ k' = k)
  unopened : ∀ fd, fdInfo k.sched fd = none → reply ≠ .opened fd → fdInfo k'.sched fd = none

/-- A call changes the scheduler in the block of its task alone. -/
theorem call_sched {k k' : Kernel} {call : Call} {reply : Reply}
    (h : k.call call = some (reply, k')) :
    k'.sched = k.sched ∨ ∃ f, k'.sched = adjustCurrent k.sched f := by
  have hoffset : ∀ fd offset, setFdOffset k.sched fd offset = k.sched ∨
      ∃ f, setFdOffset k.sched fd offset = adjustCurrent k.sched f := by
    intro fd offset
    unfold setFdOffset
    split
    · exact Or.inl rfl
    · exact Or.inr ⟨_, rfl⟩
  cases call with
  | setIdentity uid gid =>
      obtain rfl := (Prod.mk.inj (Option.some.inj h)).2
      exact Or.inr ⟨_, rfl⟩
  | setCwd path =>
      obtain rfl := (Prod.mk.inj (Option.some.inj h)).2
      exact Or.inr ⟨_, rfl⟩
  | read path len => exact Or.inl (by rw [call_read h])
  | write path buf => exact Or.inl (by rw [call_write h, write_sched])
  | readFd fd len =>
      rw [call_readFd h]
      rcases readFd_snd k fd len with heq | ⟨offset, heq⟩
      · exact Or.inl (by rw [heq])
      · rw [heq]
        exact hoffset fd offset
  | writeFd fd buf =>
      rw [call_writeFd h]
      rcases writeFd_snd k fd buf with heq | ⟨of, merged, -, heq | ⟨offset, heq⟩⟩
      · exact Or.inl (by rw [heq])
      · exact Or.inl (by rw [heq, write_sched])
      · rw [heq]
        exact hoffset fd offset
  | openFile path flags =>
      simp only [Kernel.call] at h
      rcases openFile_cases k path flags with ⟨e, heq⟩ | heq | ⟨fd, s', -, halloc, heq⟩
      · rw [heq] at h
        exact Or.inl ((Prod.mk.inj (Option.some.inj h)).2 ▸ rfl)
      · rw [heq] at h
        cases h
      · rw [heq] at h
        obtain rfl := (Prod.mk.inj (Option.some.inj h)).2
        exact allocFd_snd halloc
  | closeFd fd =>
      obtain rfl := (Prod.mk.inj (Option.some.inj h)).2
      dsimp only [closeFd]
      cases fdInfo k.sched fd with
      | none => exact Or.inl rfl
      | some of => exact Or.inr ⟨_, rfl⟩

/-- A live task stays live. -/
private theorem call_task {k k' : Kernel} {call : Call} {reply : Reply}
    (h : k.call call = some (reply, k')) (htask : (currentTcb k.sched).isSome) :
    (currentTcb k'.sched).isSome := by
  rcases call_sched h with heq | ⟨f, heq⟩
  · rw [heq]
    exact htask
  · rw [heq, currentTcb_adjustCurrent, Option.isSome_map]
    exact htask

/-- A new descriptor leaves the others as they are. -/
theorem fdInfo_allocFd {s s' : Scheduler Unit} {of : OpenFile} {fd : Int}
    (h : allocFd s of = some (fd, s')) {other : Int} (hother : other ≠ fd) :
    fdInfo s' other = fdInfo s other := by
  have hcur : s'.current = s.current := by
    rcases allocFd_snd h with rfl | ⟨f, rfl⟩ <;> rfl
  rw [fdInfo, hcur]
  rcases fileAt_allocFd h s.current other with ⟨hold, -⟩ | ⟨-, heq, -⟩
  · exact hold
  · exact absurd heq hother

/-- Closing a descriptor runs no other task. -/
theorem closeFd_current (s : Scheduler Unit) (fd : Int) : (closeFd s fd).2.current = s.current := by
  unfold closeFd
  cases fdInfo s fd <;> rfl

/-- `close_fd` answers whether the descriptor was open. -/
theorem closeFd_fst (s : Scheduler Unit) (fd : Int) : (closeFd s fd).1 = (fdInfo s fd).isSome := by
  unfold closeFd
  cases fdInfo s fd <;> rfl

/-- Closing a closed descriptor changes nothing. -/
theorem closeFd_none {s : Scheduler Unit} {fd : Int} (h : fdInfo s fd = none) :
    closeFd s fd = (false, s) := by
  rw [closeFd, h]

/-- Closing a descriptor leaves the others as they are. -/
theorem fdInfo_closeFd (s : Scheduler Unit) (fd other : Int) :
    fdInfo (closeFd s fd).2 other = if other = fd then none else fdInfo s other := by
  rw [fdInfo, closeFd_current, fileAt_closeFd, closeFd_fst]
  by_cases heq : other = fd
  · subst heq
    rw [if_pos rfl]
    split
    · rfl
    · next hnone =>
        simp only [Bool.not_eq_true, and_true, Option.isSome_eq_false_iff,
          Option.isNone_iff_eq_none] at hnone
        exact hnone
  · rw [if_neg heq, if_neg (fun h => heq h.2.2), fdInfo]

/-- Moving an offset opens no descriptor. -/
theorem fdInfo_setFdOffset_none {s : Scheduler Unit} {fd : Int} (h : fdInfo s fd = none)
    (fd' : Int) (offset : Nat) : fdInfo (setFdOffset s fd' offset) fd = none := by
  rw [fdInfo, setFdOffset_current, fileAt_setFdOffset, show fileAt s s.current fd = none from h]
  split <;> rfl

/-- A number that is not open stays so until an `open` returns it. -/
theorem fdInfo_unopened {k k' : Kernel} {call : Call} {reply : Reply}
    (h : k.call call = some (reply, k')) {fd : Int} (hnone : fdInfo k.sched fd = none)
    (hreply : reply ≠ .opened fd) : fdInfo k'.sched fd = none := by
  have hsame : k'.sched = k.sched → fdInfo k'.sched fd = none := by
    intro heq
    rw [heq]
    exact hnone
  cases call with
  | setIdentity uid gid =>
      obtain rfl := (Prod.mk.inj (Option.some.inj h)).2
      exact (fileAt_setIdentity _ _ _ _ _).trans hnone
  | setCwd path =>
      obtain rfl := (Prod.mk.inj (Option.some.inj h)).2
      exact (fileAt_setCwd _ _ _ _).trans hnone
  | read path len => exact hsame (by rw [call_read h])
  | write path buf => exact hsame (by rw [call_write h, write_sched])
  | readFd fd' len =>
      rw [call_readFd h]
      rcases readFd_snd k fd' len with heq | ⟨offset, heq⟩
      · rw [heq]
        exact hnone
      · rw [heq]
        exact fdInfo_setFdOffset_none hnone fd' offset
  | writeFd fd' buf =>
      rw [call_writeFd h]
      rcases writeFd_snd k fd' buf with heq | ⟨of, merged, -, heq | ⟨offset, heq⟩⟩
      · rw [heq]
        exact hnone
      · rw [heq, write_sched]
        exact hnone
      · rw [heq]
        exact fdInfo_setFdOffset_none hnone fd' offset
  | openFile path flags =>
      simp only [Kernel.call] at h
      rcases openFile_cases k path flags with ⟨e, heq⟩ | heq | ⟨fd', s', -, halloc, heq⟩
      · rw [heq] at h
        exact hsame ((Prod.mk.inj (Option.some.inj h)).2 ▸ rfl)
      · rw [heq] at h
        cases h
      · rw [heq] at h
        obtain ⟨rfl, rfl⟩ := Prod.mk.inj (Option.some.inj h)
        have hne : fd ≠ fd' := fun hfd => hreply (hfd ▸ rfl)
        exact (fdInfo_allocFd halloc hne).trans hnone
  | closeFd fd' =>
      obtain rfl := (Prod.mk.inj (Option.some.inj h)).2
      refine (fdInfo_closeFd k.sched fd' fd).trans ?_
      split
      · rfl
      · exact hnone

/-- `close_fd` always returns. -/
theorem call_closeFd (k : Kernel) (fd : Int) :
    k.call (.closeFd fd) =
      some (.closed (closeFd k.sched fd).1, { k with sched := (closeFd k.sched fd).2 }) := rfl

/-- **One call** of a live task. -/
theorem call_fds {k k' : Kernel} {call : Call} {reply : Reply} (h : k.call call = some (reply, k'))
    (htask : (currentTcb k.sched).isSome) : FdCall k call reply k' := by
  constructor
  · rintro path flags fd rfl rfl
    simp only [Kernel.call] at h
    rcases openFile_cases k path flags with ⟨e, heq⟩ | heq | ⟨fd', s', -, halloc, heq⟩
    · rw [heq] at h
      cases (Prod.mk.inj (Option.some.inj h)).1
    · rw [heq] at h
      cases h
    · rw [heq] at h
      obtain ⟨hfd, rfl⟩ := Prod.mk.inj (Option.some.inj h)
      obtain rfl := Reply.opened.inj hfd
      exact ⟨allocFd_least htask halloc, allocFd_opened htask halloc,
        fun other hother => fdInfo_allocFd halloc hother⟩
  · rintro fd rfl
    rw [call_closeFd] at h
    obtain ⟨rfl, rfl⟩ := Prod.mk.inj (Option.some.inj h)
    refine ⟨?_, ?_, fun other hother => ?_⟩
    · rw [closeFd_fst, Reply.closed.injEq]
    · exact (fdInfo_closeFd k.sched fd fd).trans (if_pos rfl)
    · exact (fdInfo_closeFd k.sched fd other).trans (if_neg hother)
  · intro fd hnone
    refine ⟨?_, ?_, ?_⟩
    · rintro len rfl
      simp only [Kernel.call, Kernel.readFd, hnone] at h
      obtain ⟨rfl, rfl⟩ := Prod.mk.inj (Option.some.inj h)
      exact ⟨rfl, rfl⟩
    · rintro buf rfl
      simp only [Kernel.call, Kernel.writeFd, hnone] at h
      obtain ⟨rfl, rfl⟩ := Prod.mk.inj (Option.some.inj h)
      exact ⟨rfl, rfl⟩
    · rintro rfl
      rw [call_closeFd, closeFd_none hnone] at h
      obtain ⟨rfl, rfl⟩ := Prod.mk.inj (Option.some.inj h)
      exact ⟨rfl, rfl⟩
  · intro fd hnone hreply
    exact fdInfo_unopened h hnone hreply

/-- The calls of the task that runs in `k₀`. -/
def fdSystem (k₀ : Kernel) : TransitionSystem Kernel Call where
  boot := fun k => k = k₀
  next := fun k c => (k.call c).map Prod.snd

/-- A call that does not return `fd` from `open`. -/
def NotOpening (fd : Int) (k : Kernel) (c : Call) : Prop :=
  ∀ reply k', k.call c = some (reply, k') → reply ≠ .opened fd

/-- **The descriptor table.**  After any sequence of calls by a live task, each
call is as `FdCall` says, and a number that is not open (as after `close_fd`)
stays so through every further sequence of calls in which no `open` returns it. -/
theorem fd_table {k₀ k : Kernel} (htask : (currentTcb k₀.sched).isSome)
    (hrun : (fdSystem k₀).Reach k) :
    (∀ call reply k', k.call call = some (reply, k') → FdCall k call reply k') ∧
    ∀ fd k', fdInfo k.sched fd = none → (fdSystem k).Run (NotOpening fd) k' →
      fdInfo k'.sched fd = none := by
  have hlive : (currentTcb k.sched).isSome := by
    refine hrun.invariant (I := fun k => (currentTcb k.sched).isSome = true) ?_ ?_
    · rintro k rfl
      exact htask
    · intro k call k' hk hnext
      obtain ⟨⟨reply, k''⟩, hcall, rfl⟩ := Option.map_eq_some_iff.mp hnext
      exact call_task hcall hk
  constructor
  · intro call reply k' hcall
    exact call_fds hcall hlive
  · intro fd k' hnone hlater
    refine hlater.invariant (I := fun k => fdInfo k.sched fd = none) ?_ ?_
    · rintro k rfl
      exact hnone
    · intro k call k' hk hok hnext
      obtain ⟨⟨reply, k''⟩, hcall, rfl⟩ := Option.map_eq_some_iff.mp hnext
      exact fdInfo_unopened hcall hk (hok reply k'' hcall)

/-- Task 1 of `sampleKernel` runs; the file it makes is opened twice, and the
first descriptor is closed. -/
def fdCalls : List Call :=
  [.write "/tmp/a" [1], .openFile "/tmp/a" oRdonly, .openFile "/tmp/a" oWronly, .closeFd 0]

/-- The hypotheses are met after the sample calls. -/
theorem sample_fd_table :
    ∃ k k', (fdSystem (sampleKernel.running 1 0)).exec (sampleKernel.running 1 0) fdCalls = some k ∧
      k.call (.openFile "/tmp/a" oRdonly) = some (.opened 0, k') ∧
      FdCall k (.openFile "/tmp/a" oRdonly) (.opened 0) k' := by
  have hrun : ((fdSystem (sampleKernel.running 1 0)).exec (sampleKernel.running 1 0) fdCalls).map
      (fun k => (k.call (.openFile "/tmp/a" oRdonly)).map Prod.fst) =
      some (some (.opened 0)) := by
    decide +kernel
  obtain ⟨k, hk, hcall⟩ := Option.map_eq_some_iff.mp hrun
  obtain ⟨⟨reply, k'⟩, hnext, hreply⟩ := Option.map_eq_some_iff.mp hcall
  obtain rfl : reply = .opened 0 := hreply
  have hreach := TransitionSystem.Reach.exec (TransitionSystem.Run.boot rfl) hk
  exact ⟨k, k', hk, hnext, (fd_table (by decide) hreach).1 _ _ _ hnext⟩

end Vfs
