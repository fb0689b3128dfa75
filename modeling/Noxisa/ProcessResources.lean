import Noxisa.Scheduler

/-!
# Per-process resources

The accessors of `scheduler/mod.rs` for what a task owns: its capabilities, its
identity, its working directory, its arguments and its open files.  Each works on the
block of `current`, and falls back to a default where there is none.

`fileAt` names an open file by pid and descriptor; what the four descriptor
operations do to it is said by one lemma each.
-/

namespace Scheduler

variable {κ : Type}

/-- The running task's block. -/
def currentTcb (s : Scheduler κ) : Option (Tcb κ) := lookup s.tasks s.current

/-- `Scheduler::caps`: none without a task. -/
def caps (s : Scheduler κ) : Nat := ((currentTcb s).map Tcb.caps).getD 0

/-- `Scheduler::uid`: 1000 without a task. -/
def uid (s : Scheduler κ) : Nat := ((currentTcb s).map Tcb.uid).getD 1000

/-- `Scheduler::gid` -/
def gid (s : Scheduler κ) : Nat := ((currentTcb s).map Tcb.gid).getD 1000

/-- `Scheduler::cwd` -/
def cwd (s : Scheduler κ) : String := ((currentTcb s).map Tcb.cwd).getD "/"

/-- `Scheduler::args` -/
def args (s : Scheduler κ) : List String := ((currentTcb s).map Tcb.args).getD []

/-- `if let Some(Some(t)) = tasks.get_mut(current_pid())` -/
def adjustCurrent (s : Scheduler κ) (f : Tcb κ → Tcb κ) : Scheduler κ :=
  { s with tasks := adjust s.tasks s.current f }

/-- `set_caps` -/
def setCaps (s : Scheduler κ) (caps : Nat) : Scheduler κ :=
  adjustCurrent s (fun t => { t with caps := caps })

/-- `set_identity` -/
def setIdentity (s : Scheduler κ) (uid gid : Nat) : Scheduler κ :=
  adjustCurrent s (fun t => { t with uid := uid, gid := gid })

/-- `set_cwd` -/
def setCwd (s : Scheduler κ) (path : String) : Scheduler κ :=
  adjustCurrent s (fun t => { t with cwd := path })

/-- `set_args` -/
def setArgs (s : Scheduler κ) (args : List String) : Scheduler κ :=
  adjustCurrent s (fun t => { t with args := args })

/-- The size of an `Option<OpenFile>`. -/
def openFileSize : Nat := 40

/-- `none` is the allocation error panic: the heap can hold no longer table. -/
def allocFd (s : Scheduler κ) (of : OpenFile) : Option (Int × Scheduler κ) :=
  match currentTcb s with
  | none => some (-1, s)
  | some t =>
      match t.openFiles.findIdx? Option.isNone with
      | some slot => some ((slot : Int),
          adjustCurrent s (fun t => { t with openFiles := t.openFiles.set slot (some of) }))
      | none =>
          if ¬HeapHolds openFileSize (t.openFiles.length + 1) then none
          else some ((t.openFiles.length : Int),
            adjustCurrent s (fun t => { t with openFiles := t.openFiles ++ [some of] }))

/-- The open file that `pid` knows as `fd`. -/
def fileAt (s : Scheduler κ) (pid : Nat) (fd : Int) : Option OpenFile :=
  if fd < 0 then none else (lookup s.tasks pid).bind (fun t => t.openFiles[fd.toNat]?.join)

/-- `fd_info` -/
def fdInfo (s : Scheduler κ) (fd : Int) : Option OpenFile := fileAt s s.current fd

/-- `set_fd_offset` -/
def setFdOffset (s : Scheduler κ) (fd : Int) (offset : Nat) : Scheduler κ :=
  if fd < 0 then s
  else adjustCurrent s (fun t => { t with
    openFiles := t.openFiles.modify fd.toNat (Option.map (fun of => { of with offset := offset })) })

/-- `close_fd` -/
def closeFd (s : Scheduler κ) (fd : Int) : Bool × Scheduler κ :=
  match fdInfo s fd with
  | none => (false, s)
  | some _ =>
      (true, adjustCurrent s (fun t => { t with openFiles := t.openFiles.set fd.toNat none }))

/-- `open_fd_count` -/
def openFdCount (s : Scheduler κ) : Nat :=
  ((currentTcb s).map (fun t => t.openFiles.countP Option.isSome)).getD 0

/-- A change of the running task is a change of that task. -/
theorem lookup_adjustCurrent (s : Scheduler κ) (f : Tcb κ → Tcb κ) (pid : Nat) :
    lookup (adjustCurrent s f).tasks pid =
      if pid = s.current then (lookup s.tasks pid).map f else lookup s.tasks pid := by
  rw [adjustCurrent, lookup_adjust]

/-- A change of the current block, seen through its open files. -/
theorem fileAt_adjustCurrent (s : Scheduler κ) (f : Tcb κ → Tcb κ) (pid : Nat) {fd : Int}
    (hfd : ¬ fd < 0) :
    fileAt (adjustCurrent s f) pid fd =
      if pid = s.current then (lookup s.tasks pid).bind (fun t => (f t).openFiles[fd.toNat]?.join)
      else fileAt s pid fd := by
  rw [fileAt, if_neg hfd, lookup_adjustCurrent, fileAt, if_neg hfd]
  by_cases hpid : pid = s.current
  · simp only [if_pos hpid]
    cases lookup s.tasks pid <;> rfl
  · simp only [if_neg hpid]

/-- No file has a negative number. -/
theorem fileAt_neg (s : Scheduler κ) (pid : Nat) {fd : Int} (hfd : fd < 0) :
    fileAt s pid fd = none := if_pos hfd

/-- A change that keeps the open files. -/
theorem fileAt_keep (s : Scheduler κ) {f : Tcb κ → Tcb κ}
    (hf : ∀ t, (f t).openFiles = t.openFiles) (pid : Nat) (fd : Int) :
    fileAt (adjustCurrent s f) pid fd = fileAt s pid fd := by
  by_cases hfd : fd < 0
  · rw [fileAt_neg _ _ hfd, fileAt_neg _ _ hfd]
  · rw [fileAt_adjustCurrent s f pid hfd, fileAt, if_neg hfd]
    by_cases hpid : pid = s.current
    · simp only [if_pos hpid, hf]
    · simp only [if_neg hpid]

/-- A new identity does not touch the files. -/
theorem fileAt_setIdentity (s : Scheduler κ) (uid gid pid : Nat) (fd : Int) :
    fileAt (setIdentity s uid gid) pid fd = fileAt s pid fd := by
  apply fileAt_keep
  exact fun _ => rfl

/-- Nor does a new directory. -/
theorem fileAt_setCwd (s : Scheduler κ) (path : String) (pid : Nat) (fd : Int) :
    fileAt (setCwd s path) pid fd = fileAt s pid fd := by
  apply fileAt_keep
  exact fun _ => rfl

/-- `alloc_fd` fills one slot. -/
theorem fileAt_allocFd {s s' : Scheduler κ} {of : OpenFile} {new : Int}
    (h : allocFd s of = some (new, s')) (pid : Nat) (fd : Int) :
    fileAt s' pid fd = fileAt s pid fd ∧ (pid = s.current → fd = new → fd < 0) ∨
      pid = s.current ∧ fd = new ∧ fileAt s' pid fd = some of := by
  by_cases hneg : fd < 0
  · exact Or.inl ⟨by rw [fileAt_neg _ _ hneg, fileAt_neg _ _ hneg], fun _ _ => hneg⟩
  unfold allocFd at h
  cases ht : currentTcb s with
  | none =>
      simp only [ht, Option.some.injEq, Prod.mk.injEq] at h
      obtain ⟨rfl, rfl⟩ := h
      exact Or.inl ⟨rfl, fun _ heq => heq ▸ by decide⟩
  | some t =>
      have htcb : lookup s.tasks s.current = some t := ht
      have hold : fileAt s s.current fd = t.openFiles[fd.toNat]?.join := by
        rw [fileAt, if_neg hneg, htcb]
        rfl
      simp only [ht] at h
      by_cases hpid : pid = s.current
      · subst hpid
        cases hslot : t.openFiles.findIdx? Option.isNone with
        | some slot =>
            simp only [hslot, Option.some.injEq, Prod.mk.injEq] at h
            obtain ⟨rfl, rfl⟩ := h
            obtain ⟨hlt, -⟩ := List.findIdx?_eq_some_iff_getElem.mp hslot
            rw [fileAt_adjustCurrent _ _ _ hneg, if_pos rfl, htcb, hold]
            rw [Option.bind_some]
            by_cases heq : fd = (slot : Int)
            · subst heq
              exact Or.inr ⟨rfl, rfl, by simp [hlt]⟩
            · have hne : slot ≠ fd.toNat := by omega
              exact Or.inl ⟨by rw [List.getElem?_set_ne hne], fun _ hfd => absurd hfd heq⟩
        | none =>
            simp only [hslot] at h
            split at h
            · cases h
            · simp only [Option.some.injEq, Prod.mk.injEq] at h
              obtain ⟨rfl, rfl⟩ := h
              rw [fileAt_adjustCurrent _ _ _ hneg, if_pos rfl, htcb, hold]
              rw [Option.bind_some]
              by_cases heq : fd = (t.openFiles.length : Int)
              · subst heq
                exact Or.inr ⟨rfl, rfl, by simp⟩
              · have hne : fd.toNat ≠ t.openFiles.length := by omega
                refine Or.inl ⟨?_, fun _ hfd => absurd hfd heq⟩
                rcases Nat.lt_or_gt_of_ne hne with hlt | hgt
                · rw [List.getElem?_append_left hlt]
                · rw [List.getElem?_eq_none (by simp; omega), List.getElem?_eq_none (by omega)]
      · have hkeep : ∀ f, fileAt (adjustCurrent s f) pid fd = fileAt s pid fd := by
          intro f
          rw [fileAt_adjustCurrent s f pid hneg, if_neg hpid]
        cases hslot : t.openFiles.findIdx? Option.isNone with
        | some slot =>
            simp only [hslot, Option.some.injEq, Prod.mk.injEq] at h
            obtain ⟨-, rfl⟩ := h
            exact Or.inl ⟨hkeep _, fun hcur => absurd hcur hpid⟩
        | none =>
            simp only [hslot] at h
            split at h
            · cases h
            · simp only [Option.some.injEq, Prod.mk.injEq] at h
              obtain ⟨-, rfl⟩ := h
              exact Or.inl ⟨hkeep _, fun hcur => absurd hcur hpid⟩

/-- A task that runs gets a descriptor it can use. -/
theorem allocFd_opened {s s' : Scheduler κ} {of : OpenFile} {fd : Int}
    (htask : (currentTcb s).isSome) (h : allocFd s of = some (fd, s')) :
    fdInfo s' fd = some of := by
  have hpos : ¬ fd < 0 := by
    unfold allocFd at h
    obtain ⟨t, ht⟩ := Option.isSome_iff_exists.mp htask
    rw [ht] at h
    dsimp only at h
    split at h
    · obtain ⟨rfl, -⟩ := Prod.mk.inj (Option.some.inj h)
      omega
    · split at h
      · cases h
      · obtain ⟨rfl, -⟩ := Prod.mk.inj (Option.some.inj h)
        omega
  have hcur : s'.current = s.current := by
    unfold allocFd at h
    split at h
    · obtain ⟨-, rfl⟩ := Prod.mk.inj (Option.some.inj h)
      rfl
    · split at h
      · obtain ⟨-, rfl⟩ := Prod.mk.inj (Option.some.inj h)
        rfl
      · split at h
        · cases h
        · obtain ⟨-, rfl⟩ := Prod.mk.inj (Option.some.inj h)
          rfl
  rw [fdInfo, hcur]
  rcases fileAt_allocFd h s.current fd with ⟨-, hneg⟩ | ⟨-, -, hnew⟩
  · exact absurd (hneg rfl rfl) hpos
  · exact hnew

/-- `set_fd_offset` moves the offset of one open file. -/
theorem fileAt_setFdOffset (s : Scheduler κ) (fd' : Int) (offset pid : Nat) (fd : Int) :
    fileAt (setFdOffset s fd' offset) pid fd =
      if pid = s.current ∧ fd = fd' then
        (fileAt s pid fd).map (fun of => { of with offset := offset })
      else fileAt s pid fd := by
  unfold setFdOffset
  by_cases hneg : fd < 0
  · simp [fileAt_neg _ _ hneg]
  by_cases hneg' : fd' < 0
  · have hne : fd ≠ fd' := by omega
    simp [hneg', hne]
  rw [if_neg hneg', fileAt_adjustCurrent _ _ _ hneg]
  by_cases hpid : pid = s.current
  · rw [if_pos hpid, fileAt, if_neg hneg]
    cases lookup s.tasks pid with
    | none => simp
    | some t =>
        simp only [Option.bind_some, List.getElem?_modify]
        by_cases hfd : fd = fd'
        · subst hfd
          rw [if_pos ⟨hpid, rfl⟩]
          rcases t.openFiles[fd.toNat]? with - | - | of <;> simp
        · have hne : fd'.toNat ≠ fd.toNat := by omega
          simp [hne, hfd]
  · simp [hpid]

/-- Moving an offset leaves the task running. -/
theorem setFdOffset_current (s : Scheduler κ) (fd : Int) (offset : Nat) :
    (setFdOffset s fd offset).current = s.current := by
  unfold setFdOffset
  split <;> rfl

/-- The file has the new offset. -/
theorem fdInfo_setFdOffset (s : Scheduler κ) (fd : Int) (offset : Nat) :
    fdInfo (setFdOffset s fd offset) fd =
      (fdInfo s fd).map (fun of => { of with offset := offset }) := by
  rw [fdInfo, setFdOffset_current, fileAt_setFdOffset, if_pos ⟨rfl, rfl⟩]
  rfl

/-- `set_fd_offset` keeps the flags of every open file. -/
theorem flags_setFdOffset (s : Scheduler κ) (fd' : Int) (offset pid : Nat) (fd : Int) :
    (fileAt (setFdOffset s fd' offset) pid fd).map OpenFile.flags =
      (fileAt s pid fd).map OpenFile.flags := by
  rw [fileAt_setFdOffset]
  split
  · rw [Option.map_map]
    rfl
  · rfl

/-- The running task's block after a change. -/
theorem currentTcb_adjustCurrent (s : Scheduler κ) (f : Tcb κ → Tcb κ) :
    currentTcb (adjustCurrent s f) = (currentTcb s).map f := by
  rw [currentTcb, lookup_adjustCurrent]
  exact if_pos rfl

/-- The offset is no part of the identity. -/
theorem identity_setFdOffset (s : Scheduler κ) (fd : Int) (offset : Nat) :
    uid (setFdOffset s fd offset) = uid s ∧ gid (setFdOffset s fd offset) = gid s := by
  unfold setFdOffset
  by_cases hneg : fd < 0
  · rw [if_pos hneg]
    exact ⟨rfl, rfl⟩
  · rw [if_neg hneg]
    constructor
    · rw [uid, currentTcb_adjustCurrent, Option.map_map]
      rfl
    · rw [gid, currentTcb_adjustCurrent, Option.map_map]
      rfl

/-- `close_fd` empties one slot, or none. -/
theorem fileAt_closeFd (s : Scheduler κ) (fd' : Int) (pid : Nat) (fd : Int) :
    fileAt (closeFd s fd').2 pid fd =
      if (closeFd s fd').1 ∧ pid = s.current ∧ fd = fd' then none else fileAt s pid fd := by
  unfold closeFd
  cases hinfo : fdInfo s fd' with
  | none => simp
  | some of =>
      have hneg' : ¬ fd' < 0 := by
        intro hlt
        rw [fdInfo, fileAt_neg _ _ hlt] at hinfo
        cases hinfo
      by_cases hneg : fd < 0
      · simp [fileAt_neg _ _ hneg]
      dsimp only
      rw [fileAt_adjustCurrent _ _ _ hneg]
      by_cases hpid : pid = s.current
      · rw [if_pos hpid]
        cases ht : lookup s.tasks pid with
        | none => simp [fileAt, hneg, ht]
        | some t =>
            simp only [Option.bind_some, List.getElem?_set]
            by_cases heq : fd = fd'
            · subst heq
              by_cases hlt : fd.toNat < t.openFiles.length <;> simp [hpid, hlt]
            · have hne : fd'.toNat ≠ fd.toNat := by omega
              simp [hne, heq, fileAt, hneg, ht]
      · simp [hpid]

end Scheduler
