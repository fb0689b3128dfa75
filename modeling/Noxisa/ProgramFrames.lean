import Noxisa.FrameCount
import Noxisa.PageMappings

/-!
# The frames of a task

`reap` gives back what the block of a task lists: the frames of its tables and
pages, its user stack, and the four frames of its kernel stack (`Tcb.frames`).
`spawnProgram_added` says that this list is a rearrangement of the frames that
the call has been handed, whatever the file.  Each of the places that collect
frames is followed by one lemma: `loadFresh_laid` for the pages,
`enterTable_books` for the tables, `spawn_books` for the kernel stack.
-/

namespace Scheduler

open ByteMemory ElfLoader FrameAllocator MachineWord PhysicalMemory RangePool UserPageTable

/-- What `reap` frees, in order. -/
def Tcb.frames {κ : Type} (t : Tcb κ) : List Nat :=
  (match t.isolatedTableFrames with
    | some frames => frames ++ [t.isolatedUserStackPhys]
    | none => []) ++ (List.range 4).map (fun i => add t.stackPhys (mul i pageSize))

/-- **The books of a call**: the frames it has been handed and those `held` by
others are all that the allocator has given away. -/
def Books (a : Account) (held : List Nat) (m : Memory) : Prop :=
  Ledger a m.pmm (m.trace.taken ++ held)

section

variable {ε : Type} {a : Account} {held : List Nat} {m m' : Memory} {f : Nat}
  {rest tf : List Nat}

/-- The books are about the allocator and the trace only. -/
theorem Books.congr (h : Books a held m) (hpmm : m'.pmm = m.pmm)
    (htaken : m'.trace.taken = m.trace.taken) : Books a held m' := by
  unfold Books
  rw [hpmm, htaken]
  exact h

/-- `alloc_frame` keeps the books, with a frame or without. -/
theorem Books.alloc (hl : a.limit + pageSize < modulus) (ht : a.total < modulus) {o : Option Nat}
    (h : Books a held m) (ha : m.allocFrame = (o, m')) : Books a held m' := by
  cases o with
  | none =>
      obtain ⟨p, hp, rfl⟩ := allocFrame_none ha
      exact Ledger.allocFrame hl ht h hp
  | some f =>
      obtain ⟨p, hp, rfl⟩ := allocFrame_some ha
      exact Ledger.allocFrame hl ht h hp

/-- `alloc_contiguous_frames` keeps the books. -/
theorem Books.allocContiguous {n : Nat} (hl : a.limit + n * pageSize < modulus) {o : Option Nat}
    (h : Books a held m) (ha : m.allocContiguousFrames n = (o, m')) : Books a held m' := by
  cases o with
  | none =>
      obtain ⟨p, hp, rfl⟩ := allocContiguousFrames_none ha
      exact Ledger.allocContiguousFrames hl h hp
  | some f =>
      obtain ⟨p, hp, rfl⟩ := allocContiguousFrames_some ha
      have hledger := Ledger.allocContiguousFrames hl h hp
      rw [← List.append_assoc] at hledger
      exact hledger

/-- The load keeps the books, however it ends. -/
theorem loadFresh_books (hl : a.limit + pageSize < modulus) (ht : a.total < modulus) (d : Slice)
    (room : Nat) : Command.Keeps (Books a held) (loadFresh d room) :=
  loadFresh_keeps (fun _ _ h hn => h.congr hn.pmm_eq hn.taken_eq)
    (fun _ _ _ h ha => h.alloc hl ht ha) d room

/-- The frames of the tables so far and `rest` are what has been handed out. -/
structure Listed (a : Account) (held rest tf : List Nat) (m : Memory) : Prop where
  books : Books a held m
  perm : m.trace.taken.Perm (tf ++ rest)

/-- The list, too, is about the allocator and the trace only. -/
theorem Listed.congr (h : Listed a held rest tf m) (hpmm : m'.pmm = m.pmm)
    (htaken : m'.trace.taken = m.trace.taken) : Listed a held rest tf m' :=
  ⟨h.books.congr hpmm htaken, htaken ▸ h.perm⟩

/-- A frame just handed out joins the list. -/
theorem Listed.push (hl : a.limit + pageSize < modulus) (ht : a.total < modulus)
    (h : Listed a held rest tf m) (ha : m.allocFrame = (some f, m')) :
    Listed a held rest (tf ++ [f]) m' := by
  refine ⟨h.books.alloc hl ht ha, ?_⟩
  obtain ⟨p, -, rfl⟩ := allocFrame_some ha
  rw [List.append_assoc]
  exact (h.perm.cons f).trans List.perm_middle.symm

/-- How a part of the table builder can end. -/
def ListedDone {α : Type} (a : Account) (held rest : List Nat) (tables : α → List Nat)
    (o : Outcome ε α) (m : Memory) : Prop :=
  match o with
  | .ok out => Listed a held rest (tables out) m
  | .err _ => False
  | .panic _ => True

/-- **One level of the walk** lists the table that it makes. -/
theorem enterTable_books (hl : a.limit + pageSize < modulus) (ht : a.total < modulus)
    (message : String) (table idx : Nat) (tf : List Nat) :
    Command.Spec (Listed a held rest tf) (enterTable message table idx tf : Command Memory ε _)
      (ListedDone a held rest Prod.snd) := by
  intro m h
  unfold enterTable
  rw [Command.gets_bind]
  by_cases hpresent : m.readWord (table + 8 * idx) &&& pagePresent = 0
  · rw [if_pos hpresent, Command.bind_apply, allocExpect]
    cases ha : m.allocFrame with
    | mk o m' =>
        cases o with
        | none => trivial
        | some f => exact (h.push hl ht ha).congr rfl rfl
  · rw [if_neg hpresent]
    exact h.congr rfl rfl

/-- **One page** lists the tables that it makes. -/
theorem mapUserPageSplit_books (hl : a.limit + pageSize < modulus) (ht : a.total < modulus)
    (pml4 vaddr paddr : Nat) (w x : Bool) (tf : List Nat) :
    Command.Spec (Listed a held rest tf)
      (mapUserPageSplit pml4 vaddr paddr w x tf : Command Memory ε _)
      (ListedDone a held rest id) := by
  unfold mapUserPageSplit
  refine (enterTable_books hl ht _ _ _ tf).seq ?_ (fun _ _ h => h) (fun _ _ h => h)
  rintro ⟨pdpt, tf⟩
  refine (enterTable_books hl ht _ _ _ tf).seq ?_ (fun _ _ h => h) (fun _ _ h => h)
  rintro ⟨pd, tf⟩
  refine (enterTable_books hl ht _ _ _ tf).seq ?_ (fun _ _ h => h) (fun _ _ h => h)
  rintro ⟨pt, tf⟩ m h
  exact Listed.congr h rfl rfl

/-- All pages list the tables that they make. -/
theorem mapPages_books (hl : a.limit + pageSize < modulus) (ht : a.total < modulus) (pml4 : Nat) :
    ∀ (pages : List Page) (tf : List Nat), Command.Spec (Listed a held rest tf)
      (mapPages pml4 pages tf : Command Memory ε _) (ListedDone a held rest id) := by
  intro pages
  induction pages with
  | nil => exact fun tf m h => h
  | cons page pages ih =>
      intro tf
      exact (mapUserPageSplit_books hl ht _ _ _ _ _ tf).seq (fun tf' => ih tf')
        (fun _ _ h => h) (fun _ _ h => h)

/-- The copy of the upper half hands out nothing. -/
private theorem copyUpper_rest (kernel pml4 : Nat) (m : Memory) :
    (copyUpper kernel pml4 m).pmm = m.pmm ∧
      (copyUpper kernel pml4 m).trace.taken = m.trace.taken := by
  unfold copyUpper
  induction List.range 256 generalizing m with
  | nil => exact ⟨rfl, rfl⟩
  | cons i is ih => exact ih _

/-- **The table builder** lists all frames it has been handed. -/
theorem create_books (hl : a.limit + pageSize < modulus) (ht : a.total < modulus) (cr3 : Nat)
    (pages : List Page) (stackPhys : Nat) :
    Command.Spec (Listed a held rest [])
      (createIsolatedUserTableFresh cr3 pages stackPhys : Command Memory ε _)
      (ListedDone a held rest Prod.snd) := by
  intro m h
  unfold createIsolatedUserTableFresh
  rw [Command.bind_apply, allocExpect]
  cases ha : m.allocFrame with
  | mk o m1 =>
      cases o with
      | none => trivial
      | some pml4 =>
          have hmap : Command.Spec (Listed a held rest [pml4])
              (do
                let tableFrames ← mapPages pml4 pages [pml4]
                let tableFrames ←
                  mapUserPageSplit pml4 stackPhys stackPhys true false tableFrames
                return (pml4, tableFrames))
              (ListedDone (ε := ε) a held rest Prod.snd) := by
            refine (mapPages_books hl ht pml4 pages [pml4]).seq (fun tf => ?_)
              (fun _ _ h => h) (fun _ _ h => h)
            exact (mapUserPageSplit_books hl ht _ _ _ _ _ tf).seq (fun tf' m h => h)
              (fun _ _ h => h) (fun _ _ h => h)
          obtain ⟨hpmm, htaken⟩ := copyUpper_rest (cr3 &&& addrMask) pml4 (m1.zeroFrame pml4)
          have hcopied : Listed a held rest [pml4]
              (copyUpper (cr3 &&& addrMask) pml4 (m1.zeroFrame pml4)) :=
            (h.push hl ht ha).congr hpmm htaken
          exact hmap (copyUpper (cr3 &&& addrMask) pml4 (m1.zeroFrame pml4)) hcopied

end

section

variable {a : Account} {held : List Nat} {trampoline room caps pid : Nat} {elf : Slice}
  {k k' : Kernel}

/-- The frames of the kernel stack. -/
private theorem stack_frames {stackPhys : Nat} (h : ∀ f ∈ units pageSize stackPhys 4, f < modulus) :
    (List.range 4).map (fun i => add stackPhys (mul i pageSize)) = units pageSize stackPhys 4 := by
  refine List.map_congr_left (fun i hi => ?_)
  have hlt := h (stackPhys + i * pageSize) (mem_units.mpr ⟨i, List.mem_range.mp hi, rfl⟩)
  rw [mul_eq (lt_of_le_of_lt (Nat.le_add_left _ _) hlt), add_eq hlt]

/-- **What `spawn` has been handed** is the stack of the new task. -/
theorem spawn_books {ε : Type} (hl : a.limit + 4 * pageSize < modulus) {entry : Nat}
    (h : Books a held k.mem) (hrun : (spawn entry : Command Kernel ε Nat) k = (.ok pid, k')) :
    ∃ t, Books a held k'.mem ∧ t.state = .runnable ∧ t.priority = defaultPrio ∧
      t.isolatedTableFrames = none ∧ t.frames.Nodup ∧
      k'.mem.trace.taken = t.frames ++ k.mem.trace.taken ∧
      k'.sched = ({ k.sched with
        nextPid := add k.sched.nextPid 1
        tasks := insert k.sched.tasks pid t } : Scheduler CpuCtx).enqueue pid defaultPrio := by
  obtain ⟨-, -, stackPhys, ctx, hfirst, hsched⟩ := spawn_ok hrun
  have hmem := spawn_mem (ε := ε) entry k
  rw [hrun] at hmem
  cases ha : k.mem.allocContiguousFrames 4 with
  | mk o m1 =>
      rw [ha] at hfirst hmem
      obtain rfl : o = some stackPhys := hfirst
      have hbooks := h.allocContiguous hl ha
      obtain ⟨p, hp, rfl⟩ := allocContiguousFrames_some ha
      have hlt : ∀ f ∈ units pageSize stackPhys 4, f < modulus := by
        intro f hf
        have hin := hbooks.sound.separated.inside f
          (List.mem_append_left _ (List.mem_append_left _ (List.mem_append_left _ hf)))
        simp only [pageSize] at hin hl
        omega
      have hframes : (newTcb pid stackPhys k.cpu.cr3 ctx).frames = units pageSize stackPhys 4 :=
        stack_frames hlt
      have hmem' : k'.mem = _ := hmem
      refine ⟨newTcb pid stackPhys k.cpu.cr3 ctx, hbooks.congr ?_ ?_, rfl, rfl, rfl, ?_, ?_, hsched⟩
      · rw [hmem']
        rfl
      · rw [hmem']
        rfl
      · rw [hframes]
        exact units_nodup (by decide) _ _
      · rw [hmem', hframes]
        rfl

/-- A call has added the task `t`, whose frames it has been handed. -/
structure Added (a : Account) (held : List Nat) (k : Kernel) (pid : Nat) (t : Tcb CpuCtx)
    (k' : Kernel) : Prop where
  books : Books a held k'.mem
  taken : k'.mem.trace.taken.Perm t.frames
  pid_eq : pid = k.sched.nextPid
  nextPid_eq : k'.sched.nextPid = k.sched.nextPid + 1
  consistent : Consistent k'.sched
  lookup_eq : ∀ x, lookup k'.sched.tasks x = if x = pid then some t else lookup k.sched.tasks x

/-- The pid of a new task. -/
theorem nextPid_eq {s : Scheduler CpuCtx} (h : Consistent s) :
    s.nextPid % 2 ^ 32 = s.nextPid ∧ add s.nextPid 1 = s.nextPid + 1 := by
  have hle := h.nextPid_le
  have hmax : maxTasks = 131072 := by decide
  exact ⟨Nat.mod_eq_of_lt (by omega), add_eq (by unfold modulus; omega)⟩

/-- **`spawn`** adds a task whose frames are all that it was handed out. -/
theorem spawn_added {ε : Type} (hl : a.limit + 4 * pageSize < modulus) {entry : Nat}
    (hs : Consistent k.sched) (h : Books a held k.mem) (htrace : k.mem.trace.taken = [])
    (hrun : (spawn entry : Command Kernel ε Nat) k = (.ok pid, k')) :
    ∃ t, Added a held k pid t k' := by
  obtain ⟨t, hbooks, hst, hprio, -, -, htaken, hsched⟩ := spawn_books hl h hrun
  obtain ⟨hpid, hroom, -⟩ := spawn_ok hrun
  obtain ⟨hsmall, hnext⟩ := nextPid_eq hs
  refine ⟨t, hbooks, ?_, hpid.trans hsmall, ?_, ?_, ?_⟩
  · rw [htaken, htrace, List.append_nil]
  · rw [hsched]
    exact hnext
  · rw [hsched]
    exact hs.spawn hpid hroom hst hprio
  · intro x
    rw [hsched]
    exact lookup_insert _ _ _ _

/-- A call of `spawn_isolated` has added a task with the tables it was given;
the frames it has been handed are the kernel stack. -/
structure AddedIsolated (a : Account) (held : List Nat) (k : Kernel) (pid : Nat) (i : Isolation)
    (t : Tcb CpuCtx) (k' : Kernel) : Prop where
  books : Books a held k'.mem
  taken : k'.mem.trace.taken = t.frames ++ k.mem.trace.taken
  frames_eq : (i.patch t).frames = i.tableFrames ++ [i.userStackPhys] ++ t.frames
  pid_eq : pid = k.sched.nextPid
  nextPid_eq : k'.sched.nextPid = k.sched.nextPid + 1
  consistent : Consistent k'.sched
  current_eq : k'.sched.current = k.sched.current
  lookup_eq : ∀ x, lookup k'.sched.tasks x =
    if x = pid then some (i.patch t) else lookup k.sched.tasks x

/-- **`spawn_isolated`** adds such a task. -/
theorem spawnIsolated_added {ε : Type} {i : Isolation} (hl : a.limit + 4 * pageSize < modulus)
    (hs : Consistent k.sched) (h : Books a held k.mem)
    (hrun : (spawnIsolated trampoline i : Command Kernel ε Nat) k = (.ok pid, k')) :
    ∃ t, AddedIsolated a held k pid i t k' := by
  obtain ⟨pid', k1, hspawn, hrest⟩ := Command.bind_eq_ok.mp hrun
  obtain ⟨hpid, rfl⟩ := Prod.mk.inj hrest
  obtain rfl := Outcome.ok.inj hpid
  obtain ⟨t, hbooks, hst, hprio, hnone, -, htaken, hsched⟩ := spawn_books hl h hspawn
  obtain ⟨hpid', hroom, -⟩ := spawn_ok hspawn
  obtain ⟨hsmall, hnext⟩ := nextPid_eq hs
  refine ⟨t, hbooks, htaken, ?_, hpid'.trans hsmall, ?_, ?_, ?_, ?_⟩
  · simp only [Tcb.frames, Isolation.patch, hnone, List.nil_append]
  · change k1.sched.nextPid = _
    rw [hsched]
    exact hnext
  · have hcons := hs.spawn hpid' hroom hst hprio
    rw [← hsched] at hcons
    exact hcons.adjust (fun _ => ⟨rfl, rfl⟩)
  · change k1.sched.current = _
    rw [hsched]
    rfl
  · intro x
    change lookup (adjust k1.sched.tasks pid' i.patch) x = _
    rw [hsched, lookup_adjust]
    change (if x = pid' then (lookup (insert k.sched.tasks pid' t) x).map i.patch
      else lookup (insert k.sched.tasks pid' t) x) = _
    rw [lookup_insert]
    by_cases hx : x = pid'
    · simp [hx]
    · simp [hx]

/-- **What `spawn_program` has been handed** is what the new task lists. -/
theorem spawnProgram_added (hl : a.limit + 4 * pageSize < modulus) (ht : a.total < modulus)
    (hs : Consistent k.sched) (h : Books a held k.mem) (htrace : k.mem.trace.taken = [])
    (hrun : spawnProgram trampoline room elf caps k = (.ok pid, k')) :
    ∃ t, Added a held k pid t k' := by
  have hl1 : a.limit + pageSize < modulus := by
    simp only [pageSize] at hl ⊢
    omega
  obtain ⟨entry, pages, loaded, stackPhys, stacked, pml4, tableFrames, built, hsteps⟩ :=
    spawnProgram_ok hrun
  have hlaid := loadFresh_laid hsteps.load
  have hloaded := (loadFresh_books hl1 ht elf room).of_ok h hsteps.load
  have hstacked := hloaded.alloc hl1 ht hsteps.stack
  have hstart : Listed a held (stackPhys :: (pages.map Page.frame).reverse) []
      (stacked.zeroFrame stackPhys) := by
    refine ⟨hstacked.congr rfl rfl, ?_⟩
    obtain ⟨p, -, rfl⟩ := allocFrame_some hsteps.stack
    simp [hlaid.taken_eq, htrace]
  have hlisted := create_books (ε := String) hl1 ht k.cpu.cr3 pages stackPhys _ hstart
  rw [hsteps.create] at hlisted
  obtain ⟨hbuilt, hperm⟩ := hlisted
  obtain ⟨t, hadded⟩ := spawnIsolated_added (k := { k with mem := built }) hl hs hbuilt hsteps.spawn
  generalize hi : Isolation.mk _ _ _ _ _ _ = i at *
  refine ⟨i.patch t, hadded.books, ?_, hadded.pid_eq, hadded.nextPid_eq, hadded.consistent,
    hadded.lookup_eq⟩
  -- tables, pages and the user stack, then the kernel stack
  have hframes : (i.patch t).frames =
      tableFrames ++ pages.map Page.frame ++ [stackPhys] ++ t.frames := by
    rw [hadded.frames_eq, ← hi]
  have hlist : (tableFrames ++ (stackPhys :: (pages.map Page.frame).reverse)).Perm
      (tableFrames ++ pages.map Page.frame ++ [stackPhys]) := by
    rw [List.append_assoc]
    refine List.Perm.append_left _ ?_
    exact ((List.reverse_perm _).cons _).trans (List.perm_append_singleton _ _).symm
  rw [hadded.taken, hframes]
  exact ((hperm.trans hlist).append_left _).trans List.perm_append_comm

/-- **Where `spawn_program` returns an error**: at the end of a load that fails, or
without a frame for the user stack after one that succeeds.  Nothing after that
fails, and the scheduler is only reached there. -/
theorem spawnProgram_err_cases {limit : Nat} {e : String} (hl : limit + pageSize < modulus)
    (hs : Sound limit k.mem.pmm (k.mem.trace.taken ++ held))
    (hrun : spawnProgram trampoline room elf caps k = (.err e, k')) :
    k'.sched = k.sched ∧
      ((∃ e', loadFresh elf room k.mem = (.err e', k'.mem)) ∨
        ∃ entry pages loaded, loadFresh elf room k.mem = (.ok (entry, pages), loaded) ∧
          loaded.allocFrame = (none, k'.mem)) := by
  -- the frames alone, and nothing about the free count
  have hbooks : Books ⟨limit, 0, False⟩ held k.mem := ⟨hs, False.elim⟩
  have ht : 0 < modulus := by decide
  have hload := loadFresh_books hl ht elf room k.mem hbooks
  unfold spawnProgram at hrun
  rw [onMemory_bind, Command.mapErr] at hrun
  cases hc : loadFresh elf room k.mem with
  | mk o loaded =>
      rw [hc] at hrun hload
      cases o with
      | panic s => cases hrun
      | err e' =>
          obtain ⟨-, rfl⟩ := Prod.mk.inj hrun
          exact ⟨rfl, Or.inl ⟨e', rfl⟩⟩
      | ok out =>
          obtain ⟨entry, pages⟩ := out
          dsimp only at hrun
          rw [onMemory_bind, allocOr] at hrun
          cases ha : loaded.allocFrame with
          | mk o stacked =>
              rw [ha] at hrun
              cases o with
              | none =>
                  obtain ⟨-, rfl⟩ := Prod.mk.inj hrun
                  exact ⟨rfl, Or.inr ⟨entry, pages, loaded, rfl, ha⟩⟩
              | some stackPhys =>
                  dsimp only at hrun
                  rw [onMemory_bind, Command.modify_apply] at hrun
                  dsimp only at hrun
                  rw [Command.gets_bind, onMemory_bind] at hrun
                  -- the rest of the call does not return an error
                  have hstart : Listed ⟨limit, 0, False⟩ held stacked.trace.taken []
                      (stacked.zeroFrame stackPhys) :=
                    ⟨(Books.alloc hl ht hload ha).congr rfl rfl, List.Perm.refl _⟩
                  have hlisted := create_books (ε := String) hl ht k.cpu.cr3 pages
                    stackPhys _ hstart
                  cases hcreate : (createIsolatedUserTableFresh k.cpu.cr3 pages stackPhys :
                      Command Memory String _) (stacked.zeroFrame stackPhys) with
                  | mk o built =>
                      rw [hcreate] at hrun hlisted
                      cases o with
                      | err e' => exact absurd hlisted id
                      | panic s => cases hrun
                      | ok out =>
                          exact absurd (congrArg Prod.fst hrun) ((spawnIsolated_mem _ _ _).2 e)

/-- A `spawn_program` that returns an error has only been handed frames. -/
theorem spawnProgram_err (hl : a.limit + 4 * pageSize < modulus) (ht : a.total < modulus)
    (h : Books a held k.mem) {e : String}
    (hrun : spawnProgram trampoline room elf caps k = (.err e, k')) :
    Books a held k'.mem ∧ k'.sched = k.sched := by
  have hl1 : a.limit + pageSize < modulus := by
    simp only [pageSize] at hl ⊢
    omega
  obtain ⟨hsched, hcases⟩ := spawnProgram_err_cases hl1 h.sound hrun
  refine ⟨?_, hsched⟩
  have hload := loadFresh_books hl1 ht elf room k.mem h
  rcases hcases with ⟨e', hfail⟩ | ⟨entry, pages, loaded, hok, halloc⟩
  · rw [hfail] at hload
    exact hload
  · rw [hok] at hload
    exact Books.alloc hl1 ht hload halloc

end

end Scheduler
