import Noxisa.NvmeBuffers

/-!
# Creating the I/O queue pair

`ensure_io_queue` of `drivers/nvme.rs` against a controller that keeps the ids of
the queues that exist, and rejects the creation of one that does.  The two create
commands go through the admin queue, where the controller executes commands in
the order of their submission and its completions are consumed in the order of
their posting.  What the controller does during a call is up to `Env`: how far it
gets before the driver gives up waiting, and which commands it answers with an
error instead of executing them.

The driver remembers the pair at the very end.  `io_queue_retry_iff` says after
which failures a later call succeeds: those before the first command is sent,
and an error in answer to it.
-/

namespace Nvme

open FrameAllocator PhysicalMemory

/-- The status of a completion: its type and its code. -/
structure Status where
  sct : Fin 8
  sc : Fin 256
deriving DecidableEq

/-- A status of zeros. -/
def Status.success : Status := ⟨0, 0⟩

/-- The id of the queue to create is in use. -/
def Status.invalidQueueIdentifier : Status := ⟨1, 1⟩

/-- An error that the controller reports without executing the command. -/
abbrev Fault := {s : Status // s ≠ Status.success}

/-- The ids of the I/O queues that exist in the controller. -/
structure QueueIds where
  cqs : List Nat
  sqs : List Nat
deriving DecidableEq

/-- Bits 0 to 15 of word 10. -/
def Sqe.qid (cmd : Sqe) : Nat := cmd.cdw10 % 2 ^ 16

/-- The controller executes a command, or reports a fault. -/
def QueueIds.execute (q : QueueIds) (cmd : Sqe) : Option Fault → Status × QueueIds
  | some fault => (fault.val, q)
  | none =>
      if cmd.opcode = 0x05 then
        if cmd.qid ∈ q.cqs then (.invalidQueueIdentifier, q)
        else (.success, { q with cqs := cmd.qid :: q.cqs })
      else if cmd.opcode = 0x01 then
        if cmd.qid ∈ q.sqs then (.invalidQueueIdentifier, q)
        else (.success, { q with sqs := cmd.qid :: q.sqs })
      else (.success, q)

/-- The completion of the command with id `cid`. -/
def completion (cid : Nat) (status : Status) : Cqe :=
  ⟨0, cid + 2 ^ 17 * status.sc.val + 2 ^ 25 * status.sct.val⟩

/-- `AdminQueueState`, with the commands that the controller has not executed and
the completions that the driver has not consumed. -/
structure Admin where
  queue : QueueState
  pending : List Sqe
  posted : List Cqe

/-- `IoQueueState`, less the addresses. -/
structure IoQueueState where
  queue : QueueState
  nsid : Nat

/-- The singletons are empty at first. -/
structure Setup where
  mem : Memory
  admin : Option Admin
  io : Option IoQueueState
  ids : QueueIds

/-- What the controller does during a call of `ensure_io_queue`. -/
structure Env where
  /-- an error before the admin queues are allocated -/
  early : Option NvmeInitError
  /-- an error after the controller was disabled -/
  late : Option NvmeInitError
  /-- the commands executed while the driver waits, each with its fault -/
  first : List (Option Fault)
  second : List (Option Fault)

/-- The controller executes commands in order. -/
def serve (q : QueueIds) (pending : List Sqe) (posted : List Cqe) :
    List (Option Fault) → QueueIds × List Sqe × List Cqe
  | [] => (q, pending, posted)
  | fault :: script =>
      match pending with
      | [] => (q, [], posted)
      | cmd :: rest =>
          let (status, q') := q.execute cmd fault
          serve q' rest (posted ++ [completion cmd.cid status]) script

namespace Setup

/-- The id of the next command. -/
def nextCid (s : Setup) : Nat := (s.admin.map (fun a => a.queue.nextCid)).getD 0

/-- `submit_admin_and_wait`: the driver consumes the oldest completion, or none
is posted in time. -/
def submitAdminAndWait (script : List (Option Fault)) (cmd : Sqe) :
    Command Setup NvmeInitError Nat := fun s =>
  match s.admin with
  | none => (.panic "ensure_admin_queue() just succeeded", s)
  | some a =>
      let (ids, pending, posted) := serve s.ids (a.pending ++ [cmd]) a.posted script
      match posted with
      | [] => (.err .commandTimeout, { s with
          admin := some ⟨a.queue.advance (.error .commandTimeout), pending, []⟩, ids := ids })
      | e :: rest =>
          let result := finish a.queue.nextCid e
          (outcome result, { s with
            admin := some ⟨a.queue.advance result, pending, rest⟩, ids := ids })

/-- `alloc_contiguous_frames(1).ok_or(AllocFailed)?`; each queue fits a page. -/
def allocQueue : Command Setup NvmeInitError Nat := fun s =>
  match s.mem.allocContiguousFrames 1 with
  | (some a, m) => (.ok a, { s with mem := m })
  | (none, m) => (.err .allocFailed, { s with mem := m })

/-- The two pages of a queue are zeroed. -/
def zeroQueues (sq cq : Nat) : Command Setup NvmeInitError Unit :=
  Command.modify (fun s => { s with mem := (s.mem.zeroFrame sq).zeroFrame cq })

/-- `init_admin_queues`; clearing CC.EN deletes all I/O queues. -/
def initAdminQueues (env : Env) : Command Setup NvmeInitError Unit := do
  let sq ← allocQueue
  let cq ← allocQueue
  zeroQueues sq cq
  Command.modify (fun s => { s with ids := ⟨[], []⟩ })
  match env.late with
  | some e => Command.fail e
  | none => Command.modify (fun s => { s with admin := some ⟨.new 64, [], []⟩ })

/-- `ensure_admin_queue`: a queue that is there is kept. -/
def ensureAdminQueue (env : Env) : Command Setup NvmeInitError Unit := fun s =>
  match s.admin with
  | some _ => (.ok (), s)
  | none =>
      match env.early with
      | some e => (.err e, s)
      | none => initAdminQueues env s

/-- The one I/O queue. -/
def ioQid : Nat := 1
def ioQueueDepth : Nat := 16

/-- `build_create_io_cq_cmd` -/
def buildCreateIoCqCmd (cid qid size0based ptr : Nat) : Sqe :=
  { opcode := 0x05, cid := cid, nsid := 0, prp1 := ptr
    cdw10 := (size0based <<< 16) ||| qid, cdw11 := 0x1, cdw12 := 0 }

/-- `build_create_io_sq_cmd` -/
def buildCreateIoSqCmd (cid qid size0based ptr cqid : Nat) : Sqe :=
  { opcode := 0x01, cid := cid, nsid := 0, prp1 := ptr
    cdw10 := (size0based <<< 16) ||| qid, cdw11 := (cqid <<< 16) ||| 0x1, cdw12 := 0 }

/-- The two commands of `ensure_io_queue`, and what it stores after them. -/
def createQueues (env : Env) (nsid sqPhys cqPhys : Nat) : Command Setup NvmeInitError Unit := do
  let cid ← Command.gets nextCid
  let _ ← submitAdminAndWait env.first (buildCreateIoCqCmd cid ioQid (ioQueueDepth - 1) cqPhys)
  let cid ← Command.gets nextCid
  let _ ← submitAdminAndWait env.second
    (buildCreateIoSqCmd cid ioQid (ioQueueDepth - 1) sqPhys ioQid)
  Command.modify (fun s => { s with io := some ⟨.new ioQueueDepth, nsid⟩ })

/-- `ensure_io_queue`: the queue is stored only after both halves have been made. -/
def ensureIoQueue (env : Env) (nsid : Nat) : Command Setup NvmeInitError Unit := fun s =>
  match s.io with
  | some _ => (.ok (), s)
  | none => (do
      ensureAdminQueue env
      let sqPhys ← allocQueue
      let cqPhys ← allocQueue
      zeroQueues sqPhys cqPhys
      createQueues env nsid sqPhys cqPhys : Command Setup NvmeInitError Unit) s

end Setup

/-- So many pages can be allocated, one at a time. -/
def HasPages : Pmm → Nat → Prop
  | _, 0 => True
  | p, n + 1 => (FrameAllocator.allocContiguousFrames p 1).1.isSome ∧ HasPages (drawn p) n

namespace Setup

/-- How many commands wait for the controller. -/
def waiting (s : Setup) : Nat := (s.admin.map (fun a => a.pending.length)).getD 0

/-- The controller executes all that is sent to it, without a fault. -/
structure Healthy (env : Env) (s : Setup) : Prop where
  early : env.early = none
  late : env.late = none
  first : ∀ fault ∈ env.first, fault = none
  second : ∀ fault ∈ env.second, fault = none
  time : s.waiting < env.first.length ∧ s.waiting < env.second.length

/-- A call succeeds as soon as the controller is healthy and there is memory. -/
def Retryable (s : Setup) : Prop :=
  ∀ env nsid mem, Healthy env s → HasPages mem.pmm 4 →
    (ensureIoQueue env nsid { s with mem := mem }).1 = .ok ()

/-- The controller has neither queue of the pair. -/
def NoPair (s : Setup) : Prop := ioQid ∉ s.ids.cqs ∧ ioQid ∉ s.ids.sqs

/-- The call gets as far as sending its first command. -/
def Sends (env : Env) (s : Setup) : Prop :=
  s.io = none ∧ (s.admin = none → env.early = none ∧ env.late = none) ∧
    HasPages s.mem.pmm (if s.admin.isSome then 2 else 4)

/-- The first command is answered by an error, or both are executed in time. -/
def Answered (env : Env) (s : Setup) : Prop :=
  Sends env s → (∃ fault, env.first.head? = some (some fault)) ∨
    env.first.head? = some none ∧ env.second.head? = some none

/-- Nothing is under way on the admin queue. -/
def Calm (a : Admin) : Prop := a.pending = [] ∧ a.posted = [] ∧ a.queue.nextCid < 2 ^ 16

/-- Until the pair exists nothing of it does, and nothing is under way. -/
def Clean (s : Setup) : Prop :=
  s.io = none → NoPair s ∧ ∀ a, s.admin = some a → Calm a

end Setup

section

variable {s : Setup} {env : Env}

/-- Four pages are two and then two more. -/
theorem hasPages_four (p : Pmm) : HasPages p 4 ↔ HasPages p 2 ∧ HasPages (drawn (drawn p)) 2 := by
  simp only [HasPages, and_true, and_assoc]

namespace Setup

/-- A page for a queue is drawn, or there is none left. -/
theorem allocQueue_cases (s : Setup) :
    ((FrameAllocator.allocContiguousFrames s.mem.pmm 1).1 = none ∧
      ∃ m, allocQueue s = (.err .allocFailed, { s with mem := m })) ∨
    (FrameAllocator.allocContiguousFrames s.mem.pmm 1).1.isSome ∧
      ∃ a m, m.pmm = drawn s.mem.pmm ∧ allocQueue s = (.ok a, { s with mem := m }) := by
  unfold allocQueue Memory.allocContiguousFrames drawn
  cases FrameAllocator.allocContiguousFrames s.mem.pmm 1 with
  | mk o p =>
      cases o with
      | none => exact Or.inl ⟨rfl, _, rfl⟩
      | some a => exact Or.inr ⟨rfl, a, _, rfl, rfl⟩

/-- Two pages, or the error for the first one that is missing. -/
theorem allocPair_cases {α : Type} (s : Setup) (f : Nat → Nat → Command Setup NvmeInitError α) :
    (¬ HasPages s.mem.pmm 2 ∧ ∃ m, (do
        let sq ← allocQueue
        let cq ← allocQueue
        zeroQueues sq cq
        f sq cq : Command Setup NvmeInitError α) s = (.err .allocFailed, { s with mem := m })) ∨
    HasPages s.mem.pmm 2 ∧ ∃ sq cq m, m.pmm = drawn (drawn s.mem.pmm) ∧ (do
        let sq ← allocQueue
        let cq ← allocQueue
        zeroQueues sq cq
        f sq cq : Command Setup NvmeInitError α) s = f sq cq { s with mem := m } := by
  simp only [HasPages, and_true]
  rcases allocQueue_cases s with ⟨hnone, m, heq⟩ | ⟨hsome, sq, m, hpmm, heq⟩
  · refine Or.inl ⟨fun h => ?_, m, ?_⟩
    · rw [hnone] at h
      cases h.1
    · rw [Command.bind_apply, heq]
  · rcases allocQueue_cases { s with mem := m } with
      ⟨hnone', m', heq'⟩ | ⟨hsome', cq, m', hpmm', heq'⟩
    · refine Or.inl ⟨fun h => ?_, m', ?_⟩
      · change (FrameAllocator.allocContiguousFrames m.pmm 1).1 = none at hnone'
        rw [← hpmm, hnone'] at h
        cases h.2
      · rw [Command.bind_apply, heq]
        dsimp only
        rw [Command.bind_apply, heq']
    · change (FrameAllocator.allocContiguousFrames m.pmm 1).1.isSome at hsome'
      refine Or.inr ⟨⟨hsome, hpmm ▸ hsome'⟩, sq, cq, (m'.zeroFrame sq).zeroFrame cq, ?_, ?_⟩
      · change m'.pmm = _
        rw [hpmm', ← hpmm]
      · rw [Command.bind_apply, heq]
        dsimp only
        rw [Command.bind_apply, heq']
        rfl

/-- The admin queue is there, or nothing has been created. -/
theorem ensureAdminQueue_cases (hio : s.io = none) (hclean : Clean s) :
    (∃ e s', ensureAdminQueue env s = (.err e, s') ∧ s'.io = none ∧ Clean s' ∧ ¬ Sends env s) ∨
    ∃ s' a, ensureAdminQueue env s = (.ok (), s') ∧ s'.io = none ∧ NoPair s' ∧
      s'.admin = some a ∧ Calm a ∧ (Sends env s ↔ HasPages s'.mem.pmm 2) := by
  obtain ⟨hpair, hcalm⟩ := hclean hio
  unfold ensureAdminQueue
  cases hadmin : s.admin with
  | some a =>
      refine Or.inr ⟨s, a, rfl, hio, hpair, hadmin, hcalm a hadmin, ?_⟩
      simp [Sends, hio, hadmin]
  | none =>
      cases hearly : env.early with
      | some e =>
          refine Or.inl ⟨e, s, rfl, hio, hclean, fun hsends => ?_⟩
          have hnone := (hsends.2.1 hadmin).1
          rw [hearly] at hnone
          cases hnone
      | none =>
          dsimp only
          unfold initAdminQueues
          have hsends : Sends env s ↔ env.late = none ∧ HasPages s.mem.pmm 4 := by
            simp [Sends, hio, hadmin, hearly]
          rcases allocPair_cases s (fun _ _ => (do
              Command.modify (fun s => { s with ids := ⟨[], []⟩ })
              match env.late with
              | some e => Command.fail e
              | none => Command.modify (fun s => { s with admin := some ⟨.new 64, [], []⟩ }) :
              Command Setup NvmeInitError Unit)) with
            ⟨hpages, m, heq⟩ | ⟨hpages, sq, cq, m, hpmm, heq⟩
          · refine Or.inl ⟨_, _, heq, hio, fun _ => ⟨hpair, fun a ha => ?_⟩, fun h => ?_⟩
            · exact absurd (ha.symm.trans hadmin) (by simp)
            · exact hpages ((hasPages_four _).mp (hsends.mp h).2).1
          · rw [heq, Command.modify_bind]
            cases hlate : env.late with
            | some e =>
                refine Or.inl ⟨e, _, rfl, hio, fun _ => ⟨by simp [NoPair], fun a ha => ?_⟩, ?_⟩
                · exact absurd (ha.symm.trans hadmin) (by simp)
                · rw [hsends, hlate]
                  simp
            | none =>
                refine Or.inr ⟨_, _, rfl, hio, by simp [NoPair], rfl, ⟨rfl, rfl, by decide⟩, ?_⟩
                change _ ↔ HasPages m.pmm 2
                rw [hsends, hlate, hasPages_four, hpmm]
                simp [hpages]

/-- **A call** fails before it sends a command and leaves all as it was, or it
comes to the two commands with a calm admin queue. -/
theorem ensureIoQueue_cases (nsid : Nat) (hio : s.io = none) (hclean : Clean s) :
    (¬ Sends env s ∧ ∃ e s', ensureIoQueue env nsid s = (.err e, s') ∧ s'.io = none ∧ Clean s') ∨
    Sends env s ∧ ∃ sq cq s' a, ensureIoQueue env nsid s = createQueues env nsid sq cq s' ∧
      s'.io = none ∧ NoPair s' ∧ s'.admin = some a ∧ Calm a := by
  unfold ensureIoQueue
  rw [hio]
  dsimp only
  rcases @ensureAdminQueue_cases s env hio hclean with
    ⟨e, s', heq, hio', hclean', hsends⟩ | ⟨s', a, heq, hio', hpair, hadmin, hcalm, hsends⟩
  · refine Or.inl ⟨hsends, e, s', ?_, hio', hclean'⟩
    rw [Command.bind_apply, heq]
  · have hrun : ∀ f : Unit → Command Setup NvmeInitError Unit,
        (ensureAdminQueue env >>= f) s = f () s' := by
      intro f
      rw [Command.bind_apply, heq]
    rw [hrun]
    rcases allocPair_cases s' (fun sq cq => createQueues env nsid sq cq) with
      ⟨hpages, m, halloc⟩ | ⟨hpages, sq, cq, m, -, halloc⟩
    · refine Or.inl ⟨fun h => hpages (hsends.mp h), _, _, halloc, hio', fun _ => ⟨hpair, ?_⟩⟩
      intro a' ha'
      obtain rfl := Option.some.inj (hadmin.symm.trans ha')
      exact hcalm
    · exact Or.inr ⟨hsends.mpr hpages, sq, cq, _, a, halloc, hio', hpair, hadmin, hcalm⟩

/-- A completion has the id of its command, beside the phase. -/
theorem completion_cid {cid : Nat} (h : cid < 2 ^ 16) (status : Status) :
    (completion cid status).cid = cid := by
  have hmask : ∀ x : Nat, x &&& 0xFFFF = x % 2 ^ 16 := fun x => Nat.and_two_pow_sub_one_eq_mod x 16
  unfold Cqe.cid completion
  rw [hmask]
  dsimp only
  omega

/-- The driver reads the status that the controller has posted. -/
theorem finish_completion {cid : Nat} (h : cid < 2 ^ 16) (status : Status) :
    (finish cid (completion cid status) = .ok 0 ∧ status = .success) ∨
      (∃ e, finish cid (completion cid status) = .error e) ∧ status ≠ .success := by
  have hsc : (completion cid status).sc = status.sc.val := by
    have hlt := status.sc.isLt
    unfold Cqe.sc completion
    rw [show (0xFF : Nat) = 2 ^ 8 - 1 from rfl, Nat.and_two_pow_sub_one_eq_mod,
      Nat.shiftRight_eq_div_pow]
    dsimp only
    omega
  have hsct : (completion cid status).sct = status.sct.val := by
    have hlt := status.sct.isLt
    have hlt' := status.sc.isLt
    unfold Cqe.sct completion
    rw [show (0x7 : Nat) = 2 ^ 3 - 1 from rfl, Nat.and_two_pow_sub_one_eq_mod,
      Nat.shiftRight_eq_div_pow]
    dsimp only
    omega
  unfold finish
  rw [if_neg (not_not.mpr (completion_cid h status)), hsc, hsct]
  by_cases hok : status.sc.val ≠ 0 ∨ status.sct.val ≠ 0
  · rw [if_pos hok]
    refine Or.inr ⟨⟨_, rfl⟩, ?_⟩
    rintro rfl
    simp [Status.success] at hok
  · rw [if_neg hok]
    push Not at hok
    refine Or.inl ⟨rfl, ?_⟩
    obtain ⟨sct, sc⟩ := status
    simp only [Status.success, Status.mk.injEq, Fin.ext_iff]
    exact ⟨hok.2, hok.1⟩

/-- Handing a command over moves the id on. -/
theorem nextCid_advance (q : QueueState) (r : Except NvmeInitError Nat) :
    (q.advance r).nextCid = (q.nextCid + 1) % 2 ^ 16 := by
  unfold QueueState.advance
  split <;> rfl

/-- It leaves a calm queue calm, as nothing is open afterwards. -/
theorem Calm.advance {a : Admin} (r : Except NvmeInitError Nat) :
    Calm ⟨a.queue.advance r, [], []⟩ := by
  refine ⟨rfl, rfl, ?_⟩
  dsimp only
  rw [nextCid_advance]
  omega

/-- A state after a command that has been answered. -/
structure Done (s s' : Setup) (ids : QueueIds) : Prop where
  ids : s'.ids = ids
  io : s'.io = s.io
  calm : ∃ a, s'.admin = some a ∧ Calm a

/-- On a calm queue the driver gets the completion of its own command. -/
theorem submit_answered {a : Admin} (hadmin : s.admin = some a) (hcalm : Calm a) {cmd : Sqe}
    (hcid : cmd.cid = s.nextCid) {fault : Option Fault} {status : Status} {ids : QueueIds}
    (hexec : s.ids.execute cmd fault = (status, ids)) (script : List (Option Fault)) :
    ∃ s', Done s s' ids ∧
      (submitAdminAndWait (fault :: script) cmd s = (.ok 0, s') ∧ status = .success ∨
        (∃ e, submitAdminAndWait (fault :: script) cmd s = (.err e, s')) ∧ status ≠ .success) := by
  obtain ⟨hpending, hposted, hlt⟩ := hcalm
  have hcid' : cmd.cid = a.queue.nextCid := by
    rw [hcid, nextCid, hadmin]
    rfl
  generalize hresult : finish a.queue.nextCid (completion a.queue.nextCid status) = result
  have hrun : submitAdminAndWait (fault :: script) cmd s = (outcome result,
      { s with admin := some ⟨a.queue.advance result, [], []⟩, ids := ids }) := by
    unfold submitAdminAndWait
    rw [hadmin]
    dsimp only
    rw [hpending, hposted, List.nil_append, serve, hexec, ← hresult, ← hcid']
    dsimp only
    cases script <;> rfl
  refine ⟨{ s with admin := some ⟨a.queue.advance result, [], []⟩, ids := ids },
    ⟨rfl, rfl, _, rfl, Calm.advance result⟩, ?_⟩
  rw [hrun]
  rcases finish_completion hlt status with ⟨hfinish, hok⟩ | ⟨⟨e, hfinish⟩, hfail⟩
  · obtain rfl := hfinish.symm.trans hresult
    exact Or.inl ⟨rfl, hok⟩
  · obtain rfl := hfinish.symm.trans hresult
    exact Or.inr ⟨⟨e, rfl⟩, hfail⟩

/-- A command that the controller accepts is done when the call returns. -/
theorem submit_accepted {a : Admin} (hadmin : s.admin = some a) (hcalm : Calm a) (cmd : Sqe)
    (hcid : cmd.cid = s.nextCid) {ids : QueueIds}
    (hexec : s.ids.execute cmd none = (.success, ids)) (script : List (Option Fault)) :
    ∃ s', submitAdminAndWait (none :: script) cmd s = (.ok 0, s') ∧ Done s s' ids := by
  obtain ⟨s', hdone, ⟨heq, -⟩ | ⟨-, hfail⟩⟩ := submit_answered hadmin hcalm hcid hexec script
  · exact ⟨s', heq, hdone⟩
  · exact absurd rfl hfail

/-- A command that it fails is not, and the call says so. -/
theorem submit_faulted {a : Admin} (hadmin : s.admin = some a) (hcalm : Calm a) (cmd : Sqe)
    (hcid : cmd.cid = s.nextCid) (fault : Fault) (script : List (Option Fault)) :
    ∃ e s', submitAdminAndWait (some fault :: script) cmd s = (.err e, s') ∧ Done s s' s.ids := by
  have hexec : s.ids.execute cmd (some fault) = (fault.val, s.ids) := rfl
  obtain ⟨s', hdone, ⟨-, hok⟩ | ⟨⟨e, heq⟩, -⟩⟩ := submit_answered hadmin hcalm hcid hexec script
  · exact absurd hok fault.property
  · exact ⟨e, s', heq, hdone⟩

/-- If nothing is executed in time, the command stays. -/
theorem submit_timeout {a : Admin} (hadmin : s.admin = some a) (hcalm : Calm a) (cmd : Sqe) :
    submitAdminAndWait [] cmd s = (.err .commandTimeout,
      { s with admin := some ⟨a.queue.advance (.error .commandTimeout), [cmd], []⟩ }) := by
  obtain ⟨hpending, hposted, -⟩ := hcalm
  unfold submitAdminAndWait
  rw [hadmin]
  dsimp only
  rw [hpending, hposted, List.nil_append]
  rfl

/-- The controller makes a completion queue that is not there yet. -/
theorem execute_createCq (ids : QueueIds) (cid cq : Nat) :
    ids.execute (buildCreateIoCqCmd cid ioQid (ioQueueDepth - 1) cq) none =
      if ioQid ∈ ids.cqs then (.invalidQueueIdentifier, ids)
      else (.success, { ids with cqs := ioQid :: ids.cqs }) := by
  have hqid : (buildCreateIoCqCmd cid ioQid (ioQueueDepth - 1) cq).qid = ioQid := by
    dsimp only [Sqe.qid, buildCreateIoCqCmd]
    decide
  unfold QueueIds.execute
  rw [hqid]
  rfl

/-- It makes a submission queue that is not there yet. -/
theorem execute_createSq (ids : QueueIds) (cid sq : Nat) :
    ids.execute (buildCreateIoSqCmd cid ioQid (ioQueueDepth - 1) sq ioQid) none =
      if ioQid ∈ ids.sqs then (.invalidQueueIdentifier, ids)
      else (.success, { ids with sqs := ioQid :: ids.sqs }) := by
  have hqid : (buildCreateIoSqCmd cid ioQid (ioQueueDepth - 1) sq ioQid).qid = ioQid := by
    dsimp only [Sqe.qid, buildCreateIoSqCmd]
    decide
  unfold QueueIds.execute
  rw [hqid]
  rfl

/-- An error in answer to the first command leaves all as it was. -/
private theorem createQueues_faulted {a : Admin} (hadmin : s.admin = some a) (hcalm : Calm a)
    (nsid sq cq : Nat) {fault : Fault} {script : List (Option Fault)}
    (hfirst : env.first = some fault :: script) :
    ∃ e s', createQueues env nsid sq cq s = (.err e, s') ∧ Done s s' s.ids := by
  obtain ⟨e, s', heq, hdone⟩ := submit_faulted hadmin hcalm
    (buildCreateIoCqCmd s.nextCid ioQid (ioQueueDepth - 1) cq) rfl fault script
  refine ⟨e, s', ?_, hdone⟩
  unfold createQueues
  rw [Command.gets_bind, Command.bind_apply, hfirst, heq]

/-- After a first command that is executed comes the second. -/
theorem createQueues_created {a : Admin} (hadmin : s.admin = some a) (hcalm : Calm a)
    (hpair : NoPair s) (nsid sq cq : Nat) {script : List (Option Fault)}
    (hfirst : env.first = none :: script) :
    ∃ s', Done s s' { s.ids with cqs := ioQid :: s.ids.cqs } ∧
      createQueues env nsid sq cq s = (do
        let _ ← submitAdminAndWait env.second
          (buildCreateIoSqCmd s'.nextCid ioQid (ioQueueDepth - 1) sq ioQid)
        Command.modify (fun s => { s with io := some ⟨.new ioQueueDepth, nsid⟩ }) :
        Command Setup NvmeInitError Unit) s' := by
  obtain ⟨s', heq, hdone⟩ := submit_accepted hadmin hcalm
    (buildCreateIoCqCmd s.nextCid ioQid (ioQueueDepth - 1) cq) rfl
    ((execute_createCq s.ids s.nextCid cq).trans (if_neg hpair.1)) script
  refine ⟨s', hdone, ?_⟩
  unfold createQueues
  rw [Command.gets_bind, Command.bind_apply, hfirst, heq]
  rfl

/-- Both commands are executed. -/
theorem createQueues_ok {a : Admin} (hadmin : s.admin = some a) (hcalm : Calm a)
    (hpair : NoPair s) (nsid sq cq : Nat) {script script' : List (Option Fault)}
    (hfirst : env.first = none :: script) (hsecond : env.second = none :: script') :
    ∃ s', createQueues env nsid sq cq s = (.ok (), s') ∧ s'.io.isSome := by
  obtain ⟨t, hdone, heq⟩ := createQueues_created hadmin hcalm hpair nsid sq cq hfirst
  obtain ⟨b, hb, hbcalm⟩ := hdone.calm
  have hsq : ioQid ∉ t.ids.sqs := by
    rw [hdone.ids]
    exact hpair.2
  obtain ⟨s', heq', -⟩ := submit_accepted hb hbcalm
    (buildCreateIoSqCmd t.nextCid ioQid (ioQueueDepth - 1) sq ioQid) rfl
    ((execute_createSq t.ids t.nextCid sq).trans (if_neg hsq)) script'
  refine ⟨{ s' with io := some ⟨.new ioQueueDepth, nsid⟩ }, ?_, rfl⟩
  rw [heq, Command.bind_apply, hsecond, heq']
  rfl

/-- A second command that is not executed leaves the completion queue behind. -/
theorem createQueues_half {a : Admin} (hadmin : s.admin = some a) (hcalm : Calm a)
    (hpair : NoPair s) (nsid sq cq : Nat) {script : List (Option Fault)}
    (hfirst : env.first = none :: script) (hsecond : env.second.head? ≠ some none) :
    ∃ e s', createQueues env nsid sq cq s = (.err e, s') ∧ ioQid ∈ s'.ids.cqs := by
  obtain ⟨t, hdone, heq⟩ := createQueues_created hadmin hcalm hpair nsid sq cq hfirst
  obtain ⟨b, hb, hbcalm⟩ := hdone.calm
  have hcq : ioQid ∈ t.ids.cqs := by
    rw [hdone.ids]
    exact List.mem_cons_self
  cases hscript : env.second with
  | nil =>
      have htimeout := submit_timeout hb hbcalm
        (buildCreateIoSqCmd t.nextCid ioQid (ioQueueDepth - 1) sq ioQid)
      refine ⟨.commandTimeout, { t with admin := some ⟨b.queue.advance (.error .commandTimeout),
        [buildCreateIoSqCmd t.nextCid ioQid (ioQueueDepth - 1) sq ioQid], []⟩ }, ?_, hcq⟩
      rw [heq, Command.bind_apply, hscript, htimeout]
  | cons f rest =>
      cases f with
      | none =>
          rw [hscript] at hsecond
          exact absurd rfl hsecond
      | some fault =>
          obtain ⟨e, s', heq', hdone'⟩ := submit_faulted hb hbcalm
            (buildCreateIoSqCmd t.nextCid ioQid (ioQueueDepth - 1) sq ioQid) rfl fault rest
          refine ⟨e, s', ?_, ?_⟩
          · rw [heq, Command.bind_apply, hscript, heq']
          · rw [hdone'.ids]
            exact hcq

/-- From a clean state a call on a healthy controller succeeds. -/
theorem Clean.succeeds (h : Clean s) (hhealthy : Healthy env s) (hpages : HasPages s.mem.pmm 4)
    (nsid : Nat) : (ensureIoQueue env nsid s).1 = .ok () := by
  cases hio : s.io with
  | some q =>
      unfold ensureIoQueue
      rw [hio]
  | none =>
      have hsends : Sends env s := by
        refine ⟨hio, fun _ => ⟨hhealthy.early, hhealthy.late⟩, ?_⟩
        split
        · exact ((hasPages_four s.mem.pmm).mp hpages).1
        · exact hpages
      have hhead : ∀ script : List (Option Fault), (∀ fault ∈ script, fault = none) →
          s.waiting < script.length → ∃ rest, script = none :: rest := by
        intro script hnone hlt
        cases script with
        | nil => cases hlt
        | cons f rest => exact ⟨rest, by rw [hnone f List.mem_cons_self]⟩
      rcases @ensureIoQueue_cases s env nsid hio h with
        ⟨hnot, -⟩ | ⟨-, sq, cq, t, a, heq, -, hpair, hadmin, hcalm⟩
      · exact absurd hsends hnot
      · obtain ⟨_, hfirst⟩ := hhead env.first hhealthy.first hhealthy.time.1
        obtain ⟨_, hsecond⟩ := hhead env.second hhealthy.second hhealthy.time.2
        obtain ⟨t', hok, -⟩ := createQueues_ok hadmin hcalm hpair nsid sq cq hfirst hsecond
        rw [heq, hok]

/-- A clean set-up can be tried again. -/
theorem Clean.retryable (h : Clean s) : Retryable s := by
  intro env nsid mem hhealthy hpages
  have hclean : Clean { s with mem := mem } := h
  have hhealthy' : Healthy env { s with mem := mem } :=
    ⟨hhealthy.early, hhealthy.late, hhealthy.first, hhealthy.second, hhealthy.time⟩
  exact hclean.succeeds hhealthy' hpages nsid

/-- A command that has timed out is answered to the next one. -/
theorem submit_stale {q : QueueState} {old : Sqe} (hadmin : s.admin = some ⟨q, [old], []⟩)
    (hold : old.cid < 2 ^ 16) (hne : old.cid ≠ q.nextCid) (cmd : Sqe) :
    (submitAdminAndWait [none, none] cmd s).1 = .err .unexpectedCid := by
  have hfinish : ∀ status, finish q.nextCid (completion old.cid status) =
      .error .unexpectedCid := by
    intro status
    unfold finish
    rw [completion_cid hold, if_pos hne]
  unfold submitAdminAndWait
  rw [hadmin]
  dsimp only
  simp only [List.singleton_append, serve, List.nil_append, hfinish]
  rfl

/-- The sample machine has four pages. -/
theorem sample_hasPages : HasPages (bootPmm sampleMap) 4 := by
  simp only [HasPages, and_true]
  decide +kernel

/-- A command that is under way fails the next call. -/
theorem stale_fails {q : QueueState} {old : Sqe} (hio : s.io = none)
    (hadmin : s.admin = some ⟨q, [old], []⟩) (hold : old.cid < 2 ^ 16) (hne : old.cid ≠ q.nextCid)
    (hfirst : env.first = [none, none]) (nsid : Nat) : (ensureIoQueue env nsid s).1 ≠ .ok () := by
  have hadminRun : ∀ f : Unit → Command Setup NvmeInitError Unit,
      (ensureAdminQueue env >>= f) s = f () s := by
    intro f
    have heq : ensureAdminQueue env s = (.ok (), s) := by
      unfold ensureAdminQueue
      rw [hadmin]
    rw [Command.bind_apply, heq]
  unfold ensureIoQueue
  rw [hio]
  dsimp only
  rw [hadminRun]
  rcases allocPair_cases s (fun sq cq => createQueues env nsid sq cq) with
    ⟨-, m, halloc⟩ | ⟨-, sq, cq, m, -, halloc⟩
  · rw [halloc]
    simp
  · have hstale := submit_stale (s := { s with mem := m }) hadmin hold hne
      (buildCreateIoCqCmd (nextCid { s with mem := m }) ioQid (ioQueueDepth - 1) cq)
    rw [halloc]
    unfold createQueues
    rw [Command.gets_bind, Command.bind_apply, hfirst, Command.eq_of_fst hstale]
    simp

/-- A completion left over from before makes a call fail, so that it cannot be tried
again. -/
theorem stale_not_retryable {q : QueueState} {old : Sqe} (hio : s.io = none)
    (hadmin : s.admin = some ⟨q, [old], []⟩) (hold : old.cid < 2 ^ 16)
    (hne : old.cid ≠ q.nextCid) : ¬ Retryable s := by
  intro hretry
  have hhealthy : Healthy ⟨none, none, [none, none], [none, none]⟩ s := by
    refine ⟨rfl, rfl, by simp, by simp, ?_⟩
    simp [waiting, hadmin]
  have hok := hretry _ 1 ⟨bootPmm sampleMap, fun _ => 0, Trace.empty⟩ hhealthy sample_hasPages
  have hio' : ({ s with mem := ⟨bootPmm sampleMap, fun _ => 0, Trace.empty⟩ } : Setup).io = none :=
    hio
  exact stale_fails hio' hadmin hold hne rfl 1 hok

/-- A first command that is not executed in time stays under way. -/
theorem createQueues_timeout {a : Admin} (hadmin : s.admin = some a) (hcalm : Calm a)
    (nsid sq cq : Nat) (hfirst : env.first = []) :
    ∃ s' q old, createQueues env nsid sq cq s = (.err .commandTimeout, s') ∧ s'.io = s.io ∧
      s'.admin = some ⟨q, [old], []⟩ ∧ old.cid < 2 ^ 16 ∧ old.cid ≠ q.nextCid := by
  have hcid : s.nextCid = a.queue.nextCid := by
    rw [nextCid, hadmin]
    rfl
  have hlt := hcalm.2.2
  have htimeout := submit_timeout hadmin hcalm
    (buildCreateIoCqCmd s.nextCid ioQid (ioQueueDepth - 1) cq)
  refine ⟨{ s with admin := some ⟨a.queue.advance (.error .commandTimeout),
    [buildCreateIoCqCmd s.nextCid ioQid (ioQueueDepth - 1) cq], []⟩ }, _, _, ?_, rfl, rfl, ?_, ?_⟩
  · unfold createQueues
    rw [Command.gets_bind, Command.bind_apply, hfirst, htimeout]
  · change s.nextCid < 2 ^ 16
    omega
  · change s.nextCid ≠ (a.queue.advance (.error .commandTimeout)).nextCid
    rw [nextCid_advance]
    omega

/-- The calls whose commands are answered. -/
theorem answered_cases (hclean : Clean s) (h : Answered env s) (nsid : Nat) :
    (∃ e s', ensureIoQueue env nsid s = (.err e, s') ∧ s'.io = none ∧ Clean s') ∨
      ∃ s', ensureIoQueue env nsid s = (.ok (), s') ∧ s'.io.isSome := by
  cases hio : s.io with
  | some q =>
      refine Or.inr ⟨s, ?_, Option.isSome_of_eq_some hio⟩
      unfold ensureIoQueue
      rw [hio]
  | none =>
      rcases @ensureIoQueue_cases s env nsid hio hclean with
        ⟨-, e, s', heq, hio', hclean'⟩ | ⟨hsends, sq, cq, t, a, heq, hio', hpair, hadmin, hcalm⟩
      · exact Or.inl ⟨e, s', heq, hio', hclean'⟩
      · rw [heq]
        rcases h hsends with ⟨fault, hfault⟩ | ⟨hfirst, hsecond⟩
        · obtain ⟨_, hscript⟩ := List.head?_eq_some_iff.mp hfault
          obtain ⟨e, s', hrun, hdone⟩ := createQueues_faulted hadmin hcalm nsid sq cq hscript
          refine Or.inl ⟨e, s', hrun, hdone.io.trans hio', fun _ => ⟨?_, ?_⟩⟩
          · rw [NoPair, hdone.ids]
            exact hpair
          · intro b hb
            obtain ⟨b', hb', hcalm'⟩ := hdone.calm
            exact Option.some.inj (hb'.symm.trans hb) ▸ hcalm'
        · obtain ⟨_, hscript⟩ := List.head?_eq_some_iff.mp hfirst
          obtain ⟨_, hscript'⟩ := List.head?_eq_some_iff.mp hsecond
          exact Or.inr (createQueues_ok hadmin hcalm hpair nsid sq cq hscript hscript')

/-- The other calls end in a state that cannot be repaired. -/
theorem unanswered_fails (hclean : Clean s) (h : ¬ Answered env s) (nsid : Nat) :
    ∃ e s', ensureIoQueue env nsid s = (.err e, s') ∧ ¬ (NoPair s' ∧ Retryable s') := by
  unfold Answered at h
  push Not at h
  obtain ⟨hsends, hfault, hboth⟩ := h
  rcases @ensureIoQueue_cases s env nsid hsends.1 hclean with
    ⟨hnot, -⟩ | ⟨-, sq, cq, t, a, heq, hio', hpair, hadmin, hcalm⟩
  · exact absurd hsends hnot
  · rw [heq]
    cases hscript : env.first with
    | nil =>
        obtain ⟨s', q, old, hrun, hio'', hadmin', hold, hne⟩ :=
          createQueues_timeout hadmin hcalm nsid sq cq hscript
        refine ⟨_, s', hrun, fun hgood => ?_⟩
        exact stale_not_retryable (hio''.trans hio') hadmin' hold hne hgood.2
    | cons f rest =>
        cases f with
        | some fault => exact absurd (by rw [hscript]; rfl) (hfault fault)
        | none =>
            obtain ⟨e, s', hrun, hcq⟩ := createQueues_half hadmin hcalm hpair nsid sq cq hscript
              (hboth (by rw [hscript]; rfl))
            exact ⟨e, s', hrun, fun hgood => hgood.1.1 hcq⟩

end Setup

end

/-- Calls of `ensure_io_queue`, from power on. -/
def setupSystem : TransitionSystem Setup (Env × Nat) where
  boot := fun s => s.admin = none ∧ s.io = none ∧ s.ids = ⟨[], []⟩
  next := fun s e => some (Setup.ensureIoQueue e.1 e.2 s).2

/-- **Every run** in which all commands are answered keeps the set-up clean. -/
theorem run_clean {s : Setup} (h : setupSystem.Run (fun s e => Setup.Answered e.1 s) s) :
    Setup.Clean s := by
  refine h.invariant (fun s hboot _ => ?_) (fun s e t hs hok hnext => ?_)
  · obtain ⟨hadmin, -, hids⟩ := hboot
    refine ⟨?_, fun a ha => ?_⟩
    · simp [Setup.NoPair, hids]
    · exact absurd (ha.symm.trans hadmin) (by simp)
  · obtain rfl := Option.some.inj hnext
    rcases Setup.answered_cases hs hok e.2 with ⟨err, s', heq, -, hclean⟩ | ⟨s', heq, hsome⟩
    · rw [heq]
      exact hclean
    · rw [heq]
      intro hnone
      change s'.io = none at hnone
      rw [hnone] at hsome
      cases hsome

/-- **Which failures can be repeated.**  After any calls whose commands were
answered: a call that fails leaves no queue of the pair behind, and a later one
succeeds as soon as the controller is healthy, exactly when its own commands are
answered. -/
theorem io_queue_retry_iff {s : Setup}
    (hrun : setupSystem.Run (fun s e => Setup.Answered e.1 s) s) (env : Env) (nsid : Nat) :
    (∀ e s', Setup.ensureIoQueue env nsid s = (.err e, s') →
      Setup.NoPair s' ∧ Setup.Retryable s') ↔ Setup.Answered env s := by
  constructor
  · intro h
    by_contra hnot
    obtain ⟨e, s', heq, hbad⟩ := Setup.unanswered_fails (run_clean hrun) hnot nsid
    exact hbad (h e s' heq)
  · intro hanswered e s' heq
    rcases Setup.answered_cases (run_clean hrun) hanswered nsid with
      ⟨e', t, hfail, hio, hclean⟩ | ⟨t, hok, -⟩
    · obtain ⟨-, rfl⟩ := Prod.mk.inj (hfail.symm.trans heq)
      exact ⟨(hclean hio).1, hclean.retryable⟩
    · cases (Prod.mk.inj (hok.symm.trans heq)).1

/-- At power on, with eight pages of memory. -/
def sampleSetup : Setup := ⟨⟨bootPmm sampleMap, fun _ => 0, Trace.empty⟩, none, none, ⟨[], []⟩⟩

/-- A run that leaves the sample set-up. -/
theorem sampleSetup_run :
    setupSystem.Run (fun s e => Setup.Answered e.1 s) sampleSetup :=
  .boot ⟨rfl, rfl, rfl⟩

/-- From there the commands are sent. -/
private theorem sampleSetup_sends {env : Env} (hearly : env.early = none)
    (hlate : env.late = none) :
    Setup.Sends env sampleSetup :=
  ⟨rfl, fun _ => ⟨hearly, hlate⟩, Setup.sample_hasPages⟩

/-- An invalid field in the command. -/
def Fault.invalidField : Fault := ⟨⟨0, 2⟩, by decide⟩

/-- The controller rejects the first command of the first call. -/
theorem sample_io_queue_retry : ∃ s',
    Setup.ensureIoQueue ⟨none, none, [some Fault.invalidField], []⟩ 1 sampleSetup =
      (.err (.commandFailed 0 2), s') ∧ Setup.NoPair s' ∧ Setup.Retryable s' := by
  have hfail : (Setup.ensureIoQueue ⟨none, none, [some Fault.invalidField], []⟩ 1
      sampleSetup).1 = .err (.commandFailed 0 2) := by decide +kernel
  obtain ⟨s', heq⟩ := Command.exists_of_fst hfail
  refine ⟨s', heq, ?_⟩
  exact (io_queue_retry_iff sampleSetup_run _ 1).mpr (fun _ => Or.inl ⟨_, rfl⟩) _ _ heq

/-- The controller creates the completion queue and rejects the second command. -/
theorem half_pair_left : ¬ ∀ s, setupSystem.Run (fun _ _ => True) s → ∀ env nsid e s',
    Setup.ensureIoQueue env nsid s = (.err e, s') → Setup.NoPair s' ∧ Setup.Retryable s' := by
  intro h
  have hclean := run_clean sampleSetup_run
  have hnot : ¬ Setup.Answered ⟨none, none, [none], [some Fault.invalidField]⟩ sampleSetup := by
    intro hanswered
    rcases hanswered (sampleSetup_sends rfl rfl) with ⟨fault, hfault⟩ | ⟨-, hsecond⟩
    · cases hfault
    · cases hsecond
  obtain ⟨e, s', heq, hbad⟩ := Setup.unanswered_fails hclean hnot 1
  exact hbad (h sampleSetup (.boot ⟨rfl, rfl, rfl⟩) _ 1 e s' heq)

end Nvme
