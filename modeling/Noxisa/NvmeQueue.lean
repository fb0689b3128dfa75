import Noxisa.PhaseRing
import Noxisa.TransitionSystem

/-!
# An NVMe queue pair

The model of `submit_io_and_wait` and `submit_admin_and_wait` of
`drivers/nvme.rs`, which differ in their timeouts only, together with a
controller that fetches the submission entries in order and posts one completion
for each, in order and with the phase tag of the lap.

The driver polls: it reads the completion entry at `cq_head`, and if the phase
does not match reads the clock and tries again.  The controller may take its
steps in between.  What has been submitted, posted, and returned is kept as a
history, which the code does not have.

`Coherent` relates the indices and both rings to that history; `poll_eq` says
what it means for the driver's look at the ring.
-/

namespace Nvme

open PhaseRing

/-- `NvmeInitError` -/
inductive NvmeInitError
  | pageSizeUnsupported
  | queueDepthUnsupported
  | allocFailed
  | disableTimeout
  | enableTimeout
  | controllerFatalStatus
  | noController
  | barNotMmio
  | commandTimeout
  | unexpectedCid
  | commandFailed (sct sc : Nat)
  | invalidTransferSize
deriving DecidableEq

/-- The fields of a submission entry that the driver sets. -/
structure Sqe where
  opcode : Nat
  cid : Nat
  nsid : Nat
  prp1 : Nat
  cdw10 : Nat
  cdw11 : Nat
  cdw12 : Nat
deriving DecidableEq

/-- The words of a completion entry that the driver reads. -/
structure Cqe where
  dw0 : Nat
  dw3 : Nat
deriving DecidableEq

namespace Cqe

/-- The phase bit of a completion. -/
def phaseBit (e : Cqe) : Bool := decide ((e.dw3 >>> 16) &&& 0x1 ≠ 0)
def cid (e : Cqe) : Nat := e.dw3 &&& 0xFFFF
def sc (e : Cqe) : Nat := (e.dw3 >>> 17) &&& 0xFF
def sct (e : Cqe) : Nat := (e.dw3 >>> 25) &&& 0x7

end Cqe

/-- What the driver makes of the entry it consumes. -/
def finish (cid : Nat) (e : Cqe) : Except NvmeInitError Nat :=
  if e.cid ≠ cid then .error .unexpectedCid
  else if e.sc ≠ 0 ∨ e.sct ≠ 0 then .error (.commandFailed e.sct e.sc)
  else .ok e.dw0

/-- `AdminQueueState` and `IoQueueState`, less the addresses. -/
structure QueueState where
  sqTail : Nat
  cqHead : Nat
  phase : Bool
  depth : Nat
  nextCid : Nat
deriving DecidableEq

/-- `QueueState::new` -/
def QueueState.new (depth : Nat) : QueueState :=
  { sqTail := 0, cqHead := 0, phase := true, depth := depth, nextCid := 0 }

/-- The timeout that CAP.TO asks for. -/
def timeoutMs (cap : Nat) : Nat := max (((cap >>> 24) &&& 0xFF) * 500) 500

/-- Where the driver is: between calls, before a look at the completion queue,
or before it reads the clock. -/
inductive Pc
  | idle
  | polling (cid deadline : Nat)
  | looked (cid deadline : Nat)
deriving DecidableEq

/-- A call that has returned: how many completions had been posted when it
began, the entry it has consumed, and its result. -/
structure Call where
  posted : Nat
  entry : Option Cqe
  reply : Except NvmeInitError Nat
deriving DecidableEq

/-- The driver's side of a queue pair, the rings in memory, and the controller's side.
-/
structure Link where
  queue : QueueState
  sq : Nat → Sqe
  cq : Nat → Cqe
  timeout : Nat
  pc : Pc
  /-- fetched by the controller and not completed -/
  inflight : List Sqe
  submitted : List Sqe
  /-- commands completed, with their completions -/
  posted : List (Sqe × Cqe)
  /-- number of completions consumed, which the doorbell tells the controller -/
  consumed : Nat
  /-- completions posted when the current call began -/
  start : Nat
  calls : List Call

/-- The steps of both sides. -/
inductive Event
  | submit (cmd : Sqe) (now : Nat)
  | fetch
  | post (e : Cqe)
  | poll
  | clock (now : Nat)
deriving DecidableEq

namespace Link

/-- The first half of a call: write the entry and ring the doorbell.  The caller
has built the command with `next_cid`. -/
def submit (l : Link) (cmd : Sqe) (now : Nat) : Option Link :=
  if l.pc = .idle ∧ cmd.cid = l.queue.nextCid then
    some { l with
      queue := { l.queue with
        nextCid := (l.queue.nextCid + 1) % 2 ^ 16
        sqTail := (l.queue.sqTail + 1) % l.queue.depth }
      sq := Function.update l.sq l.queue.sqTail cmd
      pc := .polling cmd.cid (now + l.timeout)
      submitted := l.submitted ++ [cmd]
      start := l.posted.length }
  else none

/-- The controller takes the next entry that has been submitted. -/
def fetch (l : Link) : Option Link :=
  let fetched := l.posted.length + l.inflight.length
  if fetched < l.submitted.length then
    some { l with inflight := l.inflight ++ [l.sq (fetched % l.queue.depth)] }
  else none

/-- The controller completes the oldest command, if there is room. -/
def post (l : Link) (e : Cqe) : Option Link :=
  match l.inflight with
  | [] => none
  | cmd :: rest =>
      if e.cid = cmd.cid ∧ e.phaseBit = lapPhase l.queue.depth l.posted.length ∧
          l.posted.length < l.consumed + l.queue.depth then
        some { l with
          cq := Function.update l.cq (l.posted.length % l.queue.depth) e
          inflight := rest
          posted := l.posted ++ [(cmd, e)] }
      else none

/-- The driver looks at the entry at `cq_head`. -/
def poll (l : Link) : Option Link :=
  match l.pc with
  | .polling cid deadline =>
      let e := l.cq l.queue.cqHead
      if e.phaseBit = l.queue.phase then
        let cqHead := (l.queue.cqHead + 1) % l.queue.depth
        some { l with
          queue := { l.queue with
            cqHead := cqHead
            phase := if cqHead = 0 then !l.queue.phase else l.queue.phase }
          pc := .idle
          consumed := l.consumed + 1
          calls := l.calls ++ [⟨l.start, some e, finish cid e⟩] }
      else some { l with pc := .looked cid deadline }
  | _ => none

/-- The driver reads the clock. -/
def clock (l : Link) (now : Nat) : Option Link :=
  match l.pc with
  | .looked cid deadline =>
      if now ≥ deadline then
        some { l with
          pc := .idle, calls := l.calls ++ [⟨l.start, none, .error .commandTimeout⟩] }
      else some { l with pc := .polling cid deadline }
  | _ => none

/-- One step. -/
def next (l : Link) : Event → Option Link
  | .submit cmd now => l.submit cmd now
  | .fetch => l.fetch
  | .post e => l.post e
  | .poll => l.poll
  | .clock now => l.clock now

end Link

/-- A queue pair with zeroed memory, before the first call. -/
def Link.new (depth timeout : Nat) : Link where
  queue := .new depth
  sq := fun _ => ⟨0, 0, 0, 0, 0, 0, 0⟩
  cq := fun _ => ⟨0, 0⟩
  timeout := timeout
  pc := .idle
  inflight := []
  submitted := []
  posted := []
  consumed := 0
  start := 0
  calls := []

/-- Calls one after another, and a controller that conforms, for a queue of any
depth that fits a `u16`. -/
def nvmeSystem : TransitionSystem Link Event where
  boot := fun l => ∃ depth timeout, 0 < depth ∧ depth < 2 ^ 16 ∧ l = Link.new depth timeout
  next := Link.next

/-- `ensure_admin_queue` and `submit_admin_and_wait`. -/
def adminLink (cap : Nat) : Link := Link.new 64 (timeoutMs cap)

/-- `ensure_io_queue` and `submit_io_and_wait` with `io_timeout_ms()`. -/
def ioLink (cap : Nat) : Link := Link.new 16 (timeoutMs cap)

/-- The call has consumed a completion, whatever it was. -/
def Call.answered (r : Call) : Bool := r.entry.isSome

/-- Calls that have consumed a completion. -/
def answers (calls : List Call) : Nat := calls.countP Call.answered

/-- What is true of a call after the calls `before`: it timed out, or it consumed
the oldest completion that these had left. -/
def CallRight (posted : List (Sqe × Cqe)) (depth : Nat) (before : List Call) (r : Call) : Prop :=
  r.posted ≤ answers before + depth ∧
  (r.entry = none ∧ r.reply = .error .commandTimeout ∨
    ∃ p, posted[answers before]? = some p ∧ r.entry = some p.2 ∧
      r.reply = finish (before.length % 2 ^ 16) p.2)

/-- The command of the call in progress is the last one submitted. -/
def Link.Calling (l : Link) : Prop :=
  match l.pc with
  | .idle => l.submitted.length = l.calls.length
  | .polling cid _ | .looked cid _ =>
      l.submitted.length = l.calls.length + 1 ∧ cid = l.calls.length % 2 ^ 16 ∧
        l.start ≤ l.consumed + l.queue.depth

/-- **The two sides agree** about what has been submitted, completed and consumed; the
indices, the phase and the ids are the counts, taken modulo. -/
structure Coherent (l : Link) : Prop where
  depth_pos : 0 < l.queue.depth
  depth_lt : l.queue.depth < 2 ^ 16
  tail : l.queue.sqTail = l.submitted.length % l.queue.depth
  nextCid : l.queue.nextCid = l.submitted.length % 2 ^ 16
  head : l.queue.cqHead = l.consumed % l.queue.depth
  phase : l.queue.phase = lapPhase l.queue.depth l.consumed
  consumed_le : l.consumed ≤ l.posted.length
  room : l.posted.length ≤ l.consumed + l.queue.depth
  fetched : l.posted.map Prod.fst ++ l.inflight <+: l.submitted
  unfetched : l.submitted.length ≤ l.posted.length + l.inflight.length + l.queue.depth
  sq : Recent l.queue.depth l.sq l.submitted
  cq : Holds l.queue.depth Cqe.phaseBit l.cq (l.posted.map Prod.snd)
  cids : ∀ j c, l.submitted[j]? = some c → c.cid = j % 2 ^ 16
  replies : ∀ p ∈ l.posted, p.2.cid = p.1.cid
  calling : l.Calling
  answered : l.consumed = answers l.calls
  calls : ∀ k r, l.calls[k]? = some r → CallRight l.posted l.queue.depth (l.calls.take k) r

/-- The submission queue is not overrun. -/
def Kept (l : Link) : Event → Prop
  | .submit _ _ => l.submitted.length < l.posted.length + l.inflight.length + l.queue.depth
  | _ => True

section

variable {l l' : Link} {cmd : Sqe} {e : Cqe} {now : Nat}

/-- One call more. -/
theorem answers_concat (calls : List Call) (r : Call) :
    answers (calls ++ [r]) = answers calls + if r.entry.isSome then 1 else 0 := by
  rw [answers, List.countP_append, List.countP_singleton]
  rfl

/-- A completion more does not change what is true of a call. -/
theorem CallRight.post {posted : List (Sqe × Cqe)} {depth : Nat} {before : List Call} {r : Call}
    (h : CallRight posted depth before r) (p : Sqe × Cqe) :
    CallRight (posted ++ [p]) depth before r := by
  obtain ⟨hstart, htime | ⟨q, hq, hrest⟩⟩ := h
  · exact ⟨hstart, Or.inl htime⟩
  · have hlt := (List.getElem?_eq_some_iff.mp hq).1
    exact ⟨hstart, Or.inr ⟨q, (List.getElem?_append_left hlt).trans hq, hrest⟩⟩

/-- The calls with one more. -/
theorem calls_concat {posted : List (Sqe × Cqe)} {depth : Nat} {calls : List Call} {r : Call}
    (h : ∀ k x, calls[k]? = some x → CallRight posted depth (calls.take k) x)
    (hr : CallRight posted depth calls r) :
    ∀ k x, (calls ++ [r])[k]? = some x → CallRight posted depth ((calls ++ [r]).take k) x := by
  intro k x hx
  rcases getElem?_concat hx with ⟨hlt, hold⟩ | ⟨rfl, rfl⟩
  · rw [List.take_append_of_le_length hlt.le]
    exact h k x hold
  · rw [List.take_left']
    · exact hr
    · rfl

/-- A new queue. -/
theorem coherent_new {depth timeout : Nat} (hpos : 0 < depth) (hlt : depth < 2 ^ 16) :
    Coherent (Link.new depth timeout) where
  depth_pos := hpos
  depth_lt := hlt
  tail := (Nat.zero_mod depth).symm
  nextCid := rfl
  head := (Nat.zero_mod depth).symm
  phase := (lapPhase_first hpos).symm
  consumed_le := Nat.le_refl _
  room := Nat.zero_le _
  fetched := List.prefix_refl _
  unfetched := Nat.zero_le _
  sq := recent_new
  cq := holds_new (fun _ => (by decide : (⟨0, 0⟩ : Cqe).phaseBit = false))
  cids := fun j c h => by simp [Link.new] at h
  replies := fun p h => by simp [Link.new] at h
  calling := rfl
  answered := rfl
  calls := fun k r h => by simp [Link.new] at h

/-- A command is submitted where there is room for it. -/
theorem Coherent.submit (h : Coherent l)
    (hkept : l.submitted.length < l.posted.length + l.inflight.length + l.queue.depth)
    (hs : l.submit cmd now = some l') : Coherent l' := by
  unfold Link.submit at hs
  split at hs
  next hok =>
    obtain ⟨hidle, hcid⟩ := hok
    obtain rfl := Option.some.inj hs
    have hcalling : l.submitted.length = l.calls.length := by
      have hc := h.calling
      rw [Link.Calling, hidle] at hc
      exact hc
    have hlength : (l.submitted ++ [cmd]).length = l.submitted.length + 1 := by simp
    refine { h with
      tail := ?_, nextCid := ?_, fetched := ?_, unfetched := ?_, sq := ?_, cids := ?_,
      calling := ?_ }
    · dsimp only
      rw [hlength, h.tail, Nat.mod_add_mod]
    · dsimp only
      rw [hlength, h.nextCid, Nat.mod_add_mod]
    · exact h.fetched.trans (List.prefix_append _ _)
    · dsimp only
      omega
    · dsimp only
      rw [h.tail]
      exact h.sq.write cmd
    · intro j c hj
      rcases getElem?_concat hj with ⟨-, hold⟩ | ⟨rfl, rfl⟩
      · exact h.cids j c hold
      · rw [hcid, h.nextCid]
    · refine ⟨?_, ?_, h.room⟩
      · dsimp only
        rw [hlength, hcalling]
      · rw [hcid, h.nextCid, hcalling]
  next => cases hs

/-- The controller fetches the next command. -/
theorem Coherent.fetch (h : Coherent l) (hs : l.fetch = some l') : Coherent l' := by
  unfold Link.fetch at hs
  dsimp only at hs
  split at hs
  next hlt =>
    obtain rfl := Option.some.inj hs
    have hlength : (l.posted.map Prod.fst ++ l.inflight).length =
        l.posted.length + l.inflight.length := by simp
    have hnext := List.getElem?_eq_getElem hlt
    have hslot := h.sq _ _ hnext (by have := h.unfetched; omega)
    refine { h with fetched := ?_, unfetched := ?_ }
    · -- the slot has the first command that has not been fetched
      obtain ⟨rest, hrest⟩ := h.fetched
      dsimp only
      rw [hslot, ← List.append_assoc]
      have hget : l.submitted[l.posted.length + l.inflight.length]? = rest.head? := by
        rw [← hrest, ← hlength, List.getElem?_append_right (Nat.le_refl _), Nat.sub_self,
          List.head?_eq_getElem?]
      rw [hnext] at hget
      obtain ⟨tail, rfl⟩ := List.head?_eq_some_iff.mp hget.symm
      exact ⟨tail, by rw [List.append_assoc, List.singleton_append]; exact hrest⟩
    · have hle := h.unfetched
      simp only [List.length_append, List.length_singleton]
      omega
  next => cases hs

/-- It posts a completion. -/
theorem Coherent.post (h : Coherent l) (hs : l.post e = some l') : Coherent l' := by
  unfold Link.post at hs
  split at hs
  next => cases hs
  next cmd rest hinflight =>
    split at hs
    next hok =>
      obtain ⟨hcid, hphase, hroom⟩ := hok
      obtain rfl := Option.some.inj hs
      have hlength : (l.posted ++ [(cmd, e)]).length = l.posted.length + 1 := by simp
      refine { h with
        consumed_le := ?_, room := ?_, fetched := ?_, unfetched := ?_, cq := ?_, replies := ?_,
        calls := ?_ }
      · have hle := h.consumed_le
        dsimp only
        omega
      · dsimp only
        omega
      · have hold := h.fetched
        rw [hinflight] at hold
        simpa using hold
      · have hle := h.unfetched
        rw [hinflight] at hle
        simp only [List.length_cons] at hle
        dsimp only
        omega
      · dsimp only
        rw [List.map_append, List.map_singleton, ← @List.length_map _ _ l.posted Prod.snd]
        apply h.cq.write
        rw [List.length_map]
        exact hphase
      · intro p hp
        rcases List.mem_append.mp hp with hp | hp
        · exact h.replies p hp
        · obtain rfl := List.mem_singleton.mp hp
          exact hcid
      · exact fun k r hr => (h.calls k r hr).post (cmd, e)
    next => cases hs

/-- **What a look at the ring shows**: the phase matches exactly if a completion
has been posted that was not consumed, and then it is the oldest such. -/
theorem Coherent.look (h : Coherent l) :
    ((l.cq l.queue.cqHead).phaseBit = l.queue.phase ↔ l.consumed < l.posted.length) ∧
      ∀ p, l.posted[l.consumed]? = some p → l.cq l.queue.cqHead = p.2 := by
  have hlength : (l.posted.map Prod.snd).length = l.posted.length := List.length_map _
  constructor
  · rw [h.head, h.phase, ← hlength]
    exact h.cq.fresh_iff h.depth_pos (hlength.symm ▸ h.consumed_le) (hlength.symm ▸ h.room)
  · intro p hp
    rw [h.head]
    apply h.cq.recent
    · rw [List.getElem?_map, hp]
      rfl
    · exact hlength.symm ▸ h.room

/-- The driver looks at the next entry, which is of this lap or not. -/
theorem Coherent.poll (h : Coherent l) (hs : l.poll = some l') : Coherent l' := by
  unfold Link.poll at hs
  split at hs
  next cid deadline hpc =>
    have hcalling := h.calling
    rw [Link.Calling, hpc] at hcalling
    obtain ⟨hsub, hcid, hstart⟩ := hcalling
    dsimp only at hs
    split at hs
    next hphase =>
      obtain rfl := Option.some.inj hs
      obtain ⟨hfresh, hentry⟩ := h.look
      have hlt := hfresh.mp hphase
      obtain ⟨p, hget⟩ : ∃ p, l.posted[l.consumed]? = some p :=
        ⟨_, List.getElem?_eq_getElem hlt⟩
      have hcq := hentry p hget
      refine { h with
        head := ?_, phase := ?_, consumed_le := ?_, room := ?_, calling := ?_, answered := ?_,
        calls := ?_ }
      · dsimp only
        rw [h.head, Nat.mod_add_mod]
      · dsimp only
        rw [h.head, Nat.mod_add_mod, h.phase, lapPhase_succ h.depth_pos]
      · exact hlt
      · have hroom := h.room
        dsimp only
        omega
      · change l.submitted.length = (l.calls ++ [_]).length
        rw [hsub, List.length_append, List.length_singleton]
      · dsimp only
        rw [answers_concat, h.answered]
        rfl
      · apply calls_concat h.calls
        rw [h.answered] at hstart hget
        refine ⟨hstart, Or.inr ⟨p, hget, ?_, ?_⟩⟩
        · exact congrArg some hcq
        · dsimp only
          rw [hcq, hcid]
    next =>
      obtain rfl := Option.some.inj hs
      exact { h with calling := ⟨hsub, hcid, hstart⟩ }
  next => cases hs

/-- The driver looks at the clock. -/
theorem Coherent.clock (h : Coherent l) (hs : l.clock now = some l') : Coherent l' := by
  unfold Link.clock at hs
  split at hs
  next cid deadline hpc =>
    have hcalling := h.calling
    rw [Link.Calling, hpc] at hcalling
    obtain ⟨hsub, hcid, hstart⟩ := hcalling
    split at hs
    next =>
      obtain rfl := Option.some.inj hs
      refine { h with calling := ?_, answered := ?_, calls := ?_ }
      · change l.submitted.length = (l.calls ++ [_]).length
        rw [hsub, List.length_append, List.length_singleton]
      · dsimp only
        rw [answers_concat, h.answered]
        rfl
      · apply calls_concat h.calls
        rw [h.answered] at hstart
        exact ⟨hstart, Or.inl ⟨rfl, rfl⟩⟩
    next =>
      obtain rfl := Option.some.inj hs
      exact { h with calling := ⟨hsub, hcid, hstart⟩ }
  next => cases hs

/-- **Every step keeps the invariant.** -/
theorem Coherent.next {ev : Event} (h : Coherent l) (hkept : Kept l ev)
    (hs : l.next ev = some l') : Coherent l' := by
  cases ev with
  | submit cmd now => exact h.submit hkept hs
  | fetch => exact h.fetch hs
  | post e => exact h.post hs
  | poll => exact h.poll hs
  | clock now => exact h.clock hs

end

end Nvme
