import Noxisa.NvmeQueue

/-!
# Runs of calls on an NVMe queue pair

If every completion arrives before the driver gives up (`InTime`), the calls and
the completions stay in step and each call returns: `calls_in_step`.  After a
call that timed out they never are again, since `cq_head` is left on the
completion that came too late: `late_completion_unexpected`.
-/

namespace Nvme

open PhaseRing

/-- The deadline that the driver is about to check. -/
def Pc.deadline : Pc → Option Nat
  | .looked _ deadline => some deadline
  | _ => none

/-- The driver never finds the clock past its deadline. -/
def InTime (l : Link) : Event → Prop
  | .clock now => ∀ deadline ∈ l.pc.deadline, now < deadline
  | _ => True

instance (l : Link) (ev : Event) : Decidable (InTime l ev) :=
  match ev with
  | .clock now => inferInstanceAs (Decidable (∀ deadline ∈ l.pc.deadline, now < deadline))
  | .submit _ _ | .fetch | .post _ | .poll => inferInstanceAs (Decidable True)

instance (l : Link) (ev : Event) : Decidable (Kept l ev) :=
  match ev with
  | .submit _ _ => inferInstanceAs (Decidable (_ < _))
  | .fetch | .post _ | .poll | .clock _ => inferInstanceAs (Decidable True)

/-- A step in time. -/
def Onward (l l' : Link) : Prop := ∃ ev, InTime l ev ∧ l.next ev = some l'

/-- The driver and the controller in step: every call has consumed the
completion of its own command, and between calls the indices, the phase and the
command id are those of the number of calls. A call whose completion has been
posted returns with it at the next look, one that looked too early looks again,
and between calls any command can be sent and completed. -/
structure InStep (l : Link) : Prop where
  own : ∀ (k : Nat) (r : Call), l.calls[k]? = some r → ∃ cmd e, l.submitted[k]? = some cmd ∧
    l.posted[k]? = some (cmd, e) ∧ r.entry = some e ∧ r.reply = finish cmd.cid e ∧
    r.reply ≠ .error .unexpectedCid
  indices : l.pc = .idle → l.queue.sqTail = l.calls.length % l.queue.depth ∧
    l.queue.cqHead = l.calls.length % l.queue.depth ∧
    l.queue.phase = decide (l.calls.length / l.queue.depth % 2 = 0) ∧
    l.queue.nextCid = l.calls.length % 2 ^ 16
  returns : ∀ cid deadline cmd e, l.pc = .polling cid deadline →
    l.posted[l.calls.length]? = some (cmd, e) → ∃ l', l.poll = some l' ∧ l'.pc = .idle ∧
      l'.calls = l.calls ++ [⟨l.start, some e, finish cmd.cid e⟩]
  again : ∀ cid deadline now, l.pc = .looked cid deadline → now < deadline →
    l.clock now = some { l with pc := .polling cid deadline }
  serves : ∀ cmd e, l.pc = .idle → cmd.cid = l.queue.nextCid → e.cid = cmd.cid →
    e.phaseBit = l.queue.phase → ∃ l', Relation.ReflTransGen Onward l l' ∧ l'.pc = .idle ∧
      l'.submitted = l.submitted ++ [cmd] ∧ l'.posted = l.posted ++ [(cmd, e)] ∧
      l'.calls = l.calls ++ [⟨l.posted.length, some e, finish cmd.cid e⟩]

section

variable {l l' : Link} {cid k now : Nat} {e : Cqe} {r r' : Call}

/-- A call that finds its own completion does not return `UnexpectedCid`. -/
theorem finish_own (h : e.cid = cid) : finish cid e ≠ .error .unexpectedCid := by
  unfold finish
  simp only [h, ne_eq, not_true_eq_false, if_false]
  split <;> simp

/-- A call that finds another's does. -/
theorem finish_other (h : e.cid ≠ cid) : finish cid e = .error .unexpectedCid := if_pos h

/-- A call that finds a completion has not timed out. -/
theorem finish_not_timeout (cid : Nat) (e : Cqe) : finish cid e ≠ .error .commandTimeout := by
  unfold finish
  split
  · simp
  · split <;> simp

/-- A completion is that of the command with the same number. -/
theorem Coherent.completed (h : Coherent l) {p : Sqe × Cqe} (hp : l.posted[k]? = some p) :
    l.submitted[k]? = some p.1 ∧ p.2.cid = k % 2 ^ 16 := by
  have hsub : l.submitted[k]? = some p.1 := by
    obtain ⟨rest, hrest⟩ := h.fetched
    have hlt := (List.getElem?_eq_some_iff.mp hp).1
    have hmap : (l.posted.map Prod.fst)[k]? = some p.1 := by
      rw [List.getElem?_map, hp]
      rfl
    rw [← hrest, List.append_assoc, List.getElem?_append_left (by rwa [List.length_map])]
    exact hmap
  have hreply := h.replies p (List.mem_of_getElem? hp)
  exact ⟨hsub, hreply.trans (h.cids k _ hsub)⟩

/-- At most all calls were answered. -/
private theorem answers_le (calls : List Call) :
    answers calls ≤ calls.length := List.countP_le_length

/-- If all calls were answered, so were the first of them. -/
private theorem answers_take {calls : List Call} (h : answers calls = calls.length)
    (hk : k ≤ calls.length) : answers (calls.take k) = k := by
  have hall := List.countP_eq_length.mp h
  have htake : answers (calls.take k) = (calls.take k).length :=
    List.countP_eq_length.mpr (fun r hr => hall r (List.mem_of_mem_take hr))
  rw [htake, List.length_take, Nat.min_eq_left hk]

/-- Between calls everything has been completed and consumed. -/
theorem Coherent.settled (h : Coherent l) (hall : answers l.calls = l.calls.length)
    (hidle : l.pc = .idle) :
    l.submitted.length = l.calls.length ∧ l.consumed = l.calls.length ∧
      l.posted.length = l.submitted.length := by
  have hcalling := h.calling
  rw [Link.Calling, hidle] at hcalling
  have hconsumed := h.answered
  have hposted := h.consumed_le
  have hfetched := h.fetched.length_le
  simp only [List.length_append, List.length_map] at hfetched
  dsimp only at hcalling
  omega

/-- A step in time answers every call. -/
theorem next_answered {ev : Event} (hok : InTime l ev) (hs : l.next ev = some l')
    (hall : answers l.calls = l.calls.length) : answers l'.calls = l'.calls.length := by
  cases ev with
  | submit cmd now =>
      simp only [Link.next, Link.submit] at hs
      split at hs
      next => exact Option.some.inj hs ▸ hall
      next => cases hs
  | fetch =>
      simp only [Link.next, Link.fetch] at hs
      split at hs
      next => exact Option.some.inj hs ▸ hall
      next => cases hs
  | post e =>
      simp only [Link.next, Link.post] at hs
      split at hs
      next => cases hs
      next =>
        split at hs
        next => exact Option.some.inj hs ▸ hall
        next => cases hs
  | poll =>
      simp only [Link.next, Link.poll] at hs
      split at hs
      next =>
        split at hs
        next =>
          obtain rfl := Option.some.inj hs
          dsimp only
          rw [answers_concat, hall, List.length_append, List.length_singleton]
          rfl
        next => exact Option.some.inj hs ▸ hall
      next => cases hs
  | clock now =>
      simp only [Link.next, Link.clock] at hs
      split at hs
      next cid deadline hpc =>
        split at hs
        next hlate =>
          have hlt := hok deadline (by rw [hpc]; rfl)
          exact absurd hlt (Nat.not_lt_of_le hlate)
        next => exact Option.some.inj hs ▸ hall
      next => cases hs

/-- What holds along a run in which every completion comes in time. -/
structure Prompt (l : Link) : Prop where
  coherent : Coherent l
  all : answers l.calls = l.calls.length

/-- In time the submission queue is never overrun. -/
theorem Prompt.kept (h : Prompt l) {ev : Event} (hs : l.next ev = some l') : Kept l ev := by
  cases ev with
  | submit cmd now =>
      have hidle : l.pc = .idle := by
        simp only [Link.next, Link.submit] at hs
        split at hs
        next hok => exact hok.1
        next => cases hs
      obtain ⟨-, -, hposted⟩ := h.coherent.settled h.all hidle
      have hpos := h.coherent.depth_pos
      dsimp only [Kept]
      omega
  | fetch => trivial
  | post e => trivial
  | poll => trivial
  | clock now => trivial

/-- A step in time keeps driver and controller together. -/
theorem Prompt.next (h : Prompt l) (ev : Event) (hok : InTime l ev)
    (hs : l.next ev = some l') : Prompt l' :=
  ⟨h.coherent.next (h.kept hs) hs, next_answered hok hs h.all⟩

/-- Driver and controller stay together in every run in time. -/
theorem prompt_of_run (h : nvmeSystem.Run InTime l) : Prompt l := by
  refine TransitionSystem.Run.invariant (fun l hboot => ?_)
    (fun l ev l' hl hok hs => hl.next ev hok hs) h
  obtain ⟨depth, timeout, hpos, hlt, rfl⟩ := hboot
  exact ⟨coherent_new hpos hlt, rfl⟩

/-- Calls that have returned consumed their own completions. -/
theorem Prompt.own (h : Prompt l) (hr : l.calls[k]? = some r) :
    ∃ cmd e, l.submitted[k]? = some cmd ∧ l.posted[k]? = some (cmd, e) ∧ r.entry = some e ∧
      r.reply = finish cmd.cid e ∧ r.reply ≠ .error .unexpectedCid := by
  obtain ⟨hc, hall⟩ := h
  have hk := (List.getElem?_eq_some_iff.mp hr).1
  obtain ⟨-, hright⟩ := hc.calls k r hr
  rw [answers_take hall hk.le, List.length_take, Nat.min_eq_left hk.le] at hright
  rcases hright with ⟨hnone, -⟩ | ⟨p, hp, hentry, hreply⟩
  · have hanswered := List.countP_eq_length.mp hall r (List.mem_of_getElem? hr)
    rw [Call.answered, hnone] at hanswered
    cases hanswered
  · obtain ⟨hsub, hcid⟩ := hc.completed hp
    have hown := hc.cids k p.1 hsub
    rw [← hown] at hreply hcid
    exact ⟨p.1, p.2, hsub, hp, hentry, hreply, hreply ▸ finish_own hcid⟩

/-- **Progress.** The next look at the ring after the completion was posted ends the
call, with that completion. -/
theorem Prompt.returns (h : Prompt l) {deadline : Nat} {cmd : Sqe}
    (hpc : l.pc = .polling cid deadline) (hp : l.posted[l.calls.length]? = some (cmd, e)) :
    ∃ l', l.poll = some l' ∧ l'.pc = .idle ∧ l'.submitted = l.submitted ∧
      l'.posted = l.posted ∧ l'.calls = l.calls ++ [⟨l.start, some e, finish cmd.cid e⟩] := by
  obtain ⟨hc, hall⟩ := h
  have hconsumed : l.consumed = l.calls.length := hc.answered.trans hall
  obtain ⟨hfresh, hentry⟩ := hc.look
  have hlt : l.consumed < l.posted.length :=
    hconsumed ▸ (List.getElem?_eq_some_iff.mp hp).1
  have hcq : l.cq l.queue.cqHead = e := hentry (cmd, e) (hconsumed ▸ hp)
  have hphase : e.phaseBit = l.queue.phase := hcq ▸ hfresh.mpr hlt
  have hcid : cid = cmd.cid := by
    have hcalling := hc.calling
    rw [Link.Calling, hpc] at hcalling
    rw [hcalling.2.1, hc.cids _ cmd (hc.completed hp).1]
  unfold Link.poll
  rw [hpc]
  dsimp only
  rw [hcq, if_pos hphase, hcid]
  exact ⟨_, rfl, rfl, rfl, rfl, rfl⟩

/-- A driver that looked too early looks again. -/
private theorem looks_again {deadline : Nat} (hpc : l.pc = .looked cid deadline)
    (hnow : now < deadline) :
    l.clock now = some { l with pc := .polling cid deadline } := by
  unfold Link.clock
  rw [hpc]
  exact if_neg (Nat.not_le_of_lt hnow)

/-- **One more call**: the driver sends any command, the controller completes it in any
way, and the driver consumes the completion. -/
theorem Prompt.serves (h : Prompt l) (cmd : Sqe) (hidle : l.pc = .idle)
    (hcmd : cmd.cid = l.queue.nextCid) (hcid : e.cid = cmd.cid)
    (hphase : e.phaseBit = l.queue.phase) :
    ∃ l', Relation.ReflTransGen Onward l l' ∧ l'.pc = .idle ∧
      l'.submitted = l.submitted ++ [cmd] ∧ l'.posted = l.posted ++ [(cmd, e)] ∧
      l'.calls = l.calls ++ [⟨l.posted.length, some e, finish cmd.cid e⟩] := by
  obtain ⟨hsub, hconsumed, hposted⟩ := h.coherent.settled h.all hidle
  have hdepth := h.coherent.depth_pos
  -- the command is in its slot
  obtain ⟨l₁, hl₁, hpc₁, hsub₁, hposted₁, hflight₁, hcalls₁, hstart₁⟩ : ∃ l₁,
      l.submit cmd 0 = some l₁ ∧ l₁.pc = .polling cmd.cid (0 + l.timeout) ∧
      l₁.submitted = l.submitted ++ [cmd] ∧ l₁.posted = l.posted ∧ l₁.inflight = l.inflight ∧
      l₁.calls = l.calls ∧ l₁.start = l.posted.length := by
    unfold Link.submit
    rw [if_pos ⟨hidle, hcmd⟩]
    exact ⟨_, rfl, rfl, rfl, rfl, rfl, rfl, rfl⟩
  have h₁ : Prompt l₁ := h.next (.submit cmd 0) trivial hl₁
  have hnone : l.inflight = [] := by
    have hle := h.coherent.fetched.length_le
    simp only [List.length_append, List.length_map] at hle
    exact List.eq_nil_of_length_eq_zero (by omega)
  -- the controller fetches it
  obtain ⟨l₂, cmd₂, hl₂, hpc₂, hsub₂, hposted₂, hflight₂, hcalls₂, hstart₂⟩ : ∃ l₂ cmd₂,
      l₁.fetch = some l₂ ∧ l₂.pc = l₁.pc ∧ l₂.submitted = l₁.submitted ∧
      l₂.posted = l₁.posted ∧ l₂.inflight = [cmd₂] ∧ l₂.calls = l₁.calls ∧
      l₂.start = l₁.start := by
    unfold Link.fetch
    dsimp only
    rw [if_pos (by rw [hposted₁, hflight₁, hnone, hsub₁, hposted]; simp), hflight₁, hnone]
    exact ⟨_, _, rfl, rfl, rfl, rfl, rfl, rfl, rfl⟩
  have h₂ : Prompt l₂ := h₁.next .fetch trivial hl₂
  have hcmd₂ : cmd₂ = cmd := by
    obtain ⟨rest, hrest⟩ := h₂.coherent.fetched
    have hget := congrArg (·[l.submitted.length]?) hrest
    rw [hsub₂, hsub₁, hposted₂, hposted₁, hflight₂] at hget
    simpa [hposted] using hget
  -- and completes it
  obtain ⟨l₃, hl₃, hpc₃, hsub₃, hposted₃, hcalls₃, hstart₃⟩ : ∃ l₃, l₂.post e = some l₃ ∧
      l₃.pc = l₂.pc ∧ l₃.submitted = l₂.submitted ∧ l₃.posted = l₂.posted ++ [(cmd, e)] ∧
      l₃.calls = l₂.calls ∧ l₃.start = l₂.start := by
    have hconsumed₂ : l₂.consumed = l₂.calls.length := h₂.coherent.answered.trans h₂.all
    have hlap : e.phaseBit = lapPhase l₂.queue.depth l₂.posted.length := by
      have hdepth₂ : l₂.queue.depth = l.queue.depth := by
        have hfetch : l₂.queue = l₁.queue := by
          unfold Link.fetch at hl₂
          dsimp only at hl₂
          split at hl₂
          · exact (Option.some.inj hl₂) ▸ rfl
          · cases hl₂
        have hsubmit : l₁.queue.depth = l.queue.depth := by
          unfold Link.submit at hl₁
          rw [if_pos ⟨hidle, hcmd⟩] at hl₁
          exact (Option.some.inj hl₁) ▸ rfl
        rw [hfetch, hsubmit]
      rw [hphase, h.coherent.phase, hdepth₂, hposted₂, hposted₁, hposted, hsub, hconsumed]
    have hroom : l₂.posted.length < l₂.consumed + l₂.queue.depth := by
      have hpos := h₂.coherent.depth_pos
      rw [hconsumed₂, hposted₂, hposted₁, hcalls₂, hcalls₁, hposted, hsub]
      omega
    unfold Link.post
    rw [hflight₂]
    dsimp only
    rw [if_pos ⟨by rw [hcmd₂, hcid], hlap, hroom⟩, hcmd₂]
    exact ⟨_, rfl, rfl, rfl, rfl, rfl, rfl⟩
  have h₃ : Prompt l₃ := h₂.next (.post e) trivial hl₃
  have hpc : l₃.pc = .polling cmd.cid (0 + l.timeout) := hpc₃.trans (hpc₂.trans hpc₁)
  have hposted₃' : l₃.posted = l.posted ++ [(cmd, e)] := by rw [hposted₃, hposted₂, hposted₁]
  have hcalls₃' : l₃.calls = l.calls := hcalls₃.trans (hcalls₂.trans hcalls₁)
  have hget : l₃.posted[l₃.calls.length]? = some (cmd, e) := by
    rw [hposted₃', hcalls₃', ← hsub, ← hposted]
    exact List.getElem?_concat_length ..
  obtain ⟨l₄, hl₄, hpc₄, hsub₄, hposted₄, hcalls₄⟩ := h₃.returns hpc hget
  refine ⟨l₄, ?_, hpc₄, ?_, hposted₄.trans hposted₃', ?_⟩
  · exact Relation.ReflTransGen.refl.tail ⟨.submit cmd 0, trivial, hl₁⟩
      |>.tail ⟨.fetch, trivial, hl₂⟩ |>.tail ⟨.post e, trivial, hl₃⟩
      |>.tail ⟨.poll, trivial, hl₄⟩
  · rw [hsub₄, hsub₃, hsub₂, hsub₁]
  · rw [hcalls₄, hcalls₃', hstart₃, hstart₂, hstart₁]

/-- Steps in time keep what holds along the run. -/
theorem Prompt.onward (h : Prompt l) (hl : Relation.ReflTransGen Onward l l') : Prompt l' := by
  induction hl with
  | refl => exact h
  | tail _ hstep ih =>
      obtain ⟨ev, hok, hs⟩ := hstep
      exact ih.next ev hok hs

/-- There is a completion for every command id and phase. -/
theorem exists_completion {cid : Nat} (hcid : cid < 2 ^ 16) (phase : Bool) :
    ∃ e : Cqe, e.cid = cid ∧ e.phaseBit = phase := by
  refine ⟨⟨0, cid + phase.toNat * 2 ^ 16⟩, ?_, ?_⟩
  · have hmod : (cid + phase.toNat * 2 ^ 16) % 2 ^ 16 = cid := by
      rw [Nat.add_mul_mod_self_right, Nat.mod_eq_of_lt hcid]
    exact (Nat.and_two_pow_sub_one_eq_mod _ 16).trans hmod
  · have hdiv : (cid + phase.toNat * 2 ^ 16) >>> 16 = phase.toNat := by
      rw [Nat.shiftRight_eq_div_pow, Nat.add_mul_div_right _ _ (by decide),
        Nat.div_eq_of_lt hcid, Nat.zero_add]
    unfold Cqe.phaseBit
    rw [hdiv]
    cases phase <;> rfl

/-- Between calls, any number of calls more can be made in time. -/
theorem Prompt.more (h : Prompt l) (hidle : l.pc = .idle) (n : Nat) :
    ∃ l', Relation.ReflTransGen Onward l l' ∧ l'.pc = .idle ∧
      l'.calls.length = l.calls.length + n := by
  induction n with
  | zero => exact ⟨l, Relation.ReflTransGen.refl, hidle, rfl⟩
  | succ n ih =>
      obtain ⟨l', hl', hidle', hcount⟩ := ih
      have h' := h.onward hl'
      have hlt : l'.queue.nextCid < 2 ^ 16 := by
        rw [h'.coherent.nextCid]
        exact Nat.mod_lt _ (by decide)
      obtain ⟨e, hcid, hphase⟩ := exists_completion hlt l'.queue.phase
      obtain ⟨l'', hl'', hidle'', -, -, hcalls⟩ := h'.serves (e := e)
        ⟨0, l'.queue.nextCid, 0, 0, 0, 0, 0⟩ hidle' rfl hcid hphase
      refine ⟨l'', hl'.trans hl'', hidle'', ?_⟩
      rw [hcalls, List.length_append, hcount]
      rfl

/-- **In step.**  Whatever the depth of the queue and the number of calls, if
no call times out, each consumes the completion of its own command as soon as that is
posted; and any number of calls can be made. -/
theorem calls_in_step (h : nvmeSystem.Run InTime l) :
    InStep l ∧ ∀ n, l.pc = .idle → ∃ l', Relation.ReflTransGen Onward l l' ∧ l'.pc = .idle ∧
      l'.calls.length = l.calls.length + n := by
  have hl := prompt_of_run h
  refine ⟨?_, fun n hidle => hl.more hidle n⟩
  exact {
    own := fun k r hr => hl.own hr
    indices := fun hidle => by
      obtain ⟨hsub, hconsumed, -⟩ := hl.coherent.settled hl.all hidle
      rw [← hsub, hl.coherent.tail, hl.coherent.nextCid, hl.coherent.head, hl.coherent.phase,
        hsub, hconsumed]
      exact ⟨rfl, rfl, rfl, rfl⟩
    returns := fun cid deadline cmd e hpc hp => by
      obtain ⟨l', hpoll, hidle, -, -, hcalls⟩ := hl.returns hpc hp
      exact ⟨l', hpoll, hidle, hcalls⟩
    again := fun cid deadline now hpc hnow => looks_again hpc hnow
    serves := fun cmd e hidle hcmd hcid hphase => hl.serves cmd hidle hcmd hcid hphase }

/-- The admin queue and the I/O queue as they are made. -/
theorem queues_boot (cap : Nat) :
    nvmeSystem.boot (adminLink cap) ∧ nvmeSystem.boot (ioLink cap) :=
  ⟨⟨64, timeoutMs cap, by decide, by decide, rfl⟩, ⟨16, timeoutMs cap, by decide, by decide, rfl⟩⟩

/-- The two stay coherent as long as the submission queue is not overrun. -/
theorem kept_coherent (h : nvmeSystem.Run Kept l) : Coherent l := by
  apply TransitionSystem.Run.invariant (I := Coherent) ?_ ?_ h
  · rintro l ⟨depth, timeout, hpos, hlt, rfl⟩
    exact coherent_new hpos hlt
  · exact fun l ev l' hc hok hs => hc.next hok hs

/-- A call that timed out consumed nothing. -/
theorem CallRight.timeout {posted : List (Sqe × Cqe)} {depth : Nat} {before : List Call}
    (h : CallRight posted depth before r) (ht : r.reply = .error .commandTimeout) :
    r.entry = none := by
  rcases h.2 with ⟨hnone, -⟩ | ⟨p, -, -, hreply⟩
  · exact hnone
  · exact absurd (hreply.symm.trans ht) (finish_not_timeout _ _)

/-- **No way back from a timeout.**  If a call timed out and its completion is
there before the next call begins, the next call, unless it times out too,
consumes an older completion and fails; it never returns the result of its own
command. -/
theorem late_completion_unexpected (h : nvmeSystem.Run Kept l) (hr : l.calls[k]? = some r)
    (hr' : l.calls[k + 1]? = some r') (htimeout : r.reply = .error .commandTimeout)
    (hposted : k + 1 ≤ r'.posted) (hintime : r'.reply ≠ .error .commandTimeout) :
    r'.reply = .error .unexpectedCid ∧
      ∀ p, l.posted[k + 1]? = some p → r'.reply ≠ finish p.1.cid p.2 := by
  have hc := kept_coherent h
  have hnone := (hc.calls k r hr).timeout htimeout
  obtain ⟨hstart, hright⟩ := hc.calls (k + 1) r' hr'
  have hk := (List.getElem?_eq_some_iff.mp hr').1
  have hlength : (l.calls.take (k + 1)).length = k + 1 := by
    rw [List.length_take]
    omega
  -- the next call looks for an entry before its own
  have hlag : answers (l.calls.take (k + 1)) ≤ k := by
    have htake : l.calls.take (k + 1) = l.calls.take k ++ [r] := by
      rw [List.take_add_one, hr]
      rfl
    have hle := answers_le (l.calls.take k)
    have hle' : (l.calls.take k).length ≤ k := List.length_take_le _ _
    rw [htake, answers_concat, hnone]
    simp only [Option.isSome_none, Bool.false_eq_true, if_false]
    omega
  rcases hright with ⟨-, hlate⟩ | ⟨p, hp, -, hreply⟩
  · exact absurd hlate hintime
  · obtain ⟨-, hcid⟩ := hc.completed hp
    have hne : p.2.cid ≠ (k + 1) % 2 ^ 16 := by
      have hdepth := hc.depth_lt
      rw [hcid]
      omega
    have hunexpected : r'.reply = .error .unexpectedCid := by
      rw [hreply, hlength]
      exact finish_other hne
    refine ⟨hunexpected, fun q hq => ?_⟩
    obtain ⟨hsub, hown⟩ := hc.completed hq
    have hcmd := hc.cids (k + 1) q.1 hsub
    rw [hunexpected]
    exact (finish_own (hown.trans hcmd.symm)).symm

end

/-- An Identify command with a given id. -/
def sampleCmd (cid : Nat) : Sqe := ⟨0x06, cid, 0, 0x1000, 0x01, 0, 0⟩

/-- Three calls on a queue of two slots, so that the ring starts again. -/
def promptEvents : List Event :=
  [.submit (sampleCmd 0) 0, .fetch, .post ⟨7, 0x10000⟩, .poll,
    .submit (sampleCmd 1) 10, .poll, .clock 20, .fetch, .post ⟨8, 0x10001⟩, .poll,
    .submit (sampleCmd 2) 30, .fetch, .post ⟨9, 2⟩, .poll]

/-- A fourth call, up to its completion. -/
def fourthEvents : List Event := [.submit (sampleCmd 3) 40, .fetch, .post ⟨6, 3⟩]

/-- Three calls are made and return, and the fourth is waiting for a completion that has
been posted: the next look ends it. -/
theorem sample_calls_in_step : ∃ l l', nvmeSystem.execIf InTime (Link.new 2 500)
      (promptEvents ++ fourthEvents) = some l ∧ l.poll = some l' ∧
    l'.calls.map Call.reply = [.ok 7, .ok 8, .ok 9, .ok 6] := by
  have hexec : (nvmeSystem.execIf InTime (Link.new 2 500) (promptEvents ++ fourthEvents)).map
      (fun l => (l.calls.map Call.reply, l.pc, l.posted[l.calls.length]?)) =
        some ([.ok 7, .ok 8, .ok 9], .polling 3 540, some (sampleCmd 3, ⟨6, 3⟩)) := by
    decide +kernel
  obtain ⟨l, hl, hend⟩ := Option.map_eq_some_iff.mp hexec
  have hrun : nvmeSystem.Run InTime l := TransitionSystem.Run.execIf
    (TransitionSystem.Run.boot ⟨2, 500, by decide, by decide, rfl⟩) hl
  obtain ⟨l', hpoll, -, hcalls⟩ := (calls_in_step hrun).1.returns 3 540 (sampleCmd 3) ⟨6, 3⟩
    (congrArg (·.2.1) hend) (congrArg (·.2.2) hend)
  refine ⟨l, l', hl, hpoll, ?_⟩
  have hreplies : l.calls.map Call.reply = [.ok 7, .ok 8, .ok 9] := congrArg (·.1) hend
  have hown : finish (sampleCmd 3).cid ⟨6, 3⟩ = .ok 6 := by decide +kernel
  rw [hcalls, List.map_append, hreplies, List.map_singleton, hown]
  rfl

/-- The completion of the first command comes after the deadline. -/
def lateEvents : List Event :=
  [.submit (sampleCmd 0) 0, .poll, .clock 500, .fetch, .post ⟨7, 0x10000⟩,
    .submit (sampleCmd 1) 600, .fetch, .post ⟨8, 0x10001⟩, .poll]

/-- The two calls on it. -/
def lateCalls : List Call :=
  [⟨0, none, .error .commandTimeout⟩, ⟨1, some ⟨7, 0x10000⟩, .error .unexpectedCid⟩]

/-- The late events run through, with one timeout. -/
theorem lateEvents_exec : ∃ l, nvmeSystem.execIf Kept (Link.new 2 500) lateEvents = some l ∧
    l.calls = lateCalls ∧ l.posted[1]? = some (sampleCmd 1, ⟨8, 0x10001⟩) := by
  have hexec : (nvmeSystem.execIf Kept (Link.new 2 500) lateEvents).map
      (fun l => (l.calls, l.posted[1]?)) =
        some (lateCalls, some (sampleCmd 1, ⟨8, 0x10001⟩)) := by decide +kernel
  obtain ⟨l, hl, hboth⟩ := Option.map_eq_some_iff.mp hexec
  exact ⟨l, hl, congrArg Prod.fst hboth, congrArg Prod.snd hboth⟩

/-- The completion of a timed-out command is taken for that of the next one. -/
theorem sample_late_completion_unexpected : ∃ l, nvmeSystem.Run Kept l ∧
    l.calls[0]? = some ⟨0, none, .error .commandTimeout⟩ ∧
    l.calls[1]? = some ⟨1, some ⟨7, 0x10000⟩, .error .unexpectedCid⟩ ∧
    ∀ p, l.posted[1]? = some p → .error .unexpectedCid ≠ finish p.1.cid p.2 := by
  obtain ⟨l, hl, hcalls, -⟩ := lateEvents_exec
  have hrun : nvmeSystem.Run Kept l := TransitionSystem.Run.execIf
    (TransitionSystem.Run.boot ⟨2, 500, by decide, by decide, rfl⟩) hl
  have hfirst : l.calls[0]? = some ⟨0, none, .error .commandTimeout⟩ := hcalls ▸ rfl
  have hsecond : l.calls[1]? = some ⟨1, some ⟨7, 0x10000⟩, .error .unexpectedCid⟩ := hcalls ▸ rfl
  exact ⟨l, hrun, hfirst, hsecond,
    (late_completion_unexpected hrun hfirst hsecond rfl (by decide) (by simp)).2⟩

/-- **A call that fails for another one's delay.**  The second command completes
in time and with success, and its call returns `UnexpectedCid`. -/
theorem recovery_fails : ∃ l, nvmeSystem.execIf Kept (Link.new 2 500) lateEvents = some l ∧
    (∃ r ∈ l.calls, r.reply = .error .commandTimeout) ∧
    l.posted[1]? = some (sampleCmd 1, ⟨8, 0x10001⟩) ∧ finish 1 ⟨8, 0x10001⟩ = .ok 8 ∧
    (l.calls[1]?).map Call.reply = some (.error .unexpectedCid) := by
  obtain ⟨l, hl, hcalls, hposted⟩ := lateEvents_exec
  refine ⟨l, hl, ⟨⟨0, none, .error .commandTimeout⟩, ?_, rfl⟩, hposted, by decide +kernel, ?_⟩
  · rw [hcalls]
    exact List.mem_cons_self
  · rw [hcalls]
    rfl

end Nvme
