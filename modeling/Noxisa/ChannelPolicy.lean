import Noxisa.Channels

/-!
# Channels are closed by default

What the registry lets through is what the past calls authorise.  `Faithful`
compares the registry with the history: the ids are those handed out so far,
owner and allow-list of a channel are its creator and the uids that its creator
granted access, and its ring holds what was accepted and not yet delivered.

One call concerns at most one channel; for every other one the event is
`Silent`.
-/

namespace Ipc

/-- The event adds nothing to what the history says about channel `id`. -/
structure Event.Silent (e : Event) (h : History) (id : Nat) : Prop where
  creates : ∀ u, ¬ e.Creates id u
  grants : ∀ u, ¬ (e.call = .grant id u ∧ CreatedBy h id e.caller)
  input : e.input id = []
  output : e.output id = []

/-- The channel is what the history makes of it. -/
structure Channel.Agrees (c : Channel) (h : History) : Prop where
  owner : ∀ u, CreatedBy h c.id u ↔ u = c.owner
  allowed : ∀ u, GrantedTo h c.id u ↔ u ∈ c.allowed
  ring : c.ring.Holds (accepted h c.id) (delivered h c.id)

/-- The history does not know channel `id`. -/
structure Unknown (h : History) (id : Nat) : Prop where
  created : ∀ u, ¬ CreatedBy h id u
  granted : ∀ u, ¬ GrantedTo h id u
  accepted : accepted h id = []
  delivered : delivered h id = []

/-- **The registry is what the history makes of it.** -/
structure Faithful (w : World) : Prop where
  nextId : w.reg.nextId = creations w.history + 1
  ids : w.reg.channels.map Channel.id = List.range' 1 (creations w.history)
  agrees : ∀ c ∈ w.reg.channels, c.Agrees w.history
  unknown : ∀ id, id ∉ w.reg.channels.map Channel.id → Unknown w.history id

/-- Every accepted send in the history was authorised when it was made. -/
def SendsAuthorised (h : History) : Prop :=
  ∀ e past, e :: past <:+ h → ∀ id data n,
    e.call = .send id data → e.reply = .sent n → Authorised past id e.caller

/-- What created a channel is the last event or an earlier one. -/
theorem createdBy_cons {e : Event} {h : History} {id u : Nat} :
    CreatedBy (e :: h) id u ↔ e.Creates id u ∨ CreatedBy h id u := by
  simp [CreatedBy]

/-- Only a creation creates. -/
theorem Event.not_creates {e : Event} {id u : Nat} (h : ∀ name, e.call ≠ .createChannel name) :
    ¬ e.Creates id u := by
  intro hc
  obtain ⟨-, name, hcall, -⟩ := hc
  exact h name hcall

/-- A silent event leaves a channel as the history makes it. -/
theorem Event.Silent.agrees {e : Event} {h : History} {c : Channel} (hs : e.Silent h c.id)
    (hc : c.Agrees h) : c.Agrees (e :: h) := by
  refine ⟨fun u => ?_, fun u => ?_, ?_⟩
  · rw [createdBy_cons, ← hc.owner u]
    exact or_iff_right (hs.creates u)
  · rw [GrantedTo, ← hc.allowed u]
    exact or_iff_left (hs.grants u)
  · rw [accepted, delivered, hs.input, hs.output, List.append_nil, List.append_nil]
    exact hc.ring

/-- It leaves an id unknown. -/
theorem Event.Silent.unknown {e : Event} {h : History} {id : Nat} (hs : e.Silent h id)
    (hu : Unknown h id) : Unknown (e :: h) id := by
  refine ⟨fun u => ?_, fun u => ?_, ?_, ?_⟩
  · rw [createdBy_cons, not_or]
    exact ⟨hs.creates u, hu.created u⟩
  · rw [GrantedTo, not_or]
    exact ⟨hu.granted u, hs.grants u⟩
  · rw [Ipc.accepted, hu.accepted, hs.input, List.nil_append]
  · rw [Ipc.delivered, hu.delivered, hs.output, List.nil_append]

/-- Only a creation counts as one. -/
theorem creations_cons {e : Event} {h : History} (he : ∀ name, e.call ≠ .createChannel name) :
    creations (e :: h) = creations h := by
  cases hcall : e.call with
  | createChannel name => exact absurd hcall (he name)
  | grant id uid => simp [creations, hcall]
  | send id data => simp [creations, hcall]
  | recv id len => simp [creations, hcall]

/-- There were not more creations before. -/
theorem creations_le {past h : History} (hsuffix : past <:+ h) : creations past ≤ creations h := by
  obtain ⟨recent, rfl⟩ := hsuffix
  induction recent with
  | nil => exact Nat.le_refl _
  | cons e recent ih =>
      refine ih.trans ?_
      rw [List.cons_append, creations]
      split
      · exact Nat.le_succ _
      · exact Nat.le_refl _

namespace Faithful

variable {w : World}

/-- The ids are different. -/
theorem nodup (h : Faithful w) : (w.reg.channels.map Channel.id).Nodup := by
  rw [h.ids]
  exact List.nodup_range'

/-- A call that changes no channel and tells the history nothing. -/
theorem quiet (h : Faithful w) {e : Event} (hcall : ∀ name, e.call ≠ .createChannel name)
    (hs : ∀ id, e.Silent w.history id) : Faithful ⟨w.reg, e :: w.history⟩ := by
  refine ⟨?_, ?_, fun c hc => ?_, fun id hid => ?_⟩
  · rw [creations_cons hcall]
    exact h.nextId
  · rw [creations_cons hcall]
    exact h.ids
  · exact (hs c.id).agrees (h.agrees c hc)
  · exact (hs id).unknown (h.unknown id hid)

/-- A call that changes one channel, and the history of that channel alone. -/
theorem change (h : Faithful w) {e : Event} {id : Nat} {c : Channel} {f : Channel → Channel}
    (hcall : ∀ name, e.call ≠ .createChannel name) (hfind : w.reg.find id = some c)
    (hid : ∀ c, (f c).id = c.id) (hnew : (f c).Agrees (e :: w.history))
    (hs : ∀ i, i ≠ id → e.Silent w.history i) :
    Faithful ⟨w.reg.update id f, e :: w.history⟩ := by
  obtain ⟨hmem, hcid⟩ := Registry.find_some hfind
  have hids := @updateFirst_ids id _ hid w.reg.channels
  refine ⟨?_, ?_, fun d hd => ?_, fun i hi => ?_⟩
  · rw [creations_cons hcall]
    exact h.nextId
  · rw [creations_cons hcall]
    exact hids.trans h.ids
  · rcases mem_updateFirst h.nodup hmem hcid hd with heq | ⟨hold, hne⟩
    · exact heq ▸ hnew
    · exact (hs d.id hne).agrees (h.agrees d hold)
  · have hi' : i ∉ w.reg.channels.map Channel.id := hids ▸ hi
    refine (hs i (fun heq => hi' ?_)).unknown (h.unknown i hi')
    exact List.mem_map.mpr ⟨c, hmem, hcid.trans heq.symm⟩

/-- A call that leaves the channel it is about as it is. -/
theorem keep (h : Faithful w) {e : Event} {id : Nat} {c : Channel}
    (hcall : ∀ name, e.call ≠ .createChannel name) (hfind : w.reg.find id = some c)
    (hsame : c.Agrees (e :: w.history)) (hs : ∀ i, i ≠ id → e.Silent w.history i) :
    Faithful ⟨w.reg, e :: w.history⟩ := by
  obtain ⟨hmem, rfl⟩ := Registry.find_some hfind
  refine ⟨?_, ?_, fun d hd => ?_, fun i hi => ?_⟩
  · rw [creations_cons hcall]
    exact h.nextId
  · rw [creations_cons hcall]
    exact h.ids
  · by_cases hdid : d.id = c.id
    · exact List.inj_on_of_nodup_map h.nodup hd hmem hdid ▸ hsame
    · exact (hs d.id hdid).agrees (h.agrees d hd)
  · refine (hs i (fun heq => hi ?_)).unknown (h.unknown i hi)
    exact List.mem_map.mpr ⟨c, hmem, heq.symm⟩

/-- A new channel gets the next id, which the history does not know, as long as the ids
last. -/
theorem createChannel (h : Faithful w) (hfew : creations w.history + 1 < 2 ^ 32) (caller : Nat)
    (name : String) :
    Faithful ⟨(Ipc.createChannel caller name w.reg).2,
      ⟨caller, .createChannel name, .created (Ipc.createChannel caller name w.reg).1⟩ ::
        w.history⟩ := by
  have hid : w.reg.nextId % 2 ^ 32 = creations w.history + 1 := by
    rw [h.nextId]
    exact Nat.mod_eq_of_lt hfew
  have hnext : MachineWord.add w.reg.nextId 1 = creations w.history + 1 + 1 := by
    rw [h.nextId, MachineWord.add]
    refine Nat.mod_eq_of_lt ?_
    simp only [MachineWord.modulus]
    omega
  simp only [Ipc.createChannel, hid, hnext]
  generalize hn : creations w.history + 1 = n
  have hlast : n ∉ w.reg.channels.map Channel.id := by
    rw [h.ids, List.mem_range'_1]
    omega
  have hnew := h.unknown n hlast
  generalize he : (⟨caller, .createChannel name, .created n⟩ : Event) = e
  have hsilent : ∀ i, i ≠ n → e.Silent w.history i := by
    subst he
    intro i hi
    refine ⟨fun u hu => ?_, fun u hu => ?_, rfl, rfl⟩
    · obtain ⟨-, name', -, hreply⟩ := hu
      exact hi (Reply.created.inj hreply).symm
    · exact absurd hu.1 (by simp)
  refine ⟨?_, ?_, fun c hc => ?_, fun i hi => ?_⟩
  · subst he hn
    rfl
  · subst he
    rw [creations, List.map_append, h.ids, List.range'_concat]
    simp
    omega
  · rcases List.mem_append.mp hc with hold | hlastc
    · refine (hsilent c.id (fun heq => hlast ?_)).agrees (h.agrees c hold)
      exact List.mem_map.mpr ⟨c, hold, heq⟩
    · rw [List.mem_singleton.mp hlastc]
      subst he
      refine ⟨fun u => ?_, fun u => ?_, ?_⟩
      · rw [createdBy_cons, or_iff_left (hnew.created u)]
        exact ⟨fun hu => hu.1.symm, fun hu => ⟨hu.symm, name, rfl, rfl⟩⟩
      · rw [GrantedTo, or_iff_right (hnew.granted u)]
        simp
      · rw [accepted, delivered, hnew.accepted, hnew.delivered]
        exact Ring.new_holds
  · rw [List.map_append, List.mem_append, not_or] at hi
    refine (hsilent i (fun heq => hi.2 ?_)).unknown (h.unknown i hi.1)
    simp [heq]

end Faithful

/-- A refused call says nothing, unless it is a `grant` by the creator. -/
theorem silent_failed {h : History} {caller : Nat} {call : Call} {err : IpcError}
    (hgrant : ∀ id uid, call = .grant id uid → ¬ CreatedBy h id caller) (i : Nat) :
    (⟨caller, call, .failed err⟩ : Event).Silent h i := by
  refine ⟨fun u hu => ?_, fun u hu => hgrant i u hu.1 hu.2, ?_, ?_⟩
  · obtain ⟨-, name, -, hreply⟩ := hu
    exact Reply.noConfusion hreply
  · cases call <;> rfl
  · cases call <;> rfl

/-- A `grant` says nothing about other channels. -/
theorem silent_grant {h : History} {caller id uid i : Nat} (hi : i ≠ id) :
    (⟨caller, .grant id uid, .granted⟩ : Event).Silent h i :=
  ⟨fun _ hu => Reply.noConfusion hu.2.choose_spec.2,
    fun _ hu => hi (Call.grant.inj hu.1).1.symm, rfl, rfl⟩

/-- **A transfer**: a call about channel `id` that, where the channel is there and
the caller may use it, answers and leaves the ring as `answer` and `left` say, and
does nothing otherwise. -/
structure Call.Transfers (call : Call) (id : Nat) (answer : Ring → Reply)
    (left : Ring → Ring) : Prop where
  missing : ∀ {r : Registry} {u}, r.find id = none → r.call u call = (.failed .notFound, r)
  refused : ∀ {r : Registry} {u c}, r.find id = some c → ¬ canAccess c u →
    r.call u call = (.failed .permissionDenied, r)
  made : ∀ {r : Registry} {u c}, r.find id = some c → canAccess c u →
    r.call u call = (answer c.ring, r.update id (fun d => { d with ring := left c.ring }))
  creates : ∀ name, call ≠ .createChannel name
  grants : ∀ i u, call ≠ .grant i u
  elsewhere : ∀ u ring i, i ≠ id →
    Event.input ⟨u, call, answer ring⟩ i = [] ∧ Event.output ⟨u, call, answer ring⟩ i = []
  holds : ∀ {ring : Ring} {acc del} u, ring.Holds acc del →
    (left ring).Holds (acc ++ Event.input ⟨u, call, answer ring⟩ id)
      (del ++ Event.output ⟨u, call, answer ring⟩ id)

/-- `send` pushes. -/
theorem send_transfers (id : Nat) (data : List UInt8) :
    (Call.send id data).Transfers id (fun ring => .sent (ring.push data).1)
      (fun ring => (ring.push data).2) where
  missing hfind := by simp [Registry.call, Ipc.send, hfind]
  refused hfind haccess := by simp [Registry.call, Ipc.send, hfind, haccess]
  made hfind haccess := by simp [Registry.call, Ipc.send, hfind, haccess]
  creates _ := Call.noConfusion
  grants _ _ := Call.noConfusion
  elsewhere _ _ _ hi := ⟨if_neg (fun heq => hi heq.symm), rfl⟩
  holds _ hring := by simpa [Event.input, Event.output] using (hring.push data).2

/-- `recv` pops. -/
theorem recv_transfers (id len : Nat) :
    (Call.recv id len).Transfers id (fun ring => .received (ring.pop len).1)
      (fun ring => (ring.pop len).2) where
  missing hfind := by simp [Registry.call, Ipc.recv, hfind]
  refused hfind haccess := by simp [Registry.call, Ipc.recv, hfind, haccess]
  made hfind haccess := by simp [Registry.call, Ipc.recv, hfind, haccess]
  creates _ := Call.noConfusion
  grants _ _ := Call.noConfusion
  elsewhere _ _ _ hi := ⟨rfl, if_neg (fun heq => hi heq.symm)⟩
  holds _ hring := by simpa [Event.input, Event.output] using (hring.pop len).2

namespace Faithful

variable {w : World}

/-- Nobody is authorised for a channel that is not there. -/
private theorem not_authorised (h : Faithful w) {id : Nat} (hfind : w.reg.find id = none)
    (u : Nat) :
    ¬ Authorised w.history id u := by
  have hunknown := h.unknown id (Registry.find_none hfind)
  exact not_or.mpr ⟨hunknown.created u, hunknown.granted u⟩

/-- The check is the policy. -/
theorem canAccess_iff (h : Faithful w) {id : Nat} {c : Channel} (hfind : w.reg.find id = some c)
    (u : Nat) : canAccess c u = true ↔ Authorised w.history id u := by
  obtain ⟨hmem, rfl⟩ := Registry.find_some hfind
  rw [Authorised, (h.agrees c hmem).owner, (h.agrees c hmem).allowed, canAccess,
    @eq_comm _ u c.owner]
  simp only [Bool.or_eq_true, beq_iff_eq, List.contains_iff_mem]

/-- The owner is who created the channel. -/
theorem owner_iff (h : Faithful w) {id : Nat} {c : Channel} (hfind : w.reg.find id = some c)
    (u : Nat) : c.owner = u ↔ CreatedBy w.history id u := by
  obtain ⟨hmem, rfl⟩ := Registry.find_some hfind
  rw [(h.agrees c hmem).owner, eq_comm]

/-- What a `grant` by the creator adds to the history. -/
theorem granted (h : Faithful w) {id : Nat} {c : Channel} (hfind : w.reg.find id = some c)
    (uid : Nat) {allowed : List Nat} (hlist : ∀ u, u ∈ allowed ↔ u ∈ c.allowed ∨ u = uid) :
    Channel.Agrees { c with allowed := allowed }
      (⟨c.owner, .grant id uid, .granted⟩ :: w.history) := by
  obtain ⟨hmem, rfl⟩ := Registry.find_some hfind
  have hc := h.agrees c hmem
  refine ⟨fun u => ?_, fun u => ?_, ?_⟩
  · rw [createdBy_cons, or_iff_right (Event.not_creates (fun _ => Call.noConfusion))]
    exact hc.owner u
  · have hcreated : CreatedBy w.history c.id c.owner := (hc.owner c.owner).mpr rfl
    rw [GrantedTo, hlist, hc.allowed]
    simp [hcreated, eq_comm]
  · simpa [accepted, delivered, Event.input, Event.output] using hc.ring

/-- `grant` keeps the registry faithful. -/
theorem grant (h : Faithful w) (caller id uid : Nat) :
    Faithful ⟨(w.reg.call caller (.grant id uid)).2,
      ⟨caller, .grant id uid, (w.reg.call caller (.grant id uid)).1⟩ :: w.history⟩ := by
  have hrefused : ∀ err, ¬ CreatedBy w.history id caller →
      Faithful ⟨w.reg, ⟨caller, .grant id uid, .failed err⟩ :: w.history⟩ := by
    intro err hno
    refine h.quiet (fun _ => Call.noConfusion) (silent_failed (fun i u heq => ?_))
    obtain ⟨rfl, rfl⟩ := Call.grant.inj heq
    exact hno
  cases hfind : w.reg.find id with
  | none =>
      simp only [Registry.call, Ipc.grant, hfind]
      exact hrefused _ ((h.unknown id (Registry.find_none hfind)).created caller)
  | some c =>
      by_cases howner : c.owner = caller
      · subst howner
        by_cases hin : uid ∈ c.allowed
        · have hrun : w.reg.call c.owner (.grant id uid) = (.granted, w.reg) := by
            simp [Registry.call, Ipc.grant, hfind, hin]
          rw [hrun]
          have hlist : ∀ u, u ∈ c.allowed ↔ u ∈ c.allowed ∨ u = uid := fun u =>
            ⟨Or.inl, fun hu => hu.elim (fun h => h) (fun heq => heq ▸ hin)⟩
          exact h.keep (fun _ => Call.noConfusion) hfind (h.granted hfind uid hlist)
            (fun i hi => silent_grant hi)
        · have hrun : w.reg.call c.owner (.grant id uid) = (.granted,
              w.reg.update id (fun c => { c with allowed := c.allowed ++ [uid] })) := by
            simp [Registry.call, Ipc.grant, hfind, hin]
          rw [hrun]
          refine h.change (fun _ => Call.noConfusion) hfind (fun _ => rfl) ?_
            (fun i hi => silent_grant hi)
          exact h.granted hfind uid (fun u => by simp)
      · have hrun : w.reg.call caller (.grant id uid) = (.failed .permissionDenied, w.reg) := by
          simp [Registry.call, Ipc.grant, hfind, howner]
        rw [hrun]
        exact hrefused _ (fun hcreated => howner ((h.owner_iff hfind caller).mpr hcreated))

/-- A transfer keeps the registry faithful: what goes in and out of the channel is
all that it adds to the history. -/
theorem transfer (h : Faithful w) {call : Call} {id : Nat} {answer : Ring → Reply}
    {left : Ring → Ring} (ht : call.Transfers id answer left) (caller : Nat) :
    Faithful ⟨(w.reg.call caller call).2,
      ⟨caller, call, (w.reg.call caller call).1⟩ :: w.history⟩ := by
  have hrefused : ∀ err, Faithful ⟨w.reg, ⟨caller, call, .failed err⟩ :: w.history⟩ :=
    fun err => h.quiet ht.creates (silent_failed (fun i u heq => absurd heq (ht.grants i u)))
  cases hfind : w.reg.find id with
  | none =>
      rw [ht.missing hfind]
      exact hrefused _
  | some c =>
      by_cases haccess : canAccess c caller
      · rw [ht.made hfind haccess]
        refine h.change ht.creates hfind (fun _ => rfl) ?_ (fun i hi => ?_)
        · -- the channel itself
          obtain ⟨hmem, rfl⟩ := Registry.find_some hfind
          have hc := h.agrees c hmem
          refine ⟨fun u => ?_, fun u => ?_, ht.holds caller hc.ring⟩
          · rw [createdBy_cons, or_iff_right (Event.not_creates ht.creates)]
            exact hc.owner u
          · rw [GrantedTo, or_iff_left (fun hu => ht.grants _ _ hu.1)]
            exact hc.allowed u
        · obtain ⟨hin, hout⟩ := ht.elsewhere caller c.ring i hi
          exact ⟨fun _ => Event.not_creates ht.creates, fun _ hu => ht.grants _ _ hu.1, hin, hout⟩
      · rw [ht.refused hfind haccess]
        exact hrefused _

/-- Any call, as long as the ids last. -/
theorem call (h : Faithful w) (caller : Nat) (call : Call)
    (hfew : creations (⟨caller, call, (w.reg.call caller call).1⟩ :: w.history) < 2 ^ 32) :
    Faithful ⟨(w.reg.call caller call).2,
      ⟨caller, call, (w.reg.call caller call).1⟩ :: w.history⟩ := by
  cases call with
  | createChannel name => exact h.createChannel hfew caller name
  | grant id uid => exact h.grant caller id uid
  | send id data => exact h.transfer (send_transfers id data) caller
  | recv id len => exact h.transfer (recv_transfers id len) caller

/-- A transfer is made exactly for those authorised, whatever tells its answers
from a refusal. -/
theorem transfer_iff (h : Faithful w) {call : Call} {id : Nat} {answer : Ring → Reply}
    {left : Ring → Ring} (ht : call.Transfers id answer left) (Made : Reply → Prop)
    (hmade : ∀ ring, Made (answer ring)) (hfailed : ∀ err, ¬ Made (.failed err)) (u : Nat) :
    Made (w.reg.call u call).1 ↔ Authorised w.history id u := by
  cases hfind : w.reg.find id with
  | none =>
      rw [ht.missing hfind]
      exact iff_of_false (hfailed _) (h.not_authorised hfind u)
  | some c =>
      rw [← h.canAccess_iff hfind]
      by_cases haccess : canAccess c u
      · rw [ht.made hfind haccess]
        exact iff_of_true (hmade _) haccess
      · rw [ht.refused hfind haccess]
        exact iff_of_false (hfailed _) haccess

/-- `send` succeeds exactly for those authorised. -/
theorem send_iff (h : Faithful w) (u id : Nat) (data : List UInt8) :
    (∃ n, (w.reg.call u (.send id data)).1 = .sent n) ↔ Authorised w.history id u :=
  h.transfer_iff (send_transfers id data) (fun reply => ∃ n, reply = .sent n)
    (fun _ => ⟨_, rfl⟩) (fun _ hn => Reply.noConfusion hn.choose_spec) u

/-- `recv` succeeds exactly for those authorised. -/
theorem recv_iff (h : Faithful w) (u id len : Nat) :
    (∃ bytes, (w.reg.call u (.recv id len)).1 = .received bytes) ↔ Authorised w.history id u :=
  h.transfer_iff (recv_transfers id len) (fun reply => ∃ bytes, reply = .received bytes)
    (fun _ => ⟨_, rfl⟩) (fun _ hbytes => Reply.noConfusion hbytes.choose_spec) u

/-- What was received was sent. -/
theorem delivered_prefix (h : Faithful w) (id : Nat) :
    delivered w.history id <+: accepted w.history id := by
  by_cases hid : id ∈ w.reg.channels.map Channel.id
  · obtain ⟨c, hc, rfl⟩ := List.mem_map.mp hid
    exact (h.agrees c hc).ring.popped
  · rw [(h.unknown id hid).delivered]
    exact List.nil_prefix

end Faithful

/-- A refused call changes nothing. -/
theorem Registry.call_failed {r : Registry} {caller : Nat} {call : Call} {err : IpcError}
    (h : (r.call caller call).1 = .failed err) : (r.call caller call).2 = r := by
  cases call with
  | createChannel name => exact absurd h (by simp [Registry.call])
  | grant id uid =>
      rw [Registry.call, Ipc.grant] at h ⊢
      grind
  | send id data =>
      rw [Registry.call, Ipc.send] at h ⊢
      grind
  | recv id len =>
      rw [Registry.call, Ipc.recv] at h ⊢
      grind

/-- The registry follows the history as long as the ids last. -/
theorem reach_faithful {w : World} (hrun : registrySystem.Reach w) :
    creations w.history < 2 ^ 32 → Faithful w ∧ SendsAuthorised w.history := by
  refine hrun.invariant
    (I := fun w => creations w.history < 2 ^ 32 → Faithful w ∧ SendsAuthorised w.history)
    (fun w hboot hfew => ?_) (fun w e t ih hnext hfew => ?_)
  · obtain rfl := hboot
    refine ⟨⟨rfl, rfl, fun c hc => absurd hc List.not_mem_nil, fun id _ => ?_⟩,
      fun e past hpast => ?_⟩
    · exact ⟨fun u hu => absurd hu (by simp [CreatedBy]), fun u hu => hu, rfl, rfl⟩
    · exact absurd (List.eq_nil_of_suffix_nil hpast) (List.cons_ne_nil e past)
  · obtain ⟨caller, call⟩ := e
    obtain rfl := Option.some.inj hnext
    obtain ⟨hw, hsends⟩ := ih ((creations_le (List.suffix_cons _ _)).trans_lt hfew)
    refine ⟨hw.call caller call hfew, fun e past hpast id data n hcall hreply => ?_⟩
    rcases List.suffix_cons_iff.mp hpast with heq | hold
    · obtain ⟨rfl, rfl⟩ := List.cons.inj heq
      dsimp only at hcall
      subst hcall
      exact (hw.send_iff caller id data).mp ⟨n, hreply⟩
    · exact hsends e past hold id data n hcall hreply

/-- **Default deny.**  With fewer than `2 ^ 32` channels created: `send` and
`recv` succeed exactly for the creator and for those it granted access, a
refused call changes nothing, the bytes received on a channel are the first of
those sent on it, and each of these was sent by a uid then authorised. -/
theorem channels_default_deny {w : World} (hrun : registrySystem.Reach w)
    (hfew : creations w.history < 2 ^ 32) :
    (∀ u id data, (∃ n, (w.reg.call u (.send id data)).1 = .sent n) ↔
      Authorised w.history id u) ∧
    (∀ u id len, (∃ bytes, (w.reg.call u (.recv id len)).1 = .received bytes) ↔
      Authorised w.history id u) ∧
    (∀ u call err, (w.reg.call u call).1 = .failed err → (w.reg.call u call).2 = w.reg) ∧
    (∀ id, delivered w.history id <+: accepted w.history id) ∧
    SendsAuthorised w.history := by
  obtain ⟨hfaithful, hsends⟩ := reach_faithful hrun hfew
  exact ⟨hfaithful.send_iff, hfaithful.recv_iff, fun _ _ _ => Registry.call_failed,
    hfaithful.delivered_prefix, hsends⟩

/-- The owner sends, an intruder is refused, is granted access and sends, and
the owner receives. -/
def sampleCalls : List (Nat × Call) :=
  [(0, .createChannel "ipctest-chan"), (0, .send 1 [7, 8]), (1000, .send 1 [9]),
    (0, .grant 1 1000), (1000, .send 1 [10]), (0, .recv 1 64)]

/-- A run with an intruder. -/
theorem sample_channels_default_deny :
    ∃ w, registrySystem.exec ⟨Registry.boot, []⟩ sampleCalls = some w ∧
      w.history.map Event.reply = [.received [7, 8, 10], .sent 1, .granted,
        .failed .permissionDenied, .sent 2, .created 1] ∧
      Authorised w.history 1 1000 ∧ ¬ Authorised w.history 1 1001 := by
  have hreply : (registrySystem.exec ⟨Registry.boot, []⟩ sampleCalls).map
      (fun w => (w.history.map Event.reply, creations w.history,
        decide ((w.reg.call 1000 (.send 1 [])).1 = .sent 0),
        decide ((w.reg.call 1001 (.send 1 [])).1 = .failed .permissionDenied))) =
      some ([.received [7, 8, 10], .sent 1, .granted, .failed .permissionDenied, .sent 2,
        .created 1], 1, true, true) := by
    decide +kernel
  obtain ⟨w, hw, heq⟩ := Option.map_eq_some_iff.mp hreply
  simp only [Prod.mk.injEq, decide_eq_true_eq] at heq
  obtain ⟨hreplies, hone, hgranted, hstranger⟩ := heq
  have hreach := TransitionSystem.Reach.exec (TransitionSystem.Run.boot rfl) hw
  have hpolicy := channels_default_deny hreach (by rw [hone]; decide)
  refine ⟨w, hw, hreplies, (hpolicy.1 1000 1 []).mp ⟨0, hgranted⟩, fun hno => ?_⟩
  obtain ⟨n, hn⟩ := (hpolicy.1 1001 1 []).mpr hno
  exact Reply.noConfusion (hn.symm.trans hstranger)

end Ipc
