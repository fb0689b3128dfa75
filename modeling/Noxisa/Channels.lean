import Noxisa.Ring
import Noxisa.TransitionSystem

/-!
# The channel registry

The model of `create_channel`, `grant`, `send` and `recv` in `ipc/mod.rs`, each
called with the uid of its caller, and runs of such calls.  The audit log is
left out: nothing reads it back.

What a channel lets through is compared with the history of the calls, latest
first.  `Authorised` is the policy: it speaks about past calls only, not about
owners and lists.  `accepted` and `delivered` are the bytes that went in and
out of a channel.
-/

namespace Ipc

/-- `IpcError` -/
inductive IpcError
  | notFound
  | permissionDenied
deriving DecidableEq

/-- `Channel` -/
structure Channel where
  id : Nat
  name : String
  owner : Nat
  /-- uids that were granted access; the owner always has it -/
  allowed : List Nat
  ring : Ring

/-- `CHANNELS` and `NEXT_ID`. -/
structure Registry where
  channels : List Channel
  nextId : Nat

/-- The registry when nothing has been called. -/
def Registry.boot : Registry := { channels := [], nextId := 1 }

/-- `channels.iter().find(|c| c.id == id)` -/
def Registry.find (r : Registry) (id : Nat) : Option Channel :=
  r.channels.find? (fun c => c.id = id)

/-- Change the channel that `find` returns. -/
def updateFirst (id : Nat) (f : Channel → Channel) : List Channel → List Channel
  | [] => []
  | c :: cs => if c.id = id then f c :: cs else c :: updateFirst id f cs

/-- The first channel with the id is changed. -/
def Registry.update (r : Registry) (id : Nat) (f : Channel → Channel) : Registry :=
  { r with channels := updateFirst id f r.channels }

/-- `can_access` -/
def canAccess (c : Channel) (uid : Nat) : Bool := c.owner == uid || c.allowed.contains uid

/-- The id is `fetch_add(1) as u32`. -/
def createChannel (caller : Nat) (name : String) (r : Registry) : Nat × Registry :=
  let id := r.nextId % 2 ^ 32
  (id,
    { channels :=
        r.channels ++ [{ id := id, name := name, owner := caller, allowed := [], ring := Ring.new }]
      nextId := MachineWord.add r.nextId 1 })

/-- `grant`, by the owner. -/
def grant (caller id uid : Nat) (r : Registry) : Except IpcError Unit × Registry :=
  match r.find id with
  | none => (.error .notFound, r)
  | some c =>
      if c.owner ≠ caller then (.error .permissionDenied, r)
      else if c.allowed.contains uid then (.ok (), r)
      else (.ok (), r.update id (fun c => { c with allowed := c.allowed ++ [uid] }))

/-- `send` -/
def send (caller id : Nat) (data : List UInt8) (r : Registry) : Except IpcError Nat × Registry :=
  match r.find id with
  | none => (.error .notFound, r)
  | some c =>
      if canAccess c caller then
        let (n, ring) := c.ring.push data
        (.ok n, r.update id (fun c => { c with ring := ring }))
      else (.error .permissionDenied, r)

/-- `recv` into a buffer of `len` bytes: the bytes written to it. -/
def recv (caller id len : Nat) (r : Registry) : Except IpcError (List UInt8) × Registry :=
  match r.find id with
  | none => (.error .notFound, r)
  | some c =>
      if canAccess c caller then
        let (bytes, ring) := c.ring.pop len
        (.ok bytes, r.update id (fun c => { c with ring := ring }))
      else (.error .permissionDenied, r)

/-- The calls on channels. -/
inductive Call
  | createChannel (name : String)
  | grant (id uid : Nat)
  | send (id : Nat) (data : List UInt8)
  | recv (id len : Nat)
deriving DecidableEq

/-- What they return. -/
inductive Reply
  | created (id : Nat)
  | granted
  | sent (n : Nat)
  | received (bytes : List UInt8)
  | failed (e : IpcError)
deriving DecidableEq

/-- One call, by the uid `caller`. -/
def Registry.call (r : Registry) (caller : Nat) : Call → Reply × Registry
  | .createChannel name =>
      match Ipc.createChannel caller name r with
      | (id, r') => (.created id, r')
  | .grant id uid =>
      match Ipc.grant caller id uid r with
      | (.ok _, r') => (.granted, r')
      | (.error e, r') => (.failed e, r')
  | .send id data =>
      match Ipc.send caller id data r with
      | (.ok n, r') => (.sent n, r')
      | (.error e, r') => (.failed e, r')
  | .recv id len =>
      match Ipc.recv caller id len r with
      | (.ok bytes, r') => (.received bytes, r')
      | (.error e, r') => (.failed e, r')

/-- A call, who made it, and its reply. -/
structure Event where
  caller : Nat
  call : Call
  reply : Reply
deriving DecidableEq

/-- The calls so far, the latest first. -/
abbrev History := List Event

/-- The registry with the history. -/
structure World where
  reg : Registry
  history : History

/-- Runs of calls by any uids. -/
def registrySystem : TransitionSystem World (Nat × Call) where
  boot := fun w => w = ⟨Registry.boot, []⟩
  next := fun w (caller, call) =>
    let (reply, reg) := w.reg.call caller call
    some ⟨reg, ⟨caller, call, reply⟩ :: w.history⟩

/-- A channel that is found is in the registry and has the id. -/
theorem Registry.find_some {r : Registry} {id : Nat} {c : Channel} (h : r.find id = some c) :
    c ∈ r.channels ∧ c.id = id := by
  refine ⟨List.mem_of_find?_eq_some h, ?_⟩
  simpa using List.find?_some h

/-- An id that is not found is nobody's. -/
theorem Registry.find_none {r : Registry} {id : Nat} (h : r.find id = none) :
    id ∉ r.channels.map Channel.id := by
  intro hmem
  obtain ⟨c, hc, hid⟩ := List.mem_map.mp hmem
  have hno := List.find?_eq_none.mp h c hc
  simp [hid] at hno

/-- A change that keeps the ids keeps the list of them. -/
theorem updateFirst_ids {id : Nat} {f : Channel → Channel} (hf : ∀ c, (f c).id = c.id)
    (cs : List Channel) : (updateFirst id f cs).map Channel.id = cs.map Channel.id := by
  induction cs with
  | nil => rfl
  | cons c cs ih =>
      by_cases h : c.id = id
      · simp [updateFirst, h, hf]
      · simp [updateFirst, h, ih]

/-- With distinct ids only the channel found is changed. -/
theorem mem_updateFirst {id : Nat} {f : Channel → Channel} {c d : Channel} {cs : List Channel}
    (hnodup : (cs.map Channel.id).Nodup) (hc : c ∈ cs) (hid : c.id = id)
    (hd : d ∈ updateFirst id f cs) : d = f c ∨ d ∈ cs ∧ d.id ≠ id := by
  induction cs with
  | nil => exact absurd hc List.not_mem_nil
  | cons a cs ih =>
      rw [List.map_cons, List.nodup_cons] at hnodup
      by_cases h : a.id = id
      · have hca : c = a := by
          rcases List.mem_cons.mp hc with heq | htail
          · exact heq
          · exact absurd (List.mem_map.mpr ⟨c, htail, hid.trans h.symm⟩) hnodup.1
        rw [updateFirst, if_pos h] at hd
        rcases List.mem_cons.mp hd with heq | htail
        · exact Or.inl (by rw [heq, hca])
        · refine Or.inr ⟨List.mem_cons_of_mem a htail, fun hsame => ?_⟩
          exact hnodup.1 (List.mem_map.mpr ⟨d, htail, hsame.trans h.symm⟩)
      · have hctail : c ∈ cs := by
          rcases List.mem_cons.mp hc with heq | htail
          · exact absurd (heq ▸ hid) h
          · exact htail
        rw [updateFirst, if_neg h] at hd
        rcases List.mem_cons.mp hd with heq | htail
        · exact Or.inr ⟨heq ▸ List.mem_cons_self, heq ▸ h⟩
        · rcases ih hnodup.2 hctail htail with hnew | ⟨hmem, hne⟩
          · exact Or.inl hnew
          · exact Or.inr ⟨List.mem_cons_of_mem a hmem, hne⟩

/-- A channel is found as before, the one that was changed as it is now. -/
theorem find_updateFirst {id : Nat} {f : Channel → Channel} (hf : ∀ c, (f c).id = c.id)
    (cs : List Channel) (i : Nat) :
    (updateFirst id f cs).find? (fun c => c.id = i) =
      if i = id then (cs.find? (fun c => c.id = i)).map f else cs.find? (fun c => c.id = i) := by
  induction cs with
  | nil => simp [updateFirst]
  | cons c cs ih =>
      by_cases hc : c.id = id
      · by_cases hi : i = id
        · simp [updateFirst, hc, hi, hf]
        · have hne : ¬ id = i := fun h => hi h.symm
          simp [updateFirst, hc, hi, hf, hne]
      · by_cases hci : c.id = i
        · have hi : ¬ i = id := fun h => hc (hci.trans h)
          simp [updateFirst, hci, hi]
        · simp [updateFirst, hc, hci, ih]

/-- The same in the registry. -/
theorem Registry.find_update {r : Registry} {id : Nat} {f : Channel → Channel}
    (hf : ∀ c, (f c).id = c.id) (i : Nat) :
    (r.update id f).find i = if i = id then (r.find i).map f else r.find i :=
  find_updateFirst hf r.channels i

/-- The event is the creation of channel `id` by `uid`. -/
def Event.Creates (e : Event) (id uid : Nat) : Prop :=
  e.caller = uid ∧ ∃ name, e.call = .createChannel name ∧ e.reply = .created id

/-- `uid` created the channel. -/
def CreatedBy (h : History) (id uid : Nat) : Prop := ∃ e ∈ h, e.Creates id uid

/-- The creator, having created the channel, called `grant(id, uid)`. -/
def GrantedTo : History → Nat → Nat → Prop
  | [], _, _ => False
  | e :: h, id, uid =>
      GrantedTo h id uid ∨ e.call = .grant id uid ∧ CreatedBy h id e.caller

/-- The creator, and those to whom the creator has granted access. -/
def Authorised (h : History) (id uid : Nat) : Prop := CreatedBy h id uid ∨ GrantedTo h id uid

/-- How many channels were created. -/
def creations : History → Nat
  | [] => 0
  | e :: h => match e.call with
    | .createChannel _ => creations h + 1
    | _ => creations h

/-- The bytes a call put into channel `id`. -/
def Event.input (e : Event) (id : Nat) : List UInt8 :=
  match e.call, e.reply with
  | .send i data, .sent n => if i = id then data.take n else []
  | _, _ => []

/-- The bytes a call took out of channel `id`. -/
def Event.output (e : Event) (id : Nat) : List UInt8 :=
  match e.call, e.reply with
  | .recv i _, .received bytes => if i = id then bytes else []
  | _, _ => []

/-- All bytes accepted by sends on the channel, in order. -/
def accepted : History → Nat → List UInt8
  | [], _ => []
  | e :: h, id => accepted h id ++ e.input id

/-- All bytes delivered by receives on the channel, in order. -/
def delivered : History → Nat → List UInt8
  | [], _ => []
  | e :: h, id => delivered h id ++ e.output id

end Ipc
