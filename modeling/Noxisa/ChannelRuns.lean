import Noxisa.Channels
import Noxisa.RingRuns

/-!
# Overlapping sends and receives

`send` and `recv` under preemption: the load of the caller's uid, the shared
lock, the lookup and every step of the ring operation are steps of their own,
in any order among `n` processes.  `create_channel` and `grant` need the lock
for writing and so happen while nobody holds it.

The lock does not keep two senders apart, and the ring is made for one.  A
channel is lossless while its pushes do not overlap, nor its pops
(`channels_lossless`): then every channel keeps the invariant of `RingRuns`.
-/

namespace Ipc

/-- What a process asks for. -/
inductive Transfer
  | send (id : Nat) (data : List UInt8)
  | recv (id len : Nat)

/-- The channel that a transfer is about. -/
def Transfer.id : Transfer → Nat
  | .send id _ | .recv id _ => id

/-- The ring operation. -/
def Transfer.pc : Transfer → Pc
  | .send _ data => .pushLoadHead data
  | .recv _ len => .popLoadTail len

/-- Where a process is. -/
inductive Stage
  | out
  | entered (call : Transfer) (uid : Nat)
  | locked (call : Transfer) (uid : Nat)
  | within (id : Nat) (pc : Pc)

/-- What it is doing to the ring of channel `id`. -/
def Stage.on (id : Nat) : Stage → Pc
  | .within i pc => if i = id then pc else .idle
  | _ => .idle

/-- The registry with its lock and the record of what each channel carried. -/
structure Desk (n : Nat) where
  reg : Registry
  readers : Nat
  stage : Fin n → Stage
  pushes : Nat → List Pushed
  delivered : Nat → List UInt8

namespace Desk

variable {n : Nat}

/-- Nobody has called anything. -/
def boot (n : Nat) : Desk n where
  reg := Registry.boot
  readers := 0
  stage := fun _ => .out
  pushes := fun _ => []
  delivered := fun _ => []

/-- A channel with its record. -/
def line (w : Desk n) (c : Channel) : Line := ⟨c.ring, w.pushes c.id, w.delivered c.id⟩

/-- Where everybody is in a channel. -/
def pcs (w : Desk n) (id : Nat) (p : Fin n) : Pc := (w.stage p).on id

/-- A process goes on. -/
def goto (w : Desk n) (p : Fin n) (s : Stage) : Desk n :=
  { w with stage := Function.update w.stage p s }

/-- `channels` is dropped. -/
def leave (w : Desk n) (p : Fin n) : Desk n :=
  { w.goto p .out with readers := w.readers - 1 }

/-- `find`, and the check. -/
def lookup (w : Desk n) (p : Fin n) (call : Transfer) (uid : Nat) : Desk n :=
  match w.reg.find call.id with
  | none => w.leave p
  | some c => if canAccess c uid then w.goto p (.within call.id call.pc) else w.leave p

/-- The channel after a step of its ring. -/
def setLine (w : Desk n) (id : Nat) (l : Line) : Desk n :=
  { w with
    reg := w.reg.update id (fun c => { c with ring := l.ring })
    pushes := Function.update w.pushes id l.pushes
    delivered := Function.update w.delivered id l.delivered }

/-- A step of the ring operation; the last one also drops the lock. -/
def transfer (w : Desk n) (p : Fin n) (id : Nat) (pc : Pc) : Desk n :=
  match w.reg.find id with
  | none => w
  | some c =>
      let (pc', l) := pc.step (w.line c)
      match pc' with
      | .idle => (w.setLine id l).leave p
      | pc' => (w.setLine id l).goto p (.within id pc')

/-- One step of a process: it enters, takes the readers' lock, looks the channel up, and
then is in the ring's code. -/
def step (w : Desk n) (p : Fin n) : Desk n :=
  match w.stage p with
  | .out => w
  | .entered call uid => { w.goto p (.locked call uid) with readers := w.readers + 1 }
  | .locked call uid => w.lookup p call uid
  | .within id pc => w.transfer p id pc

end Desk

/-- What can happen: calls that hold the lock alone, the beginning of a transfer, and
its steps. -/
inductive Deed (n : Nat)
  | create (uid : Nat) (name : String)
  | grant (caller id uid : Nat)
  | begin (p : Fin n) (uid : Nat) (call : Transfer)
  | step (p : Fin n)

/-- `n` processes, each with any uid, and anyone creating channels and granting
access. -/
def channelSystem (n : Nat) : TransitionSystem (Desk n) (Deed n) where
  boot := fun w => w = Desk.boot n
  next := fun w e => match e with
    | .create uid name =>
        if w.readers = 0 then some { w with reg := (createChannel uid name w.reg).2 } else none
    | .grant caller id uid =>
        if w.readers = 0 then some { w with reg := (grant caller id uid w.reg).2 } else none
    | .begin p uid call =>
        match w.stage p with
        | .out => some (w.goto p (.entered call uid))
        | _ => none
    | .step p => some (w.step p)

/-- No unfinished operation on channel `id` is of the same kind as `pc`. -/
def Desk.Alone {n : Nat} (w : Desk n) (id : Nat) (pc : Pc) : Prop :=
  ∀ q, ¬ (pc.pushing ∧ (w.pcs id q).pushing) ∧ ¬ (pc.popping ∧ (w.pcs id q).popping)

instance {n : Nat} (w : Desk n) (id : Nat) (pc : Pc) : Decidable (w.Alone id pc) := by
  unfold Desk.Alone
  infer_instance

/-- A push begins only while no other push on the channel is unfinished, and a
pop only while no other pop is. -/
def NoOverlap {n : Nat} (w : Desk n) : Deed n → Prop
  | .step p => match w.stage p with
    | .locked call uid => match w.reg.find call.id with
      | some c => canAccess c uid → w.Alone call.id call.pc
      | none => True
    | _ => True
  | _ => True

instance {n : Nat} (w : Desk n) (e : Deed n) : Decidable (NoOverlap w e) := by
  unfold NoOverlap
  split
  · split
    · split <;> infer_instance
    · infer_instance
  · infer_instance

/-- Every accepted byte is delivered once or still in the ring, and the bytes
of one `send` are in the order sent. -/
structure Line.Intact (l : Line) : Prop where
  once : (l.delivered ++ l.ring.contents).Perm l.accepted
  in_order : ∀ x ∈ l.pushes, (x.given.take x.n).Sublist (l.delivered ++ l.ring.contents)

namespace Desk

variable {n : Nat} {w : Desk n}

/-- Every channel that can be found keeps the invariant of its ring, and the
others have no record. -/
structure Lossless (w : Desk n) : Prop where
  spsc : ∀ id c, w.reg.find id = some c → (w.line c).Spsc (w.pcs id)
  unused : ∀ id, w.reg.find id = none →
    w.pushes id = [] ∧ w.delivered id = [] ∧ ∀ p, w.pcs id p = .idle

/-- At the start nothing is lost. -/
private theorem boot_lossless : (boot n).Lossless :=
  ⟨fun _ _ h => absurd h (by simp [boot, Registry.boot, Registry.find]),
    fun _ _ => ⟨rfl, rfl, fun _ => rfl⟩⟩

/-- A process that goes on, as seen from a channel. -/
theorem pcs_goto (w : Desk n) (p : Fin n) (s : Stage) (id : Nat) :
    (w.goto p s).pcs id = Function.update (w.pcs id) p (s.on id) := by
  funext q
  by_cases hq : q = p
  · subst hq
    simp [pcs, goto]
  · simp [pcs, goto, hq]

namespace Lossless

/-- A process goes on; the rings stay. -/
theorem goto (h : w.Lossless) {p : Fin n} {s : Stage}
    (hspsc : ∀ id c, w.reg.find id = some c →
      (w.line c).Spsc (Function.update (w.pcs id) p (s.on id)))
    (hunused : ∀ id, w.reg.find id = none → s.on id = .idle) : (w.goto p s).Lossless := by
  refine ⟨fun id c hc => ?_, fun id hid => ?_⟩
  · rw [pcs_goto]
    exact hspsc id c hc
  · obtain ⟨hpushes, hdelivered, hidle⟩ := h.unused id hid
    refine ⟨hpushes, hdelivered, fun q => ?_⟩
    rw [pcs_goto, hunused id hid]
    by_cases hq : q = p
    · subst hq
      exact Function.update_self _ _ _
    · exact (Function.update_of_ne hq _ _).trans (hidle q)

/-- A process goes where it uses no ring. -/
theorem goto_idle (h : w.Lossless) (p : Fin n) {s : Stage} (hs : ∀ id, s.on id = .idle) :
    (w.goto p s).Lossless := by
  refine h.goto (fun id c hc => ?_) (fun id _ => hs id)
  rw [hs id]
  exact (h.spsc id c hc).load trivial (fun hno => Bool.noConfusion hno)
    (fun hno => Bool.noConfusion hno)

/-- A process leaves. -/
theorem leave (h : w.Lossless) (p : Fin n) : (w.leave p).Lossless :=
  have hout := h.goto_idle p (s := .out) (fun _ => rfl)
  ⟨hout.spsc, hout.unused⟩

/-- The check is passed and the ring operation begins, with no other of its
kind unfinished. -/
theorem enter (h : w.Lossless) {p : Fin n} {call : Transfer} {c : Channel}
    (hfind : w.reg.find call.id = some c) (hno : w.Alone call.id call.pc) :
    (w.goto p (.within call.id call.pc)).Lossless := by
  have hfits : ∀ l, call.pc.Fits l := by
    intro l
    cases call <;> trivial
  refine h.goto (fun id d hd => ?_) (fun id hid => ?_)
  · have hspsc := h.spsc id d hd
    by_cases hid : id = call.id
    · subst hid
      simp only [Stage.on, if_true]
      exact hspsc.begin (hfits _) (fun hp q hq => (hno q).1 ⟨hp, hq⟩)
        (fun hp q hq => (hno q).2 ⟨hp, hq⟩)
    · have hne : ¬ call.id = id := fun heq => hid heq.symm
      simp only [Stage.on, if_neg hne]
      exact hspsc.load trivial (fun hx => Bool.noConfusion hx) (fun hx => Bool.noConfusion hx)
  · have hne : ¬ call.id = id := by
      intro heq
      rw [heq, hid] at hfind
      cases hfind
    simp [Stage.on, hne]

/-- A process finds the channel, and nobody else is in the same half of it. -/
theorem lookup (h : w.Lossless) {p : Fin n} {call : Transfer} {uid : Nat}
    (hno : ∀ c, w.reg.find call.id = some c → canAccess c uid → w.Alone call.id call.pc) :
    (w.lookup p call uid).Lossless := by
  unfold Desk.lookup
  split
  · exact h.leave p
  case h_2 c hfind =>
    by_cases haccess : canAccess c uid
    · rw [if_pos haccess]
      exact h.enter hfind (hno c hfind haccess)
    · rw [if_neg haccess]
      exact h.leave p

/-- A step of `p` inside the ring of one channel, which takes `p` to `s`. -/
theorem setLine (h : w.Lossless) {p : Fin n} {id : Nat} {c : Channel} {s : Stage}
    (hfind : w.reg.find id = some c)
    (hpc : s.on id = ((w.pcs id p).step (w.line c)).1)
    (helse : ∀ i, i ≠ id → w.pcs i p = .idle ∧ s.on i = .idle) :
    ((w.setLine id ((w.pcs id p).step (w.line c)).2).goto p s).Lossless := by
  have hline := (h.spsc id c hfind).step p
  generalize hl : (w.pcs id p).step (w.line c) = out at hline hpc ⊢
  have hupdate : ∀ i, (w.setLine id out.2).reg.find i =
      if i = id then (w.reg.find i).map (fun c => { c with ring := out.2.ring })
      else w.reg.find i := Registry.find_update (fun _ => rfl)
  have hpcs : ∀ i, ((w.setLine id out.2).goto p s).pcs i =
      Function.update (w.pcs i) p (s.on i) := pcs_goto _ p s
  refine ⟨fun i d hd => ?_, fun i hi => ?_⟩
  · rw [hpcs]
    have hd' := (hupdate i).symm.trans hd
    by_cases hi : i = id
    · subst hi
      rw [if_pos rfl, hfind] at hd'
      obtain rfl := Option.some.inj hd'
      obtain ⟨-, hcid⟩ := Registry.find_some hfind
      have hsame : ((w.setLine i out.2).goto p s).line { c with ring := out.2.ring } = out.2 := by
        simp [line, Desk.setLine, Desk.goto, hcid]
      rw [hsame, hpc]
      exact hline
    · rw [if_neg hi] at hd'
      obtain ⟨-, hdid⟩ := Registry.find_some hd'
      have hsame : ((w.setLine id out.2).goto p s).line d = w.line d := by
        simp [line, Desk.setLine, Desk.goto, hdid, hi]
      obtain ⟨hold, hnew⟩ := helse i hi
      rw [hsame, hnew]
      exact (h.spsc i d hd').load trivial (fun hx => Bool.noConfusion hx)
        (fun hx => Bool.noConfusion hx)
  · have hi' := (hupdate i).symm.trans hi
    by_cases hid : i = id
    · subst hid
      rw [if_pos rfl, hfind] at hi'
      cases hi'
    · rw [if_neg hid] at hi'
      obtain ⟨hpushes, hdelivered, hidle⟩ := h.unused i hi'
      refine ⟨?_, ?_, fun q => ?_⟩
      · simp [Desk.setLine, Desk.goto, hid, hpushes]
      · simp [Desk.setLine, Desk.goto, hid, hdelivered]
      · rw [hpcs, (helse i hid).2]
        by_cases hq : q = p
        · subst hq
          exact Function.update_self _ _ _
        · exact (Function.update_of_ne hq _ _).trans (hidle q)

/-- A step in the ring's code. -/
theorem transfer (h : w.Lossless) {p : Fin n} {id : Nat} {pc : Pc}
    (hp : w.stage p = .within id pc) : (w.transfer p id pc).Lossless := by
  have hpc : w.pcs id p = pc := by simp [pcs, hp, Stage.on]
  have helse : ∀ i, i ≠ id → w.pcs i p = .idle := by
    intro i hi
    have hne : ¬ id = i := fun heq => hi heq.symm
    simp [pcs, hp, Stage.on, hne]
  unfold Desk.transfer
  split
  · exact h
  case h_2 c hfind =>
    subst hpc
    dsimp only
    split
    case h_1 hidle =>
      have hout := h.setLine (s := .out) hfind hidle.symm (fun i hi => ⟨helse i hi, rfl⟩)
      exact ⟨hout.spsc, hout.unused⟩
    case h_2 =>
      refine h.setLine hfind (by simp [Stage.on]) (fun i hi => ⟨helse i hi, ?_⟩)
      have hne : ¬ id = i := fun heq => hi heq.symm
      simp [Stage.on, hne]

/-- Any step of a transfer. -/
theorem step (h : w.Lossless) {p : Fin n} (hno : NoOverlap w (.step p)) :
    (w.step p).Lossless := by
  unfold Desk.step
  cases hp : w.stage p with
  | out => exact h
  | entered call uid =>
      have hgo := h.goto_idle p (s := .locked call uid) (fun _ => rfl)
      exact ⟨hgo.spsc, hgo.unused⟩
  | locked call uid =>
      refine h.lookup (fun c hfind haccess => ?_)
      simp only [NoOverlap, hp, hfind] at hno
      exact hno haccess
  | within id pc => exact h.transfer hp

/-- A new channel, unless its id is taken, starts with no record. -/
theorem create (h : w.Lossless) (uid : Nat) (name : String) :
    Desk.Lossless { w with reg := (createChannel uid name w.reg).2 } := by
  have hfind : ∀ i, (createChannel uid name w.reg).2.find i =
      (w.reg.find i).or (if w.reg.nextId % 2 ^ 32 = i then
        some ⟨i, name, uid, [], Ring.new⟩ else none) := by
    intro i
    simp only [createChannel, Registry.find, List.find?_append, List.find?_cons, List.find?_nil]
    generalize w.reg.nextId % 2 ^ 32 = fresh
    by_cases hi : fresh = i <;> simp [hi]
  refine ⟨fun i c hc => ?_, fun i hi => ?_⟩
  · have hc' := (hfind i).symm.trans hc
    cases hold : w.reg.find i with
    | some d =>
        rw [hold, Option.some_or] at hc'
        obtain rfl := Option.some.inj hc'
        exact h.spsc i d hold
    | none =>
        rw [hold, Option.none_or] at hc'
        obtain ⟨hpushes, hdelivered, hidle⟩ := h.unused i hold
        split at hc'
        case isFalse => cases hc'
        case isTrue =>
          obtain rfl := Option.some.inj hc'
          have hpcs : w.pcs i = fun _ => .idle := funext hidle
          have hline : w.line ⟨i, name, uid, [], Ring.new⟩ = Line.new := by
            simp [line, Line.new, hpushes, hdelivered]
          have hnew : (w.line ⟨i, name, uid, [], Ring.new⟩).Spsc (w.pcs i) := by
            rw [hline, hpcs]
            exact Line.Spsc.new
          exact hnew
  · have hi' := (hfind i).symm.trans hi
    exact h.unused i (Option.or_eq_none_iff.mp hi').1

/-- A uid is granted access. -/
theorem grant (h : w.Lossless) (caller id uid : Nat) :
    Desk.Lossless { w with reg := (Ipc.grant caller id uid w.reg).2 } := by
  rw [Ipc.grant]
  split
  · exact h
  case h_2 c hfind =>
    split
    · exact h
    · split
      · exact h
      · have hupdate := @Registry.find_update w.reg id
          (fun c => { c with allowed := c.allowed ++ [uid] }) (fun _ => rfl)
        refine ⟨fun i d hd => ?_, fun i hi => ?_⟩
        · have hd' := (hupdate i).symm.trans hd
          split at hd'
          · obtain ⟨e, he, rfl⟩ := Option.map_eq_some_iff.mp hd'
            exact h.spsc i e he
          · exact h.spsc i d hd'
        · have hi' := (hupdate i).symm.trans hi
          split at hi'
          · exact h.unused i (Option.map_eq_none_iff.mp hi')
          · exact h.unused i hi'

end Lossless

end Desk

/-- A line that one at a time have used is intact. -/
theorem Line.Spsc.intact {ι : Type} {l : Line} {pcs : ι → Pc} (h : l.Spsc pcs) : l.Intact := by
  refine ⟨?_, fun x hx => ?_⟩
  · rw [h.holds.contents]
  · rw [h.holds.contents]
    exact (List.sublist_flatten_of_mem (List.mem_map.mpr ⟨x, hx, rfl⟩))

/-- **No accepted byte is lost** in a run where pushes on one channel do not
overlap, nor pops on one channel. -/
theorem channels_lossless {n : Nat} {w : Desk n} (hrun : (channelSystem n).Run NoOverlap w) :
    ∀ id c, w.reg.find id = some c → (w.line c).Intact := by
  have hlossless : w.Lossless := by
    refine hrun.invariant (fun s hboot => ?_) (fun s e t hs hok hnext => ?_)
    · obtain rfl := hboot
      exact Desk.boot_lossless
    · cases e with
      | create uid name =>
          simp only [channelSystem] at hnext
          split at hnext
          case isTrue => exact Option.some.inj hnext ▸ hs.create uid name
          case isFalse => cases hnext
      | grant caller id uid =>
          simp only [channelSystem] at hnext
          split at hnext
          case isTrue => exact Option.some.inj hnext ▸ hs.grant caller id uid
          case isFalse => cases hnext
      | begin p uid call =>
          simp only [channelSystem] at hnext
          split at hnext
          case h_1 => exact Option.some.inj hnext ▸ hs.goto_idle p (fun _ => rfl)
          case h_2 => cases hnext
      | step p => exact Option.some.inj hnext ▸ hs.step hok
  exact fun id c hc => (hlossless.spsc id c hc).intact

/-- A granted process sends twice; the owner receives during the second send. -/
def sampleDeeds : List (Deed 2) :=
  [.create 0 "a", .grant 0 1 1000, .begin 0 1000 (.send 1 [7, 8]), .step 0, .step 0, .step 0,
    .step 0, .step 0, .step 0, .step 0, .begin 0 1000 (.send 1 [9]), .begin 1 0 (.recv 1 64),
    .step 0, .step 1, .step 1, .step 0, .step 0, .step 1, .step 0, .step 1, .step 0, .step 1,
    .step 1, .step 0, .step 1]

/-- Two processes, one sending, one receiving. -/
theorem sample_channels_lossless :
    ∃ w c, (channelSystem 2).execIf NoOverlap (Desk.boot 2) sampleDeeds = some w ∧
      w.reg.find 1 = some c ∧ w.delivered 1 = [7, 8] ∧ c.ring.contents = [9] ∧
      (w.line c).Intact := by
  have hrun : ((channelSystem 2).execIf NoOverlap (Desk.boot 2) sampleDeeds).map
      (fun w => ((w.reg.find 1).map (fun c => c.ring.contents), w.delivered 1)) =
      some (some [9], [7, 8]) := by
    decide +kernel
  obtain ⟨w, hw, heq⟩ := Option.map_eq_some_iff.mp hrun
  obtain ⟨c, hc, hcontents⟩ := Option.map_eq_some_iff.mp (congrArg Prod.fst heq)
  have hreach := TransitionSystem.Run.execIf (TransitionSystem.Run.boot rfl) hw
  exact ⟨w, c, hw, hc, congrArg Prod.snd heq, hcontents, channels_lossless hreach 1 c hc⟩

/-- Owner and granted process send at once: both load the same `head`. -/
def overlappingSends : List (Deed 2) :=
  [.create 0 "a", .grant 0 1 1000, .begin 0 0 (.send 1 [7]), .step 0, .step 0, .step 0, .step 0,
    .begin 1 1000 (.send 1 [8]), .step 1, .step 1, .step 1, .step 1, .step 1, .step 1, .step 0,
    .step 0]

/-- Both sends report one byte, and one byte is in the ring. -/
theorem channels_not_lossless :
    ¬ ∀ n (w : Desk n), (channelSystem n).Reach w →
      ∀ id c, w.reg.find id = some c → (w.line c).Intact := by
  intro hclaim
  have hrun : ((channelSystem 2).exec (Desk.boot 2) overlappingSends).map
      (fun w => (w.reg.find 1).map (fun c =>
        ((w.line c).accepted.length, ((w.line c).delivered ++ c.ring.contents).length))) =
      some (some (2, 1)) := by
    decide +kernel
  obtain ⟨w, hw, heq⟩ := Option.map_eq_some_iff.mp hrun
  obtain ⟨c, hc, hlengths⟩ := Option.map_eq_some_iff.mp heq
  have hreach := TransitionSystem.Reach.exec (TransitionSystem.Run.boot rfl) hw
  have hperm := (hclaim 2 w hreach 1 c hc).once.length_eq
  have hsent : (w.line c).accepted.length = 2 := congrArg Prod.fst hlengths
  have hkept : ((w.line c).delivered ++ c.ring.contents).length = 1 := congrArg Prod.snd hlengths
  have habsurd : (1 : Nat) = 2 := hkept.symm.trans (hperm.trans hsent)
  exact absurd habsurd (by decide)

end Ipc
