import Noxisa.Ring
import Noxisa.TransitionSystem

/-!
# Interleaved pushes and pops

`push` and `pop` step by step: each load, each copied byte and each store is a
step of its own, and the steps of different processes may come in any order.
A store of `head` ends a `push`, a store of `tail` ends a `pop`.

A `Line` is a ring with the record of the finished calls.  `Line.Spsc` is the
invariant of one process pushing and one popping: `Ring.Holds` for the finished
calls, and for each unfinished one what it has loaded and copied so far
(`Pc.Fits`).  A push leaves alone what a pop relies on and the other way round
(`Fits.other_push`, `Fits.other_pop`); two pushes at once would not.
-/

namespace Ipc

open MachineWord

/-- A finished `push`: what it was given and the number of bytes it accepted,
with the number of unread bytes when it loaded `tail` and when it returned. -/
structure Pushed where
  given : List UInt8
  n : Nat
  seen : Nat
  left : Nat

/-- A ring with the pushes and the pops that have finished. -/
structure Line where
  ring : Ring
  pushes : List Pushed
  delivered : List UInt8

/-- A ring that nobody has used. -/
def Line.new : Line := { ring := Ring.new, pushes := [], delivered := [] }

/-- The bytes accepted by `push`. -/
def Line.accepted (l : Line) : List UInt8 := l.pushes.flatMap (fun x => x.given.take x.n)

/-- How many bytes are there to be read. -/
def Line.unread (l : Line) : Nat := l.accepted.length - l.delivered.length

/-- The bytes between the counters. -/
def Ring.contents (r : Ring) : List UInt8 := r.copyOut r.tail r.available

/-- Where a process is, with the local variables of its call. -/
inductive Pc
  | idle
  | pushLoadHead (data : List UInt8)
  | pushLoadTail (data : List UInt8) (head : Nat)
  | pushCopy (data : List UInt8) (head n i seen : Nat)
  | popLoadTail (len : Nat)
  | popLoadHead (len tail : Nat)
  | popCopy (tail n : Nat) (got : List UInt8)
deriving DecidableEq

/-- In the middle of a push. -/
def Pc.pushing : Pc → Bool
  | .pushLoadHead _ | .pushLoadTail _ _ | .pushCopy _ _ _ _ _ => true
  | _ => false

/-- In the middle of a pop. -/
def Pc.popping : Pc → Bool
  | .popLoadTail _ | .popLoadHead _ _ | .popCopy _ _ _ => true
  | _ => false

/-- `head.store(head.wrapping_add(n))`, and the return of `n`. -/
def Line.finishPush (l : Line) (data : List UInt8) (head n seen : Nat) : Line :=
  { l with
    ring := { l.ring with head := add head n }
    pushes := l.pushes ++ [⟨data, n, seen, l.unread + (data.take n).length⟩] }

/-- `tail.store(tail.wrapping_add(n))`, and the return of the bytes. -/
def Line.finishPop (l : Line) (tail n : Nat) (got : List UInt8) : Line :=
  { l with ring := { l.ring with tail := add tail n }, delivered := l.delivered ++ got }

/-- The next step of a call. -/
def Pc.step : Pc → Line → Pc × Line
  | .idle, l => (.idle, l)
  | .pushLoadHead data, l => (.pushLoadTail data l.ring.head, l)
  | .pushLoadTail data head, l =>
      (.pushCopy data head (min data.length (room head l.ring.tail)) 0 l.unread, l)
  | .pushCopy data head n i seen, l =>
      if i < n then
        (.pushCopy data head n (i + 1) seen,
          { l with ring := l.ring.write (slot (add head i)) (data.getD i 0) })
      else (.idle, l.finishPush data head n seen)
  | .popLoadTail len, l => (.popLoadHead len l.ring.tail, l)
  | .popLoadHead len tail, l => (.popCopy tail (min len (slot (sub l.ring.head tail))) [], l)
  | .popCopy tail n got, l =>
      if got.length < n then
        (.popCopy tail n (got ++ [l.ring.buf (slot (add tail got.length))]), l)
      else (.idle, l.finishPop tail n got)

/-- A ring and the processes that use it. -/
structure Users where
  line : Line
  pcs : Nat → Pc

/-- What a process can do. -/
inductive Use
  | push (p : Nat) (data : List UInt8)
  | pop (p len : Nat)
  | step (p : Nat)

/-- A process begins a call, if it is in none. -/
def Users.begin (w : Users) (p : Nat) (pc : Pc) : Option Users :=
  if w.pcs p = .idle then some { w with pcs := Function.update w.pcs p pc } else none

/-- A process makes the next step of its call. -/
def Users.advance (w : Users) (p : Nat) : Users :=
  { line := ((w.pcs p).step w.line).2
    pcs := Function.update w.pcs p ((w.pcs p).step w.line).1 }

/-- A process begins a call when it has none, and then takes its steps. -/
def ringSystem : TransitionSystem Users Use where
  boot := fun w => w = ⟨Line.new, fun _ => .idle⟩
  next := fun w e => match e with
    | .push p data => w.begin p (.pushLoadHead data)
    | .pop p len => w.begin p (.popLoadTail len)
    | .step p => some (w.advance p)

/-- Only `producer` pushes and only `consumer` pops. -/
def OneEach (producer consumer : Nat) (_ : Users) : Use → Prop
  | .push p _ => p = producer
  | .pop p _ => p = consumer
  | .step _ => True

instance (producer consumer : Nat) (w : Users) (e : Use) :
    Decidable (OneEach producer consumer w e) :=
  match e with
  | .push p _ => inferInstanceAs (Decidable (p = producer))
  | .pop p _ => inferInstanceAs (Decidable (p = consumer))
  | .step _ => inferInstanceAs (Decidable True)

/-- What an unfinished call has loaded and copied so far is still right. -/
def Pc.Fits (l : Line) : Pc → Prop
  | .pushLoadTail _ head => head = l.ring.head
  | .pushCopy data head n i seen =>
      head = l.ring.head ∧ n = min data.length (ringSize - 1 - seen) ∧ i ≤ n ∧
        l.unread ≤ seen ∧ seen ≤ ringSize - 1 ∧ l.ring.Filled l.accepted.length (data.take i)
  | .popLoadHead _ tail => tail = l.ring.tail
  | .popCopy tail n got =>
      tail = l.ring.tail ∧ got.length ≤ n ∧ l.delivered.length + n ≤ l.accepted.length ∧
        l.delivered ++ got <+: l.accepted
  | _ => True

/-- A push that took less than it was given left no room that it knew of. -/
def Pushed.Full (x : Pushed) : Prop := x.n < x.given.length → x.n + x.seen = ringSize - 1

/-- **One producer and one consumer at a time.** The ring holds what has been accepted
and not delivered, and those in the middle of a call know it. -/
structure Line.Spsc {ι : Type} (l : Line) (pcs : ι → Pc) : Prop where
  holds : l.ring.Holds l.accepted l.delivered
  fits : ∀ p, (pcs p).Fits l
  one_push : ∀ p q, (pcs p).pushing → (pcs q).pushing → p = q
  one_pop : ∀ p q, (pcs p).popping → (pcs q).popping → p = q
  full : ∀ x ∈ l.pushes, x.Full

/-- A push that ends has accepted the first `n` bytes. -/
theorem Line.accepted_finishPush (l : Line) (data : List UInt8) (head n seen : Nat) :
    (l.finishPush data head n seen).accepted = l.accepted ++ data.take n := by
  simp [Line.accepted, Line.finishPush]

/-- The bytes in a ring are the accepted ones that were not delivered. -/
theorem Ring.Holds.contents {r : Ring} {acc del : List UInt8} (h : r.Holds acc del) :
    del ++ r.contents = acc := by
  have hle := h.le
  obtain ⟨rest, rfl⟩ := h.popped
  rw [Ring.contents, h.copyOut (by rw [h.available]; omega), h.available, List.drop_left]
  simp

/-- What a pop relies on is kept by a push. -/
theorem Pc.Fits.other_push {l l' : Line} {pc : Pc} (h : pc.Fits l) (hpc : pc.pushing = false)
    (htail : l'.ring.tail = l.ring.tail) (hdel : l'.delivered = l.delivered)
    (hacc : l.accepted <+: l'.accepted) : pc.Fits l' := by
  cases pc with
  | idle => trivial
  | pushLoadHead data => cases hpc
  | pushLoadTail data head => cases hpc
  | pushCopy data head n i seen => cases hpc
  | popLoadTail len => trivial
  | popLoadHead len tail => exact h.trans htail.symm
  | popCopy tail n got =>
      obtain ⟨ht, hgot, hn, hread⟩ := h
      have hlen := hacc.length_le
      refine ⟨ht.trans htail.symm, hgot, ?_, ?_⟩
      · rw [hdel]
        omega
      · rw [hdel]
        exact hread.trans hacc

/-- What a push relies on is kept by a pop. -/
theorem Pc.Fits.other_pop {l l' : Line} {pc : Pc} (h : pc.Fits l) (hpc : pc.popping = false)
    (hhead : l'.ring.head = l.ring.head) (hbuf : l'.ring.buf = l.ring.buf)
    (hacc : l'.accepted = l.accepted) (hunread : l'.unread ≤ l.unread) : pc.Fits l' := by
  cases pc with
  | idle => trivial
  | pushLoadHead data => trivial
  | pushLoadTail data head => exact h.trans hhead.symm
  | pushCopy data head n i seen =>
      obtain ⟨hh, hn, hi, hseen, hsize, hfilled⟩ := h
      refine ⟨hh.trans hhead.symm, hn, hi, hunread.trans hseen, hsize, ?_⟩
      rw [hacc]
      intro j hj
      rw [hbuf]
      exact hfilled j hj
  | popLoadTail len => cases hpc
  | popLoadHead len tail => cases hpc
  | popCopy tail n got => cases hpc

/-- One process going on to `pc`, seen by what holds of all processes in a role. -/
theorem role_update {ι : Type} [DecidableEq ι] {pcs : ι → Pc} {role : Pc → Bool}
    {P : ι → Prop} {p : ι} {pc : Pc}
    (h : ∀ q, role (pcs q) → P q) (hpc : role pc → P p) :
    ∀ q, role (Function.update pcs p pc q) → P q := by
  intro q hq
  by_cases heq : q = p
  · subst heq
    rw [Function.update_self] at hq
    exact hpc hq
  · rw [Function.update_of_ne heq] at hq
    exact h q hq

namespace Line.Spsc

variable {ι : Type} [DecidableEq ι] {l : Line} {pcs : ι → Pc}

omit [DecidableEq ι] in
/-- Nobody has done anything yet. -/
theorem new : Line.new.Spsc (fun _ : ι => .idle) :=
  ⟨Ring.new_holds, fun _ => trivial, fun _ _ h => Bool.noConfusion h,
    fun _ _ h => Bool.noConfusion h, fun _ h => absurd h List.not_mem_nil⟩

/-- The processes after `p` has gone on to `pc`. -/
theorem moved (h : l.Spsc pcs) {l' : Line} {p : ι} {pc : Pc}
    (hholds : l'.ring.Holds l'.accepted l'.delivered) (hfits : pc.Fits l')
    (hothers : ∀ q, q ≠ p → (pcs q).Fits l')
    (hpush : pc.pushing → (pcs p).pushing) (hpop : pc.popping → (pcs p).popping)
    (hfull : ∀ x ∈ l'.pushes, x.Full) : l'.Spsc (Function.update pcs p pc) := by
  have hpushing : ∀ q, (Function.update pcs p pc q).pushing → (pcs q).pushing :=
    role_update (fun _ hq => hq) hpush
  have hpopping : ∀ q, (Function.update pcs p pc q).popping → (pcs q).popping :=
    role_update (fun _ hq => hq) hpop
  refine ⟨hholds, fun q => ?_, fun q r hq hr => h.one_push q r (hpushing q hq) (hpushing r hr),
    fun q r hq hr => h.one_pop q r (hpopping q hq) (hpopping r hr), hfull⟩
  by_cases heq : q = p
  · subst heq
    rw [Function.update_self]
    exact hfits
  · rw [Function.update_of_ne heq]
    exact hothers q heq

omit [DecidableEq ι] in
/-- While `p` pushes nobody else does. -/
theorem not_pushing (h : l.Spsc pcs) {p q : ι} (hp : (pcs p).pushing) (hne : q ≠ p) :
    (pcs q).pushing = false := by
  by_contra hq
  rw [Bool.not_eq_false] at hq
  exact hne (h.one_push q p hq hp)

omit [DecidableEq ι] in
/-- Only one process is popping. -/
private theorem not_popping (h : l.Spsc pcs) {p q : ι} (hp : (pcs p).popping) (hne : q ≠ p) :
    (pcs q).popping = false := by
  by_contra hq
  rw [Bool.not_eq_false] at hq
  exact hne (h.one_pop q p hq hp)

/-- A load. -/
theorem load (h : l.Spsc pcs) {p : ι} {pc : Pc} (hfits : pc.Fits l)
    (hpush : pc.pushing → (pcs p).pushing) (hpop : pc.popping → (pcs p).popping) :
    l.Spsc (Function.update pcs p pc) :=
  h.moved h.holds hfits (fun q _ => h.fits q) hpush hpop h.full

/-- A call begins, with no other of its kind unfinished. -/
theorem begin (h : l.Spsc pcs) {p : ι} {pc : Pc} (hfits : pc.Fits l)
    (hpush : pc.pushing → ∀ q, ¬ (pcs q).pushing) (hpop : pc.popping → ∀ q, ¬ (pcs q).popping) :
    l.Spsc (Function.update pcs p pc) := by
  have hone : ∀ role : Pc → Bool, (role pc → ∀ q, ¬ role (pcs q)) →
      (∀ q r, role (pcs q) → role (pcs r) → q = r) →
      ∀ q r, role (Function.update pcs p pc q) → role (Function.update pcs p pc r) → q = r := by
    intro role hpc hold q r hq hr
    by_cases hnew : role pc
    · have honly : ∀ q, role (Function.update pcs p pc q) → q = p :=
        role_update (fun q hq => absurd hq (hpc hnew q)) (fun _ => rfl)
      exact (honly q hq).trans (honly r hr).symm
    · have hpast : ∀ q, role (Function.update pcs p pc q) → role (pcs q) :=
        role_update (fun _ hq => hq) (fun hno => absurd hno hnew)
      exact hold q r (hpast q hq) (hpast r hr)
  refine ⟨h.holds, fun q => ?_, hone _ hpush h.one_push, hone _ hpop h.one_pop, h.full⟩
  by_cases hq : q = p
  · subst hq
    rw [Function.update_self]
    exact hfits
  · rw [Function.update_of_ne hq]
    exact h.fits q

/-- A byte copied by `push`. -/
theorem copy (h : l.Spsc pcs) {p : ι} {data : List UInt8} {head n i seen : Nat}
    (hp : pcs p = .pushCopy data head n i seen) (hi : i < n) :
    Line.Spsc { l with ring := l.ring.write (slot (add head i)) (data.getD i 0) }
      (Function.update pcs p (.pushCopy data head n (i + 1) seen)) := by
  have hpushing : (pcs p).pushing := by rw [hp]; rfl
  have hfits := h.fits p
  rw [hp] at hfits
  obtain ⟨hhead, hn, -, hseen, hsize, hfilled⟩ := hfits
  have hlt : i < data.length := by omega
  have hlen : (data.take i).length = i := by
    rw [List.length_take]
    omega
  have hroom : l.accepted.length - l.delivered.length ≤ seen := hseen
  have hslot : slot (add head i) = (l.accepted.length + i) % ringSize := by
    rw [hhead, h.holds.head, slot_add]
  have hbyte : data.getD i 0 = data[i] := by simp [hlt]
  rw [hslot, hbyte]
  have hle := h.holds.le
  have hwrite := h.holds.write (k := l.accepted.length + i) (Nat.le_add_right _ _)
    (by simp only [ringSize] at hn hsize ⊢; omega) data[i]
  have hnext := hfilled.write (by rw [hlen]; simp only [ringSize] at hn ⊢; omega) data[i]
  rw [hlen, List.take_append_getElem hlt] at hnext
  refine h.moved hwrite ⟨hhead, hn, hi, hseen, hsize, hnext⟩ (fun q hq => ?_) (fun _ => hpushing)
    (fun hno => Bool.noConfusion hno) h.full
  exact (h.fits q).other_push (h.not_pushing hpushing hq) rfl rfl (List.prefix_refl _)

/-- The end of a `push`. -/
theorem finishPush (h : l.Spsc pcs) {p : ι} {data : List UInt8} {head n i seen : Nat}
    (hp : pcs p = .pushCopy data head n i seen) (hi : ¬ i < n) :
    (l.finishPush data head n seen).Spsc (Function.update pcs p .idle) := by
  have hpushing : (pcs p).pushing := by rw [hp]; rfl
  have hfits := h.fits p
  rw [hp] at hfits
  obtain ⟨hhead, hn, hin, hseen, hsize, hfilled⟩ := hfits
  obtain rfl : i = n := Nat.le_antisymm hin (Nat.le_of_not_lt hi)
  have hlen : (data.take i).length = i := by
    rw [List.length_take]
    omega
  have hroom : l.accepted.length - l.delivered.length ≤ seen := hseen
  have hpublish := h.holds.publish (by rw [hlen]; omega) hfilled
  rw [hlen, ← hhead, ← l.accepted_finishPush data head i seen] at hpublish
  refine h.moved hpublish trivial (fun q hq => ?_) (fun hno => Bool.noConfusion hno)
    (fun hno => Bool.noConfusion hno) (fun x hx => ?_)
  · refine (h.fits q).other_push (h.not_pushing hpushing hq) rfl rfl ?_
    rw [l.accepted_finishPush]
    exact List.prefix_append _ _
  · rcases List.mem_append.mp hx with hold | hlast
    · exact h.full x hold
    · rw [List.mem_singleton.mp hlast]
      intro hless
      dsimp only at hless ⊢
      omega

/-- A byte copied by `pop`. -/
theorem read (h : l.Spsc pcs) {p : ι} {tail n : Nat} {got : List UInt8}
    (hp : pcs p = .popCopy tail n got) (hlt : got.length < n) :
    l.Spsc (Function.update pcs p
      (.popCopy tail n (got ++ [l.ring.buf (slot (add tail got.length))]))) := by
  have hfits := h.fits p
  rw [hp] at hfits
  obtain ⟨htail, -, hn, hread⟩ := hfits
  have hbyte := h.holds.read (i := got.length) (by omega)
  rw [← htail] at hbyte
  refine h.load ⟨htail, ?_, hn, ?_⟩ (fun hno => Bool.noConfusion hno) (fun _ => by rw [hp]; rfl)
  · rw [List.length_append, List.length_singleton]
    exact hlt
  · rw [hbyte, ← List.append_assoc]
    have hsoFar : l.delivered ++ got = l.accepted.take (l.delivered.length + got.length) := by
      rw [List.prefix_iff_eq_take.mp hread, List.length_append]
    have hidx : l.delivered.length + got.length < l.accepted.length := by omega
    rw [hsoFar, List.take_append_getElem hidx]
    exact List.take_prefix _ _

/-- The end of a `pop`. -/
theorem finishPop (h : l.Spsc pcs) {p : ι} {tail n : Nat} {got : List UInt8}
    (hp : pcs p = .popCopy tail n got) (hlt : ¬ got.length < n) :
    (l.finishPop tail n got).Spsc (Function.update pcs p .idle) := by
  have hpopping : (pcs p).popping := by rw [hp]; rfl
  have hfits := h.fits p
  rw [hp] at hfits
  obtain ⟨htail, hle, -, hread⟩ := hfits
  obtain rfl : got.length = n := Nat.le_antisymm hle (Nat.le_of_not_lt hlt)
  have hconsume := h.holds.consume hread
  rw [← htail] at hconsume
  refine h.moved hconsume trivial (fun q hq => ?_) (fun hno => Bool.noConfusion hno)
    (fun hno => Bool.noConfusion hno) h.full
  refine (h.fits q).other_pop (h.not_popping hpopping hq) rfl rfl rfl ?_
  simp only [Line.unread, Line.finishPop, Line.accepted, List.length_append]
  omega

/-- **One step of one process.** -/
theorem step (h : l.Spsc pcs) (p : ι) :
    ((pcs p).step l).2.Spsc (Function.update pcs p ((pcs p).step l).1) := by
  have hroom := h.holds.room
  have havail := h.holds.available
  have hle := h.holds.unread_le
  have hlen := h.holds.le
  cases hp : pcs p with
  | idle => exact h.load trivial (fun hno => Bool.noConfusion hno) (fun hno => Bool.noConfusion hno)
  | pushLoadHead data =>
      exact h.load rfl (fun _ => by rw [hp]; rfl) (fun hno => Bool.noConfusion hno)
  | pushLoadTail data head =>
      have hhead := h.fits p
      rw [hp] at hhead
      refine h.load ⟨hhead, ?_, Nat.zero_le _, Nat.le_refl _, hle, ?_⟩ (fun _ => by rw [hp]; rfl)
        (fun hno => Bool.noConfusion hno)
      · rw [hhead, hroom]
        rfl
      · exact l.ring.filled_nil _
  | pushCopy data head n i seen =>
      by_cases hi : i < n
      · simp only [Pc.step, if_pos hi]
        exact h.copy hp hi
      · simp only [Pc.step, if_neg hi]
        exact h.finishPush hp hi
  | popLoadTail len =>
      exact h.load rfl (fun hno => Bool.noConfusion hno) (fun _ => by rw [hp]; rfl)
  | popLoadHead len tail =>
      have htail := h.fits p
      rw [hp] at htail
      rw [Ring.available] at havail
      refine h.load ⟨htail, Nat.zero_le _, ?_, ?_⟩ (fun hno => Bool.noConfusion hno)
        (fun _ => by rw [hp]; rfl)
      · rw [htail, havail]
        omega
      · rw [List.append_nil]
        exact h.holds.popped
  | popCopy tail n got =>
      by_cases hlt : got.length < n
      · simp only [Pc.step, if_pos hlt]
        exact h.read hp hlt
      · simp only [Pc.step, if_neg hlt]
        exact h.finishPop hp hlt

end Line.Spsc

/-- The invariant of the runs of `OneEach`. -/
structure Users.Separate (producer consumer : Nat) (w : Users) : Prop where
  spsc : w.line.Spsc w.pcs
  pushing : ∀ p, (w.pcs p).pushing → p = producer
  popping : ∀ p, (w.pcs p).popping → p = consumer

/-- A step begins no call. -/
theorem Pc.step_roles (pc : Pc) (l : Line) :
    ((pc.step l).1.pushing → pc.pushing) ∧ ((pc.step l).1.popping → pc.popping) := by
  cases pc with
  | pushCopy data head n i seen =>
      rw [Pc.step]
      split <;> simp [Pc.pushing, Pc.popping]
  | popCopy tail n got =>
      rw [Pc.step]
      split <;> simp [Pc.pushing, Pc.popping]
  | _ => simp [Pc.step, Pc.pushing, Pc.popping]

namespace Users.Separate

variable {producer consumer : Nat} {w w' : Users}

/-- A process begins a call of its own kind. -/
theorem begin (h : w.Separate producer consumer) {p : Nat} {pc : Pc}
    (hpush : pc.pushing → p = producer) (hpop : pc.popping → p = consumer)
    (hfits : pc.Fits w.line) (hnext : w.begin p pc = some w') :
    w'.Separate producer consumer := by
  unfold Users.begin at hnext
  split at hnext
  case isFalse => cases hnext
  case isTrue hidle =>
    obtain rfl := Option.some.inj hnext
    have hquiet : (w.pcs p).pushing = false ∧ (w.pcs p).popping = false := by
      rw [hidle]
      exact ⟨rfl, rfl⟩
    refine ⟨h.spsc.begin hfits (fun hpc q hq => ?_) (fun hpc q hq => ?_),
      role_update h.pushing hpush, role_update h.popping hpop⟩
    · rw [(h.pushing q hq).trans (hpush hpc).symm, hquiet.1] at hq
      exact Bool.noConfusion hq
    · rw [(h.popping q hq).trans (hpop hpc).symm, hquiet.2] at hq
      exact Bool.noConfusion hq

/-- **One step** of any process keeps the line. -/
theorem advance (h : w.Separate producer consumer) (p : Nat) :
    (w.advance p).Separate producer consumer := by
  obtain ⟨hpush, hpop⟩ := Pc.step_roles (w.pcs p) w.line
  exact ⟨h.spsc.step p, role_update h.pushing (fun hq => h.pushing p (hpush hq)),
    role_update h.popping (fun hq => h.popping p (hpop hq))⟩

end Users.Separate

/-- **Every run** of one producer and one consumer does. -/
theorem run_separate {producer consumer : Nat} {w : Users}
    (hrun : ringSystem.Run (OneEach producer consumer) w) : w.Separate producer consumer := by
  refine hrun.invariant (fun s hboot => ?_) (fun s e t hs hok hnext => ?_)
  · obtain rfl := hboot
    exact ⟨Line.Spsc.new, fun _ h => Bool.noConfusion h, fun _ h => Bool.noConfusion h⟩
  · cases e with
    | push p data =>
        have hfits : (Pc.pushLoadHead data).Fits s.line := trivial
        exact hs.begin (fun _ => hok) (fun h => Bool.noConfusion h) hfits hnext
    | pop p len =>
        have hfits : (Pc.popLoadTail len).Fits s.line := trivial
        exact hs.begin (fun h => Bool.noConfusion h) (fun _ => hok) hfits hnext
    | step p =>
        obtain rfl := Option.some.inj hnext
        exact hs.advance p

/-- **The ring is a bounded FIFO** for one process pushing and one popping, at
every step of either.  What was popped is a prefix of what was pushed, the rest
is in the ring, and a push that accepts less than it is given fills the ring as
it was when the push loaded `tail`. -/
theorem ring_is_bounded_fifo {producer consumer : Nat} {w : Users}
    (hrun : ringSystem.Run (OneEach producer consumer) w) :
    w.line.delivered <+: w.line.accepted ∧
      w.line.delivered ++ w.line.ring.contents = w.line.accepted ∧
      w.line.ring.available = w.line.unread ∧ w.line.unread ≤ ringSize - 1 ∧
      ∀ x ∈ w.line.pushes, x.Full := by
  have h := (run_separate hrun).spsc
  exact ⟨h.holds.popped, h.holds.contents, h.holds.available, h.holds.unread_le, h.full⟩

/-- The copy loop of a push that nothing interrupts. -/
theorem exec_copy {w : Users} {p : Nat} {data : List UInt8} {head n i seen : Nat}
    (hp : w.pcs p = .pushCopy data head n i seen) (hi : i ≤ n) (hn : n ≤ data.length) :
    ringSystem.exec w (List.replicate (n - i + 1) (.step p)) =
      some ⟨({ w.line with ring := w.line.ring.copyIn head i ((data.take n).drop i) } :
        Line).finishPush data head n seen, Function.update w.pcs p .idle⟩ := by
  generalize hk : n - i = k
  induction k generalizing w i with
  | zero =>
      obtain rfl : i = n := by omega
      have hdone : (data.take i).drop i = [] := by simp
      have hlt : ¬ i < i := Nat.lt_irrefl i
      simp [TransitionSystem.exec, ringSystem, Users.advance, hp, Pc.step, hdone, Ring.copyIn]
  | succ k ih =>
      have hlt : i < n := by omega
      have hrest : (data.take n).drop i = data.getD i 0 :: (data.take n).drop (i + 1) := by
        rw [List.drop_eq_getElem_cons (by simp; omega)]
        simp [List.getElem_take, Nat.lt_of_lt_of_le hlt hn]
      have hnext := @ih (w.advance p) (i + 1)
        (by simp [Users.advance, hp, Pc.step, hlt]) hlt (by omega)
      rw [List.replicate_succ, TransitionSystem.exec]
      refine Eq.trans hnext ?_
      simp [Users.advance, hp, Pc.step, hlt, hrest, Ring.copyIn]

/-- A call of `push` that nothing interrupts is `Ring.push`. -/
theorem exec_push {w : Users} {p : Nat} (hidle : w.pcs p = .idle) (data : List UInt8) :
    ∃ t, ringSystem.exec w
        (.push p data :: List.replicate ((w.line.ring.push data).1 + 3) (.step p)) = some t ∧
      t.line.ring = (w.line.ring.push data).2 ∧ t.pcs p = .idle ∧
      t.line.accepted = w.line.accepted ++ data.take (w.line.ring.push data).1 := by
  let n := min data.length (room w.line.ring.head w.line.ring.tail)
  let start : Users := ⟨w.line, Function.update (Function.update (Function.update w.pcs p
    (.pushLoadHead data)) p (.pushLoadTail data w.line.ring.head)) p
    (.pushCopy data w.line.ring.head n 0 w.line.unread)⟩
  have hloads : ringSystem.exec w [.push p data, .step p, .step p] = some start := by
    simp [TransitionSystem.exec, ringSystem, Users.begin, Users.advance, hidle, Pc.step, start, n]
  have hstart : start.pcs p = .pushCopy data w.line.ring.head n 0 w.line.unread :=
    Function.update_self _ _ _
  have hcopy := exec_copy hstart (Nat.zero_le n) (Nat.min_le_left _ _)
  have hevents : Use.push p data :: List.replicate ((w.line.ring.push data).1 + 3) (.step p) =
      [.push p data, .step p, .step p] ++ List.replicate (n - 0 + 1) (.step p) := by
    rw [List.cons_append, List.cons_append, List.cons_append, List.nil_append,
      ← List.replicate_succ, ← List.replicate_succ]
    rfl
  have hrun := (TransitionSystem.exec_append hloads).trans hcopy
  rw [← hevents] at hrun
  exact ⟨_, hrun, rfl, Function.update_self p Pc.idle start.pcs, Line.accepted_finishPush _ _ _ _ _⟩

/-- The consumer reads between the steps of the producer. -/
theorem sample_ring_is_bounded_fifo :
    ∃ w, ringSystem.execIf (OneEach 0 1) ⟨Line.new, fun _ => .idle⟩
        [.push 0 [7, 8], .step 0, .step 0, .step 0, .pop 1 64, .step 1, .step 0, .step 0,
          .step 1, .step 1, .push 0 [9], .step 0, .step 1, .step 1] = some w ∧
      w.line.delivered = [7, 8] ∧ w.line.ring.available = w.line.unread := by
  have hrun : (ringSystem.execIf (OneEach 0 1) ⟨Line.new, fun _ => .idle⟩
      [.push 0 [7, 8], .step 0, .step 0, .step 0, .pop 1 64, .step 1, .step 0, .step 0,
        .step 1, .step 1, .push 0 [9], .step 0, .step 1, .step 1]).map
      (fun w => w.line.delivered) = some [7, 8] := by
    decide +kernel
  obtain ⟨w, hw, hdelivered⟩ := Option.map_eq_some_iff.mp hrun
  have hreach := TransitionSystem.Run.execIf (TransitionSystem.Run.boot rfl) hw
  exact ⟨w, hw, hdelivered, (ring_is_bounded_fifo hreach).2.2.1⟩

/-- The producer loads `tail` while one byte is unread; the consumer then pops
it, and the push still accepts one byte less than it is given. -/
def staleCalls (data : List UInt8) : List Use :=
  [.push 0 [0], .step 0, .step 0, .step 0, .step 0, .push 0 data, .step 0, .step 0,
    .pop 1 1, .step 1, .step 1, .step 1, .step 1]

/-- The consumer empties the ring after the producer has looked at it. -/
theorem exec_staleCalls (data : List UInt8) :
    (ringSystem.execIf (OneEach 0 1) ⟨Line.new, fun _ => .idle⟩ (staleCalls data)).map
        (fun w => (w.pcs 0, w.line.pushes, w.line.delivered.length)) =
      some (.pushCopy data 1 (min data.length 4094) 0 1, [⟨[0], 1, 0, 1⟩], 1) := by
  have hempty : room 0 0 = 4095 := by decide +kernel
  have hstale : room 1 0 = 4094 := by decide +kernel
  have havail : slot (sub 1 0) = 1 := by decide +kernel
  have hadd : add 0 1 = 1 := by decide +kernel
  simp [staleCalls, TransitionSystem.execIf, ringSystem, OneEach, Users.begin, Users.advance,
    Pc.step, Line.new, Ring.new, hempty, hstale, havail, hadd, Line.finishPush, Line.finishPop,
    Line.unread, Line.accepted, Ring.write]

/-- A push may accept fewer bytes than it is given although the ring does not
become full. -/
theorem short_push_not_full :
    ¬ ∀ (producer consumer : Nat) (w : Users), ringSystem.Run (OneEach producer consumer) w →
      ∀ x ∈ w.line.pushes, x.n < x.given.length → x.left = ringSize - 1 := by
  intro hclaim
  let data : List UInt8 := List.replicate 4095 0
  have hlen : data.length = 4095 := List.length_replicate
  obtain ⟨w, hw, heq⟩ := Option.map_eq_some_iff.mp (exec_staleCalls data)
  simp only [Prod.mk.injEq] at heq
  obtain ⟨hpc, hpushes, hdelivered⟩ := heq
  have hmin : min data.length 4094 = 4094 := by
    rw [hlen]
    decide
  rw [hmin] at hpc
  have hcopy := exec_copy hpc (Nat.zero_le _) (by rw [hlen]; decide)
  have hsteps : ∀ e ∈ List.replicate (4094 - 0 + 1) (Use.step 0), ∀ s, OneEach 0 1 s e :=
    fun e he s => (List.eq_of_mem_replicate he).symm ▸ True.intro
  have hreach := (TransitionSystem.Run.execIf (TransitionSystem.Run.boot rfl) hw).exec hsteps hcopy
  have hlast := hclaim 0 1 _ hreach ⟨data, 4094, 1, 4094⟩
  simp [Line.finishPush, Line.unread, Line.accepted, hpushes, hdelivered, hlen, ringSize] at hlast

end Ipc
