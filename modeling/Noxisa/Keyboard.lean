import Noxisa.PhaseRing
import Noxisa.TransitionSystem

/-!
# The keyboard buffer under interrupts

The model of `drivers/keyboard.rs` and of `Ps2Keyboard` in `hal/input.rs`.  The
keyboard interrupt writes at `HEAD` and `read_scancode` reads at `TAIL`, both
counters of one byte; nothing locks the buffer, so the interrupt may come between
any two accesses of the reader.  The interrupt itself is not interrupted, and
there is one reader at a time, under the lock of the registry.

`input_in_order` says that this needs no lock: what is read is what was
buffered, in the same order and each scancode once.
-/

namespace Keyboard

open PhaseRing

/-- The scancode buffer. -/
structure Keybuf where
  keybuf : Nat → UInt8
  head : Nat
  tail : Nat

/-- `wrapping_add(1)` on a byte -/
def wrappingSucc (x : Nat) : Nat := (x + 1) % 256

/-- `handle_irq`, with the scancode that the port holds. -/
def Keybuf.handleIrq (k : Keybuf) (sc : UInt8) : Keybuf :=
  let next := wrappingSucc k.head
  if next ≠ k.tail then { k with keybuf := Function.update k.keybuf k.head sc, head := next }
  else k

/-- What the keys of scancode set 1 stand for; 0 is no character. -/
def asciiTable : List UInt8 :=
  [0x00, 0x1B, 0x31, 0x32, 0x33, 0x34, 0x35, 0x36, 0x37, 0x38, 0x39, 0x30, 0x2D, 0x3D, 0x08, 0x09,
   0x71, 0x77, 0x65, 0x72, 0x74, 0x79, 0x75, 0x69, 0x6F, 0x70, 0x5B, 0x5D, 0x0A, 0x00,
   0x61, 0x73, 0x64, 0x66, 0x67, 0x68, 0x6A, 0x6B, 0x6C, 0x3B, 0x27, 0x60, 0x00, 0x5C,
   0x7A, 0x78, 0x63, 0x76, 0x62, 0x6E, 0x6D, 0x2C, 0x2E, 0x2F, 0x00, 0x2A, 0x00, 0x20]

/-- `scancode_to_ascii` (keyboard.rs:42): make codes of the table, less those without a
letter. -/
def scancodeToAscii (sc : UInt8) : Option UInt8 :=
  if sc &&& 0x80 ≠ 0 then none
  else
    match asciiTable[sc.toNat]? with
    | some c => if c ≠ 0 then some c else none
    | none => none

/-- Where `read_scancode` is: before it loads `HEAD`, before it compares that
with `TAIL`, before it loads the byte at `TAIL`, and before it stores to `TAIL`. -/
inductive Pc
  | load
  | compare (head : Nat)
  | fetch
  | advance (sc : UInt8)
deriving DecidableEq

/-- A scancode that an interrupt has delivered, and whether it was buffered. -/
structure Delivery where
  scancode : UInt8
  buffered : Bool
deriving DecidableEq

/-- A call of `poll_char` that has returned: how many scancodes were unread when
it looked, what `read_scancode` gave it, and what it returned. -/
structure Poll where
  unread : Nat
  scancode : Option UInt8
  char : Option UInt8
deriving DecidableEq

/-- The keyboard and one core: the ring, where its reader is, and what has been
delivered and read so far. -/
structure Input where
  buf : Keybuf
  pc : Pc
  /-- unread scancodes when the call loaded `HEAD` -/
  seen : Nat
  /-- all that interrupts have delivered -/
  irqs : List Delivery
  /-- all calls that have returned -/
  polls : List Poll

namespace Input

/-- The scancodes that were buffered. -/
def buffered (s : Input) : List UInt8 := (s.irqs.filter (·.buffered)).map (·.scancode)

/-- The scancodes that were read. -/
def read (s : Input) : List UInt8 := s.polls.filterMap (·.scancode)

/-- The scancodes that have not been read. -/
def unread (s : Input) : Nat := s.buffered.length - s.read.length

/-- The interrupt. -/
def irq (s : Input) (sc : UInt8) : Input :=
  { s with
    buf := s.buf.handleIrq sc
    irqs := s.irqs ++ [⟨sc, decide (wrappingSucc s.buf.head ≠ s.buf.tail)⟩] }

/-- `poll_char` returns. -/
def finish (s : Input) (scancode : Option UInt8) : Input :=
  { s with
    pc := .load
    polls := s.polls ++ [⟨s.seen, scancode, scancode.bind scancodeToAscii⟩] }

/-- The next access of the reader. -/
def step (s : Input) : Input :=
  match s.pc with
  | .load => { s with pc := .compare s.buf.head, seen := s.unread }
  | .compare head => if head = s.buf.tail then s.finish none else { s with pc := .fetch }
  | .fetch => { s with pc := .advance (s.buf.keybuf s.buf.tail) }
  | .advance sc =>
      { s with buf := { s.buf with tail := wrappingSucc s.buf.tail } }.finish (some sc)

end Input

/-- An interrupt of the keyboard, or the next instruction of the reader. -/
inductive Event
  | irq (sc : UInt8)
  | step
deriving DecidableEq

/-- The buffer at boot. -/
def Input.new : Input where
  buf := ⟨fun _ => 0, 0, 0⟩
  pc := .load
  seen := 0
  irqs := []
  polls := []

/-- Interrupts come between any two instructions of the reader. -/
def inputSystem : TransitionSystem Input Event where
  boot := fun s => s = .new
  next := fun s e =>
    match e with
    | .irq sc => some (s.irq sc)
    | .step => some s.step

/-- The buffer after `put` was written to it and `got` read. -/
structure Keybuf.Holds (k : Keybuf) (put got : List UInt8) : Prop where
  read : got <+: put
  room : put.length - got.length ≤ 255
  head : k.head = put.length % 256
  tail : k.tail = got.length % 256
  recent : Recent 256 k.keybuf put

/-- What the reader has in its hands. -/
def Pc.Fits (put got : List UInt8) (seen : Nat) : Pc → Prop
  | .load => True
  | .compare head => head = (got.length + seen) % 256 ∧ got.length + seen ≤ put.length
  | .fetch => 0 < seen ∧ got.length + seen ≤ put.length
  | .advance sc => 0 < seen ∧ put[got.length]? = some sc

/-- The invariant. -/
structure Input.Coherent (s : Input) : Prop where
  holds : s.buf.Holds s.buffered s.read
  fits : s.pc.Fits s.buffered s.read s.seen
  empty : ∀ c ∈ s.polls, c.scancode = none ↔ c.unread = 0
  chars : ∀ c ∈ s.polls, c.char = c.scancode.bind scancodeToAscii

section

variable {k : Keybuf} {put got : List UInt8} {sc : UInt8} {s : Input}

/-- The interrupt finds room exactly when fewer than 255 scancodes are unread. -/
theorem Keybuf.Holds.room_iff (h : k.Holds put got) :
    wrappingSucc k.head ≠ k.tail ↔ put.length - got.length < 255 := by
  have hle := h.read.length_le
  have hroom := h.room
  unfold wrappingSucc
  rw [h.head, h.tail]
  omega

/-- An interrupt with room puts its scancode in the ring. -/
theorem Keybuf.Holds.irq_buffered (h : k.Holds put got) (hroom : wrappingSucc k.head ≠ k.tail) :
    (k.handleIrq sc).Holds (put ++ [sc]) got := by
  have hless := h.room_iff.mp hroom
  have hle := h.read.length_le
  unfold Keybuf.handleIrq
  rw [if_pos hroom]
  refine ⟨h.read.trans (List.prefix_append _ _), ?_, ?_, h.tail, ?_⟩
  · simp only [List.length_append, List.length_singleton]
    omega
  · simp only [wrappingSucc, h.head, List.length_append, List.length_singleton]
    omega
  · rw [h.head]
    exact h.recent.write sc

/-- An interrupt on a full ring drops it. -/
theorem Keybuf.Holds.irq_dropped (h : k.Holds put got) (hfull : ¬ wrappingSucc k.head ≠ k.tail) :
    (k.handleIrq sc).Holds put got := by
  unfold Keybuf.handleIrq
  rw [if_neg hfull]
  exact h

/-- The byte at `TAIL` is the oldest that is unread. -/
theorem Keybuf.Holds.oldest (h : k.Holds put got) (hlt : got.length < put.length) :
    put[got.length]? = some (k.keybuf k.tail) := by
  have hget := List.getElem?_eq_getElem hlt
  have hroom := h.room
  rw [h.tail, h.recent _ _ hget (by omega)]
  exact hget

/-- `TAIL` moves on behind the byte that was read. -/
theorem Keybuf.Holds.advance (h : k.Holds put got) (hget : put[got.length]? = some sc) :
    { k with tail := wrappingSucc k.tail }.Holds put (got ++ [sc]) := by
  obtain ⟨rest, rfl⟩ := h.read
  have hhead : rest.head? = some sc := by
    rw [← hget, List.getElem?_append_right (Nat.le_refl _), Nat.sub_self, List.head?_eq_getElem?]
  obtain ⟨rest', rfl⟩ := List.head?_eq_some_iff.mp hhead
  have hroom := h.room
  refine ⟨⟨rest', by simp⟩, ?_, h.head, ?_, h.recent⟩
  · simp only [List.length_append, List.length_cons, List.length_nil] at hroom ⊢
    omega
  · simp only [wrappingSucc, h.tail, List.length_append, List.length_cons, List.length_nil]
    omega

/-- New scancodes do not disturb the reader. -/
theorem Pc.Fits.irq {pc : Pc} {seen : Nat} (h : pc.Fits put got seen) :
    pc.Fits (put ++ [sc]) got seen := by
  have hlen : (put ++ [sc]).length = put.length + 1 := by simp
  cases pc with
  | load => trivial
  | compare head => exact ⟨h.1, by have := h.2; omega⟩
  | fetch => exact ⟨h.1, by have := h.2; omega⟩
  | advance sc' =>
      refine ⟨h.1, ?_⟩
      have hlt := (List.getElem?_eq_some_iff.mp h.2).1
      rw [List.getElem?_append_left hlt]
      exact h.2

/-- **An interrupt**, wherever the reader is. -/
theorem Input.Coherent.irq (h : s.Coherent) (sc : UInt8) : (s.irq sc).Coherent := by
  by_cases hroom : wrappingSucc s.buf.head ≠ s.buf.tail
  · have hbuffered : (s.irq sc).buffered = s.buffered ++ [sc] := by
      simp [Input.buffered, Input.irq, hroom]
    refine ⟨?_, ?_, h.empty, h.chars⟩
    · rw [hbuffered]
      exact h.holds.irq_buffered hroom
    · rw [hbuffered]
      exact h.fits.irq
  · have hbuffered : (s.irq sc).buffered = s.buffered := by
      simp only [Input.buffered, Input.irq, List.filter_append, decide_eq_false hroom]
      simp
    refine ⟨?_, ?_, h.empty, h.chars⟩
    · rw [hbuffered]
      exact h.holds.irq_dropped hroom
    · rw [hbuffered]
      exact h.fits

/-- A call that returns. -/
theorem Input.Coherent.finish {scancode : Option UInt8}
    (hholds : s.buf.Holds s.buffered (s.read ++ scancode.toList))
    (hempty : scancode = none ↔ s.seen = 0)
    (h : (∀ c ∈ s.polls, c.scancode = none ↔ c.unread = 0) ∧
      ∀ c ∈ s.polls, c.char = c.scancode.bind scancodeToAscii) :
    (s.finish scancode).Coherent := by
  have hread : (s.finish scancode).read = s.read ++ scancode.toList := by
    cases scancode <;> simp [Input.read, Input.finish]
  refine ⟨?_, trivial, ?_, ?_⟩
  · rw [hread]
    exact hholds
  · intro c hc
    rcases List.mem_append.mp hc with hold | hnew
    · exact h.1 c hold
    · obtain rfl := List.mem_singleton.mp hnew
      exact hempty
  · intro c hc
    rcases List.mem_append.mp hc with hold | hnew
    · exact h.2 c hold
    · obtain rfl := List.mem_singleton.mp hnew
      rfl

/-- **An access of the reader.** -/
theorem Input.Coherent.step (h : s.Coherent) : s.step.Coherent := by
  have hread := h.holds.read.length_le
  have hroom := h.holds.room
  have hfits := h.fits
  unfold Input.step
  cases hpc : s.pc with
  | load =>
      have hsum : s.read.length + s.unread = s.buffered.length := by
        unfold Input.unread
        omega
      have hcompare : Pc.Fits s.buffered s.read s.unread (.compare s.buf.head) := by
        refine ⟨?_, hsum.le⟩
        rw [hsum]
        exact h.holds.head
      exact ⟨h.holds, hcompare, h.empty, h.chars⟩
  | compare head =>
      rw [hpc] at hfits
      obtain ⟨hhead, hseen⟩ := hfits
      have hequal : head = s.buf.tail ↔ s.seen = 0 := by
        rw [hhead, h.holds.tail]
        omega
      by_cases hempty : head = s.buf.tail
      · simp only [if_pos hempty]
        refine Input.Coherent.finish ?_ ?_ ⟨h.empty, h.chars⟩
        · simpa using h.holds
        · exact iff_of_true rfl (hequal.mp hempty)
      · simp only [if_neg hempty]
        refine ⟨h.holds, ⟨?_, hseen⟩, h.empty, h.chars⟩
        exact Nat.pos_of_ne_zero (fun hzero => hempty (hequal.mpr hzero))
  | fetch =>
      rw [hpc] at hfits
      obtain ⟨hpos, hseen⟩ := hfits
      exact ⟨h.holds, ⟨hpos, h.holds.oldest (by omega)⟩, h.empty, h.chars⟩
  | advance sc =>
      rw [hpc] at hfits
      obtain ⟨hpos, hget⟩ := hfits
      refine Input.Coherent.finish
        (s := { s with buf := { s.buf with tail := wrappingSucc s.buf.tail } })
        (h.holds.advance hget) ?_ ⟨h.empty, h.chars⟩
      exact iff_of_false (by simp) (Nat.ne_of_gt hpos)

/-- The keyboard stays coherent however the interrupts come. -/
theorem reach_coherent (h : inputSystem.Reach s) : s.Coherent := by
  refine TransitionSystem.Reach.invariant ?_ ?_ h
  · rintro _ rfl
    exact ⟨⟨List.prefix_refl _, by decide, rfl, rfl, recent_new⟩, trivial, by simp [Input.new],
      by simp [Input.new]⟩
  · intro t e t' ht hnext
    cases e with
    | irq sc =>
        obtain rfl := Option.some.inj hnext
        exact ht.irq sc
    | step =>
        obtain rfl := Option.some.inj hnext
        exact ht.step

/-- **Input comes in order.**  Wherever interrupts come: the scancodes read are
the first of those buffered, so that none is lost, repeated or moved; at most 255
are unread, and the next one is buffered exactly if fewer are; a poll comes back
with no scancode only if none was unread when it looked; and the characters are
those of the scancodes read. -/
theorem input_in_order (h : inputSystem.Reach s) :
    s.read <+: s.buffered ∧ s.unread ≤ 255 ∧
      (∀ sc, (s.irq sc).buffered = if s.unread < 255 then s.buffered ++ [sc] else s.buffered) ∧
      (∀ c ∈ s.polls, c.scancode = none ↔ c.unread = 0) ∧
      s.polls.filterMap (·.char) = s.read.filterMap scancodeToAscii := by
  have hs := reach_coherent h
  refine ⟨hs.holds.read, hs.holds.room, fun sc => ?_, hs.empty, ?_⟩
  · have hiff := hs.holds.room_iff
    by_cases hless : s.unread < 255
    · rw [if_pos hless]
      simp [Input.buffered, Input.irq, hiff.mpr hless]
    · rw [if_neg hless]
      have hfull : ¬ wrappingSucc s.buf.head ≠ s.buf.tail := fun hroom => hless (hiff.mp hroom)
      simp only [Input.buffered, Input.irq, List.filter_append, decide_eq_false hfull]
      simp
  · have hchars := hs.chars
    unfold Input.read
    rw [List.filterMap_filterMap]
    exact List.filterMap_congr hchars

end

/-- Two keys, the second one while the first is being read. -/
theorem sample_input_in_order : ∃ s,
    inputSystem.exec .new [.irq 0x1E, .step, .step, .irq 0x30, .step, .step, .irq 0x9E] = some s ∧
      s.read = [0x1E] ∧ s.buffered = [0x1E, 0x30, 0x9E] ∧ s.read <+: s.buffered := by
  have hrun : (inputSystem.exec .new
      [.irq 0x1E, .step, .step, .irq 0x30, .step, .step, .irq 0x9E]).map
        (fun s => (s.read, s.buffered)) = some ([0x1E], [0x1E, 0x30, 0x9E]) := by
    decide +kernel
  obtain ⟨s, hs, hfacts⟩ := Option.map_eq_some_iff.mp hrun
  obtain ⟨hread, hbuffered⟩ := Prod.mk.inj hfacts
  exact ⟨s, hs, hread, hbuffered,
    (input_in_order (TransitionSystem.Reach.exec (TransitionSystem.Run.boot rfl) hs)).1⟩

end Keyboard
