import Noxisa.MachineWord

/-!
# The ring buffer

The model of `Ring` in `ipc/mod.rs`: 4096 bytes and two free-running counters.
`head` counts the bytes pushed and `tail` those popped, both modulo `2 ^ 64`;
the masked difference is the number of unread bytes, at most 4095.

`push` and `pop` are the calls that nothing interrupts.  `Holds r acc del` says
what a ring contains in terms of the bytes ever pushed and ever popped, with
no counter that wraps; everything else about a ring follows from it.
-/

namespace Ipc

open MachineWord

/-- `RING_SIZE` -/
def ringSize : Nat := 4096

/-- The ring of a channel: both counters run on and wrap at 64 bits. -/
structure Ring where
  buf : Nat → UInt8
  head : Nat
  tail : Nat

/-- `Ring::new` -/
def Ring.new : Ring := { buf := fun _ => 0, head := 0, tail := 0 }

/-- `x & (RING_SIZE - 1)` -/
def slot (x : Nat) : Nat := x &&& (ringSize - 1)

/-- The room that `push` computes. -/
def room (head tail : Nat) : Nat := ringSize - 1 - slot (sub head tail)

/-- `buf.add(idx).write(b)` -/
def Ring.write (r : Ring) (idx : Nat) (b : UInt8) : Ring :=
  { r with buf := Function.update r.buf idx b }

/-- The copy loop of `push`: `data`, from the `i`-th place on. -/
def Ring.copyIn (r : Ring) (head : Nat) : Nat → List UInt8 → Ring
  | _, [] => r
  | i, b :: data => (r.write (slot (add head i)) b).copyIn head (i + 1) data

/-- `Ring::push`: as much as there is room for. -/
def Ring.push (r : Ring) (data : List UInt8) : Nat × Ring :=
  let n := min data.length (room r.head r.tail)
  (n, { r.copyIn r.head 0 (data.take n) with head := add r.head n })

/-- The copy loop of `pop`. -/
def Ring.copyOut (r : Ring) (tail n : Nat) : List UInt8 :=
  (List.range n).map (fun i => r.buf (slot (add tail i)))

/-- `pop` into a buffer of `len` bytes. -/
def Ring.pop (r : Ring) (len : Nat) : List UInt8 × Ring :=
  let n := min len (slot (sub r.head r.tail))
  (r.copyOut r.tail n, { r with tail := add r.tail n })

/-- How much there is to be read. -/
def Ring.available (r : Ring) : Nat := slot (sub r.head r.tail)

/-- The ring after `acc` has been pushed and `del` popped. -/
structure Ring.Holds (r : Ring) (acc del : List UInt8) : Prop where
  popped : del <+: acc
  unread_le : acc.length - del.length ≤ ringSize - 1
  head : r.head = acc.length % modulus
  tail : r.tail = del.length % modulus
  buf : ∀ k, del.length ≤ k → (h : k < acc.length) → r.buf (k % ringSize) = acc[k]

/-- `bytes` are in the slots from the counter `k` on. -/
def Ring.Filled (r : Ring) (k : Nat) (bytes : List UInt8) : Prop :=
  ∀ i, (h : i < bytes.length) → r.buf ((k + i) % ringSize) = bytes[i]

/-- The slot of a counter. -/
theorem slot_eq (x : Nat) : slot x = x % ringSize :=
  Nat.and_two_pow_sub_one_eq_mod x 12

/-- Neither the counters nor the mask see the wrap of a counter. -/
theorem slot_add (k i : Nat) : slot (add (k % modulus) i) = (k + i) % ringSize := by
  rw [slot_eq, add]
  simp only [ringSize, modulus]
  omega

/-- A counter that goes on. -/
theorem add_count (k n : Nat) : add (k % modulus) n = (k + n) % modulus := by
  unfold add
  simp only [modulus]
  omega

/-- The masked difference of the counters is the number of unread bytes. -/
theorem slot_sub {h t : Nat} (hle : t ≤ h) (hfit : h - t ≤ ringSize - 1) :
    slot (sub (h % modulus) (t % modulus)) = h - t := by
  rw [slot_eq, sub]
  simp only [ringSize, modulus] at hfit ⊢
  omega

/-- Nothing to be written. -/
theorem Ring.filled_nil (r : Ring) (k : Nat) : r.Filled k [] :=
  fun i h => absurd h (Nat.not_lt_zero i)

/-- The next byte of a copy. -/
theorem Ring.Filled.write {r : Ring} {k : Nat} {bytes : List UInt8} (h : r.Filled k bytes)
    (hfit : bytes.length < ringSize) (b : UInt8) :
    (r.write ((k + bytes.length) % ringSize) b).Filled k (bytes ++ [b]) := by
  intro i hi
  rw [List.length_append, List.length_singleton] at hi
  by_cases hlast : i = bytes.length
  · subst hlast
    have hnew : (r.write ((k + bytes.length) % ringSize) b).buf ((k + bytes.length) % ringSize) = b :=
      Function.update_self _ _ _
    rw [hnew, List.getElem_append_right (Nat.le_refl _)]
    simp
  · have hne : (k + i) % ringSize ≠ (k + bytes.length) % ringSize := by
      simp only [ringSize] at hfit ⊢
      omega
    have hsame : (r.write ((k + bytes.length) % ringSize) b).buf ((k + i) % ringSize) =
        r.buf ((k + i) % ringSize) := Function.update_of_ne hne _ _
    rw [hsame, List.getElem_append_left (by omega)]
    exact h i (by omega)

/-- A new ring holds nothing. -/
theorem Ring.new_holds : Ring.new.Holds [] [] :=
  ⟨List.prefix_refl [], by simp, by decide, by decide, fun k _ h => absurd h (Nat.not_lt_zero k)⟩

namespace Ring.Holds

variable {r : Ring} {acc del : List UInt8}

/-- Not more has been read than was written. -/
theorem le (h : r.Holds acc del) : del.length ≤ acc.length := h.popped.length_le

/-- `available` is exact. -/
theorem available (h : r.Holds acc del) : r.available = acc.length - del.length := by
  rw [Ring.available, h.head, h.tail]
  exact slot_sub h.le h.unread_le

/-- The room is what is left of all slots but one. -/
theorem room (h : r.Holds acc del) :
    Ipc.room r.head r.tail = ringSize - 1 - (acc.length - del.length) := by
  have havail := h.available
  unfold Ring.available at havail
  rw [Ipc.room, havail]

/-- A write to a slot that no unread byte is in. -/
theorem write (h : r.Holds acc del) {k : Nat} (hlo : acc.length ≤ k)
    (hhi : k < del.length + ringSize) (b : UInt8) : (r.write (k % ringSize) b).Holds acc del := by
  refine ⟨h.popped, h.unread_le, h.head, h.tail, fun j hj hlt => ?_⟩
  have hne : j % ringSize ≠ k % ringSize := by
    simp only [ringSize] at hhi ⊢
    omega
  have hsame : (r.write (k % ringSize) b).buf (j % ringSize) = r.buf (j % ringSize) :=
    Function.update_of_ne hne _ _
  exact hsame.trans (h.buf j hj hlt)

/-- Moving `head` past bytes that are in their slots. -/
theorem publish (h : r.Holds acc del) {bytes : List UInt8}
    (hfit : acc.length - del.length + bytes.length ≤ ringSize - 1)
    (hbuf : r.Filled acc.length bytes) :
    Ring.Holds { r with head := add r.head bytes.length } (acc ++ bytes) del := by
  refine ⟨h.popped.trans (List.prefix_append acc bytes), ?_, ?_, h.tail, ?_⟩
  · have := h.le
    rw [List.length_append]
    omega
  · rw [List.length_append, h.head, add_count]
  · intro k hlo hhi
    by_cases hk : k < acc.length
    · rw [List.getElem_append_left hk]
      exact h.buf k hlo hk
    · rw [List.length_append] at hhi
      have hge := Nat.le_of_not_lt hk
      rw [List.getElem_append_right hge, ← hbuf (k - acc.length) (by omega),
        Nat.add_sub_cancel' hge]

/-- Moving `tail` past bytes that have been read. -/
theorem consume (h : r.Holds acc del) {bytes : List UInt8}
    (hread : del ++ bytes <+: acc) :
    Ring.Holds { r with tail := add r.tail bytes.length } acc (del ++ bytes) := by
  refine ⟨hread, ?_, h.head, ?_, ?_⟩
  · have := h.unread_le
    rw [List.length_append]
    omega
  · rw [List.length_append, h.tail, add_count]
  · intro k hlo hhi
    rw [List.length_append] at hlo
    exact h.buf k (by omega) hhi

/-- The byte at the `i`-th unread place. -/
theorem read (h : r.Holds acc del) {i : Nat} (hi : del.length + i < acc.length) :
    r.buf (slot (add r.tail i)) = acc[del.length + i] := by
  rw [h.tail, slot_add]
  exact h.buf _ (Nat.le_add_right _ _) hi

/-- The copy loop of `push`, after `done` has been copied. -/
theorem copyIn (h : r.Holds acc del) {done data : List UInt8} (hdone : r.Filled acc.length done)
    (hfit : acc.length - del.length + (done.length + data.length) ≤ ringSize - 1) :
    (r.copyIn r.head done.length data).Holds acc del ∧
      (r.copyIn r.head done.length data).Filled acc.length (done ++ data) := by
  induction data generalizing r done with
  | nil => exact ⟨h, by simpa [Ring.copyIn] using hdone⟩
  | cons b data ih =>
      rw [List.length_cons] at hfit
      have hle := h.le
      have hidx : slot (add r.head done.length) = (acc.length + done.length) % ringSize := by
        rw [h.head, slot_add]
      have hwrite := h.write (k := acc.length + done.length) (Nat.le_add_right _ _)
        (by simp only [ringSize] at hfit ⊢; omega) b
      have hfilled := hdone.write (by simp only [ringSize] at hfit ⊢; omega) b
      have hlen : (done ++ [b]).length = done.length + 1 := by simp
      have hrest := ih hwrite hfilled (by omega)
      rw [hlen, List.append_assoc] at hrest
      rw [Ring.copyIn, hidx]
      exact hrest

/-- **`push`** appends what fits. -/
theorem push (h : r.Holds acc del) (data : List UInt8) :
    (r.push data).1 = min data.length (ringSize - 1 - (acc.length - del.length)) ∧
      (r.push data).2.Holds (acc ++ data.take (r.push data).1) del := by
  refine ⟨by rw [Ring.push, h.room], ?_⟩
  have hroom := h.room
  have hle := h.unread_le
  simp only [Ring.push, hroom]
  generalize hn : min data.length (ringSize - 1 - (acc.length - del.length)) = n
  have hlen : (data.take n).length = n := by
    rw [List.length_take]
    omega
  have hcopy := @copyIn _ _ _ h [] (data.take n) (r.filled_nil _)
    (by simp only [List.length_nil, hlen]; omega)
  rw [List.nil_append, List.length_nil] at hcopy
  have hpub := hcopy.1.publish (by omega) hcopy.2
  rw [hlen, hcopy.1.head, ← h.head] at hpub
  exact hpub

/-- The bytes `pop` takes. -/
theorem copyOut (h : r.Holds acc del) {n : Nat} (hn : del.length + n ≤ acc.length) :
    r.copyOut r.tail n = (acc.drop del.length).take n := by
  refine List.ext_getElem (by simp [Ring.copyOut]; omega) (fun i hi hi' => ?_)
  rw [Ring.copyOut, List.length_map, List.length_range] at hi
  simp only [Ring.copyOut, List.getElem_map, List.getElem_range, List.getElem_take,
    List.getElem_drop]
  exact h.read (by omega)

/-- What has been popped, and what comes next. -/
private theorem append_take (h : r.Holds acc del) (n : Nat) :
    del ++ (acc.drop del.length).take n <+: acc := by
  obtain ⟨rest, rfl⟩ := h.popped
  rw [List.drop_left]
  exact (List.prefix_append_right_inj del).mpr (List.take_prefix n rest)

/-- **`pop`** takes the oldest unread bytes. -/
theorem pop (h : r.Holds acc del) (len : Nat) :
    (r.pop len).1 = (acc.drop del.length).take len ∧
      (r.pop len).2.Holds acc (del ++ (r.pop len).1) := by
  have havail := h.available
  have hle := h.le
  rw [Ring.available] at havail
  have hout : (r.pop len).1 = (acc.drop del.length).take len := by
    rw [Ring.pop, havail]
    dsimp only
    rw [h.copyOut (by omega), List.take_eq_take_iff]
    simp
  refine ⟨hout, ?_⟩
  have hlen : (r.pop len).1.length = min len (acc.length - del.length) := by
    rw [hout]
    simp
  have hread : del ++ (r.pop len).1 <+: acc := hout ▸ h.append_take len
  have hcons := h.consume hread
  rw [hlen] at hcons
  simp only [Ring.pop, havail] at hcons ⊢
  exact hcons

end Ring.Holds

end Ipc
