import Mathlib

/-!
# Rings with a phase tag

A ring of `d` slots is written in order, lap after lap.  Each entry carries a
tag of one bit that changes from lap to lap, so that a reader who knows how many
entries it has read can tell a new entry from the one of the lap before
(`Holds.fresh_iff`), as long as the writer is at most one lap ahead.
-/

namespace PhaseRing

variable {ε : Type}

/-- The tag of entry `n`.  The first lap has the tag `true`. -/
def lapPhase (d n : Nat) : Bool := decide (n / d % 2 = 0)

/-- The first lap has phase one. -/
theorem lapPhase_first {d n : Nat} (h : n < d) : lapPhase d n = true := by
  simp [lapPhase, Nat.div_eq_of_lt h]

/-- One lap later the tag is the other one. -/
theorem lapPhase_lap {d : Nat} (hd : 0 < d) (n : Nat) : lapPhase d (n + d) = !lapPhase d n := by
  rw [lapPhase, lapPhase, Nat.add_div_right n hd]
  by_cases h : n / d % 2 = 0
  · have hodd : ¬ (n / d + 1) % 2 = 0 := by omega
    simp [h, hodd]
  · have heven : (n / d + 1) % 2 = 0 := by omega
    simp [h, heven]

/-- The tag changes where the ring starts again. -/
theorem lapPhase_succ {d : Nat} (hd : 0 < d) (n : Nat) :
    lapPhase d (n + 1) = if (n + 1) % d = 0 then !lapPhase d n else lapPhase d n := by
  by_cases h : (n + 1) % d = 0
  · have hdiv : (n + 1) / d = n / d + 1 := Nat.succ_div_of_dvd (Nat.dvd_of_mod_eq_zero h)
    rw [if_pos h, ← lapPhase_lap hd, lapPhase, lapPhase, hdiv, Nat.add_div_right n hd]
  · have hdiv : (n + 1) / d = n / d :=
      Nat.succ_div_of_not_dvd (fun hdvd => h (Nat.mod_eq_zero_of_dvd hdvd))
    rw [if_neg h, lapPhase, lapPhase, hdiv]

/-- The ring after the entries of `log` were written: the last `d` of them are
there. -/
def Recent (d : Nat) (slots : Nat → ε) (log : List ε) : Prop :=
  ∀ j e, log[j]? = some e → log.length ≤ j + d → slots (j % d) = e

variable {d : Nat} {tag : ε → Bool} {slots : Nat → ε} {log : List ε}

/-- Nothing has been written yet. -/
theorem recent_new : Recent d slots [] := fun _ _ h => by simp at h

/-- An entry behind the last. -/
theorem getElem?_concat {e x : ε} {j : Nat} (h : (log ++ [e])[j]? = some x) :
    j < log.length ∧ log[j]? = some x ∨ j = log.length ∧ e = x := by
  rcases Nat.lt_or_ge j log.length with hlt | hge
  · rw [List.getElem?_append_left hlt] at h
    exact Or.inl ⟨hlt, h⟩
  · have hlt := (List.getElem?_eq_some_iff.mp h).1
    rw [List.length_append, List.length_singleton] at hlt
    obtain rfl : j = log.length := by omega
    rw [List.getElem?_concat_length] at h
    exact Or.inr ⟨rfl, Option.some.inj h⟩

/-- The writer overwrites the oldest entry. -/
theorem Recent.write (h : Recent d slots log) (e : ε) :
    Recent d (Function.update slots (log.length % d) e) (log ++ [e]) := by
  intro j x hj hnear
  rw [List.length_append, List.length_singleton] at hnear
  rcases getElem?_concat hj with ⟨hlt, hold⟩ | ⟨rfl, rfl⟩
  · have hslot : j % d ≠ log.length % d := by
      intro hmod
      have hdvd : d ∣ log.length - j := (Nat.modEq_iff_dvd' hlt.le).mp hmod
      have hle := Nat.le_of_dvd (by omega) hdvd
      omega
    rw [Function.update_of_ne hslot]
    exact h j x hold (by omega)
  · exact Function.update_self _ _ _

/-- A ring with tags: besides, the slots not written so far have the tag
`false`, and every entry has the tag of its lap. -/
structure Holds (d : Nat) (tag : ε → Bool) (slots : Nat → ε) (log : List ε) : Prop where
  recent : Recent d slots log
  blank : ∀ i < d, log.length ≤ i → tag (slots i) = false
  tags : ∀ j e, log[j]? = some e → tag e = lapPhase d j

/-- A ring of zeroed slots holds the empty log. -/
theorem holds_new (h : ∀ i, tag (slots i) = false) : Holds d tag slots [] :=
  ⟨recent_new, fun i _ _ => h i, fun _ _ h => by simp at h⟩

/-- An entry with the phase of its lap goes into the next slot. -/
theorem Holds.write (h : Holds d tag slots log) {e : ε} (he : tag e = lapPhase d log.length) :
    Holds d tag (Function.update slots (log.length % d) e) (log ++ [e]) := by
  refine ⟨h.recent.write e, ?_, ?_⟩
  · intro i hi hle
    rw [List.length_append, List.length_singleton] at hle
    have hslot : i ≠ log.length % d := by
      rw [Nat.mod_eq_of_lt (by omega)]
      omega
    rw [Function.update_of_ne hslot]
    exact h.blank i hi (by omega)
  · intro j x hj
    rcases getElem?_concat hj with ⟨-, hold⟩ | ⟨rfl, rfl⟩
    · exact h.tags j x hold
    · exact he

/-- **A reader can tell**: the next slot shows the tag of its lap exactly when
the next entry has been written. -/
theorem Holds.fresh_iff (hd : 0 < d) (h : Holds d tag slots log) {c : Nat} (hc : c ≤ log.length)
    (hroom : log.length ≤ c + d) : tag (slots (c % d)) = lapPhase d c ↔ c < log.length := by
  rcases Nat.lt_or_eq_of_le hc with hlt | rfl
  · have hentry := List.getElem?_eq_getElem hlt
    rw [h.recent c _ hentry hroom]
    exact iff_of_true (h.tags c _ hentry) hlt
  · refine iff_of_false ?_ (Nat.lt_irrefl _)
    rcases Nat.lt_or_ge log.length d with hfirst | hlap
    · rw [Nat.mod_eq_of_lt hfirst, h.blank _ hfirst (Nat.le_refl _), lapPhase_first hfirst]
      simp
    · -- the slot still has the entry of the lap before
      obtain ⟨n, hn⟩ := Nat.exists_eq_add_of_le' hlap
      have hlt : n < log.length := by omega
      have hentry := List.getElem?_eq_getElem hlt
      have hslot := h.recent n _ hentry (by omega)
      have hmod : log.length % d = n % d := by rw [hn, Nat.add_mod_right]
      have hphase : lapPhase d log.length = !lapPhase d n := by rw [hn, lapPhase_lap hd]
      rw [hmod, hslot, h.tags n _ hentry, hphase]
      simp

end PhaseRing
