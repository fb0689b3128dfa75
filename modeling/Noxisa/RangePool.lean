import Mathlib

/-!
# Carving blocks out of ascending ranges

An allocator that only moves forward keeps an ascending list of address
ranges.  A request for `need` addresses is served from the front of the first
range with room for it; the ranges in front of that one are dropped.  Units of
a fixed size `u` that have been handed out are collected in a list `held`
(whoever holds them now).

`Separated u limit held rs` is the ownership invariant: no unit is held twice, and
no byte of a held unit can be carved again.  `Separated.carve` keeps it, and
so does any permutation of the held units, which is what handing a unit from
one holder to another amounts to.
-/

namespace RangePool

/-- The half-open range `lo ≤ a < hi`; empty when `hi ≤ lo`. -/
structure Range where
  lo : Nat
  hi : Nat
deriving DecidableEq

/-- The addresses that a list of ranges covers. -/
def space (rs : List Range) : Set Nat :=
  {a | ∃ r ∈ rs, r.lo ≤ a ∧ a < r.hi}

/-- Later ranges start where earlier ones have ended. -/
def Ascending (rs : List Range) : Prop :=
  rs.Pairwise (fun r s => r.hi ≤ s.lo)

/-- Serve a request from the first range with room, dropping the ranges in
front of it. -/
def carve (need : Nat) : List Range → Option Nat × List Range
  | [] => (none, [])
  | r :: rs =>
      if r.lo + need ≤ r.hi then (some r.lo, ⟨r.lo + need, r.hi⟩ :: rs)
      else carve need rs

/-- Start addresses of the `n` consecutive units of a block at `a`. -/
def units (u a n : Nat) : List Nat :=
  (List.range n).map (fun i => a + i * u)

/-- How many single units the ranges still hold. -/
def capacity (u : Nat) : List Range → Nat
  | [] => 0
  | r :: rs => (r.hi - r.lo) / u + capacity u rs

/-- The single units that the ranges still hold. -/
def unitsIn (u : Nat) (rs : List Range) : Set Nat :=
  {f | ∃ r ∈ rs, ∃ i, f = r.lo + i * u ∧ f + u ≤ r.hi}

/-- The space of a range and of what comes after it. -/
theorem space_cons (r : Range) (rs : List Range) :
    space (r :: rs) = Set.Ico r.lo r.hi ∪ space rs := by
  ext a
  simp [space, Set.mem_Ico]

/-- Carving only ever shrinks the space. -/
theorem carve_space_subset (need : Nat) (rs : List Range) :
    space (carve need rs).2 ⊆ space rs := by
  induction rs with
  | nil => simp [carve]
  | cons r rs ih =>
      unfold carve
      split
      · intro a ha
        rw [space_cons] at ha ⊢
        rcases ha with ha | ha
        · exact Or.inl ⟨Nat.le_trans (Nat.le_add_right _ _) ha.1, ha.2⟩
        · exact Or.inr ha
      · rw [space_cons]
        exact ih.trans Set.subset_union_right

/-- A carved block comes out of the space. -/
theorem carve_block_subset {need a : Nat} {rs : List Range}
    (h : (carve need rs).1 = some a) : Set.Ico a (a + need) ⊆ space rs := by
  induction rs with
  | nil => simp [carve] at h
  | cons r rs ih =>
      rw [space_cons]
      unfold carve at h
      split at h
      next hfit =>
        obtain rfl : r.lo = a := by simpa using h
        exact fun x hx => Or.inl ⟨hx.1, lt_of_lt_of_le hx.2 hfit⟩
      next => exact (ih h).trans Set.subset_union_right

/-- A carved block starts at the start of a range. -/
theorem carve_start_mem {need a : Nat} {rs : List Range}
    (h : (carve need rs).1 = some a) : ∃ r ∈ rs, r.lo = a := by
  induction rs with
  | nil => simp [carve] at h
  | cons r rs ih =>
      unfold carve at h
      split at h
      · exact ⟨r, List.mem_cons_self, by simpa using h⟩
      · obtain ⟨s, hs, heq⟩ := ih h
        exact ⟨s, List.mem_cons_of_mem _ hs, heq⟩

/-- A carved block fits into the range that it starts. -/
theorem carve_start_fits {need a : Nat} {rs : List Range}
    (h : (carve need rs).1 = some a) : ∃ r ∈ rs, r.lo = a ∧ a + need ≤ r.hi := by
  induction rs with
  | nil => cases h
  | cons r rs ih =>
      unfold carve at h
      split at h
      next hfit =>
        obtain rfl : r.lo = a := Option.some.inj h
        exact ⟨r, List.mem_cons_self, rfl, hfit⟩
      next =>
        obtain ⟨s, hs, hin⟩ := ih h
        exact ⟨s, List.mem_cons_of_mem r hs, hin⟩

/-- The ranges left over are old ones, the first perhaps shortened by `need`. -/
theorem mem_carve {need : Nat} {rs : List Range} {s : Range}
    (h : s ∈ (carve need rs).2) :
    s ∈ rs ∨ ∃ r ∈ rs, s = ⟨r.lo + need, r.hi⟩ ∧ r.lo + need ≤ r.hi := by
  induction rs with
  | nil => simp [carve] at h
  | cons r rs ih =>
      unfold carve at h
      split at h
      next hfit =>
        rcases List.mem_cons.mp h with rfl | h
        · exact Or.inr ⟨r, List.mem_cons_self, rfl, hfit⟩
        · exact Or.inl (List.mem_cons_of_mem _ h)
      next =>
        rcases ih h with h | ⟨q, hq, heq⟩
        · exact Or.inl (List.mem_cons_of_mem _ h)
        · exact Or.inr ⟨q, List.mem_cons_of_mem _ hq, heq⟩

/-- Carving keeps the ranges in order. -/
theorem carve_ascending {need : Nat} {rs : List Range} (h : Ascending rs) :
    Ascending (carve need rs).2 := by
  induction rs with
  | nil => simp [carve, Ascending]
  | cons r rs ih =>
      have hrest := List.pairwise_cons.mp h
      unfold carve
      split
      · exact List.pairwise_cons.mpr ⟨hrest.1, hrest.2⟩
      · exact ih hrest.2

/-- What has been carved can not be carved again. -/
theorem carve_block_disjoint {need a : Nat} {rs : List Range} (hasc : Ascending rs)
    (h : (carve need rs).1 = some a) :
    Disjoint (Set.Ico a (a + need)) (space (carve need rs).2) := by
  induction rs with
  | nil => simp [carve] at h
  | cons r rs ih =>
      have hrest := List.pairwise_cons.mp hasc
      unfold carve at h ⊢
      split at h
      next hfit =>
        obtain rfl : r.lo = a := by simpa using h
        rw [if_pos hfit, space_cons, Set.disjoint_left]
        rintro x hx (hx' | ⟨s, hs, hlo, _⟩)
        · exact absurd hx.2 (not_lt.mpr hx'.1)
        · have hend : r.hi ≤ s.lo := hrest.1 s hs
          have := hx.2
          omega
      next hfit =>
        rw [if_neg hfit]
        exact ih hrest.2 h

/-- A one-unit request fails exactly when no unit is left, and otherwise takes
one unit of the capacity. -/
theorem carve_unit_capacity {u : Nat} (hu : 0 < u) (rs : List Range) :
    capacity u rs = capacity u (carve u rs).2 + (if (carve u rs).1.isSome then 1 else 0) := by
  induction rs with
  | nil => simp [carve, capacity]
  | cons r rs ih =>
      unfold carve
      split
      next hfit =>
        have hdrop : (r.hi - r.lo) / u = (r.hi - (r.lo + u)) / u + 1 := by
          rw [← Nat.add_div_right _ hu]
          congr 1
          omega
        simp only [capacity, Option.isSome_some, if_true, hdrop]
        omega
      next hfit =>
        have hnone : (r.hi - r.lo) / u = 0 := Nat.div_eq_of_lt (by omega)
        simpa [capacity, hnone] using ih

/-- The ranges that a request passes over. -/
def passed (need : Nat) : List Range → List Range
  | [] => []
  | r :: rs => if r.lo + need ≤ r.hi then [] else r :: passed need rs

/-- What a request for `n` units does to the capacity: the units of the ranges
that it passes over are lost. -/
theorem carve_passed_capacity {u : Nat} (hu : 0 < u) (n : Nat) (rs : List Range) :
    capacity u rs = capacity u (passed (n * u) rs) + (capacity u (carve (n * u) rs).2 +
      (if (carve (n * u) rs).1.isSome then n else 0)) := by
  induction rs with
  | nil => simp [carve, passed, capacity]
  | cons r rs ih =>
      unfold carve passed
      split
      next hfit =>
        have hdrop : (r.hi - r.lo) / u = (r.hi - (r.lo + n * u)) / u + n := by
          rw [← Nat.add_mul_div_right _ _ hu]
          congr 1
          omega
        simp only [capacity, Option.isSome_some, if_true, hdrop]
        omega
      next hfit =>
        simp only [capacity]
        omega

/-- A request for `n` units takes at least these of the capacity. -/
theorem carve_units_capacity {u : Nat} (hu : 0 < u) (n : Nat) (rs : List Range) :
    capacity u (carve (n * u) rs).2 + (if (carve (n * u) rs).1.isSome then n else 0) ≤
      capacity u rs := by
  have hcap := carve_passed_capacity hu n rs
  omega

/-- Capacities of two lists add up. -/
theorem capacity_append (u : Nat) (rs ss : List Range) :
    capacity u (rs ++ ss) = capacity u rs + capacity u ss := by
  induction rs with
  | nil => simp [capacity]
  | cons r rs ih => simp only [List.cons_append, capacity, ih, Nat.add_assoc]

/-- Ranges above `lo` and up to `limit` hold no more than what is between. -/
theorem capacity_le {u limit : Nat} :
    ∀ (rs : List Range) (lo : Nat), Ascending rs → lo ≤ limit → (∀ r ∈ rs, lo ≤ r.lo) →
      (∀ r ∈ rs, r.lo ≤ r.hi ∧ r.hi ≤ limit) → capacity u rs * u ≤ limit - lo := by
  intro rs
  induction rs with
  | nil => intro lo _ _ _ _; simp [capacity]
  | cons r rs ih =>
      intro lo hasc _ hlo hin
      have hrest := List.pairwise_cons.mp hasc
      obtain ⟨hle, hhi⟩ := hin r List.mem_cons_self
      have hfirst := hlo r List.mem_cons_self
      have htail := ih r.hi hrest.2 hhi hrest.1 (fun s hs => hin s (List.mem_cons_of_mem r hs))
      have hhead := Nat.div_mul_le_self (r.hi - r.lo) u
      simp only [capacity, Nat.add_mul]
      omega

/-- After a failed request nothing is left. -/
theorem carve_none {need : Nat} {rs : List Range} (h : (carve need rs).1 = none) :
    (carve need rs).2 = [] := by
  induction rs with
  | nil => rfl
  | cons r rs ih =>
      unfold carve at h ⊢
      split at h
      · cases h
      next hfit => rw [if_neg hfit]; exact ih h

/-- There is a unit exactly as long as there is capacity. -/
theorem carve_unit_isSome_iff {u : Nat} (hu : 0 < u) (rs : List Range) :
    (carve u rs).1.isSome ↔ 0 < capacity u rs := by
  have hcap := carve_unit_capacity hu rs
  cases h : (carve u rs).1 with
  | none =>
      rw [hcap, carve_none h, h]
      simp [capacity]
  | some a =>
      rw [h, Option.isSome_some, if_pos rfl] at hcap
      simp [hcap]

/-- No unit is left when a one-unit request fails. -/
theorem unitsIn_eq_empty {u : Nat} {rs : List Range} (h : (carve u rs).1 = none) :
    unitsIn u rs = ∅ := by
  induction rs with
  | nil => simp [unitsIn]
  | cons r rs ih =>
      unfold carve at h
      split at h
      · cases h
      next hfit =>
        rw [Set.eq_empty_iff_forall_notMem]
        rintro f ⟨s, hs, i, rfl, hend⟩
        cases hs with
        | head => omega
        | tail _ hs => exact (ih h).subset ⟨s, hs, i, rfl, hend⟩

/-- Carving one unit leaves no unit that was not there. -/
theorem unitsIn_carve_subset (u : Nat) (rs : List Range) :
    unitsIn u (carve u rs).2 ⊆ unitsIn u rs := by
  rintro f ⟨s, hs, i, rfl, hend⟩
  rcases mem_carve hs with hold | ⟨r, hr, rfl, -⟩
  · exact ⟨s, hold, i, rfl, hend⟩
  · refine ⟨r, hr, i + 1, ?_, hend⟩
    rw [Nat.add_mul, Nat.one_mul, Nat.add_comm (i * u), Nat.add_assoc]

/-- A unit is left, or it is the one that a request takes. -/
theorem unitsIn_carve {u f : Nat} {rs : List Range} (h : f ∈ unitsIn u rs) :
    (carve u rs).1 = some f ∨ f ∈ unitsIn u (carve u rs).2 := by
  induction rs with
  | nil =>
      obtain ⟨r, hr, -⟩ := h
      cases hr
  | cons r rs ih =>
      obtain ⟨s, hs, i, rfl, hend⟩ := h
      unfold carve
      split
      next hfit =>
        cases hs with
        | head =>
            cases i with
            | zero => exact Or.inl (by simp)
            | succ i =>
                refine Or.inr ⟨_, List.mem_cons_self, i, ?_, hend⟩
                rw [Nat.add_mul, Nat.one_mul, Nat.add_comm (i * u), Nat.add_assoc]
        | tail _ hs => exact Or.inr ⟨s, List.mem_cons_of_mem _ hs, i, rfl, hend⟩
      next hfit =>
        cases hs with
        | head => omega
        | tail _ hs => exact ih ⟨s, hs, i, rfl, hend⟩

/-- The unit that a request takes was one of those left, and is none any more. -/
theorem carve_unit_moves {u a : Nat} (hu : 0 < u) {rs : List Range} (hasc : Ascending rs)
    (h : (carve u rs).1 = some a) : a ∈ unitsIn u rs ∧ a ∉ unitsIn u (carve u rs).2 := by
  constructor
  · have hfits : ∃ r ∈ rs, r.lo = a ∧ r.lo + u ≤ r.hi := by
      clear hasc
      induction rs with
      | nil => cases h
      | cons r rs ih =>
          unfold carve at h
          split at h
          next hfit => exact ⟨r, List.mem_cons_self, Option.some.inj h, hfit⟩
          next =>
            obtain ⟨s, hs, heq⟩ := ih h
            exact ⟨s, List.mem_cons_of_mem r hs, heq⟩
    obtain ⟨r, hr, rfl, hfit⟩ := hfits
    exact ⟨r, hr, 0, by omega, hfit⟩
  · rintro ⟨s, hs, i, hi, hend⟩
    have hin : a ∈ space (carve u rs).2 := ⟨s, hs, by omega, by omega⟩
    exact Set.disjoint_left.mp (carve_block_disjoint hasc h) ⟨Nat.le_refl a, by omega⟩ hin

/-- The units of a block are the multiples within it. -/
theorem mem_units {u a n f : Nat} : f ∈ units u a n ↔ ∃ i < n, f = a + i * u := by
  simp [units, eq_comm]

/-- A block of one unit. -/
theorem units_one (u a : Nat) : units u a 1 = [a] := by
  simp [units]

/-- The units of a block are apart. -/
theorem units_nodup {u : Nat} (hu : 0 < u) (a n : Nat) : (units u a n).Nodup := by
  refine List.Nodup.map ?_ List.nodup_range
  intro i j hij
  exact Nat.eq_of_mul_eq_mul_right hu (Nat.add_left_cancel hij)

/-- The bytes of a unit of a block are bytes of the block. -/
theorem unit_subset_block {u a n f : Nat} (h : f ∈ units u a n) :
    Set.Ico f (f + u) ⊆ Set.Ico a (a + n * u) := by
  obtain ⟨i, hi, rfl⟩ := mem_units.mp h
  have hle : (i + 1) * u ≤ n * u := Nat.mul_le_mul_right u hi
  rw [Nat.add_mul, Nat.one_mul] at hle
  intro x hx
  have hlo := hx.1
  have hhi := hx.2
  exact ⟨by omega, by omega⟩

/-- Two different aligned units share no byte. -/
theorem units_disjoint {u f g : Nat} (hf : u ∣ f) (hg : u ∣ g) (hne : f ≠ g) :
    Disjoint (Set.Ico f (f + u)) (Set.Ico g (g + u)) := by
  obtain ⟨i, rfl⟩ := hf
  obtain ⟨j, rfl⟩ := hg
  have hij : i ≠ j := fun h => hne (h ▸ rfl)
  rw [Set.disjoint_left]
  intro x hx hy
  rcases Nat.lt_or_gt_of_ne hij with h | h
  · have hle : u * (i + 1) ≤ u * j := Nat.mul_le_mul_left u h
    rw [Nat.mul_add, Nat.mul_one] at hle
    have := hx.2
    have := hy.1
    omega
  · have hle : u * (j + 1) ≤ u * i := Nat.mul_le_mul_left u h
    rw [Nat.mul_add, Nat.mul_one] at hle
    have := hx.1
    have := hy.2
    omega

/-- **The ownership invariant.**  No unit is held twice, the held units and the
space still to be carved share no byte, and all of it is below `limit`. -/
structure Separated (u limit : Nat) (held : List Nat) (rs : List Range) : Prop where
  nodup : held.Nodup
  aligned : ∀ f ∈ held, u ∣ f
  inside : ∀ f ∈ held, f + u ≤ limit
  outside : ∀ f ∈ held, Disjoint (Set.Ico f (f + u)) (space rs)
  starts : ∀ r ∈ rs, u ∣ r.lo
  ends : ∀ r ∈ rs, r.hi ≤ limit
  ascending : Ascending rs

section

variable {u limit : Nat} {held held' : List Nat} {rs : List Range}

/-- Who holds a unit does not matter. -/
theorem Separated.perm (h : Separated u limit held rs) (hp : held.Perm held') :
    Separated u limit held' rs where
  nodup := hp.nodup_iff.mp h.nodup
  aligned := fun f hf => h.aligned f (hp.mem_iff.mpr hf)
  inside := fun f hf => h.inside f (hp.mem_iff.mpr hf)
  outside := fun f hf => h.outside f (hp.mem_iff.mpr hf)
  starts := h.starts
  ends := h.ends
  ascending := h.ascending

/-- Two held units are apart. -/
theorem Separated.apart (h : Separated u limit held rs) {f g : Nat} (hf : f ∈ held)
    (hg : g ∈ held) (hne : f ≠ g) :
    Disjoint (Set.Ico f (f + u)) (Set.Ico g (g + u)) :=
  units_disjoint (h.aligned f hf) (h.aligned g hg) hne

/-- The ranges a request of whole units leaves behind start on units. -/
theorem Separated.carve_starts (h : Separated u limit held rs) (n : Nat) :
    ∀ r ∈ (carve (n * u) rs).2, u ∣ r.lo := by
  intro s hs
  rcases mem_carve hs with hs | ⟨r, hr, rfl, _⟩
  · exact h.starts s hs
  · exact Dvd.dvd.add (h.starts r hr) (Dvd.intro_left n rfl)

/-- No request moves the end of a range. -/
theorem Separated.carve_ends (h : Separated u limit held rs) (need : Nat) :
    ∀ r ∈ (RangePool.carve need rs).2, r.hi ≤ limit := by
  intro s hs
  rcases mem_carve hs with hs | ⟨r, hr, rfl, _⟩
  · exact h.ends s hs
  · exact h.ends r hr

/-- Dropping ranges keeps the invariant. -/
theorem Separated.drop (h : Separated u limit held rs) (n : Nat) :
    Separated u limit held (carve (n * u) rs).2 where
  nodup := h.nodup
  aligned := h.aligned
  inside := h.inside
  outside := fun f hf => (h.outside f hf).mono_right (carve_space_subset _ _)
  starts := h.carve_starts n
  ends := h.carve_ends _
  ascending := carve_ascending h.ascending

/-- **Carving keeps the invariant.**  The units of a carved block join the held
units. -/
theorem Separated.carve (hu : 0 < u) (h : Separated u limit held rs) {n a : Nat}
    (hc : (RangePool.carve (n * u) rs).1 = some a) :
    Separated u limit (units u a n ++ held) (RangePool.carve (n * u) rs).2 := by
  have hblock := carve_block_subset hc
  have hleft := carve_block_disjoint h.ascending hc
  obtain ⟨r, hr, hstart⟩ := carve_start_mem hc
  have hdrop := h.drop n
  refine ⟨?_, ?_, ?_, ?_, hdrop.starts, hdrop.ends, hdrop.ascending⟩
  · refine List.Nodup.append (units_nodup hu a n) h.nodup ?_
    intro f hf hheld
    -- the first byte of `f` would be both held and in the space
    have hin : f ∈ space rs :=
      hblock (unit_subset_block hf ⟨Nat.le_refl f, Nat.lt_add_of_pos_right hu⟩)
    exact Set.disjoint_left.mp (h.outside f hheld)
      ⟨Nat.le_refl f, Nat.lt_add_of_pos_right hu⟩ hin
  · intro f hf
    rcases List.mem_append.mp hf with hf | hf
    · obtain ⟨i, _, rfl⟩ := mem_units.mp hf
      exact Dvd.dvd.add (hstart ▸ h.starts r hr) (Dvd.intro_left i rfl)
    · exact h.aligned f hf
  · intro f hf
    rcases List.mem_append.mp hf with hf | hf
    · -- the last byte of the unit is in a range
      obtain ⟨q, hq, _, hlast⟩ := hblock (unit_subset_block hf
        (show f + (u - 1) ∈ Set.Ico f (f + u) from ⟨Nat.le_add_right _ _, by omega⟩))
      have := h.ends q hq
      omega
    · exact h.inside f hf
  · intro f hf
    rcases List.mem_append.mp hf with hf | hf
    · exact hleft.mono_left (unit_subset_block hf)
    · exact hdrop.outside f hf

end

end RangePool
