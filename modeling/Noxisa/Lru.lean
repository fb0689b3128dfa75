import Mathlib

/-!
# A cache that drops what was used least recently

The entries are a list, most recently used first.
-/

namespace Lru

variable {K V : Type}

/-- Keys and their values, the least recently used at the back. -/
abbrev Cache (K V : Type) := List (K × V)

variable [DecidableEq K]

/-- The value of a key, and the cache in which it is the most recently used. -/
def get (cache : Cache K V) (k : K) : Option (V × Cache K V) :=
  (cache.lookup k).map fun v => (v, (k, v) :: cache.filter fun e => e.1 ≠ k)

/-- Store a value; beyond `cap` entries the last one is dropped. -/
def put (cap : Nat) (cache : Cache K V) (k : K) (v : V) : Cache K V :=
  ((k, v) :: cache.filter fun e => e.1 ≠ k).take cap

/-- What a lookup finds is in the cache. -/
theorem lookup_mem {cache : Cache K V} {k : K} {v : V} (h : cache.lookup k = some v) :
    (k, v) ∈ cache := by
  obtain ⟨l, l', rfl, -⟩ := List.lookup_eq_some_iff.mp h
  exact List.mem_append_right _ List.mem_cons_self

/-- `get` finds an entry of the cache and leaves it only entries it had. -/
theorem mem_get {cache cache' : Cache K V} {k : K} {v : V} (h : get cache k = some (v, cache')) :
    (k, v) ∈ cache ∧ ∀ e ∈ cache', e ∈ cache := by
  obtain ⟨w, hlookup, heq⟩ := Option.map_eq_some_iff.mp h
  cases heq
  have hmem := lookup_mem hlookup
  refine ⟨hmem, fun e he => ?_⟩
  rcases List.mem_cons.mp he with rfl | he
  · exact hmem
  · exact List.mem_of_mem_filter he

/-- `put` adds one entry to those of the cache. -/
theorem mem_put {cap : Nat} {cache : Cache K V} {k : K} {v : V} {e : K × V}
    (h : e ∈ put cap cache k v) : e = (k, v) ∨ e ∈ cache := by
  rcases List.mem_cons.mp (List.mem_of_mem_take h) with rfl | h
  · exact Or.inl rfl
  · exact Or.inr (List.mem_of_mem_filter h)

end Lru
