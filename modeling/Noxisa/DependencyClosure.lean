import Noxisa.Packages

/-!
# What the resolver collects

While the search runs, a marked name is either finished, and its metadata is in
the result, or its call is in progress.  `Traced` keeps the finished names in the
order of the result: no name is there twice, and all of them are needed.
-/

namespace Npkg

/-- The list has the metadata of exactly the needed names, each once. -/
def Collects (fetchMeta : Fetch) (names : List String) (pkgs : List Package) : Prop :=
  ∃ finished : List String, finished.Nodup ∧
    (∀ name, name ∈ finished ↔ Needed fetchMeta names name) ∧
    finished.map fetchMeta = pkgs.map some

/-- The names of the result, while the calls of `stack` are in progress. -/
structure Traced (fetchMeta : Fetch) (roots stack : List String) (s : Search)
    (finished : List String) : Prop where
  nodup : (finished ++ stack).Nodup
  visited : ∀ name, name ∈ s.visited ↔ name ∈ finished ∨ name ∈ stack
  needed : ∀ name ∈ s.visited, Needed fetchMeta roots name
  result : finished.map fetchMeta = s.result.map some

section
variable {fetchMeta : Fetch} {roots stack : List String} {s s' : Search} {finished : List String}

/-- The search enters a package that is needed and new. -/
theorem Traced.mark (h : Traced fetchMeta roots stack s finished) {name : String}
    (hneeded : Needed fetchMeta roots name) (hnew : name ∉ s.visited) :
    Traced fetchMeta roots (name :: stack) { s with visited := name :: s.visited } finished := by
  refine ⟨?_, fun n => ?_, fun n hn => ?_, h.result⟩
  · rw [h.visited, ← List.mem_append] at hnew
    exact List.nodup_middle.mpr (List.nodup_cons.mpr ⟨hnew, h.nodup⟩)
  · rw [List.mem_cons, List.mem_cons, h.visited]
    exact or_left_comm
  · rcases List.mem_cons.mp hn with rfl | hn
    · exact hneeded
    · exact h.needed n hn

/-- The search leaves a package whose dependencies are finished. -/
theorem Traced.finish {name : String} {pkg : Package}
    (h : Traced fetchMeta roots (name :: stack) s finished) (hpkg : fetchMeta name = some pkg) :
    Traced fetchMeta roots stack { s with result := s.result ++ [pkg] } (finished ++ [name]) := by
  refine ⟨?_, fun n => ?_, h.needed, ?_⟩
  · rw [List.append_assoc]
    exact h.nodup
  · rw [h.visited, List.mem_append, List.mem_singleton, List.mem_cons, or_assoc]
  · rw [List.map_append, List.map_append, h.result, List.map_singleton, hpkg]
    rfl

/-- A call that succeeds leaves the calls in progress as they were. -/
theorem dfs_traced (fuel : Nat) : ∀ name stack s s', Needed fetchMeta roots name →
    (∃ finished, Traced fetchMeta roots stack s finished) →
    dfs fetchMeta fuel name s = some (.ok s') →
      ∃ finished, Traced fetchMeta roots stack s' finished := by
  induction fuel with
  | zero =>
      intro name stack s s' _ _ h
      cases h
  | succ fuel ih =>
      rintro name stack s s' hneeded ⟨finished, hs⟩ h
      by_cases hold : name ∈ s.visited
      · rw [dfs, if_pos hold] at h
        cases h
        exact ⟨finished, hs⟩
      rcases dfs_ok h with ⟨hin, -⟩ | ⟨pkg, s₁, hpkg, hloop, rfl⟩
      · exact absurd hin hold
      obtain ⟨⟨finished₁, hs₁⟩, -⟩ := @eachName_ok _ _ _ _
        (fun t => ∃ finished, Traced fetchMeta roots (name :: stack) t finished) (fun _ _ => True)
        (fun dep hdep t t' ht hrun =>
          ⟨ih dep (name :: stack) t t' (hneeded.depends ⟨pkg, hpkg, hdep⟩) ht hrun, trivial,
            fun _ _ => trivial⟩)
        ⟨finished, hs.mark hneeded hold⟩ hloop
      exact ⟨finished₁ ++ [name], hs₁.finish hpkg⟩

/-- A resolution that returns has collected what the names need. -/
theorem resolve_collects {fuel : Nat} {names : List String} {pkgs : List Package}
    (h : resolve fetchMeta fuel names = some (.ok pkgs)) : Collects fetchMeta names pkgs := by
  unfold resolve at h
  split at h
  next s' hloop =>
    obtain rfl := Except.ok.inj (Option.some.inj h)
    have hstart : Traced fetchMeta names [] ⟨[], []⟩ [] :=
      ⟨List.nodup_nil, fun _ => by simp, nofun, rfl⟩
    obtain ⟨⟨finished, htraced⟩, -⟩ := @eachName_ok _ _ _ _
      (fun t => ∃ finished, Traced fetchMeta names [] t finished) (fun _ _ => True)
      (fun n hn t t' ht hrun =>
        ⟨dfs_traced fuel n [] t t' ⟨n, hn, Relation.ReflTransGen.refl⟩ ht hrun, trivial,
          fun _ _ => trivial⟩)
      ⟨[], hstart⟩ hloop
    have hmem : ∀ name, name ∈ finished ↔ name ∈ s'.visited := by
      intro name
      rw [htraced.visited]
      simp
    refine ⟨finished, ?_, fun name => ⟨fun hname => ?_, fun hneeded => ?_⟩, htraced.result⟩
    · have hnodup := htraced.nodup
      rwa [List.append_nil] at hnodup
    · exact htraced.needed name ((hmem name).mp hname)
    · exact (hmem name).mpr (search_done hloop hneeded).1
  next => cases h
  next => cases h

end

/-- Wherever finitely many names can be reached, cycles or not, the resolver comes to an
end, fails exactly if one of them has no metadata, and otherwise collects them. -/
theorem resolve_closure (fetchMeta : Fetch) (names : List String)
    (hfinite : {name | Needed fetchMeta names name}.Finite) :
    ∃ r bound, (∀ fuel, bound < fuel → resolve fetchMeta fuel names = some r) ∧
      ((∃ e, r = .error e) ↔ Missing fetchMeta names) ∧
      ∀ pkgs, r = .ok pkgs → Collects fetchMeta names pkgs := by
  have hknown : Known fetchMeta names hfinite.toFinset.toList := by
    intro name hneeded _
    exact Finset.mem_toList.mpr (hfinite.mem_toFinset.mpr hneeded)
  obtain ⟨r, hr⟩ := resolve_ends hknown
  have hrun := hr _ (Nat.lt_succ_self _)
  refine ⟨r, _, hr, resolve_error_iff hrun, fun pkgs hpkgs => ?_⟩
  subst hpkgs
  exact resolve_collects hrun

/-- What is needed in a cycle of two is one of them. -/
theorem needed_in_cycle {name : String} (h : Needed cyclicRegistry ["a"] name) :
    name = "a" ∨ name = "b" := by
  obtain ⟨root, hroot, hpath⟩ := h
  rw [List.mem_singleton.mp hroot] at hpath
  induction hpath with
  | refl => exact Or.inl rfl
  | tail _ hedge ih =>
      obtain ⟨pkg, hpkg, hdep⟩ := hedge
      rcases ih with rfl | rfl
      · cases hpkg
        exact Or.inr (List.mem_singleton.mp hdep)
      · cases hpkg
        exact Or.inl (List.mem_singleton.mp hdep)

/-- The two packages that depend on each other are both collected. -/
theorem cycle_collected : ∃ pkgs bound,
    (∀ fuel, bound < fuel → resolve cyclicRegistry fuel ["a"] = some (.ok pkgs)) ∧
      Collects cyclicRegistry ["a"] pkgs := by
  have hfinite : {name | Needed cyclicRegistry ["a"] name}.Finite :=
    (Set.toFinite {"a", "b"}).subset fun name hname => needed_in_cycle hname
  obtain ⟨r, bound, hr, herror, hcollects⟩ := resolve_closure cyclicRegistry ["a"] hfinite
  cases r with
  | error e =>
      obtain ⟨name, hneeded, hnone⟩ := herror.mp ⟨e, rfl⟩
      rcases needed_in_cycle hneeded with rfl | rfl
      · cases hnone
      · cases hnone
  | ok pkgs => exact ⟨pkgs, bound, hr, hcollects pkgs rfl⟩

end Npkg
