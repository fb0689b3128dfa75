import Mathlib

/-!
# The dependency resolver of npkg

The model of `resolve` in `pkg_manager/main.go`: a depth-first search that marks
a name before it looks at the dependencies of its package, and appends the
package after them.  `fetchMeta` is a partial map; one with finitely many names is
a `Registry`.

The search is given fuel for its depth.  `resolve_ends` shows that one more than
the number of registered names that can be reached is enough, `resolve_error_iff` that it
fails exactly on a missing name, and `resolve_ordered_iff` that the result is in
dependency order exactly when there is no cycle.
-/

namespace Npkg

/-- What the model uses of a package entry. -/
structure Package where
  name : String
  version : String
  arch : String
  sha256 : String
  dependencies : List String
  scripts : List (String × String)
deriving DecidableEq

/-- `fetchMeta`: what the mirrors have for a name. -/
abbrev Fetch := String → Option Package

/-- `fetchMeta`, and the names that it knows. -/
structure Registry where
  fetchMeta : Fetch
  names : List String
  complete : ∀ name, (fetchMeta name).isSome → name ∈ names

instance : Coe Registry Fetch := ⟨Registry.fetchMeta⟩

/-- `package %q not found` -/
inductive FetchError
  | notFound (name : String)
deriving DecidableEq

/-- `visited` and `result`. -/
structure Search where
  visited : List String
  result : List Package
deriving DecidableEq

/-- A step of the search; `none` if the fuel runs out. -/
abbrev Step := String → Search → Option (Except FetchError Search)

/-- `for _, name := range names { if err := f(name); err != nil { return err } }` -/
def eachName (f : Step) : List String → Search → Option (Except FetchError Search)
  | [], s => some (.ok s)
  | name :: names, s =>
      match f name s with
      | some (.ok s') => eachName f names s'
      | r => r

/-- `dfs`: a package is marked before its dependencies are looked at, so that one on a
cycle is taken as done. -/
def dfs (fetchMeta : Fetch) : Nat → Step
  | 0, _, _ => none
  | fuel + 1, name, s =>
      if name ∈ s.visited then some (.ok s)
      else
        let s := { s with visited := name :: s.visited }
        match fetchMeta name with
        | none => some (.error (.notFound name))
        | some pkg =>
            match eachName (dfs fetchMeta fuel) pkg.dependencies s with
            | some (.ok s') => some (.ok { s' with result := s'.result ++ [pkg] })
            | r => r

/-- `Resolve` -/
def resolve (fetchMeta : Fetch) (fuel : Nat) (names : List String) :
    Option (Except FetchError (List Package)) :=
  match eachName (dfs fetchMeta fuel) names ⟨[], []⟩ with
  | some (.ok s) => some (.ok s.result)
  | some (.error e) => some (.error e)
  | none => none

/-- What the installer has done, in order. -/
inductive Event
  | extracted (pkg : Package)
  | ran (pkg : Package) (script : String)

/-- `runSandboxed` always succeeds. -/
def runScript (pkg : Package) (name : String) : List Event :=
  match pkg.scripts.lookup name with
  | none => []
  | some script => [.ran pkg script]

/-- `InstallAll`, where `extract` says which extractions succeed. -/
def installAll (extract : Package → Bool) : List Package → List Event
  | [] => []
  | pkg :: pkgs =>
      if extract pkg then
        .extracted pkg :: (runScript pkg "post_install" ++ installAll extract pkgs)
      else []

/-- `name` is found, and `dep` is one of its dependencies. -/
def DependsOn (fetchMeta : Fetch) (name dep : String) : Prop :=
  ∃ pkg, fetchMeta name = some pkg ∧ dep ∈ pkg.dependencies

/-- `name` is requested, or a package that is needed depends on it. -/
def Needed (fetchMeta : Fetch) (names : List String) (name : String) : Prop :=
  ∃ root ∈ names, Relation.ReflTransGen (DependsOn fetchMeta) root name

/-- Something needed is not in the registry. -/
def Missing (fetchMeta : Fetch) (names : List String) : Prop :=
  ∃ name, Needed fetchMeta names name ∧ fetchMeta name = none

/-- Something needed depends on itself. -/
def Cyclic (fetchMeta : Fetch) (names : List String) : Prop :=
  ∃ name, Needed fetchMeta names name ∧ Relation.TransGen (DependsOn fetchMeta) name name

/-- Every package comes after the packages it depends on. -/
def Ordered (fetchMeta : Fetch) (pkgs : List Package) : Prop :=
  ∀ before pkg after, pkgs = before ++ pkg :: after →
    ∀ dep ∈ pkg.dependencies, ∃ p, fetchMeta dep = some p ∧ p ∈ before

/-- A package whose dependencies are there can be added. -/
theorem Ordered.append {fetchMeta : Fetch} {pkgs : List Package} {pkg : Package}
    (h : Ordered fetchMeta pkgs)
    (hpkg : ∀ dep ∈ pkg.dependencies, ∃ p, fetchMeta dep = some p ∧ p ∈ pkgs) :
    Ordered fetchMeta (pkgs ++ [pkg]) := by
  intro before p after heq dep hdep
  rcases List.eq_nil_or_concat after with rfl | ⟨after', last, rfl⟩
  · obtain ⟨rfl, hsame⟩ := List.append_inj' heq rfl
    obtain rfl := List.singleton_inj.mp hsame
    exact hpkg dep hdep
  · rw [List.concat_eq_append, ← List.cons_append, ← List.append_assoc] at heq
    obtain ⟨rfl, -⟩ := List.append_inj' heq rfl
    exact h before p after' rfl dep hdep

/-- **Scripts run after the dependencies are extracted**, if the packages come in
order. -/
theorem installAll_ordered {fetchMeta : Fetch} {extract : Package → Bool} {pkg : Package}
    {script : String} {after : List Event} : ∀ pkgs front before, Ordered fetchMeta (front ++ pkgs) →
    installAll extract pkgs = before ++ .ran pkg script :: after →
    ∀ dep ∈ pkg.dependencies, ∃ p, fetchMeta dep = some p ∧
      (p ∈ front ∨ .extracted p ∈ before) := by
  intro pkgs
  induction pkgs with
  | nil =>
      intro front before _ h
      simp [installAll] at h
  | cons q pkgs ih =>
      intro front before hordered h dep hdep
      rw [installAll] at h
      split at h
      next =>
        cases before with
        | nil => cases (List.cons.inj h).1
        | cons e before =>
            obtain rfl := (List.cons.inj h).1
            have htail := (List.cons.inj h).2
            have hrest := fun before' => ih (front ++ [q]) before' (by simpa using hordered)
            have hfront : ∀ {before'}, before' ⊆ before →
                (∃ p, fetchMeta dep = some p ∧ (p ∈ front ++ [q] ∨ .extracted p ∈ before')) →
                ∃ p, fetchMeta dep = some p ∧
                  (p ∈ front ∨ .extracted p ∈ .extracted q :: before) := by
              rintro before' hsub ⟨p, hp, hin | hin⟩
              · rcases List.mem_append.mp hin with hin | hin
                · exact ⟨p, hp, Or.inl hin⟩
                · obtain rfl := List.mem_singleton.mp hin
                  exact ⟨p, hp, Or.inr List.mem_cons_self⟩
              · exact ⟨p, hp, Or.inr (List.mem_cons_of_mem _ (hsub hin))⟩
            change runScript q "post_install" ++ installAll extract pkgs =
              before ++ .ran pkg script :: after at htail
            unfold runScript at htail
            split at htail
            next => exact hfront (List.Subset.refl _) (hrest before htail dep hdep)
            next s' =>
              cases before with
              | nil =>
                  -- the script of `q` itself
                  obtain ⟨heq, -⟩ := List.cons.inj htail
                  obtain ⟨rfl, -⟩ := Event.ran.inj heq
                  obtain ⟨p, hp, hin⟩ := hordered front q pkgs rfl dep hdep
                  exact ⟨p, hp, Or.inl hin⟩
              | cons e before =>
                  obtain ⟨-, hlast⟩ := List.cons.inj htail
                  exact hfront (List.subset_cons_self _ _) (hrest before hlast dep hdep)
      next => simp at h

section

variable {fetchMeta : Fetch} {f g : Step} {names : List String} {s s' : Search}

/-- The loop: an invariant, and what is true of a name once it has been dealt
with. -/
theorem eachName_ok {I : Search → Prop} {D : String → Search → Prop}
    (hstep : ∀ name ∈ names, ∀ s s', I s → f name s = some (.ok s') →
      I s' ∧ D name s' ∧ ∀ x, D x s → D x s')
    (hs : I s) (h : eachName f names s = some (.ok s')) :
    I s' ∧ (∀ name ∈ names, D name s') ∧ ∀ x, D x s → D x s' := by
  induction names generalizing s with
  | nil =>
      obtain rfl := Except.ok.inj (Option.some.inj h)
      exact ⟨hs, by simp, fun _ hx => hx⟩
  | cons name names ih =>
      rw [eachName] at h
      cases hf : f name s with
      | none => simp [hf] at h
      | some r =>
          cases r with
          | error e => simp [hf] at h
          | ok s₁ =>
              rw [hf] at h
              obtain ⟨hs₁, hname, hkeep⟩ := hstep name List.mem_cons_self s s₁ hs hf
              obtain ⟨hs', hnames, hkeep'⟩ :=
                ih (fun n hn => hstep n (List.mem_cons_of_mem _ hn)) hs₁ h
              refine ⟨hs', fun n hn => ?_, fun x hx => hkeep' x (hkeep x hx)⟩
              rcases List.mem_cons.mp hn with rfl | hn
              · exact hkeep' _ hname
              · exact hnames n hn

/-- A loop that fails has failed at one of the names. -/
theorem eachName_error {e : FetchError} (h : eachName f names s = some (.error e)) :
    ∃ name ∈ names, ∃ s₁, f name s₁ = some (.error e) := by
  induction names generalizing s with
  | nil => cases h
  | cons name names ih =>
      rw [eachName] at h
      cases hf : f name s with
      | none => simp [hf] at h
      | some r =>
          rw [hf] at h
          cases r with
          | error e' => exact ⟨name, List.mem_cons_self, s, hf.trans h⟩
          | ok s₁ =>
              obtain ⟨n, hn, s₂, hs₂⟩ := ih h
              exact ⟨n, List.mem_cons_of_mem _ hn, s₂, hs₂⟩

/-- A loop over steps that all come to an end comes to an end. -/
theorem eachName_ends {I : Search → Prop}
    (hstep : ∀ name ∈ names, ∀ s, I s → ∃ r, f name s = some r ∧ ∀ s', r = .ok s' → I s')
    (hs : I s) : ∃ r, eachName f names s = some r := by
  induction names generalizing s with
  | nil => exact ⟨_, rfl⟩
  | cons name names ih =>
      obtain ⟨r, hf, hr⟩ := hstep name List.mem_cons_self s hs
      rw [eachName, hf]
      cases r with
      | error e => exact ⟨_, rfl⟩
      | ok s' => exact ih (fun n hn => hstep n (List.mem_cons_of_mem _ hn)) (hr s' rfl)

/-- Steps that agree wherever the first one ends. -/
theorem eachName_mono (hfg : ∀ name s r, f name s = some r → g name s = some r)
    {r : Except FetchError Search} (h : eachName f names s = some r) :
    eachName g names s = some r := by
  induction names generalizing s with
  | nil => exact h
  | cons name names ih =>
      rw [eachName] at h ⊢
      cases hf : f name s with
      | none => simp [hf] at h
      | some r' =>
          rw [hf] at h
          rw [hfg name s r' hf]
          cases r' with
          | error e => exact h
          | ok s' => exact ih h

/-- What is needed by something needed is needed. -/
theorem Needed.depends {roots : List String} {name dep : String} (h : Needed fetchMeta roots name)
    (hdep : DependsOn fetchMeta name dep) : Needed fetchMeta roots dep := by
  obtain ⟨root, hroot, hpath⟩ := h
  exact ⟨root, hroot, hpath.tail hdep⟩

/-- The number of known names that are not marked. -/
def unmarked (known : List String) (s : Search) : Nat :=
  (known.toFinset \ s.visited.toFinset).card

/-- The more is marked, the fewer are left. -/
private theorem unmarked_le {known : List String} (hsub : s.visited ⊆ s'.visited) :
    unmarked known s' ≤ unmarked known s := by
  apply Finset.card_le_card
  apply Finset.sdiff_subset_sdiff (Finset.Subset.refl _)
  intro x hx
  exact List.mem_toFinset.mpr (hsub (List.mem_toFinset.mp hx))

/-- With a name that was not marked, one less is left. -/
private theorem unmarked_mark {known : List String} {name : String} (hmem : name ∈ known)
    (hnew : name ∉ s.visited) :
    unmarked known { s with visited := name :: s.visited } < unmarked known s := by
  apply Finset.card_lt_card
  rw [Finset.ssubset_iff_of_subset]
  · exact ⟨name, by simp [hmem, hnew], by simp⟩
  · apply Finset.sdiff_subset_sdiff (Finset.Subset.refl _)
    intro x hx
    exact List.mem_toFinset.mpr (List.mem_cons_of_mem _ (List.mem_toFinset.mp hx))

/-- The known names are all that are needed and registered. -/
def Known (fetchMeta : Fetch) (roots known : List String) : Prop :=
  ∀ name, Needed fetchMeta roots name → (fetchMeta name).isSome → name ∈ known

/-- **A search ends**: each level of the recursion marks a known name. -/
theorem dfs_ends {roots known : List String} (hknown : Known fetchMeta roots known) :
    ∀ fuel name s, Needed fetchMeta roots name → unmarked known s < fuel →
      ∃ r, dfs fetchMeta fuel name s = some r ∧ ∀ s', r = .ok s' → s.visited ⊆ s'.visited := by
  intro fuel
  induction fuel with
  | zero => exact fun _ _ _ h => absurd h (Nat.not_lt_zero _)
  | succ fuel ih =>
      intro name s hneeded hfuel
      rw [dfs]
      by_cases hold : name ∈ s.visited
      · rw [if_pos hold]
        exact ⟨_, rfl, fun s' h => Except.ok.inj h ▸ List.Subset.refl _⟩
      rw [if_neg hold]
      dsimp only
      cases hpkg : fetchMeta name with
      | none => exact ⟨_, rfl, fun s' h => by cases h⟩
      | some pkg =>
          have hmark := unmarked_mark (hknown name hneeded (by rw [hpkg]; rfl)) hold
          -- every state of the loop has the marks of the one it starts in
          let I : Search → Prop := fun s' => name :: s.visited ⊆ s'.visited
          have hstep : ∀ dep ∈ pkg.dependencies, ∀ s₁, I s₁ →
              ∃ r, dfs fetchMeta fuel dep s₁ = some r ∧ ∀ s', r = .ok s' → I s' := by
            intro dep hdep s₁ hs₁
            have hle := @unmarked_le { s with visited := name :: s.visited } s₁ known hs₁
            obtain ⟨r, hr, hkeep⟩ := ih dep s₁ (hneeded.depends ⟨pkg, hpkg, hdep⟩) (by omega)
            exact ⟨r, hr, fun s' h => List.Subset.trans hs₁ (hkeep s' h)⟩
          have hstart : I { s with visited := name :: s.visited } := List.Subset.refl _
          obtain ⟨r, hr⟩ := @eachName_ends _ pkg.dependencies _ I hstep hstart
          dsimp only
          rw [hr]
          cases r with
          | error e => exact ⟨_, rfl, fun s' h => by cases h⟩
          | ok s₁ =>
              refine ⟨_, rfl, fun s' h => ?_⟩
              rw [← Except.ok.inj h]
              have hkept := (@eachName_ok _ _ _ _ I (fun _ _ => True)
                (fun dep hdep s₂ s₃ hs₂ hs₃ => by
                  obtain ⟨r, hr, hI⟩ := hstep dep hdep s₂ hs₂
                  rw [hs₃] at hr
                  exact ⟨hI s₃ (Option.some.inj hr).symm, trivial, fun _ _ => trivial⟩)
                hstart hr).1
              exact fun x hx => hkept (List.mem_cons_of_mem _ hx)

/-- More fuel changes nothing. -/
theorem dfs_mono (fetchMeta : Fetch) : ∀ fuel fuel', fuel ≤ fuel' → ∀ name s r,
    dfs fetchMeta fuel name s = some r → dfs fetchMeta fuel' name s = some r := by
  intro fuel
  induction fuel with
  | zero =>
      intro fuel' _ name s r h
      cases h
  | succ fuel ih =>
      intro fuel' hle name s r h
      obtain ⟨n, rfl⟩ := Nat.exists_eq_add_of_lt hle
      rw [dfs] at h ⊢
      by_cases hold : name ∈ s.visited
      · rwa [if_pos hold] at h ⊢
      rw [if_neg hold] at h ⊢
      dsimp only at h ⊢
      cases hpkg : fetchMeta name with
      | none => rwa [hpkg] at h
      | some pkg =>
          rw [hpkg] at h
          dsimp only at h ⊢
          cases hloop : eachName (dfs fetchMeta fuel) pkg.dependencies
              { s with visited := name :: s.visited } with
          | none => simp [hloop] at h
          | some r' =>
              rw [hloop] at h
              rw [eachName_mono (ih (fuel + n) (Nat.le_add_right _ _)) hloop]
              exact h

/-- `resolve` comes to an end wherever finitely many registered names can be reached. -/
theorem resolve_ends {known : List String} (hknown : Known fetchMeta names known) :
    ∃ r, ∀ fuel, known.length < fuel → resolve fetchMeta fuel names = some r := by
  have hcard : ∀ s, unmarked known s ≤ known.length := fun s =>
    (Finset.card_le_card Finset.sdiff_subset).trans (List.toFinset_card_le _)
  obtain ⟨r, hr⟩ := @eachName_ends (dfs fetchMeta (known.length + 1)) names ⟨[], []⟩
    (fun _ => True) (fun name hname s _ => by
      obtain ⟨r, hr, -⟩ := dfs_ends hknown (known.length + 1) name s
        ⟨name, hname, Relation.ReflTransGen.refl⟩ (Nat.lt_succ_of_le (hcard s))
      exact ⟨r, hr, fun _ _ => trivial⟩) trivial
  have hmore : ∀ fuel, known.length < fuel →
      eachName (dfs fetchMeta fuel) names ⟨[], []⟩ = some r :=
    fun fuel hfuel => eachName_mono (dfs_mono fetchMeta _ fuel hfuel) hr
  cases r with
  | error e => exact ⟨.error e, fun fuel hfuel => by rw [resolve, hmore fuel hfuel]⟩
  | ok s => exact ⟨.ok s.result, fun fuel hfuel => by rw [resolve, hmore fuel hfuel]⟩

/-- The package of `name` is in the result, and its dependencies are marked. -/
def Done (fetchMeta : Fetch) (name : String) (s : Search) : Prop :=
  ∃ pkg, fetchMeta name = some pkg ∧ pkg ∈ s.result ∧
    ∀ dep ∈ pkg.dependencies, dep ∈ s.visited

/-- A marked name is done, or its call is one of those in progress. -/
def Marked (fetchMeta : Fetch) (stack : List String) (s : Search) : Prop :=
  ∀ name ∈ s.visited, name ∈ stack ∨ Done fetchMeta name s

/-- The search has only added to what it had. -/
structure Grows (s s' : Search) : Prop where
  visited : s.visited ⊆ s'.visited
  result : s.result ⊆ s'.result

/-- It has added nothing. -/
theorem Grows.refl (s : Search) : Grows s s := ⟨List.Subset.refl _, List.Subset.refl _⟩

/-- It has added, and added again. -/
theorem Grows.trans {s₁ s₂ s₃ : Search} (h : Grows s₁ s₂) (h' : Grows s₂ s₃) : Grows s₁ s₃ :=
  ⟨List.Subset.trans h.visited h'.visited, List.Subset.trans h.result h'.result⟩

/-- What is done stays done. -/
theorem Done.grows {name : String} (h : Done fetchMeta name s) (hg : Grows s s') :
    Done fetchMeta name s' := by
  obtain ⟨pkg, hpkg, hmem, hdeps⟩ := h
  exact ⟨pkg, hpkg, hg.result hmem, fun dep hdep => hg.visited (hdeps dep hdep)⟩

/-- Appending the package of a name, with its dependencies marked, finishes it. -/
theorem Marked.finish {name : String} {pkg : Package} {stack : List String}
    (h : Marked fetchMeta (name :: stack) s) (hpkg : fetchMeta name = some pkg)
    (hdeps : ∀ dep ∈ pkg.dependencies, dep ∈ s.visited) :
    Marked fetchMeta stack { s with result := s.result ++ [pkg] } := by
  have hgrows : Grows s { s with result := s.result ++ [pkg] } :=
    ⟨List.Subset.refl _, List.subset_append_left _ _⟩
  intro n hn
  by_cases hname : n = name
  · subst hname
    exact Or.inr ⟨pkg, hpkg, by simp, hdeps⟩
  · rcases h n hn with hstack | hdone
    · exact Or.inl ((List.mem_cons.mp hstack).resolve_left hname)
    · exact Or.inr (hdone.grows hgrows)

/-- A call that succeeds has found the name marked, or has been through the
dependencies of its package. -/
theorem dfs_ok {fuel : Nat} {name : String} (h : dfs fetchMeta (fuel + 1) name s = some (.ok s')) :
    (name ∈ s.visited ∧ s' = s) ∨
    ∃ pkg s₁, fetchMeta name = some pkg ∧
      eachName (dfs fetchMeta fuel) pkg.dependencies { s with visited := name :: s.visited } =
        some (.ok s₁) ∧
      s' = { s₁ with result := s₁.result ++ [pkg] } := by
  rw [dfs] at h
  by_cases hold : name ∈ s.visited
  · rw [if_pos hold] at h
    exact Or.inl ⟨hold, (Except.ok.inj (Option.some.inj h)).symm⟩
  rw [if_neg hold] at h
  dsimp only at h
  cases hpkg : fetchMeta name with
  | none =>
      rw [hpkg] at h
      cases h
  | some pkg =>
      rw [hpkg] at h
      dsimp only at h
      split at h
      next s₁ hloop =>
        exact Or.inr ⟨pkg, s₁, rfl, hloop, (Except.ok.inj (Option.some.inj h)).symm⟩
      next r hr => exact absurd h (hr s')

/-- Marking a name puts its call among those in progress. -/
theorem Marked.mark {stack : List String} (h : Marked fetchMeta stack s) (name : String) :
    Marked fetchMeta (name :: stack) { s with visited := name :: s.visited } := by
  intro n hn
  rcases List.mem_cons.mp hn with rfl | hn
  · exact Or.inl List.mem_cons_self
  · rcases h n hn with hstack | hdone
    · exact Or.inl (List.mem_cons_of_mem _ hstack)
    · exact Or.inr (hdone.grows ⟨List.subset_cons_self _ _, List.Subset.refl _⟩)

/-- **What a call that succeeds has done**, whatever the graph. -/
theorem dfs_marked (fetchMeta : Fetch) : ∀ fuel name stack s s', Marked fetchMeta stack s →
    dfs fetchMeta fuel name s = some (.ok s') →
      Marked fetchMeta stack s' ∧ name ∈ s'.visited ∧ Grows s s' := by
  intro fuel
  induction fuel with
  | zero =>
      intro name stack s s' _ h
      cases h
  | succ fuel ih =>
      intro name stack s s' hs h
      rcases dfs_ok h with ⟨hold, rfl⟩ | ⟨pkg, s₁, hpkg, hloop, rfl⟩
      · exact ⟨hs, hold, Grows.refl _⟩
      let I : Search → Prop := fun t =>
        Marked fetchMeta (name :: stack) t ∧ Grows { s with visited := name :: s.visited } t
      obtain ⟨⟨hmarked, hgrows⟩, hdeps, -⟩ := @eachName_ok _ _ _ _ I
        (fun dep t => dep ∈ t.visited)
        (fun dep _ t t' ht hrun => by
          obtain ⟨hm, hdep, hg⟩ := ih dep (name :: stack) t t' ht.1 hrun
          exact ⟨⟨hm, ht.2.trans hg⟩, hdep, fun x hx => hg.visited hx⟩)
        ⟨hs.mark name, Grows.refl _⟩ hloop
      refine ⟨hmarked.finish hpkg hdeps, hgrows.visited List.mem_cons_self, ?_, ?_⟩
      · exact fun x hx => hgrows.visited (List.mem_cons_of_mem _ hx)
      · exact fun x hx => List.mem_append_left _ (hgrows.result hx)

/-- Without cycles a name that has been called is done: no call in progress can
be the one it depends on. -/
theorem dfs_done {roots stack : List String} {fuel : Nat} {name : String}
    (hacyclic : ¬ Cyclic fetchMeta roots) (hneeded : Needed fetchMeta roots name)
    (hstack : ∀ n ∈ stack, Relation.TransGen (DependsOn fetchMeta) n name)
    (hs : Marked fetchMeta stack s) (h : dfs fetchMeta fuel name s = some (.ok s')) : Done fetchMeta name s' := by
  obtain ⟨hmarked, hname, -⟩ := dfs_marked fetchMeta fuel name stack s s' hs h
  rcases hmarked name hname with hin | hdone
  · exact absurd ⟨name, hneeded, hstack name hin⟩ hacyclic
  · exact hdone

/-- **The order without cycles.** -/
theorem dfs_ordered {roots : List String} (hacyclic : ¬ Cyclic fetchMeta roots) :
    ∀ fuel name stack s s', Needed fetchMeta roots name →
      (∀ n ∈ stack, Relation.TransGen (DependsOn fetchMeta) n name) → Marked fetchMeta stack s →
      Ordered fetchMeta s.result → dfs fetchMeta fuel name s = some (.ok s') → Ordered fetchMeta s'.result := by
  intro fuel
  induction fuel with
  | zero =>
      intro name stack s s' _ _ _ _ h
      cases h
  | succ fuel ih =>
      intro name stack s s' hneeded hstack hs hordered h
      rcases dfs_ok h with ⟨-, rfl⟩ | ⟨pkg, s₁, hpkg, hloop, rfl⟩
      · exact hordered
      let I : Search → Prop := fun t => Marked fetchMeta (name :: stack) t ∧ Ordered fetchMeta t.result
      obtain ⟨⟨-, hresult⟩, hdeps, -⟩ := @eachName_ok _ _ _ _ I
        (fun dep t => ∃ p, fetchMeta dep = some p ∧ p ∈ t.result)
        (fun dep hdep t t' ht hrun => by
          have hedge : DependsOn fetchMeta name dep := ⟨pkg, hpkg, hdep⟩
          have hpath : ∀ n ∈ name :: stack, Relation.TransGen (DependsOn fetchMeta) n dep := by
            intro n hn
            rcases List.mem_cons.mp hn with rfl | hn
            · exact Relation.TransGen.single hedge
            · exact (hstack n hn).tail hedge
          obtain ⟨hm, -, hg⟩ := dfs_marked fetchMeta fuel dep (name :: stack) t t' ht.1 hrun
          obtain ⟨p, hp, hmem, -⟩ := dfs_done hacyclic (hneeded.depends hedge) hpath ht.1 hrun
          have hord := ih dep (name :: stack) t t' (hneeded.depends hedge) hpath ht.1 ht.2 hrun
          exact ⟨⟨hm, hord⟩, ⟨p, hp, hmem⟩, fun x ⟨q, hq, hin⟩ => ⟨q, hq, hg.result hin⟩⟩)
        ⟨hs.mark name, hordered⟩ hloop
      exact hresult.append hdeps

/-- A call fails only on a name that is not registered. -/
theorem dfs_error (fetchMeta : Fetch) (e : FetchError) : ∀ fuel name s,
    dfs fetchMeta fuel name s = some (.error e) →
      ∃ n, Relation.ReflTransGen (DependsOn fetchMeta) name n ∧ fetchMeta n = none := by
  intro fuel
  induction fuel with
  | zero =>
      intro name s h
      cases h
  | succ fuel ih =>
      intro name s h
      rw [dfs] at h
      by_cases hold : name ∈ s.visited
      · rw [if_pos hold] at h
        cases h
      rw [if_neg hold] at h
      dsimp only at h
      cases hpkg : fetchMeta name with
      | none => exact ⟨name, Relation.ReflTransGen.refl, hpkg⟩
      | some pkg =>
          rw [hpkg] at h
          dsimp only at h
          split at h
          next => cases h
          next r hr =>
            obtain ⟨dep, hdep, s₁, hs₁⟩ := eachName_error h
            obtain ⟨n, hpath, hn⟩ := ih dep s₁ hs₁
            exact ⟨n, Relation.ReflTransGen.head ⟨pkg, hpkg, hdep⟩ hpath, hn⟩

/-- At the start nothing is marked. -/
theorem marked_start : Marked fetchMeta [] ⟨[], []⟩ := fun _ h => absurd h List.not_mem_nil

/-- No packages are in order. -/
private theorem ordered_nil : Ordered fetchMeta [] := fun before _ _ h => by
  simp at h

/-- A search that succeeds is done with all names that are needed. -/
theorem search_done {fuel : Nat}
    (h : eachName (dfs fetchMeta fuel) names ⟨[], []⟩ = some (.ok s')) {name : String}
    (hneeded : Needed fetchMeta names name) : name ∈ s'.visited ∧ Done fetchMeta name s' := by
  obtain ⟨hmarked, hroots, -⟩ := @eachName_ok _ _ _ _ (Marked fetchMeta [])
    (fun n t => n ∈ t.visited)
    (fun n _ t t' ht hrun => by
      obtain ⟨hm, hn, hg⟩ := dfs_marked fetchMeta fuel n [] t t' ht hrun
      exact ⟨hm, hn, fun x hx => hg.visited hx⟩)
    marked_start h
  have hdone : ∀ n ∈ s'.visited, Done fetchMeta n s' :=
    fun n hn => (hmarked n hn).resolve_left List.not_mem_nil
  obtain ⟨root, hroot, hpath⟩ := hneeded
  -- the marked names are closed under dependencies
  have hvisited : name ∈ s'.visited := by
    induction hpath with
    | refl => exact hroots root hroot
    | tail _ hedge ih =>
        obtain ⟨pkg, hpkg, -, hdeps⟩ := hdone _ ih
        obtain ⟨pkg', hpkg', hdep⟩ := hedge
        obtain rfl := Option.some.inj (hpkg.symm.trans hpkg')
        exact hdeps _ hdep
  exact ⟨hvisited, hdone name hvisited⟩

/-- A result has the packages of all names that are needed. -/
theorem resolve_done {fuel : Nat} {pkgs : List Package}
    (h : resolve fetchMeta fuel names = some (.ok pkgs)) {name : String}
    (hneeded : Needed fetchMeta names name) : ∃ pkg, fetchMeta name = some pkg ∧ pkg ∈ pkgs := by
  unfold resolve at h
  split at h
  next s' hloop =>
    obtain rfl := Except.ok.inj (Option.some.inj h)
    obtain ⟨-, pkg, hpkg, hmem, -⟩ := search_done hloop hneeded
    exact ⟨pkg, hpkg, hmem⟩
  next => cases h
  next => cases h

/-- **`resolve` fails** exactly if a needed name is not registered. -/
theorem resolve_error_iff {fuel : Nat} {r : Except FetchError (List Package)}
    (h : resolve fetchMeta fuel names = some r) : (∃ e, r = .error e) ↔ Missing fetchMeta names := by
  constructor
  · rintro ⟨e, rfl⟩
    unfold resolve at h
    split at h
    next => cases h
    next e' hloop =>
      obtain ⟨root, hroot, s₁, hs₁⟩ := eachName_error hloop
      obtain ⟨n, hpath, hn⟩ := dfs_error fetchMeta e' fuel root s₁ hs₁
      exact ⟨n, ⟨root, hroot, hpath⟩, hn⟩
    next => cases h
  · rintro ⟨name, hneeded, hnone⟩
    cases r with
    | error e => exact ⟨e, rfl⟩
    | ok pkgs =>
        obtain ⟨pkg, hpkg, -⟩ := resolve_done h hneeded
        rw [hnone] at hpkg
        cases hpkg

/-- Without a cycle the result is in order. -/
theorem resolve_acyclic {fuel : Nat} {pkgs : List Package} (hacyclic : ¬ Cyclic fetchMeta names)
    (h : resolve fetchMeta fuel names = some (.ok pkgs)) : Ordered fetchMeta pkgs := by
  unfold resolve at h
  split at h
  next s' hloop =>
    obtain rfl := Except.ok.inj (Option.some.inj h)
    let I : Search → Prop := fun t => Marked fetchMeta [] t ∧ Ordered fetchMeta t.result
    exact (@eachName_ok _ _ _ _ I (fun _ _ => True)
      (fun n hn t t' ht hrun => by
        have hneeded : Needed fetchMeta names n := ⟨n, hn, Relation.ReflTransGen.refl⟩
        have hstack : ∀ x ∈ ([] : List String), Relation.TransGen (DependsOn fetchMeta) x n :=
          fun x hx => absurd hx List.not_mem_nil
        have hm := (dfs_marked fetchMeta fuel n [] t t' ht.1 hrun).1
        have hord := dfs_ordered hacyclic fuel n [] t t' hneeded hstack ht.1 ht.2 hrun
        exact ⟨⟨hm, hord⟩, trivial, fun _ _ => trivial⟩)
      ⟨marked_start, ordered_nil⟩ hloop).1.2
  next => cases h
  next => cases h

/-- The place of the package of a name in a list. -/
def place (fetchMeta : Fetch) (pkgs : List Package) (name : String) : Nat :=
  match fetchMeta name with
  | some pkg => pkgs.idxOf pkg
  | none => 0

/-- In an ordered list a dependency has an earlier place. -/
theorem Ordered.place_lt {pkgs : List Package} (h : Ordered fetchMeta pkgs) {name dep : String}
    (hmem : ∃ pkg, fetchMeta name = some pkg ∧ pkg ∈ pkgs) (hdep : DependsOn fetchMeta name dep) :
    place fetchMeta pkgs dep < place fetchMeta pkgs name := by
  obtain ⟨pkg, hpkg, hin⟩ := hmem
  obtain ⟨pkg', hpkg', hdep⟩ := hdep
  obtain rfl := Option.some.inj (hpkg.symm.trans hpkg')
  obtain ⟨before, after, heq, hfirst⟩ := List.eq_append_cons_of_mem hin
  obtain ⟨p, hp, hbefore⟩ := h before pkg after heq dep hdep
  have hname : place fetchMeta pkgs name = before.length := by
    simp only [place, hpkg]
    rw [heq, List.idxOf_append_of_notMem hfirst, List.idxOf_cons_self, Nat.add_zero]
  have hplace : place fetchMeta pkgs dep = before.idxOf p := by
    simp only [place, hp]
    rw [heq, List.idxOf_append_of_mem hbefore]
  rw [hname, hplace]
  exact List.idxOf_lt_length_of_mem hbefore

/-- A list in order has no cycle among the names whose packages are in it. -/
theorem Ordered.acyclic {pkgs : List Package} (h : Ordered fetchMeta pkgs)
    (hdone : ∀ name, Needed fetchMeta names name → ∃ pkg, fetchMeta name = some pkg ∧ pkg ∈ pkgs) :
    ¬ Cyclic fetchMeta names := by
  rintro ⟨name, hneeded, hcycle⟩
  have hlt : ∀ m, Relation.TransGen (DependsOn fetchMeta) name m →
      Needed fetchMeta names m ∧ place fetchMeta pkgs m < place fetchMeta pkgs name := by
    intro m hpath
    induction hpath with
    | single hedge =>
        exact ⟨hneeded.depends hedge, h.place_lt (hdone name hneeded) hedge⟩
    | tail _ hedge ih =>
        have hstep := h.place_lt (hdone _ ih.1) hedge
        exact ⟨ih.1.depends hedge, hstep.trans ih.2⟩
  exact Nat.lt_irrefl _ (hlt name hcycle).2

/-- **`resolve` terminates** on every registry and every list of names. -/
theorem resolve_terminates (reg : Registry) (names : List String) :
    ∃ r, ∀ fuel, reg.names.length < fuel → resolve reg fuel names = some r :=
  resolve_ends fun name _ hsome => reg.complete name hsome

/-- What the resolver ought to do: come to an end, and put every package after
those it depends on. -/
def ResolvesInOrder (reg : Registry) (names : List String) : Prop :=
  ∃ r, (∀ fuel, reg.names.length < fuel → resolve reg fuel names = some r) ∧
    ∀ pkgs, r = .ok pkgs → Ordered reg pkgs

/-- **Dependencies come first** exactly if a needed name is missing, which is an
error, or there is no cycle. -/
theorem resolve_ordered_iff (reg : Registry) (names : List String) :
    ResolvesInOrder reg names ↔ Missing reg names ∨ ¬ Cyclic reg names := by
  obtain ⟨r, hr⟩ := resolve_terminates reg names
  have hrun := hr (reg.names.length + 1) (Nat.lt_succ_self _)
  constructor
  · rintro ⟨r', hr', hordered⟩
    obtain rfl : r = r' := by
      have hrun' := hr' (reg.names.length + 1) (Nat.lt_succ_self _)
      exact Option.some.inj (hrun.symm.trans hrun')
    cases r with
    | error e => exact Or.inl ((resolve_error_iff hrun).mp ⟨e, rfl⟩)
    | ok pkgs =>
        exact Or.inr ((hordered pkgs rfl).acyclic (fun _ hneeded => resolve_done hrun hneeded))
  · intro hgood
    refine ⟨r, hr, fun pkgs heq => ?_⟩
    subst heq
    rcases hgood with hmissing | hacyclic
    · obtain ⟨e, he⟩ := (resolve_error_iff hrun).mpr hmissing
      cases he
    · exact resolve_acyclic hacyclic hrun

end

/-- Two packages that depend on each other. -/
def cyclicRegistry : Registry where
  fetchMeta := fun name =>
    if name = "a" then some ⟨"a", "1", "x86_64", "aa", ["b"], []⟩
    else if name = "b" then some ⟨"b", "1", "x86_64", "bb", ["a"], []⟩
    else none
  names := ["a", "b"]
  complete := by
    intro name h
    by_cases ha : name = "a"
    · simp [ha]
    · by_cases hb : name = "b"
      · simp [hb]
      · simp [ha, hb] at h

/-- **A cycle is no error**: `b` comes before `a`, which it depends on. -/
theorem cycle_not_ordered :
    resolve cyclicRegistry 3 ["a"] = some (.ok [⟨"b", "1", "x86_64", "bb", ["a"], []⟩,
      ⟨"a", "1", "x86_64", "aa", ["b"], []⟩]) ∧
    ¬ ResolvesInOrder cyclicRegistry ["a"] := by
  have hrun : resolve cyclicRegistry 3 ["a"] = some (.ok [⟨"b", "1", "x86_64", "bb", ["a"], []⟩,
      ⟨"a", "1", "x86_64", "aa", ["b"], []⟩]) := by decide +kernel
  refine ⟨hrun, ?_⟩
  rintro ⟨r, hr, hordered⟩
  obtain rfl := Option.some.inj ((hr 3 (by decide)).symm.trans hrun)
  obtain ⟨p, -, hp⟩ := hordered _ rfl [] _ _ rfl "a" (by simp)
  exact absurd hp List.not_mem_nil

end Npkg
