import Mathlib.Data.Set.Lattice

/-!
# Capabilities

The model of the sets in `security/capabilities.rs`. A set is a word with a bit
for each capability; `CapSet.members` is what it stands for. A process loses
capabilities by `drop`, and a program that it starts gets its own by
`exec_child`. Along any line of such steps they only become fewer.
-/

namespace Capabilities

/-- `CapSet`, a bit for each capability. -/
abbrev CapSet := BitVec 64

/-- The discriminants are the positions. -/
inductive Cap
  | setUid | dacOverride | dacReadSearch | chown | netBindService | netBroadcast | netRaw
  | netAdmin | sysReboot | sysMount | sysModule | sysPtrace | sysNice | sysResource | sysTime
  | ipcOwner | kill | auditRead | auditWrite | macAdmin | macOverride | sysRawIo | sysChroot
  | ipcLock | setpcapUser
deriving DecidableEq

/-- `cap as u32` -/
def Cap.number (cap : Cap) : Nat := cap.ctorIdx

namespace CapSet

/-- `CapSet::empty` -/
def empty : CapSet := 0
def all : CapSet := BitVec.allOnes 64

/-- `CapSet::has` -/
def has (s : CapSet) (cap : Cap) : Bool := s &&& (1#64 <<< cap.number) != 0

/-- `CapSet::union` -/
def union (s other : CapSet) : CapSet := s ||| other

/-- `CapSet::intersect` -/
def intersect (s other : CapSet) : CapSet := s &&& other

/-- `CapSet::drop` -/
def drop (s : CapSet) (cap : Cap) : CapSet := s &&& ~~~(1#64 <<< cap.number)

end CapSet

/-- `ProcCaps` -/
structure ProcCaps where
  permitted : CapSet
  effective : CapSet
  inheritable : CapSet
  ambient : CapSet
deriving DecidableEq

namespace ProcCaps

/-- `ProcCaps::all_powerful`, the capabilities of the first process. -/
def allPowerful : ProcCaps where
  permitted := CapSet.all
  effective := CapSet.all
  inheritable := CapSet.empty
  ambient := CapSet.empty

/-- `ProcCaps::unprivileged` -/
def unprivileged : ProcCaps where
  permitted := CapSet.empty
  effective := CapSet.empty
  inheritable := CapSet.empty
  ambient := CapSet.empty

/-- The capabilities that `daemon` names. -/
def daemonSet : CapSet :=
  (1 <<< Cap.netBindService.number) ||| (1 <<< Cap.netBroadcast.number) |||
    (1 <<< Cap.sysResource.number) ||| (1 <<< Cap.ipcOwner.number) |||
    (1 <<< Cap.auditWrite.number)

/-- `ProcCaps::daemon` -/
def daemon : ProcCaps where
  permitted := daemonSet
  effective := daemonSet
  inheritable := CapSet.empty
  ambient := CapSet.empty

/-- `ProcCaps::check`: only the effective set counts. -/
def check (c : ProcCaps) (cap : Cap) : Bool := c.effective.has cap

/-- `ProcCaps::drop`, from all four sets. -/
def drop (c : ProcCaps) (cap : Cap) : ProcCaps where
  permitted := c.permitted.drop cap
  effective := c.effective.drop cap
  inheritable := c.inheritable.drop cap
  ambient := c.ambient.drop cap

/-- `ProcCaps::exec_child`: what is inherited on both sides, and what is ambient. -/
def execChild (c : ProcCaps) (fileInheritable : CapSet) : ProcCaps :=
  let inheritable := c.inheritable.intersect fileInheritable
  let permitted := inheritable.union c.ambient
  { permitted := permitted
    effective := permitted
    inheritable := inheritable
    ambient := c.ambient }

end ProcCaps

namespace CapSet

variable {s t : CapSet} {cap : Cap}

/-- The numbers of the capabilities in a set. -/
def members (s : CapSet) : Set Nat := {n | s.getLsbD n}

/-- A capability has a bit of the word. -/
private theorem number_lt (cap : Cap) : cap.number < 64 := by
  cases cap <;> decide

/-- `has` is membership. -/
theorem has_iff : s.has cap ↔ cap.number ∈ s.members := by
  have hbit : (BitVec.twoPow 64 cap.number) ≠ 0#64 := by
    cases cap <;> decide
  rw [has, ← BitVec.twoPow_eq, BitVec.and_twoPow, members, Set.mem_ofPred_eq]
  cases s.getLsbD cap.number <;> simp [hbit]

/-- `union` is the union. -/
theorem members_union : (s.union t).members = s.members ∪ t.members := by
  ext n
  simp [members, union]

/-- `intersect` is the intersection. -/
theorem members_intersect : (s.intersect t).members = s.members ∩ t.members := by
  ext n
  simp [members, intersect]

/-- `drop` takes one element away. -/
theorem members_drop : (s.drop cap).members = s.members \ {cap.number} := by
  ext n
  have hword : s.getLsbD n → n < 64 := BitVec.lt_of_getLsbD
  simp only [members, drop, ← BitVec.twoPow_eq, BitVec.getLsbD_and, BitVec.getLsbD_not,
    BitVec.getLsbD_twoPow, Set.mem_ofPred_eq, Set.mem_sdiff, Set.mem_singleton_iff]
  grind [number_lt cap]

/-- The empty word has none. -/
theorem members_empty : empty.members = ∅ := by
  ext n
  simp [members, empty]

end CapSet

namespace ProcCaps

variable {c : ProcCaps} {cap : Cap} {n : Nat}

/-- A check is membership in the effective set. -/
theorem check_iff : c.check cap ↔ cap.number ∈ c.effective.members := CapSet.has_iff

/-- The permitted set is the largest. -/
structure Bounded (c : ProcCaps) : Prop where
  effective : c.effective.members ⊆ c.permitted.members
  inheritable : c.inheritable.members ⊆ c.permitted.members
  ambient : c.ambient.members ⊆ c.permitted.members

/-- No set has the capability. -/
structure Lacks (c : ProcCaps) (n : Nat) : Prop where
  permitted : n ∉ c.permitted.members
  effective : n ∉ c.effective.members
  inheritable : n ∉ c.inheritable.members
  ambient : n ∉ c.ambient.members

/-- What is lacking is not there at the check. -/
theorem Lacks.check (h : c.Lacks cap.number) : ¬c.check cap :=
  fun hcheck => h.effective (check_iff.mp hcheck)

/-- What becomes of a process: it drops a capability, or it is replaced by a
program whose file allows some to be inherited. -/
inductive Step
  | drop (cap : Cap)
  | execChild (fileInheritable : CapSet)

/-- One step of the descent. -/
def step (c : ProcCaps) : Step → ProcCaps
  | .drop cap => c.drop cap
  | .execChild fileInheritable => c.execChild fileInheritable

/-- A line of descent. -/
def descend (c : ProcCaps) (line : List Step) : ProcCaps := line.foldl step c

/-- A descent in two parts. -/
private theorem descend_append (c : ProcCaps) (line rest : List Step) :
    c.descend (line ++ rest) = (c.descend line).descend rest :=
  List.foldl_append

/-- What is dropped is lacking. -/
private theorem drop_lacks (c : ProcCaps) (cap : Cap) : (c.drop cap).Lacks cap.number := by
  constructor <;> simp [drop, CapSet.members_drop]

/-- No step brings back what is lacking. -/
theorem Lacks.step (h : c.Lacks n) (a : Step) : (c.step a).Lacks n := by
  cases a with
  | drop cap =>
      constructor <;> rw [ProcCaps.step, ProcCaps.drop, CapSet.members_drop]
      · exact fun hn => h.permitted hn.1
      · exact fun hn => h.effective hn.1
      · exact fun hn => h.inheritable hn.1
      · exact fun hn => h.ambient hn.1
  | execChild fileInheritable =>
      have hinheritable : n ∉ (c.inheritable.intersect fileInheritable).members := by
        rw [CapSet.members_intersect]
        exact fun hn => h.inheritable hn.1
      have hpermitted :
          n ∉ ((c.inheritable.intersect fileInheritable).union c.ambient).members := by
        rw [CapSet.members_union]
        exact fun hn => hn.elim hinheritable h.ambient
      exact ⟨hpermitted, hpermitted, hinheritable, h.ambient⟩

/-- A step keeps the permitted set largest and makes it no larger. -/
theorem Bounded.step (h : c.Bounded) (a : Step) :
    (c.step a).Bounded ∧ (c.step a).permitted.members ⊆ c.permitted.members := by
  cases a with
  | drop cap =>
      have hless {s t : CapSet} (hst : s.members ⊆ t.members) :
          (s.drop cap).members ⊆ (t.drop cap).members := by
        rw [CapSet.members_drop, CapSet.members_drop]
        exact Set.sdiff_subset_sdiff_left hst
      refine ⟨⟨hless h.effective, hless h.inheritable, hless h.ambient⟩, ?_⟩
      rw [ProcCaps.step, ProcCaps.drop, CapSet.members_drop]
      exact Set.sdiff_subset
  | execChild fileInheritable =>
      have hunion : ((c.inheritable.intersect fileInheritable).union c.ambient).members =
          (c.inheritable.intersect fileInheritable).members ∪ c.ambient.members :=
        CapSet.members_union
      have hinherited : (c.inheritable.intersect fileInheritable).members ⊆
          c.inheritable.members := by
        rw [CapSet.members_intersect]
        exact Set.inter_subset_left
      refine ⟨⟨subset_rfl, ?_, ?_⟩, ?_⟩
      · exact Set.subset_union_left.trans_eq hunion.symm
      · exact Set.subset_union_right.trans_eq hunion.symm
      · exact hunion.subset.trans
          (Set.union_subset (hinherited.trans h.inheritable) h.ambient)

/-- **So it stays away** down the whole line. -/
theorem Lacks.descend (h : c.Lacks n) (line : List Step) : (c.descend line).Lacks n := by
  induction line generalizing c with
  | nil => exact h
  | cons a line ih => exact ih (h.step a)

/-- A line of descent keeps to what was permitted at its beginning. -/
theorem Bounded.descend (h : c.Bounded) (line : List Step) :
    (c.descend line).Bounded ∧ (c.descend line).permitted.members ⊆ c.permitted.members := by
  induction line generalizing c with
  | nil => exact ⟨h, subset_rfl⟩
  | cons a line ih =>
      obtain ⟨hbounded, hless⟩ := h.step a
      obtain ⟨hbounded', hless'⟩ := ih hbounded
      exact ⟨hbounded', hless'.trans hless⟩

/-- Every preset is bounded. -/
theorem presets_bounded : allPowerful.Bounded ∧ unprivileged.Bounded ∧ daemon.Bounded := by
  have hpreset (s : CapSet) : Bounded ⟨s, s, CapSet.empty, CapSet.empty⟩ := by
    refine ⟨subset_rfl, ?_, ?_⟩ <;> simp [CapSet.members_empty]
  exact ⟨hpreset CapSet.all, hpreset CapSet.empty, hpreset daemonSet⟩

/-- A child of a preset process starts with nothing: the presets inherit nothing. -/
theorem execChild_of_preset (s fileInheritable : CapSet) :
    execChild ⟨s, s, CapSet.empty, CapSet.empty⟩ fileInheritable = unprivileged := by
  simp [execChild, CapSet.union, CapSet.intersect, CapSet.empty, unprivileged]

end ProcCaps

open ProcCaps

/-- Along every line of descent a dropped capability stays away, whatever came
before and comes after, and a process whose permitted set is the largest leaves
to its line no check that succeeds but those for what it was permitted. The
presets are such, and what their children have by inheritance is nothing. -/
theorem privileges_only_shrink (c : ProcCaps) (before after : List Step) (cap : Cap) :
    (c.descend (before ++ .drop cap :: after)).Lacks cap.number ∧
      ¬(c.descend (before ++ .drop cap :: after)).check cap ∧
      (c.Bounded → (c.descend before).Bounded ∧
        ((c.descend before).check cap → cap.number ∈ c.permitted.members)) ∧
      allPowerful.Bounded ∧ unprivileged.Bounded ∧ daemon.Bounded ∧
      ∀ fileInheritable, allPowerful.execChild fileInheritable = unprivileged ∧
        daemon.execChild fileInheritable = unprivileged := by
  have hlacks : (c.descend (before ++ .drop cap :: after)).Lacks cap.number := by
    rw [descend_append]
    exact (drop_lacks (c.descend before) cap).descend after
  refine ⟨hlacks, hlacks.check, fun hbounded => ?_, presets_bounded.1, presets_bounded.2.1,
    presets_bounded.2.2, fun fileInheritable =>
      ⟨execChild_of_preset CapSet.all fileInheritable,
        execChild_of_preset daemonSet fileInheritable⟩⟩
  obtain ⟨hkept, hless⟩ := hbounded.descend before
  exact ⟨hkept, fun hcheck => hless (hkept.effective (check_iff.mp hcheck))⟩

end Capabilities
