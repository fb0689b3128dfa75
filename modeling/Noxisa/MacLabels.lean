import Mathlib

/-!
# Mandatory access control

Processes and paths have labels, and a policy says which accesses one label has to the
other.  A path that has no label of its own gets that of the longest labelled string it
begins with.  Such a string is not always an ancestor in the directory tree: a label of
"/a" is that of "/ab" too.  `Permitted` is the decision by the tree, on labels that are
given as functions of the calls made.
-/

namespace Mac

/-- A path, by its characters. -/
abbrev Str := List Char

/-- `type Label = &'static str` -/
abbrev Label := String

/-- `Access`, a set of bits. -/
abbrev Access := BitVec 32

namespace Access

/-- `Access::READ` and the other rights. -/
def read : Access := 1 <<< 0
def write : Access := 1 <<< 1
def create : Access := 1 <<< 3
def delete : Access := 1 <<< 4
def connect : Access := 1 <<< 5
def send : Access := 1 <<< 6
def recv : Access := 1 <<< 7
def setattr : Access := 1 <<< 9
def getattr : Access := 1 <<< 10
def append : Access := 1 <<< 11

/-- The thirteen flags. -/
def all : Access := (1 <<< 13) - 1

/-- `Access::contains` -/
def contains (a b : Access) : Bool := a &&& b == b

end Access

/-- `Rule`: what a subject with one label may do to an object with another. -/
structure Rule where
  subject : Label
  object : Label
  allow : Access
deriving DecidableEq

/-- `MacPolicy`: the rules and the labels, each table in the order of its map. -/
structure MacPolicy where
  rules : List Rule := []
  procLabels : List (UInt32 × Label) := []
  resourceLabels : List (Str × Label) := []
deriving DecidableEq

/-- `load_default_policy` -/
def defaultPolicy : List Rule := [
  ⟨"kernel_t", "sys_file_t", .all⟩,
  ⟨"kernel_t", "user_file_t", .all⟩,
  ⟨"init_t", "sys_file_t", .all⟩,
  ⟨"init_t", "user_file_t", .all⟩,
  ⟨"init_t", "ipc_obj_t", .all⟩,
  ⟨"daemon_t", "sys_file_t", .read ||| .getattr⟩,
  ⟨"daemon_t", "ipc_obj_t", .send ||| .recv ||| .create⟩,
  ⟨"daemon_t", "net_socket_t", .connect ||| .send ||| .recv⟩,
  ⟨"user_t", "user_file_t",
    .read ||| .write ||| .create ||| .delete ||| .getattr ||| .setattr ||| .append⟩,
  ⟨"user_t", "sys_file_t", .read ||| .getattr⟩,
  ⟨"user_t", "ipc_obj_t", .send ||| .recv⟩,
  ⟨"user_t", "net_socket_t", .connect ||| .send ||| .recv⟩,
  ⟨"browser_t", "net_socket_t", .connect ||| .send ||| .recv⟩,
  ⟨"browser_t", "user_file_t", .read ||| .write ||| .create ||| .getattr⟩,
  ⟨"untrusted_t", "user_file_t", .read ||| .getattr⟩]

/-- Whether a rule for the two labels covers the access. -/
def ruleCheck (rules : List Rule) (subject object : Label) (access : Access) : Bool :=
  rules.any fun rule =>
    rule.subject = subject && rule.object = object && rule.allow.contains access

section
variable {K V : Type}

/-- The value under a key. -/
def find [DecidableEq K] (table : List (K × V)) (key : K) : Option V :=
  (table.find? (·.1 = key)).map Prod.snd

/-- Sets the value of the first entry with this key, or adds one. -/
def assign [DecidableEq K] (key : K) (value : V) : List (K × V) → List (K × V)
  | [] => [(key, value)]
  | e :: table => if e.1 = key then (e.1, value) :: table else e :: assign key value table

/-- The last of the entries with the largest key. -/
def maxByKey (f : K × V → Nat) (table : List (K × V)) : Option (K × V) :=
  table.foldl (fun best e => match best with
    | none => some e
    | some b => if f b ≤ f e then some e else some b) none

end

/-- The calls that change the labels. -/
inductive Op
  | labelProcess (pid : UInt32) (label : Label)
  | labelResource (path : Str) (label : Label)
  | deregister (pid : UInt32)

/-- The policy that `init` makes. -/
def loaded : MacPolicy := { rules := defaultPolicy, procLabels := [(0, "kernel_t")] }

/-- What such a call does to the policy. -/
def update (policy : MacPolicy) : Op → MacPolicy
  | .labelProcess pid label => { policy with procLabels := assign pid label policy.procLabels }
  | .labelResource path label =>
      { policy with resourceLabels := assign path label policy.resourceLabels }
  | .deregister pid => { policy with procLabels := policy.procLabels.filter (·.1 ≠ pid) }

/-- The lookup of a resource: the longest prefix that has a label. -/
def objectOf (policy : MacPolicy) (path : Str) : Option Label :=
  (maxByKey (fun e => String.utf8Len e.1)
    (policy.resourceLabels.filter fun e => e.1.isPrefixOf path)).map Prod.snd

/-- The decision of `check` under a policy. -/
def decision (policy : MacPolicy) (pid : UInt32) (path : Str) (access : Access) : Bool :=
  match find policy.procLabels pid with
  | none => false
  | some subj =>
      match objectOf policy path with
      | none => false
      | some obj => ruleCheck policy.rules subj obj access

/-- `POLICY` holds nothing before `init`: then no call does anything, and everything
is allowed. -/
def init : Option MacPolicy := some loaded

/-- A call, which does nothing before `init`. -/
def step (policy : Option MacPolicy) (op : Op) : Option MacPolicy := policy.map (update · op)

/-- The calls after `init`. -/
def run (ops : List Op) : Option MacPolicy := ops.foldl step init

/-- `mac::check`: without a policy everything is allowed. -/
def check (policy : Option MacPolicy) (pid : UInt32) (path : Str) (access : Access) : Bool :=
  match policy with
  | none => true
  | some policy => decision policy pid path access

/-- The labels that the calls have given. -/
structure Labels where
  proc : UInt32 → Option Label
  path : Str → Option Label

/-- What a call says about the labels. -/
def Labels.step (labels : Labels) : Op → Labels
  | .labelProcess pid label => { labels with proc := Function.update labels.proc pid (some label) }
  | .labelResource path label =>
      { labels with path := Function.update labels.path path (some label) }
  | .deregister pid => { labels with proc := Function.update labels.proc pid none }

/-- What the calls after `init` say about them. -/
def given (ops : List Op) : Labels :=
  ops.foldl Labels.step
    { proc := Function.update (fun _ => none) 0 (some "kernel_t"), path := fun _ => none }

/-- A path as that of a directory. -/
def asDir (path : Str) : Str := if path.getLast? = some '/' then path else path ++ ['/']

/-- The path itself, or one that is below it in the directory tree. -/
def Covers (dir path : Str) : Prop := dir = path ∨ asDir dir <+: path

/-- The longest labelled one of the strings that `isOver` puts above the path, with its label. -/
structure Deepest (isOver : Str → Str → Prop) (labels : Str → Option Label) (path dir : Str)
    (label : Label) : Prop where
  labelled : labels dir = some label
  above : isOver dir path
  longest : ∀ other, labels other ≠ none → isOver other path → other.length ≤ dir.length

/-- The policy allows every bit of the access. -/
def Allows (subject object : Label) (access : Access) : Prop :=
  ∀ bit, access.getLsbD bit = true → ∃ rule ∈ defaultPolicy,
    rule.subject = subject ∧ rule.object = object ∧ rule.allow.getLsbD bit = true

/-- The decision by the tree. -/
def Permitted (labels : Labels) (pid : UInt32) (path : Str) (access : Access) : Prop :=
  ∃ subject dir object, labels.proc pid = some subject ∧
    Deepest Covers labels.path path dir object ∧ Allows subject object access

section
variable {K V : Type} [DecidableEq K]

/-- A key is looked up at the first entry and then in the others. -/
theorem find_cons (e : K × V) (table : List (K × V)) (key : K) :
    find (e :: table) key = if e.1 = key then some e.2 else find table key := by
  by_cases h : e.1 = key <;> simp [find, h]

/-- A key that is assigned has the new value, the others theirs. -/
theorem find_assign (key : K) (value : V) (table : List (K × V)) :
    find (assign key value table) = Function.update (find table) key (some value) := by
  funext other
  induction table with
  | nil =>
      rw [assign, find_cons, Function.update_apply]
      simp only [eq_comm]
  | cons e table ih =>
      rw [Function.update_apply] at ih ⊢
      rw [assign]
      by_cases hkey : e.1 = key
      · rw [if_pos hkey, find_cons, find_cons]
        by_cases hother : other = key
        · rw [if_pos hother, if_pos (hkey.trans hother.symm)]
        · have hne : e.1 ≠ other := fun h => hother (h.symm.trans hkey)
          rw [if_neg hother, if_neg hne, if_neg hne]
      · rw [if_neg hkey, find_cons, find_cons, ih]
        by_cases hother : other = key
        · have hne : e.1 ≠ other := fun h => hkey (h.trans hother)
          rw [if_pos hother, if_neg hne, if_pos hother]
        · rw [if_neg hother, if_neg hother]

/-- A key that is filtered out has none. -/
theorem find_filter (key : K) (table : List (K × V)) :
    find (table.filter (·.1 ≠ key)) = Function.update (find table) key none := by
  funext other
  induction table with
  | nil =>
      rw [Function.update_apply]
      split <;> rfl
  | cons e table ih =>
      rw [Function.update_apply] at ih ⊢
      rw [find_cons]
      by_cases hkey : e.1 = key
      · rw [List.filter_cons_of_neg (by simpa using hkey), ih]
        by_cases hother : other = key
        · rw [if_pos hother, if_pos hother]
        · have hne : e.1 ≠ other := fun h => hother (h.symm.trans hkey)
          rw [if_neg hother, if_neg hother, if_neg hne]
      · rw [List.filter_cons_of_pos (by simpa using hkey), find_cons, ih]
        by_cases hother : other = key
        · have hne : e.1 ≠ other := fun h => hkey (h.trans hother)
          rw [if_neg hne, if_pos hother, if_pos hother]
        · rw [if_neg hother, if_neg hother]

/-- Only the key that is assigned is new. -/
theorem mem_assign {key : K} {value : V} {table : List (K × V)} {k : K}
    (h : k ∈ (assign key value table).map Prod.fst) : k = key ∨ k ∈ table.map Prod.fst := by
  induction table with
  | nil => exact Or.inl (List.mem_singleton.mp h)
  | cons e table ih =>
      rw [assign] at h
      split at h
      · exact Or.inr h
      · rcases List.mem_cons.mp h with rfl | hrest
        · exact Or.inr List.mem_cons_self
        · exact (ih hrest).imp_right (List.mem_cons_of_mem _)

/-- A key keeps one entry. -/
theorem nodup_assign (key : K) (value : V) {table : List (K × V)}
    (h : (table.map Prod.fst).Nodup) : ((assign key value table).map Prod.fst).Nodup := by
  induction table with
  | nil => exact List.nodup_singleton key
  | cons e table ih =>
      obtain ⟨he, htable⟩ := List.nodup_cons.mp h
      rw [assign]
      split
      · exact List.nodup_cons.mpr ⟨he, htable⟩
      · next hkey =>
          exact List.nodup_cons.mpr ⟨fun hmem => (mem_assign hmem).elim hkey he, ih htable⟩

/-- With one entry for each key, finding is membership. -/
theorem find_iff {table : List (K × V)} (h : (table.map Prod.fst).Nodup) {key : K} {value : V} :
    find table key = some value ↔ (key, value) ∈ table := by
  induction table with
  | nil => simp [find]
  | cons e table ih =>
      obtain ⟨he, htable⟩ := List.nodup_cons.mp h
      rw [find_cons, List.mem_cons]
      by_cases hkey : e.1 = key
      · have hnot : (key, value) ∉ table := fun hmem =>
          he (hkey ▸ List.mem_map_of_mem hmem)
        rw [if_pos hkey, Option.some.injEq, or_iff_left hnot]
        constructor
        · rintro rfl
          exact Prod.ext hkey.symm rfl
        · intro heq
          rw [← heq]
      · have hne : (key, value) ≠ e := fun heq => hkey (congrArg Prod.fst heq).symm
        rw [if_neg hkey, ih htable, or_iff_right hne]

end

section
variable {K V : Type} (f : K × V → Nat)

/-- The maximum with one entry more, which wins a tie. -/
private theorem maxByKey_concat (table : List (K × V)) (e : K × V) :
    maxByKey f (table ++ [e]) = match maxByKey f table with
      | none => some e
      | some b => if f b ≤ f e then some e else some b := by
  rw [maxByKey, List.foldl_append]
  rfl

/-- What `max_by_key` returns is an entry that none is larger than. -/
theorem maxByKey_spec (table : List (K × V)) :
    (maxByKey f table = none ∧ table = []) ∨
      ∃ b, maxByKey f table = some b ∧ b ∈ table ∧ ∀ e ∈ table, f e ≤ f b := by
  induction table using List.reverseRecOn with
  | nil => exact Or.inl ⟨rfl, rfl⟩
  | append_singleton table e ih =>
      right
      rw [maxByKey_concat]
      obtain ⟨hnone, rfl⟩ | ⟨b, hbest, hmem, hmax⟩ := ih
      · exact ⟨e, by rw [hnone], List.mem_singleton_self e, by simp⟩
      · rw [hbest]
        dsimp only
        by_cases hle : f b ≤ f e
        · refine ⟨e, if_pos hle, List.mem_append_right _ (List.mem_singleton_self e),
            fun x hx => ?_⟩
          rcases List.mem_append.mp hx with h | h
          · exact (hmax x h).trans hle
          · rw [List.mem_singleton.mp h]
        · refine ⟨b, if_neg hle, List.mem_append_left _ hmem, fun x hx => ?_⟩
          rcases List.mem_append.mp hx with h | h
          · exact hmax x h
          · rw [List.mem_singleton.mp h]
            omega

end

/-- The tables hold the labels, one entry for each path. -/
structure Tracks (policy : MacPolicy) (labels : Labels) : Prop where
  rules : policy.rules = defaultPolicy
  procs : find policy.procLabels = labels.proc
  paths : find policy.resourceLabels = labels.path
  keys : (policy.resourceLabels.map Prod.fst).Nodup

/-- A call changes the tables as it changes what is said of the labels. -/
theorem Tracks.after {policy : MacPolicy} {labels : Labels} (h : Tracks policy labels) (op : Op) :
    Tracks (update policy op) (labels.step op) := by
  obtain ⟨hrules, hprocs, hpaths, hkeys⟩ := h
  cases op with
  | labelProcess pid label =>
      exact ⟨hrules, (find_assign pid label _).trans (by rw [hprocs]; rfl), hpaths, hkeys⟩
  | labelResource path label =>
      exact ⟨hrules, hprocs, (find_assign path label _).trans (by rw [hpaths]; rfl),
        nodup_assign path label hkeys⟩
  | deregister pid =>
      exact ⟨hrules, (find_filter pid _).trans (by rw [hprocs]; rfl), hpaths, hkeys⟩

/-- After any calls the tables say what the calls do. -/
theorem run_tracks (ops : List Op) :
    ∃ policy, run ops = some policy ∧ Tracks policy (given ops) := by
  induction ops using List.reverseRecOn with
  | nil =>
      have hinit : find loaded.procLabels = (given []).proc := by
        funext pid
        change find (([] : List (UInt32 × Label)).cons (0, "kernel_t")) pid = _
        rw [find_cons]
        change _ = Function.update (fun _ => none) 0 (some "kernel_t") pid
        rw [Function.update_apply]
        simp only [eq_comm]
        rfl
      exact ⟨loaded, rfl, rfl, hinit, rfl, List.nodup_nil⟩
  | append_singleton ops op ih =>
      obtain ⟨policy, hrun, htracks⟩ := ih
      have hstep : run (ops ++ [op]) = step (run ops) op := by
        rw [run, List.foldl_append]
        rfl
      have hgiven : given (ops ++ [op]) = (given ops).step op := by
        rw [given, List.foldl_append]
        rfl
      exact ⟨update policy op, by rw [hstep, hrun]; rfl, by rw [hgiven]; exact htracks.after op⟩

/-- A directory is the beginning of itself with a slash. -/
private theorem prefix_asDir (dir : Str) : dir <+: asDir dir := by
  rw [asDir]
  split
  · exact List.prefix_rfl
  · exact List.prefix_append dir ['/']

/-- What is below a directory begins with its name. -/
theorem Covers.isPrefix {dir path : Str} (h : Covers dir path) : dir <+: path := by
  rcases h with rfl | h
  · exact List.prefix_rfl
  · exact (prefix_asDir dir).trans h

/-- Of two prefixes of a path, the one of more bytes is the longer one. -/
theorem length_le_of_utf8Len_le {a b path : Str} (ha : a <+: path) (hb : b <+: path)
    (h : String.utf8Len a ≤ String.utf8Len b) : a.length ≤ b.length := by
  rcases List.prefix_or_prefix_of_prefix ha hb with hab | ⟨rest, rfl⟩
  · exact hab.length_le
  · cases rest with
    | nil => rw [List.append_nil]
    | cons c rest =>
        have hpos := c.utf8Size_pos
        rw [String.utf8Len_append, String.utf8Len_cons] at h
        omega

section
variable {isOver : Str → Str → Prop} {labels : Str → Option Label} {path dir dir' : Str}
  {label label' : Label}

/-- There is one deepest. -/
theorem Deepest.unique (hover : ∀ {d}, isOver d path → d <+: path)
    (h : Deepest isOver labels path dir label) (h' : Deepest isOver labels path dir' label') :
    dir = dir' ∧ label = label' := by
  have hlabelled : labels dir ≠ none := by rw [h.labelled]; exact Option.some_ne_none label
  have hlabelled' : labels dir' ≠ none := by rw [h'.labelled]; exact Option.some_ne_none label'
  have hlen : dir.length = dir'.length :=
    Nat.le_antisymm (h'.longest dir hlabelled h.above) (h.longest dir' hlabelled' h'.above)
  have hdir : dir = dir' :=
    (List.prefix_of_prefix_length_le (hover h.above) (hover h'.above) hlen.le).eq_of_length hlen
  have hlabel := h.labelled
  rw [hdir, h'.labelled] at hlabel
  exact ⟨hdir, (Option.some.inj hlabel).symm⟩

end

section
variable {policy : MacPolicy} {labels : Labels}

/-- The resource lookup finds the deepest labelled prefix. -/
theorem Tracks.objectOf_iff (h : Tracks policy labels) (path : Str) (object : Label) :
    objectOf policy path = some object ↔
      ∃ dir, Deepest (· <+: ·) labels.path path dir object := by
  have hmem : ∀ {e : Str × Label}, e ∈ policy.resourceLabels.filter (fun e => e.1.isPrefixOf path) ↔
      labels.path e.1 = some e.2 ∧ e.1 <+: path := fun {e} => by
    rw [List.mem_filter, List.isPrefixOf_iff_prefix, ← h.paths, find_iff h.keys]
  rw [objectOf]
  obtain ⟨hnone, hempty⟩ | ⟨b, hbest, hb, hmax⟩ := maxByKey_spec
    (fun e : Str × Label => String.utf8Len e.1)
    (policy.resourceLabels.filter fun e => e.1.isPrefixOf path)
  · rw [hnone]
    constructor
    · intro hobj
      cases hobj
    · rintro ⟨dir, hdeepest⟩
      have hin : (dir, object) ∈ policy.resourceLabels.filter (fun e => e.1.isPrefixOf path) :=
        hmem.mpr ⟨hdeepest.labelled, hdeepest.above⟩
      rw [hempty] at hin
      cases hin
  · obtain ⟨hlabel, hbegins⟩ := hmem.mp hb
    have hdeepest : Deepest (· <+: ·) labels.path path b.1 b.2 := by
      refine ⟨hlabel, hbegins, fun other hother hover => ?_⟩
      obtain ⟨l, hl⟩ := Option.ne_none_iff_exists'.mp hother
      exact length_le_of_utf8Len_le hover hbegins (hmax (other, l) (hmem.mpr ⟨hl, hover⟩))
    rw [hbest, Option.map_some, Option.some.injEq]
    constructor
    · rintro rfl
      exact ⟨b.1, hdeepest⟩
    · rintro ⟨dir, hdir⟩
      exact (hdeepest.unique id hdir).2

/-- The lookup fails only where no prefix is labelled. -/
theorem Tracks.objectOf_none (h : Tracks policy labels) {path : Str}
    (hnone : objectOf policy path = none) {dir : Str} (hdir : labels.path dir ≠ none) :
    ¬dir <+: path := by
  intro hbegins
  obtain ⟨label, hlabel⟩ := Option.ne_none_iff_exists'.mp hdir
  obtain ⟨-, hempty⟩ | ⟨b, hbest, -⟩ := maxByKey_spec
    (fun e : Str × Label => String.utf8Len e.1)
    (policy.resourceLabels.filter fun e => e.1.isPrefixOf path)
  · have hin : (dir, label) ∈ policy.resourceLabels.filter (fun e => e.1.isPrefixOf path) := by
      rw [List.mem_filter, List.isPrefixOf_iff_prefix, ← find_iff h.keys, h.paths]
      exact ⟨hlabel, hbegins⟩
    rw [hempty] at hin
    cases hin
  · rw [objectOf, hbest] at hnone
    cases hnone

/-- The check decides by the deepest labelled prefix. -/
theorem Tracks.decision_iff (h : Tracks policy labels) (pid : UInt32) (path : Str)
    (access : Access) :
    decision policy pid path access = true ↔
      ∃ subject dir object, labels.proc pid = some subject ∧
        Deepest (· <+: ·) labels.path path dir object ∧
        ruleCheck defaultPolicy subject object access = true := by
  have hobject := fun object => h.objectOf_iff path object
  rw [decision, h.procs, h.rules]
  constructor
  · intro hcheck
    cases hproc : labels.proc pid with
    | none => simp [hproc] at hcheck
    | some subject =>
        cases hobj : objectOf policy path with
        | none => simp [hproc, hobj] at hcheck
        | some object =>
            obtain ⟨dir, hdir⟩ := (hobject object).mp hobj
            simp only [hproc, hobj] at hcheck
            exact ⟨subject, dir, object, rfl, hdir, hcheck⟩
  · rintro ⟨subject, dir, object, hproc, hdir, hrule⟩
    simp only [hproc, (hobject object).mpr ⟨dir, hdir⟩, hrule]

end

/-- The default policy has one rule for two labels. -/
theorem defaultPolicy_unique : ∀ r ∈ defaultPolicy, ∀ r' ∈ defaultPolicy,
    r.subject = r'.subject → r.object = r'.object → r = r' := by
  decide +kernel

/-- `contains` compares bit by bit. -/
theorem contains_iff (a b : Access) :
    a.contains b = true ↔ ∀ bit, b.getLsbD bit = true → a.getLsbD bit = true := by
  rw [Access.contains, beq_iff_eq]
  constructor
  · intro h bit hbit
    rw [← h, BitVec.getLsbD_and, Bool.and_eq_true] at hbit
    exact hbit.1
  · intro h
    apply BitVec.eq_of_getLsbD_eq
    intro bit _
    rw [BitVec.getLsbD_and]
    cases hb : b.getLsbD bit with
    | false => exact Bool.and_false _
    | true => rw [h bit hb, Bool.and_true]

/-- What the default policy lets a subject do to an object: the bits of the rule for
the two labels, if there is one. -/
def rights (subject object : Label) : Option Access :=
  (defaultPolicy.find? fun rule => rule.subject = subject && rule.object = object).map Rule.allow

/-- All bits of the access are among the rights. -/
def Covered (access : Access) : Option Access → Prop
  | none => False
  | some allow => allow.contains access = true

/-- The rights are the bits of any rule for the two labels: there is only one. -/
theorem rights_of_rule {rule : Rule} (hrule : rule ∈ defaultPolicy) :
    rights rule.subject rule.object = some rule.allow := by
  have hsome : (defaultPolicy.find? fun other =>
      other.subject = rule.subject && other.object = rule.object).isSome :=
    List.find?_isSome.mpr ⟨rule, hrule, by simp⟩
  obtain ⟨found, hfound⟩ := Option.isSome_iff_exists.mp hsome
  have hlabels := List.find?_some hfound
  simp only [Bool.and_eq_true, decide_eq_true_eq] at hlabels
  have hsame : found = rule :=
    defaultPolicy_unique found (List.mem_of_find?_eq_some hfound) rule hrule hlabels.1 hlabels.2
  rw [rights, hfound, hsame, Option.map_some]

/-- Rights come from a rule for the two labels. -/
theorem rule_of_rights {subject object : Label} {allow : Access}
    (h : rights subject object = some allow) :
    ∃ rule ∈ defaultPolicy, rule.subject = subject ∧ rule.object = object ∧
      rule.allow = allow := by
  obtain ⟨rule, hfound, hallow⟩ := Option.map_eq_some_iff.mp h
  have hlabels := List.find?_some hfound
  simp only [Bool.and_eq_true, decide_eq_true_eq] at hlabels
  exact ⟨rule, List.mem_of_find?_eq_some hfound, hlabels.1, hlabels.2, hallow⟩

/-- The scan of the rules looks for rights that cover the access. -/
theorem ruleCheck_iff (subject object : Label) (access : Access) :
    ruleCheck defaultPolicy subject object access = true ↔
      Covered access (rights subject object) := by
  have hscan : ruleCheck defaultPolicy subject object access = true ↔
      ∃ rule ∈ defaultPolicy, rule.subject = subject ∧ rule.object = object ∧
        rule.allow.contains access = true := by
    rw [ruleCheck, List.any_eq_true]
    simp only [Bool.and_eq_true, decide_eq_true_eq, and_assoc]
  rw [hscan]
  constructor
  · rintro ⟨rule, hrule, rfl, rfl, hcontains⟩
    rw [rights_of_rule hrule]
    exact hcontains
  · intro hcovered
    cases hrights : rights subject object with
    | none =>
        rw [hrights] at hcovered
        exact hcovered.elim
    | some allow =>
        rw [hrights] at hcovered
        obtain ⟨rule, hrule, hsubject, hobject, rfl⟩ := rule_of_rights hrights
        exact ⟨rule, hrule, hsubject, hobject, hcovered⟩

/-- Nothing is asked of the policy for no access; for any other the rights have to
cover it. -/
theorem allows_iff (subject object : Label) (access : Access) :
    Allows subject object access ↔ access = 0 ∨ Covered access (rights subject object) := by
  constructor
  · intro hallows
    by_cases hzero : access = 0
    · exact Or.inl hzero
    · -- a bit that is set has a rule, and that rule is the one for all bits
      have hbit : ∃ bit, access.getLsbD bit = true := by
        by_contra hnone
        refine hzero (BitVec.eq_of_getLsbD_eq fun bit _ => Eq.trans ?_ BitVec.getLsbD_zero.symm)
        exact Bool.eq_false_iff.mpr fun hset => hnone ⟨bit, hset⟩
      obtain ⟨bit, hset⟩ := hbit
      obtain ⟨rule, hrule, rfl, rfl, -⟩ := hallows bit hset
      refine Or.inr ?_
      rw [rights_of_rule hrule]
      refine (contains_iff _ _).mpr fun other hother => ?_
      obtain ⟨rule', hrule', hsubject, hobject, hallow⟩ := hallows other hother
      rwa [defaultPolicy_unique rule hrule rule' hrule' hsubject.symm hobject.symm]
  · rintro (rfl | hcovered) bit hbit
    · cases BitVec.getLsbD_zero.symm.trans hbit
    · have hscan := (ruleCheck_iff subject object access).mpr hcovered
      cases hrights : rights subject object with
      | none =>
          rw [hrights] at hcovered
          exact hcovered.elim
      | some allow =>
          rw [hrights] at hcovered
          obtain ⟨rule, hrule, hsubject, hobject, rfl⟩ := rule_of_rights hrights
          exact ⟨rule, hrule, hsubject, hobject, (contains_iff _ _).mp hcovered bit hbit⟩

section
variable (ops : List Op) (pid : UInt32) (path : Str) (access : Access)

/-- The check decides as the tree does. -/
def Exact : Prop :=
  check (run ops) pid path access = true ↔ Permitted (given ops) pid path access

/-- A label of `dir` changes the decision at most on the paths below it. -/
def Local (dir : Str) (label : Label) : Prop :=
  dir.getLast? ≠ some '/' → ¬Covers dir path →
    check (run (ops ++ [.labelResource dir label])) pid path access =
      check (run ops) pid path access

/-- The longest labelled prefix of the path is the path or an ancestor, and there is a
rule for the labels if no access is asked for. Or it is a mere prefix, and its label
gives the subject no other rights to the access than the label of the deepest
labelled ancestor does, and none where no ancestor is labelled. -/
def Straight : Prop :=
  ∀ subject dir object, (given ops).proc pid = some subject →
    Deepest (· <+: ·) (given ops).path path dir object →
      (Covers dir path ∧ (access = 0 → rights subject object ≠ none)) ∨
      (¬Covers dir path ∧
        ((∃ ancestor object', Deepest Covers (given ops).path path ancestor object' ∧
          (Covered access (rights subject object) ↔
            access = 0 ∨ Covered access (rights subject object'))) ∨
        ((∀ ancestor, (given ops).path ancestor ≠ none → ¬Covers ancestor path) ∧
          ¬Covered access (rights subject object))))

/-- The labelled string is not a prefix of the path, or there is a longer labelled
prefix. Or the new label gives the subject no other rights to the access than the
label of the longest prefix before does, and none where no prefix was labelled. -/
def Apart (dir : Str) (label : Label) : Prop :=
  dir.getLast? ≠ some '/' → ¬Covers dir path → dir <+: path →
    (∀ other, (given ops).path other ≠ none → other <+: path → other.length ≤ dir.length) →
    ∀ subject, (given ops).proc pid = some subject →
      (∃ other object, Deepest (· <+: ·) (given ops).path path other object ∧
        (Covered access (rights subject label) ↔ Covered access (rights subject object))) ∨
      ((∀ other, (given ops).path other ≠ none → ¬other <+: path) ∧
        ¬Covered access (rights subject label))

end

section
variable {ops : List Op} {pid : UInt32} {path : Str}

/-- A longest prefix that is an ancestor is the deepest ancestor. -/
theorem Deepest.covering {labels : Str → Option Label} {dir : Str} {label : Label}
    (h : Deepest (· <+: ·) labels path dir label) (hcovers : Covers dir path) :
    Deepest Covers labels path dir label :=
  ⟨h.labelled, hcovers, fun other hother hover => h.longest other hother hover.isPrefix⟩

/-- After any calls the check decides by the deepest labelled prefix. -/
theorem check_iff (ops : List Op) (pid : UInt32) (path : Str) (access : Access) :
    check (run ops) pid path access = true ↔
      ∃ subject dir object, (given ops).proc pid = some subject ∧
        Deepest (· <+: ·) (given ops).path path dir object ∧
        ruleCheck defaultPolicy subject object access = true := by
  obtain ⟨policy, hrun, htracks⟩ := run_tracks ops
  rw [hrun]
  exact htracks.decision_iff pid path access

/-- Either no prefix of a path is labelled, or one is the longest. -/
theorem deepest_or_none (ops : List Op) (path : Str) :
    (∀ dir, (given ops).path dir ≠ none → ¬dir <+: path) ∨
      ∃ dir object, Deepest (· <+: ·) (given ops).path path dir object := by
  obtain ⟨policy, -, htracks⟩ := run_tracks ops
  cases hobject : objectOf policy path with
  | none => exact Or.inl fun dir => htracks.objectOf_none hobject
  | some object =>
      obtain ⟨dir, hdir⟩ := (htracks.objectOf_iff path object).mp hobject
      exact Or.inr ⟨dir, object, hdir⟩

/-- Where there is a longest labelled prefix, its label decides. -/
theorem check_of_deepest (access : Access) {subject object : Label} {dir : Str}
    (hproc : (given ops).proc pid = some subject)
    (hdir : Deepest (· <+: ·) (given ops).path path dir object) :
    check (run ops) pid path access = true ↔
      ruleCheck defaultPolicy subject object access = true := by
  rw [check_iff]
  constructor
  · rintro ⟨subject', dir', object', hproc', hdir', hrule⟩
    rw [hproc] at hproc'
    rwa [Option.some.inj hproc', (hdir.unique id hdir').2]
  · intro hrule
    exact ⟨subject, dir, object, hproc, hdir, hrule⟩

/-- Where no ancestor is labelled, the tree permits nothing. -/
theorem not_permitted_of_none {access : Access}
    (hnone : ∀ dir, (given ops).path dir ≠ none → ¬Covers dir path) :
    ¬Permitted (given ops) pid path access := by
  rintro ⟨-, dir, object, -, hdir, -⟩
  exact hnone dir (by rw [hdir.labelled]; exact Option.some_ne_none _) hdir.above

/-- The deepest labelled ancestor decides in the tree. -/
theorem permitted_of_deepest (access : Access) {subject object : Label} {dir : Str}
    (hproc : (given ops).proc pid = some subject)
    (hdir : Deepest Covers (given ops).path path dir object) :
    Permitted (given ops) pid path access ↔
      access = 0 ∨ Covered access (rights subject object) := by
  rw [← allows_iff]
  constructor
  · rintro ⟨subject', dir', object', hproc', hdir', hallows⟩
    rw [hproc] at hproc'
    rwa [Option.some.inj hproc', (hdir.unique Covers.isPrefix hdir').2]
  · intro hallows
    exact ⟨subject, dir, object, hproc, hdir, hallows⟩

/-- Rights cover an access of no bits just where there is a rule. -/
theorem covered_iff_of_rule {access : Access} {subject object : Label} :
    (Covered access (rights subject object) ↔
      access = 0 ∨ Covered access (rights subject object)) ↔
      (access = 0 → rights subject object ≠ none) := by
  by_cases hzero : access = 0
  · subst hzero
    cases hrights : rights subject object with
    | none => simp [Covered]
    | some allow => simp [Covered, Access.contains]
  · exact iff_of_true (or_iff_right hzero).symm fun h => absurd h hzero

/-- An ancestor is labelled, and one of them is the deepest, or none is. -/
theorem ancestor_or_none (ops : List Op) (path : Str) :
    (∀ dir, (given ops).path dir ≠ none → ¬Covers dir path) ∨
      ∃ dir object, Deepest Covers (given ops).path path dir object := by
  by_cases hnone : ∀ dir, (given ops).path dir ≠ none → ¬Covers dir path
  · exact Or.inl hnone
  · -- the lengths of labelled ancestors are bounded by that of the path
    have hsome : ∃ n dir, (given ops).path dir ≠ none ∧ Covers dir path ∧
        path.length - dir.length = n := by
      push Not at hnone
      obtain ⟨dir, hlabelled, hcovers⟩ := hnone
      exact ⟨_, dir, hlabelled, hcovers, rfl⟩
    classical
    obtain ⟨dir, hlabelled, hcovers, hlen⟩ := Nat.find_spec hsome
    obtain ⟨object, hobject⟩ := Option.ne_none_iff_exists'.mp hlabelled
    refine Or.inr ⟨dir, object, hobject, hcovers, fun other hother hover => ?_⟩
    have hmin := Nat.find_min' hsome ⟨other, hother, hover, rfl⟩
    have hle := hover.isPrefix.length_le
    omega

/-- The check decides by the tree just where its longest prefix counts there too, or
makes no difference. -/
theorem exact_iff {access : Access} :
    Exact ops pid path access ↔ Straight ops pid path access := by
  obtain hnone | ⟨dir, object, hdir⟩ := deepest_or_none ops path
  · -- no labelled prefix, so no labelled ancestor either
    have hunlabelled : ∀ {dir object}, (given ops).path dir = some object → ¬dir <+: path :=
      fun h => hnone _ (by rw [h]; exact Option.some_ne_none _)
    refine iff_of_true (iff_of_false ?_ ?_) fun subject dir object _ hdir =>
      absurd hdir.above (hunlabelled hdir.labelled)
    · rw [check_iff]
      rintro ⟨-, dir, object, -, hdir, -⟩
      exact hunlabelled hdir.labelled hdir.above
    · exact not_permitted_of_none fun dir hlabelled hcovers =>
        hnone dir hlabelled hcovers.isPrefix
  · cases hproc : (given ops).proc pid with
    | none =>
        refine iff_of_true (iff_of_false ?_ ?_) fun subject _ _ hsubject => ?_
        · rw [check_iff, hproc]
          rintro ⟨subject, -, -, hsubject, -⟩
          cases hsubject
        · rw [Permitted, hproc]
          rintro ⟨subject, -, -, hsubject, -⟩
          cases hsubject
        · rw [hproc] at hsubject
          cases hsubject
    | some subject =>
        have hcheck := check_of_deepest access hproc hdir
        rw [ruleCheck_iff] at hcheck
        have hthis : Straight ops pid path access ↔
            (Covers dir path ∧ (access = 0 → rights subject object ≠ none)) ∨
            (¬Covers dir path ∧
              ((∃ ancestor object', Deepest Covers (given ops).path path ancestor object' ∧
                (Covered access (rights subject object) ↔
                  access = 0 ∨ Covered access (rights subject object'))) ∨
              ((∀ ancestor, (given ops).path ancestor ≠ none → ¬Covers ancestor path) ∧
                ¬Covered access (rights subject object)))) := by
          refine ⟨fun h => h subject dir object hproc hdir, ?_⟩
          intro h subject' dir' object' hproc' hdir'
          rw [hproc] at hproc'
          obtain ⟨rfl, rfl⟩ := hdir.unique id hdir'
          rwa [← Option.some.inj hproc']
        rw [hthis, Exact, hcheck]
        by_cases hcovers : Covers dir path
        · rw [permitted_of_deepest access hproc (hdir.covering hcovers), covered_iff_of_rule]
          simp [hcovers]
        · obtain hnone | ⟨ancestor, object', hancestor⟩ := ancestor_or_none ops path
          · have hpermitted : ¬Permitted (given ops) pid path access := not_permitted_of_none hnone
            have hdeepest : ¬∃ ancestor object', Deepest Covers (given ops).path path ancestor
                object' ∧ (Covered access (rights subject object) ↔
                  access = 0 ∨ Covered access (rights subject object')) := by
              rintro ⟨ancestor, object', hancestor, -⟩
              exact hnone ancestor (by rw [hancestor.labelled]; exact Option.some_ne_none _)
                hancestor.above
            rw [iff_false_right hpermitted]
            constructor
            · exact fun hrights => Or.inr ⟨hcovers, Or.inr ⟨hnone, hrights⟩⟩
            · rintro (⟨hcovers', -⟩ | ⟨-, h | ⟨-, hrights⟩⟩)
              · exact absurd hcovers' hcovers
              · exact absurd h hdeepest
              · exact hrights
          · rw [permitted_of_deepest access hproc hancestor]
            constructor
            · exact fun hsame => Or.inr ⟨hcovers, Or.inl ⟨ancestor, object', hancestor, hsame⟩⟩
            · rintro (⟨hcovers', -⟩ | ⟨-, ⟨ancestor', object'', hancestor', hsame⟩ | ⟨hnone, -⟩⟩)
              · exact absurd hcovers' hcovers
              · rwa [(hancestor.unique Covers.isPrefix hancestor').2]
              · exact absurd hancestor.above
                  (hnone ancestor (by rw [hancestor.labelled]; exact Option.some_ne_none _))

/-- A new label counts where it is the longest; elsewhere the longest one stays. -/
theorem deepest_update {labels : Str → Option Label} {dir : Str} (label : Label)
    (hlonger : dir <+: path →
      ∃ other, labels other ≠ none ∧ other <+: path ∧ dir.length < other.length)
    (k : Str) (l : Label) :
    Deepest (· <+: ·) (Function.update labels dir (some label)) path k l ↔
      Deepest (· <+: ·) labels path k l := by
  have hne : ∀ other, labels other ≠ none →
      Function.update labels dir (some label) other ≠ none := fun other hother => by
    rw [Function.update_apply]
    split
    · exact Option.some_ne_none label
    · exact hother
  constructor
  · intro h
    have hk : k ≠ dir := by
      rintro rfl
      obtain ⟨other, hother, hbegins, hlt⟩ := hlonger h.above
      exact absurd (h.longest other (hne other hother) hbegins) (by omega)
    have hlabelled := h.labelled
    rw [Function.update_of_ne hk] at hlabelled
    exact ⟨hlabelled, h.above, fun other hother => h.longest other (hne other hother)⟩
  · intro h
    have hk : k ≠ dir := by
      rintro rfl
      obtain ⟨other, hother, hbegins, hlt⟩ := hlonger h.above
      exact absurd (h.longest other hother hbegins) (by omega)
    refine ⟨by rw [Function.update_of_ne hk]; exact h.labelled, h.above,
      fun other hother hbegins => ?_⟩
    by_cases hdir : other = dir
    · rw [hdir] at hbegins ⊢
      obtain ⟨longer, hlabelled, hlongerPrefix, hlt⟩ := hlonger hbegins
      exact hlt.le.trans (h.longest longer hlabelled hlongerPrefix)
    · rw [Function.update_of_ne hdir] at hother
      exact h.longest other hother hbegins

/-- A label changes nothing elsewhere just where it is not the longest prefix, or
makes no difference to the one that was. -/
theorem local_iff {access : Access} {dir : Str} {label : Label} :
    Local ops pid path access dir label ↔ Apart ops pid path access dir label := by
  have hgiven : given (ops ++ [.labelResource dir label]) =
      (given ops).step (.labelResource dir label) := by
    rw [given, List.foldl_append]
    rfl
  have hafter := check_iff (ops ++ [.labelResource dir label]) pid path access
  rw [hgiven] at hafter
  have hbefore := check_iff ops pid path access
  refine imp_congr_right fun _ => imp_congr_right fun _ => ?_
  by_cases hnew : dir <+: path ∧
      ∀ other, (given ops).path other ≠ none → other <+: path → other.length ≤ dir.length
  · obtain ⟨hbegins, hlongest⟩ := hnew
    have hdir : Deepest (· <+: ·) ((given ops).step (.labelResource dir label)).path path dir
        label := by
      refine ⟨Function.update_self .., hbegins, fun other hother hover => ?_⟩
      by_cases hsame : other = dir
      · rw [hsame]
      · refine hlongest other ?_ hover
        change Function.update (given ops).path dir (some label) other ≠ none at hother
        rwa [Function.update_of_ne hsame] at hother
    rw [Bool.eq_iff_iff]
    cases hproc : (given ops).proc pid with
    | none =>
        refine iff_of_true ?_ fun _ _ subject hsubject => by cases hsubject
        rw [hafter, hbefore]
        simp [Labels.step, hproc]
    | some subject =>
        have hnewCheck : check (run (ops ++ [.labelResource dir label])) pid path access = true ↔
            Covered access (rights subject label) := by
          rw [← ruleCheck_iff]
          exact check_of_deepest access (by rw [hgiven]; exact hproc) (by rw [hgiven]; exact hdir)
        rw [hnewCheck]
        obtain hnone | ⟨other, object, hother⟩ := deepest_or_none ops path
        · have hdenied : ¬check (run ops) pid path access = true := by
            rw [hbefore]
            rintro ⟨-, other, object, -, hother, -⟩
            exact hnone other (by rw [hother.labelled]; exact Option.some_ne_none _) hother.above
          constructor
          · rintro hsame - - subject' hsubject
            rw [← Option.some.inj hsubject]
            exact Or.inr ⟨hnone, fun hcovered => hdenied (hsame.mp hcovered)⟩
          · intro h
            obtain ⟨other, object, hother, -⟩ | ⟨-, hrights⟩ := h hbegins hlongest subject rfl
            · exact absurd hother.above
                (hnone other (by rw [hother.labelled]; exact Option.some_ne_none _))
            · exact iff_of_false hrights hdenied
        · have holdCheck := check_of_deepest access hproc hother
          rw [ruleCheck_iff] at holdCheck
          rw [holdCheck]
          constructor
          · rintro hsame - - subject' hsubject
            rw [← Option.some.inj hsubject]
            exact Or.inl ⟨other, object, hother, hsame⟩
          · intro h
            obtain ⟨other', object', hother', hsame⟩ | ⟨hnone, -⟩ := h hbegins hlongest subject rfl
            · rwa [(hother.unique id hother').2]
            · exact absurd hother.above
                (hnone other (by rw [hother.labelled]; exact Option.some_ne_none _))
  · have hlonger : dir <+: path → ∃ other, (given ops).path other ≠ none ∧ other <+: path ∧
        dir.length < other.length := fun hbegins => by
      by_contra hnone
      exact hnew ⟨hbegins, fun other hother hover => by
        by_contra hlt
        exact hnone ⟨other, hother, hover, by omega⟩⟩
    have hsame : check (run (ops ++ [.labelResource dir label])) pid path access =
        check (run ops) pid path access := by
      rw [Bool.eq_iff_iff, hafter, hbefore]
      simp only [Labels.step, deepest_update label hlonger]
    exact iff_of_true hsame fun hbegins hlongest => absurd ⟨hbegins, hlongest⟩ hnew

/-- Labels are local, and the check decides by the tree, just where no labelled string that is not
an ancestor of the path comes first, or the policy makes no difference between its label and
the one that should count. -/
theorem labels_follow_tree (ops : List Op) (pid : UInt32) (path : Str) (access : Access)
    (dir : Str) (label : Label) :
    Local ops pid path access dir label ∧ Exact ops pid path access ↔
      Apart ops pid path access dir label ∧ Straight ops pid path access :=
  and_congr local_iff exact_iff

/-- A label of "/a" is used for "/ab". -/
theorem label_of_sibling_used :
    ¬(Local [.labelProcess 7 "user_t"] 7 "/ab".toList .read "/a".toList "user_file_t" ∧
      Exact [.labelProcess 7 "user_t"] 7 "/ab".toList .read) := by
  rintro ⟨hlocal, -⟩
  have hnot : ¬Covers "/a".toList "/ab".toList := by
    rw [Covers]
    decide +kernel
  exact absurd (hlocal (by decide +kernel) hnot) (by decide +kernel)

end

end Mac
