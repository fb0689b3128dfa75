import Noxisa.CompletionTrie

/-!
# What the trie returns

The search collects the texts below the node of the token level by level, that
is, by length, and stops after the first level with which there are `limit` of
them.  Only then are they sorted.  So a text is seen when there are fewer than
`limit` shorter ones, whatever its score, and the result is the ranking of the
texts that are seen.
-/

namespace CompletionTrie

open Utf8

section
variable {Score : Type}

namespace Shape

variable {nodes : List (Node Score)} {paths : List Str} {best : Str → Option Score}

/-- Every beginning of a path is a path. -/
theorem closed_prefix (h : Shape nodes paths best) {p : Str} (w : Str) (hmem : p ++ w ∈ paths) :
    p ∈ paths := by
  induction w using List.reverseRecOn with
  | nil => rwa [List.append_nil] at hmem
  | append_singleton w c ih =>
      rw [← List.append_assoc] at hmem
      exact ih (h.closed _ c hmem)

/-- **The walk down the token**: it ends at the node of the token, or where no inserted
text goes on that way. -/
theorem seek (h : Shape nodes paths best) (token : Str) {idx : Nat} {p : Str}
    (hp : paths[idx]? = some p) :
    (∃ j, CompletionTrie.seek nodes idx token = some (some j) ∧ paths[j]? = some (p ++ token)) ∨
      CompletionTrie.seek nodes idx token = some none ∧ p ++ token ∉ paths := by
  induction token generalizing idx p with
  | nil =>
      rw [List.append_nil]
      exact Or.inl ⟨idx, rfl, hp⟩
  | cons ch token ih =>
      obtain ⟨node, hnode, hat⟩ := h.exists_node hp
      have hassoc : p ++ ch :: token = (p ++ [ch]) ++ token := by simp
      rw [CompletionTrie.seek, hnode, hassoc]
      dsimp only
      rcases hat.lookup ch with ⟨j, hlookup, hj⟩ | ⟨hlookup, hnew⟩
      · rw [hlookup]
        exact ih hj
      · rw [hlookup]
        exact Or.inr ⟨rfl, fun hmem => hnew (h.closed_prefix token hmem)⟩

/-- What one level gives. -/
structure Visits (paths : List Str) (best : Str → Option Score) (queue : List Nat)
    (entries : List (Entry Score)) (next : List Nat) : Prop where
  entry : ∀ e, e ∈ entries ↔ ∃ idx ∈ queue, paths[idx]? = some e.1 ∧ best e.1 = some e.2
  child : ∀ j, j ∈ next ↔ ∃ idx ∈ queue, ∃ p c, paths[idx]? = some p ∧ paths[j]? = some (p ++ [c])
  later : ∀ j ∈ next, ∃ idx ∈ queue, idx < j
  nodup : queue.Nodup → entries.Nodup ∧ next.Nodup

/-- A node is listed if a text ends there. -/
theorem mem_entry {i : Nat} {p : Str} {node : Node Score} (h : NodeAt paths best i p node)
    (e : Entry Score) : e ∈ node.entry.toList ↔ p = e.1 ∧ best e.1 = some e.2 := by
  rw [Option.mem_toList, h.entry, Option.map_eq_some_iff]
  constructor
  · rintro ⟨s, hs, rfl⟩
    exact ⟨rfl, hs⟩
  · rintro ⟨rfl, hs⟩
    exact ⟨e.2, hs, rfl⟩

/-- **One level of the search**: the nodes are visited and their children, in some
order, make up the next queue. -/
theorem level (h : Shape nodes paths best) (order : Order) {queue : List Nat}
    (hqueue : ∀ idx ∈ queue, ∃ p, paths[idx]? = some p) :
    ∃ entries next, CompletionTrie.level order nodes queue = some (entries, next) ∧
      Visits paths best queue entries next := by
  induction queue with
  | nil =>
      refine ⟨[], [], rfl, ?_, ?_, nofun, fun _ => ⟨List.nodup_nil, List.nodup_nil⟩⟩
      · simp
      · simp
  | cons idx queue ih =>
      obtain ⟨p, hp⟩ := hqueue idx List.mem_cons_self
      obtain ⟨node, hnode, hat⟩ := h.exists_node hp
      obtain ⟨entries, next, hlevel, hvisits⟩ := ih fun i hi => hqueue i (List.mem_cons_of_mem idx hi)
      have hmem : ∀ j, j ∈ (order.iter idx node.children).map Prod.snd ↔
          ∃ c, (c, j) ∈ node.children := by
        intro j
        simp [(order.perm idx node.children).mem_iff]
      have hchild : ∀ j, j ∈ (order.iter idx node.children).map Prod.snd ↔
          ∃ c, paths[j]? = some (p ++ [c]) := by
        intro j
        rw [hmem]
        exact exists_congr fun c => hat.child c j
      refine ⟨node.entry.toList ++ entries, (order.iter idx node.children).map Prod.snd ++ next, ?_,
        ?_, ?_, ?_, ?_⟩
      · rw [CompletionTrie.level, hnode]
        dsimp only [Option.bind_eq_bind, Option.bind_some]
        rw [hlevel]
        rfl
      · intro e
        rw [List.mem_append, mem_entry hat, hvisits.entry, List.exists_mem_cons_iff, hp]
        simp
      · intro j
        rw [List.mem_append, hchild, hvisits.child, List.exists_mem_cons_iff]
        refine or_congr_left ?_
        constructor
        · rintro ⟨c, hc⟩
          exact ⟨p, c, hp, hc⟩
        · rintro ⟨q, c, hq, hc⟩
          cases hp.symm.trans hq
          exact ⟨c, hc⟩
      · intro j hj
        rcases List.mem_append.mp hj with hj | hj
        · obtain ⟨c, hc⟩ := (hmem j).mp hj
          exact ⟨idx, List.mem_cons_self, hat.later c j hc⟩
        · obtain ⟨i, hi, hlt⟩ := hvisits.later j hj
          exact ⟨i, List.mem_cons_of_mem idx hi, hlt⟩
      · intro hnodup
        obtain ⟨hidx, hnodup⟩ := List.nodup_cons.mp hnodup
        obtain ⟨hentries, hnext⟩ := hvisits.nodup hnodup
        refine ⟨List.nodup_append'.mpr ⟨?_, hentries, ?_⟩, List.nodup_append'.mpr ⟨?_, hnext, ?_⟩⟩
        · cases node.entry with
          | none => exact List.nodup_nil
          | some e => exact List.nodup_singleton e
        · intro e he he'
          obtain ⟨i, hi, hpath, -⟩ := (hvisits.entry e).mp he'
          rw [← ((mem_entry hat e).mp he).1] at hpath
          exact hidx (h.index_unique hp hpath ▸ hi)
        · refine ((order.perm idx node.children).nodup_iff.mpr hat.nodup).map_on ?_
          rintro ⟨c, j⟩ hc ⟨c', j'⟩ hc' rfl
          have hpath := (hat.child c j).mp ((order.perm _ _).mem_iff.mp hc)
          have hpath' := (hat.child c' j).mp ((order.perm _ _).mem_iff.mp hc')
          rw [hpath, Option.some.injEq] at hpath'
          rw [(List.cons.inj (List.append_cancel_left hpath')).1]
        · intro j hj hj'
          obtain ⟨c, hc⟩ := (hchild j).mp hj
          obtain ⟨i, hi, q, c', hq, hc'⟩ := (hvisits.child j).mp hj'
          rw [hc, Option.some.injEq] at hc'
          obtain ⟨rfl, -⟩ := List.append_inj' hc' rfl
          exact hidx (h.index_unique hp hq ▸ hi)

end Shape

/-- The nodes of the strings that are `k` characters longer than the token. -/
structure AtDepth (paths : List Str) (token : Str) (k : Nat) (queue : List Nat) : Prop where
  nodup : queue.Nodup
  mem : ∀ j, j ∈ queue ↔ ∃ w, w.length = k ∧ paths[j]? = some (token ++ w)
  later : ∀ j ∈ queue, k ≤ j

/-- The texts that are less than `k` characters longer than the token. -/
structure Collected (best : Str → Option Score) (token : Str) (k : Nat)
    (results : List (Entry Score)) : Prop where
  nodup : results.Nodup
  mem : ∀ e, e ∈ results ↔ ∃ w, w.length < k ∧ e.1 = token ++ w ∧ best e.1 = some e.2

/-- The texts of which there are fewer than `limit` shorter ones, `shorter k` of which
are less than `k` characters longer than the token. -/
structure Found (best : Str → Option Score) (token : Str) (shorter : Nat → Nat) (limit : Nat)
    (results : List (Entry Score)) : Prop where
  nodup : results.Nodup
  mem : ∀ e, e ∈ results ↔
    ∃ w, shorter w.length < limit ∧ e.1 = token ++ w ∧ best e.1 = some e.2

section
variable {nodes : List (Node Score)} {paths : List Str} {best : Str → Option Score} {token : Str}
  {k : Nat} {queue : List Nat} {results : List (Entry Score)}

/-- The queue after a level is one level deeper. -/
theorem AtDepth.next (h : Shape nodes paths best) {entries : List (Entry Score)} {next : List Nat}
    (hqueue : AtDepth paths token k queue) (hvisits : Shape.Visits paths best queue entries next) :
    AtDepth paths token (k + 1) next := by
  refine ⟨(hvisits.nodup hqueue.nodup).2, fun j => ?_, fun j hj => ?_⟩
  · rw [hvisits.child]
    constructor
    · rintro ⟨idx, hidx, p, c, hp, hj⟩
      obtain ⟨w, hw, hpath⟩ := (hqueue.mem idx).mp hidx
      cases hpath.symm.trans hp
      refine ⟨w ++ [c], ?_, ?_⟩
      · rw [List.length_append, hw]
        rfl
      · rw [hj, List.append_assoc]
    · rintro ⟨w, hw, hj⟩
      obtain ⟨w, c, rfl⟩ : ∃ w' c, w = w' ++ [c] :=
        (List.eq_nil_or_concat' w).resolve_left fun hnil => by rw [hnil] at hw; cases hw
      rw [← List.append_assoc] at hj
      obtain ⟨idx, hidx⟩ := List.getElem?_of_mem (h.closed _ c (List.mem_of_getElem? hj))
      rw [List.length_append] at hw
      exact ⟨idx, (hqueue.mem idx).mpr ⟨w, Nat.succ.inj hw, hidx⟩, token ++ w, c, hidx, hj⟩
  · obtain ⟨idx, hidx, hlt⟩ := hvisits.later j hj
    exact Nat.lt_of_le_of_lt (hqueue.later idx hidx) hlt

/-- The results after a level are those up to it. -/
theorem Collected.next {entries : List (Entry Score)} {next : List Nat}
    (hresults : Collected best token k results) (hqueue : AtDepth paths token k queue)
    (hvisits : Shape.Visits paths best queue entries next) (h : Shape nodes paths best) :
    Collected best token (k + 1) (results ++ entries) := by
  have hentries : ∀ e, e ∈ entries ↔ ∃ w, w.length = k ∧ e.1 = token ++ w ∧ best e.1 = some e.2 := by
    intro e
    rw [hvisits.entry]
    constructor
    · rintro ⟨idx, hidx, hpath, hbest⟩
      obtain ⟨w, hw, hpath'⟩ := (hqueue.mem idx).mp hidx
      exact ⟨w, hw, Option.some.inj (hpath.symm.trans hpath'), hbest⟩
    · rintro ⟨w, hw, he, hbest⟩
      obtain ⟨idx, hidx⟩ := List.getElem?_of_mem (h.known _ _ hbest)
      exact ⟨idx, (hqueue.mem idx).mpr ⟨w, hw, he ▸ hidx⟩, hidx, hbest⟩
  refine ⟨List.nodup_append'.mpr ⟨hresults.nodup, (hvisits.nodup hqueue.nodup).1, ?_⟩, fun e => ?_⟩
  · intro e he he'
    obtain ⟨w, hw, heq, -⟩ := (hresults.mem e).mp he
    obtain ⟨w', hw', heq', -⟩ := (hentries e).mp he'
    have hsame := List.append_cancel_left (heq.symm.trans heq')
    rw [hsame, hw'] at hw
    exact Nat.lt_irrefl k hw
  · rw [List.mem_append, hresults.mem, hentries]
    constructor
    · rintro (⟨w, hw, he⟩ | ⟨w, hw, he⟩)
      · exact ⟨w, Nat.lt_succ_of_lt hw, he⟩
      · exact ⟨w, hw ▸ Nat.lt_succ_self k, he⟩
    · rintro ⟨w, hw, he⟩
      rcases Nat.lt_succ_iff_lt_or_eq.mp hw with hw | hw
      · exact Or.inl ⟨w, hw, he⟩
      · exact Or.inr ⟨w, hw, he⟩

/-- The search may stop: there is nothing below, or enough has been found. -/
theorem Collected.found {shorter : Nat → Nat} {limit : Nat}
    (hresults : Collected best token k results) (hshorter : Monotone shorter)
    (hbefore : ∀ j < k, shorter j < limit)
    (hstop : (∀ w, k ≤ w.length → token ++ w ∉ paths) ∨ limit ≤ shorter k)
    (h : Shape nodes paths best) : Found best token shorter limit results := by
  refine ⟨hresults.nodup, fun e => ?_⟩
  rw [hresults.mem]
  constructor
  · rintro ⟨w, hw, he⟩
    exact ⟨w, hbefore _ hw, he⟩
  · rintro ⟨w, hw, he, hbest⟩
    refine ⟨w, Nat.lt_of_not_le fun hle => ?_, he, hbest⟩
    rcases hstop with hnone | hlimit
    · exact hnone w hle (he ▸ h.known _ _ hbest)
    · exact absurd (hlimit.trans (hshorter hle)) (Nat.not_le.mpr hw)

/-- An empty queue means that the trie has no deeper nodes below the token. -/
theorem AtDepth.nothing_below (h : Shape nodes paths best) (hqueue : AtDepth paths token k [])
    (w : Str) (hw : k ≤ w.length) : token ++ w ∉ paths := by
  intro hmem
  rw [← List.take_append_drop k w, ← List.append_assoc] at hmem
  obtain ⟨j, hj⟩ := List.getElem?_of_mem (h.closed_prefix _ hmem)
  exact absurd ((hqueue.mem j).mpr ⟨_, List.length_take_of_le hw, hj⟩) List.not_mem_nil

/-- From level `k` on. -/
theorem collect_found (h : Shape nodes paths best) (order : Order) {shorter : Nat → Nat} (limit : Nat)
    (hshorter : Monotone shorter)
    (hcount : ∀ k results, Collected best token k results → results.length = shorter k)
    (levels : Nat) (hlevels : nodes.length ≤ k + levels) (hqueue : AtDepth paths token k queue)
    (hresults : Collected best token k results) (hbefore : ∀ j < k, shorter j < limit) :
    ∃ out, collect order nodes limit levels queue results = some out ∧
      Found best token shorter limit out := by
  induction levels generalizing k queue results with
  | zero =>
      have hempty : queue = [] := by
        refine List.eq_nil_iff_forall_not_mem.mpr fun j hj => ?_
        obtain ⟨w, -, hpath⟩ := (hqueue.mem j).mp hj
        have hlt := (List.getElem?_eq_some_iff.mp hpath).1
        have hle := hqueue.later j hj
        rw [← h.length] at hlt
        omega
      subst hempty
      exact ⟨results, rfl,
        hresults.found hshorter hbefore (Or.inl (hqueue.nothing_below h)) h⟩
  | succ levels ih =>
      rw [collect]
      by_cases hgo : queue ≠ [] ∧ results.length < limit
      · have hpaths : ∀ idx ∈ queue, ∃ p, paths[idx]? = some p := fun idx hidx =>
          ((hqueue.mem idx).mp hidx).elim fun w hw => ⟨_, hw.2⟩
        obtain ⟨entries, next, hlevel, hvisits⟩ := h.level order hpaths
        rw [if_pos hgo, hlevel]
        refine ih (by omega) (hqueue.next h hvisits) (hresults.next hqueue hvisits h) ?_
        intro j hj
        rcases Nat.lt_succ_iff_lt_or_eq.mp hj with hj | rfl
        · exact hbefore j hj
        · exact hcount _ _ hresults ▸ hgo.2
      · rw [if_neg hgo]
        refine ⟨results, rfl, hresults.found hshorter hbefore ?_ h⟩
        by_cases hempty : queue = []
        · subst hempty
          exact Or.inl (hqueue.nothing_below h)
        · rw [← hcount _ _ hresults]
          exact Or.inr (Nat.le_of_not_lt fun hlt => hgo ⟨hempty, hlt⟩)

end

/-- The distinct texts that have been inserted. -/
def texts (calls : List (Call Score)) : List Str := (calls.map Call.text).dedup

/-- How many texts that begin with the token are shorter than `n`. -/
def shorter (calls : List (Call Score)) (token : Str) (n : Nat) : Nat :=
  ((texts calls).filter fun t => token <+: t ∧ t.length < n).length

/-- The texts are listed once each. -/
theorem nodup_texts (calls : List (Call Score)) : (texts calls).Nodup := List.nodup_dedup _

/-- There are not fewer texts up to a greater length. -/
private theorem shorter_mono {calls : List (Call Score)} {token : Str} :
    Monotone (shorter calls token) := by
  intro m n hmn
  refine List.Sublist.length_le (List.monotone_filter_right _ fun t ht => ?_)
  have ht := of_decide_eq_true ht
  exact decide_eq_true ⟨ht.1, ht.2.trans_le hmn⟩

/-- The order of the insertions does not matter for the texts. -/
theorem texts_perm {calls calls' : List (Call Score)} (h : calls.Perm calls') : (texts calls).Perm (texts calls') :=
  (h.map _).dedup

/-- Nor for how many of them are shorter. -/
private theorem shorter_perm {calls calls' : List (Call Score)} (h : calls.Perm calls')
    (token : Str) (n : Nat) :
    shorter calls token n = shorter calls' token n :=
  ((texts_perm h).filter _).length_eq

section
variable [LinearOrder Score]

/-- The order of the results: a higher score first, and of equal scores the smaller
text. -/
theorem ranks_iff (a b : Entry Score) :
    ranks a b = true ↔ toLex (OrderDual.toDual a.2, a.1) ≤ toLex (OrderDual.toDual b.2, b.1) := by
  rw [Prod.Lex.toLex_le_toLex]
  simp [ranks]

/-- It is transitive. -/
private theorem ranks_trans (a b c : Entry Score) (hab : ranks a b = true)
    (hbc : ranks b c = true) :
    ranks a c = true :=
  (ranks_iff a c).mpr (((ranks_iff a b).mp hab).trans ((ranks_iff b c).mp hbc))

/-- It is total. -/
private theorem ranks_total (a b : Entry Score) : (ranks a b || ranks b a) = true := by
  rw [Bool.or_eq_true, ranks_iff, ranks_iff]
  exact le_total _ _

/-- Two entries that come before each other are the same, so the order is strict on
different ones. -/
private theorem ranks_antisymm (a b : Entry Score) (hab : ranks a b = true)
    (hba : ranks b a = true) :
    a = b := by
  have heq := le_antisymm ((ranks_iff a b).mp hab) ((ranks_iff b a).mp hba)
  have hpair := toLex.injective heq
  exact Prod.ext (congrArg Prod.snd hpair) (OrderDual.toDual.injective (congrArg Prod.fst hpair))

/-- A ranking is that of the set of the entries. -/
theorem ranking_unique {l l' : List (Entry Score)} (hperm : l.Perm l')
    (hl : l.Pairwise fun a b => ranks a b = true) (hl' : l'.Pairwise fun a b => ranks a b = true) :
    l = l' :=
  hperm.eq_of_pairwise (fun a b _ _ => ranks_antisymm a b) hl hl'

/-- Sorting keeps the entries. -/
theorem sortByRank_perm (l : List (Entry Score)) : (sortByRank l).Perm l :=
  List.perm_insertionSort _ l

/-- Sorting sorts. -/
theorem sortByRank_sorted (l : List (Entry Score)) :
    (sortByRank l).Pairwise fun a b => ranks a b = true := by
  have htrans : IsTrans (Entry Score) fun a b => ranks a b = true := ⟨ranks_trans⟩
  have htotal : Std.Total (α := Entry Score) fun a b => ranks a b = true :=
    ⟨fun a b => Bool.or_eq_true_iff.mp (ranks_total a b)⟩
  exact List.pairwise_insertionSort _ l

/-- The sorted list depends on the entries alone, not on their order. -/
theorem sort_congr {l l' : List (Entry Score)} (hperm : l.Perm l') :
    sortByRank l = sortByRank l' :=
  ranking_unique (((sortByRank_perm l).trans hperm).trans (sortByRank_perm l').symm)
    (sortByRank_sorted l) (sortByRank_sorted l')

/-- Choosing entries before sorting or after it is the same. -/
private theorem sort_filter (p : Entry Score → Bool) (l : List (Entry Score)) :
    sortByRank (l.filter p) = (sortByRank l).filter p :=
  ranking_unique ((sortByRank_perm _).trans ((sortByRank_perm l).symm.filter p))
    (sortByRank_sorted _) ((sortByRank_sorted l).filter p)

/-- The texts that begin with the token, each with its best score. -/
def completions (calls : List (Call Score)) (token : Str) : List (Entry Score) :=
  (texts calls).filterMap fun t => if token <+: t then (bestOf calls t).map (t, ·) else none

/-- The completions of a token, best first. -/
def ranked (calls : List (Call Score)) (token : Str) : List (Entry Score) :=
  sortByRank (completions calls token)

variable {calls : List (Call Score)} {token : Str}

/-- A text is listed if one of the insertions has it. -/
theorem mem_texts {t : Str} : t ∈ texts calls ↔ ∃ s, bestOf calls t = some s := by
  rw [texts, List.mem_dedup]
  constructor
  · intro ht
    refine Option.ne_none_iff_exists'.mp fun hnone => ?_
    rw [bestOf, List.max?_eq_none_iff, List.map_eq_nil_iff, List.filter_eq_nil_iff] at hnone
    obtain ⟨call, hcall, rfl⟩ := List.mem_map.mp ht
    exact hnone call hcall (decide_eq_true rfl)
  · rintro ⟨s, hs⟩
    obtain ⟨⟨call, hcall, rfl, -⟩, -⟩ := bestOf_eq_some.mp hs
    exact List.mem_map_of_mem hcall

/-- The completions of a token are the texts that it begins, with their best scores. -/
theorem mem_completions {e : Entry Score} :
    e ∈ completions calls token ↔ token <+: e.1 ∧ bestOf calls e.1 = some e.2 := by
  rw [completions, List.mem_filterMap]
  constructor
  · rintro ⟨t, -, ht⟩
    by_cases hbegins : token <+: t
    · rw [if_pos hbegins] at ht
      obtain ⟨s, hs, rfl⟩ := Option.map_eq_some_iff.mp ht
      exact ⟨hbegins, hs⟩
    · rw [if_neg hbegins] at ht
      cases ht
  · rintro ⟨hbegins, hs⟩
    exact ⟨e.1, mem_texts.mpr ⟨_, hs⟩, by rw [if_pos hbegins, hs]; rfl⟩

/-- Each of them is there once. -/
theorem nodup_completions : (completions calls token).Nodup := by
  refine (nodup_texts calls).filterMap fun t t' e ht ht' => ?_
  have hfst : ∀ t : Str, e ∈ (if token <+: t then (bestOf calls t).map (t, ·) else none) → e.1 = t := by
    intro t ht
    by_cases hbegins : token <+: t
    · rw [if_pos hbegins] at ht
      obtain ⟨s, -, rfl⟩ := Option.map_eq_some_iff.mp ht
      rfl
    · rw [if_neg hbegins] at ht
      cases ht
  exact (hfst t ht).symm.trans (hfst t' ht')

/-- How many results there are up to a level, counted on the texts. -/
theorem shorter_eq {k : Nat} {results : List (Entry Score)}
    (h : Collected (bestOf calls) token k results) :
    results.length = shorter calls token (token.length + k) := by
  have hnodup : (results.map Prod.fst).Nodup := by
    refine h.nodup.map_on fun e he e' he' heq => ?_
    obtain ⟨w, -, -, hbest⟩ := (h.mem e).mp he
    obtain ⟨w', -, -, hbest'⟩ := (h.mem e').mp he'
    rw [← heq, hbest] at hbest'
    exact Prod.ext heq (Option.some.inj hbest')
  have hperm : (results.map Prod.fst).Perm
      ((texts calls).filter fun t => token <+: t ∧ t.length < token.length + k) := by
    refine (List.perm_ext_iff_of_nodup hnodup ((nodup_texts calls).filter _)).mpr fun t => ?_
    rw [List.mem_filter, mem_texts, decide_eq_true_eq, List.mem_map]
    constructor
    · rintro ⟨e, he, rfl⟩
      obtain ⟨w, hw, heq, hbest⟩ := (h.mem e).mp he
      refine ⟨⟨_, hbest⟩, heq ▸ List.prefix_append _ _, ?_⟩
      rw [heq, List.length_append]
      exact Nat.add_lt_add_left hw _
    · rintro ⟨⟨s, hs⟩, ⟨w, rfl⟩, hlt⟩
      rw [List.length_append] at hlt
      exact ⟨(token ++ w, s), (h.mem _).mpr ⟨w, Nat.lt_of_add_lt_add_left hlt, rfl, hs⟩, rfl⟩
  rw [shorter, ← hperm.length_eq, List.length_map]

/-- What the search finds is the completions with fewer than `limit` shorter ones. -/
theorem Found.perm {limit : Nat} {out : List (Entry Score)}
    (h : Found (bestOf calls) token (fun k => shorter calls token (token.length + k)) limit out) :
    out.Perm ((completions calls token).filter fun e => shorter calls token e.1.length < limit) := by
  refine (List.perm_ext_iff_of_nodup h.nodup (nodup_completions.filter _)).mpr fun e => ?_
  rw [h.mem, List.mem_filter, mem_completions, decide_eq_true_eq]
  constructor
  · rintro ⟨w, hw, heq, hbest⟩
    rw [heq, List.length_append]
    exact ⟨⟨List.prefix_append _ _, heq ▸ hbest⟩, hw⟩
  · rintro ⟨⟨⟨w, heq⟩, hbest⟩, hlt⟩
    rw [← heq, List.length_append] at hlt
    exact ⟨w, hlt, heq.symm, hbest⟩

/-- The trie after some insertions, asked for the completions of a line. -/
def completeAfter (u : Unicode) (order : Order) (calls : List (Call Score)) (line : Str)
    (max : Nat) : Option (List (Entry Score)) :=
  (insertAll new calls).bind fun nodes => complete u order nodes line max

/-- The first `max` of those completions, in the order of the ranking, that have fewer
than `max * 8` shorter ones. -/
theorem completeAfter_eq (u : Unicode) (order : Order) (calls : List (Call Score)) {line token : Str}
    (htoken : currentToken u line = some token) (hne : token ≠ []) (max : Nat) :
    completeAfter u order calls line max =
      some (((ranked calls token).filter fun e =>
        shorter calls token e.1.length < MachineWord.mul max 8).take max) := by
  obtain ⟨nodes, paths, hrun, hshape, hpaths⟩ := insertAll_shape calls
  unfold completeAfter
  rw [hrun, Option.bind_some, complete, htoken]
  dsimp only [Option.bind_eq_bind, Option.bind_some]
  rw [if_neg hne]
  rcases hshape.seek token hshape.root with ⟨idx, hseek, hidx⟩ | ⟨hseek, hnone⟩
  · rw [hseek]
    have hqueue : AtDepth paths token 0 [idx] := by
      refine ⟨List.nodup_singleton _, fun j => ?_, fun _ _ => Nat.zero_le _⟩
      rw [List.mem_singleton]
      constructor
      · rintro rfl
        exact ⟨[], rfl, by rw [List.append_nil]; exact hidx⟩
      · rintro ⟨w, hw, hj⟩
        rw [List.eq_nil_of_length_eq_zero hw, List.append_nil] at hj
        exact hshape.index_unique hj hidx
    have hresults : Collected (bestOf calls) token 0 [] := by
      refine ⟨List.nodup_nil, fun e => iff_of_false List.not_mem_nil ?_⟩
      rintro ⟨w, hw, -⟩
      exact Nat.not_lt_zero _ hw
    obtain ⟨out, hcollect, hfound⟩ := collect_found hshape order (MachineWord.mul max 8)
      (shorter_mono.comp fun _ _ hle => Nat.add_le_add_left hle token.length)
      (fun k results h => shorter_eq h) nodes.length (Nat.le_add_left _ _)
      hqueue hresults (fun _ hj => absurd hj (Nat.not_lt_zero _))
    dsimp only [Option.bind_some]
    rw [hcollect, Option.bind_some, sort_congr hfound.perm, sort_filter]
    rfl
  · rw [hseek]
    have hempty : completions calls token = [] := by
      refine List.eq_nil_iff_forall_not_mem.mpr fun e he => ?_
      obtain ⟨⟨w, hw⟩, hbest⟩ := mem_completions.mp he
      have hmem := hshape.known _ _ hbest
      rw [← hw] at hmem
      exact hnone (hshape.closed_prefix w hmem)
    have hranked : ranked calls token = [] := by rw [ranked, hempty]; rfl
    rw [hranked]
    simp

/-- Where the token is not cut out of the line, there is no answer. -/
theorem completeAfter_none (order : Order) (calls : List (Call Score)) {u : Unicode} {line : Str}
    (htoken : currentToken u line = none) (max : Nat) :
    completeAfter u order calls line max = none := by
  obtain ⟨nodes, paths, hrun, -, -⟩ := insertAll_shape calls
  unfold completeAfter
  rw [hrun, Option.bind_some, complete, htoken]
  rfl

/-- An empty token has no completions. -/
theorem completeAfter_empty (order : Order) (calls : List (Call Score)) {u : Unicode} {line : Str}
    (htoken : currentToken u line = some []) (max : Nat) :
    completeAfter u order calls line max = some [] := by
  obtain ⟨nodes, paths, hrun, -, -⟩ := insertAll_shape calls
  unfold completeAfter
  rw [hrun, Option.bind_some, complete, htoken]
  rfl

/-- What a search returns begins with the token. -/
theorem token_prefix {u : Unicode} {order : Order} {line : Str} {max : Nat}
    {entries : List (Entry Score)} (h : completeAfter u order calls line max = some entries)
    {e : Entry Score} (he : e ∈ entries) :
    ∃ token, currentToken u line = some token ∧ token ≠ [] ∧ token <+: e.1 := by
  cases htoken : currentToken u line with
  | none =>
      rw [completeAfter_none order calls htoken] at h
      cases h
  | some token =>
      by_cases hne : token = []
      · subst hne
        rw [completeAfter_empty order calls htoken] at h
        cases h
        cases he
      · rw [completeAfter_eq u order calls htoken hne] at h
        cases h
        have hranked := (List.mem_filter.mp (List.mem_of_mem_take he)).1
        have hmem := (sortByRank_perm (completions calls token)).mem_iff.mp hranked
        exact ⟨token, rfl, hne, (mem_completions.mp hmem).1⟩

/-- The best of the chosen ones are the best of all exactly if all of these are chosen.
-/
private theorem take_filter_eq_iff {α : Type} {p : α → Bool} {l : List α} {n : Nat} :
    (l.filter p).take n = l.take n ↔ ∀ e ∈ l.take n, p e = true := by
  constructor
  · intro h e he
    rw [← h] at he
    exact (List.mem_filter.mp (List.mem_of_mem_take he)).2
  · intro h
    have hfilter : l.filter p = l.take n ++ (l.drop n).filter p := by
      conv => lhs; rw [← List.take_append_drop n l]
      rw [List.filter_append, List.filter_eq_self.mpr h]
    rw [hfilter]
    rcases Nat.le_total n l.length with hn | hn
    · exact List.take_left' (List.length_take_of_le hn)
    · rw [List.drop_eq_nil_of_le hn, List.filter_nil, List.append_nil, List.take_take, Nat.min_self]

/-- The trie returns the first `max` completions of the token exactly when each of them
has fewer than `max * 8` shorter ones. -/
theorem complete_top (u : Unicode) (order : Order) (calls : List (Call Score)) {line token : Str}
    (htoken : currentToken u line = some token) (hne : token ≠ []) (max : Nat) :
    completeAfter u order calls line max = some ((ranked calls token).take max) ↔
      ∀ e ∈ (ranked calls token).take max,
        shorter calls token e.1.length < MachineWord.mul max 8 := by
  rw [completeAfter_eq u order calls htoken hne, Option.some.injEq, take_filter_eq_iff]
  exact forall₂_congr fun e _ => decide_eq_true_iff

section
variable {calls' : List (Call Score)}

/-- The best score of a text does not depend on the order of the insertions. -/
theorem bestOf_perm (h : calls.Perm calls') : bestOf calls = bestOf calls' := by
  funext t
  refine Option.ext fun s => ?_
  rw [bestOf_eq_some, bestOf_eq_some]
  simp only [h.mem_iff]

/-- Nor does the ranking of the completions. -/
theorem ranked_perm (h : calls.Perm calls') (token : Str) : ranked calls token = ranked calls' token := by
  refine sort_congr ?_
  unfold completions
  rw [bestOf_perm h]
  exact (texts_perm h).filterMap _

/-- Nor how many nodes the trie has. -/
theorem nodeCount_perm (h : calls.Perm calls') :
    (insertAll new calls).map nodeCount = (insertAll new calls').map nodeCount := by
  obtain ⟨nodes, paths, hrun, hshape, hpaths⟩ := insertAll_shape calls
  obtain ⟨nodes', paths', hrun', hshape', hpaths'⟩ := insertAll_shape calls'
  have hperm : paths.Perm paths' := by
    refine (List.perm_ext_iff_of_nodup hshape.nodup hshape'.nodup).mpr fun q => ?_
    rw [hpaths, hpaths']
    simp only [h.mem_iff]
  rw [hrun, hrun']
  exact congrArg some (hshape.length.trans (hperm.length_eq.trans hshape'.length.symm))

end

/-- Two orders of insertion give tries that answer every query alike and have as many
nodes. -/
theorem insertion_order (u : Unicode) (order order' : Order) {calls calls' : List (Call Score)}
    (h : calls.Perm calls') :
    (∀ line max, completeAfter u order calls line max = completeAfter u order' calls' line max) ∧
      (insertAll new calls).map nodeCount = (insertAll new calls').map nodeCount := by
  refine ⟨fun line max => ?_, nodeCount_perm h⟩
  by_cases htoken : ∃ token, currentToken u line = some token ∧ token ≠ []
  · obtain ⟨token, htoken, hne⟩ := htoken
    rw [completeAfter_eq u order calls htoken hne, completeAfter_eq u order' calls' htoken hne,
      ranked_perm h]
    simp only [shorter_perm h]
  · -- the answer does not depend on the trie
    obtain ⟨nodes, -, hrun, -⟩ := insertAll_shape calls
    obtain ⟨nodes', -, hrun', -⟩ := insertAll_shape calls'
    unfold completeAfter complete
    rw [hrun, hrun']
    cases hline : currentToken u line with
    | none => rfl
    | some token =>
        have hempty : token = [] := not_not.mp fun hne => htoken ⟨token, hline, hne⟩
        simp [hempty]

end

/-- One inserted text, which a search finds. -/
theorem complete_top_git :
    completeAfter .ascii .inserted [⟨['g', 'i', 't'], 2, .builtin⟩] ['g', 'i'] 1 =
      some ((ranked [⟨['g', 'i', 't'], 2, .builtin⟩] ['g', 'i']).take 1) :=
  (complete_top .ascii .inserted [⟨['g', 'i', 't'], 2, .builtin⟩] (by decide +kernel)
    (List.cons_ne_nil 'g' ['i']) 1).mpr (by decide +kernel)

/-- `aaa` with the highest score, and eight texts of two characters. -/
def crowded : List (Call Nat) :=
  ⟨['a', 'a', 'a'], 9, .builtin⟩ ::
    [('a', 8), ('b', 7), ('c', 6), ('d', 5), ('e', 4), ('f', 3), ('g', 2), ('h', 1)].map
      fun e => ⟨['a', e.1], e.2, .builtin⟩

/-- Eight shorter completions keep the search from the best one. -/
theorem best_not_reached :
    completeAfter .ascii .inserted crowded ['a'] 1 = some [(['a', 'a'], 8)] ∧
      completeAfter .ascii .inserted crowded ['a'] 1 ≠ some ((ranked crowded ['a']).take 1) := by
  decide +kernel

/-- Two texts inserted in either order. -/
theorem insertion_order_two :
    completeAfter .ascii .inserted
        [⟨['g', 'i', 't'], 2, .builtin⟩, ⟨['g', 'o'], 1, .builtin⟩] ['g'] 5 =
      completeAfter .ascii .inserted
        [⟨['g', 'o'], 1, .builtin⟩, ⟨['g', 'i', 't'], 2, .builtin⟩] ['g'] 5 :=
  (insertion_order .ascii .inserted .inserted (List.Perm.swap _ _ [])).1 ['g'] 5

end

end CompletionTrie
