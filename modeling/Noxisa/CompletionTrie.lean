import Noxisa.Utf8Slices
import Noxisa.MachineWord

/-!
# The completion trie

The nodes of the trie are in one vector, and an edge is an index into it.  An
index out of range would be a panic, which here is `none`.

`Shape` says what the vector means: node `i` stands for the string `paths[i]`,
the strings are those that the inserted texts begin with, and a node carries the
best score of its own string.
-/

namespace CompletionTrie

open Utf8

/-- A Rust `String`, by its characters. -/
abbrev Str := List Char

/-- `Category` -/
inductive Category
  | keyword | builtin | snippet | stdlib
  /-- learned from user's current file -/
  | identifier
  | path

/-- The `terminal` of a node: the text that ends there. -/
structure Terminal (Score : Type) where
  text : Str
  score : Score
  category : Category

/-- `TrieNode` -/
structure Node (Score : Type) where
  /-- a hash map: each character is there once -/
  children : List (Char × Nat) := []
  terminal : Option (Terminal Score) := none

/-- A completion and its score. -/
abbrev Entry (Score : Type) := Str × Score

section
variable {Score : Type}

/-- `TrieNode::new` -/
def Node.new : Node Score := {}

/-- Node 0 is the root. -/
def new : List (Node Score) := [Node.new]

/-- The child of `idx` for `ch`, which is made if there is none. -/
def enter (nodes : List (Node Score)) (idx : Nat) (ch : Char) : Option (List (Node Score) × Nat) :=
  match nodes[idx]? with
  | none => none
  | some node =>
      match node.children.lookup ch with
      | some next => some (nodes, next)
      | none =>
          let next := nodes.length
          let node := { node with children := (ch, next) :: node.children }
          some ((nodes ++ [Node.new]).set idx node, next)

/-- The loop of `insert` over the text: the nodes on the way are made where they are
missing. -/
def descend (nodes : List (Node Score)) (idx : Nat) : Str → Option (List (Node Score) × Nat)
  | [] => some (nodes, idx)
  | ch :: text => (enter nodes idx ch).bind fun (nodes, next) => descend nodes next text

/-- The arguments of one `insert`.  `learn` and the loading of the built-in completions
are insertions too. -/
structure Call (Score : Type) where
  text : Str
  score : Score
  cat : Category

/-- `insert` -/
def insert [LinearOrder Score] (nodes : List (Node Score)) (call : Call Score) :
    Option (List (Node Score)) := do
  let (nodes, idx) ← descend nodes 0 call.text
  let node ← nodes[idx]?
  -- only overwrite if new score is higher
  let replace := match node.terminal with
    | none => true
    | some t => t.score < call.score
  if replace then
    some (nodes.set idx { node with terminal := some ⟨call.text, call.score, call.cat⟩ })
  else some nodes

/-- The trie after some insertions. -/
def insertAll [LinearOrder Score] (nodes : List (Node Score)) (calls : List (Call Score)) :
    Option (List (Node Score)) :=
  calls.foldlM insert nodes

/-- The node of `token`, if there is one. -/
def seek (nodes : List (Node Score)) (idx : Nat) : Str → Option (Option Nat)
  | [] => some (some idx)
  | ch :: token =>
      match nodes[idx]? with
      | none => none
      | some node =>
          match node.children.lookup ch with
          | some next => seek nodes next token
          | none => some none

/-- The order in which the hash map of each node gives its children. -/
structure Order where
  iter : Nat → List (Char × Nat) → List (Char × Nat)
  perm : ∀ idx children, (iter idx children).Perm children

/-- The order of the list. -/
def Order.inserted : Order where
  iter := fun _ children => children
  perm := fun _ children => List.Perm.refl children

/-- What a search finds at a node. -/
def Node.entry (node : Node Score) : Option (Entry Score) :=
  node.terminal.map fun t => (t.text, t.score)

/-- The terminals of one level, and the next level. -/
def level (order : Order) (nodes : List (Node Score)) :
    List Nat → Option (List (Entry Score) × List Nat)
  | [] => some ([], [])
  | idx :: queue => do
      let node ← nodes[idx]?
      let (entries, next) ← level order nodes queue
      some (node.entry.toList ++ entries, (order.iter idx node.children).map Prod.snd ++ next)

/-- Level by level, until there are `limit` results.  A child comes after its parent in
the vector, so there are not more levels than nodes. -/
def collect (order : Order) (nodes : List (Node Score)) (limit : Nat) :
    Nat → List Nat → List (Entry Score) → Option (List (Entry Score))
  | 0, _, results => some results
  | levels + 1, queue, results =>
      if queue ≠ [] ∧ results.length < limit then do
        let (entries, next) ← level order nodes queue
        collect order nodes limit levels next (results ++ entries)
      else some results

/-- Extract the token currently being typed (last word on the line). -/
def currentToken (u : Unicode) (line : Str) : Option Str :=
  let start := ((rfind (fun c => !u.isAlphanumeric c && c != '_' && c != ':' && c != '.' &&
    c != '/' && c != '!' && c != '(') line).map (· + 1)).getD 0
  sliceFrom line start

/-- Higher scores first, then by text. -/
def ranks [LinearOrder Score] (a b : Entry Score) : Bool :=
  b.2 < a.2 || (a.2 = b.2 && a.1 ≤ b.1)

/-- The results in order. -/
def sortByRank [LinearOrder Score] (results : List (Entry Score)) : List (Entry Score) :=
  results.insertionSort fun a b => ranks a b

/-- `complete`: the search stops at `max * 8` results, before they are sorted. -/
def complete [LinearOrder Score] (u : Unicode) (order : Order) (nodes : List (Node Score))
    (line : Str) (max : Nat) : Option (List (Entry Score)) := do
  let token ← currentToken u line
  if token = [] then some []
  else
    match ← seek nodes 0 token with
    | none => some []
    | some idx =>
        let limit := MachineWord.mul max 8
        let results ← collect order nodes limit nodes.length [idx] []
        some ((sortByRank results).take max)

/-- `node_count` -/
def nodeCount (nodes : List (Node Score)) : Nat := nodes.length

/-- What node `i` is, for the string `p`. -/
structure NodeAt (paths : List Str) (best : Str → Option Score) (i : Nat) (p : Str)
    (node : Node Score) : Prop where
  nodup : node.children.Nodup
  child : ∀ c j, (c, j) ∈ node.children ↔ paths[j]? = some (p ++ [c])
  later : ∀ c j, (c, j) ∈ node.children → i < j
  entry : node.entry = (best p).map (p, ·)

/-- **The shape of the arena.** Each node has the path that leads to it, and the best
score of the text that ends there. -/
structure Shape (nodes : List (Node Score)) (paths : List Str) (best : Str → Option Score) :
    Prop where
  length : nodes.length = paths.length
  root : paths[0]? = some []
  nodup : paths.Nodup
  closed : ∀ p c, p ++ [c] ∈ paths → p ∈ paths
  known : ∀ p s, best p = some s → p ∈ paths
  node : ∀ i p node, paths[i]? = some p → nodes[i]? = some node → NodeAt paths best i p node

/-- A new trie has the empty path alone. -/
theorem shape_new : Shape (new : List (Node Score)) [[]] (fun _ => none) where
  length := rfl
  root := rfl
  nodup := List.nodup_singleton _
  closed := by
    intro p c h
    exact absurd (List.mem_singleton.mp h) (List.append_ne_nil_of_right_ne_nil _ (List.cons_ne_nil _ _))
  known := nofun
  node := by
    intro i p node hp hnode
    cases i with
    | succ i => cases hp
    | zero =>
        cases hp
        cases hnode
        refine ⟨List.nodup_nil, fun c j => iff_of_false List.not_mem_nil ?_, nofun, rfl⟩
        intro hj
        cases j with
        | zero => cases hj
        | succ j => cases hj

namespace Shape

variable {nodes : List (Node Score)} {paths : List Str} {best : Str → Option Score}

/-- The node of a string that the trie has. -/
theorem exists_node (h : Shape nodes paths best) {i : Nat} {p : Str} (hp : paths[i]? = some p) :
    ∃ node, nodes[i]? = some node ∧ NodeAt paths best i p node := by
  have hlt : i < nodes.length := by
    rw [h.length]
    exact (List.getElem?_eq_some_iff.mp hp).1
  exact ⟨nodes[i], List.getElem?_eq_getElem hlt, h.node i p _ hp (List.getElem?_eq_getElem hlt)⟩

/-- A string has one node. -/
theorem index_unique (h : Shape nodes paths best) {i j : Nat} {p : Str} (hi : paths[i]? = some p)
    (hj : paths[j]? = some p) : i = j := by
  obtain ⟨hlt, hval⟩ := List.getElem?_eq_some_iff.mp hi
  obtain ⟨hlt', hval'⟩ := List.getElem?_eq_some_iff.mp hj
  exact (h.nodup.getElem_inj_iff).mp (hval.trans hval'.symm)

end Shape

/-- A child that is found is listed. -/
theorem lookup_mem {children : List (Char × Nat)} {c : Char} {j : Nat}
    (h : children.lookup c = some j) : (c, j) ∈ children := by
  obtain ⟨l, l', rfl, -⟩ := List.lookup_eq_some_iff.mp h
  exact List.mem_append_right _ List.mem_cons_self

/-- A child that is not found is not. -/
private theorem lookup_none {children : List (Char × Nat)} {c : Char} (h : children.lookup c = none)
    (j : Nat) : (c, j) ∉ children := by
  intro hmem
  have hne := List.lookup_eq_none_iff.mp h (c, j) hmem
  exact absurd rfl (bne_iff_ne.mp hne)

/-- The child of a node for a character, if the trie has that string. -/
theorem NodeAt.lookup {paths : List Str} {best : Str → Option Score} {i : Nat} {p : Str}
    {node : Node Score} (hnode : NodeAt paths best i p node) (c : Char) :
    (∃ j, node.children.lookup c = some j ∧ paths[j]? = some (p ++ [c])) ∨
      node.children.lookup c = none ∧ p ++ [c] ∉ paths := by
  cases hlookup : node.children.lookup c with
  | some j => exact Or.inl ⟨j, rfl, (hnode.child c j).mp (lookup_mem hlookup)⟩
  | none =>
      refine Or.inr ⟨rfl, fun hmem => ?_⟩
      obtain ⟨j, hj⟩ := List.getElem?_of_mem hmem
      exact lookup_none hlookup j ((hnode.child c j).mpr hj)

namespace Shape

variable {nodes : List (Node Score)} {paths : List Str} {best : Str → Option Score}

/-- A new child of `p`. -/
theorem push (h : Shape nodes paths best) {idx : Nat} {p : Str} {node : Node Score} {ch : Char}
    (hp : paths[idx]? = some p) (hnode : nodes[idx]? = some node) (hnew : p ++ [ch] ∉ paths) :
    Shape ((nodes ++ [Node.new]).set idx
        { node with children := (ch, nodes.length) :: node.children })
      (paths ++ [p ++ [ch]]) best := by
  have hidx : idx < paths.length := (List.getElem?_eq_some_iff.mp hp).1
  have hpaths : ∀ j q, (paths ++ [p ++ [ch]])[j]? = some q ↔
      paths[j]? = some q ∨ j = paths.length ∧ q = p ++ [ch] := by
    intro j q
    rcases Nat.lt_trichotomy j paths.length with hj | rfl | hj
    · rw [List.getElem?_append_left hj]
      exact ⟨Or.inl, fun hor => hor.resolve_right fun heq => absurd heq.1 hj.ne⟩
    · rw [List.getElem?_concat_length, List.getElem?_eq_none (Nat.le_refl _)]
      simp [eq_comm]
    · rw [List.getElem?_eq_none (by simp; omega), List.getElem?_eq_none hj.le]
      simp
      omega
  have hnodes : ∀ i, i ≠ idx → i < nodes.length →
      ((nodes ++ [Node.new]).set idx
        { node with children := (ch, nodes.length) :: node.children })[i]? = nodes[i]? := by
    intro i hne hi
    rw [List.getElem?_set_ne hne.symm, List.getElem?_append_left hi]
  refine ⟨?_, ?_, ?_, ?_, ?_, ?_⟩
  · rw [List.length_set, List.length_append, List.length_append, h.length]
    rfl
  · exact (hpaths 0 []).mpr (Or.inl h.root)
  · exact List.nodup_append.mpr ⟨h.nodup, List.nodup_singleton _, by
      intro a ha b hb heq
      rw [List.mem_singleton.mp hb] at heq
      exact hnew (heq ▸ ha)⟩
  · intro q c hq
    refine List.mem_append_left _ ?_
    rcases List.mem_append.mp hq with hq | hq
    · exact h.closed q c hq
    · obtain ⟨rfl, -⟩ := List.append_inj' (List.mem_singleton.mp hq) rfl
      exact List.mem_of_getElem? hp
  · exact fun q s hq => List.mem_append_left _ (h.known q s hq)
  · intro i q node' hq hnode'
    rcases (hpaths i q).mp hq with hold | ⟨rfl, rfl⟩
    · obtain ⟨old, hold', hat⟩ := h.exists_node hold
      by_cases hi : i = idx
      · subst hi
        cases hold.symm.trans hp
        cases hold'.symm.trans hnode
        have hlt : i < (nodes ++ [Node.new]).length := by
          rw [List.length_append, h.length]
          exact Nat.lt_add_right _ hidx
        rw [List.getElem?_set_self hlt] at hnode'
        cases hnode'
        refine ⟨?_, fun c j => ?_, fun c j hc => ?_, hat.entry⟩
        · refine List.nodup_cons.mpr ⟨fun hmem => ?_, hat.nodup⟩
          have hlen := (List.getElem?_eq_some_iff.mp ((hat.child _ _).mp hmem)).1
          rw [h.length] at hlen
          exact Nat.lt_irrefl _ hlen
        · rw [List.mem_cons, hpaths, hat.child c j, h.length, or_comm]
          simp
          tauto
        · rcases List.mem_cons.mp hc with heq | hc
          · cases heq
            rw [h.length]
            exact hidx
          · exact hat.later c j hc
      · have hlt : i < nodes.length := by
          rw [h.length]
          exact (List.getElem?_eq_some_iff.mp hold).1
        rw [hnodes i hi hlt, hold'] at hnode'
        cases hnode'
        refine ⟨hat.nodup, fun c j => ?_, hat.later, hat.entry⟩
        rw [hat.child c j, hpaths]
        refine ⟨Or.inl, fun hor => hor.resolve_right ?_⟩
        rintro ⟨-, heq⟩
        obtain ⟨rfl, -⟩ := List.append_inj' heq rfl
        exact hi (h.index_unique hold hp)
    · -- the new node
      rw [List.getElem?_set_ne hidx.ne, ← h.length, List.getElem?_concat_length] at hnode'
      cases hnode'
      refine ⟨List.nodup_nil, fun c j => iff_of_false List.not_mem_nil ?_, nofun, ?_⟩
      · intro hj
        rcases (hpaths j _).mp hj with hj | ⟨-, heq⟩
        · exact hnew (h.closed _ c (List.mem_of_getElem? hj))
        · have hlen := congrArg List.length heq
          simp at hlen
      · cases hbest : best (p ++ [ch]) with
        | none => rfl
        | some s => exact absurd (h.known _ s hbest) hnew

/-- Only the entry of `p` changes. -/
theorem setTerminal (h : Shape nodes paths best) {idx : Nat} {p : Str} {node : Node Score}
    (hp : paths[idx]? = some p) (hnode : nodes[idx]? = some node) (score : Score) (cat : Category) :
    Shape (nodes.set idx { node with terminal := some ⟨p, score, cat⟩ }) paths
      (Function.update best p (some score)) := by
  refine ⟨by rw [List.length_set, h.length], h.root, h.nodup, h.closed, ?_, ?_⟩
  · intro q s hq
    by_cases hqp : q = p
    · exact hqp ▸ List.mem_of_getElem? hp
    · rw [Function.update_of_ne hqp] at hq
      exact h.known q s hq
  · intro i q node' hq hnode'
    obtain ⟨old, hold, hat⟩ := h.exists_node hq
    by_cases hi : idx = i
    · subst hi
      cases hq.symm.trans hp
      cases hold.symm.trans hnode
      rw [List.getElem?_set_self (List.getElem?_eq_some_iff.mp hnode).1] at hnode'
      cases hnode'
      refine ⟨hat.nodup, hat.child, hat.later, ?_⟩
      rw [Function.update_self]
      rfl
    · rw [List.getElem?_set_ne hi, hold] at hnode'
      cases hnode'
      have hqp : q ≠ p := fun heq => hi (h.index_unique hp (heq ▸ hq))
      refine ⟨hat.nodup, hat.child, hat.later, ?_⟩
      rw [Function.update_of_ne hqp]
      exact hat.entry

/-- Entering a child keeps the shape, with one path more if it is new. -/
theorem enter (h : Shape nodes paths best) {idx : Nat} {p : Str} (ch : Char)
    (hp : paths[idx]? = some p) :
    ∃ nodes' next paths', CompletionTrie.enter nodes idx ch = some (nodes', next) ∧
      Shape nodes' paths' best ∧ paths'[next]? = some (p ++ [ch]) ∧
      ∀ q, q ∈ paths' ↔ q ∈ paths ∨ q = p ++ [ch] := by
  obtain ⟨node, hnode, hat⟩ := h.exists_node hp
  rcases hat.lookup ch with ⟨j, hlookup, hj⟩ | ⟨hlookup, hnew⟩
  · refine ⟨nodes, j, paths, ?_, h, hj, fun q => ?_⟩
    · unfold CompletionTrie.enter
      rw [hnode]
      dsimp only
      rw [hlookup]
    · exact ⟨Or.inl, fun hq => hq.elim id fun heq => heq ▸ List.mem_of_getElem? hj⟩
  · refine ⟨_, nodes.length, paths ++ [p ++ [ch]], ?_, h.push hp hnode hnew, ?_, fun q => ?_⟩
    · unfold CompletionTrie.enter
      rw [hnode]
      dsimp only
      rw [hlookup]
    · rw [h.length, List.getElem?_concat_length]
    · rw [List.mem_append, List.mem_singleton]

/-- The way down from `p` along `text` makes the strings in between. -/
theorem descend (h : Shape nodes paths best) (text : Str) {idx : Nat} {p : Str}
    (hp : paths[idx]? = some p) :
    ∃ nodes' next paths', CompletionTrie.descend nodes idx text = some (nodes', next) ∧
      Shape nodes' paths' best ∧ paths'[next]? = some (p ++ text) ∧
      ∀ q, q ∈ paths' ↔ q ∈ paths ∨ ∃ w, w <+: text ∧ q = p ++ w := by
  induction text generalizing nodes paths idx p with
  | nil =>
      refine ⟨nodes, idx, paths, rfl, h, by rw [List.append_nil, hp], fun q => ⟨Or.inl, ?_⟩⟩
      rintro (hq | ⟨w, hw, rfl⟩)
      · exact hq
      · rw [List.eq_nil_of_prefix_nil hw, List.append_nil]
        exact List.mem_of_getElem? hp
  | cons ch text ih =>
      obtain ⟨nodes₁, next, paths₁, henter, h₁, hnext, hpaths₁⟩ := h.enter ch hp
      obtain ⟨nodes', last, paths', hdescend, h', hlast, hpaths'⟩ := ih h₁ hnext
      refine ⟨nodes', last, paths', ?_, h', ?_, fun q => ?_⟩
      · rw [CompletionTrie.descend, henter]
        exact hdescend
      · rw [hlast, List.append_assoc]
        rfl
      · rw [hpaths', hpaths₁]
        constructor
        · rintro ((hq | rfl) | ⟨w, hw, rfl⟩)
          · exact Or.inl hq
          · exact Or.inr ⟨[ch], ⟨text, rfl⟩, rfl⟩
          · exact Or.inr ⟨ch :: w, (List.cons_prefix_cons.mpr ⟨rfl, hw⟩), by simp⟩
        · rintro (hq | ⟨w, hw, rfl⟩)
          · exact Or.inl (Or.inl hq)
          · cases w with
            | nil =>
                rw [List.append_nil]
                exact Or.inl (Or.inl (List.mem_of_getElem? hp))
            | cons c w =>
                obtain ⟨rfl, htail⟩ := List.cons_prefix_cons.mp hw
                exact Or.inr ⟨w, htail, by simp⟩

end Shape

section
variable [LinearOrder Score]

/-- The best scores after one more call. -/
def improve (best : Str → Option Score) (call : Call Score) : Str → Option Score :=
  Function.update best call.text (some ((best call.text).elim call.score (Max.max · call.score)))

/-- **One insertion** keeps the shape: the paths are the beginnings of the text, and its
best score is improved. -/
theorem Shape.insert {nodes : List (Node Score)} {paths : List Str} {best : Str → Option Score}
    (h : Shape nodes paths best) (call : Call Score) :
    ∃ nodes' paths', CompletionTrie.insert nodes call = some nodes' ∧
      Shape nodes' paths' (improve best call) ∧
      ∀ q, q ∈ paths' ↔ q ∈ paths ∨ q <+: call.text := by
  obtain ⟨nodes₁, idx, paths', hdescend, h₁, hidx, hpaths⟩ := h.descend call.text h.root
  obtain ⟨node, hnode, hat⟩ := h₁.exists_node hidx
  have hpaths' : ∀ q, q ∈ paths' ↔ q ∈ paths ∨ q <+: call.text := by
    intro q
    rw [hpaths]
    simp
  have hinsert : CompletionTrie.insert nodes call =
      if (match node.terminal with | none => true | some t => decide (t.score < call.score)) then
        some (nodes₁.set idx { node with terminal := some ⟨call.text, call.score, call.cat⟩ })
      else some nodes₁ := by
    unfold CompletionTrie.insert
    rw [hdescend]
    dsimp only [Option.bind_eq_bind, Option.bind_some]
    rw [hnode]
    rfl
  have hset := h₁.setTerminal hidx hnode call.score call.cat
  have hentry := hat.entry
  rw [List.nil_append] at hset hentry
  cases hterm : node.terminal with
  | none =>
      have hbest : best call.text = none := by
        rw [Node.entry, hterm] at hentry
        exact Option.map_eq_none_iff.mp hentry.symm
      refine ⟨_, paths', hinsert.trans (if_pos (by rw [hterm])), ?_, hpaths'⟩
      rw [improve, hbest]
      exact hset
  | some t =>
      have hbest : best call.text = some t.score := by
        rw [Node.entry, hterm] at hentry
        obtain ⟨s, hs, heq⟩ := Option.map_eq_some_iff.mp hentry.symm
        rw [hs, (Prod.mk.inj heq).2]
      by_cases hlt : t.score < call.score
      · refine ⟨_, paths', hinsert.trans (if_pos (by rw [hterm]; exact decide_eq_true hlt)), ?_,
          hpaths'⟩
        rw [improve, hbest, Option.elim_some, max_eq_right hlt.le]
        exact hset
      · refine ⟨_, paths', hinsert.trans (if_neg (by rw [hterm]; simpa using hlt)), ?_, hpaths'⟩
        rw [improve, hbest, Option.elim_some, max_eq_left (not_lt.mp hlt), ← hbest,
          Function.update_eq_self]
        exact h₁

/-- The highest score a text was inserted with. -/
def bestOf (calls : List (Call Score)) (text : Str) : Option Score :=
  ((calls.filter fun call => call.text = text).map Call.score).max?

/-- The best score of a text is the highest one that it was inserted with. -/
theorem bestOf_eq_some {calls : List (Call Score)} {text : Str} {s : Score} :
    bestOf calls text = some s ↔
      (∃ call ∈ calls, call.text = text ∧ call.score = s) ∧
        ∀ call ∈ calls, call.text = text → call.score ≤ s := by
  rw [bestOf, List.max?_eq_some_iff]
  simp only [List.mem_map, List.mem_filter, decide_eq_true_eq]
  constructor
  · rintro ⟨⟨call, ⟨hcall, htext⟩, hscore⟩, hle⟩
    exact ⟨⟨call, hcall, htext, hscore⟩, fun c hc ht => hle _ ⟨c, ⟨hc, ht⟩, rfl⟩⟩
  · rintro ⟨⟨call, hcall, htext, hscore⟩, hle⟩
    refine ⟨⟨call, ⟨hcall, htext⟩, hscore⟩, ?_⟩
    rintro _ ⟨c, ⟨hc, ht⟩, rfl⟩
    exact hle c hc ht

/-- One insertion more improves it. -/
theorem bestOf_append (calls : List (Call Score)) (call : Call Score) :
    bestOf (calls ++ [call]) = improve (bestOf calls) call := by
  funext text
  unfold improve bestOf
  by_cases htext : text = call.text
  · subst htext
    rw [Function.update_self, List.filter_append, List.filter_singleton]
    simp only [decide_true, cond_true, List.map_append, List.map_singleton]
    cases (calls.filter fun c => c.text = call.text).map Call.score with
    | nil => rfl
    | cons s scores =>
        rw [List.cons_append, List.max?_cons', List.max?_cons', List.foldl_append]
        rfl
  · have hne : call.text ≠ text := fun heq => htext heq.symm
    rw [Function.update_of_ne htext, List.filter_append, List.filter_singleton]
    simp [hne]

/-- Insertions give a trie that stands for the texts and their best scores. -/
theorem insertAll_shape (calls : List (Call Score)) :
    ∃ nodes paths, insertAll new calls = some nodes ∧ Shape nodes paths (bestOf calls) ∧
      ∀ q, q ∈ paths ↔ q = [] ∨ ∃ call ∈ calls, q <+: call.text := by
  induction calls using List.reverseRecOn with
  | nil =>
      refine ⟨new, [[]], rfl, shape_new, fun q => ?_⟩
      simp
  | append_singleton calls call ih =>
      obtain ⟨nodes, paths, hrun, hshape, hpaths⟩ := ih
      obtain ⟨nodes', paths', hinsert, hshape', hpaths'⟩ := hshape.insert call
      refine ⟨nodes', paths', ?_, bestOf_append calls call ▸ hshape', fun q => ?_⟩
      · unfold insertAll at hrun ⊢
        rw [List.foldlM_append, hrun]
        simp [hinsert]
      · rw [hpaths', hpaths]
        simp only [List.mem_append, List.mem_singleton]
        constructor
        · rintro ((rfl | ⟨c, hc, hq⟩) | hq)
          · exact Or.inl rfl
          · exact Or.inr ⟨c, Or.inl hc, hq⟩
          · exact Or.inr ⟨call, Or.inr rfl, hq⟩
        · rintro (rfl | ⟨c, hc | rfl, hq⟩)
          · exact Or.inl (Or.inl rfl)
          · exact Or.inl (Or.inr ⟨c, hc, hq⟩)
          · exact Or.inr hq

end

end

end CompletionTrie
