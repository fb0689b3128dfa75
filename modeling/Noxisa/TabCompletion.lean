import Noxisa.LineEditor
import Noxisa.CompletionSearch
import Noxisa.EngineSlices

/-!
# Completion of a token with Tab

A single completion is applied inline: the shell cuts off what it takes for the
token already typed and inserts the rest at the cursor.  It has delimiters of its
own, fewer characters than the trie's belong to its token, and without a delimiter
it cuts off nothing.  The offline and the online stage are whatever they answer.
-/

namespace TabCompletion

open Utf8 CompletionTrie CompletionEngine LineEditor

/-- A Rust `String`, by its characters. -/
abbrev Str := List Char

/-- `CompletionSource` -/
inductive Source
  | trie | offline | online
deriving DecidableEq

/-- `CompletionResult` -/
structure CompletionRes (Score : Type) where
  /-- the text to insert -/
  text : Str
  /-- the confidence -/
  score : Score
  /-- the stage that gave it -/
  source : Source
deriving DecidableEq

/-- The engine as a request finds it. -/
structure AiEngine (Score : Type) where
  /-- the insertions that made the trie -/
  inserted : List (Call Score)
  trieFirst : Bool := true
  preferOnline : Bool := true
  offlineFallback : Bool := true
  onlineOk : Bool := false
  /-- what a stage answers: none if it panics, `some none` on an error -/
  offline : Str → Nat → Option (Option (List (Entry Score)))
  online : Str → Nat → Option (Option (List (Entry Score)))

section
variable {Score : Type}

/-- The results of a stage, with its name. -/
def tagged (source : Source) (entries : List (Entry Score)) : List (CompletionRes Score) :=
  entries.map fun e => ⟨e.1, e.2, source⟩

/-- The stage of a result is the one it was tagged with. -/
theorem source_of_mem_tagged {source : Source} {entries : List (Entry Score)}
    {r : CompletionRes Score} (h : r ∈ tagged source entries) : r.source = source := by
  obtain ⟨e, -, rfl⟩ := List.mem_map.mp h
  rfl

variable [LinearOrder Score]

/-- `results.sort_by`, highest score first -/
def byScore (results : List (CompletionRes Score)) : List (CompletionRes Score) :=
  results.insertionSort fun a b => b.score ≤ a.score

namespace AiEngine

variable (ai : AiEngine Score)

/-- The first stage, if it is switched on. -/
def hits (u : Unicode) (order : Order) (line : Str) (n : Nat) :
    Option (List (CompletionRes Score)) :=
  if ai.trieFirst then (completeAfter u order ai.inserted line n).map (tagged .trie) else some []

/-- The stages that ask a model, one after the other. -/
def model (line : Str) (remaining : Nat) : Option (Option (List (CompletionRes Score))) :=
  if ai.preferOnline && ai.onlineOk then
    match ai.online line remaining with
    | none => none
    | some (some r) => some (some (tagged .online r))
    | some none =>
        if ai.offlineFallback then (ai.offline line remaining).map (·.map (tagged .offline))
        else some (some [])
  else (ai.offline line remaining).map (·.map (tagged .offline))

/-- `AiEngine::complete`, for a request whose text is the line -/
def complete (u : Unicode) (order : Order) (line : Str) (n : Nat) :
    Option (Option (List (CompletionRes Score))) := do
  let results ← ai.hits u order line n
  if ai.trieFirst ∧ n ≤ results.length then some (some (byScore results))
  else
    match ← ai.model line (n - results.length) with
    | none => some none
    | some r => some (some ((byScore (results ++ r)).take n))

/-- The completions that Tab asks for, twelve of them. -/
def world (u : Unicode) (order : Order) (w : World) : World :=
  { w with complete := fun line => (ai.complete u order line 12).map (·.map (·.map (·.text))) }

end AiEngine

end

/-- A character that ends the shell's token. -/
def shellDelimiter (u : Unicode) (c : Char) : Bool :=
  !u.isAlphanumeric c && c != '_' && c != ':' && c != '.'

/-- The line is cut at the last character that satisfies `p`. -/
structure CutAt (p : Char → Bool) (line a : Str) (c : Char) (b : Str) : Prop where
  eq : line = a ++ c :: b
  last : p c = true
  rest : ∀ d ∈ b, p d = false

/-- How many bytes of a completion the shell takes for typed: none without a delimiter. -/
def TypedBytes (u : Unicode) (line : Str) (n : Nat) : Prop :=
  ((∀ c ∈ line, shellDelimiter u c = false) ∧ n = 0) ∨
    ∃ a c b, CutAt (shellDelimiter u) line a c b ∧ n = String.utf8Len b + (c.utf8Size - 1)

/-- The delimiters of the engine are those of the shell but three. -/
theorem delimiter_eq (u : Unicode) (c : Char) :
    delimiter u c = (shellDelimiter u c && c != '/' && c != '!' && c != '(') := rfl

/-- A delimiter of the shell is one of the engine, the three apart. -/
private theorem delimiter_of_shell {u : Unicode} {c : Char} (h : shellDelimiter u c = true)
    (hne : c ∉ ['/', '!', '(']) : delimiter u c = true := by
  rw [delimiter_eq, h]
  simpa [and_assoc] using hne

/-- What does not delimit in the shell does not in the engine. -/
theorem delimiter_false_of_shell {u : Unicode} {c : Char} (h : shellDelimiter u c = false) :
    delimiter u c = false := by
  rw [delimiter_eq, h]
  rfl

/-- The three do not. -/
theorem delimiter_false_of_mem {u : Unicode} {c : Char} (h : c ∈ ['/', '!', '(']) :
    delimiter u c = false := by
  rw [delimiter_eq]
  rcases List.mem_cons.mp h with rfl | h
  · simp
  · rcases List.mem_cons.mp h with rfl | h
    · simp
    · rw [List.mem_singleton.mp h]
      simp

/-- A line can be cut at its last delimiter in one way. -/
theorem CutAt.unique {p : Char → Bool} {line a a' b b' : Str} {c c' : Char}
    (h : CutAt p line a c b) (h' : CutAt p line a' c' b') : a = a' ∧ c = c' ∧ b = b' := by
  have heq : a ++ c :: b = a' ++ c' :: b' := h.eq.symm.trans h'.eq
  rcases List.append_eq_append_iff.mp heq with ⟨x, rfl, hx⟩ | ⟨x, rfl, hx⟩
  · cases x with
    | nil =>
        obtain ⟨hc, hb⟩ := List.cons.inj hx
        exact ⟨(List.append_nil a).symm, hc, hb⟩
    | cons d x =>
        obtain ⟨rfl, hb⟩ := List.cons.inj hx
        have hmem : c' ∈ b := hb ▸ List.mem_append_right x List.mem_cons_self
        exact absurd h'.last (by rw [h.rest c' hmem]; nofun)
  · cases x with
    | nil =>
        obtain ⟨hc, hb⟩ := List.cons.inj hx
        exact ⟨List.append_nil a', hc.symm, hb.symm⟩
    | cons d x =>
        obtain ⟨rfl, hb⟩ := List.cons.inj hx
        have hmem : c ∈ b' := hb ▸ List.mem_append_right x List.mem_cons_self
        exact absurd h.last (by rw [h'.rest c hmem]; nofun)

/-- The length that the shell takes for the token. -/
theorem currentTokenLen_eq {u : Unicode} {line : Str} {n : Nat} :
    currentTokenLen u line = n ↔ TypedBytes u line n := by
  have hlen : currentTokenLen u line = (rfind (shellDelimiter u) line).elim 0
      fun i => String.utf8Len line - i - 1 := by
    unfold currentTokenLen
    split
    next h =>
      have hfind : rfind (shellDelimiter u) line = none := h
      rw [hfind]
      rfl
    next i h =>
      have hfind : rfind (shellDelimiter u) line = some i := h
      rw [hfind]
      rfl
  rw [hlen]
  rcases rfind_cases (shellDelimiter u) line with hnone | ⟨a, c, b, hline, hc, hb⟩
  · rw [rfind_of_forall hnone]
    constructor
    · rintro rfl
      exact Or.inl ⟨hnone, rfl⟩
    · rintro (⟨-, rfl⟩ | ⟨a, c, b, hcut, -⟩)
      · rfl
      · have hfalse := hnone c (hcut.eq ▸ List.mem_append_right a List.mem_cons_self)
        rw [hcut.last] at hfalse
        cases hfalse
  · have hcut : CutAt (shellDelimiter u) line a c b := ⟨hline, hc, hb⟩
    have hbytes : String.utf8Len line - String.utf8Len a - 1 =
        String.utf8Len b + (c.utf8Size - 1) := by
      have hpos := c.utf8Size_pos
      rw [hline, String.utf8Len_append, String.utf8Len_cons]
      omega
    have hrfind : rfind (shellDelimiter u) line = some (String.utf8Len a) :=
      hline ▸ rfind_append a hc hb
    rw [hrfind, Option.elim_some, hbytes]
    constructor
    · rintro rfl
      exact Or.inr ⟨a, c, b, hcut, rfl⟩
    · rintro (⟨hnone, -⟩ | ⟨a', c', b', hcut', rfl⟩)
      · have hfalse := hnone c (hline ▸ List.mem_append_right a List.mem_cons_self)
        rw [hc] at hfalse
        cases hfalse
      · obtain ⟨-, rfl, rfl⟩ := hcut.unique hcut'
        rfl

section
variable {Score : Type} [LinearOrder Score] {u : Unicode} {order : Order} {ai : AiEngine Score}
  {line : Str} {n : Nat}

/-- No stage that a request reaches panics. -/
structure Answers (u : Unicode) (order : Order) (ai : AiEngine Score) (line : Str) (n : Nat) :
    Prop where
  token : ai.trieFirst = true → TokenSliceable u line
  model : ∀ results, ai.hits u order line n = some results →
    ¬(ai.trieFirst = true ∧ n ≤ results.length) → ai.model line (n - results.length) ≠ none

/-- The first stage answers exactly where the token can be cut out. -/
theorem hits_isSome (order : Order) (n : Nat) :
    ai.hits u order line n ≠ none ↔ (ai.trieFirst = true → TokenSliceable u line) := by
  unfold AiEngine.hits
  by_cases hfirst : ai.trieFirst = true
  · rw [if_pos hfirst, ← currentToken_isSome]
    cases htoken : currentToken u line with
    | none =>
        rw [completeAfter_none order ai.inserted htoken]
        simp [hfirst]
    | some token =>
        by_cases hne : token = []
        · rw [completeAfter_empty order ai.inserted (hne ▸ htoken)]
          simp
        · rw [completeAfter_eq u order ai.inserted htoken hne]
          simp
  · rw [if_neg hfirst]
    simp [hfirst]

/-- **The engine answers** exactly where the stages that it comes to do. -/
theorem complete_isSome : ai.complete u order line n ≠ none ↔ Answers u order ai line n := by
  constructor
  · intro h
    refine ⟨(hits_isSome order n).mp fun hnone => h ?_,
      fun results hresults hgo hnone => h ?_⟩
    · rw [AiEngine.complete, hnone]
      rfl
    · rw [AiEngine.complete, hresults]
      dsimp only [Option.bind_eq_bind, Option.bind_some]
      rw [if_neg hgo, hnone]
      rfl
  · rintro ⟨htoken, hmodel⟩
    obtain ⟨results, hresults⟩ :=
      Option.ne_none_iff_exists'.mp ((hits_isSome order n).mpr htoken)
    rw [AiEngine.complete, hresults]
    dsimp only [Option.bind_eq_bind, Option.bind_some]
    by_cases hgo : ai.trieFirst = true ∧ n ≤ results.length
    · rw [if_pos hgo]
      nofun
    · obtain ⟨r, hr⟩ := Option.ne_none_iff_exists'.mp (hmodel results hresults hgo)
      rw [if_neg hgo, hr]
      cases r with
      | none => nofun
      | some r => nofun

omit [LinearOrder Score] in
/-- What a model answers is not a hit of the trie. -/
theorem model_source {r : List (CompletionRes Score)} (h : ai.model line n = some (some r)) :
    ∀ e ∈ r, e.source ≠ .trie := by
  have hoffline : (ai.offline line n).map (·.map (tagged .offline)) = some (some r) →
      ∀ e ∈ r, e.source ≠ .trie := by
    intro h e he
    obtain ⟨o, -, ho⟩ := Option.map_eq_some_iff.mp h
    obtain ⟨entries, -, rfl⟩ := Option.map_eq_some_iff.mp ho
    rw [source_of_mem_tagged he]
    nofun
  unfold AiEngine.model at h
  split at h
  · split at h
    · cases h
    · cases h
      intro e he
      rw [source_of_mem_tagged he]
      nofun
    · split at h
      · exact hoffline h
      · cases h
        nofun
  · exact hoffline h

/-- A completion from the trie begins with the token, which is not empty. -/
theorem trie_hit {results : List (CompletionRes Score)} {r : CompletionRes Score}
    (h : ai.complete u order line n = some (some results)) (hr : r ∈ results)
    (hsource : r.source = .trie) :
    ∃ token, currentToken u line = some token ∧ token ≠ [] ∧ token <+: r.text := by
  obtain ⟨hits, hhits, hmem⟩ : ∃ hits, ai.hits u order line n = some hits ∧ r ∈ hits := by
    unfold AiEngine.complete at h
    obtain ⟨hits, hhits, h⟩ := Option.bind_eq_some_iff.mp h
    refine ⟨hits, hhits, ?_⟩
    split at h
    · cases h
      exact (List.perm_insertionSort _ hits).mem_iff.mp hr
    · obtain ⟨m, hm, h⟩ := Option.bind_eq_some_iff.mp h
      cases m with
      | none => cases h
      | some m =>
          cases h
          have hmem := (List.perm_insertionSort _ (hits ++ m)).mem_iff.mp (List.mem_of_mem_take hr)
          exact (List.mem_append.mp hmem).resolve_right fun hmem => model_source hm r hmem hsource
  unfold AiEngine.hits at hhits
  split at hhits
  next =>
    obtain ⟨entries, hentries, rfl⟩ := Option.map_eq_some_iff.mp hhits
    obtain ⟨e, he, rfl⟩ := List.mem_map.mp hmem
    exact token_prefix hentries he
  next =>
    cases hhits
    cases hmem

/-- A text typed at the end of the line is appended. -/
theorem insertAll_end (buf text : Str) :
    LineEditor.insertAll buf buf.length text = .ok (buf ++ text) := by
  induction text generalizing buf with
  | nil => rw [LineEditor.insertAll, List.append_nil]
  | cons ch text ih =>
      have hinsert : LineEditor.insert buf buf.length ch = .ok (buf ++ [ch]) := by
        unfold LineEditor.insert
        rw [if_pos (Nat.le_refl _), List.insertIdx_length_self]
      have hlen : buf.length + 1 = (buf ++ [ch]).length := by simp
      rw [LineEditor.insertAll, hinsert, hlen]
      refine (ih (buf ++ [ch])).trans ?_
      rw [List.append_assoc]
      rfl

/-- A single completion is cut and put at the end of the line. -/
theorem doTabComplete_single {w : World} {s : Shell} (hcursor : s.cursor = s.buf.length)
    {text : Str} (h : w.complete s.buf = some (some [text])) (s' : Shell) :
    s.doTabComplete u w = .ok s' ↔ ∃ typed rest, text = typed ++ rest ∧
      TypedBytes u s.buf (String.utf8Len typed) ∧
      s' = { s with buf := s.buf ++ rest, cursor := s.cursor + rest.length } := by
  have hinsert : ∀ rest : Str, s.insertText rest =
      .ok { s with buf := s.buf ++ rest, cursor := s.cursor + rest.length } := by
    intro rest
    unfold Shell.insertText
    rw [hcursor, insertAll_end]
    rfl
  unfold Shell.doTabComplete
  rw [h]
  dsimp only
  cases hslice : sliceFrom text (currentTokenLen u s.buf) with
  | none =>
      refine iff_of_false nofun ?_
      rintro ⟨typed, rest, rfl, htyped, -⟩
      rw [currentTokenLen_eq.mpr htyped, sliceFrom_append] at hslice
      cases hslice
  | some rest =>
      obtain ⟨typed, rfl, hlen⟩ := sliceFrom_eq_some.mp hslice
      dsimp only
      rw [hinsert, Except.ok.injEq]
      constructor
      · rintro rfl
        exact ⟨typed, rest, rfl, currentTokenLen_eq.mp hlen.symm, rfl⟩
      · rintro ⟨typed', rest', heq, htyped', rfl⟩
        rw [currentTokenLen_eq.mpr htyped', heq, sliceFrom_append] at hslice
        cases hslice
        rfl

/-- The trie's token is what follows its last delimiter. -/
theorem currentToken_cases {token : Str} (h : currentToken u line = some token) :
    (∀ d ∈ token, delimiter u d = false) ∧
      (line = token ∨ ∃ a c, line = a ++ c :: token ∧ delimiter u c = true ∧ c.utf8Size = 1) := by
  rcases rfind_cases (delimiter u) line with hnone | ⟨a, c, b, rfl, hc, hb⟩
  · rw [currentToken_whole hnone] at h
    cases h
    exact ⟨hnone, Or.inl rfl⟩
  · rw [currentToken_cut hc hb] at h
    split at h
    next hone =>
      cases h
      exact ⟨hb, Or.inr ⟨a, c, rfl, hc, hone⟩⟩
    next => cases h

/-- After a shell delimiter that the trie takes into the token, the trie's token is longer. -/
theorem token_longer {token a b : Str} {c : Char} (h : currentToken u line = some token)
    (hcut : CutAt (shellDelimiter u) line a c b) (hmem : c ∈ ['/', '!', '(']) :
    String.utf8Len b < String.utf8Len token := by
  obtain ⟨x, rfl⟩ : ∃ x, token = x ++ c :: b := by
    rcases (currentToken_cases h).2 with rfl | ⟨a', d, hline, hd, -⟩
    · exact ⟨a, hcut.eq⟩
    · have heq : a' ++ d :: token = a ++ c :: b := hline.symm.trans hcut.eq
      rcases List.append_eq_append_iff.mp heq with ⟨x, rfl, hx⟩ | ⟨x, rfl, hx⟩
      · cases x with
        | nil =>
            obtain ⟨rfl, -⟩ := List.cons.inj hx
            rw [delimiter_false_of_mem hmem] at hd
            cases hd
        | cons e x => exact ⟨x, (List.cons.inj hx).2⟩
      · cases x with
        | nil =>
            obtain ⟨rfl, -⟩ := List.cons.inj hx
            rw [delimiter_false_of_mem hmem] at hd
            cases hd
        | cons e x =>
            obtain ⟨-, hb⟩ := List.cons.inj hx
            have hrest := hcut.rest d (hb ▸ List.mem_append_right x List.mem_cons_self)
            rw [delimiter_false_of_shell hrest] at hd
            cases hd
  have hpos := c.utf8Size_pos
  rw [String.utf8Len_append, String.utf8Len_cons]
  omega

/-- Tab does what it is for: it does not panic, and a single completion from the trie
takes the place of the token. -/
def Replaces (u : Unicode) (order : Order) (ai : AiEngine Score) (w : World) (s : Shell) : Prop :=
  ∃ s', s.doTabComplete u (ai.world u order w) = .ok s' ∧
    ∀ r, ai.complete u order s.buf 12 = some (some [r]) → r.source = .trie →
      ∃ before token, currentToken u s.buf = some token ∧ s.buf = before ++ token ∧
        s'.buf = before ++ r.text

/-- The engine answers, and where its answer is a single completion: if it is from the trie,
the line has a shell delimiter and the last one is neither '/' nor '!' nor '('; if it is not,
what the shell takes for typed ends between two characters of it. -/
structure Fits (u : Unicode) (order : Order) (ai : AiEngine Score) (line : Str) : Prop where
  answers : Answers u order ai line 12
  trie : ∀ r, ai.complete u order line 12 = some (some [r]) → r.source = .trie →
    ∃ a c b, CutAt (shellDelimiter u) line a c b ∧ c ∉ ['/', '!', '(']
  other : ∀ r, ai.complete u order line 12 = some (some [r]) → r.source ≠ .trie →
    ∃ typed rest, r.text = typed ++ rest ∧ TypedBytes u line (String.utf8Len typed)

section
variable {w : World} {s : Shell} {r : CompletionRes Score}

/-- The editor's world, for one completion. -/
theorem world_single (h : ai.complete u order s.buf 12 = some (some [r])) :
    (ai.world u order w).complete s.buf = some (some [r.text]) := by
  change (ai.complete u order s.buf 12).map _ = _
  rw [h]
  rfl

/-- **A hit of the trie** replaces the token exactly if the last delimiter of the shell
is one of the engine as well. -/
theorem trie_replaced (hcursor : s.cursor = s.buf.length)
    (hcomplete : ai.complete u order s.buf 12 = some (some [r])) (hsource : r.source = .trie) :
    (∃ s', s.doTabComplete u (ai.world u order w) = .ok s' ∧
      ∃ before token, currentToken u s.buf = some token ∧ s.buf = before ++ token ∧
        s'.buf = before ++ r.text) ↔
      ∃ a c b, CutAt (shellDelimiter u) s.buf a c b ∧ c ∉ ['/', '!', '('] := by
  obtain ⟨token, htoken, hne, more, hmore⟩ := trie_hit hcomplete List.mem_cons_self hsource
  constructor
  · rintro ⟨s', hs', before, token', htoken', hbuf, hbuf'⟩
    cases htoken.symm.trans htoken'
    obtain ⟨typed, rest, htext, htyped, rfl⟩ :=
      (doTabComplete_single hcursor (world_single hcomplete) s').mp hs'
    -- the shell takes just the trie's token for typed
    have hsame : token = typed := by
      have hline : before ++ (token ++ rest) = before ++ (typed ++ rest) := by
        rw [← List.append_assoc, ← hbuf, ← htext]
        exact hbuf'
      exact List.append_cancel_right (List.append_cancel_left hline)
    subst hsame
    rcases htyped with ⟨-, hzero⟩ | ⟨a, c, b, hcut, hbytes⟩
    · cases token with
      | nil => exact absurd rfl hne
      | cons d token =>
          have hpos := d.utf8Size_pos
          rw [String.utf8Len_cons] at hzero
          omega
    · refine ⟨a, c, b, hcut, fun hmem => ?_⟩
      have hone : c.utf8Size = 1 := by
        simp only [List.mem_cons, List.not_mem_nil, or_false] at hmem
        rcases hmem with rfl | rfl | rfl <;> rfl
      have hlonger := token_longer htoken hcut hmem
      omega
  · rintro ⟨a, c, b, hcut, hnot⟩
    have hdelimiter := delimiter_of_shell hcut.last hnot
    have htoken' := currentToken_cut (a := a) hdelimiter
      fun d hd => delimiter_false_of_shell (hcut.rest d hd)
    rw [← hcut.eq, htoken] at htoken'
    by_cases hone : c.utf8Size = 1
    · rw [if_pos hone] at htoken'
      cases htoken'
      have htyped : TypedBytes u s.buf (String.utf8Len token) :=
        Or.inr ⟨a, c, token, hcut, by rw [hone]; rfl⟩
      refine ⟨_, (doTabComplete_single hcursor (world_single hcomplete) _).mpr
        ⟨token, more, hmore.symm, htyped, rfl⟩, a ++ [c], token, htoken, ?_, ?_⟩
      · rw [hcut.eq, List.append_assoc]
        rfl
      · rw [← hmore]
        simp [hcut.eq]
    · rw [if_neg hone] at htoken'
      cases htoken'

/-- With the cursor at the end of the line, Tab replaces the token exactly when the engine
answers and its answer fits the line. -/
theorem tab_replaces (u : Unicode) (order : Order) (ai : AiEngine Score) (w : World) (s : Shell)
    (hcursor : s.cursor = s.buf.length) : Replaces u order ai w s ↔ Fits u order ai s.buf := by
  have hanswers : ai.complete u order s.buf 12 ≠ none ↔ Answers u order ai s.buf 12 :=
    complete_isSome
  have hworld : (ai.world u order w).complete s.buf =
      (ai.complete u order s.buf 12).map (·.map (·.map (·.text))) := rfl
  -- without a single completion the line stays
  have hstays : ∀ answer, ai.complete u order s.buf 12 = some answer →
      (∀ r, answer ≠ some [r]) → (Replaces u order ai w s ↔ Fits u order ai s.buf) := by
    intro answer hcomplete hmany
    have hno : ∀ r, ai.complete u order s.buf 12 ≠ some (some [r]) := by
      intro r hr
      exact hmany r (Option.some.inj (hcomplete.symm.trans hr))
    have hok : s.doTabComplete u (ai.world u order w) = .ok s := by
      unfold Shell.doTabComplete
      rw [hworld, hcomplete]
      match answer with
      | none => rfl
      | some [] => rfl
      | some [r] => exact absurd rfl (hmany r)
      | some (_ :: _ :: _) => rfl
    refine iff_of_true ⟨s, hok, fun r hr => absurd hr (hno r)⟩ ⟨?_, ?_, ?_⟩
    · exact hanswers.mp (by rw [hcomplete]; nofun)
    · exact fun r hr => absurd hr (hno r)
    · exact fun r hr => absurd hr (hno r)
  match hcomplete : ai.complete u order s.buf 12 with
  | none =>
      refine iff_of_false ?_ fun hfits => hanswers.mpr hfits.answers hcomplete
      rintro ⟨s', hs', -⟩
      unfold Shell.doTabComplete at hs'
      rw [hworld, hcomplete] at hs'
      cases hs'
  | some none => exact hstays none hcomplete nofun
  | some (some []) => exact hstays (some []) hcomplete nofun
  | some (some (r :: r' :: results)) => exact hstays (some (r :: r' :: results)) hcomplete nofun
  | some (some [r]) =>
      have hsome : Answers u order ai s.buf 12 := hanswers.mp (by rw [hcomplete]; nofun)
      have honly : ∀ r', ai.complete u order s.buf 12 = some (some [r']) → r' = r := by
        intro r' hr'
        cases hcomplete.symm.trans hr'
        rfl
      by_cases hsource : r.source = .trie
      · have htrie := trie_replaced (w := w) hcursor hcomplete hsource
        constructor
        · rintro ⟨s', hs', hreplaced⟩
          refine ⟨hsome, fun r' hr' _ => ?_, fun r' hr' hother => ?_⟩
          · exact htrie.mp ⟨s', hs', hreplaced r hcomplete hsource⟩
          · rw [honly r' hr'] at hother
            exact absurd hsource hother
        · rintro ⟨-, hfits, -⟩
          obtain ⟨s', hs', hreplaced⟩ := htrie.mpr (hfits r hcomplete hsource)
          refine ⟨s', hs', fun r' hr' _ => ?_⟩
          rw [honly r' hr']
          exact hreplaced
      · have hsingle := doTabComplete_single (u := u) hcursor (world_single (w := w) hcomplete)
        constructor
        · rintro ⟨s', hs', -⟩
          obtain ⟨typed, rest, htext, htyped, -⟩ := (hsingle s').mp hs'
          refine ⟨hsome, fun r' hr' htrie => ?_, fun r' hr' _ => ?_⟩
          · rw [honly r' hr'] at htrie
            exact absurd htrie hsource
          · rw [honly r' hr']
            exact ⟨typed, rest, htext, htyped⟩
        · rintro ⟨-, -, hfits⟩
          obtain ⟨typed, rest, htext, htyped⟩ := hfits r hcomplete hsource
          refine ⟨_, (hsingle _).mpr ⟨typed, rest, htext, htyped, rfl⟩, fun r' hr' htrie => ?_⟩
          rw [honly r' hr'] at htrie
          exact absurd htrie hsource

end

end

/-- A trie with one text, and models that have nothing to add. -/
def gitEngine : AiEngine Nat where
  inserted := [⟨['g', 'i', 't'], 1, .keyword⟩]
  offline := fun _ _ => some (some [])
  online := fun _ _ => some none

/-- A shell that has just typed the line. -/
def typedLine (line : Str) : Shell := { buf := line, cursor := line.length }

/-- A world without a history and without an engine. -/
def quietWorld : World where
  history := []
  complete := fun _ => none
  nextWord := fun _ => some none

/-- The engine of the sample knows one word for the token. -/
theorem git_completes (line : Str) (htoken : currentToken .ascii line = some ['g', 'i']) :
    gitEngine.complete .ascii .inserted line 12 =
      some (some [⟨['g', 'i', 't'], 1, .trie⟩]) := by
  have hhits : gitEngine.hits .ascii .inserted line 12 = some [⟨['g', 'i', 't'], 1, .trie⟩] := by
    change (completeAfter _ _ _ _ _).map _ = _
    rw [completeAfter_eq _ _ _ htoken nofun]
    decide +kernel
  rw [AiEngine.complete, hhits]
  rfl

/-- After a space the token is completed. -/
theorem git_replaced : Replaces .ascii .inserted gitEngine quietWorld
    (typedLine ['l', 's', ' ', 'g', 'i']) := by
  have hcomplete := git_completes ['l', 's', ' ', 'g', 'i'] (by decide +kernel)
  refine (tab_replaces .ascii .inserted gitEngine quietWorld
    (typedLine ['l', 's', ' ', 'g', 'i']) rfl).mpr ⟨?_, fun r _ _ => ?_, fun r hr hother => ?_⟩
  · exact complete_isSome.mp fun hnone => Option.some_ne_none _ (hcomplete.symm.trans hnone)
  · refine ⟨['l', 's'], ' ', ['g', 'i'], ⟨rfl, by decide +kernel, fun d hd => ?_⟩, by decide⟩
    simp only [List.mem_cons, List.not_mem_nil, or_false] at hd
    rcases hd with rfl | rfl <;> rfl
  · cases hcomplete.symm.trans hr
    exact absurd rfl hother

/-- As the first word of the line it is doubled: the line becomes `gigit`. -/
theorem git_doubled : ¬Replaces .ascii .inserted gitEngine quietWorld (typedLine ['g', 'i']) := by
  have hcomplete := git_completes ['g', 'i'] (by decide +kernel)
  have htab : (typedLine ['g', 'i']).doTabComplete .ascii
      (gitEngine.world .ascii .inserted quietWorld) = .ok (typedLine ['g', 'i', 'g', 'i', 't']) := by
    unfold Shell.doTabComplete
    rw [typedLine, world_single hcomplete]
    rfl
  rintro ⟨s', hs', hreplaced⟩
  obtain ⟨before, token, htoken, hline, hbuf⟩ := hreplaced _ hcomplete rfl
  cases htab.symm.trans hs'
  have hgi : currentToken .ascii ['g', 'i'] = some ['g', 'i'] := by decide +kernel
  cases hgi.symm.trans htoken
  have hempty : before = [] := List.self_eq_append_left.mp hline
  subst hempty
  cases hbuf

end TabCompletion
