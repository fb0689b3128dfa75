import Noxisa.EngineSlices
import Noxisa.Lru

/-!
# The cache of the offline engine

An `OfflineEngine` with a loaded model keeps what the backend gave in one cache
for both kinds of calls.  The key is the hash of the last 512 bytes of the
context and nothing else, and what is found under it is returned without a look
at who stored it. A completion is cut to `n` texts when it is returned, predictions
are returned as they were stored. So a call gets its own answer where the calls with
its key ask for the same, and elsewhere there are backends for which it does not.
-/

namespace OfflineEngine

open Utf8 CompletionEngine

/-- Texts and their scores. -/
abbrev Predictions (Score : Type) := List (Str × Score)

/-- The model, and the functions of the environment.  The backends give nothing on an
error. -/
structure Backend (Key Score : Type) where
  modelPath : Str
  runGgml : Str → Str → Str → Nat → Option Str
  runGgmlTopk : Str → Str → Nat → Option (Predictions Score)
  hash : Str → Key
  trim : Str → Str
  /-- 0.82 -/
  score : Score

/-- A call of the inference engine. -/
inductive Call
  | complete (context : Str) (language : Option Str) (maxTokens n : Nat)
  | topKNext (context : Str) (k : Nat)
deriving DecidableEq

/-- The capacity of the cache. -/
def capacity : Nat := 4096

section
variable {Key Score : Type} (b : Backend Key Score)

/-- What a call is made on. -/
def Call.context : Call → Str
  | .complete context _ _ _ => context
  | .topKNext context _ => context

/-- `hash_str`; `none` if it panics. -/
def hashStr (s : Str) : Option Key := (hashSlice s).map b.hash

/-- `n as u32` -/
def asU32 (n : Nat) : Nat := n % 2 ^ 32

/-- What the backend gives for a call, as it is stored. -/
def answer : Call → Option (Predictions Score)
  | .complete context language maxTokens _ =>
      (b.runGgml b.modelPath context (language.getD []) (asU32 maxTokens)).map fun text =>
        [(b.trim text, b.score)]
  | .topKNext context k => b.runGgmlTopk b.modelPath context (asU32 k)

/-- What a call returns of what is stored. -/
def serve (stored : Predictions Score) : Call → Predictions Score
  | .complete _ _ _ n => stored.take n
  | .topKNext _ _ => stored

/-- The result of a call: `none` if it panics, `some none` on an error. -/
abbrev Result (Score : Type) := Option (Option (Predictions Score))

variable [DecidableEq Key]

/-- `OfflineEngine::complete` and `OfflineEngine::top_k_next`, with a loaded model. -/
def call (cache : Lru.Cache Key (Predictions Score)) (c : Call) :
    Result Score × Lru.Cache Key (Predictions Score) :=
  match hashStr b c.context with
  | none => (none, cache)
  | some key =>
      match Lru.get cache key with
      | some (cached, cache) => (some (some (serve cached c)), cache)
      | none =>
          match answer b c with
          | none => (some none, cache)
          | some result => (some (some (serve result c)), Lru.put capacity cache key result)

/-- The results of a sequence of calls. -/
def run (cache : Lru.Cache Key (Predictions Score)) : List Call → List (Result Score)
  | [] => []
  | c :: calls => (call b cache c).1 :: run (call b cache c).2 calls

/-- The result of a call on an engine with an empty cache. -/
def fresh (c : Call) : Result Score := (call b [] c).1

/-- Each call of a run returns what it returns on a fresh engine. -/
def Transparent (calls : List Call) : Prop := run b [] calls = calls.map (fresh b)

/-- What a call asks the backend for: the operation, the context, the language and the
token limit or `k`. How much of a completion is returned is not part of it. -/
inductive Request
  | complete (context language : Str) (maxTokens : Nat)
  | topKNext (context : Str) (k : Nat)
deriving DecidableEq

/-- What each call asks for. -/
def Call.request : Call → Request
  | .complete context language maxTokens _ =>
      .complete context (language.getD []) (asU32 maxTokens)
  | .topKNext context k => .topKNext context (asU32 k)

/-- What the request is made on. -/
def Request.context : Request → Str
  | .complete context _ _ => context
  | .topKNext context _ => context

/-- Calls that are filed under one key ask the backend for the same. -/
def Alike (calls : List Call) : Prop :=
  ∀ c₀ ∈ calls, ∀ c ∈ calls, ∀ key, hashStr b c₀.context = some key →
    hashStr b c.context = some key → c₀.request = c.request

/-- The same engine with other backends. -/
def Backend.withGgml (runGgml : Str → Str → Str → Nat → Option Str)
    (runGgmlTopk : Str → Str → Nat → Option (Predictions Score)) : Backend Key Score :=
  { b with runGgml := runGgml, runGgmlTopk := runGgmlTopk }

/-- The context is part of what a call asks for. -/
theorem Call.request_context (c : Call) : c.request.context = c.context := by
  cases c <;> rfl

omit [DecidableEq Key] in
/-- The backend answers what it is asked for. -/
private theorem answer_congr {c c₀ : Call} (h : c₀.request = c.request) :
    answer b c₀ = answer b c := by
  cases c <;> cases c₀ <;> simp_all [Call.request, answer]

/-- On a fresh engine a call returns what the backend answers. -/
theorem fresh_eq (c : Call) :
    fresh b c = (hashStr b c.context).map fun _ => (answer b c).map (serve · c) := by
  unfold fresh call
  cases hashStr b c.context with
  | none => rfl
  | some key =>
      have hmiss : Lru.get ([] : Lru.Cache Key (Predictions Score)) key = none := rfl
      dsimp only
      rw [hmiss]
      cases answer b c <;> rfl

section
variable {b} {all : List Call} {cache : Lru.Cache Key (Predictions Score)}

/-- Each entry is the answer to a call of the run with that key. -/
def Holds (b : Backend Key Score) (all : List Call) (cache : Lru.Cache Key (Predictions Score)) :
    Prop :=
  ∀ e ∈ cache, ∃ c₀ ∈ all, hashStr b c₀.context = some e.1 ∧ answer b c₀ = some e.2

/-- One call returns what it does on a fresh engine, and stores its own answer. -/
theorem Holds.call (h : Holds b all cache) (hall : Alike b all) {c : Call} (hc : c ∈ all) :
    (call b cache c).1 = fresh b c ∧ Holds b all (call b cache c).2 := by
  rw [fresh_eq]
  unfold OfflineEngine.call
  cases hkey : hashStr b c.context with
  | none => exact ⟨rfl, h⟩
  | some key =>
      cases hget : Lru.get cache key with
      | some found =>
          obtain ⟨cached, cache'⟩ := found
          obtain ⟨hmem, hold⟩ := Lru.mem_get hget
          obtain ⟨c₀, hc₀, hkey₀, hanswer⟩ := h (key, cached) hmem
          rw [answer_congr b (hall c₀ hc₀ c hc key hkey₀ hkey)] at hanswer
          simp only [hget, hanswer]
          exact ⟨rfl, fun e he => h e (hold e he)⟩
      | none =>
          simp only [hget]
          cases hanswer : answer b c with
          | none => exact ⟨rfl, h⟩
          | some result =>
              refine ⟨rfl, fun e he => ?_⟩
              rcases Lru.mem_put he with rfl | he
              · exact ⟨c, hc, hkey, hanswer⟩
              · exact h e he

/-- A run of such calls does not notice the cache. -/
theorem Holds.run (hall : Alike b all) (calls : List Call) (hcalls : ∀ c ∈ calls, c ∈ all)
    (h : Holds b all cache) : run b cache calls = calls.map (fresh b) := by
  induction calls generalizing cache with
  | nil => rfl
  | cons c calls ih =>
      obtain ⟨hresult, hnext⟩ := h.call hall (hcalls c List.mem_cons_self)
      rw [OfflineEngine.run, List.map_cons, hresult,
        ih (fun c' hc' => hcalls c' (List.mem_cons_of_mem c hc')) hnext]

end

/-- A backend that answers one request and fails on all others. -/
def Backend.only (r : Request) : Backend Key Score :=
  b.withGgml
    (fun _ context language maxTokens =>
      if Request.complete context language maxTokens = r then some [] else none)
    (fun _ context k => if Request.topKNext context k = r then some [] else none)

/-- The cache after a sequence of calls. -/
def after (cache : Lru.Cache Key (Predictions Score)) (calls : List Call) :
    Lru.Cache Key (Predictions Score) :=
  calls.foldl (fun cache c => (call b cache c).2) cache

/-- The answers to calls in a row are those to the first, then those to the rest from
the cache they leave. -/
theorem run_append (cache : Lru.Cache Key (Predictions Score)) (calls later : List Call) :
    run b cache (calls ++ later) = run b cache calls ++ run b (after b cache calls) later := by
  induction calls generalizing cache with
  | nil => rfl
  | cons c calls ih =>
      rw [List.cons_append, run, run, List.cons_append, ih, after, after, List.foldl_cons]

section
variable {b} {r : Request}

omit [DecidableEq Key] in
/-- It answers a call with that request and no other. -/
theorem only_answer (c : Call) : (answer (b.only r) c).isSome ↔ c.request = r := by
  by_cases hr : c.request = r
  · refine iff_of_true ?_ hr
    cases c with
    | complete context language maxTokens n =>
        have hsome : (b.only r).runGgml b.modelPath context (language.getD [])
            (asU32 maxTokens) = some [] := if_pos hr
        exact Option.isSome_map.trans (congrArg Option.isSome hsome)
    | topKNext context k => exact congrArg Option.isSome (if_pos hr)
  · refine iff_of_false (Option.not_isSome_iff_eq_none.mpr ?_) hr
    cases c with
    | complete context language maxTokens n =>
        have hnone : (b.only r).runGgml b.modelPath context (language.getD [])
            (asU32 maxTokens) = none := if_neg hr
        exact congrArg (Option.map _) hnone
    | topKNext context k => exact if_neg hr

variable {key : Key} (hkey : hashStr b r.context = some key)

omit [DecidableEq Key] in
/-- Only calls with this request are answered, and they have its key. -/
theorem only_key {c : Call} {k : Key} (hc : hashStr b c.context = some k)
    (hanswer : answer (b.only r) c ≠ none) : some k = hashStr b r.context := by
  rw [← (only_answer c).mp (Option.isSome_iff_ne_none.mpr hanswer), Call.request_context, hc]

include hkey

/-- Once the request is in the cache, nothing else comes into it. -/
theorem only_keeps (v : Predictions Score) (c : Call) :
    (call (b.only r) [(key, v)] c).2 = [(key, v)] := by
  unfold call
  cases hc : hashStr (b.only r) c.context with
  | none => rfl
  | some k =>
      by_cases hsame : k = key
      · subst hsame
        simp [Lru.get]
      · have hmiss : Lru.get [(key, v)] k = none := by
          simp [Lru.get, List.lookup_cons, beq_eq_false_iff_ne.mpr hsame]
        have hnone : answer (b.only r) c = none := by
          by_contra hanswer
          exact hsame (Option.some.inj ((only_key (b := b) hc hanswer).trans hkey))
        simp only [hmiss, hnone]

/-- A call leaves the cache empty or with the request in it. -/
theorem only_from_empty (c : Call) :
    (call (b.only r) [] c).2 = [] ∨ ∃ v, (call (b.only r) [] c).2 = [(key, v)] := by
  unfold call
  cases hc : hashStr (b.only r) c.context with
  | none => exact Or.inl rfl
  | some k =>
      have hmiss : Lru.get ([] : Lru.Cache Key (Predictions Score)) k = none := rfl
      simp only [hmiss]
      cases hanswer : answer (b.only r) c with
      | none => exact Or.inl rfl
      | some result =>
          have hsame : k = key := Option.some.inj
            ((only_key (b := b) hc (by rw [hanswer]; exact Option.some_ne_none _)).trans hkey)
          rw [hsame]
          exact Or.inr ⟨result, rfl⟩

/-- A call with the request leaves it in the cache. -/
private theorem only_stores {c : Call} (hc : c.request = r) :
    ∃ v, (call (b.only r) [] c).2 = [(key, v)] := by
  obtain ⟨result, hanswer⟩ := Option.isSome_iff_exists.mp ((only_answer (b := b) c).mpr hc)
  have hcontext : hashStr (b.only r) c.context = some key := by
    rw [← hkey, ← hc, Call.request_context]
    rfl
  unfold call
  rw [hcontext, hanswer]
  exact ⟨result, rfl⟩

/-- The request stays in the cache. -/
private theorem only_after (v : Predictions Score) (calls : List Call) :
    after (b.only r) [(key, v)] calls = [(key, v)] := by
  induction calls with
  | nil => rfl
  | cons c calls ih => rw [after, List.foldl_cons, only_keeps hkey]; exact ih

/-- After calls of which one has the request, it is in the cache. -/
theorem only_after_of_mem {calls : List Call} {c : Call} (hc : c ∈ calls) (hr : c.request = r) :
    ∃ v, after (b.only r) [] calls = [(key, v)] := by
  induction calls with
  | nil => cases hc
  | cons c' calls ih =>
      rw [after, List.foldl_cons]
      obtain hempty | ⟨v, hv⟩ := only_from_empty hkey c'
      · rcases List.mem_cons.mp hc with rfl | hc
        · obtain ⟨v, hv⟩ := only_stores hkey hr
          rw [hempty] at hv
          cases hv
        · rw [hempty]
          exact ih hc
      · rw [hv]
        exact ⟨v, only_after hkey v calls⟩

/-- From then on every call is served from the entry as if it came at once. -/
private theorem only_run (v : Predictions Score) (calls : List Call) :
    run (b.only r) [(key, v)] calls =
      calls.map fun c => (call (b.only r) [(key, v)] c).1 := by
  induction calls with
  | nil => rfl
  | cons c calls ih => rw [run, only_keeps hkey, ih, List.map_cons]

end

/-- Where two calls with one key ask for different things, a backend that answers the
first alone tells the engines apart. -/
theorem not_transparent {calls later : List Call} {c₀ c : Call} {key : Key} (hc₀ : c₀ ∈ calls)
    (hc : c ∈ later) (hkey₀ : hashStr b c₀.context = some key)
    (hkey : hashStr b c.context = some key) (hne : c₀.request ≠ c.request) :
    ¬Transparent (b.only c₀.request) (calls ++ later) := by
  intro htransparent
  have hkey' : hashStr b c₀.request.context = some key := by rw [Call.request_context, hkey₀]
  obtain ⟨v, hafter⟩ := only_after_of_mem hkey' hc₀ rfl
  unfold Transparent at htransparent
  rw [run_append, hafter, only_run hkey', List.map_append] at htransparent
  have hlater := (List.append_inj' htransparent (by rw [List.length_map, List.length_map])).2
  have hsame := List.map_inj_left.mp hlater c hc
  have hhit : (call (b.only c₀.request) [(key, v)] c).1 = some (some (serve v c)) := by
    have hcontext : hashStr (b.only c₀.request) c.context = some key := hkey
    unfold call
    rw [hcontext]
    simp [Lru.get]
  have hfails : answer (b.only c₀.request) c = none :=
    Option.not_isSome_iff_eq_none.mp fun hsome => hne ((only_answer c).mp hsome).symm
  have hcontext : hashStr (b.only c₀.request) c.context = some key := hkey
  rw [hhit, fresh_eq, hcontext, hfails] at hsame
  cases hsame

/-- The cache is transparent for all backends just where calls that are filed under one
key ask the backend for the same. -/
theorem cache_transparent (calls : List Call) :
    (∀ runGgml runGgmlTopk, Transparent (b.withGgml runGgml runGgmlTopk) calls) ↔
      Alike b calls := by
  constructor
  · intro h c₀ hc₀ c hc key hkey₀ hkey
    by_contra hne
    -- one of the two comes first
    obtain ⟨first, later, rfl⟩ := List.append_of_mem hc₀
    obtain hc | hc := List.mem_append.mp hc
    · exact not_transparent b hc List.mem_cons_self hkey hkey₀ (Ne.symm hne) (h _ _)
    · obtain rfl | hc := List.mem_cons.mp hc
      · exact hne rfl
      · rw [← List.singleton_append, ← List.append_assoc] at h
        exact not_transparent b (List.mem_append_right first (List.mem_singleton_self c₀)) hc
          hkey₀ hkey hne (h _ _)
  · intro h runGgml runGgmlTopk
    have halike : Alike (b.withGgml runGgml runGgmlTopk) calls := h
    exact Holds.run halike calls (fun _ hc => hc) fun _ he => absurd he List.not_mem_nil

end

/-- A backend that completes with `x` and predicts `y`. -/
def sample : Backend Str Nat where
  modelPath := []
  runGgml := fun _ _ _ _ => some ['x']
  runGgmlTopk := fun _ _ _ => some [(['y'], 2)]
  hash := id
  trim := id
  score := 1

/-- A completion that finds the predictions for the same text. -/
theorem predictions_served :
    run sample [] [.topKNext ['a'] 1, .complete ['a'] none 64 12] ≠
      [.topKNext ['a'] 1, .complete ['a'] none 64 12].map (fresh sample) := by
  decide +kernel

end OfflineEngine
