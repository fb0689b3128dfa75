import Noxisa.ShellParser

/-!
# Words in quotes

A single-quoted string adds its characters to the current word, whatever they
are.  The tokeniser does not remember that there was a string, so an empty one
leaves no word.
-/

namespace ShellParser

variable {env : Env}

/-- `s` adds `w` to the current word. -/
def Reads (env : Env) (s w : Str) : Prop :=
  ∀ word rest, scan env word (s ++ rest) = scan env (word ++ w) rest

/-- `w` in single quotes -/
def quote (w : Str) : Str := '\'' :: w ++ ['\'']

/-- `read_until` takes a text up to the first stop character. -/
private theorem readUntil_of_not_mem {stop : Char} {w : Str} (h : stop ∉ w) (rest : Str) :
    readUntil stop (w ++ stop :: rest) = (w, some rest) := by
  induction w with
  | nil => exact if_pos rfl
  | cons c w ih =>
      have hne : c ≠ stop := fun heq => h (heq ▸ List.mem_cons_self)
      rw [List.cons_append, readUntil, if_neg hne, ih fun hmem => h (List.mem_cons_of_mem c hmem)]

/-- A quoted word is read as the word. -/
private theorem reads_quote {w : Str} (h : '\'' ∉ w) : Reads env (quote w) w := by
  intro word rest
  have hpiece : readPiece env '\'' (w ++ '\'' :: rest) = (.text w, some rest) := by
    change (readUntil '\'' (w ++ '\'' :: rest)).map Piece.text id = _
    rw [readUntil_of_not_mem h]
    rfl
  have hquote : quote w ++ rest = '\'' :: (w ++ '\'' :: rest) := by simp [quote]
  rw [hquote, scan, hpiece]
  rfl

/-- A space ends the word. -/
theorem scan_space (word rest : Str) : scan env word (' ' :: rest) = flush word ++ scan env [] rest := by
  have hpiece : readPiece env ' ' rest = (.ends none, some rest) := rfl
  rw [scan, hpiece]
  simp

/-- Words joined by spaces give the words that are not empty, and then what comes
after them. -/
theorem scan_words {f : Str → Str} {ws : List Str} (hreads : ∀ w ∈ ws, Reads env (f w) w)
    {rest : Str} {toks : List Tok} (hrest : ∀ word, scan env word rest = flush word ++ toks) :
    scan env [] (List.intercalate [' '] (ws.map f) ++ rest) = ws.flatMap flush ++ toks := by
  induction ws with
  | nil => exact hrest []
  | cons w ws ih =>
      have hw := hreads w List.mem_cons_self
      cases ws with
      | nil =>
          rw [List.map_singleton, List.intercalate_singleton, hw, hrest]
          simp
      | cons v ws =>
          have hjoin : List.intercalate [' '] ((w :: v :: ws).map f) ++ rest =
              f w ++ ' ' :: (List.intercalate [' '] ((v :: ws).map f) ++ rest) := by
            rw [List.map_cons, List.map_cons, List.intercalate_cons_cons, ← List.map_cons]
            simp
          rw [hjoin, hw, scan_space, ih fun v hv => hreads v (List.mem_cons_of_mem w hv)]
          exact (List.append_assoc _ _ _).symm

/-- The words a list is read as are those that are not empty. -/
theorem flatMap_flush (ws : List Str) :
    ws.flatMap flush = (ws.filter fun w => w ≠ []).map .word := by
  induction ws with
  | nil => rfl
  | cons w ws ih =>
      rw [List.flatMap_cons, ih]
      by_cases h : w = []
      · subst h
        rfl
      · rw [flush, if_neg h, List.filter_cons_of_pos (by simpa using h)]
        rfl

/-- Word tokens all go to the command's arguments. -/
theorem foldl_words (p : Parser) (ws : List Str) :
    (ws.map Tok.word).foldl Parser.feed p = { p with argv := p.argv ++ ws } := by
  induction ws generalizing p with
  | nil => simp
  | cons w ws ih =>
      rw [List.map_cons, List.foldl_cons, ih]
      simp [Parser.feed]

/-- A command with no redirection, in the foreground. -/
def simple (argv : List Str) : Command :=
  { argv := argv, stdin := .inherit, stdout := .inherit, stderr := .inherit, bg := false }

/-- Words alone are one simple command. -/
private theorem finish_words {ws : List Str} (hne : ws ≠ []) :
    Parser.finish {} (ws.map .word) = [⟨[simple ws]⟩] := by
  unfold Parser.finish
  rw [foldl_words]
  rw [List.nil_append, Parser.pushPipeline_argv_cons { argv := ws } hne]
  rfl

/-- Quoting keeps a list of words exactly when none of them is empty. -/
theorem quoting_round_trips (env : Env) {ws : List Str} (hhead : ∃ w ∈ ws.head?, w ≠ [])
    (hquote : ∀ w ∈ ws, '\'' ∉ w) :
    parse env (List.intercalate [' '] (ws.map quote)) = .ok [⟨[simple ws]⟩] ↔ [] ∉ ws := by
  have hend : ∀ word, scan env word [] = flush word ++ [] := by
    intro word
    rw [scan, List.append_nil]
  have htokens : tokenise env (List.intercalate [' '] (ws.map quote)) =
      (ws.filter fun w => w ≠ []).map .word := by
    rw [← flatMap_flush, ← List.append_nil (ws.flatMap flush),
      ← scan_words (fun w hw => reads_quote (hquote w hw)) hend, List.append_nil]
    rfl
  have hne : (ws.filter fun w => w ≠ []) ≠ [] := by
    obtain ⟨w, hw, hw'⟩ := hhead
    exact List.ne_nil_of_mem (List.mem_filter.mpr ⟨List.mem_of_head? hw, by simpa using hw'⟩)
  rw [parse_eq_ok (List.cons_ne_nil _ _), pipelines_eq, htokens, finish_words hne]
  constructor
  · intro h hnil
    have hargv : (ws.filter fun w => w ≠ []) = ws :=
      congrArg Command.argv (List.cons.inj (congrArg Pipeline.stages (List.cons.inj h).1)).1
    rw [← hargv] at hnil
    exact of_decide_eq_true (List.mem_filter.mp hnil).2 rfl
  · intro hnil
    rw [List.filter_eq_self.mpr]
    intro w hw
    exact decide_eq_true fun heq => hnil (heq ▸ hw)

/-- The hypotheses are met by words of metacharacters. -/
theorem quoting_round_trips_metacharacters :
    parse .bare (List.intercalate [' '] ([['a', ';'], ['$', '\n']].map quote)) =
      .ok [⟨[simple [['a', ';'], ['$', '\n']]]⟩] :=
  (quoting_round_trips .bare ⟨['a', ';'], rfl, nofun⟩ (by decide)).mpr (by decide)

/-- `'a' ''` loses its second word. -/
theorem empty_word_lost :
    parse .bare (List.intercalate [' '] ([['a'], []].map quote)) ≠ .ok [⟨[simple [['a'], []]]⟩] := by
  decide +kernel

end ShellParser
