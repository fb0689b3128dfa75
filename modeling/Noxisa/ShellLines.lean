import Noxisa.ShellParser

/-!
# One line after another

A separator ends every reader that is still looking at characters of its own
line, so the tokens of two lines are those of the first, the separator, and
those of the second.  The one exception is a comment, which takes the newline
that ends it.

What the parser carries over is then a matter of tokens: a redirection, an
ampersand or a pipe with no argument after it is kept until the next command is
pushed.
-/

namespace ShellParser

/-- What separates the two lines of a script. -/
inductive Separator
  | newline
  | semi

namespace Separator

/-- The character of a separator. -/
def char : Separator → Char
  | .newline => '\n'
  | .semi => ';'

/-- Its token. -/
def tok : Separator → Tok
  | .newline => .newline
  | .semi => .semi

variable (sep : Separator)

/-- A separator ends the name of a variable. -/
theorem not_nameChar (env : Env) : env.nameChar sep.char = false := by
  unfold Env.nameChar
  cases sep
  · rw [env.ascii _ (by decide)]
    rfl
  · rw [env.ascii _ (by decide)]
    rfl

/-- It ends a word. -/
theorem not_wordChar : wordChar sep.char = false := by cases sep <;> rfl

/-- It is read as itself, and what was read before is a token. -/
private theorem readPiece_char (env : Env) (rest : Str) :
    readPiece env sep.char rest = (.ends (some sep.tok), some rest) := by cases sep <;> rfl

end Separator

section
variable {env : Env} {sep : Separator} {s2 : Str}

/-- What is taken of `s` is taken as well with a separator behind it. -/
private theorem takeWhile_sep {p : Char → Bool} (hp : p sep.char = false) (s : Str) :
    (s ++ sep.char :: s2).takeWhile p = s.takeWhile p := by
  induction s with
  | nil => exact List.takeWhile_cons_of_neg (by rw [hp]; exact Bool.false_ne_true)
  | cons c s ih =>
      rw [List.cons_append, List.takeWhile_cons, List.takeWhile_cons, ih]

/-- And what is dropped. -/
private theorem dropWhile_sep {p : Char → Bool} (hp : p sep.char = false) (s : Str) :
    (s ++ sep.char :: s2).dropWhile p = s.dropWhile p ++ sep.char :: s2 := by
  induction s with
  | nil => exact List.dropWhile_cons_of_neg (by rw [hp]; exact Bool.false_ne_true)
  | cons c s ih =>
      rw [List.cons_append, List.dropWhile_cons, List.dropWhile_cons, ih]
      split <;> rfl

/-- A reader that has found the end of its text does not look at what follows. -/
theorem readUntil_append {stop : Char} {s text after : Str} (t : Str)
    (h : readUntil stop s = (text, some after)) :
    readUntil stop (s ++ t) = (text, some (after ++ t)) := by
  induction s generalizing text with
  | nil => cases h
  | cons c s ih =>
      rw [List.cons_append]
      rw [readUntil] at h ⊢
      by_cases hc : c = stop
      · rw [if_pos hc] at h ⊢
        cases h
        rfl
      · rw [if_neg hc] at h ⊢
        cases hs : readUntil stop s with
        | mk text' after' =>
            rw [hs] at h
            cases h
            rw [ih hs]

/-- A variable's name ends before the separator at the latest. -/
theorem readVarName_append {s name after : Str} (h : readVarName env s = (name, some after)) :
    readVarName env (s ++ sep.char :: s2) = (name, some (after ++ sep.char :: s2)) := by
  have hrun : ∀ s : Str, (s.takeWhile env.nameChar, some (s.dropWhile env.nameChar)) =
      (name, some after) →
      ((s ++ sep.char :: s2).takeWhile env.nameChar,
        some ((s ++ sep.char :: s2).dropWhile env.nameChar)) =
      (name, some (after ++ sep.char :: s2)) := by
    intro s hs
    cases hs
    rw [takeWhile_sep (sep.not_nameChar env), dropWhile_sep (sep.not_nameChar env)]
  cases s with
  | nil =>
      have hbrace : sep.char ≠ '{' := by cases sep <;> decide
      have hread : readVarName env (sep.char :: s2) =
          ((sep.char :: s2).takeWhile env.nameChar,
            some ((sep.char :: s2).dropWhile env.nameChar)) := by
        unfold readVarName
        split
        next hcons => exact absurd (List.cons.inj hcons).1 hbrace
        next => rfl
      exact hread.trans (hrun [] h)
  | cons c s =>
      by_cases hc : c = '{'
      · subst hc
        exact readUntil_append _ h
      · have hread : ∀ t : Str, readVarName env (c :: t) =
            ((c :: t).takeWhile env.nameChar, some ((c :: t).dropWhile env.nameChar)) := by
          intro t
          unfold readVarName
          split
          next hcons => exact absurd (List.cons.inj hcons).1 hc
          next => rfl
        rw [hread] at h
        rw [List.cons_append, hread]
        exact hrun (c :: s) h

/-- A closed quotation does not look at what follows. -/
theorem readQuoted_append {s text after : Str} (h : readQuoted env s = (text, some after)) :
    readQuoted env (s ++ sep.char :: s2) = (text, some (after ++ sep.char :: s2)) := by
  fun_induction readQuoted env s generalizing text with
  | case1 => cases h
  | case2 rest =>
      cases h
      rw [List.cons_append, readQuoted, if_pos rfl]
  | case3 rest name text' after' hrec hne =>
      rename_i ih
      cases h
      rw [List.cons_append, readQuoted, if_neg hne, if_pos rfl]
      rcases hname : readVarName env rest with ⟨var, _ | left⟩
      · simp only [name, hname, Option.getD_none, readQuoted] at hrec
        cases hrec
      · have hih := ih hrec
        simp only [name, hname, Option.getD_some] at hih ⊢
        rw [readVarName_append hname]
        dsimp only [Option.getD_some]
        rw [hih]
  | case4 c rest hquote hdollar text' after' hrec ih =>
      cases h
      rw [List.cons_append, readQuoted, if_neg hquote, if_neg hdollar, ih hrec]

/-- The target of a redirection ends before the separator. -/
theorem readTarget_append (redir s : Str) :
    readTarget redir (s ++ sep.char :: s2) =
      (readTarget redir s).map id (·.map (· ++ sep.char :: s2)) := by
  have hskip : skipSpaces (s ++ sep.char :: s2) = skipSpaces s ++ sep.char :: s2 :=
    dropWhile_sep (by cases sep <;> rfl) s
  unfold readTarget readWord
  rw [hskip]
  dsimp only
  rw [takeWhile_sep sep.not_wordChar, dropWhile_sep sep.not_wordChar]
  rfl

/-- So it is the same with more behind it. -/
theorem readTarget_some {redir s after : Str} {piece : Piece}
    (h : readTarget redir s = (piece, some after)) :
    readTarget redir (s ++ sep.char :: s2) = (piece, some (after ++ sep.char :: s2)) := by
  rw [readTarget_append, h]
  rfl

/-- A redirection with its target. -/
theorem readOut_append {s after : Str} {piece : Piece} (h : readOut s = (piece, some after)) :
    readOut (s ++ sep.char :: s2) = (piece, some (after ++ sep.char :: s2)) := by
  unfold readOut at h ⊢
  split at h
  next => exact readTarget_some h
  next hne =>
    rw [← readTarget_some h]
    split
    next rest hrest =>
      cases s with
      | nil =>
          have hsep : sep.char ≠ '>' := by cases sep <;> decide
          exact absurd (List.cons.inj hrest).1 hsep
      | cons c s => exact absurd (congrArg (· :: s) (List.cons.inj hrest).1) (hne s)
    next => rfl

/-- A variable with its name, in braces or not. -/
theorem readVar_append {s after : Str} {piece : Piece} (h : readVar env s = (piece, some after)) :
    readVar env (s ++ sep.char :: s2) = (piece, some (after ++ sep.char :: s2)) := by
  unfold readVar at h ⊢
  rcases hname : readVarName env s with ⟨name, _ | left⟩
  · rw [hname] at h
    cases h
  · rw [hname] at h
    cases h
    rw [readVarName_append hname]

/-- The character after a backslash. -/
theorem readEscape_append {s after : Str} {piece : Piece} (t : Str)
    (h : readEscape s = (piece, some after)) :
    readEscape (s ++ t) = (piece, some (after ++ t)) := by
  unfold readEscape at h
  split at h
  · cases h
  · cases h
    rfl
  next c s' hne =>
    cases h
    rw [List.cons_append, readEscape]
    exact hne

/-- A round that has found its end in the first line reads the same with a second
line after it. -/
theorem readPiece_append {ch : Char} {rest after : Str} {piece : Piece}
    (h : readPiece env ch rest = (piece, some after)) :
    readPiece env ch (rest ++ sep.char :: s2) = (piece, some (after ++ sep.char :: s2)) := by
  unfold readPiece at h ⊢
  split at h
  case h_7 =>
    rcases hread : readUntil '\'' rest with ⟨text, _ | left⟩
    · rw [hread] at h
      cases h
    · rw [hread] at h
      cases h
      rw [readUntil_append _ hread]
      rfl
  case h_8 =>
    rcases hread : readQuoted env rest with ⟨text, _ | left⟩
    · rw [hread] at h
      cases h
    · rw [hread] at h
      cases h
      rw [readQuoted_append hread]
      rfl
  case h_9 => exact readOut_append h
  case h_10 => exact readTarget_some h
  case h_11 =>
    rcases hread : readUntil '\n' rest with ⟨text, _ | left⟩
    · rw [hread] at h
      cases h
    · rw [hread] at h
      cases h
      rw [readUntil_append _ hread]
  case h_12 => exact readVar_append h
  case h_13 => exact readEscape_append _ h
  all_goals
    cases h
    rfl

end

section
variable {env : Env} {ch : Char} {rest : Str}

/-- A piece that has been read changes nothing about how the input ends. -/
private theorem ending_some {piece : Piece} {after : Str}
    (h : readPiece env ch rest = (piece, some after)) :
    ending env (ch :: rest) = ending env after := by
  rw [ending]
  split
  next hnone => rw [h] at hnone; cases hnone
  next after' hsome => rw [h] at hsome; cases hsome; rfl

/-- A piece that runs to the end of the input is a comment or something left open. -/
private theorem ending_none (h : (readPiece env ch rest).2 = none) :
    ending env (ch :: rest) = if ch = '#' then .comment else .unclosed := by
  rw [ending]
  split
  next => rfl
  next after hsome => rw [h] at hsome; cases hsome

/-- A round that ends in both inputs leaves the rest of the scan to compare. -/
theorem scan_cons_congr {rest' after after' : Str} {piece : Piece} {toks : List Tok}
    (h : readPiece env ch rest = (piece, some after))
    (h' : readPiece env ch rest' = (piece, some after'))
    (hafter : ∀ word, scan env word after' = scan env word after ++ toks) (word : Str) :
    scan env word (ch :: rest') = scan env word (ch :: rest) ++ toks := by
  rw [scan, scan, h, h']
  dsimp only [Option.getD_some]
  split
  · rw [hafter]
    simp only [List.append_assoc]
  · exact hafter _

/-- A comment ends at a newline, so what follows is read on its own. -/
theorem scan_comment (word : Str) (hopen : (readPiece env '#' rest).2 = none) (s2 : Str) :
    scan env word ('#' :: (rest ++ '\n' :: s2)) = scan env word ('#' :: rest) ++ tokenise env s2 := by
  have hread : ∀ (t : Str), (readUntil '\n' t).2 = none →
      (readUntil '\n' (t ++ '\n' :: s2)).2 = some s2 := by
    intro t
    induction t with
    | nil =>
        intro _
        rw [List.nil_append, readUntil, if_pos rfl]
    | cons c t ih =>
        intro ht
        rw [readUntil] at ht
        rw [List.cons_append, readUntil]
        by_cases hc : c = '\n'
        · rw [if_pos hc] at ht
          cases ht
        · rw [if_neg hc] at ht ⊢
          exact ih ht
  have hpiece : ∀ t, readPiece env '#' t = (.ends none, (readUntil '\n' t).2) := fun _ => rfl
  rw [hpiece] at hopen
  rw [scan, scan, hpiece, hpiece, hread rest hopen, hopen]
  dsimp only [Option.getD_some, Option.getD_none]
  have hflush : scan env [] [] = [] := by
    rw [scan]
    rfl
  rw [hflush, List.append_nil]
  rfl

/-- The tokens of `s1`, a separator and `s2` are those of `s1` and then `toks`, whatever
word is open before `s1`. -/
theorem scan_append {s1 s2 : Str} {sep : Separator} {toks : List Tok}
    (hclosed : ending env s1 ≠ .unclosed)
    (hcomplete : ending env s1 = .complete → toks = sep.tok :: tokenise env s2)
    (hcomment : ending env s1 = .comment → sep = .newline ∧ toks = tokenise env s2) (word : Str) :
    scan env word (s1 ++ sep.char :: s2) = scan env word s1 ++ toks := by
  induction hlength : s1.length using Nat.strongRecOn generalizing s1 word with
  | ind n ih =>
      subst hlength
      cases s1 with
      | nil =>
          rw [hcomplete (by rw [ending]), List.nil_append, scan, scan, sep.readPiece_char]
          exact List.append_assoc _ _ _
      | cons ch rest =>
          rcases hpiece : readPiece env ch rest with ⟨piece, _ | after⟩
          · have hnone : (readPiece env ch rest).2 = none := congrArg Prod.snd hpiece
            rw [ending_none hnone] at hclosed hcomment
            by_cases hch : ch = '#'
            · obtain ⟨rfl, rfl⟩ := hcomment (if_pos hch)
              subst hch
              exact scan_comment word hnone s2
            · exact absurd (if_neg hch) hclosed
          · rw [ending_some hpiece] at hclosed hcomplete hcomment
            have hshorter : after.length < (ch :: rest).length := by
              have hlength := readPiece_length env ch rest
              rw [hpiece] at hlength
              exact Nat.lt_succ_of_le hlength
            exact scan_cons_congr hpiece (readPiece_append hpiece)
              (fun word => ih after.length hshorter hclosed hcomplete hcomment word rfl) word

/-- **A separator separates the tokens** of an input that is complete. -/
theorem tokenise_append {s1 : Str} (sep : Separator) (s2 : Str)
    (hcomplete : ending env s1 = .complete) :
    tokenise env (s1 ++ sep.char :: s2) = tokenise env s1 ++ sep.tok :: tokenise env s2 := by
  refine scan_append ?_ (fun _ => rfl) ?_ []
  · rw [hcomplete]; nofun
  · rw [hcomplete]; nofun

/-- The newline that ends a comment gives no token. -/
private theorem tokenise_comment {s1 : Str} (s2 : Str) (hcomment : ending env s1 = .comment) :
    tokenise env (s1 ++ '\n' :: s2) = tokenise env s1 ++ tokenise env s2 := by
  change scan env [] (s1 ++ Separator.newline.char :: s2) = _
  refine scan_append ?_ ?_ (fun _ => ⟨rfl, rfl⟩) []
  · rw [hcomment]; nofun
  · rw [hcomment]; nofun

end

namespace Parser

/-- The parser with `ps` read before. -/
def after (ps : List Pipeline) (p : Parser) : Parser := { p with pipelines := ps ++ p.pipelines }

/-- Pipelines that are finished already do not matter for a command that is added. -/
theorem pushCmd_after (ps : List Pipeline) (p : Parser) :
    (p.after ps).pushCmd = p.pushCmd.after ps := by
  by_cases h : p.argv = []
  · rw [pushCmd_nil p h]
    exact pushCmd_nil (p.after ps) h
  · rw [pushCmd_cons p h]
    exact pushCmd_cons (p.after ps) h

/-- Nor for a pipeline that is added. -/
theorem pushPipeline_after (ps : List Pipeline) (p : Parser) :
    (p.after ps).pushPipeline = p.pushPipeline.after ps := by
  have hstages : (p.after ps).pushCmd.stages = p.pushCmd.stages := by rw [pushCmd_after]; rfl
  by_cases h : p.pushCmd.stages = []
  · rw [pushPipeline_nil p h, pushPipeline_nil _ (hstages.trans h), pushCmd_after]
  · rw [pushPipeline_cons p h, pushPipeline_cons _ (by rw [hstages]; exact h), pushCmd_after]
    simp only [after, List.append_assoc]

/-- Nor for a token. -/
theorem feed_after (ps : List Pipeline) (p : Parser) (tok : Tok) :
    (p.after ps).feed tok = (p.feed tok).after ps := by
  cases tok with
  | word w => rfl
  | pipe =>
      dsimp only [feed]
      rw [pushCmd_after]
      rfl
  | semi => exact pushPipeline_after ps p
  | newline => exact pushPipeline_after ps p
  | amp => exact pushPipeline_after ps { p with bg := true }
  | redir r =>
      dsimp only [feed]
      split <;> rfl

/-- Nor for the tokens that are left. -/
theorem finish_after (ps : List Pipeline) (p : Parser) (toks : List Tok) :
    (p.after ps).finish toks = ps ++ p.finish toks := by
  induction toks generalizing p with
  | nil =>
      rw [finish_nil, finish_nil, pushPipeline_after]
      rfl
  | cons tok toks ih =>
      rw [finish_cons, finish_cons, feed_after, ih]

/-- The parser without the pipelines it has read. -/
def carried (p : Parser) : Parser := { p with pipelines := [] }

/-- A parser is what it carries, with its finished pipelines before. -/
private theorem after_carried (p : Parser) : p.carried.after p.pipelines = p := by
  unfold carried after
  rw [List.append_nil]

/-- What it carries decides about the tokens that follow. -/
theorem finish_carried (p : Parser) (toks : List Tok) :
    p.finish toks = p.pipelines ++ p.carried.finish toks := by
  rw [← finish_after, after_carried]

/-- The script of one letter, which tells two parsers apart. -/
private theorem tokenise_letter (env : Env) : tokenise env ['a'] = [.word ['a']] := by
  have hpiece : readPiece env 'a' [] = (.text ['a'], some []) := rfl
  rw [tokenise, scan, hpiece]
  exact scan.eq_1 env _

/-- Fed with it, a parser shows its open stages and the command it is reading. -/
private theorem finish_letter {p : Parser} (hp : p.pipelines = []) :
    p.finish [.word ['a']] =
      [⟨p.stages ++ [{ p.command with argv := p.argv ++ [['a']] }]⟩] := by
  have hword : (p.feed (.word ['a'])).argv ≠ [] := by simp [feed]
  rw [finish_cons, finish_nil, pushPipeline_argv_cons _ hword]
  dsimp only [feed]
  rw [hp]
  rfl

/-- Nothing but the initial parser reads every line as a line of its own. -/
theorem finish_eq_iff (env : Env) {p : Parser} (hp : p.pipelines = []) (ps : List Pipeline) :
    (∀ s2, p.finish (tokenise env s2) = ps ++ finish {} (tokenise env s2)) ↔ ps = [] ∧ p = {} := by
  constructor
  · intro h
    have h := h ['a']
    rw [tokenise_letter, finish_letter hp, finish_letter rfl] at h
    have hps : ps = [] := by
      have hlength := congrArg List.length h
      rw [List.length_append, List.length_singleton, List.length_singleton] at hlength
      exact List.eq_nil_of_length_eq_zero (by omega)
    subst hps
    have hstages : p.stages ++ [{ p.command with argv := p.argv ++ [['a']] }] =
        [{ argv := [['a']], stdin := .inherit, stdout := .inherit, stderr := .inherit, bg := false }] :=
      congrArg Pipeline.stages (List.cons.inj h).1
    have hlast := List.append_inj' (hstages.trans (List.nil_append _).symm) rfl
    have hcommand := (List.cons.inj hlast.2).1
    have hargv : p.argv = [] := List.append_cancel_right (congrArg Command.argv hcommand)
    have hstages := hlast.1
    obtain ⟨pipelines, stages, argv, stdin, stdout, stderr, bg⟩ := p
    simp only [command, Command.mk.injEq] at hcommand
    obtain ⟨-, hstdin, hstdout, hstderr, hbg⟩ := hcommand
    cases hp
    cases hstages
    cases hargv
    cases hstdin
    cases hstdout
    cases hstderr
    cases hbg
    exact ⟨rfl, rfl⟩
  · rintro ⟨rfl, rfl⟩ s2
    exact (List.nil_append _).symm

end Parser

/-- What is left of a line: whether a command is open, and whether something that
belongs to a command waits for the next one. -/
structure Tail where
  words : Bool
  loose : Bool

namespace Tail

/-- A separator clears what waits only if there is a command to take it. -/
def separate (t : Tail) : Tail := if t.words then ⟨false, false⟩ else t

/-- What a token leaves open. -/
def feed (t : Tail) : Tok → Tail
  | .word _ => { t with words := true }
  | .pipe => ⟨false, true⟩
  | .semi | .newline => t.separate
  | .amp => { t with loose := true }.separate
  | .redir ('>' :: _) | .redir ('<' :: _) => { t with loose := true }
  | .redir _ => t

end Tail

/-- What is left open after a list of tokens. -/
def tail (toks : List Tok) : Tail := toks.foldl Tail.feed ⟨false, false⟩

/-- Nothing is left for the next line once the separator has been read.  A comment
takes the newline, so there must be nothing left before it. -/
def Settled (env : Env) (line : Str) : Prop :=
  if ending env line = .comment then
    (tail (tokenise env line)).words = false ∧ (tail (tokenise env line)).loose = false
  else
    (tail (tokenise env line)).words = true ∨ (tail (tokenise env line)).loose = false

instance (env : Env) (line : Str) : Decidable (Settled env line) :=
  inferInstanceAs (Decidable (ite _ _ _))

namespace Parser

/-- The variables of `parse` that belong to a command have their initial values. -/
def Fresh (p : Parser) : Prop :=
  p.stdin = .inherit ∧ p.stdout = .inherit ∧ p.stderr = .inherit ∧ p.bg = false

/-- The parser after some tokens, and what they leave. -/
structure Leaves (p : Parser) (t : Tail) : Prop where
  words : t.words = true ↔ p.argv ≠ []
  fresh : t.loose = false ↔ p.Fresh
  stages : t.loose = false → p.stages = []

/-- A command that has been added leaves nothing open. -/
private theorem pushCmd_fresh (p : Parser) (h : p.argv ≠ []) : p.pushCmd.Fresh := by
  rw [pushCmd_cons p h]
  exact ⟨rfl, rfl, rfl, rfl⟩

/-- A pipeline that is added leaves the command's fields as `push_cmd` does. -/
theorem pushPipeline_fresh_iff (p : Parser) : p.pushPipeline.Fresh ↔ p.pushCmd.Fresh := by
  by_cases h : p.pushCmd.stages = []
  · rw [pushPipeline_nil p h]
  · rw [pushPipeline_cons p h]
    exact Iff.rfl

namespace Leaves

variable {p : Parser} {t : Tail}

/-- A separator, for the parser and for what it leaves open. -/
theorem separate (h : Leaves p t) : Leaves p.pushPipeline t.separate := by
  unfold Tail.separate
  by_cases hargv : p.argv = []
  · have hwords : t.words = false := by
      rw [← Bool.not_eq_true, h.words]
      exact not_not_intro hargv
    rw [hwords, if_neg Bool.false_ne_true]
    refine ⟨?_, ?_, fun _ => p.pushPipeline_stages⟩
    · rw [hwords, p.pushPipeline_argv]
      simp
    · rw [pushPipeline_fresh_iff, pushCmd_nil p hargv]
      exact h.fresh
  · rw [h.words.mpr hargv, if_pos rfl]
    refine ⟨?_, ?_, fun _ => p.pushPipeline_stages⟩
    · rw [p.pushPipeline_argv]
      simp
    · rw [pushPipeline_fresh_iff]
      exact iff_of_true rfl (pushCmd_fresh p hargv)

/-- A redirection or the `&` waits for its command. -/
theorem loosen {p' : Parser} (h : Leaves p t) (hargv : p'.argv = p.argv) (hfresh : ¬p'.Fresh) :
    Leaves p' { t with loose := true } :=
  ⟨by rw [hargv]; exact h.words, iff_of_false nofun hfresh, nofun⟩

/-- A token, for both. -/
theorem feed (h : Leaves p t) (tok : Tok) : Leaves (p.feed tok) (t.feed tok) := by
  cases tok with
  | word w =>
      exact ⟨iff_of_true rfl (by simp [Parser.feed]), h.fresh, h.stages⟩
  | pipe =>
      refine ⟨iff_of_false nofun ?_, iff_of_false nofun ?_, nofun⟩
      · exact fun hargv => hargv p.pushCmd_argv
      · rintro ⟨hstdin, -⟩
        cases hstdin
  | semi => exact h.separate
  | newline => exact h.separate
  | amp =>
      have hloose : Leaves { p with bg := true } { t with loose := true } :=
        h.loosen rfl (fun hfresh => nomatch hfresh.2.2.2)
      exact hloose.separate
  | redir r =>
      unfold Parser.feed
      dsimp only
      split
      · exact h.loosen rfl (fun hfresh => nomatch hfresh.2.1)
      · exact h.loosen rfl (fun hfresh => nomatch hfresh.2.1)
      · exact h.loosen rfl (fun hfresh => nomatch hfresh.1)
      next hout _ hin =>
        have hnone : t.feed (.redir r) = t := by
          unfold Tail.feed
          split <;> grind
        rw [hnone]
        exact h

/-- At the start nothing is open. -/
theorem start : Leaves {} ⟨false, false⟩ :=
  ⟨iff_of_false nofun (fun h => h rfl), iff_of_true rfl ⟨rfl, rfl, rfl, rfl⟩, fun _ => rfl⟩

/-- A list of tokens. -/
theorem foldl (h : Leaves p t) (toks : List Tok) :
    Leaves (toks.foldl Parser.feed p) (toks.foldl Tail.feed t) := by
  induction toks generalizing p t with
  | nil => exact h
  | cons tok toks ih => exact ih (h.feed tok)

/-- The parser carries nothing exactly if nothing is left open. -/
theorem carried_eq (h : Leaves p t) : p.carried = {} ↔ t.words = false ∧ t.loose = false := by
  have hfields : p.carried = {} ↔ p.stages = [] ∧ p.argv = [] ∧ p.Fresh := by
    cases p
    simp [carried, Fresh]
  have hargv : t.words = false ↔ p.argv = [] := by
    rw [← Bool.not_eq_true, h.words, not_not]
  rw [hfields, hargv]
  constructor
  · rintro ⟨-, hargv, hfresh⟩
    exact ⟨hargv, h.fresh.mpr hfresh⟩
  · rintro ⟨hargv, hloose⟩
    exact ⟨h.stages hloose, hargv, h.fresh.mp hloose⟩

/-- After a separator it carries nothing if there was a command, or nothing was loose.
-/
private theorem carried_separate (h : Leaves p t) :
    p.pushPipeline.carried = {} ↔ t.words = true ∨ t.loose = false := by
  rw [h.separate.carried_eq]
  obtain ⟨words, loose⟩ := t
  cases words <;> simp [Tail.separate]

end Leaves

end Parser

section
variable {env : Env} {s1 : Str}

/-- The parser after the tokens of a line. -/
def afterLine (env : Env) (line : Str) : Parser := (tokenise env line).foldl Parser.feed {}

/-- A line leaves open what its tokens do. -/
theorem afterLine_leaves (env : Env) (line : Str) :
    (afterLine env line).Leaves (tail (tokenise env line)) :=
  Parser.Leaves.start.foldl _

/-- The pipelines of a line are those of its parser with the last one pushed. -/
theorem pipelines_afterLine (env : Env) (line : Str) :
    pipelines env line = (afterLine env line).pushPipeline.pipelines := pipelines_eq env line

/-- An input that is complete composes with every other one exactly if it is settled. -/
theorem compose_complete (hcomplete : ending env s1 = .complete) (sep : Separator) :
    (∀ s2, pipelines env (s1 ++ sep.char :: s2) = pipelines env s1 ++ pipelines env s2) ↔
      Settled env s1 := by
  have hjoin : ∀ s2, pipelines env (s1 ++ sep.char :: s2) =
      pipelines env s1 ++
        (afterLine env s1).pushPipeline.carried.finish (tokenise env s2) := by
    intro s2
    rw [pipelines_eq, tokenise_append sep s2 hcomplete, Parser.finish_append, pipelines_afterLine,
      ← Parser.finish_carried]
    cases sep <;> rfl
  have hsettled : Settled env s1 ↔
      (tail (tokenise env s1)).words = true ∨ (tail (tokenise env s1)).loose = false := by
    unfold Settled
    rw [if_neg (by rw [hcomplete]; nofun)]
  have hcarried := Parser.finish_eq_iff env (p := (afterLine env s1).pushPipeline.carried) rfl []
  rw [hsettled, ← (afterLine_leaves env s1).carried_separate]
  constructor
  · intro h
    refine (hcarried.mp fun s2 => ?_).2
    have hs2 := h s2
    rw [hjoin, pipelines_eq env s2] at hs2
    exact List.append_cancel_left hs2
  · intro h s2
    rw [hjoin, h, pipelines_eq env s2]

/-- An input that ends in a comment, with a newline behind it. -/
theorem compose_comment (hcomment : ending env s1 = .comment) :
    (∀ s2, pipelines env (s1 ++ '\n' :: s2) = pipelines env s1 ++ pipelines env s2) ↔
      Settled env s1 := by
  have hjoin : ∀ s2, pipelines env (s1 ++ '\n' :: s2) =
      (afterLine env s1).pipelines ++ (afterLine env s1).carried.finish (tokenise env s2) := by
    intro s2
    rw [pipelines_eq, tokenise_comment s2 hcomment, Parser.finish_append, ← Parser.finish_carried]
    rfl
  have halone : pipelines env s1 =
      (afterLine env s1).pipelines ++ (afterLine env s1).carried.pushPipeline.pipelines := by
    rw [pipelines_afterLine]
    exact Parser.finish_carried (afterLine env s1) []
  have hsettled : Settled env s1 ↔
      (tail (tokenise env s1)).words = false ∧ (tail (tokenise env s1)).loose = false := by
    unfold Settled
    rw [if_pos hcomment]
  have hcarried := Parser.finish_eq_iff env (p := (afterLine env s1).carried) rfl
    (afterLine env s1).carried.pushPipeline.pipelines
  rw [hsettled, ← (afterLine_leaves env s1).carried_eq]
  constructor
  · intro h
    refine (hcarried.mp fun s2 => ?_).2
    have hs2 := h s2
    rw [hjoin, halone, List.append_assoc, pipelines_eq env s2] at hs2
    exact List.append_cancel_left hs2
  · intro h s2
    have hnone : ({} : Parser).pushPipeline.pipelines = [] := rfl
    rw [hjoin, halone, h, pipelines_eq env s2, hnone, List.append_nil]

end

/-- A line that is closed reads the same with any line after it exactly when it is
settled. -/
theorem lines_compose (env : Env) (s1 : Str) (hclosed : ending env s1 ≠ .unclosed) :
    ((∀ s2, pipelines env (s1 ++ '\n' :: s2) = pipelines env s1 ++ pipelines env s2) ∧
      (ending env s1 = .complete →
        ∀ s2, pipelines env (s1 ++ ';' :: s2) = pipelines env s1 ++ pipelines env s2)) ↔
      Settled env s1 := by
  cases hending : ending env s1 with
  | complete =>
      constructor
      · intro h
        exact (compose_complete hending .newline).mp h.1
      · intro h
        exact ⟨(compose_complete hending .newline).mpr h,
          fun _ => (compose_complete hending .semi).mpr h⟩
  | comment =>
      rw [← compose_comment hending]
      exact and_iff_left nofun
  | unclosed => exact absurd hending hclosed

/-- The example of the source. -/
theorem sequence_composes :
    pipelines .bare (['c', 'd', ' ', '/', 't', 'm', 'p'] ++ ';' :: [' ', 'l', 's']) =
      pipelines .bare ['c', 'd', ' ', '/', 't', 'm', 'p'] ++ pipelines .bare [' ', 'l', 's'] :=
  ((lines_compose .bare ['c', 'd', ' ', '/', 't', 'm', 'p'] (by decide +kernel)).mpr
    (by decide +kernel)).2 (by decide +kernel) [' ', 'l', 's']

/-- `ls # c` and `wc` on the next line are one command. -/
theorem comment_joins :
    ending .bare ['l', 's', ' ', '#', 'c'] = .comment ∧
      pipelines .bare (['l', 's', ' ', '#', 'c'] ++ '\n' :: ['w', 'c']) ≠
        pipelines .bare ['l', 's', ' ', '#', 'c'] ++ pipelines .bare ['w', 'c'] := by
  decide +kernel

/-- A pipe with nothing after it is the input of the next line. -/
example :
    pipelines .bare (['l', 's', '|'] ++ '\n' :: ['w', 'c']) ≠
      pipelines .bare ['l', 's', '|'] ++ pipelines .bare ['w', 'c'] := by
  decide +kernel

end ShellParser
