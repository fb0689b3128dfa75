import Noxisa.ShellQuoting

/-!
# The targets of redirections

The target of a redirection is read by `read_word`, which knows nothing of
quotes: a quoted file name keeps its quotes, and ends at the first space or
operator in it.  No other part of the input can give the name back, because what
is left of it is too short.
-/

namespace ShellParser

variable {env : Env}

/-- A character that the tokeniser only adds to the current word. -/
def plainChar (c : Char) : Bool :=
  !(c = ' ' || c = '\t' || c = '\n' || c = '|' || c = ';' || c = '&' || c = '\'' || c = '"' ||
    c = '>' || c = '<' || c = '#' || c = '$' || c = '\\')

/-- A word without a character that means anything to the shell. -/
def Plain (w : Str) : Prop := w ≠ [] ∧ ∀ c ∈ w, plainChar c = true

/-- Such a character is read as itself. -/
theorem readPiece_plain {c : Char} (h : plainChar c = true) (rest : Str) :
    readPiece env c rest = (.text [c], some rest) := by
  unfold readPiece
  split
  case h_14 => rfl
  all_goals exact absurd h Bool.false_ne_true

/-- A text of such characters is. -/
private theorem reads_plain {w : Str} (h : ∀ c ∈ w, plainChar c = true) : Reads env w w := by
  intro word rest
  induction w generalizing word with
  | nil => rw [List.nil_append, List.append_nil]
  | cons c w ih =>
      rw [List.cons_append, scan, readPiece_plain (h c List.mem_cons_self)]
      dsimp only [Option.getD_some]
      rw [ih fun d hd => h d (List.mem_cons_of_mem c hd), List.append_assoc]
      rfl

/-- The tokens of a simple command and of what comes after it. -/
theorem tokenise_command {words : List Str} (hplain : ∀ v ∈ words, Plain v) (rest : Str) :
    tokenise env (List.intercalate [' '] words ++ ' ' :: rest) =
      words.map .word ++ tokenise env rest := by
  have hwords : (words.filter fun v => v ≠ []) = words :=
    List.filter_eq_self.mpr fun v hv => decide_eq_true (hplain v hv).1
  have hreads : ∀ v ∈ words, Reads env (id v) v := fun v hv => reads_plain (hplain v hv).2
  have hscan := scan_words hreads (fun word => scan_space word rest)
  rw [List.map_id, flatMap_flush, hwords] at hscan
  exact hscan

/-- A redirection's text is not longer than what it was read from. -/
theorem readTarget_redir {redir rest r : Str} {after : Option Str}
    (h : readTarget redir rest = (.ends (some (.redir r)), after)) :
    r.length ≤ redir.length + rest.length := by
  cases h
  rw [List.length_append]
  have htake := (List.takeWhile_sublist wordChar (l := skipSpaces rest)).length_le
  have hskip := dropWhile_length (fun c => c = ' ' || c = '\t') rest
  exact Nat.add_le_add_left (htake.trans hskip) _

/-- So it is for the whole piece. -/
theorem readPiece_redir {ch : Char} {rest r : Str} {after : Option Str}
    (h : readPiece env ch rest = (.ends (some (.redir r)), after)) : r.length ≤ rest.length + 1 := by
  unfold readPiece at h
  split at h
  case h_9 =>
    unfold readOut at h
    split at h
    · have hlength := readTarget_redir h
      rw [List.length_cons]
      exact hlength.trans (by simp; omega)
    · exact (readTarget_redir h).trans (by simp; omega)
  case h_10 => exact (readTarget_redir h).trans (by simp; omega)
  case h_13 =>
    unfold readEscape at h
    split at h <;> cases h
  all_goals cases h

/-- A redirection is no longer than the input it is read from. -/
theorem scan_redir {word s r : Str} (h : .redir r ∈ scan env word s) : r.length ≤ s.length := by
  have hflush : ∀ w : Str, .redir r ∉ flush w := by
    intro w hw
    unfold flush at hw
    split at hw
    · cases hw
    · cases List.mem_singleton.mp hw
  fun_induction scan env word s with
  | case1 word => exact absurd h (hflush word)
  | case2 word ch rest piece tok hpiece ih =>
      have hshorter := readPiece_length env ch rest
      rcases List.mem_append.mp h with h | h
      · rcases List.mem_append.mp h with h | h
        · exact absurd h (hflush word)
        · cases Option.mem_toList.mp h
          exact readPiece_redir (Prod.ext hpiece rfl)
      · exact (ih h).trans (hshorter.trans (Nat.le_succ _))
  | case3 word ch rest piece s hpiece ih =>
      exact (ih h).trans ((readPiece_length env ch rest).trans (Nat.le_succ _))

/-- `r` redirects to what `Q` allows. -/
def Redirects (Q : Redirect → Prop) (r : Str) : Prop :=
  ∀ file, (r = '>' :: '>' :: file → Q (.append file)) ∧ (r = '>' :: file → Q (.file file)) ∧
    (r = '<' :: file → Q (.file file))

namespace Parser

/-- All that the parser has made or is about to make reads from and writes to what `Q`
allows. -/
structure Within (Q : Redirect → Prop) (p : Parser) : Prop where
  pipelines : ∀ q ∈ p.pipelines, ∀ c ∈ q.stages, Q c.stdin ∧ Q c.stdout
  stages : ∀ c ∈ p.stages, Q c.stdin ∧ Q c.stdout
  command : Q p.stdin ∧ Q p.stdout

namespace Within

variable {Q : Redirect → Prop} {p : Parser}

/-- A new parser. -/
theorem start (hinherit : Q .inherit) : Within Q {} :=
  ⟨fun _ hq => absurd hq List.not_mem_nil, fun _ hc => absurd hc List.not_mem_nil,
    hinherit, hinherit⟩

/-- A pipe at the end. -/
theorem toPipe (hpipe : Q .pipe) {stages : List Command}
    (h : ∀ c ∈ stages, Q c.stdin ∧ Q c.stdout) :
    ∀ c ∈ mapLast Command.toPipe stages, Q c.stdin ∧ Q c.stdout := by
  fun_induction mapLast Command.toPipe stages with
  | case1 => exact h
  | case2 c =>
      intro d hd
      cases List.mem_singleton.mp hd
      exact ⟨(h c List.mem_cons_self).1, hpipe⟩
  | case3 c cs hne ih =>
      intro d hd
      rcases List.mem_cons.mp hd with rfl | hd
      · exact h d List.mem_cons_self
      · exact ih (fun e he => h e (List.mem_cons_of_mem c he)) d hd

variable (hinherit : Q .inherit) (hpipe : Q .pipe)
include hinherit

/-- The command becomes a stage. -/
theorem pushCmd (h : p.Within Q) : p.pushCmd.Within Q := by
  by_cases hargv : p.argv = []
  · rw [pushCmd_nil p hargv]
    exact h
  · rw [pushCmd_cons p hargv]
    refine ⟨h.pipelines, fun c hc => ?_, hinherit, hinherit⟩
    rcases List.mem_append.mp hc with hc | hc
    · exact h.stages c hc
    · cases List.mem_singleton.mp hc
      exact h.command

/-- The pipeline is finished. -/
theorem pushPipeline (h : p.Within Q) : p.pushPipeline.Within Q := by
  have hcmd := h.pushCmd hinherit
  by_cases hstages : p.pushCmd.stages = []
  · rw [pushPipeline_nil p hstages]
    exact hcmd
  · rw [pushPipeline_cons p hstages]
    refine ⟨fun q hq => ?_, nofun, hcmd.command⟩
    rcases List.mem_append.mp hq with hq | hq
    · exact hcmd.pipelines q hq
    · cases List.mem_singleton.mp hq
      exact hcmd.stages

include hpipe

/-- A token, whose redirection, if it is one, is as asked for. -/
theorem feed (h : p.Within Q) {tok : Tok} (htok : ∀ r, tok = .redir r → Redirects Q r) :
    (p.feed tok).Within Q := by
  cases tok with
  | word w => exact ⟨h.pipelines, h.stages, h.command⟩
  | pipe =>
      have hcmd := h.pushCmd hinherit
      exact ⟨hcmd.pipelines, toPipe hpipe hcmd.stages, hpipe, hcmd.command.2⟩
  | semi => exact h.pushPipeline hinherit
  | newline => exact h.pushPipeline hinherit
  | amp =>
      have hbg : Within Q { p with bg := true } := ⟨h.pipelines, h.stages, h.command⟩
      exact hbg.pushPipeline hinherit
  | redir r =>
      have hr := htok r rfl
      unfold Parser.feed
      dsimp only
      split
      next file => exact ⟨h.pipelines, h.stages, h.command.1, (hr file).1 rfl⟩
      next file _ => exact ⟨h.pipelines, h.stages, h.command.1, (hr file).2.1 rfl⟩
      next file => exact ⟨h.pipelines, h.stages, (hr file).2.2 rfl, h.command.2⟩
      next => exact h

/-- **All tokens.** -/
theorem finish (h : p.Within Q) {toks : List Tok}
    (htoks : ∀ r, .redir r ∈ toks → Redirects Q r) :
    ∀ q ∈ p.finish toks, ∀ c ∈ q.stages, Q c.stdin ∧ Q c.stdout := by
  induction toks generalizing p with
  | nil => exact (h.pushPipeline hinherit).pipelines
  | cons tok toks ih =>
      have hhead : ∀ r, tok = .redir r → Redirects Q r := by
        rintro r rfl
        exact htoks r List.mem_cons_self
      exact ih (h.feed hinherit hpipe hhead) fun r hr => htoks r (List.mem_cons_of_mem tok hr)

end Within

end Parser

/-- What `w` in quotes leaves after the target has been read has no redirection as long
as `w`. -/
theorem quote_rest_redir {w r : Str}
    (h : .redir r ∈ scan env [] ((w ++ ['\'']).dropWhile wordChar)) : r.length ≤ w.length := by
  have hlength := dropWhile_length wordChar (w ++ ['\''])
  rw [List.length_append, List.length_singleton] at hlength
  cases hrest : (w ++ ['\'']).dropWhile wordChar with
  | nil =>
      rw [hrest, scan] at h
      cases h
  | cons c rest =>
      have hstop : wordChar c = false := by
        have hhead := List.head?_dropWhile_not wordChar (w ++ ['\''])
        rw [hrest] at hhead
        exact hhead
      have hpiece : ∃ tok, readPiece env c rest = (.ends tok, some rest) ∧
          ∀ r, tok ≠ some (.redir r) := by
        simp only [wordChar, Bool.not_eq_false', Bool.or_eq_true, decide_eq_true_eq] at hstop
        rcases hstop with ((((rfl | rfl) | rfl) | rfl) | rfl) | rfl
        all_goals exact ⟨_, rfl, fun _ hredir => by cases hredir⟩
      obtain ⟨tok, hpiece, htok⟩ := hpiece
      rw [hrest] at h hlength
      rw [scan, hpiece] at h
      rcases List.mem_append.mp h with h | h
      · exact absurd (Option.mem_toList.mp h) (htok r)
      · have hr := scan_redir h
        rw [List.length_cons] at hlength
        exact hr.trans (Nat.le_of_succ_le_succ hlength)

/-- Not the file `w`. -/
def Misses (w : Str) (x : Redirect) : Prop := x ≠ .file w ∧ x ≠ .append w

/-- A redirection with a quotation mark, or too short, is not to the file. -/
theorem redirects_misses {w r : Str} (h : '\'' ∈ r ∧ '\'' ∉ w ∨ r.length ≤ w.length) :
    Redirects (Misses w) r := by
  have hfile : ∀ op file : Str, op ≠ [] → '\'' ∉ op → r = op ++ file → file ≠ w := by
    rintro op _ hop hopquote rfl rfl
    rcases h with ⟨hquote, hnot⟩ | hlength
    · rcases List.mem_append.mp hquote with hmem | hmem
      · exact hopquote hmem
      · exact hnot hmem
    · rw [List.length_append] at hlength
      have hpos := List.length_pos_iff.mpr hop
      omega
  intro file
  refine ⟨fun hr => ?_, fun hr => ?_, fun hr => ?_⟩
  · have hne := hfile ['>', '>'] file (List.cons_ne_nil _ _) (by decide) hr
    exact ⟨nofun, fun heq => hne (Redirect.append.inj heq)⟩
  · have hne := hfile ['>'] file (List.cons_ne_nil _ _) (by decide) hr
    exact ⟨fun heq => hne (Redirect.file.inj heq), nofun⟩
  · have hne := hfile ['<'] file (List.cons_ne_nil _ _) (by decide) hr
    exact ⟨fun heq => hne (Redirect.file.inj heq), nofun⟩

/-- No command of the line reads or writes the quoted file. -/
theorem quoted_target_missed {op w : Str} (hop : op = ['>'] ∨ op = ['>', '>'] ∨ op = ['<'])
    {words : List Str} (hplain : ∀ v ∈ words, Plain v) (hquote : '\'' ∉ w) :
    ∀ q ∈ pipelines env (List.intercalate [' '] words ++ ' ' :: (op ++ ' ' :: quote w)),
      ∀ c ∈ q.stages, Misses w c.stdin ∧ Misses w c.stdout := by
  have hread : tokenise env (op ++ ' ' :: quote w) =
      .redir (op ++ '\'' :: (w ++ ['\'']).takeWhile wordChar) ::
        scan env [] ((w ++ ['\'']).dropWhile wordChar) := by
    rcases hop with rfl | rfl | rfl
    all_goals
      rw [tokenise, List.cons_append, scan]
      rfl
  rw [pipelines_eq, tokenise_command hplain, hread]
  have hinherit : Misses w .inherit := by constructor <;> intro heq <;> cases heq
  have hpipe : Misses w .pipe := by constructor <;> intro heq <;> cases heq
  refine Parser.Within.finish hinherit hpipe (.start hinherit) fun r hr => redirects_misses ?_
  rcases List.mem_append.mp hr with hr | hr
  · obtain ⟨v, -, heq⟩ := List.mem_map.mp hr
    cases heq
  · rcases List.mem_cons.mp hr with heq | hr
    · cases heq
      exact Or.inl ⟨by simp, hquote⟩
    · exact Or.inr (quote_rest_redir hr)

/-- A command with one stage. -/
def ParsesTo (env : Env) (input : Str) (argv : List Str) (P : Command → Prop) : Prop :=
  ∃ c, parse env input = .ok [⟨[c]⟩] ∧ c.argv = argv ∧ P c

/-- If no command is as asked for, the input does not parse to it. -/
theorem not_parsesTo {input : Str} {argv : List Str} {P : Command → Prop}
    (h : ∀ q ∈ pipelines env input, ∀ c ∈ q.stages, ¬P c) : ¬ParsesTo env input argv P := by
  rintro ⟨c, hparse, -, hP⟩
  have hpipelines := (parse_eq_ok (List.cons_ne_nil _ _)).mp hparse
  rw [hpipelines] at h
  exact h _ List.mem_cons_self c List.mem_cons_self hP

/-- `2>&1` is a word, a redirection to no file, an ampersand and a second command. -/
theorem descriptor_pipelines {words : List Str} (hplain : ∀ v ∈ words, Plain v) :
    pipelines env (List.intercalate [' '] words ++ ' ' :: ['2', '>', '&', '1']) =
      [⟨[{ simple (words ++ [['2']]) with stdout := .file [], bg := true }]⟩,
        ⟨[simple [['1']]]⟩] := by
  have hread : tokenise env ['2', '>', '&', '1'] =
      [.word ['2'], .redir ['>'], .amp, .word ['1']] := by
    have hout : readPiece env '>' ['&', '1'] = (.ends (some (.redir ['>'])), some ['&', '1']) := rfl
    have hamp : readPiece env '&' ['1'] = (.ends (some .amp), some ['1']) := rfl
    rw [tokenise, scan, readPiece_plain rfl]
    dsimp only [Option.getD_some]
    rw [scan, hout]
    dsimp only [Option.getD_some]
    rw [scan, hamp]
    dsimp only [Option.getD_some]
    rw [scan, readPiece_plain rfl]
    dsimp only [Option.getD_some]
    rw [scan]
    rfl
  rw [pipelines_eq, tokenise_command hplain, hread, Parser.finish_append, foldl_words]
  have hargv : ([] ++ words) ++ [['2']] ≠ [] := by simp
  have hamp := Parser.pushPipeline_argv_cons
    { argv := ([] ++ words) ++ [['2']], stdout := .file [], bg := true } hargv
  rw [Parser.finish_cons, Parser.finish_cons, Parser.finish_cons]
  exact (congrArg (fun p => Parser.finish p [.word ['1']]) hamp).trans rfl

/-- None of the documented redirections is parsed as documented. -/
theorem redirections_misread (env : Env) {words : List Str} {w : Str}
    (hplain : ∀ v ∈ words, Plain v) (hquote : '\'' ∉ w) :
    ¬ParsesTo env (List.intercalate [' '] words ++ [' ', '>', ' '] ++ quote w) words
        (fun c => c.stdout = .file w) ∧
      ¬ParsesTo env (List.intercalate [' '] words ++ [' ', '>', '>', ' '] ++ quote w) words
        (fun c => c.stdout = .append w) ∧
      ¬ParsesTo env (List.intercalate [' '] words ++ [' ', '<', ' '] ++ quote w) words
        (fun c => c.stdin = .file w) ∧
      ¬ParsesTo env (List.intercalate [' '] words ++ [' ', '2', '>', '&', '1']) words
        (fun c => c.stderr = .fd 1 ∧ c.bg = false) := by
  simp only [List.append_assoc, List.cons_append, List.nil_append]
  refine ⟨not_parsesTo fun q hq c hc hfile => ?_, not_parsesTo fun q hq c hc hfile => ?_,
    not_parsesTo fun q hq c hc hfile => ?_, ?_⟩
  · exact (quoted_target_missed (.inl rfl) hplain hquote q hq c hc).2.1 hfile
  · exact (quoted_target_missed (.inr (.inl rfl)) hplain hquote q hq c hc).2.2 hfile
  · exact (quoted_target_missed (.inr (.inr rfl)) hplain hquote q hq c hc).1.1 hfile
  · rintro ⟨c, hparse, -⟩
    have hpipelines := (parse_eq_ok (List.cons_ne_nil _ _)).mp hparse
    rw [descriptor_pipelines hplain] at hpipelines
    cases (List.cons.inj hpipelines).2

/-- The sample of the source, with a quoted name. -/
theorem redirections_misread_ls :
    ¬ParsesTo .bare (List.intercalate [' '] [['l', 's']] ++ [' ', '>', ' '] ++ quote ['f'])
      [['l', 's']] (fun c => c.stdout = .file ['f']) :=
  have hplain : ∀ v ∈ [['l', 's']], Plain v := by
    intro v hv
    cases List.mem_singleton.mp hv
    exact ⟨List.cons_ne_nil _ _, by simp [plainChar]⟩
  (redirections_misread .bare hplain (by decide)).1

/-- `ls > 'f'` writes to a file whose name has quotes. -/
theorem target_keeps_quotes :
    pipelines .bare ['l', 's', ' ', '>', ' ', '\'', 'f', '\''] =
        [⟨[{ simple [['l', 's']] with stdout := .file ['\'', 'f', '\''] }]⟩] ∧
      ¬ParsesTo .bare ['l', 's', ' ', '>', ' ', '\'', 'f', '\''] [['l', 's']]
        (fun c => c.stdout = .file ['f']) :=
  ⟨by decide +kernel, not_parsesTo (by decide +kernel)⟩

end ShellParser
