import Noxisa.ShellParser

/-!
# How the stages of a pipeline are linked

`parse` sets the output of the last stage to a pipe when it meets a `|`, and
leaves it to the tokens that follow to bring the stage that reads from it.  The
input of the next command is set in the same place, whether there is a stage
before it or not.  `Links` follows what matters for the links through the
tokens, and stops where the parser makes a stage that cannot be repaired.
-/

namespace ShellParser

/-- The stages are connected left-to-right via pipes, and run in the background
together or not at all. -/
structure Linked (stages : List Command) : Prop where
  stdin : ∀ i c, stages[i]? = some c → c.stdin = .pipe →
    ∃ j b, i = j + 1 ∧ stages[j]? = some b ∧ b.stdout = .pipe
  stdout : ∀ i c, stages[i]? = some c → c.stdout = .pipe → ∃ d, stages[i + 1]? = some d
  argv : ∀ c ∈ stages, c.argv ≠ []
  bg : ∀ b ∈ stages, ∀ c ∈ stages, b.bg = c.bg

/-- The open pipeline, as far as its links go. -/
structure Links where
  /-- the background flag of the first stage, once there is one -/
  first : Option Bool := none
  /-- the command that is being read has arguments -/
  words : Bool := false
  /-- before the first command, a `|` with no `<` after it -/
  stray : Bool := false
  /-- the flag of the command that is being read: an `&` with no command before it
  sets it, and no stage but the first is read with it -/
  bg : Bool := false
deriving DecidableEq

namespace Links

/-- The command that has been read becomes a stage: the first one must not wait for
a pipe, and each must run in the background if the first does. -/
def pushCmd (l : Links) : Option Links :=
  match l.first with
  | none => if l.stray then none else some { first := some l.bg }
  | some bg => if l.bg = bg then some { first := some bg } else none

/-- At a separator the pipeline must not end in a `|`. -/
def separate (l : Links) : Option Links :=
  if l.words then l.pushCmd.map fun _ => {}
  else if l.first = none then some l
  else none

/-- At a `|` the command becomes a stage. With no command the input is set to a pipe,
and so is the output of the last stage. -/
def pipe (l : Links) : Option Links :=
  if l.words then l.pushCmd
  else if l.first = none then some { l with stray := true }
  else some l

/-- One token: a `<` takes back the pipe of a command that is not there yet. -/
def feed (l : Links) : Tok → Option Links
  | .word _ => some { l with words := true }
  | .pipe => l.pipe
  | .semi | .newline => l.separate
  | .amp => { l with bg := true }.separate
  | .redir ('<' :: _) => some { l with stray := false }
  | .redir _ => some l

/-- The tokens come in an order that gives linked pipelines. -/
def accepts (l : Links) : List Tok → Bool
  | [] => l.separate.isSome
  | tok :: toks =>
      match l.feed tok with
      | some l' => l'.accepts toks
      | none => false

end Links

/-- The stages of an open pipeline after its last `|`. -/
structure Open (bg : Bool) (stages : List Command) : Prop where
  stdin : ∀ c, stages[0]? = some c → c.stdin ≠ .pipe
  stdout : ∀ c ∈ stages, c.stdout = .pipe
  argv : ∀ c ∈ stages, c.argv ≠ []
  bg : ∀ c ∈ stages, c.bg = bg

/-- No stage that is added can link these. -/
def Broken (stages : List Command) : Prop :=
  (stages.map Command.stdin)[0]? = some .pipe ∨
    ∃ b ∈ stages.map Command.bg, ∃ c ∈ stages.map Command.bg, b ≠ c

/-- A broken pipeline is not linked. -/
theorem Broken.not_linked {stages : List Command} (h : Broken stages) : ¬Linked stages := by
  intro hlinked
  rcases h with hstdin | ⟨b, hb, c, hc, hne⟩
  · rw [List.getElem?_map, Option.map_eq_some_iff] at hstdin
    obtain ⟨c, hfirst, hpipe⟩ := hstdin
    obtain ⟨j, b, hj, -⟩ := hlinked.stdin 0 c hfirst hpipe
    cases hj
  · obtain ⟨b, hbm, rfl⟩ := List.mem_map.mp hb
    obtain ⟨c, hcm, rfl⟩ := List.mem_map.mp hc
    exact hne (hlinked.bg b hbm c hcm)

/-- More stages do not repair it. -/
theorem Broken.append {stages : List Command} (h : Broken stages) (more : List Command) :
    Broken (stages ++ more) := by
  unfold Broken
  rw [List.map_append, List.map_append]
  rcases h with hstdin | ⟨b, hb, c, hc, hne⟩
  · left
    exact List.getElem?_append_left (List.getElem?_eq_some_iff.mp hstdin).1 ▸ hstdin
  · exact Or.inr ⟨b, List.mem_append_left _ hb, c, List.mem_append_left _ hc, hne⟩

/-- A pipeline that is open at its end is not linked. -/
theorem Open.not_linked {bg : Bool} {stages : List Command} (h : Open bg stages)
    (hne : stages ≠ []) : ¬Linked stages := by
  intro hlinked
  have hlast : stages[stages.length - 1]? = some (stages.getLast hne) :=
    List.getLast?_eq_getElem?.symm.trans (List.getLast?_eq_some_getLast hne)
  obtain ⟨d, hd⟩ := hlinked.stdout _ _ hlast (h.stdout _ (List.getLast_mem hne))
  have hlength := (List.getElem?_eq_some_iff.mp hd).1
  omega

/-- The last stage of an open pipeline closes it if its output is no pipe. -/
theorem Open.linked {bg : Bool} {init : List Command} {c : Command}
    (h : Open bg (init ++ [c.toPipe])) (hstdout : c.stdout ≠ .pipe) :
    Linked (init ++ [c]) := by
  have hmem : ∀ d ∈ init ++ [c], d.argv ≠ [] ∧ d.bg = bg := by
    intro d hd
    rcases List.mem_append.mp hd with hd | hd
    · exact ⟨h.argv d (List.mem_append_left _ hd), h.bg d (List.mem_append_left _ hd)⟩
    · cases List.mem_singleton.mp hd
      have hlast := List.mem_append_right init (List.mem_singleton_self c.toPipe)
      exact ⟨h.argv c.toPipe hlast, h.bg c.toPipe hlast⟩
  refine ⟨?_, ?_, fun d hd => (hmem d hd).1, fun b hb d hd => ?_⟩
  · intro i d hd hpipe
    cases i with
    | zero =>
        cases init with
        | nil =>
            cases hd
            exact absurd hpipe (h.stdin c.toPipe rfl)
        | cons b init =>
            exact absurd hpipe (h.stdin d hd)
    | succ j =>
        have hlength := (List.getElem?_eq_some_iff.mp hd).1
        rw [List.length_append, List.length_singleton] at hlength
        have hj : j < init.length := by omega
        have hb : (init ++ [c])[j]? = some init[j] := by
          rw [List.getElem?_append_left hj, List.getElem?_eq_getElem hj]
        exact ⟨j, init[j], rfl, hb, h.stdout _ (List.mem_append_left _ (List.getElem_mem hj))⟩
  · intro i d hd hpipe
    by_cases hi : i < init.length
    · have hlength : i + 1 < (init ++ [c]).length := by
        rw [List.length_append, List.length_singleton]
        omega
      exact ⟨_, List.getElem?_eq_getElem hlength⟩
    · have hlength := (List.getElem?_eq_some_iff.mp hd).1
      rw [List.length_append, List.length_singleton] at hlength
      have hlast : i = init.length := by omega
      subst hlast
      rw [List.getElem?_concat_length] at hd
      cases hd
      exact absurd hpipe hstdout
  · rw [(hmem b hb).2, (hmem d hd).2]

namespace Parser

/-- The parser has made no wrong link yet. -/
structure Fits (p : Parser) (l : Links) : Prop where
  linked : ∀ q ∈ p.pipelines, Linked q.stages
  words : l.words = true ↔ p.argv ≠ []
  bg : l.bg = p.bg
  stdout : p.stdout ≠ .pipe
  first : l.first = none → p.stages = [] ∧ (l.stray = true ↔ p.stdin = .pipe)
  stages : ∀ bg, l.first = some bg → p.stages ≠ [] ∧ Open bg p.stages

/-- The parser has made a wrong link. -/
def Bad (p : Parser) : Prop := (∃ q ∈ p.pipelines, ¬Linked q.stages) ∨ Broken p.stages

/-- The parser does what the links say. -/
def Tracks (p : Parser) : Option Links → Prop
  | some l => p.Fits l
  | none => p.Bad

/-- The last one of a list is changed. -/
theorem mapLast_append (f : Command → Command) (init : List Command) (c : Command) :
    mapLast f (init ++ [c]) = init ++ [f c] := by
  induction init with
  | nil => rfl
  | cons d init ih =>
      cases init with
      | nil => rfl
      | cons e init => exact congrArg (d :: ·) ih

/-- A change that changes no stage. -/
private theorem mapLast_id {f : Command → Command} {stages : List Command}
    (h : ∀ c ∈ stages, f c = c) :
    mapLast f stages = stages := by
  rcases List.eq_nil_or_concat' stages with rfl | ⟨init, c, rfl⟩
  · rfl
  · rw [mapLast_append, h c (List.mem_append_right _ (List.mem_singleton_self c))]

/-- A change that a part of the stages does not see. -/
theorem mapLast_map {α : Type} {f : Command → Command} {g : Command → α} (h : ∀ c, g (f c) = g c)
    (stages : List Command) : (mapLast f stages).map g = stages.map g := by
  rcases List.eq_nil_or_concat' stages with rfl | ⟨init, c, rfl⟩
  · rfl
  · rw [mapLast_append, List.map_append, List.map_append, List.map_singleton, h]
    rfl

/-- A pipe at the end does not repair a broken pipeline. -/
theorem broken_toPipe {stages : List Command} (h : Broken stages) :
    Broken (mapLast Command.toPipe stages) := by
  unfold Broken at h ⊢
  rw [mapLast_map (f := Command.toPipe) (fun _ => rfl),
    mapLast_map (f := Command.toPipe) (fun _ => rfl)]
  exact h

/-- A parser that has made a bad pipeline keeps it when a stage is added. -/
theorem Bad.pushCmd {p : Parser} (h : p.Bad) : p.pushCmd.Bad := by
  by_cases hargv : p.argv = []
  · rw [pushCmd_nil p hargv]
    exact h
  · rw [pushCmd_cons p hargv]
    exact h.imp_right fun hbroken => hbroken.append _

/-- And when the pipeline is finished. -/
theorem Bad.pushPipeline {p : Parser} (h : p.Bad) : p.pushPipeline.Bad := by
  by_cases hstages : p.pushCmd.stages = []
  · rw [pushPipeline_nil p hstages]
    exact h.pushCmd
  · rw [pushPipeline_cons p hstages]
    left
    rcases h.pushCmd with ⟨q, hq, hbad⟩ | hbroken
    · exact ⟨q, List.mem_append_left _ hq, hbad⟩
    · exact ⟨_, List.mem_append_right _ (List.mem_singleton_self _), hbroken.not_linked⟩

/-- And with any token. -/
theorem Bad.feed {p : Parser} (h : p.Bad) (tok : Tok) : (p.feed tok).Bad := by
  cases tok with
  | word w => exact h
  | pipe => exact h.pushCmd.imp_right broken_toPipe
  | semi => exact h.pushPipeline
  | newline => exact h.pushPipeline
  | amp => exact Bad.pushPipeline (p := { p with bg := true }) h
  | redir r =>
      dsimp only [Parser.feed]
      split <;> exact h

/-- So one of the pipelines is not linked in the end. -/
theorem Bad.finish {p : Parser} (h : p.Bad) (toks : List Tok) :
    ∃ q ∈ p.finish toks, ¬Linked q.stages := by
  induction toks generalizing p with
  | nil =>
      rcases h.pushPipeline with hbad | hbroken
      · exact hbad
      · rw [pushPipeline_stages] at hbroken
        exact absurd hbroken (by simp [Broken])
  | cons tok toks ih => exact ih (h.feed tok)

namespace Fits

variable {p : Parser} {l : Links}

/-- With no argument read there are no words. -/
theorem words_false (h : p.Fits l) (hargv : p.argv = []) : l.words = false := by
  rw [← Bool.not_eq_true, h.words]
  exact not_not_intro hargv

/-- A stage that is accepted leaves an open pipeline. -/
theorem pushCmd_some {l' : Links} (h : p.Fits l) (hargv : p.argv ≠ []) (hpush : l.pushCmd = some l') :
    ∃ bg, l' = { first := some bg } ∧ Open bg (p.stages ++ [p.command.toPipe]) := by
  unfold Links.pushCmd at hpush
  split at hpush
  next hfirst =>
    obtain ⟨hstages, hstray⟩ := h.first hfirst
    by_cases hwait : l.stray = true
    · rw [if_pos hwait] at hpush
      cases hpush
    · rw [if_neg hwait] at hpush
      cases hpush
      refine ⟨l.bg, rfl, ?_⟩
      rw [hstages, List.nil_append]
      refine ⟨?_, ?_, ?_, ?_⟩
      · rintro c ⟨⟩
        exact fun hpipe => hwait (hstray.mpr hpipe)
      all_goals
        intro c hc
        cases List.mem_singleton.mp hc
      · rfl
      · exact hargv
      · exact h.bg.symm
  next bg hfirst =>
    by_cases hbg : l.bg = bg
    · rw [if_pos hbg] at hpush
      cases hpush
      obtain ⟨hstages, hopen⟩ := h.stages bg hfirst
      refine ⟨bg, rfl, ?_, ?_, ?_, ?_⟩
      · intro c hc
        rw [List.getElem?_append_left (List.length_pos_iff.mpr hstages)] at hc
        exact hopen.stdin c hc
      all_goals
        intro c hc
        rcases List.mem_append.mp hc with hc | hc
      · exact hopen.stdout c hc
      · cases List.mem_singleton.mp hc
        rfl
      · exact hopen.argv c hc
      · cases List.mem_singleton.mp hc
        exact hargv
      · exact hopen.bg c hc
      · cases List.mem_singleton.mp hc
        exact h.bg.symm.trans hbg
    · rw [if_neg hbg] at hpush
      cases hpush

/-- A stage that is not leaves a broken one. -/
theorem pushCmd_none (h : p.Fits l) (hpush : l.pushCmd = none) :
    Broken (p.stages ++ [p.command]) := by
  unfold Links.pushCmd at hpush
  split at hpush
  next hfirst =>
    obtain ⟨hstages, hstray⟩ := h.first hfirst
    by_cases hwait : l.stray = true
    · left
      rw [hstages]
      exact congrArg some (hstray.mp hwait)
    · rw [if_neg hwait] at hpush
      cases hpush
  next bg hfirst =>
    by_cases hbg : l.bg = bg
    · rw [if_pos hbg] at hpush
      cases hpush
    · right
      obtain ⟨hstages, hopen⟩ := h.stages bg hfirst
      obtain ⟨c, hc⟩ := List.exists_mem_of_ne_nil _ hstages
      refine ⟨c.bg, List.mem_map_of_mem (List.mem_append_left _ hc), p.command.bg,
        List.mem_map_of_mem (List.mem_append_right _ (List.mem_singleton_self _)), ?_⟩
      rw [hopen.bg c hc]
      exact fun heq => hbg (h.bg.trans heq.symm)

/-- A fresh parser that has only linked pipelines. -/
theorem fresh {ps : List Pipeline} (h : ∀ q ∈ ps, Linked q.stages) :
    Fits { pipelines := ps } {} :=
  ⟨h, iff_of_false nofun (fun hne => hne rfl), rfl, nofun, fun _ => ⟨rfl, iff_of_false nofun nofun⟩,
    nofun⟩

/-- A separator, for the parser and for its links. -/
theorem separate (h : p.Fits l) : p.pushPipeline.Tracks l.separate := by
  unfold Links.separate
  by_cases hargv : p.argv = []
  · have hcmd : p.pushCmd = p := pushCmd_nil p hargv
    rw [h.words_false hargv, if_neg Bool.false_ne_true]
    cases hfirst : l.first with
    | none =>
        rw [if_pos rfl, pushPipeline_nil p (by rw [hcmd]; exact (h.first hfirst).1), hcmd]
        exact h
    | some bg =>
        -- the pipeline ends in a `|`
        obtain ⟨hstages, hopen⟩ := h.stages bg hfirst
        rw [if_neg nofun, pushPipeline_cons p (by rw [hcmd]; exact hstages), hcmd]
        exact Or.inl ⟨_, List.mem_append_right _ (List.mem_singleton_self _),
          hopen.not_linked hstages⟩
  · rw [h.words.mpr hargv, if_pos rfl, pushPipeline_argv_cons p hargv]
    cases hpush : l.pushCmd with
    | none =>
        exact Or.inl ⟨_, List.mem_append_right _ (List.mem_singleton_self _),
          (h.pushCmd_none hpush).not_linked⟩
    | some l' =>
        obtain ⟨bg, -, hopen⟩ := h.pushCmd_some hargv hpush
        refine fresh fun q hq => ?_
        rcases List.mem_append.mp hq with hq | hq
        · exact h.linked q hq
        · cases List.mem_singleton.mp hq
          exact hopen.linked h.stdout

/-- A `|`, for both. -/
theorem pipe (h : p.Fits l) : (p.feed .pipe).Tracks l.pipe := by
  unfold Links.pipe
  dsimp only [Parser.feed]
  by_cases hargv : p.argv = []
  · rw [h.words_false hargv, if_neg Bool.false_ne_true, pushCmd_nil p hargv]
    cases hfirst : l.first with
    | none =>
        rw [if_pos rfl, (h.first hfirst).1]
        exact ⟨h.linked, iff_of_false nofun (fun hne => hne hargv), h.bg, h.stdout,
          fun _ => ⟨rfl, iff_of_true rfl rfl⟩, nofun⟩
    | some bg =>
        obtain ⟨hstages, hopen⟩ := h.stages bg hfirst
        have hsame : mapLast Command.toPipe p.stages = p.stages := by
          refine mapLast_id fun c hc => ?_
          unfold Command.toPipe
          rw [← hopen.stdout c hc]
        rw [if_neg nofun, hsame]
        exact ⟨h.linked, h.words, h.bg, h.stdout,
          fun hnone => absurd (hfirst.symm.trans hnone) nofun, h.stages⟩
  · rw [h.words.mpr hargv, if_pos rfl, pushCmd_cons p hargv]
    dsimp only
    rw [mapLast_append]
    cases hpush : l.pushCmd with
    | none =>
        have hbroken := broken_toPipe (h.pushCmd_none hpush)
        rw [mapLast_append] at hbroken
        exact Or.inr hbroken
    | some l' =>
        obtain ⟨bg, rfl, hopen⟩ := h.pushCmd_some hargv hpush
        refine ⟨h.linked, iff_of_false nofun (fun hne => hne rfl), rfl, nofun, nofun, ?_⟩
        rintro _ ⟨⟩
        exact ⟨by simp, hopen⟩

/-- Any token, for both. -/
theorem feed (h : p.Fits l) (tok : Tok) : (p.feed tok).Tracks (l.feed tok) := by
  cases tok with
  | word w =>
      exact ⟨h.linked, iff_of_true rfl (by simp [Parser.feed]), h.bg, h.stdout, h.first, h.stages⟩
  | pipe => exact h.pipe
  | semi => exact h.separate
  | newline => exact h.separate
  | amp =>
      have hbg : Fits { p with bg := true } { l with bg := true } :=
        ⟨h.linked, h.words, rfl, h.stdout, h.first, h.stages⟩
      exact hbg.separate
  | redir r =>
      have hout : ∀ stdout, stdout ≠ Redirect.pipe → Fits { p with stdout := stdout } l :=
        fun _ hne => ⟨h.linked, h.words, h.bg, hne, h.first, h.stages⟩
      have hin : ∀ file, Fits { p with stdin := .file file } { l with stray := false } :=
        fun _ => ⟨h.linked, h.words, h.bg, h.stdout,
          fun hfirst => ⟨(h.first hfirst).1, iff_of_false nofun nofun⟩, h.stages⟩
      unfold Parser.feed Links.feed
      grind [Tracks]

/-- **The tokens that are left**: the pipelines of the parser are linked exactly if the
links accept them. -/
theorem finish (h : p.Fits l) (toks : List Tok) :
    (∀ q ∈ p.finish toks, Linked q.stages) ↔ l.accepts toks = true := by
  induction toks generalizing p l with
  | nil =>
      have hend := h.separate
      rw [finish_nil, Links.accepts]
      cases hsep : l.separate with
      | some l' =>
          rw [hsep] at hend
          exact iff_of_true hend.linked rfl
      | none =>
          rw [hsep] at hend
          rcases hend with ⟨q, hq, hbad⟩ | hbroken
          · exact iff_of_false (fun hall => hbad (hall q hq)) nofun
          · rw [pushPipeline_stages] at hbroken
            exact absurd hbroken (by simp [Broken])
  | cons tok toks ih =>
      have hnext := h.feed tok
      rw [finish_cons, Links.accepts]
      cases hfeed : l.feed tok with
      | some l' =>
          rw [hfeed] at hnext
          exact ih hnext
      | none =>
          rw [hfeed] at hnext
          obtain ⟨q, hq, hbad⟩ := Bad.finish hnext toks
          exact iff_of_false (fun hall => hbad (hall q hq)) nofun

end Fits

end Parser

/-- Every pipeline of a script is linked exactly when the tokens of the input come in
an order that `Links` accepts. -/
theorem pipelines_linked (env : Env) (input : Str) :
    (∀ ps, parse env input = .ok ps → ∀ q ∈ ps, Linked q.stages) ↔
      Links.accepts {} (tokenise env input) = true := by
  have hstart : Parser.Fits {} {} := Parser.Fits.fresh nofun
  rw [← hstart.finish, ← pipelines_eq]
  unfold pipelines
  cases parse env input with
  | error e => exact iff_of_true nofun nofun
  | ok ps =>
      constructor
      · exact fun h => h ps rfl
      · rintro h _ ⟨⟩
        exact h

/-- Of the two stages of `a|b&` only the last one runs in the background. -/
theorem background_unlinked :
    ¬∀ ps, parse .bare ['a', '|', 'b', '&'] = .ok ps → ∀ q ∈ ps, Linked q.stages := by
  intro h
  have hpipelines : pipelines .bare ['a', '|', 'b', '&'] =
      [⟨[{ argv := [['a']], stdin := .inherit, stdout := .pipe, stderr := .inherit, bg := false },
        { argv := [['b']], stdin := .pipe, stdout := .inherit, stderr := .inherit, bg := true }]⟩] := by
    decide +kernel
  have hlinked := h _ ((parse_eq_ok (List.cons_ne_nil _ _)).mpr hpipelines) _ List.mem_cons_self
  have hbg := hlinked.bg _ List.mem_cons_self _ (List.mem_cons_of_mem _ List.mem_cons_self)
  cases hbg

/-- A pipe with no command on one of its sides. -/
example :
    Links.accepts {} (tokenise .bare ['|', 'l', 's']) = false ∧
      Links.accepts {} (tokenise .bare ['l', 's', '|']) = false ∧
      Links.accepts {} (tokenise .bare ['l', 's', '|', 'w', 'c']) = true := by
  decide +kernel

end ShellParser
