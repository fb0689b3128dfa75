import Noxisa.ShellTokens

/-!
# The parser of the shell

`parse` folds the tokens of a line into pipelines.  The arguments, the
redirections and the background flag of the command that is being read are
variables of their own: they are reset when a command is pushed, and a command
is pushed only if it has arguments.
-/

namespace ShellParser

/-- `Redirect` -/
inductive Redirect
  | inherit
  | file (name : Str)
  | append (name : Str)
  | fd (n : Int)
  /-- connected to next stage -/
  | pipe
deriving DecidableEq

/-- `Command` -/
structure Command where
  argv : List Str
  stdin : Redirect
  stdout : Redirect
  stderr : Redirect
  /-- run in background -/
  bg : Bool
deriving DecidableEq

/-- The output goes to the next stage. -/
def Command.toPipe (c : Command) : Command := { c with stdout := .pipe }

/-- `Pipeline` -/
structure Pipeline where
  stages : List Command
deriving DecidableEq

/-- `ParseError` -/
inductive ParseError
  | empty
  | unexpected (tok : String)
deriving DecidableEq

/-- The variables of `parse`. -/
structure Parser where
  pipelines : List Pipeline := []
  stages : List Command := []
  argv : List Str := []
  stdin : Redirect := .inherit
  stdout : Redirect := .inherit
  stderr : Redirect := .inherit
  bg : Bool := false
deriving DecidableEq

namespace Parser

/-- The command that is being read. -/
def command (p : Parser) : Command :=
  { argv := p.argv, stdin := p.stdin, stdout := p.stdout, stderr := p.stderr, bg := p.bg }

/-- `push_cmd!` -/
def pushCmd (p : Parser) : Parser :=
  if p.argv = [] then p
  else { pipelines := p.pipelines, stages := p.stages ++ [p.command] }

/-- `push_pipeline!` -/
def pushPipeline (p : Parser) : Parser :=
  let p := p.pushCmd
  if p.stages = [] then p
  else { p with pipelines := p.pipelines ++ [⟨p.stages⟩], stages := [] }

/-- Change the last stage. -/
def mapLast (f : Command → Command) : List Command → List Command
  | [] => []
  | [c] => [f c]
  | c :: cs => c :: mapLast f cs

/-- The body of the loop over the tokens. -/
def feed (p : Parser) : Tok → Parser
  | .word w => { p with argv := p.argv ++ [w] }
  | .pipe =>
      let p := p.pushCmd
      { p with stages := mapLast Command.toPipe p.stages, stdin := .pipe }
  | .semi | .newline => p.pushPipeline
  | .amp => { p with bg := true }.pushPipeline
  | .redir r =>
      match r with
      | '>' :: '>' :: file => { p with stdout := .append file }
      | '>' :: file => { p with stdout := .file file }
      | '<' :: file => { p with stdin := .file file }
      | _ => p

/-- The pipelines of a list of tokens. -/
def finish (p : Parser) (toks : List Tok) : List Pipeline := (toks.foldl feed p).pushPipeline.pipelines

end Parser

/-- `parse`: an input without commands is an error. -/
def parse (env : Env) (input : Str) : Except ParseError (List Pipeline) :=
  let tokens := tokenise env input
  if tokens = [] then .error .empty
  else
    let pipelines := Parser.finish {} tokens
    if pipelines = [] then .error .empty else .ok pipelines

/-- The pipelines of a line: none if it is empty. -/
def pipelines (env : Env) (input : Str) : List Pipeline := (parse env input).toOption.getD []

/-- The pipelines of an input are those of its tokens; an error has none. -/
theorem pipelines_eq (env : Env) (input : Str) :
    pipelines env input = Parser.finish {} (tokenise env input) := by
  unfold pipelines parse
  dsimp only
  split
  next hnone => rw [hnone]; rfl
  next =>
    split
    next hnone => rw [hnone]; rfl
    next => rfl

/-- What `parse` returns, if it is not empty, are the pipelines. -/
theorem parse_eq_ok {env : Env} {input : Str} {ps : List Pipeline} (hne : ps ≠ []) :
    parse env input = .ok ps ↔ pipelines env input = ps := by
  rw [pipelines_eq]
  unfold parse
  dsimp only
  split
  next hnone =>
    rw [hnone]
    exact iff_of_false nofun (fun h => hne h.symm)
  next =>
    split
    next hnil => exact iff_of_false nofun (fun h => hne (h.symm.trans hnil))
    next => exact ⟨fun h => Except.ok.inj h, fun h => congrArg Except.ok h⟩

namespace Parser

variable (p : Parser)

/-- At the end of the tokens the last pipeline is finished. -/
@[simp] theorem finish_nil : p.finish [] = p.pushPipeline.pipelines := rfl

/-- One token, and then the others. -/
@[simp] theorem finish_cons (t : Tok) (toks : List Tok) :
    p.finish (t :: toks) = (p.feed t).finish toks := rfl

/-- Some tokens, and then the others. -/
theorem finish_append (toks toks' : List Tok) :
    p.finish (toks ++ toks') = (toks.foldl feed p).finish toks' := by
  unfold finish
  rw [List.foldl_append]

/-- A command without arguments is not added, and what was set for it stays. -/
theorem pushCmd_nil (h : p.argv = []) : p.pushCmd = p := if_pos h

/-- A command with arguments becomes a stage, and its fields are as at the start. -/
theorem pushCmd_cons (h : p.argv ≠ []) :
    p.pushCmd = { pipelines := p.pipelines, stages := p.stages ++ [p.command] } := if_neg h

/-- A pipeline without stages is not added. -/
theorem pushPipeline_nil (h : p.pushCmd.stages = []) : p.pushPipeline = p.pushCmd := if_pos h

/-- A pipeline with stages is. -/
theorem pushPipeline_cons (h : p.pushCmd.stages ≠ []) :
    p.pushPipeline =
      { p.pushCmd with
        pipelines := p.pushCmd.pipelines ++ [⟨p.pushCmd.stages⟩]
        stages := [] } :=
  if_neg h

/-- The command that was being read is its last stage. -/
theorem pushPipeline_argv_cons (h : p.argv ≠ []) :
    p.pushPipeline = { pipelines := p.pipelines ++ [⟨p.stages ++ [p.command]⟩] } := by
  have hcmd := pushCmd_cons p h
  rw [pushPipeline_cons p (by rw [hcmd]; simp), hcmd]

/-- After a separator no stage is open. -/
@[simp] theorem pushPipeline_stages : p.pushPipeline.stages = [] := by
  by_cases h : p.pushCmd.stages = []
  · rw [pushPipeline_nil p h, h]
  · rw [pushPipeline_cons p h]

/-- After a stage has been added the arguments are those of the next one. -/
@[simp] theorem pushCmd_argv : p.pushCmd.argv = [] := by
  by_cases h : p.argv = []
  · rw [pushCmd_nil p h, h]
  · rw [pushCmd_cons p h]

/-- So they are after a separator. -/
@[simp] theorem pushPipeline_argv : p.pushPipeline.argv = [] := by
  by_cases h : p.pushCmd.stages = []
  · rw [pushPipeline_nil p h, p.pushCmd_argv]
  · rw [pushPipeline_cons p h]
    exact p.pushCmd_argv

end Parser

end ShellParser
