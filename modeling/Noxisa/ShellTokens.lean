import Mathlib

/-!
# The tokeniser of the shell

A string is the list of its characters.  The main loop of `tokenise` takes one
character and reads on as far as that character asks for: a quoted string, the
name of a variable, the target of a redirection, a comment.  What one round
reads is a `Piece`: either it ends the current word, or it adds to it.

A reader that meets the end of the input before the character it is looking for
has no rest to give back.  That is how `ending` tells what is still open at the
end of a string.
-/

namespace ShellParser

/-- A Rust `String`, by its characters. -/
abbrev Str := List Char

/-- The environment of the process, and `char::is_alphanumeric`, which is that of
ASCII on ASCII characters. -/
structure Env where
  var : Str → Option Str
  isAlphanumeric : Char → Bool
  ascii : ∀ c, c.toNat < 128 → isAlphanumeric c = c.isAlphanum

/-- No variable is set. -/
def Env.bare : Env where
  var := fun _ => none
  isAlphanumeric := Char.isAlphanum
  ascii := fun _ _ => rfl

/-- `Tok` -/
inductive Tok
  | word (w : Str)
  | pipe
  | semi
  | amp
  | redir (r : Str)
  | newline
deriving DecidableEq

/-- Up to the character `stop`, which is consumed.  As the readers below it returns
what it has read and what is left; `none` if it ran off the end. -/
def readUntil (stop : Char) : Str → Str × Option Str
  | [] => ([], none)
  | c :: rest =>
      if c = stop then ([], some rest)
      else
        let (text, after) := readUntil stop rest
        (c :: text, after)

/-- A character of a variable's name. -/
def Env.nameChar (env : Env) (c : Char) : Bool := env.isAlphanumeric c || c = '_'

/-- The name after a `$`, in braces or not. -/
def readVarName (env : Env) : Str → Str × Option Str
  | '{' :: rest => readUntil '}' rest
  | rest => (rest.takeWhile env.nameChar, some (rest.dropWhile env.nameChar))

/-- A character of the target of a redirection. -/
def wordChar (c : Char) : Bool :=
  !(c = ' ' || c = '\t' || c = '\n' || c = ';' || c = '|' || c = '&')

/-- A word goes on up to a character that ends it. -/
def readWord (rest : Str) : Str × Str := (rest.takeWhile wordChar, rest.dropWhile wordChar)

/-- The blanks after a redirection. -/
def skipSpaces (rest : Str) : Str := rest.dropWhile (fun c => c = ' ' || c = '\t')

/-- A reader does not make the input longer. -/
theorem readUntil_length (stop : Char) (s : Str) :
    ((readUntil stop s).2.getD []).length ≤ s.length := by
  induction s with
  | nil => exact Nat.le_refl _
  | cons c rest ih =>
      rw [readUntil]
      split
      · exact Nat.le_succ _
      · exact Nat.le_succ_of_le ih

/-- Nor does leaving characters out. -/
theorem dropWhile_length (p : Char → Bool) (s : Str) : (s.dropWhile p).length ≤ s.length :=
  (List.dropWhile_sublist p).length_le

/-- Nor does reading a name. -/
theorem readVarName_length (env : Env) (s : Str) :
    ((readVarName env s).2.getD []).length ≤ s.length := by
  unfold readVarName
  split
  · exact Nat.le_succ_of_le (readUntil_length _ _)
  · exact dropWhile_length _ _

/-- The text of a double-quoted string. -/
def readQuoted (env : Env) : Str → Str × Option Str
  | [] => ([], none)
  | c :: rest =>
      if c = '"' then ([], some rest)
      else if c = '$' then
        let name := readVarName env rest
        let (text, after) := readQuoted env (name.2.getD [])
        ((env.var name.1).getD [] ++ text, after)
      else
        let (text, after) := readQuoted env rest
        (c :: text, after)
termination_by s => s.length
decreasing_by
  · exact Nat.lt_succ_of_le (readVarName_length env rest)
  · exact Nat.lt_succ_self _

/-- Nor reading a quotation. -/
theorem readQuoted_length (env : Env) (s : Str) :
    ((readQuoted env s).2.getD []).length ≤ s.length := by
  fun_induction readQuoted env s with
  | case1 => exact Nat.le_refl _
  | case2 => exact Nat.le_succ _
  | case3 rest name text after hrec hne ih =>
      rw [hrec] at ih
      exact Nat.le_succ_of_le (ih.trans (readVarName_length env rest))
  | case4 c rest hquote hdollar text after hrec ih =>
      rw [hrec] at ih
      exact Nat.le_succ_of_le ih

/-- What one round of the main loop does to the current word. -/
inductive Piece
  /-- the word ends, and a token may follow it -/
  | ends (tok : Option Tok)
  /-- the word goes on with `s` -/
  | text (s : Str)

/-- The target of a redirection, after the operator `redir`. -/
def readTarget (redir rest : Str) : Piece × Option Str :=
  let (file, after) := readWord (skipSpaces rest)
  (.ends (some (.redir (redir ++ file))), some after)

/-- What follows a `>`. -/
def readOut : Str → Piece × Option Str
  | '>' :: rest => readTarget ['>', '>'] rest
  | rest => readTarget ['>'] rest

/-- What follows a `$`: a variable that is not set stands for itself. -/
def readVar (env : Env) (rest : Str) : Piece × Option Str :=
  let (name, after) := readVarName env rest
  (.text ((env.var name).getD ('$' :: name)), after)

/-- A backslash before the end of the line is a continuation. -/
def readEscape : Str → Piece × Option Str
  | [] => (.text [], none)
  | '\n' :: after => (.text [], some after)
  | next :: after => (.text [next], some after)

/-- The round that begins with the character `ch`. -/
def readPiece (env : Env) (ch : Char) (rest : Str) : Piece × Option Str :=
  match ch with
  | ' ' | '\t' => (.ends none, some rest)
  | '\n' => (.ends (some .newline), some rest)
  | '|' => (.ends (some .pipe), some rest)
  | ';' => (.ends (some .semi), some rest)
  | '&' => (.ends (some .amp), some rest)
  | '\'' => (readUntil '\'' rest).map .text id
  | '"' => (readQuoted env rest).map .text id
  | '>' => readOut rest
  | '<' => readTarget ['<'] rest
  | '#' => (.ends none, (readUntil '\n' rest).2)
  | '$' => readVar env rest
  | '\\' => readEscape rest
  | c => (.text [c], some rest)

/-- The target of a redirection is read from the input. -/
theorem readTarget_length (redir rest : Str) :
    ((readTarget redir rest).2.getD []).length ≤ rest.length :=
  (dropWhile_length _ _).trans (dropWhile_length _ _)

/-- So it is behind a `>`. -/
theorem readOut_length (rest : Str) : ((readOut rest).2.getD []).length ≤ rest.length := by
  unfold readOut
  split
  · exact Nat.le_succ_of_le (readTarget_length _ _)
  · exact readTarget_length _ _

/-- The character after a backslash is. -/
theorem readEscape_length (rest : Str) : ((readEscape rest).2.getD []).length ≤ rest.length := by
  unfold readEscape
  split
  · exact Nat.le_refl _
  · exact Nat.le_succ _
  · exact Nat.le_succ _

/-- **A piece of the input** leaves less of it, which is why the loop ends. -/
theorem readPiece_length (env : Env) (ch : Char) (rest : Str) :
    ((readPiece env ch rest).2.getD []).length ≤ rest.length := by
  unfold readPiece
  split
  case h_7 => exact readUntil_length _ _
  case h_8 => exact readQuoted_length env rest
  case h_9 => exact readOut_length rest
  case h_10 => exact readTarget_length _ rest
  case h_11 => exact readUntil_length _ _
  case h_12 => exact readVarName_length env rest
  case h_13 => exact readEscape_length rest
  all_goals exact Nat.le_refl _

/-- `flush!` -/
def flush (word : Str) : List Tok := if word = [] then [] else [.word word]

/-- The tokens from here on, when `word` is the current word. -/
def scan (env : Env) (word : Str) : Str → List Tok
  | [] => flush word
  | ch :: rest =>
      let piece := readPiece env ch rest
      match piece.1 with
      | .ends tok => flush word ++ tok.toList ++ scan env [] (piece.2.getD [])
      | .text s => scan env (word ++ s) (piece.2.getD [])
termination_by input => input.length
decreasing_by all_goals exact Nat.lt_succ_of_le (readPiece_length env ch rest)

/-- `tokenise` -/
def tokenise (env : Env) (input : Str) : List Tok := scan env [] input

/-- What is open at the end of a string. -/
inductive Ending
  | complete
  /-- a comment -/
  | comment
  /-- a quoted string, the name of a variable in braces, or an escape -/
  | unclosed
deriving DecidableEq

/-- How the input ends, if it is read to the end. -/
def ending (env : Env) : Str → Ending
  | [] => .complete
  | ch :: rest =>
      match _h : (readPiece env ch rest).2 with
      | none => if ch = '#' then .comment else .unclosed
      | some after => ending env after
termination_by input => input.length
decreasing_by
  have hlength := readPiece_length env ch rest
  rw [_h] at hlength
  exact Nat.lt_succ_of_le hlength

end ShellParser
