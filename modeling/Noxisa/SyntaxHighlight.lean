import Noxisa.AnsiText
import Noxisa.Utf8Slices

/-!
# Highlighting the line

One pass over the characters of the line.  Word characters collect in a token, which is
written out, in the colour of what it is, when something else comes; strings, variables,
operators and comments are written at once.  All that is added is control sequences.
-/

namespace SyntaxHighlight

open Ansi Utf8

/-- `RESET` and the other styles of the source. -/
def reset : Str := "\x1b[0m".toList
def bold : Str := "\x1b[1m".toList
def fgCyan : Str := "\x1b[36m".toList
def fgGrn : Str := "\x1b[32m".toList
def fgYel : Str := "\x1b[33m".toList
def fgRed : Str := "\x1b[31m".toList
def fgMag : Str := "\x1b[35m".toList
def fgGray : Str := "\x1b[90m".toList

/-- The keywords of the shell. -/
def kws : List Str := List.map String.toList
  ["if", "then", "else", "fi", "for", "do", "done", "while",
    "case", "esac", "function", "in", "select", "until"]

/-- The built-in commands. -/
def blt : List Str := List.map String.toList
  ["echo", "cd", "export", "source", "alias", "unalias",
    "set", "unset", "read", "exec", "eval", "exit",
    "return", "shift", "type", "which"]

/-- The exponent of a number, or nothing. -/
def isExponent : Str → Bool
  | [] => true
  | c :: s =>
      let digits := match s with
        | '+' :: digits | '-' :: digits => digits
        | digits => digits
      (c = 'e' || c = 'E') && digits ≠ [] && digits.all Char.isDigit

/-- What `parse::<f64>` accepts of the words that begin with a digit: digits with a
point among them or not, and an exponent. -/
def isNumber (s : Str) : Bool :=
  let whole := s.takeWhile Char.isDigit
  match s.dropWhile Char.isDigit with
  | '.' :: rest =>
      (whole ≠ [] || rest.takeWhile Char.isDigit ≠ []) && isExponent (rest.dropWhile Char.isDigit)
  | rest => whole ≠ [] && isExponent rest

/-- `s.parse::<f64>().is_ok()` -/
def parsesAsF64 (s : Str) : Bool :=
  let s := match s with
    | '+' :: s | '-' :: s => s
    | s => s
  (s.map Char.toLower) ∈ ["inf".toList, "infinity".toList, "nan".toList] || isNumber s

/-- The output so far, the pending token, and whether a command comes next. -/
structure Pen where
  out : Str := []
  tok : Str := []
  first : Bool := true
deriving DecidableEq

/-- A token in its colour. -/
def paint (first : Bool) (tok : Str) : Str :=
  if tok ∈ kws then bold ++ fgYel ++ tok ++ reset
  else if first ∧ tok ∈ blt then bold ++ fgGrn ++ tok ++ reset
  else if first then bold ++ tok ++ reset
  else if tok.head? = some '-' then fgCyan ++ tok ++ reset
  else if parsesAsF64 tok then fgMag ++ tok ++ reset
  else tok

/-- `flush_tok!` -/
def Pen.flush (pen : Pen) : Pen :=
  if pen.tok = [] then pen
  else { out := pen.out ++ paint pen.first pen.tok, tok := [], first := false }

/-- `out.push_str` -/
def Pen.draw (pen : Pen) (s : Str) : Pen := { pen with out := pen.out ++ s }

/-- The characters up to the first `stop`, with it, and what is left. -/
def takeThrough (stop : Char) : Str → Str × Str
  | [] => ([], [])
  | c :: rest =>
      if c = stop then ([c], rest)
      else
        let (taken, rest) := takeThrough stop rest
        (c :: taken, rest)

/-- A character of a variable's name. -/
def nameChar (u : Unicode) (c : Char) : Bool := u.isAlphanumeric c || c = '_'

/-- One round of the loop, comments apart. -/
def read (u : Unicode) (pen : Pen) (ch : Char) (rest : Str) : Pen × Str :=
  match ch with
  | '"' =>
      let (s, rest) := takeThrough '"' rest
      (pen.flush.draw (fgYel ++ (ch :: s) ++ reset), rest)
  | '\'' =>
      let (s, rest) := takeThrough '\'' rest
      (pen.flush.draw (fgYel ++ (ch :: s) ++ reset), rest)
  | '$' =>
      let var := '$' :: rest.takeWhile (nameChar u)
      (pen.flush.draw (fgMag ++ var ++ reset), rest.dropWhile (nameChar u))
  | '|' | '>' | '<' | ';' | '&' =>
      ({ pen.flush.draw (fgRed ++ [ch] ++ reset) with first := true }, rest)
  | ' ' | '\t' => (pen.flush.draw [ch], rest)
  | _ => ({ pen with tok := pen.tok ++ [ch] }, rest)

/-- Cutting a text behind a character loses nothing of it. -/
theorem takeThrough_append (stop : Char) (s : Str) :
    (takeThrough stop s).1 ++ (takeThrough stop s).2 = s := by
  induction s with
  | nil => rfl
  | cons c rest ih =>
      rw [takeThrough]
      split
      · rfl
      · exact congrArg (c :: ·) ih

/-- What is read is some first characters of the line. -/
theorem read_length (u : Unicode) (pen : Pen) (ch : Char) (rest : Str) :
    (read u pen ch rest).2.length ≤ rest.length := by
  have hthrough : ∀ stop, (takeThrough stop rest).2.length ≤ rest.length := by
    intro stop
    have hlen := congrArg List.length (takeThrough_append stop rest)
    rw [List.length_append] at hlen
    omega
  unfold read
  split
  · exact hthrough '"'
  · exact hthrough '\''
  · exact (List.dropWhile_sublist _).length_le
  all_goals exact Nat.le_refl _

/-- The output for the line from here on. -/
def highlight (u : Unicode) (pen : Pen) : Str → Str
  | [] => pen.flush.out
  | ch :: rest =>
      if ch = '#' then (pen.flush.draw (fgGray ++ (ch :: rest) ++ reset)).out
      else highlight u (read u pen ch rest).1 (read u pen ch rest).2
termination_by line => line.length
decreasing_by exact Nat.lt_succ_of_le (read_length u pen ch rest)

/-- `syntax_highlight` -/
def syntaxHighlight (u : Unicode) (line : Str) : Str := highlight u {} line

/-- A style shows nothing. -/
theorem shows_colour {style : Str} (n : Str) (hstyle : style = esc :: '[' :: n ++ ['m'])
    (hn : n.any isFinal = false) : Shows style [] := by
  rw [hstyle]
  exact shows_control hn (by decide)

/-- The colours the highlighter writes show nothing. -/
theorem shows_bold : Shows bold [] := shows_colour ['1'] (by decide +kernel) (by decide)
theorem shows_cyan : Shows fgCyan [] := shows_colour ['3', '6'] (by decide +kernel) (by decide)
theorem shows_grn : Shows fgGrn [] := shows_colour ['3', '2'] (by decide +kernel) (by decide)
theorem shows_yel : Shows fgYel [] := shows_colour ['3', '3'] (by decide +kernel) (by decide)
theorem shows_red : Shows fgRed [] := shows_colour ['3', '1'] (by decide +kernel) (by decide)
theorem shows_mag : Shows fgMag [] := shows_colour ['3', '5'] (by decide +kernel) (by decide)
theorem shows_gray : Shows fgGray [] := shows_colour ['9', '0'] (by decide +kernel) (by decide)
theorem shows_reset : Shows reset [] := shows_colour ['0'] (by decide +kernel) (by decide)

/-- A text between a style and the reset shows as itself. -/
theorem shows_styled {style text : Str} (hstyle : Shows style []) (htext : esc ∉ text) :
    Shows (style ++ text ++ reset) text := by
  have hshows := (hstyle.append (shows_plain htext)).append shows_reset
  rwa [List.nil_append, List.append_nil] at hshows

/-- A word in any style shows itself. -/
theorem shows_paint (first : Bool) {tok : Str} (h : esc ∉ tok) : Shows (paint first tok) tok := by
  rw [paint]
  split_ifs
  · exact shows_styled (shows_bold.append shows_yel) h
  · exact shows_styled (shows_bold.append shows_grn) h
  · exact shows_styled shows_bold h
  · exact shows_styled shows_cyan h
  · exact shows_styled shows_mag h
  · exact shows_plain h

/-- The output and the pending token together are this text. -/
structure Wrote (pen : Pen) (text : Str) : Prop where
  shown : ∃ t, Shows pen.out t ∧ t ++ pen.tok = text
  plain : esc ∉ pen.tok

section
variable {u : Unicode} {pen : Pen} {text : Str}

/-- Flushing the word that is being read puts it out. -/
theorem Wrote.flush (h : Wrote pen text) : Shows pen.flush.out text ∧ pen.flush.tok = [] := by
  obtain ⟨⟨t, hout, rfl⟩, hplain⟩ := h
  rw [Pen.flush]
  split
  · next htok => exact ⟨by rw [htok, List.append_nil]; exact hout, htok⟩
  · exact ⟨hout.append (shows_paint pen.first hplain), rfl⟩

/-- After a flush, a drawing adds what it shows. -/
theorem Wrote.draw (h : Wrote pen text) {s t : Str} (hs : Shows s t) (first : Bool) :
    Wrote { pen.flush.draw s with first } (text ++ t) := by
  obtain ⟨hout, htok⟩ := h.flush
  constructor
  · exact ⟨text ++ t, hout.append hs, by rw [Pen.draw, htok, List.append_nil]⟩
  · rw [Pen.draw, htok]
    exact List.not_mem_nil

/-- One round writes what it reads. -/
theorem Wrote.reading (h : Wrote pen text) {ch : Char} {rest : Str} (hesc : esc ∉ ch :: rest) :
    ∃ taken, ch :: rest = taken ++ (read u pen ch rest).2 ∧
      Wrote (read u pen ch rest).1 (text ++ taken) := by
  obtain ⟨hch, hrest⟩ : esc ≠ ch ∧ esc ∉ rest := by rwa [List.mem_cons, not_or] at hesc
  -- a piece of the line that is drawn in one style
  have hstyled : ∀ {style piece after : Str}, Shows style [] → ch :: rest = piece ++ after →
      ∀ first, Wrote { pen.flush.draw (style ++ piece ++ reset) with first } (text ++ piece) := by
    intro style piece after hstyle hpiece first
    refine h.draw (shows_styled hstyle fun hmem => hesc ?_) first
    rw [hpiece]
    exact List.mem_append_left after hmem
  have hquoted : ∀ stop,
      ch :: rest = (ch :: (takeThrough stop rest).1) ++ (takeThrough stop rest).2 := fun stop => by
    rw [List.cons_append, takeThrough_append]
  unfold read
  split
  · exact ⟨_, hquoted '"', hstyled shows_yel (hquoted '"') _⟩
  · exact ⟨_, hquoted '\'', hstyled shows_yel (hquoted '\'') _⟩
  · have hvar : '$' :: rest =
        ('$' :: rest.takeWhile (nameChar u)) ++ rest.dropWhile (nameChar u) := by
      rw [List.cons_append, List.takeWhile_append_dropWhile]
    exact ⟨_, hvar, hstyled shows_mag hvar _⟩
  case h_9 | h_10 =>
    refine ⟨[_], rfl, h.draw (shows_plain fun hmem => hch ?_) _⟩
    exact List.mem_singleton.mp hmem
  case h_11 =>
    obtain ⟨⟨t, hout, rfl⟩, hplain⟩ := h
    refine ⟨[ch], rfl, ⟨t, hout, (List.append_assoc ..).symm⟩, ?_⟩
    rw [List.mem_append, not_or]
    exact ⟨hplain, fun hmem => hch (List.mem_singleton.mp hmem)⟩
  all_goals exact ⟨[_], rfl, hstyled shows_red rfl true⟩

/-- **The rest of the line** is shown behind what has been shown, whatever state the
loop is in. -/
theorem Wrote.highlighted {line : Str} (h : Wrote pen text) (hesc : esc ∉ line) :
    stripAnsi (highlight u pen line) = text ++ line := by
  fun_induction highlight u pen line generalizing text with
  | case1 pen =>
      rw [List.append_nil]
      exact h.flush.1.eq
  | case2 pen rest =>
      have hcomment : Shows (fgGray ++ ('#' :: rest) ++ reset) ('#' :: rest) :=
        shows_styled shows_gray hesc
      exact (h.flush.1.append hcomment).eq
  | case3 pen ch rest _ ih =>
      obtain ⟨taken, hread, hwrote⟩ := Wrote.reading (u := u) h hesc
      have hleft : esc ∉ (read u pen ch rest).2 := fun hmem =>
        hesc (by rw [hread]; exact List.mem_append_right taken hmem)
      calc stripAnsi (highlight u (read u pen ch rest).1 (read u pen ch rest).2)
          = text ++ taken ++ (read u pen ch rest).2 := ih hwrote hleft
        _ = text ++ (ch :: rest) := by rw [List.append_assoc, ← hread]

end

/-- Highlighting a line without the escape character adds nothing but escape sequences. -/
theorem highlight_shows_line (u : Unicode) {line : Str} (h : esc ∉ line) :
    stripAnsi (syntaxHighlight u line) = line := by
  have hempty : Wrote {} [] := ⟨⟨[], shows_nil, rfl⟩, List.not_mem_nil⟩
  exact hempty.highlighted h

/-- A line with most of what the loop tells apart. -/
theorem highlight_shows_echo :
    stripAnsi (syntaxHighlight .ascii "echo \"$HOME -l | wc # 1".toList) =
      "echo \"$HOME -l | wc # 1".toList :=
  highlight_shows_line .ascii (by decide +kernel)

-- A command, and a quote that is not closed.
example : syntaxHighlight .ascii "ls 'a".toList =
    "\x1b[1mls\x1b[0m \x1b[33m'a\x1b[0m".toList := by decide +kernel

end SyntaxHighlight
