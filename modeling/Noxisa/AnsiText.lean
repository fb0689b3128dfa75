import Mathlib.Data.List.Basic

/-!
# Text with escape sequences

What is left of a text when its ANSI escape sequences are deleted, and the outputs that a
terminal shows as a given text wherever they stand: plain text, a control sequence, and
one after the other.
-/

namespace Ansi

/-- A text, character by character. -/
abbrev Str := List Char

/-- The escape character. -/
def esc : Char := '\x1b'

/-- Where in a sequence a character is. -/
inductive Mode
  | text
  /-- after the escape character -/
  | escape
  /-- in a control sequence, before its final byte -/
  | control
deriving DecidableEq

/-- The bytes that end a control sequence. -/
def isFinal (c : Char) : Bool := 0x40 ≤ c.toNat && c.toNat ≤ 0x7E

/-- Deletes the escape sequences. -/
def strip : Mode → Str → Str
  | _, [] => []
  | .text, c :: s => if c = esc then strip .escape s else c :: strip .text s
  | .escape, c :: s => if c = '[' then strip .control s else strip .text s
  | .control, c :: s => if isFinal c then strip .text s else strip .control s

/-- What the terminal shows of a text. -/
def stripAnsi (s : Str) : Str := strip .text s

/-- The output shows as this text, whatever comes after it. -/
def Shows (out text : Str) : Prop := ∀ s, stripAnsi (out ++ s) = text ++ stripAnsi s

/-- An output alone shows its text. -/
theorem Shows.eq {out text : Str} (h : Shows out text) : stripAnsi out = text := by
  have hend : stripAnsi [] = [] := rfl
  simpa [hend] using h []

/-- Nothing shows as nothing. -/
theorem shows_nil : Shows [] [] := fun _ => rfl

/-- Outputs one after the other show their texts. -/
theorem Shows.append {out out' text text' : Str} (h : Shows out text) (h' : Shows out' text') :
    Shows (out ++ out') (text ++ text') := by
  intro s
  rw [List.append_assoc, h, h', List.append_assoc]

/-- Text without the escape character shows as it is. -/
theorem shows_plain {text : Str} (h : esc ∉ text) : Shows text text := by
  intro s
  induction text with
  | nil => rfl
  | cons c text ih =>
      have hc : c ≠ esc := fun heq => h (by rw [heq]; exact List.mem_cons_self)
      have htext : stripAnsi (text ++ s) = text ++ stripAnsi s :=
        ih fun hmem => h (List.mem_cons_of_mem c hmem)
      calc stripAnsi (c :: text ++ s)
          = c :: stripAnsi (text ++ s) := if_neg hc
        _ = c :: text ++ stripAnsi s := by rw [htext, List.cons_append]

/-- A control sequence does not show. -/
theorem shows_control {params : Str} {final : Char} (hparams : params.any isFinal = false)
    (hfinal : isFinal final = true) : Shows (esc :: '[' :: params ++ [final]) [] := by
  intro s
  have hrest : strip .control (params ++ final :: s) = stripAnsi s := by
    induction params with
    | nil => exact if_pos hfinal
    | cons c params ih =>
        obtain ⟨hc, hparams⟩ := Bool.or_eq_false_iff.mp (List.any_cons.symm.trans hparams)
        have hskip : ¬isFinal c = true := by rw [hc]; exact Bool.false_ne_true
        calc strip .control (c :: params ++ final :: s)
            = strip .control (params ++ final :: s) := if_neg hskip
          _ = stripAnsi s := ih hparams
  calc stripAnsi (esc :: '[' :: params ++ [final] ++ s)
      = strip .control (params ++ [final] ++ s) := rfl
    _ = [] ++ stripAnsi s := by
        rw [List.append_assoc, List.singleton_append, hrest, List.nil_append]

end Ansi
