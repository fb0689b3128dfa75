import Noxisa.Utf8Slices

/-!
# The line editor of the shell

`Shell.handle` takes one key.  What the history and the completion engine answer
is up to the `World` the key finds.  A step that would be out of range stops the
shell: the kinds of `Panic` tell an operation of the editor itself from the
slicing of a completion and from a panic inside the engine.
-/

namespace LineEditor

open Utf8

/-- A Rust `String`, by its characters. -/
abbrev Str := List Char

/-- Where the editor can panic: in its own indexing, in the slice of a completion's
text, or inside the engine it asks. -/
inductive Panic
  /-- an index, a range or a subtraction of the editor -/
  | range
  /-- the slice of the text of a completion -/
  | completion
  | engine
deriving DecidableEq

/-- What the editor asks: the history and the engine. They can answer anything. -/
structure World where
  /-- the entries of the history, oldest first -/
  history : List Str
  /-- the texts of `ai.complete`: none if it panics, `some none` on an error -/
  complete : Str → Option (Option (List Str))
  /-- the first suggestion of `ai.next_word`, if its score is above 0.60 -/
  nextWord : Str → Option (Option Str)

/-- The fields of `Shell` that a key press reads or writes. -/
structure Shell where
  buf : Str := []
  cursor : Nat := 0
  ghost : Option Str := none
  histIdx : Option Nat := none
  histSaved : Str := []
deriving DecidableEq

/-- `Key` -/
inductive Key
  | char (c : Char)
  | tab | enter | backspace
  | up | down | left | right
  | ctrlA | ctrlC | ctrlD | ctrlE | ctrlK | ctrlL | ctrlR | ctrlU | ctrlW
  | altB | altF
  | unknown

/-- `Action` -/
inductive Action
  | proceed | execute | quit

/-- `buf.insert(i, c)` -/
def insert (buf : Str) (i : Nat) (c : Char) : Except Panic Str :=
  if i ≤ buf.length then .ok (buf.insertIdx i c) else .error .range

/-- `buf.insert(pos + i, ch)` for each character `ch` of a text, at its place `i` -/
def insertAll (buf : Str) (pos : Nat) : Str → Except Panic Str
  | [] => .ok buf
  | ch :: text => do insertAll (← insert buf pos ch) (pos + 1) text

/-- `buf.remove(i)` -/
def remove (buf : Str) (i : Nat) : Except Panic Str :=
  if i < buf.length then .ok (buf.eraseIdx i) else .error .range

/-- `buf.drain(start..end)` -/
def drain (buf : Str) (start stop : Nat) : Except Panic Str :=
  if start ≤ stop ∧ stop ≤ buf.length then .ok (buf.take start ++ buf.drop stop)
  else .error .range

/-- Move back over the characters that satisfy `p`. -/
def skipBack (p : Char → Bool) (buf : Str) : Nat → Except Panic Nat
  | 0 => .ok 0
  | i + 1 =>
      match buf[i]? with
      | none => .error .range
      | some ch => if p ch then skipBack p buf i else .ok (i + 1)

/-- Move on over the characters that satisfy `p`. -/
def skipForward (p : Char → Bool) (buf : Str) (i : Nat) : Except Panic Nat :=
  if i < buf.length then
    match buf[i]? with
    | none => .error .range
    | some ch => if p ch then skipForward p buf (i + 1) else .ok i
  else .ok i
termination_by buf.length - i

/-- A slice of the editor's own text. -/
def sliced (slice : Option Str) : Except Panic Str :=
  match slice with
  | none => .error .range
  | some text => .ok text

/-- A ghost text that is empty is none. -/
def nonempty (ghost : Str) : Option Str := if ghost = [] then none else some ghost

/-- The bytes after the last character that is not alphanumeric, `_`, `:` or `.`. -/
def currentTokenLen (u : Unicode) (line : Str) : Nat :=
  match rfind (fun c => !u.isAlphanumeric c && c != '_' && c != ':' && c != '.') line with
  | none => 0
  | some i => String.utf8Len line - i - 1

namespace Shell

variable (u : Unicode) (w : World)

/-- How far the cursor is moved back. -/
def renderLine (s : Shell) : Except Panic Nat :=
  if s.cursor ≤ s.buf.length then .ok (s.buf.length - s.cursor) else .error .range

/-- `set_line`: the line is replaced, the cursor at its end. -/
def setLine (s : Shell) (line : Str) : Except Panic Shell := do
  let s := { s with buf := line, cursor := line.length }
  let _ ← s.renderLine
  return s

/-- The fields after a line has been executed. -/
def reset (s : Shell) : Shell := { s with buf := [], cursor := 0, ghost := none, histIdx := none }

/-- Insert `text` at the cursor and go past it. -/
def insertText (s : Shell) (text : Str) : Except Panic Shell := do
  let buf ← insertAll s.buf s.cursor text
  return { s with buf := buf, cursor := s.cursor + text.length }

/-- `accept_ghost`: the ghost text is typed. -/
def acceptGhost (s : Shell) (ghost : Str) : Except Panic Shell := s.insertText ghost

/-- `do_tab_complete`: only one completion is inserted, and of that what follows the
token. -/
def doTabComplete (s : Shell) : Except Panic Shell :=
  match w.complete s.buf with
  | none => .error .engine
  | some (some [text]) =>
      match sliceFrom text (currentTokenLen u s.buf) with
      | none => .error .completion
      | some rest => s.insertText rest
  | some _ => .ok s

/-- `request_ghost`: not for a line of white space. -/
def requestGhost (s : Shell) : Except Panic Shell :=
  if s.buf.all u.isWhitespace then .ok s
  else
    match w.nextWord s.buf with
    | none => .error .engine
    | some none => .ok s
    | some (some word) => .ok { s with ghost := some (' ' :: word) }

/-- Accept one word of the ghost text. -/
def acceptWord (s : Shell) (ghost : Str) : Except Panic Shell := do
  let stop := ((find (· = ' ') ghost).map (· + 1)).getD (String.utf8Len ghost)
  let word ← sliced (sliceTo ghost stop)
  let s ← s.insertText word
  let rest ← sliced (sliceFrom ghost stop)
  return { s with ghost := nonempty rest }

/-- `type_char`: a key that the ghost text begins with leaves the rest of it; any other
one makes a new request. -/
def typeChar (s : Shell) (c : Char) : Except Panic Shell :=
  match s.ghost with
  | some (g :: ghost) =>
      if g = c then do
        let rest ← sliced (sliceFrom (g :: ghost) c.utf8Size)
        let buf ← insert s.buf s.cursor c
        let s := { s with buf := buf, cursor := s.cursor + 1, ghost := nonempty rest }
        let _ ← s.renderLine
        return s
      else typeNew s
  | _ => typeNew s
where
  typeNew (s : Shell) : Except Panic Shell := do
    let buf ← insert s.buf s.cursor c
    let s ← requestGhost u w { s with buf := buf, cursor := s.cursor + 1, ghost := none }
    let _ ← s.renderLine
    return s

/-- `delete_word`: white space and then a word, backwards. -/
def deleteWord (s : Shell) : Except Panic Shell := do
  let cursor ← skipBack u.isWhitespace s.buf s.cursor
  let cursor ← skipBack (fun ch => !u.isWhitespace ch) s.buf cursor
  let buf ← drain s.buf cursor s.cursor
  return { s with buf := buf, cursor := cursor }

/-- `move_word`, in the direction of the sign. -/
def moveWord (s : Shell) (dir : Int) : Except Panic Shell :=
  if dir > 0 then do
    let cursor ← skipForward (fun ch => !u.isAlphanumeric ch) s.buf s.cursor
    let cursor ← skipForward u.isAlphanumeric s.buf cursor
    return { s with cursor := cursor }
  else if s.cursor = 0 then .ok s
  else do
    let cursor ← skipBack (fun ch => !u.isAlphanumeric ch) s.buf (s.cursor - 1)
    let cursor ← skipBack u.isAlphanumeric s.buf cursor
    return { s with cursor := cursor }

/-- `hist_prev`: the line that is being edited is put aside the first time; the index
stops at 0. -/
def histPrev (s : Shell) : Except Panic Shell :=
  let hist := w.history
  if hist.length = 0 then .ok s
  else
    let saved := if s.histIdx.isNone then s.buf else s.histSaved
    let newIdx := (s.histIdx.map (· - 1)).getD (hist.length - 1)
    let s := { s with histSaved := saved, histIdx := some newIdx }
    match hist[newIdx]? with
    | some e => s.setLine e
    | none => .ok s

/-- `hist_next`: past the last entry the line that was put aside comes back. -/
def histNext (s : Shell) : Except Panic Shell :=
  match s.histIdx with
  | none => .ok s
  | some idx =>
      if idx + 1 ≥ w.history.length then { s with histIdx := none }.setLine s.histSaved
      else
        let s := { s with histIdx := some (idx + 1) }
        match w.history[idx + 1]? with
        | some e => s.setLine e
        | none => .ok s

/-- `History::search`: the entries that contain `query`, letter case aside -/
def searchHits (query : Str) : List Nat :=
  (w.history.zipIdx.filter fun e => u.toLowercase query <:+: u.toLowercase e.1).map Prod.snd

/-- `search_history`: the last hit. -/
def searchHistory (s : Shell) : Except Panic Shell :=
  match (searchHits u w s.buf).getLast? with
  | none => .ok s
  | some last =>
      match w.history[last]? with
      | some e => s.setLine e
      | none => .ok s

/-- `backspace` -/
def backspace (s : Shell) : Except Panic Shell :=
  let s := { s with ghost := none }
  if s.cursor > 0 then do
    let buf ← remove s.buf (s.cursor - 1)
    let s := { s with buf := buf, cursor := s.cursor - 1 }
    let _ ← s.renderLine
    return s
  else .ok s

/-- The shell after a key that goes on with the line. -/
def edit (s : Shell) : Key → Except Panic Shell
  | .tab =>
      match s.ghost with
      | some ghost => { s with ghost := none }.acceptGhost ghost
      | none => s.doTabComplete u w
  | .right =>
      if s.cursor < s.buf.length then .ok { s with cursor := s.cursor + 1 }
      else
        match s.ghost with
        | some ghost => { s with ghost := none }.acceptWord ghost
        | none => .ok s
  | .char c => s.typeChar u w c
  | .backspace => s.backspace
  | .ctrlC => .ok s.reset
  | .ctrlD => do
      let s := s.reset
      let _ ← s.renderLine
      return s
  | .up => s.histPrev w
  | .down => s.histNext w
  | .left => .ok { s with cursor := s.cursor - 1 }
  | .ctrlA => .ok { s with cursor := 0 }
  | .ctrlE => .ok { s with cursor := s.buf.length }
  | .ctrlK => .ok { s with buf := s.buf.take s.cursor }
  | .ctrlU => do
      let buf ← drain s.buf 0 s.cursor
      return { s with buf := buf, cursor := 0 }
  | .ctrlW => s.deleteWord u
  | .ctrlR => s.searchHistory u w
  | .altB => s.moveWord u (-1)
  | .altF => s.moveWord u 1
  | .enter | .ctrlL | .unknown => .ok s

/-- `handle`: what a key does, and whether the loop goes on. -/
def handle (s : Shell) (key : Key) : Except Panic (Shell × Action) :=
  match key with
  | .enter => .ok (s, .execute)
  | .ctrlD => if s.buf = [] then .ok (s, .quit) else (s.edit u w .ctrlD).map (·, .proceed)
  | key => (s.edit u w key).map (·, .proceed)

/-- The loop of `run`, for the keys that are read and the worlds they find. -/
def run (s : Shell) : List (World × Key) → Except Panic Shell
  | [] => do
      let _ ← s.renderLine
      return s
  | (w, key) :: keys => do
      let _ ← s.renderLine
      let (s, action) ← s.handle u w key
      match action with
      | .proceed => run s keys
      | .execute => run s.reset keys
      | .quit => return s

end Shell

/-- The result satisfies `P`, or the panic is not one of the editor's own. -/
def Safe {α : Type} (r : Except Panic α) (P : α → Prop) : Prop :=
  match r with
  | .ok a => P a
  | .error panic => panic ≠ .range

namespace Safe

variable {α β : Type} {P : α → Prop} {Q : β → Prop} {r : Except Panic α}

/-- Panic-freedom step by step. -/
theorem bind {f : α → Except Panic β} (h : Safe r P) (hf : ∀ a, P a → Safe (f a) Q) :
    Safe (r >>= f) Q := by
  cases r with
  | ok a => exact hf a h
  | error panic => exact h

/-- What holds of a result, made weaker. -/
theorem mono {P' : α → Prop} (h : Safe r P) (hP : ∀ a, P a → P' a) : Safe r P' := by
  cases r with
  | ok a => exact hP a h
  | error panic => exact h

/-- A result that is mapped. -/
theorem map {f : α → β} (h : Safe r P) (hf : ∀ a, P a → Q (f a)) : Safe (r.map f) Q := by
  cases r with
  | ok a => exact hf a h
  | error panic => exact h

/-- What is safe does not panic in the editor itself. -/
private theorem ne_range (h : Safe r P) : r ≠ .error .range := by
  rintro rfl
  exact h rfl

end Safe

/-- `Vec::insert` at a position in the line or right behind it. -/
theorem insert_safe {buf : Str} {i : Nat} (c : Char) (h : i ≤ buf.length) :
    Safe (insert buf i c) (fun buf' => buf'.length = buf.length + 1) := by
  unfold insert
  rw [if_pos h]
  exact List.length_insertIdx_of_le_length h c

/-- A text inserted there, character by character. -/
theorem insertAll_safe {buf : Str} {pos : Nat} (text : Str) (h : pos ≤ buf.length) :
    Safe (insertAll buf pos text) (fun buf' => buf'.length = buf.length + text.length) := by
  induction text generalizing buf pos with
  | nil => rfl
  | cons ch text ih =>
      refine (insert_safe ch h).bind fun buf' hbuf' => ?_
      have hnext : Safe (insertAll buf' (pos + 1) text)
          (fun b => b.length = buf'.length + text.length) := ih (by omega)
      rw [hbuf'] at hnext
      rw [List.length_cons, ← Nat.add_assoc, Nat.add_right_comm]
      exact hnext

/-- `Vec::remove` in the line. -/
theorem remove_safe {buf : Str} {i : Nat} (h : i < buf.length) :
    Safe (remove buf i) (fun buf' => buf'.length = buf.length - 1) := by
  unfold remove
  rw [if_pos h]
  exact List.length_eraseIdx_of_lt h

/-- `drain` of a part of the line. -/
theorem drain_safe {buf : Str} {start stop : Nat} (h : start ≤ stop) (hstop : stop ≤ buf.length) :
    Safe (drain buf start stop) (fun buf' => start ≤ buf'.length) := by
  unfold drain
  rw [if_pos ⟨h, hstop⟩]
  change start ≤ (buf.take start ++ buf.drop stop).length
  rw [List.length_append, List.length_take_of_le (h.trans hstop)]
  exact Nat.le_add_right _ _

/-- Going backwards ends at or before where it started. -/
theorem skipBack_safe (p : Char → Bool) {buf : Str} {i : Nat} (h : i ≤ buf.length) :
    Safe (skipBack p buf i) (· ≤ i) := by
  induction i with
  | zero => exact Nat.le_refl 0
  | succ i ih =>
      rw [skipBack, List.getElem?_eq_getElem h]
      dsimp only
      split
      · exact (ih (Nat.le_of_succ_le h)).mono fun _ hj => Nat.le_succ_of_le hj
      · exact Nat.le_refl _

/-- Going forwards ends in the line. -/
theorem skipForward_safe (p : Char → Bool) {buf : Str} {i : Nat} (h : i ≤ buf.length) :
    Safe (skipForward p buf i) (· ≤ buf.length) := by
  fun_induction skipForward p buf i with
  | case1 i hlt hnone =>
      rw [List.getElem?_eq_getElem hlt] at hnone
      cases hnone
  | case2 i hlt ch hch hp ih => exact ih hlt
  | case3 i hlt ch hch hp => exact h
  | case4 i hge => exact h

namespace Shell

variable {u : Unicode} {w : World} {s : Shell}

/-- The cursor is in the line or at its end. -/
def InLine (s : Shell) : Prop := s.cursor ≤ s.buf.length

/-- Rendering slices the line at the cursor, which is inside it. -/
theorem renderLine_safe (h : s.InLine) : Safe s.renderLine (fun _ => True) := by
  have hcursor : s.cursor ≤ s.buf.length := h
  unfold renderLine
  rw [if_pos hcursor]
  trivial

/-- A line with the cursor inside it is rendered and is as it was. -/
theorem rendered_safe (h : s.InLine) :
    Safe (do let _ ← s.renderLine; return s) InLine :=
  (renderLine_safe h).bind fun _ _ => h

/-- `set_line` puts the cursor at the end, whatever the line. -/
theorem setLine_safe (s : Shell) (line : Str) : Safe (s.setLine line) InLine :=
  rendered_safe (Nat.le_refl _)

/-- A text inserted at the cursor moves it along. -/
theorem insertText_safe (h : s.InLine) (text : Str) : Safe (s.insertText text) InLine := by
  refine (insertAll_safe text h).bind fun buf hbuf => ?_
  change s.cursor + text.length ≤ buf.length
  rw [hbuf]
  exact Nat.add_le_add_right h _

/-- A completion inserts a text or nothing. -/
theorem doTabComplete_safe (h : s.InLine) : Safe (s.doTabComplete u w) InLine := by
  unfold doTabComplete
  split
  · exact nofun
  · split
    · exact nofun
    · exact insertText_safe h _
  · exact h

/-- A ghost text does not touch the line. -/
theorem requestGhost_safe (h : s.InLine) : Safe (s.requestGhost u w) InLine := by
  unfold requestGhost
  split
  · exact h
  · split
    · exact nofun
    · exact h
    · exact h

/-- A ghost text can be cut after its first space. -/
theorem acceptWord_safe (h : s.InLine) (ghost : Str) : Safe (s.acceptWord ghost) InLine := by
  obtain ⟨word, rest, hghost, hstop⟩ : ∃ word rest, ghost = word ++ rest ∧
      ((find (· = ' ') ghost).map (· + 1)).getD (String.utf8Len ghost) = String.utf8Len word := by
    cases hfind : find (· = ' ') ghost with
    | none => exact ⟨ghost, [], (List.append_nil _).symm, rfl⟩
    | some i =>
        obtain ⟨a, c, b, rfl, hc, rfl⟩ := find_eq_some hfind
        cases of_decide_eq_true hc
        exact ⟨a ++ [' '], b, by simp, by simp; rfl⟩
  unfold acceptWord
  dsimp only
  rw [hstop, hghost, sliceTo_append, sliceFrom_append]
  exact (insertText_safe h word).bind fun s' hs' => hs'

/-- A character typed at the cursor. -/
theorem typeNew_safe (h : s.InLine) (c : Char) : Safe (typeChar.typeNew u w c s) InLine := by
  refine (insert_safe c h).bind fun buf hbuf => ?_
  have hcursor : InLine { s with buf := buf, cursor := s.cursor + 1, ghost := none } := by
    change s.cursor + 1 ≤ buf.length
    rw [hbuf]
    exact Nat.succ_le_succ h
  exact (requestGhost_safe hcursor).bind fun s' hs' => rendered_safe hs'

/-- Either way a character is inserted at the cursor. -/
theorem typeChar_safe (h : s.InLine) (c : Char) : Safe (s.typeChar u w c) InLine := by
  unfold typeChar
  split
  next g ghost _ =>
    split
    next heq =>
      subst heq
      have hslice : sliceFrom (g :: ghost) g.utf8Size = some ghost :=
        sliceFrom_eq_some.mpr ⟨[g], rfl, by simp⟩
      rw [hslice]
      refine (insert_safe g h).bind fun buf hbuf => rendered_safe ?_
      change s.cursor + 1 ≤ buf.length
      rw [hbuf]
      exact Nat.succ_le_succ h
    next => exact typeNew_safe h c
  next => exact typeNew_safe h c

/-- The cursor goes back to where the word began. -/
theorem deleteWord_safe (h : s.InLine) : Safe (s.deleteWord u) InLine := by
  refine (skipBack_safe _ h).bind fun i hi => ?_
  refine (skipBack_safe _ (hi.trans h)).bind fun j hj => ?_
  exact (drain_safe (hj.trans hi) h).bind fun buf hbuf => hbuf

/-- The cursor stays in the line in both directions. -/
theorem moveWord_safe (h : s.InLine) (dir : Int) : Safe (s.moveWord u dir) InLine := by
  unfold moveWord
  split
  · refine (skipForward_safe _ h).bind fun i hi => ?_
    exact (skipForward_safe _ hi).bind fun j hj => hj
  · split
    · exact h
    · have hback : s.cursor - 1 ≤ s.buf.length := (Nat.sub_le _ _).trans h
      refine (skipBack_safe _ hback).bind fun i hi => ?_
      exact (skipBack_safe _ (hi.trans hback)).bind fun j hj => hj.trans (hi.trans hback)

/-- The history only replaces the line. -/
theorem histPrev_safe (h : s.InLine) : Safe (s.histPrev w) InLine := by
  unfold histPrev
  dsimp only
  split
  · exact h
  · split
    · exact setLine_safe _ _
    · exact h

/-- Forwards in the history as well, and back to the line put aside. -/
theorem histNext_safe (h : s.InLine) : Safe (s.histNext w) InLine := by
  unfold histNext
  split
  · exact h
  · split
    · exact setLine_safe _ _
    · dsimp only
      split
      · exact setLine_safe _ _
      · exact h

/-- A hit replaces the line, no hit leaves it. -/
theorem searchHistory_safe (h : s.InLine) : Safe (s.searchHistory u w) InLine := by
  unfold searchHistory
  split
  · exact h
  · split
    · exact setLine_safe _ _
    · exact h

/-- The character before the cursor is there if the cursor is not at 0. -/
theorem backspace_safe (h : s.InLine) : Safe s.backspace InLine := by
  unfold backspace
  dsimp only
  split
  next hpos =>
    have hlt : s.cursor - 1 < s.buf.length := lt_of_lt_of_le (Nat.sub_lt hpos one_pos) h
    refine (remove_safe hlt).bind fun buf hbuf => rendered_safe ?_
    change s.cursor - 1 ≤ buf.length
    rw [hbuf]
    exact Nat.sub_le_sub_right h 1
  next => exact h

/-- Every key keeps the cursor in the line. -/
theorem edit_safe (h : s.InLine) (key : Key) : Safe (s.edit u w key) InLine := by
  cases key with
  | tab =>
      rw [edit]
      split
      next ghost _ => exact insertText_safe (s := { s with ghost := none }) h ghost
      next => exact doTabComplete_safe h
  | right =>
      rw [edit]
      split
      next hlt => exact hlt
      next =>
        split
        next ghost _ => exact acceptWord_safe (s := { s with ghost := none }) h ghost
        next => exact h
  | char c => exact typeChar_safe h c
  | backspace => exact backspace_safe h
  | ctrlC => exact Nat.le_refl 0
  | ctrlD => exact rendered_safe (s := s.reset) (Nat.le_refl 0)
  | up => exact histPrev_safe h
  | down => exact histNext_safe h
  | left => exact (Nat.sub_le _ _).trans h
  | ctrlA => exact Nat.zero_le _
  | ctrlE => exact Nat.le_refl _
  | ctrlK => exact (List.length_take_of_le h).ge
  | ctrlU => exact (drain_safe (Nat.zero_le _) h).bind fun buf hbuf => hbuf
  | ctrlW => exact deleteWord_safe h
  | ctrlR => exact searchHistory_safe h
  | altB => exact moveWord_safe h (-1)
  | altF => exact moveWord_safe h 1
  | enter => exact h
  | ctrlL => exact h
  | unknown => exact h

/-- **One key**: whatever it is, the cursor stays in the line. -/
theorem handle_safe (h : s.InLine) (key : Key) :
    Safe (s.handle u w key) (fun result => result.1.InLine) := by
  unfold handle
  split
  · exact h
  · split
    · exact h
    · exact (edit_safe h .ctrlD).map fun _ hs => hs
  · exact (edit_safe h _).map fun _ hs => hs

/-- **Any keys**, with any world at each. -/
theorem run_safe (h : s.InLine) (keys : List (World × Key)) : Safe (s.run u keys) InLine := by
  induction keys generalizing s with
  | nil => exact rendered_safe h
  | cons wk keys ih =>
      obtain ⟨w, key⟩ := wk
      refine (renderLine_safe h).bind fun _ _ => ?_
      refine (handle_safe h key).bind fun result hresult => ?_
      obtain ⟨s', action⟩ := result
      cases action with
      | proceed => exact ih hresult
      | execute => exact ih (s := s'.reset) (Nat.le_refl 0)
      | quit => exact hresult

end Shell

/-- Whatever keys are typed and whatever the history and the engine answer, no
operation of the editor is out of range, and the cursor is in the line. -/
theorem line_editor_safe (u : Unicode) (keys : List (World × Key)) :
    Shell.run u {} keys ≠ .error .range ∧
      ∀ s, Shell.run u {} keys = .ok s → s.cursor ≤ s.buf.length := by
  have hnew : Shell.InLine {} := Nat.le_refl 0
  have hsafe := Shell.run_safe (u := u) hnew keys
  refine ⟨hsafe.ne_range, fun s hs => ?_⟩
  rw [hs] at hsafe
  exact hsafe

end LineEditor
