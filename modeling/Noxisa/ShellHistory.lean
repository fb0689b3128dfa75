import Mathlib

/-!
# The command history of the shell and its file

The history keeps the last `max` commands, without empty ones and without repetitions
of the command before.  Saving writes one line for each entry, and loading takes the lines
of the file back in.  A command that contains a newline is one entry in memory and
several lines in the file.
-/

namespace ShellHistory

/-- A Rust `String`, by its characters. -/
abbrev Str := List Char

/-- The characters with the property White_Space. -/
def isWhitespace (c : Char) : Bool :=
  let n := c.toNat
  (9 ≤ n && n ≤ 13) || n == 0x20 || n == 0x85 || n == 0xA0 || n == 0x1680 ||
    (0x2000 ≤ n && n ≤ 0x200A) || n == 0x2028 || n == 0x2029 || n == 0x202F || n == 0x205F ||
    n == 0x3000

/-- `str::trim` -/
def trim (s : Str) : Str := (s.dropWhile isWhitespace).rdropWhile isWhitespace

/-- The pieces of a text that end after each newline. -/
def splitInclusive : Str → List Str
  | [] => []
  | c :: rest =>
      if c = '\n' then [c] :: splitInclusive rest
      else
        match splitInclusive rest with
        | [] => [[c]]
        | piece :: pieces => (c :: piece) :: pieces

/-- `str::strip_suffix`, of one character. -/
def stripSuffix (c : Char) (s : Str) : Option Str :=
  if s.getLast? = some c then some s.dropLast else none

/-- A line without its ending. -/
def stripEnding (line : Str) : Str :=
  match stripSuffix '\n' line with
  | none => line
  | some line => (stripSuffix '\r' line).getD line

/-- `str::lines` -/
def lines (s : Str) : List Str := (splitInclusive s).map stripEnding

/-- `History` -/
structure History where
  entries : List Str := []
  max : Nat
deriving DecidableEq

/-- Loads the history from the text of the file, if it can be read. -/
def load (file : Option Str) (max : Nat) : History :=
  let entries := (lines (file.getD [])).filter (· ≠ [])
  { entries := if max < entries.length then entries.drop (entries.length - max) else entries
    max }

/-- Adds an entry; not if it is the same as the last one. -/
def push (h : History) (line : Str) : History :=
  let trimmed := trim line
  if trimmed = [] then h
  else if h.entries.getLast? = some trimmed then h
  else
    let entries := h.entries ++ [trimmed]
    { h with entries := if h.max < entries.length then entries.tail else entries }

/-- The text that is written to the file. -/
def save (h : History) : Str := List.intercalate ['\n'] h.entries ++ ['\n']

/-- An empty history after some calls of `push`. -/
def pushAll (max : Nat) (calls : List Str) : History := calls.foldl push { max }

/-- The commands that were entered: trimmed, without the empty ones, and each run of equal ones
once. -/
def commands (calls : List Str) : List Str :=
  ((calls.map trim).filter (· ≠ [])).destutter (· ≠ ·)

/-- Leaving out repetitions, one element later. -/
theorem destutter'_concat (l : List Str) (a x : Str) :
    (l ++ [x]).destutter' (· ≠ ·) a =
      if (l.destutter' (· ≠ ·) a).getLast? = some x then l.destutter' (· ≠ ·) a
      else l.destutter' (· ≠ ·) a ++ [x] := by
  induction l generalizing a with
  | nil =>
      by_cases hax : a = x <;> simp [hax]
  | cons b l ih =>
      by_cases hab : a = b
      · have hneg : ¬a ≠ b := not_not.mpr hab
        rw [List.cons_append, List.destutter'_cons_neg _ hneg, List.destutter'_cons_neg _ hneg, ih]
      · obtain ⟨y, ys, hys⟩ := List.exists_cons_of_ne_nil
          (List.destutter'_ne_nil (R := (· ≠ ·)) (a := b) l)
        rw [List.cons_append, List.destutter'_cons_pos _ hab, List.destutter'_cons_pos _ hab, ih,
          hys, List.getLast?_cons_cons]
        split <;> rfl

/-- One more entry is added unless it repeats the last one. -/
private theorem destutter_concat (l : List Str) (x : Str) :
    (l ++ [x]).destutter (· ≠ ·) =
      if (l.destutter (· ≠ ·)).getLast? = some x then l.destutter (· ≠ ·)
      else l.destutter (· ≠ ·) ++ [x] := by
  cases l with
  | nil => rfl
  | cons a l =>
      rw [List.cons_append, List.destutter_cons', List.destutter_cons', destutter'_concat]

/-- The commands, one line later: an empty line and a repeated one are none. -/
theorem commands_concat (calls : List Str) (line : Str) :
    commands (calls ++ [line]) =
      if trim line = [] then commands calls
      else if (commands calls).getLast? = some (trim line) then commands calls
      else commands calls ++ [trim line] := by
  rw [commands, List.map_append, List.map_singleton, List.filter_append]
  by_cases h : trim line = []
  · rw [List.filter_cons_of_neg (by simpa using h), List.filter_nil, List.append_nil, if_pos h]
    rfl
  · rw [List.filter_cons_of_pos (by simpa using h), List.filter_nil, if_neg h, destutter_concat]
    rfl

/-- Pushing keeps the history the end of the commands. -/
theorem push_rtake {cmds : List Str} {h : History} (hmax : 1 ≤ h.max)
    (hentries : h.entries = cmds.rtake h.max) {t : Str} :
    (let entries := h.entries ++ [t]
      if h.max < entries.length then entries.tail else entries) = (cmds ++ [t]).rtake h.max := by
  obtain ⟨m, hm⟩ : ∃ m, h.max = m + 1 := ⟨h.max - 1, by omega⟩
  rw [hentries, hm, List.rtake_concat_succ]
  simp only [List.rtake, List.length_append, List.length_singleton, List.length_drop]
  by_cases hlong : m + 1 ≤ cmds.length
  · have hlen : m + 1 < cmds.length - (cmds.length - (m + 1)) + 1 := by omega
    have hne : cmds.drop (cmds.length - (m + 1)) ≠ [] := by
      rw [ne_eq, List.drop_eq_nil_iff]
      omega
    rw [if_pos hlen, List.tail_append_of_ne_nil hne, List.tail_drop]
    congr 2
    omega
  · have hlen : ¬m + 1 < cmds.length - (cmds.length - (m + 1)) + 1 := by omega
    rw [if_neg hlen]
    congr 2
    omega

/-- The last of the last ones is the last one. -/
private theorem getLast?_rtake {n : Nat} (hn : 1 ≤ n) (l : List Str) :
    (l.rtake n).getLast? = l.getLast? := by
  rw [List.rtake, List.getLast?_drop]
  split
  · next h =>
      have hnil : l = [] := List.length_eq_zero_iff.mp (by omega)
      rw [hnil, List.getLast?_nil]
  · rfl

/-- The history holds the last commands. -/
theorem pushAll_entries {max : Nat} (hmax : 1 ≤ max) (calls : List Str) :
    pushAll max calls = { entries := (commands calls).rtake max, max } := by
  induction calls using List.reverseRecOn with
  | nil => simp [pushAll, commands, List.rtake]
  | append_singleton calls line ih =>
      have hstep : pushAll max (calls ++ [line]) = push (pushAll max calls) line := by
        rw [pushAll, pushAll, List.foldl_append]
        rfl
      rw [hstep, ih, commands_concat, push]
      dsimp only
      rw [getLast?_rtake hmax]
      split
      · rfl
      · split
        · rfl
        · rw [← push_rtake (h := { entries := (commands calls).rtake max, max }) hmax rfl]

/-- The first line of a text. -/
private theorem splitInclusive_line {w : Str} (h : '\n' ∉ w) (rest : Str) :
    splitInclusive (w ++ '\n' :: rest) = (w ++ ['\n']) :: splitInclusive rest := by
  induction w with
  | nil => simp [splitInclusive]
  | cons c w ih =>
      have hc : c ≠ '\n' := fun heq => h (by rw [heq]; exact List.mem_cons_self)
      have hw : '\n' ∉ w := fun hmem => h (List.mem_cons_of_mem c hmem)
      rw [List.cons_append, splitInclusive, if_neg hc, ih hw]
      rfl

/-- A piece has no newline but the one at its end. -/
theorem splitInclusive_pieces (s : Str) :
    ∀ piece ∈ splitInclusive s, ∃ w, '\n' ∉ w ∧ (piece = w ∨ piece = w ++ ['\n']) := by
  induction s with
  | nil => exact List.forall_mem_nil _
  | cons c s ih =>
      intro piece hpiece
      rw [splitInclusive] at hpiece
      by_cases hc : c = '\n'
      · rw [if_pos hc, List.mem_cons] at hpiece
        rcases hpiece with rfl | hmem
        · exact ⟨[], List.not_mem_nil, Or.inr (by rw [hc, List.nil_append])⟩
        · exact ih piece hmem
      · rw [if_neg hc] at hpiece
        cases hs : splitInclusive s with
        | nil =>
            rw [hs, List.mem_singleton] at hpiece
            exact ⟨[c], by simpa using Ne.symm hc, Or.inl hpiece⟩
        | cons first pieces =>
            rw [hs, List.mem_cons] at hpiece
            rw [hs] at ih
            rcases hpiece with rfl | hmem
            · obtain ⟨w, hw, hfirst⟩ := ih first List.mem_cons_self
              refine ⟨c :: w, ?_, hfirst.imp (congrArg _) (congrArg _)⟩
              rw [List.mem_cons, not_or]
              exact ⟨Ne.symm hc, hw⟩
            · exact ih piece (List.mem_cons_of_mem first hmem)

/-- The suffix of a text that ends in it. -/
theorem stripSuffix_concat (w : Str) (c : Char) : stripSuffix c (w ++ [c]) = some w := by
  rw [stripSuffix, List.getLast?_concat, if_pos rfl, List.dropLast_concat]

/-- A text that does not end in it has none. -/
theorem stripSuffix_none {w : Str} {c : Char} (h : w.getLast? ≠ some c) :
    stripSuffix c w = none := if_neg h

/-- What is left of a line has no newline in it. -/
theorem lines_newline (s : Str) : ∀ line ∈ lines s, '\n' ∉ line := by
  intro line hline
  obtain ⟨piece, hpiece, rfl⟩ := List.mem_map.mp hline
  obtain ⟨w, hw, hend | hend⟩ := splitInclusive_pieces s piece hpiece
  · have hlast : w.getLast? ≠ some '\n' := fun heq => hw (List.mem_of_getLast? heq)
    rw [hend, stripEnding, stripSuffix_none hlast]
    exact hw
  · rw [hend, stripEnding, stripSuffix_concat]
    dsimp only
    rw [stripSuffix]
    split
    · exact fun hmem => hw (List.mem_of_mem_dropLast hmem)
    · exact hw

/-- What is saved is a line for each entry. -/
private theorem save_cons (e : Str) (es : List Str) :
    List.intercalate ['\n'] (e :: es) ++ ['\n'] = e ++ '\n' :: es.flatMap (· ++ ['\n']) := by
  induction es generalizing e with
  | nil => simp [List.intercalate]
  | cons e' es ih =>
      have hnext := ih e'
      rw [List.flatMap_cons, List.append_assoc, List.singleton_append, ← hnext]
      simp [List.intercalate, List.intersperse]

/-- Lines that do not end in a carriage return are read back as they were written. -/
theorem lines_written {es : List Str} (hline : ∀ e ∈ es, '\n' ∉ e)
    (hend : ∀ e ∈ es, e.getLast? ≠ some '\r') : lines (es.flatMap (· ++ ['\n'])) = es := by
  induction es with
  | nil => rfl
  | cons e es ih =>
      obtain ⟨he, hes⟩ := List.forall_mem_cons.mp hline
      obtain ⟨hr, hrs⟩ := List.forall_mem_cons.mp hend
      have hstrip : stripEnding (e ++ ['\n']) = e := by
        rw [stripEnding, stripSuffix_concat]
        dsimp only
        rw [stripSuffix_none hr, Option.getD_none]
      have hrest : (splitInclusive (es.flatMap (· ++ ['\n']))).map stripEnding = es := ih hes hrs
      rw [lines, List.flatMap_cons, List.append_assoc, List.singleton_append,
        splitInclusive_line he, List.map_cons, hstrip, hrest]

/-- A history that its file gives back, and that keeps to what a history is. -/
structure Kept (max : Nat) (h : History) : Prop where
  roundTrip : load (some (save h)) max = h
  bounded : h.entries.length ≤ max
  noEmpty : [] ∉ h.entries
  noRepeat : h.entries.IsChain (· ≠ ·)

/-- A command is a trimmed line, not empty. -/
theorem mem_commands {calls : List Str} {e : Str} (h : e ∈ commands calls) :
    e ≠ [] ∧ ∃ line, e = trim line := by
  have hmem : e ∈ (calls.map trim).filter (· ≠ []) := (List.destutter_sublist _ _).mem h
  obtain ⟨htrim, hne⟩ := List.mem_filter.mp hmem
  obtain ⟨line, -, rfl⟩ := List.mem_map.mp htrim
  exact ⟨of_decide_eq_true hne, line, rfl⟩

/-- A trimmed line does not end in a carriage return. -/
private theorem trim_last (line : Str) : (trim line).getLast? ≠ some '\r' := by
  intro h
  have hne : trim line ≠ [] := fun hnil => by rw [hnil] at h; cases h
  have hlast : (trim line).getLast hne = '\r' :=
    Option.some.inj ((List.getLast?_eq_some_getLast hne).symm.trans h)
  have hspace : ¬isWhitespace ((trim line).getLast hne) = true := List.rdropWhile_last_not _ _ hne
  rw [hlast] at hspace
  exact hspace (by decide)

/-- What loading the file of a history gives. -/
theorem load_save {max : Nat} {h : History} (hlen : h.entries.length ≤ max)
    (hne : ∀ e ∈ h.entries, e ≠ []) (hend : ∀ e ∈ h.entries, e.getLast? ≠ some '\r')
    (hline : ∀ e ∈ h.entries, '\n' ∉ e) :
    (load (some (save h)) max).entries = h.entries := by
  have hlines : (lines (save h)).filter (· ≠ []) = h.entries := by
    rw [save]
    cases hes : h.entries with
    | nil => rfl
    | cons e es =>
        have htext : e ++ '\n' :: es.flatMap (· ++ ['\n']) = (e :: es).flatMap (· ++ ['\n']) := by
          rw [List.flatMap_cons, List.append_assoc, List.singleton_append]
        rw [save_cons, htext, ← hes, lines_written hline hend]
        exact List.filter_eq_self.mpr fun e he => decide_eq_true (hne e he)
  have hload : (load (some (save h)) max).entries =
      if max < h.entries.length then h.entries.drop (h.entries.length - max) else h.entries :=
    congrArg (fun entries : List Str =>
      if max < entries.length then entries.drop (entries.length - max) else entries) hlines
  rw [hload, if_neg (by omega)]

/-- A loaded entry has no newline. -/
private theorem load_newline (file : Option Str) (max : Nat) :
    ∀ e ∈ (load file max).entries, '\n' ∉ e := by
  intro e he
  refine lines_newline (file.getD []) e ?_
  rw [load] at he
  dsimp only at he
  split at he
  · exact (List.mem_filter.mp (List.mem_of_mem_drop he)).1
  · exact (List.mem_filter.mp he).1

/-- The file gives the history back just when none of the commands that are kept has a newline
in it; whatever was entered, the history is in bounds and without empty or repeated entries. -/
theorem history_kept {max : Nat} (hmax : 1 ≤ max) (calls : List Str) :
    Kept max (pushAll max calls) ↔ ∀ e ∈ (commands calls).rtake max, '\n' ∉ e := by
  rw [pushAll_entries hmax]
  have hmem : ∀ e ∈ (commands calls).rtake max, e ∈ commands calls :=
    fun e he => List.mem_of_mem_drop he
  constructor
  · intro hkept e he
    have hloaded := load_newline (some (save { entries := (commands calls).rtake max, max })) max
    rw [hkept.roundTrip] at hloaded
    exact hloaded e he
  · intro hline
    have hlen : ((commands calls).rtake max).length ≤ max := by
      rw [List.rtake, List.length_drop]
      omega
    constructor
    · have hentries := load_save (h := { entries := (commands calls).rtake max, max }) hlen
        (fun e he => (mem_commands (hmem e he)).1)
        (fun e he => by
          obtain ⟨-, line, rfl⟩ := mem_commands (hmem e he)
          exact trim_last line) hline
      exact congrArg (fun entries => { entries, max : History }) hentries
    · exact hlen
    · exact fun he => (mem_commands (hmem [] he)).1 rfl
    · exact (List.isChain_destutter _ _).drop _

/-- Three lines, of which two are one command. -/
theorem history_kept_ls : Kept 1 (pushAll 1 ["ls ".toList, "ls".toList, "pwd".toList]) :=
  (history_kept (Nat.le_refl 1) ["ls ".toList, "ls".toList, "pwd".toList]).mpr (by decide +kernel)

/-- A command with a newline in it comes back as two. -/
theorem pasted_newline_split : ¬Kept 10 (pushAll 10 ["a\nb".toList]) := by
  intro h
  exact absurd h.roundTrip (by decide +kernel)

end ShellHistory
