import Mathlib.Order.Fin.Basic
import Noxisa.SortedSearch

/-!
# Early-boot completion

Until the completion daemon runs, the kernel shell completes from a sorted table of
commands: a binary search for the first entry that is not below what was typed, then a
scan as long as the entries begin with it, up to eight of them.  Strings are compared by
their bytes.
-/

namespace KernelShell

open SortedSearch

/-- A byte of the typed text. -/
abbrev Byte := Fin 256

/-- A text as its bytes, so that order is by bytes. -/
abbrev Str := List Byte

/-- The bytes of a string literal. -/
def bytes (s : String) : Str := s.toUTF8.data.toList.map UInt8.toFin

/-- `KERNEL_COMPLETIONS` -/
def kernelCompletions : List Str := List.map bytes
  ["cat", "cd", "chmod", "chown", "clear", "cp",
    "dmesg", "echo", "exit",
    "find",
    "grep",
    "help", "history",
    "kill",
    "less", "ln", "ls", "ls -la", "ls -lh",
    "man", "mkdir", "mount", "mv",
    "npkg", "npkg install", "npkg list", "npkg remove", "npkg update",
    "ping", "ps",
    "reboot", "rm", "rmdir",
    "shutdown", "sleep", "stat",
    "tail", "top", "touch",
    "umount", "uname",
    "which"]

section
variable {α : Type} [LinearOrder α]

/-- The scan: stops after eight results, or at the first entry that does not begin with
`typed`. -/
def scan (typed : List α) : List (List α) → List (List α) → List (List α)
  | results, [] => results
  | results, s :: entries =>
      if typed.isPrefixOf s then
        let results := results ++ [s]
        if 8 ≤ results.length then results else scan typed results entries
      else results

/-- `trie_complete` over any table. -/
def completeFrom (table : List (List α)) (typed : List α) : List (List α) :=
  let pos := partitionPoint (· < typed) table
  scan typed [] (table.drop pos)

/-- What a linear search would give. -/
def filtered (table : List (List α)) (typed : List α) : List (List α) :=
  (table.filter (typed.isPrefixOf ·)).take 8

end

/-- `trie_complete` -/
def trieComplete (typed : Str) : List Str := completeFrom kernelCompletions typed

section
variable {α : Type} [LinearOrder α]

/-- The scan takes the entries that begin with `typed`, until there are eight. -/
theorem scan_eq (typed : List α) {results : List (List α)} (h : results.length < 8)
    (entries : List (List α)) :
    scan typed results entries =
      (results ++ entries.takeWhile (typed.isPrefixOf ·)).take 8 := by
  have hshort : results.take 8 = results := List.take_of_length_le (by omega)
  induction entries generalizing results with
  | nil => rw [scan, List.takeWhile_nil, List.append_nil, hshort]
  | cons s entries ih =>
      rw [scan]
      by_cases hs : typed.isPrefixOf s = true
      · have hmove : results ++ s :: entries.takeWhile (typed.isPrefixOf ·) =
            results ++ [s] ++ entries.takeWhile (typed.isPrefixOf ·) := List.append_cons ..
        rw [if_pos hs, List.takeWhile_cons_of_pos hs, hmove]
        dsimp only
        by_cases hfull : 8 ≤ (results ++ [s]).length
        · have hlen : (results ++ [s]).length = 8 := by
            rw [List.length_append, List.length_singleton] at hfull ⊢
            omega
          rw [if_pos hfull, List.take_left' hlen]
        · rw [if_neg hfull]
          exact ih (by omega) (List.take_of_length_le (by omega))
      · rw [if_neg hs, List.takeWhile_cons_of_neg hs, List.append_nil, hshort]

/-- On a sorted table the search gives what the linear one does. -/
theorem completeFrom_eq {table : List (List α)} (h : table.Pairwise (· < ·)) (typed : List α) :
    completeFrom table typed = filtered table typed := by
  have hempty : ([] : List (List α)).length < 8 := by simp
  rw [completeFrom, filtered, filter_prefix h, scan_eq typed hempty, List.nil_append]

end

/-- The table is sorted. -/
private theorem kernelCompletions_sorted : kernelCompletions.Pairwise (· < ·) := by
  decide +kernel

/-- The early-boot completions are the first eight entries that begin with what was typed, and
the search would be exact on any sorted table. -/
theorem completion_exact :
    (∀ typed, trieComplete typed = filtered kernelCompletions typed) ∧
    ∀ (table : List Str), table.Pairwise (· < ·) →
      ∀ typed, completeFrom table typed = filtered table typed :=
  ⟨completeFrom_eq kernelCompletions_sorted, fun _ h => completeFrom_eq h⟩

/-- Another table, and what begins with the name of the package manager. -/
theorem completion_of_npkg :
    completeFrom [bytes "man", bytes "npkg", bytes "npkg list"] (bytes "npkg") =
      [bytes "npkg", bytes "npkg list"] :=
  completion_exact.2 [bytes "man", bytes "npkg", bytes "npkg list"] (by decide +kernel)
    (bytes "npkg")

end KernelShell
