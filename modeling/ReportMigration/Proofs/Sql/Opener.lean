import ReportMigration.Proofs.Text.Folding
import ReportMigration.Proofs.Text.Scanner
import ReportMigration.Sql.Call

/-!
# The text that opens a call

An opener is a name, white space and a parenthesis. It holds no quote, so no opener reaches into a
string literal or out of it.
-/

namespace ReportMigration.Sql.CallRule

open Text

variable {function : List Char} {before : Option Char} {text : List Char}

private theorem drop_length_takeWhile (test : Char → Bool) (l : List Char) :
    l.drop (l.takeWhile test).length = l.dropWhile test := by
  calc l.drop (l.takeWhile test).length
      = (l.takeWhile test ++ l.dropWhile test).drop (l.takeWhile test).length := by
        rw [List.takeWhile_append_dropWhile]
    _ = l.dropWhile test := List.drop_left

theorem opener_eq_some {u : Unit} {n : Nat} (h : opener function ⟨before, text⟩ = some (u, n)) :
    ∃ name blanks rest, text = name ++ (blanks ++ '(' :: rest) ∧
      name.map foldCase = function.map foldCase ∧ blanks.all isBlank = true ∧
      (before.any isWord != text.head?.any isWord) = true ∧
      n = name.length + blanks.length + 1 := by
  simp only [opener, Scan.bind_eq_some, Scan.wordBoundary, Scan.guard_eq_some, Scan.blanks,
    Scan.letters_eq_some, Scan.run_eq_some, Scan.one_eq_some] at h
  obtain ⟨_, _, _, ⟨hb, rfl⟩, ⟨_, _, _, ⟨hl, rfl⟩, ⟨_, _, _, rfl, ⟨x, rest, hx, ht, rfl⟩, rfl⟩, rfl⟩,
    rfl⟩ := h
  simp only [Cursor.advance, List.drop_zero] at hl hx
  rw [drop_length_takeWhile] at hx
  have hlen : (text.take function.length).length = function.length := by
    simpa using congrArg List.length hl
  obtain rfl : x = '(' := by simpa using ht
  refine ⟨text.take function.length, (text.drop function.length).takeWhile isBlank, rest, ?_, hl, ?_,
    hb, ?_⟩
  · rw [← hx, List.takeWhile_append_dropWhile, List.take_append_drop]
  · exact List.all_takeWhile
  · simp only [Cursor.advance, List.drop_zero, hlen]
    omega

theorem opener_append {name blanks rest : List Char}
    (hname : name.map foldCase = function.map foldCase) (hblanks : blanks.all isBlank = true)
    (hb : (before.any isWord != (name ++ (blanks ++ '(' :: rest)).head?.any isWord) = true) :
    opener function ⟨before, name ++ (blanks ++ '(' :: rest)⟩ =
      some ((), name.length + blanks.length + 1) := by
  have hlen : name.length = function.length := by simpa using congrArg List.length hname
  simp only [opener, Scan.bind_eq_some, Scan.wordBoundary, Scan.guard_eq_some, Scan.blanks,
    Scan.letters_eq_some, Scan.run_eq_some, Scan.one_eq_some]
  refine ⟨(), 0, _, ⟨hb, rfl⟩, ⟨(), function.length, _, ⟨?_, rfl⟩, ⟨(), blanks.length, 1, ?_,
    ⟨'(', rest, ?_, rfl, rfl⟩, rfl⟩, rfl⟩, ?_⟩
  · simp [Cursor.advance, ← hlen, hname]
  · simp only [Cursor.advance, List.drop_zero, ← hlen, List.drop_left]
    rw [List.takeWhile_append_of_pos (by simpa using hblanks)]
    simp [show isBlank '(' = false by decide]
  · simp [Cursor.advance, ← hlen]
  · omega

private theorem take_opener (name blanks rest : List Char) :
    (name ++ (blanks ++ '(' :: rest)).take (name.length + blanks.length + 1) =
      name ++ (blanks ++ ['(']) := by
  have ht : (name ++ (blanks ++ ['(']) ++ rest).take (name ++ (blanks ++ ['('])).length =
      name ++ (blanks ++ ['(']) := List.take_left
  simpa [Nat.add_assoc] using ht

theorem getLast?_opener {u : Unit} {n : Nat}
    (h : opener function ⟨before, text⟩ = some (u, n)) : (text.take n).getLast? = some '(' := by
  obtain ⟨name, blanks, rest, rfl, -, -, -, rfl⟩ := opener_eq_some h
  rw [take_opener]
  simp

theorem quote_notMem_opener (hf : function.all isWord = true) {u : Unit} {n : Nat}
    (h : opener function ⟨before, text⟩ = some (u, n)) : '\'' ∉ text.take n := by
  obtain ⟨name, blanks, rest, rfl, hname, hblanks, -, rfl⟩ := opener_eq_some h
  rw [take_opener]
  simp only [List.mem_append, List.mem_singleton, not_or]
  refine ⟨fun hq => ?_, fun hq => ?_, by decide⟩
  · -- A quote in the name would fold like a word character of the function.
    have hq' : foldCase '\'' ∈ function.map foldCase := hname ▸ List.mem_map_of_mem hq
    obtain ⟨w, hw, he⟩ := List.mem_map.1 hq'
    exact ne_quote_of_foldCase_eq he.symm (List.all_eq_true.1 hf w hw) rfl
  · exact absurd (List.all_eq_true.1 hblanks _ hq) (by decide)

end ReportMigration.Sql.CallRule
