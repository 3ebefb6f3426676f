/-
  The lines of a text.

  A line feed ends a line, so a text that ends with one has no empty line
  after it, and the empty text has no line at all.  A carriage return before the
  line feed stays in the line: as a separator and a blank it is never part of what
  the line is read as (`SourceLine.ofText_dropReturns`).

  * `lines` cuts a text into its lines;
  * `lines_append_newline`, `lines_append`: a text is cut on its own on either
    side of a line feed, so where one piece of a text ends a line, the pieces
    are cut on their own;
  * `lines_eq_cons`, `lines_eq_singleton`: the text up to the first line feed is
    the first line;
  * `lines_newline`, `lines_cons`: what the first character of a text does to its
    lines.
-/

namespace RegisterMachine.Text

/-- The lines of a text, without the line feeds that end them. -/
def lines (text : List Char) : List (List Char) :=
  let pieces := text.splitOn '\n'
  if pieces.getLast? = some [] then pieces.dropLast else pieces

@[simp] theorem lines_nil : lines [] = [] := rfl

/-- A text is cut on its own before a line feed and after it. -/
theorem lines_append_newline (text rest : List Char) :
    lines (text ++ '\n' :: rest) = text.splitOn '\n' ++ lines rest := by
  have hne : rest.splitOn '\n' ≠ [] := List.splitOn_ne_nil '\n' rest
  have hlast : (text.splitOn '\n' ++ rest.splitOn '\n').getLast? =
      (rest.splitOn '\n').getLast? := by
    rw [List.getLast?_append, Option.or_of_isSome (by simp)]
  simp only [lines, List.splitOn_append_cons_self, hlast, List.dropLast_append_of_ne_nil hne]
  split <;> rfl

/-- Pieces of text are cut on their own, if the first one ends its last line. -/
theorem lines_append {text : List Char} (h : text = [] ∨ ∃ front, text = front ++ ['\n'])
    (rest : List Char) : lines (text ++ rest) = lines text ++ lines rest := by
  rcases h with rfl | ⟨front, rfl⟩
  · rfl
  · rw [List.append_assoc, List.singleton_append, lines_append_newline, lines_append_newline,
      lines_nil, List.append_nil]

/-- The text before the first line feed is the first line. -/
theorem lines_eq_cons {line : List Char} (h : '\n' ∉ line) (rest : List Char) :
    lines (line ++ '\n' :: rest) = line :: lines rest := by
  rw [lines_append_newline, List.splitOn_eq_singleton h, List.singleton_append]

/-- A text without a line feed is one line, unless it is empty. -/
theorem lines_eq_singleton {line : List Char} (h : '\n' ∉ line) (hne : line ≠ []) :
    lines line = [line] := by
  simp [lines, List.splitOn_eq_singleton h, hne]

/-- A line feed ends an empty line. -/
theorem lines_newline (rest : List Char) : lines ('\n' :: rest) = [] :: lines rest :=
  lines_eq_cons List.not_mem_nil rest

/-- Any other character belongs to the first line of the text after it. -/
theorem lines_cons {c : Char} (hc : c ≠ '\n') (rest : List Char) :
    lines (c :: rest) = (c :: (lines rest).headD []) :: (lines rest).tail := by
  by_cases hn : '\n' ∈ rest
  · obtain ⟨line, rest, rfl, hl⟩ := List.eq_append_cons_of_mem hn
    have hcl : '\n' ∉ c :: line := List.not_mem_cons_of_ne_of_not_mem hc.symm hl
    rw [← List.cons_append, lines_eq_cons hcl, lines_eq_cons hl]
    rfl
  · have hcr : '\n' ∉ c :: rest := List.not_mem_cons_of_ne_of_not_mem hc.symm hn
    rw [lines_eq_singleton hcr (List.cons_ne_nil c rest)]
    cases rest with
    | nil => rfl
    | cons d rest =>
      rw [lines_eq_singleton hn (List.cons_ne_nil d rest)]
      rfl

end RegisterMachine.Text
