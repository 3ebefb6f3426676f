/-
  Lines of source and their tokens.

  A `#` starts a comment.  Spaces, tabs, commas and carriage returns only
  separate tokens, so a comma between operands is optional and a line may end
  in a carriage return.

  * `Line.code` is a line without its comment;
  * `Line.tokens` are the runs of other characters in its code.
-/

namespace RegisterMachine

/-- A line of source, without the line feed that ends it. -/
abbrev Line := List Char

/-- The characters between tokens. -/
def isSeparator (c : Char) : Bool :=
  c == ' ' || c == '\t' || c == ',' || c == '\r'

namespace Line

/-- The code of a line: what stands before its first `#`. -/
def code (line : Line) : List Char :=
  line.takeWhile (· != '#')

/-- The longest runs of non-separators in the code of a line. -/
def tokens (line : Line) : List String :=
  ((line.code.splitOnP isSeparator).filter (· ≠ [])).map String.ofList

end Line

end RegisterMachine
