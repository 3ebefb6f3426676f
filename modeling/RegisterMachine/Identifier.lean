/-
  Identifiers, the names that labels may have.

  An identifier is an ASCII letter, `_`, `$` or `@`, followed by any number of
  these and of ASCII digits.
-/

namespace RegisterMachine

/-- The characters that an identifier may start with. -/
def isIdentifierStart (c : Char) : Bool :=
  c.isAlpha || c == '_' || c == '$' || c == '@'

/-- The characters that an identifier may go on with. -/
def isIdentifierRest (c : Char) : Bool :=
  isIdentifierStart c || c.isDigit

/-- Whether a list of characters spells an identifier. -/
def spellsIdentifier : List Char → Bool
  | [] => false
  | c :: rest => isIdentifierStart c && rest.all isIdentifierRest

def isIdentifier (name : String) : Bool :=
  spellsIdentifier name.toList

/-- The name in a label marker: an identifier with a colon after it. -/
def markedLabel? (token : String) : Option String :=
  match token.toList.reverse with
  | ':' :: name => if spellsIdentifier name.reverse then some (String.ofList name.reverse) else none
  | _ => none

theorem markedLabel?_eq_some_iff {token name : String} :
    markedLabel? token = some name ↔ isIdentifier name = true ∧ token = name ++ ":" := by
  unfold markedLabel? isIdentifier
  constructor
  · intro h
    split at h
    · rename_i rest hr
      have ht : token.toList = rest.reverse ++ [':'] := by
        rw [← List.reverse_cons, ← hr, List.reverse_reverse]
      split at h
      · rename_i hi
        cases h
        exact ⟨by simpa using hi, String.toList_injective (by simpa using ht)⟩
      · cases h
    · cases h
  · rintro ⟨hi, rfl⟩
    simp [String.toList_append, hi]

end RegisterMachine
