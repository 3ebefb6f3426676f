/-
  Sources in pieces.

  A source may be given to a preprocessor whole, or cut in two where a line ends.
  Nothing is lost at the cut: the definitions go on, and the stack of the files
  that are being included is the same on either side of it.

  * `InPieces whole first second`: an expansion is made up of two, and is the
    first alone if that fails.  `inPieces_andThen`: so is one expansion after
    another;
  * `ofLines_append`: lines after lines are expanded one after the other;
  * `process_append`: a preprocessor does with a source what it does with its
    pieces.
-/
import RegisterMachine.Proofs.Reuse

namespace RegisterMachine

theorem SourceLine.ofText_append {first : String} (h : first = "" ∨ ∃ front, first = front ++ "\n")
    (second : String) : ofText (first ++ second) = ofText first ++ ofText second := by
  have hfirst : first.toList = [] ∨ ∃ front, first.toList = front ++ ['\n'] := by
    rcases h with rfl | ⟨front, rfl⟩
    · exact Or.inl rfl
    · exact Or.inr ⟨front.toList, String.toList_append⟩
  rw [ofText, String.toList_append, Text.lines_append hfirst, List.map_append]
  rfl

namespace Expansion

/-- The expansion of a whole is made up of those of its pieces.  The second piece
    does not matter if the first one fails. -/
structure InPieces (whole first second : Expansion) : Prop where
  failed : ∀ e, first.report.result = .error e → whole = first
  result : ∀ lines, first.report.result = .ok lines →
    whole.report.result = second.report.result.map (lines ++ ·)
  definitions : ∀ lines, first.report.result = .ok lines →
    whole.definitions = second.definitions
  events : ∀ lines, first.report.result = .ok lines →
    whole.report.events = first.report.events ++ second.report.events

theorem inPieces_andThen (first : Expansion) (next : Definitions → Expansion) :
    InPieces (first.andThen next) first (next first.definitions) := by
  obtain ⟨definitions, events, e | lines⟩ := first
  · exact ⟨fun _ _ => rfl, nofun, nofun, nofun⟩
  · refine ⟨nofun, fun _ h => ?_, fun _ _ => rfl, fun _ _ => rfl⟩
    cases h
    rfl

/-- Lines after lines are expanded one after the other. -/
theorem ofLines_append (inclusion : String → Definitions → Expansion) (definitions : Definitions)
    (first second : List SourceLine) :
    ofLines inclusion definitions (first ++ second) =
      (ofLines inclusion definitions first).andThen (ofLines inclusion · second) := by
  induction first generalizing definitions with
  | nil => exact (ok_nil_andThen definitions (ofLines inclusion · second)).symm
  | cons line rest ih => simp only [List.cons_append, ofLines, ih, andThen_assoc]

namespace Preprocessor

/-- **A source may be given in pieces.**  If its first piece ends a line, a
    preprocessor does with the whole what it does with the pieces one after the
    other: it fails alike and leaves the same definitions, or it gives the lines
    of both pieces and the definitions after them.  So does the expansion of the
    whole. -/
theorem process_append (fs : FileSystem) (p : Preprocessor) {first : String}
    (h : first = "" ∨ ∃ front, first = front ++ "\n") (second : String) :
    (p.process fs (first ++ second)).opened = p.opened ∧
      InPieces (p.process fs (first ++ second)).done (p.process fs first).done
        ((ofTraversal (p.process fs first)).process fs second).done ∧
      InPieces (ofSource fs p.definitions (first ++ second)) (ofSource fs p.definitions first)
        (ofSource fs (ofSource fs p.definitions first).definitions second) := by
  simp only [process_eq, ofTraversal, ofSource, SourceLine.ofText_append h, ofLines_append]
  exact ⟨trivial, inPieces_andThen _ _, inPieces_andThen _ _⟩

/-- A file that defines a name and uses it. -/
def numbers : FileSystem :=
  .ofTable [("numbers", .ok "%define two 2\ninc ax, two")]

/-- A preprocessor that has a definition already. -/
def abbreviating : Preprocessor :=
  { definitions := [("b", ["bx"])] }

theorem process_append_numbers :
    (∃ front, "%include numbers\n" = front ++ "\n") ∧
      (abbreviating.process numbers ("%include numbers\n" ++ "dec b, two")).done.report.result =
        .ok [[], ["inc", "ax", "2"], ["dec", "bx", "2"]] := by
  have hends : ∃ front, "%include numbers\n" = front ++ "\n" := ⟨"%include numbers", rfl⟩
  obtain ⟨-, hpieces, -⟩ := process_append numbers abbreviating (Or.inr hends) "dec b, two"
  have hfirst : (abbreviating.process numbers "%include numbers\n").done =
      ⟨[("two", ["2"]), ("b", ["bx"])], [.including "numbers", .defined "two" ["2"]],
        .ok [[], ["inc", "ax", "2"]]⟩ := by
    rw [process_eq]
    rfl
  refine ⟨hends, ?_⟩
  rw [hpieces.result _ (by rw [hfirst]), process_eq, ofTraversal, hfirst]
  rfl

end Preprocessor

end Expansion

end RegisterMachine
