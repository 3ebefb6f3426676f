/-
  How deep inclusions can be.

  The names of the open inclusions are distinct, and all but the first stand in
  files.  So once as many inclusions are allowed as there are names in files
  that are not open yet, allowing more changes nothing.

  * `ofFile_eq_of_unopened_le`: this holds of a name that stands in a file;
  * `ofFile_eq_of_depth_le`: from a source, `Expansion.depth` is deep enough,
    whatever is open.
-/
import RegisterMachine.Expansion

namespace RegisterMachine.Expansion

/-- The names in files that are not open. -/
def unopened (fs : FileSystem) (opened : List String) : List String :=
  (includedFiles fs).filter (· ∉ opened)

theorem length_unopened_cons_lt {fs : FileSystem} {opened : List String} {name : String}
    (hn : name ∈ includedFiles fs) (ho : name ∉ opened) :
    (unopened fs (name :: opened)).length < (unopened fs opened).length := by
  have hsub : unopened fs (name :: opened) = (unopened fs opened).filter (· ≠ name) := by
    simp only [unopened, List.filter_filter]
    congr 1
    funext other
    by_cases h : other = name <;> simp [h]
  rw [hsub, List.length_filter_lt_length_iff_exists]
  exact ⟨name, by simp [unopened, hn, ho], by simp⟩

theorem mem_opened_of_unopened {fs : FileSystem} {opened : List String} {name : String}
    (hn : name ∈ includedFiles fs) (h : (unopened fs opened).length ≤ 0) : name ∈ opened := by
  by_cases ho : name ∈ opened
  · exact ho
  · have := length_unopened_cons_lt hn ho
    omega

/-- Expanding lines depends on what their own inclusions expand to. -/
theorem ofLines_congr {f g : String → Definitions → Expansion} {lines : List SourceLine}
    (h : ∀ file, .inclusion file ∈ lines → f file = g file) (definitions : Definitions) :
    ofLines f definitions lines = ofLines g definitions lines := by
  induction lines generalizing definitions with
  | nil => rfl
  | cons line rest ih =>
    have hl : ofLine f definitions line = ofLine g definitions line := by
      cases line with
      | inclusion file => exact congrFun (h file List.mem_cons_self) definitions
      | definition | code => rfl
    have hr : (ofLines f · rest) = (ofLines g · rest) :=
      funext fun later => ih (fun file hf => h file (List.mem_cons_of_mem _ hf)) later
    simp only [ofLines, hl]
    exact congrArg _ hr

theorem mem_includedFiles {fs : FileSystem} {text file : String} (ht : text ∈ fs.contents)
    (hf : .inclusion file ∈ SourceLine.ofText text) : file ∈ includedFiles fs :=
  List.mem_flatMap.2 ⟨text, ht, List.mem_filterMap.2 ⟨_, hf, rfl⟩⟩

/-- **More depth changes nothing** once all unopened names fit. -/
theorem ofFile_eq_of_unopened_le {fs : FileSystem} {d d' : Nat} {opened : List String}
    {name : String} (hn : name ∈ includedFiles fs) (hd : (unopened fs opened).length ≤ d)
    (hd' : (unopened fs opened).length ≤ d') :
    ofFile fs d opened name = ofFile fs d' opened name := by
  induction d generalizing d' opened name with
  | zero =>
    have ho := mem_opened_of_unopened hn hd
    funext definitions
    cases d' <;> by_cases h : name = "" <;> simp [ofFile, h, ho]
  | succ d ih =>
    funext definitions
    cases d' with
    | zero =>
      have ho := mem_opened_of_unopened hn hd'
      by_cases h : name = "" <;> simp [ofFile, h, ho]
    | succ d' =>
      unfold ofFile
      by_cases ho : name ∈ opened
      · simp [ho]
      cases hr : fs.read name with
      | error cause => rfl
      | ok text =>
        have hlt := length_unopened_cons_lt hn ho
        have hl : ofLines (ofFile fs d (name :: opened)) definitions (SourceLine.ofText text) =
            ofLines (ofFile fs d' (name :: opened)) definitions (SourceLine.ofText text) := by
          refine ofLines_congr (fun file hf => ?_) definitions
          exact ih (mem_includedFiles (fs.mem_contents hr) hf) (by omega) (by omega)
        simp only [hl]

/-- **The depth of a file system is deep enough** for every source. -/
theorem ofFile_eq_of_depth_le {fs : FileSystem} {d : Nat} (hd : depth fs ≤ d)
    (opened : List String) (name : String) :
    ofFile fs d opened name = ofFile fs (depth fs) opened name := by
  obtain ⟨d, rfl⟩ : ∃ k, d = k + 1 := ⟨d - 1, by unfold depth at hd; omega⟩
  funext definitions
  unfold depth at hd ⊢
  unfold ofFile
  cases hr : fs.read name with
  | error cause => rfl
  | ok text =>
    have hu : (unopened fs (name :: opened)).length ≤ (includedFiles fs).length :=
      List.length_filter_le _ _
    have hl : ofLines (ofFile fs d (name :: opened)) definitions (SourceLine.ofText text) =
        ofLines (ofFile fs (includedFiles fs).length (name :: opened)) definitions
          (SourceLine.ofText text) := by
      refine ofLines_congr (fun file hf => ?_) definitions
      exact ofFile_eq_of_unopened_le (mem_includedFiles (fs.mem_contents hr) hf)
        (by omega) hu
    simp only [hl]

end RegisterMachine.Expansion
