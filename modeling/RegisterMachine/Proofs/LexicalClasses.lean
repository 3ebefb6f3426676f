/-
  Markers, literals and identifiers are told apart.

  No token belongs to two of these classes, so it does not matter for which of them
  it is tested first.

  * `spellsIdentifierBytes`: the grammar of identifiers on bytes.  `spellsIdentifierBytes_utf8`:
    on the bytes of a text in UTF-8 it is the grammar on characters, since the other
    characters only have bytes that no identifier has;
  * `LexicalClass.read?`: what a token says as a member of a class, and `lexeme?`:
    in the first class that it is in.  `classes_apart`: it is in one at most;
  * `Argument.ofTokenBy` and `Statement.ofTokensBy` read tokens by such tests.
    `Reserved`: an identifier that is neither declared nor jumped to;
  * `lexicalClasses_disjoint`: in any order the tests find the same, and register
    names are reserved.
-/
import RegisterMachine.Proofs.LineGrammar
import RegisterMachine.Proofs.Respelling

namespace RegisterMachine

/-! ## Bytes -/

/-- The bytes of a text in UTF-8. -/
def utf8 (text : String) : List UInt8 :=
  text.toUTF8.data.toList

/-- The bytes that an identifier may start with. -/
def isStartByte (b : UInt8) : Bool :=
  ('A'.toUInt8 ≤ b && b ≤ 'Z'.toUInt8) || ('a'.toUInt8 ≤ b && b ≤ 'z'.toUInt8) ||
    b == '_'.toUInt8 || b == '$'.toUInt8 || b == '@'.toUInt8

/-- The bytes that an identifier may go on with. -/
def isRestByte (b : UInt8) : Bool :=
  isStartByte b || ('0'.toUInt8 ≤ b && b ≤ '9'.toUInt8)

/-- Whether bytes spell an identifier. -/
def spellsIdentifierBytes : List UInt8 → Bool
  | [] => false
  | b :: rest => isStartByte b && rest.all isRestByte

theorem utf8_eq (text : String) : utf8 text = text.toList.flatMap String.utf8EncodeChar := by
  rw [utf8, String.toUTF8_eq_toByteArray, ← String.utf8Encode_toList, List.utf8Encode,
    List.data_toByteArray, List.toList_toArray]

theorem isRestByte_lt {b : UInt8} (h : isRestByte b = true) : b.toNat < 128 := by
  simp only [isRestByte, isStartByte, Bool.or_eq_true, Bool.and_eq_true, decide_eq_true_eq,
    beq_iff_eq, or_assoc] at h
  rcases h with ⟨-, hz⟩ | ⟨-, hz⟩ | rfl | rfl | rfl | ⟨-, hz⟩
  · exact Nat.lt_of_le_of_lt hz (by decide)
  · exact Nat.lt_of_le_of_lt hz (by decide)
  · decide
  · decide
  · decide
  · exact Nat.lt_of_le_of_lt hz (by decide)

theorem isIdentifierRest_lt {c : Char} (h : isIdentifierRest c = true) : c.toNat < 128 := by
  rcases isIdentifierRest_iff.1 h with (⟨-, hz⟩ | ⟨-, hz⟩ | rfl | rfl | rfl) | ⟨-, hz⟩
  · exact Nat.lt_of_le_of_lt hz (by decide)
  · exact Nat.lt_of_le_of_lt hz (by decide)
  · decide
  · decide
  · decide
  · exact Nat.lt_of_le_of_lt hz (by decide)

theorem utf8EncodeChar_of_lt {c : Char} (h : c.toNat < 128) :
    String.utf8EncodeChar c = [UInt8.ofNat c.toNat] := by
  have hle : c.val.toNat ≤ 127 := Nat.le_of_lt_succ h
  rw [String.utf8EncodeChar, if_pos hle]
  rfl

/-- The bytes of any other character are no ASCII. -/
theorem le_of_mem_utf8EncodeChar {c : Char} (h : 128 ≤ c.toNat) :
    ∀ b ∈ String.utf8EncodeChar c, 128 ≤ b.toNat := by
  have hgt : ¬ c.val.toNat ≤ 127 := Nat.not_le.2 h
  unfold String.utf8EncodeChar
  simp only [if_neg hgt]
  split_ifs <;> simp only [List.forall_mem_cons, UInt8.toNat_ofNat', List.not_mem_nil,
    false_imp_iff, implies_true, and_true] <;> omega

theorem isStartByte_ofNat {c : Char} (h : c.toNat < 128) :
    isStartByte (UInt8.ofNat c.toNat) = isIdentifierStart c := by
  have hall : ∀ n < 128, isStartByte (UInt8.ofNat n) = isIdentifierStart (Char.ofNat n) := by
    decide
  rw [hall c.toNat h, Char.ofNat_toNat]

theorem isRestByte_ofNat {c : Char} (h : c.toNat < 128) :
    isRestByte (UInt8.ofNat c.toNat) = isIdentifierRest c := by
  have hall : ∀ n < 128, isRestByte (UInt8.ofNat n) = isIdentifierRest (Char.ofNat n) := by
    decide
  rw [hall c.toNat h, Char.ofNat_toNat]

/-- Any other character has no place in an identifier, and nor does its first byte. -/
theorem exists_utf8EncodeChar_eq {c : Char} (h : ¬ c.toNat < 128) :
    isIdentifierRest c = false ∧
      ∃ b rest, String.utf8EncodeChar c = b :: rest ∧ isRestByte b = false := by
  refine ⟨Bool.eq_false_iff.2 fun hr => h (isIdentifierRest_lt hr), ?_⟩
  obtain ⟨b, rest, hb⟩ := List.exists_cons_of_ne_nil (String.utf8EncodeChar_ne_nil (c := c))
  refine ⟨b, rest, hb, Bool.eq_false_iff.2 fun hr => ?_⟩
  have hle : 128 ≤ b.toNat :=
    le_of_mem_utf8EncodeChar (Nat.le_of_not_lt h) b (hb ▸ List.mem_cons_self)
  exact absurd (isRestByte_lt hr) (Nat.not_lt.2 hle)

/-- A character goes on with an identifier just if all its bytes do. -/
theorem all_utf8EncodeChar (c : Char) :
    (String.utf8EncodeChar c).all isRestByte = isIdentifierRest c := by
  by_cases hc : c.toNat < 128
  · rw [utf8EncodeChar_of_lt hc, List.all_cons, List.all_nil, Bool.and_true, isRestByte_ofNat hc]
  · obtain ⟨hr, b, rest, hb, hbr⟩ := exists_utf8EncodeChar_eq hc
    rw [hb, List.all_cons, hbr, hr, Bool.false_and]

theorem spellsIdentifierBytes_append (c : Char) (rest : List UInt8) :
    spellsIdentifierBytes (String.utf8EncodeChar c ++ rest) =
      (isIdentifierStart c && rest.all isRestByte) := by
  by_cases hc : c.toNat < 128
  · rw [utf8EncodeChar_of_lt hc, List.singleton_append, spellsIdentifierBytes, isStartByte_ofNat hc]
  · obtain ⟨hr, b, bytes, hb, hbr⟩ := exists_utf8EncodeChar_eq hc
    rw [isIdentifierRest, Bool.or_eq_false_iff] at hr
    rw [isRestByte, Bool.or_eq_false_iff] at hbr
    rw [hb, List.cons_append, spellsIdentifierBytes, hbr.1, hr.1, Bool.false_and, Bool.false_and]

/-- **Bytes of UTF-8 spell an identifier just if the characters do.** -/
theorem spellsIdentifierBytes_utf8 (text : String) :
    spellsIdentifierBytes (utf8 text) = isIdentifier text := by
  rw [utf8_eq, isIdentifier]
  cases text.toList with
  | nil => rfl
  | cons c rest =>
    rw [List.flatMap_cons, spellsIdentifierBytes_append, spellsIdentifier, List.all_flatMap]
    simp only [all_utf8EncodeChar]

/-- A letter of two bytes, neither of which an identifier has. -/
example : utf8 "é" = [0xC3, 0xA9] ∧ isRestByte 0xC3 = false ∧ isRestByte 0xA9 = false := by
  decide

/-! ## Classes of tokens -/

/-- **Nothing is a marker, a literal and an identifier**, or two of these. -/
theorem classes_apart (token : String) :
    ¬ ((literal? token).isSome = true ∧ isIdentifier token = true) ∧
    ¬ ((markedLabel? token).isSome = true ∧ isIdentifier token = true) ∧
    ¬ ((markedLabel? token).isSome = true ∧ (literal? token).isSome = true) := by
  refine ⟨?_, ?_, ?_⟩
  · rintro ⟨hl, hi⟩
    rw [(isIdentifier_iff.1 hi).literal?_eq_none] at hl
    cases hl
  · rintro ⟨hm, hi⟩
    rw [(isIdentifier_iff.1 hi).markedLabel?_eq_none] at hm
    cases hm
  · rintro ⟨hm, hl⟩
    obtain ⟨name, hn⟩ := Option.isSome_iff_exists.1 hm
    rw [IsMarker.literal?_eq_none ⟨name, markedLabel?_eq_some_iff_marks.1 hn⟩] at hl
    cases hl

/-- What a token may be, apart from a mnemonic. -/
inductive Lexeme where
  | marker (name : String)
  | integer (value : Word)
  | name (name : String)
  deriving DecidableEq, Repr

/-- What a token may be tested for. -/
inductive LexicalClass where
  | marker | literal | identifier
  deriving DecidableEq, Repr

namespace LexicalClass

/-- What a token says as a member of a class, if it is one. -/
def read? (token : String) : LexicalClass → Option Lexeme
  | marker => (markedLabel? token).map .marker
  | literal => (literal? token).map .integer
  | identifier => if isIdentifier token then some (.name token) else none

/-- **A token belongs to one class at most.** -/
theorem eq_of_read? {token : String} {first second : LexicalClass} {a b : Lexeme}
    (h : first.read? token = some a) (h' : second.read? token = some b) : first = second := by
  obtain ⟨hli, hmi, hml⟩ := classes_apart token
  replace h : (first.read? token).isSome = true := Option.isSome_iff_exists.2 ⟨a, h⟩
  replace h' : (second.read? token).isSome = true := Option.isSome_iff_exists.2 ⟨b, h'⟩
  cases first <;> cases second <;> simp_all [read?]

end LexicalClass

/-- What a token says in the first class that it is in, of those of a list. -/
def lexeme? (order : List LexicalClass) (token : String) : Option Lexeme :=
  order.findSome? (LexicalClass.read? token)

theorem lexeme?_eq_some_iff {order : List LexicalClass} {token : String} {a : Lexeme} :
    lexeme? order token = some a ↔ ∃ c ∈ order, c.read? token = some a := by
  constructor
  · exact List.exists_of_findSome?_eq_some
  · rintro ⟨c, hc, ha⟩
    have hsome : (lexeme? order token).isSome = true :=
      List.findSome?_isSome_iff.2 ⟨c, hc, by rw [ha, Option.isSome_some]⟩
    obtain ⟨b, hb⟩ := Option.isSome_iff_exists.1 hsome
    obtain ⟨d, -, hd⟩ := List.exists_of_findSome?_eq_some hb
    obtain rfl := LexicalClass.eq_of_read? ha hd
    rw [hb, ← hd, ha]

/-- **The order of the tests does not matter.** -/
theorem lexeme?_congr {order order' : List LexicalClass} (h : ∀ c, c ∈ order ↔ c ∈ order') :
    lexeme? order = lexeme? order' := by
  funext token
  refine Option.ext fun a => ?_
  rw [lexeme?_eq_some_iff, lexeme?_eq_some_iff]
  simp only [h]

/-! ## Reading tokens -/

/-- An operand, from what its token is found to be. -/
def Argument.ofTokenBy (read : String → Option Lexeme) (token : String) :
    Except TokenFault Argument :=
  match read token with
  | some (Lexeme.marker _) => .error (.unexpectedLabel token)
  | some (Lexeme.integer value) => .ok (.integer value)
  | some (Lexeme.name word) => .ok (.name word)
  | none => .error (.invalidToken token)

/-- The statements of a line, from what its tokens are found to be. -/
def Statement.ofTokensBy (read : String → Option Lexeme) :
    List String → Except TokenFault (List Statement)
  | [] => .ok []
  | token :: rest =>
    match read token with
    | some (Lexeme.marker name) => (ofTokensBy read rest).map (label name :: ·)
    | _ => (rest.mapM (Argument.ofTokenBy read)).map fun operands => [instruction token operands]

theorem Argument.ofTokenBy_eq (token : String) :
    ofTokenBy (lexeme? [.marker, .literal, .identifier]) token = ofToken token := by
  unfold ofTokenBy ofToken lexeme?
  simp only [List.findSome?_cons, List.findSome?_nil, LexicalClass.read?]
  cases markedLabel? token with
  | some name => rfl
  | none =>
    cases literal? token with
    | some value => rfl
    | none => cases isIdentifier token <;> rfl

theorem Statement.ofTokensBy_eq (tokens : List String) :
    ofTokensBy (lexeme? [.marker, .literal, .identifier]) tokens = ofTokens tokens := by
  induction tokens with
  | nil => rfl
  | cons token rest ih =>
    rw [ofTokensBy, ofTokens, ih, funext Argument.ofTokenBy_eq]
    simp only [lexeme?, List.findSome?_cons, List.findSome?_nil, LexicalClass.read?]
    cases markedLabel? token with
    | some name => rfl
    | none =>
      cases literal? token with
      | some value => rfl
      | none => cases isIdentifier token <;> rfl

/-! ## Names of registers -/

/-- An identifier that no program declares or jumps to. -/
structure Reserved (name : String) : Prop where
  isIdentifier : isIdentifier name = true
  /-- Its declaration is the fault of a list of labels. -/
  declaration : ∀ (labels : Labels) (statement position : Nat) (rest : List Statement),
    labels.addStatements statement position (.label name :: rest) =
      .of (.error ⟨statement, .invalidLabel name⟩)
  /-- No jump goes there, whatever the labels are. -/
  jump : ∀ (labels : Labels) (word : String) (condition : Condition),
    Mnemonic.ofName? word = some (.jump condition) →
      Instruction.assemble labels word [.name name] = .error (.invalidOperand word name)
  /-- So no statements with either of them come to a program. -/
  program : ∀ (code : List Statement) (p : Program), (Program.assemble code).result = .ok p →
    .label name ∉ code ∧ p.labels.index? name = none ∧
      ∀ word condition, Mnemonic.ofName? word = some (.jump condition) →
        .instruction word [.name name] ∉ code

theorem reserved_name (r : Register) : Reserved r.name where
  isIdentifier := isIdentifier_registerName r
  declaration labels statement position rest := by
    rw [Labels.addStatements, isLabelName_registerName, if_neg Bool.false_ne_true]
  jump labels word condition hm := by
    rw [Instruction.assemble, hm]
    simp only [jumpTarget, isLabelName_registerName]
    rfl
  program code p hp := by
    have hlabel : .label r.name ∉ code := by
      intro hn
      have hname := (binds_of_assemble hp).isLabelName r.name hn
      rw [isLabelName_registerName] at hname
      cases hname
    refine ⟨hlabel, Option.eq_none_iff_forall_ne_some.2 fun index hi => ?_, ?_⟩
    · exact hlabel ((binds_of_assemble hp).index?_eq_some_iff.1 hi).mem
    · intro word condition hm hi
      cases exists_assemble_iff.1 ⟨p, hp⟩ _ hi with
      | step hw _ =>
        rw [ofName?_data_iff.2 (mem_stepWords_iff.1 hw).1] at hm
        cases hm
      | jump _ ht =>
        cases ht with
        | label hn => exact hlabel hn

/-! ## The classes together -/

/-- **Markers, literals and identifiers are told apart**, in any order.  Bytes of UTF-8
    spell an identifier just if the text is one, and no token belongs to two of the
    classes.  So tests for some of them find the same in whatever order they are made,
    and lines are read as what tests for all of them find.  The name of a register is
    an identifier, but no program declares it or jumps to it. -/
theorem lexicalClasses_disjoint :
    (∀ text : String, (spellsIdentifierBytes (utf8 text) = true ↔ Identifier text) ∧
      spellsIdentifierBytes (utf8 text) = isIdentifier text) ∧
    (∀ token : String,
      ¬ ((literal? token).isSome = true ∧ isIdentifier token = true) ∧
      ¬ ((markedLabel? token).isSome = true ∧ isIdentifier token = true) ∧
      ¬ ((markedLabel? token).isSome = true ∧ (literal? token).isSome = true)) ∧
    (∀ order order' : List LexicalClass, (∀ c, c ∈ order ↔ c ∈ order') →
      lexeme? order = lexeme? order') ∧
    (∀ order : List LexicalClass, (∀ c, c ∈ order) →
      (∀ token, Argument.ofTokenBy (lexeme? order) token = Argument.ofToken token) ∧
      ∀ tokens, Statement.ofTokensBy (lexeme? order) tokens = Statement.ofTokens tokens) ∧
    ∀ name r, Register.ofName? name = some r → Reserved name := by
  refine ⟨fun text => ?_, classes_apart, fun order order' h => lexeme?_congr h, fun order h => ?_,
    fun name r hr => ?_⟩
  · rw [spellsIdentifierBytes_utf8, isIdentifier_iff]
    exact ⟨Iff.rfl, rfl⟩
  · have hall : lexeme? order = lexeme? [.marker, .literal, .identifier] := by
      refine lexeme?_congr fun c => ⟨fun _ => ?_, fun _ => h c⟩
      cases c <;> decide
    rw [hall]
    exact ⟨Argument.ofTokenBy_eq, Statement.ofTokensBy_eq⟩
  · rw [Register.ofName?_eq_some_iff.1 hr]
    exact reserved_name r

/-- Tests in the opposite order, of tokens with the letters and digits of one another. -/
theorem lexicalClasses_disjoint_reversed :
    Statement.ofTokensBy (lexeme? [.identifier, .literal, .marker]) ["xb1:", "mov", "ax", "0xb1"] =
      .ok [.label "xb1", .instruction "mov" [.name "ax", .integer 177]] ∧
    Reserved "ax" := by
  obtain ⟨-, -, -, horder, hname⟩ := lexicalClasses_disjoint
  have hall : ∀ c, c ∈ [LexicalClass.identifier, .literal, .marker] := by
    intro c
    cases c <;> decide
  refine ⟨?_, hname "ax" .ax (by decide)⟩
  rw [(horder _ hall).2]
  rfl

end RegisterMachine
