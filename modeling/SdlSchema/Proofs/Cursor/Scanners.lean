/-
# Scanners of texts

A scanner reads a text into its tokens, and walks over them.  Of a text shorter than 4 GiB it finds
what the readers find, and never fails; and so of every stretch of such a text, since that is short
too and is cut into its own tokens again.

* `Checked.declarations`, `Checked.fields`, `Checked.arguments`, `Checked.elements` : the scanners;
* `Relexed` : a short run that its text is cut into again;
* `Relexed.declarations_eq`, `Relexed.fields_eq`, … : what the scanners find.
-/
import SdlSchema.Proofs.Lexing.Relexing
import SdlSchema.Proofs.Cursor.Scans

namespace SdlSchema

/-! ## The scanners -/

/-- What a walk over the tokens of a text returns. -/
def Walk.over {α : Type} (walk : Walk α) (text : String) : Except Fault α := do
  let source ← Source.read text.toList
  let (found, _) ← walk source 0
  pure found

namespace DeclarationKind

/-- What is cut out for a declaration of each kind. -/
def Texts : DeclarationKind → Type
  | .fielded => FieldedText
  | .union => UnionText
  | .scalar => HeadingText
  | .enum => EnumText
  | .directive => DirectiveText

/-- The attempt to take a declaration of each kind. -/
def attempt : (kind : DeclarationKind) → Attempt kind.Texts
  | .fielded => Attempt.fielded
  | .union => Attempt.union
  | .scalar => Attempt.scalar
  | .enum => Attempt.enum
  | .directive => Attempt.directive

/-- The texts of a declaration of each kind. -/
def texts : (kind : DeclarationKind) → kind.Declaration → kind.Texts
  | .fielded => FieldedDeclaration.texts
  | .union => UnionDeclaration.texts
  | .scalar => ScalarDeclaration.texts
  | .enum => EnumDeclaration.texts
  | .directive => DirectiveDeclaration.texts

theorem follows_attempt {text : List Char} {start : Nat} {run : Run} (kind : DeclarationKind)
    (hshort : Text.byteLength text < 2 ^ 32) (h : At text start run) :
    Attempt.Follows kind.attempt text start kind.texts (kind.reader.read run) := by
  cases kind with
  | fielded => exact .fielded hshort h
  | union => exact .union hshort h
  | scalar => exact .scalar hshort h
  | enum => exact .enum hshort h
  | directive => exact .directive hshort h

end DeclarationKind

namespace Checked

/-- The declarations of one kind in a text. -/
def declarations (kind : DeclarationKind) (text : String) :
    Except Fault (List (Described kind.Texts)) := (Attempt.scan kind.attempt).over text

/-- The fields in the text of a body. -/
def fields (body : String) : Except Fault (List (Described FieldText)) :=
  (Attempt.items (Attempt.described Attempt.field) Attempt.recoverField).over body

/-- The arguments in a text. -/
def arguments (body : String) : Except Fault (List (Described ArgumentText)) :=
  (Attempt.items (Attempt.described Attempt.argument) Attempt.recoverArgument).over body

/-- The elements in the text of a list. -/
def elements (list : String) : Except Fault (List ElementText) := Attempt.elements.over list

end Checked

/-! ## Runs that are read again -/

/-- A run whose text is shorter than 4 GiB and is cut into that run. -/
structure Relexed (run : Run) : Prop where
  short : Text.byteLength run.chars < 2 ^ 32
  tokenize_chars : tokenize run.chars = run

namespace Relexed

variable {run part : Run}

/-- The tokens of a short text. -/
theorem ofString {text : String} (h : text.utf8ByteSize < 2 ^ 32) :
    Relexed (Run.ofString text) where
  short := by
    rw [Run.ofString, chars_tokenize, ← Text.utf8ByteSize_ofList, String.ofList_toList]
    exact h
  tokenize_chars := by rw [Run.ofString, chars_tokenize]

/-- A stretch of a run. -/
theorem of_isInfix (h : Relexed run) (hpart : part <:+: run) : Relexed part where
  short := by
    obtain ⟨front, behind, rfl⟩ := hpart
    have hshort := h.short
    rw [Run.chars_append, Run.chars_append, Text.byteLength_append, Text.byteLength_append]
      at hshort
    omega
  tokenize_chars := tokenize_chars_of_isInfix (h.tokenize_chars.symm ▸ hpart)

theorem at_start (h : Relexed run) : At run.chars 0 run := by
  have hstart := At.start run.chars
  rwa [h.tokenize_chars] at hstart

/-- A walk that returns one result over the tokens of the run gives it for the text of the run. -/
theorem over_eq {α : Type} {walk : Walk α} {result : α} (h : Relexed run)
    (hwalk : Walk.Returns walk (Source.of run.chars) 0 fun found _ => found = result) :
    walk.over run.text = .ok result := by
  obtain ⟨found, stop, hrun, rfl⟩ := hwalk
  have hsource : Source.read run.text.toList = .ok (Source.of run.chars) := by
    rw [Run.text, String.toList_ofList, Source.read_eq h.short]
  exact bind_eq_ok.mpr ⟨_, hsource, bind_eq_ok.mpr ⟨_, hrun, rfl⟩⟩

/-! ## What the scanners find -/

theorem declarations_eq (h : Relexed run) (kind : DeclarationKind) :
    Checked.declarations kind run.text
      = .ok ((kind.declarations run).map (Described.map kind.texts)) := by
  have hscan := Attempt.returns_scan kind.isDeclaration_reader (kind.follows_attempt h.short)
  rw [h.tokenize_chars] at hscan
  exact h.over_eq hscan

theorem fields_eq (h : Relexed run) :
    Checked.fields run.text = .ok ((fieldLines run).map (Described.map FieldLine.texts)) :=
  h.over_eq (Attempt.returns_items (Attempt.Follows.described (Attempt.Follows.field h.short))
    Attempt.recovers_recoverField h.at_start)

theorem arguments_eq (h : Relexed run) :
    Checked.arguments run.text = .ok ((argumentLines run).map (Described.map ArgumentLine.texts)) :=
  h.over_eq (Attempt.returns_items (Attempt.Follows.described (Attempt.Follows.argument h.short))
    Attempt.recovers_recoverArgument h.at_start)

theorem elements_eq (h : Relexed run) :
    Checked.elements run.text = .ok ((elements run).map Element.texts) :=
  h.over_eq (Attempt.returns_elements h.short h.at_start)

end Relexed

end SdlSchema
