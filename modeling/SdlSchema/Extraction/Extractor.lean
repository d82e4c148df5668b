/-
# From documents to schemas

An extractor finds the declarations of each kind in a document and indexes what they define by
name.  A declaration that extends another is indexed under its name with a suffix, so that both
have a place.  An enum without values defines nothing, nor does a directive definition whose
marker is unknown.  The only error is a place for directives that is in no vocabulary.

* `gather` : what several results give together, on any schedule;
* `extract_parallel` : working on the kinds side by side does not change the schema.
-/
import SdlSchema.Token.Tokenize
import SdlSchema.Declaration.Braced
import SdlSchema.Declaration.Plain
import SdlSchema.Schema.Basic
import SdlSchema.Extraction.Bodies

namespace SdlSchema

/-! ## Options -/

/-- How documents are turned into schemas. -/
structure ExtractionOptions where
  /-- What is appended to the name of a declaration that extends another. -/
  extensionSuffix : String := "_isExtended_"
  /-- Whether the kinds of declaration are worked on side by side. -/
  parallel : Bool := false

/-- The name under which a declaration is indexed. -/
def ExtractionOptions.entityName (options : ExtractionOptions) (name : String)
    (isExtended : Bool) : String :=
  if isExtended then name ++ options.extensionSuffix else name

/-- A marker table, and how documents are turned into schemas with it. -/
structure Extractor where
  table : MarkerTable
  options : ExtractionOptions := {}

/-! ## Work done side by side -/

/-- The order in which several pieces of work that are done side by side come to an end. -/
structure Schedule (count : Nat) where
  /-- The pieces by their numbers, the first to end first. -/
  order : List (Fin count)
  /-- Every piece comes to an end. -/
  mem_order : ∀ piece, piece ∈ order

/-- The schedule of pieces that are done one after the other. -/
def Schedule.inTurn (count : Nat) : Schedule count := ⟨List.finRange count, List.mem_finRange⟩

/-- The error of a result, if it is one. -/
def failure? {α ε : Type} : Except ε α → Option ε
  | .error error => some error
  | .ok _ => none

/-- The values of several results, in the order of the results, or the error of one of them.  Which
of several errors it is depends on the schedule alone: the first to come up is kept. -/
def gather {α ε : Type} (results : List (Except ε α)) (schedule : Schedule results.length) :
    Except ε (List α) :=
  match schedule.order.findSome? fun piece => failure? (results.get piece) with
  | some error => .error error
  | none => .ok (results.filterMap Except.toOption)

/-- The three kinds of type that own fields. -/
structure FieldedTypes where
  objects : NameIndex ObjectDefinition
  interfaces : NameIndex InterfaceDefinition
  inputs : NameIndex InputDefinition

namespace Extractor

/-! ## Types -/

/-- The type that a declaration with the given heading and body defines. -/
def define {Body : Type} (extractor : Extractor) (description : Option String) (heading : Heading)
    (body : Body) : TypeDefinition Body where
  name := extractor.options.entityName heading.name heading.isExtended
  isExtended := heading.isExtended
  description := presentText description
  directives := extractor.table.directives heading.markers
  body := body

/-- The union that a declaration defines. -/
def union (extractor : Extractor) (found : Described UnionDeclaration) : UnionDefinition :=
  extractor.define found.description found.item.toHeading
    (extractor.table.members found.item.members.items)

/-- The unions of a document. -/
def unions (extractor : Extractor) (document : Run) : NameIndex UnionDefinition :=
  NameIndex.collect ((unionDeclarations document).map extractor.union)

/-- The enum that a declaration defines, if it declares a value. -/
def enum? (extractor : Extractor) (found : Described EnumDeclaration) : Option EnumDefinition :=
  (extractor.table.members (elements found.item.body)).nonEmpty?.map
    (extractor.define found.description found.item.toHeading)

/-- The enums of a document. -/
def enums (extractor : Extractor) (document : Run) : NameIndex EnumDefinition :=
  NameIndex.collect ((enumDeclarations document).filterMap extractor.enum?)

/-- The scalar that a declaration defines. -/
def scalar (extractor : Extractor) (found : Described ScalarDeclaration) : ScalarDefinition :=
  extractor.define found.description found.item.toHeading ()

/-- The scalars of a document. -/
def scalars (extractor : Extractor) (document : Run) : NameIndex ScalarDefinition :=
  NameIndex.collect ((scalarDeclarations document).map extractor.scalar)

/-- The object that a declaration defines. -/
def object (extractor : Extractor) (found : Described FieldedDeclaration) : ObjectDefinition :=
  extractor.define found.description found.item.toHeading
    { fields := present (some (extractor.table.fields found.item.body))
      interfaces := present (found.item.interfaces.map fun list =>
        NameIndex.collect (list.items.map fun element => Reference.mk element.name)) }

/-- The interface that a declaration defines. -/
def interface (extractor : Extractor) (found : Described FieldedDeclaration) :
    InterfaceDefinition :=
  extractor.define found.description found.item.toHeading
    (present (some (extractor.table.fields found.item.body)))

/-- The input that a declaration defines. -/
def input (extractor : Extractor) (found : Described FieldedDeclaration) : InputDefinition :=
  extractor.define found.description found.item.toHeading
    (present (some (extractor.table.inputFields found.item.body)))

/-- The declarations of one fielded kind. -/
def ofFieldedKind (kind : FieldedKind) (found : List (Described FieldedDeclaration)) :
    List (Described FieldedDeclaration) :=
  found.filter fun declaration => declaration.item.kind == kind

/-- The objects, interfaces and inputs of a document. -/
def fieldedTypes (extractor : Extractor) (document : Run) : FieldedTypes :=
  let found := fieldedDeclarations document
  { objects := NameIndex.collect ((ofFieldedKind .object found).map extractor.object)
    interfaces := NameIndex.collect ((ofFieldedKind .interface found).map extractor.interface)
    inputs := NameIndex.collect ((ofFieldedKind .input found).map extractor.input) }

/-! ## Directive definitions -/

/-- The definition that a declaration gives for the directive its marker stands for.  The
arguments of that directive are name to declared type. -/
def directive (directive : Directive) (found : Described DirectiveDeclaration) :
    Except SchemaError DirectiveDefinition := do
  let elements ← found.item.locations.items.mapM fun element =>
    ListedLocation.parse element.name
  pure
    { name := directive.name
      isRepeatable := found.item.isRepeatable
      description := presentText found.description
      elements := NameIndex.collect elements
      arguments := present (directive.arguments.map fun arguments =>
        arguments.mapWithName DirectiveArgument.mk) }

/-- The definition that a declaration gives, if its marker is known. -/
def directive? (extractor : Extractor) (found : Described DirectiveDeclaration) :
    Except SchemaError (Option DirectiveDefinition) :=
  match extractor.table.get? found.item.marker with
  | some applied => (directive applied found).map some
  | none => .ok none

/-- The directive definitions of a document, or the first place in it that is in no vocabulary. -/
def directives (extractor : Extractor) (document : Run) :
    Except SchemaError (NameIndex DirectiveDefinition) := do
  let found ← (directiveDeclarations document).mapM extractor.directive?
  pure (NameIndex.collect (found.filterMap id))

/-! ## Documents -/

/-- The schema with the given parts. -/
def assemble (fielded : FieldedTypes) (unions : NameIndex UnionDefinition)
    (enums : NameIndex EnumDefinition) (scalars : NameIndex ScalarDefinition)
    (directives : NameIndex DirectiveDefinition) : Schema where
  objects := fielded.objects
  interfaces := fielded.interfaces
  inputs := fielded.inputs
  unions := unions
  enums := enums
  scalars := scalars
  directives := directives

/-- The schema of a document, one kind of declaration after the other. -/
def extractInTurn (extractor : Extractor) (document : Run) : Except SchemaError Schema := do
  let directives ← extractor.directives document
  pure (assemble (extractor.fieldedTypes document) (extractor.unions document)
    (extractor.enums document) (extractor.scalars document) directives)

/-- The schema of a document, with the kinds of declaration worked on side by side. -/
def extractSideBySide (extractor : Extractor) (document : Run) : Except SchemaError Schema := do
  let fielded := Task.spawn fun _ => extractor.fieldedTypes document
  let unions := Task.spawn fun _ => extractor.unions document
  let enums := Task.spawn fun _ => extractor.enums document
  let scalars := Task.spawn fun _ => extractor.scalars document
  let directives ← extractor.directives document
  pure (assemble fielded.get unions.get enums.get scalars.get directives)

/-- The schema of a document. -/
def extract (extractor : Extractor) (text : String) : Except SchemaError Schema :=
  if extractor.options.parallel then extractor.extractSideBySide (Run.ofString text)
  else extractor.extractInTurn (Run.ofString text)

/-- The schemas of several documents that are worked on side by side, in the order of the documents,
or the error of one that has no schema, whichever comes up first. -/
def extractAll (extractor : Extractor) (texts : List String)
    (schedule : Schedule (texts.map extractor.extract).length := .inTurn _) :
    Except SchemaError (List Schema) :=
  gather (texts.map extractor.extract) schedule

theorem extractSideBySide_eq (extractor : Extractor) (document : Run) :
    extractor.extractSideBySide document = extractor.extractInTurn document := rfl

/-- Working on the kinds side by side does not change the schema. -/
theorem extract_parallel (extractor : Extractor) (text : String) :
    extractor.extract text = extractor.extractInTurn (Run.ofString text) := by
  unfold extract
  split
  · exact extractSideBySide_eq extractor _
  · rfl

end Extractor

end SdlSchema
