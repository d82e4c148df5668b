/-
# What a schema says of a document

Every record of a schema is tied to something captured in the document, and everything that a
record says is tied to the same capture: its name, its flags, its description, and the indexes in
it, which are tied in turn to what was captured in the captured part.  Where several captures have
one key, the record stands where the first of them would stand and says what the last of them says.

* `MarkerTable.GivesField`, `Extractor.GivesObject`, … : what a record says of its capture;
* `Extractor.Publishes` : what a schema says of a document;
* `Extractor.extract_publishes` : the schema of a document says this of it.
-/
import SdlSchema.Proofs.Extraction.Outcomes
import SdlSchema.Proofs.Reading.Elements

namespace SdlSchema

/-! ## What lines and elements give -/

namespace MarkerTable

variable (table : MarkerTable)

/-- The directives that the markers of a run stand for, each under its name. -/
def GivesDirectives (markers : Run) (directives : Directives) : Prop :=
  PublishedIfAny (table.decode markers) Directive.name Eq directives

/-- What an input value says of the line it was read from. -/
structure GivesInputValue (description : Option String) (line : ArgumentLine) (value : InputValue) :
    Prop where
  name : value.name = line.name
  type : value.type = line.type.text
  description : value.description = presentText description
  directives : table.GivesDirectives line.markers value.directives

/-- What a field says of the line it was read from. -/
structure GivesField (line : Described FieldLine) (field : Field) : Prop where
  value : table.GivesInputValue line.description line.item.toArgumentLine field.toInputValue
  arguments : PublishedIfAny (line.item.arguments.elim [] argumentLines)
    (fun line => line.item.name) (fun line => table.GivesInputValue line.description line.item)
    field.arguments

/-- What a member says of the element it was read from. -/
structure GivesMember (element : Element) (member : Member) : Prop where
  name : member.name = element.name
  directives : table.GivesDirectives element.markers member.directives

/-- The directives of a run are published under their names, with the last of each name. -/
theorem givesDirectives (markers : Run) :
    table.GivesDirectives markers (table.directives markers) := by
  have hcollected : Published (table.decode markers) Directive.name Eq (table.resolve markers) :=
    published_collect (List.forall₂_same.mpr fun _ _ => ⟨rfl, rfl⟩)
  exact hcollected.present

theorem givesInputValue (description : Option String) (line : ArgumentLine) :
    table.GivesInputValue description line (table.inputValue description line) :=
  ⟨rfl, rfl, rfl, table.givesDirectives line.markers⟩

/-- Each argument of a list is published under its name. -/
theorem published_arguments (body : Run) :
    Published (argumentLines body) (fun line => line.item.name)
      (fun line => table.GivesInputValue line.description line.item) (table.arguments body) :=
  published_collect_map fun line _ => ⟨rfl, table.givesInputValue line.description line.item⟩

theorem published_inputFields (body : Run) :
    Published (fieldLines body) (fun line => line.item.name)
      (fun line => table.GivesInputValue line.description line.item.toArgumentLine)
      (table.inputFields body) :=
  published_collect_map fun line _ =>
    ⟨rfl, table.givesInputValue line.description line.item.toArgumentLine⟩

theorem givesField (line : Described FieldLine) : table.GivesField line (table.field line) :=
  ⟨table.givesInputValue line.description line.item.toArgumentLine,
    .present_map table.published_arguments⟩

/-- Each field of a body is published under its name. -/
theorem published_fields (body : Run) :
    Published (fieldLines body) (fun line => line.item.name) table.GivesField
      (table.fields body) :=
  published_collect_map fun line _ => ⟨rfl, table.givesField line⟩

/-- Each element of a list is published as a member under its name. -/
theorem published_members (list : List Element) :
    Published list Element.name table.GivesMember (table.members list) :=
  published_collect_map fun element _ => ⟨rfl, rfl, table.givesDirectives element.markers⟩

end MarkerTable

/-! ## What declarations give -/

namespace Extractor

variable (extractor : Extractor)

/-- The name under which the declaration with this heading is indexed. -/
def key (heading : Heading) : String :=
  extractor.options.entityName heading.name heading.isExtended

/-- What a type says of the heading of its declaration. -/
structure GivesHeading {Body : Type} (description : Option String) (heading : Heading)
    (type : TypeDefinition Body) : Prop where
  name : type.name = extractor.key heading
  isExtended : type.isExtended = heading.isExtended
  description : type.description = presentText description
  directives : extractor.table.GivesDirectives heading.markers type.directives

/-- What an object says of its declaration. -/
structure GivesObject (found : Described FieldedDeclaration) (object : ObjectDefinition) :
    Prop where
  heading : extractor.GivesHeading found.description found.item.toHeading object
  fields : PublishedIfAny (fieldLines found.item.body) (fun line => line.item.name)
    extractor.table.GivesField object.body.fields
  interfaces : PublishedIfAny (found.item.interfaces.elim [] NameList.items) Element.name
    (fun element reference => reference.name = element.name) object.body.interfaces

/-- What an interface says of its declaration. -/
structure GivesInterface (found : Described FieldedDeclaration) (interface : InterfaceDefinition) :
    Prop where
  heading : extractor.GivesHeading found.description found.item.toHeading interface
  fields : PublishedIfAny (fieldLines found.item.body) (fun line => line.item.name)
    extractor.table.GivesField interface.body

/-- What an input says of its declaration. -/
structure GivesInput (found : Described FieldedDeclaration) (input : InputDefinition) : Prop where
  heading : extractor.GivesHeading found.description found.item.toHeading input
  fields : PublishedIfAny (fieldLines found.item.body) (fun line => line.item.name)
    (fun line => extractor.table.GivesInputValue line.description line.item.toArgumentLine)
    input.body

/-- What a union or an enum says of the declaration with these elements. -/
structure GivesMembers (description : Option String) (heading : Heading) (list : List Element)
    (type : TypeDefinition (NameIndex Member)) : Prop where
  heading : extractor.GivesHeading description heading type
  members : Published list Element.name extractor.table.GivesMember type.body

/-- What a directive definition says of its declaration and of the directive that its marker stands
for. -/
structure GivesDirective (known : Directive × Described DirectiveDeclaration)
    (definition : DirectiveDefinition) : Prop where
  name : definition.name = known.1.name
  isExtended : definition.isExtended = false
  isRepeatable : definition.isRepeatable = known.2.item.isRepeatable
  description : definition.description = presentText known.2.description
  elements : Published known.2.item.locations.items Element.name
    (fun element listed => listed.name = element.name ∧ listed.location.name = element.name)
    definition.elements
  arguments : PublishedIfAny (known.1.arguments.elim [] NameIndex.entries) Prod.fst
    (fun entry argument => argument.name = entry.1 ∧ argument.type = entry.2) definition.arguments

/-! ## What schemas say -/

/-- Whether an enum declaration has a value, which it has if there is a name in its block. -/
def declaresValue (found : Described EnumDeclaration) : Bool := found.item.body.any Token.isName

/-- What a schema says of the document it was extracted from. -/
structure Publishes (document : Run) (schema : Schema) : Prop where
  objects : Published (ofFieldedKind .object (fieldedDeclarations document))
    (fun found => extractor.key found.item.toHeading) extractor.GivesObject schema.objects
  interfaces : Published (ofFieldedKind .interface (fieldedDeclarations document))
    (fun found => extractor.key found.item.toHeading) extractor.GivesInterface schema.interfaces
  inputs : Published (ofFieldedKind .input (fieldedDeclarations document))
    (fun found => extractor.key found.item.toHeading) extractor.GivesInput schema.inputs
  unions : Published (unionDeclarations document) (fun found => extractor.key found.item.toHeading)
    (fun found => extractor.GivesMembers found.description found.item.toHeading
      found.item.members.items) schema.unions
  enums : Published ((enumDeclarations document).filter declaresValue)
    (fun found => extractor.key found.item.toHeading)
    (fun found => extractor.GivesMembers found.description found.item.toHeading
      (elements found.item.body)) schema.enums
  scalars : Published (scalarDeclarations document)
    (fun found => extractor.key found.item.toHeading)
    (fun found => extractor.GivesHeading found.description found.item.toHeading) schema.scalars
  directives : Published (extractor.knownDirectives document) (fun known => known.1.name)
    GivesDirective schema.directives

theorem givesHeading {Body : Type} (description : Option String) (heading : Heading) (body : Body) :
    extractor.GivesHeading description heading (extractor.define description heading body) :=
  ⟨rfl, rfl, rfl, extractor.table.givesDirectives heading.markers⟩

/-- Each object of a document is published under its key. -/
theorem published_objects (document : Run) :
    Published (ofFieldedKind .object (fieldedDeclarations document))
      (fun found => extractor.key found.item.toHeading) extractor.GivesObject
      (extractor.fieldedTypes document).objects := by
  refine published_collect_map fun found _ => ⟨rfl, extractor.givesHeading _ _ _,
    (extractor.table.published_fields found.item.body).present, .present_map fun list => ?_⟩
  exact published_collect_map fun element _ => ⟨rfl, rfl⟩

theorem published_interfaces (document : Run) :
    Published (ofFieldedKind .interface (fieldedDeclarations document))
      (fun found => extractor.key found.item.toHeading) extractor.GivesInterface
      (extractor.fieldedTypes document).interfaces :=
  published_collect_map fun found _ => ⟨rfl, extractor.givesHeading _ _ _,
    (extractor.table.published_fields found.item.body).present⟩

theorem published_inputs (document : Run) :
    Published (ofFieldedKind .input (fieldedDeclarations document))
      (fun found => extractor.key found.item.toHeading) extractor.GivesInput
      (extractor.fieldedTypes document).inputs :=
  published_collect_map fun found _ => ⟨rfl, extractor.givesHeading _ _ _,
    (extractor.table.published_inputFields found.item.body).present⟩

/-- Each union of a document is published under its key, with its members. -/
theorem published_unions (document : Run) :
    Published (unionDeclarations document) (fun found => extractor.key found.item.toHeading)
      (fun found => extractor.GivesMembers found.description found.item.toHeading
        found.item.members.items) (extractor.unions document) :=
  published_collect_map fun found _ => ⟨rfl, extractor.givesHeading _ _ _,
    extractor.table.published_members found.item.members.items⟩

theorem published_scalars (document : Run) :
    Published (scalarDeclarations document) (fun found => extractor.key found.item.toHeading)
      (fun found => extractor.GivesHeading found.description found.item.toHeading)
      (extractor.scalars document) :=
  published_collect_map fun _ _ => ⟨rfl, extractor.givesHeading _ _ _⟩

/-- An enum is defined exactly by the declarations with a value. -/
theorem enum?_eq (found : Described EnumDeclaration) :
    extractor.enum? found = if declaresValue found then
      some (extractor.define found.description found.item.toHeading
        (extractor.table.members (elements found.item.body))) else none := by
  have hempty := (extractor.table.published_members (elements found.item.body)).isEmpty_iff
  rw [elements_eq_nil_iff] at hempty
  rw [enum?, NameIndex.nonEmpty?, declaresValue]
  cases hany : found.item.body.any Token.isName with
  | true =>
    have hfilled : (extractor.table.members (elements found.item.body)).isEmpty = false := by
      rw [Bool.eq_false_iff, Ne, hempty, hany]
      exact Bool.noConfusion
    simp [hfilled]
  | false => simp [hempty.mpr hany]

/-- Each enumeration that declares a value is published under its key, with its values. -/
theorem published_enums (document : Run) :
    Published ((enumDeclarations document).filter declaresValue)
      (fun found => extractor.key found.item.toHeading)
      (fun found => extractor.GivesMembers found.description found.item.toHeading
        (elements found.item.body)) (extractor.enums document) := by
  have hdefined : ∀ declarations : List (Described EnumDeclaration),
      declarations.filterMap extractor.enum? = (declarations.filter declaresValue).map fun found =>
        extractor.define found.description found.item.toHeading
          (extractor.table.members (elements found.item.body)) := by
    intro declarations
    induction declarations with
    | nil => rfl
    | cons found declarations ih =>
      rw [List.filterMap_cons, List.filter_cons, enum?_eq, ih]
      cases declaresValue found <;> rfl
  rw [enums, hdefined]
  exact published_collect_map fun found _ => ⟨rfl, extractor.givesHeading _ _ _,
    extractor.table.published_members (elements found.item.body)⟩

/-- A definition that is given without an error says of its declaration what it should. -/
theorem givesDirective {known : Directive × Described DirectiveDeclaration}
    {definition : DirectiveDefinition} (h : directive known.1 known.2 = .ok definition) :
    GivesDirective known definition := by
  obtain ⟨listed, hlisted, rfl⟩ := directive_eq_ok.mp h
  refine ⟨rfl, rfl, rfl, rfl, ?_, .present_map fun arguments => ?_⟩
  · apply published_collect
    refine hlisted.imp fun element place hplace => ?_
    have hname := ListedLocation.name_of_parse hplace
    exact ⟨hname, hname, (ListedLocation.location_name_of_parse hplace).trans hname⟩
  · apply (published_mapWithName (fun _ _ => rfl) arguments).imp
    rintro entry argument rfl
    exact ⟨rfl, rfl⟩

/-! ## Publication -/

/-- **A schema holds what the document declares last under each name.**  In each of its seven
indexes, and in every index inside its records, the names are those of what was captured, each once,
in the order of their first occurrence; each value stands under its own name, and says what the last
capture of that name says.  A type says of itself that it is extended exactly if its declaration
does; directive definitions never are. -/
theorem extract_publishes {extractor : Extractor} {text : String} {schema : Schema}
    (h : extractor.extract text = .ok schema) :
    extractor.Publishes (Run.ofString text) schema := by
  rw [extract_parallel] at h
  obtain ⟨index, hindex, rfl⟩ := extractor.extractInTurn_eq_ok.mp h
  exact {
    objects := extractor.published_objects _
    interfaces := extractor.published_interfaces _
    inputs := extractor.published_inputs _
    unions := extractor.published_unions _
    enums := extractor.published_enums _
    scalars := extractor.published_scalars _
    directives := (published_directives hindex).imp fun _ _ => givesDirective }

/-- A scalar is declared again behind its extension and another, a union names a member twice, and
an enum has no value. -/
theorem extract_publishes_replaced : ∃ schema,
    extract ⟨NameIndex.ofPairs [("%0", .ofName "key")], {}⟩
      "scalar A\nextend scalar A\nscalar B\nscalar A %0\nunion U = V | W | V %0\nenum E \x7b \x7d"
        = .ok schema ∧
    schema.scalars.keys = ["A", "A_isExtended_", "B"] ∧ schema.enums.keys = [] ∧
    Publishes ⟨NameIndex.ofPairs [("%0", .ofName "key")], {}⟩ (Run.ofString
      "scalar A\nextend scalar A\nscalar B\nscalar A %0\nunion U = V | W | V %0\nenum E \x7b \x7d")
        schema := by
  have hkeys : (match extract ⟨NameIndex.ofPairs [("%0", .ofName "key")], {}⟩
      "scalar A\nextend scalar A\nscalar B\nscalar A %0\nunion U = V | W | V %0\nenum E \x7b \x7d"
    with
    | .ok schema => decide
        (schema.scalars.keys = ["A", "A_isExtended_", "B"] ∧ schema.enums.keys = [])
    | .error _ => false) = true := by decide +kernel
  split at hkeys
  · next schema hok =>
    obtain ⟨hscalars, henums⟩ := of_decide_eq_true hkeys
    exact ⟨schema, hok, hscalars, henums, extract_publishes hok⟩
  · cases hkeys

end Extractor

end SdlSchema
