/-
# Absent rather than empty

Whatever a document leaves out, or says with nothing in it, is absent from its schema at every
depth: no description is blank, no optional index is there without entries, and no union, enum or
directive definition is without members or places.  Only the arguments of directives come from the
marker table, so of these the table has to keep the same rule.

* `Schema.NothingEmpty` : that nothing in a schema is there and empty;
* `Extractor.extract_nothingEmpty` : this holds of every schema of a document.
-/
import SdlSchema.Proofs.Text.Trimming
import SdlSchema.Proofs.Reading.Attempts
import SdlSchema.Proofs.Extraction.Publication

namespace SdlSchema

/-! ## Nothing is empty -/

/-- A text that holds something, and no blanks at its ends. -/
def Text.Trimmed (text : String) : Prop := text ≠ "" ∧ Text.trim text.toList = text.toList

/-- The index holds something, and nothing without the property. -/
structure NameIndex.Filled {α : Type} (Proper : α → Prop) (index : NameIndex α) : Prop where
  isEmpty_eq : index.isEmpty = false
  forall_values : ∀ value ∈ index.values, Proper value

/-- A directive has arguments or they are absent. -/
structure Directive.NothingEmpty (directive : Directive) : Prop where
  arguments : ∀ index ∈ directive.arguments, index.isEmpty = false

/-- The directives of a table have arguments or they are absent. -/
def MarkerTable.NothingEmpty (table : MarkerTable) : Prop :=
  ∀ directive ∈ table.values, directive.NothingEmpty

/-- Nothing on an input value is there and empty. -/
structure InputValue.NothingEmpty (value : InputValue) : Prop where
  description : ∀ text ∈ value.description, Text.Trimmed text
  directives : ∀ index ∈ value.directives, index.Filled Directive.NothingEmpty

/-- Nothing on a field is there and empty. -/
structure Field.NothingEmpty (field : Field) : Prop where
  value : field.toInputValue.NothingEmpty
  arguments : ∀ index ∈ field.arguments, index.Filled InputValue.NothingEmpty

/-- Nothing on a member is there and empty. -/
structure Member.NothingEmpty (member : Member) : Prop where
  directives : ∀ index ∈ member.directives, index.Filled Directive.NothingEmpty

/-- Nothing on a type is there and empty, and its body has the property. -/
structure TypeDefinition.NothingEmpty {Body : Type} (Proper : Body → Prop)
    (type : TypeDefinition Body) : Prop where
  description : ∀ text ∈ type.description, Text.Trimmed text
  directives : ∀ index ∈ type.directives, index.Filled Directive.NothingEmpty
  body : Proper type.body

/-- Fields and interfaces are absent or there are some. -/
structure ObjectBody.NothingEmpty (body : ObjectBody) : Prop where
  fields : ∀ index ∈ body.fields, index.Filled Field.NothingEmpty
  interfaces : ∀ index ∈ body.interfaces, index.isEmpty = false

/-- Nothing on a directive definition is there and empty, and it names a place. -/
structure DirectiveDefinition.NothingEmpty (definition : DirectiveDefinition) : Prop where
  description : ∀ text ∈ definition.description, Text.Trimmed text
  elements : definition.elements.isEmpty = false
  arguments : ∀ index ∈ definition.arguments, index.isEmpty = false

/-- Nothing in a schema is there and empty, apart from the indexes of definitions themselves. -/
structure Schema.NothingEmpty (schema : Schema) : Prop where
  objects : ∀ object ∈ schema.objects.values, object.NothingEmpty ObjectBody.NothingEmpty
  interfaces : ∀ interface ∈ schema.interfaces.values, interface.NothingEmpty
    fun fields => ∀ index ∈ fields, index.Filled Field.NothingEmpty
  inputs : ∀ input ∈ schema.inputs.values, input.NothingEmpty
    fun fields => ∀ index ∈ fields, index.Filled InputValue.NothingEmpty
  unions : ∀ union ∈ schema.unions.values, union.NothingEmpty
    fun members => members.Filled Member.NothingEmpty
  enums : ∀ enum ∈ schema.enums.values, enum.NothingEmpty
    fun members => members.Filled Member.NothingEmpty
  scalars : ∀ scalar ∈ schema.scalars.values, scalar.NothingEmpty fun _ => True
  directives : ∀ definition ∈ schema.directives.values, definition.NothingEmpty

/-! ## What is published is not empty -/

/-- A text that is kept is trimmed. -/
theorem trimmed_of_presentText {description : Option String} {text : String}
    (h : text ∈ presentText description) : Text.Trimmed text := by
  obtain ⟨given, -, hkept⟩ := Option.bind_eq_some_iff.mp h
  unfold Text.nonBlank at hkept
  split at hkept
  · cases hkept
  · next first rest htrim =>
    cases hkept
    have hidle := Text.trim_trim given.toList
    rw [htrim] at hidle
    exact ⟨by simp [String.ext_iff], by rw [String.toList_ofList, hidle]⟩

section

variable {α γ : Type} [Named α] {captures : List γ} {key : γ → String} {Gives : γ → α → Prop}
  {Proper : α → Prop}

/-- An index holds nothing but what is proper if each capture gives something proper. -/
theorem Published.forall_values {index : NameIndex α} (h : Published captures key Gives index)
    (hproper : ∀ capture ∈ captures, ∀ value, Gives capture value → Proper value) :
    ∀ value ∈ index.values, Proper value := by
  intro value hvalue
  obtain ⟨capture, hmem, hgives⟩ := h.exists_mem hvalue
  exact hproper capture hmem value hgives

/-- If there are captures besides, the index is filled. -/
theorem Published.filled {index : NameIndex α} (h : Published captures key Gives index)
    (hcaptures : captures ≠ [])
    (hproper : ∀ capture ∈ captures, ∀ value, Gives capture value → Proper value) :
    index.Filled Proper :=
  ⟨h.isEmpty_eq_false hcaptures, h.forall_values hproper⟩

/-- An optional index is absent, or it is filled. -/
theorem PublishedIfAny.filled {index : Option (NameIndex α)}
    (h : PublishedIfAny captures key Gives index)
    (hproper : ∀ capture ∈ captures, ∀ value, Gives capture value → Proper value) :
    ∀ held ∈ index, held.Filled Proper :=
  fun held hheld => (h.published held hheld).filled (h.captures_ne_nil hheld) hproper

end

namespace MarkerTable

variable {table : MarkerTable}

/-- What markers stand for is in the table. -/
theorem mem_values_of_mem_decode {run : Run} {directive : Directive}
    (h : directive ∈ table.decode run) : directive ∈ table.values := by
  obtain ⟨token, -, hget⟩ := List.mem_filterMap.mp h
  exact List.mem_map.mpr ⟨_, (NameIndex.get?_eq_some_iff table token.word directive).mp hget, rfl⟩

theorem GivesDirectives.filled (htable : table.NothingEmpty) {markers : Run}
    {directives : Directives} (h : table.GivesDirectives markers directives) :
    ∀ index ∈ directives, index.Filled Directive.NothingEmpty :=
  PublishedIfAny.filled h fun directive hmem _ heq =>
    heq ▸ htable directive (mem_values_of_mem_decode hmem)

theorem GivesInputValue.nothingEmpty (htable : table.NothingEmpty) {description : Option String}
    {line : ArgumentLine} {value : InputValue} (h : table.GivesInputValue description line value) :
    value.NothingEmpty :=
  ⟨fun _ htext => trimmed_of_presentText (h.description ▸ htext), h.directives.filled htable⟩

theorem GivesField.nothingEmpty (htable : table.NothingEmpty) {line : Described FieldLine}
    {field : Field} (h : table.GivesField line field) : field.NothingEmpty :=
  ⟨h.value.nothingEmpty htable, h.arguments.filled fun _ _ _ hvalue => hvalue.nothingEmpty htable⟩

theorem GivesMember.nothingEmpty (htable : table.NothingEmpty) {element : Element}
    {member : Member} (h : table.GivesMember element member) : member.NothingEmpty :=
  ⟨h.directives.filled htable⟩

end MarkerTable

namespace Extractor

variable {extractor : Extractor}

theorem GivesHeading.nothingEmpty (htable : extractor.table.NothingEmpty) {Body : Type}
    {description : Option String} {heading : Heading} {type : TypeDefinition Body}
    {Proper : Body → Prop} (h : extractor.GivesHeading description heading type)
    (hbody : Proper type.body) : type.NothingEmpty Proper :=
  ⟨fun _ htext => trimmed_of_presentText (h.description ▸ htext), h.directives.filled htable, hbody⟩

theorem GivesObject.nothingEmpty (htable : extractor.table.NothingEmpty)
    {found : Described FieldedDeclaration} {object : ObjectDefinition}
    (h : extractor.GivesObject found object) : object.NothingEmpty ObjectBody.NothingEmpty := by
  refine h.heading.nothingEmpty htable ⟨?_, ?_⟩
  · exact h.fields.filled fun _ _ _ hfield => hfield.nothingEmpty htable
  · exact fun _ hheld => h.interfaces.isEmpty_eq_false hheld

theorem GivesInterface.nothingEmpty (htable : extractor.table.NothingEmpty)
    {found : Described FieldedDeclaration} {interface : InterfaceDefinition}
    (h : extractor.GivesInterface found interface) :
    interface.NothingEmpty fun fields => ∀ index ∈ fields, index.Filled Field.NothingEmpty :=
  h.heading.nothingEmpty htable (h.fields.filled fun _ _ _ hfield => hfield.nothingEmpty htable)

theorem GivesInput.nothingEmpty (htable : extractor.table.NothingEmpty)
    {found : Described FieldedDeclaration} {input : InputDefinition}
    (h : extractor.GivesInput found input) :
    input.NothingEmpty fun fields => ∀ index ∈ fields, index.Filled InputValue.NothingEmpty :=
  h.heading.nothingEmpty htable (h.fields.filled fun _ _ _ hfield => hfield.nothingEmpty htable)

theorem GivesMembers.nothingEmpty (htable : extractor.table.NothingEmpty)
    {description : Option String} {heading : Heading} {list : List Element}
    {type : TypeDefinition (NameIndex Member)} (hlist : list ≠ [])
    (h : extractor.GivesMembers description heading list type) :
    type.NothingEmpty fun members => members.Filled Member.NothingEmpty :=
  h.heading.nothingEmpty htable
    (h.members.filled hlist fun _ _ _ hmember => hmember.nothingEmpty htable)

end Extractor

/-! ## Lists that were read -/

/-- The list of a union was read as a list of members. -/
theorem UnionDeclaration.exists_read_members {run rest : Run} {declaration : UnionDeclaration}
    (h : UnionDeclaration.reader.read run = .ok (declaration, rest)) :
    ∃ start left, NameList.members.read start = .ok (declaration.members, left) := by
  obtain ⟨afterKeyword, -, h⟩ := bind_eq_ok.mp h
  obtain ⟨⟨name, afterName⟩, -, h⟩ := bind_eq_ok.mp h
  obtain ⟨afterEquals, -, h⟩ := bind_eq_ok.mp h
  obtain ⟨⟨members, afterMembers⟩, hmembers, h⟩ := bind_eq_ok.mp h
  cases h
  exact ⟨_, _, hmembers⟩

/-- A union that was read has a member. -/
theorem UnionDeclaration.members_ne_nil {run rest : Run} {declaration : UnionDeclaration}
    (h : UnionDeclaration.reader.read run = .ok (declaration, rest)) :
    declaration.members.items ≠ [] :=
  have ⟨_, _, hmembers⟩ := exists_read_members h
  NameList.items_ne_nil hmembers

/-- The places of a directive definition were read as a list of locations. -/
theorem DirectiveDeclaration.exists_read_locations {run rest : Run}
    {declaration : DirectiveDeclaration} (h : reader.read run = .ok (declaration, rest)) :
    ∃ start left, NameList.locations.read start = .ok (declaration.locations, left) := by
  obtain ⟨afterKeyword, -, h⟩ := bind_eq_ok.mp h
  obtain ⟨⟨marker, afterMarker⟩, -, h⟩ := bind_eq_ok.mp h
  obtain ⟨afterOn, -, h⟩ := bind_eq_ok.mp h
  obtain ⟨⟨locations, afterLocations⟩, hlocations, h⟩ := bind_eq_ok.mp h
  cases h
  exact ⟨_, _, hlocations⟩

/-- A directive definition that was read lists a place. -/
theorem DirectiveDeclaration.locations_ne_nil {run rest : Run} {declaration : DirectiveDeclaration}
    (h : DirectiveDeclaration.reader.read run = .ok (declaration, rest)) :
    declaration.locations.items ≠ [] :=
  have ⟨_, _, hlocations⟩ := exists_read_locations h
  NameList.items_ne_nil hlocations

/-- What holds of every declaration that is read holds of those of a document. -/
theorem Reader.of_mem_scan {α : Type} {reader : Reader α} {Holds : α → Prop}
    (hread : ∀ {run rest item}, reader.read run = .ok (item, rest) → Holds item) {document : Run}
    {found : Described α} (h : found ∈ reader.scan document) : Holds found.item := by
  obtain ⟨start, rest, -, hfound⟩ := exists_read_of_mem_scan h
  exact hread (described_read_eq_ok.mp hfound).2

/-! ## Schemas -/

namespace Extractor

variable {extractor : Extractor}

/-- An enum with a value has a member. -/
theorem elements_ne_nil_of_declaresValue {found : Described EnumDeclaration}
    (h : declaresValue found = true) : elements found.item.body ≠ [] := by
  intro hnil
  rw [declaresValue, (elements_eq_nil_iff _).mp hnil] at h
  cases h

theorem GivesDirective.nothingEmpty {document : Run}
    {known : Directive × Described DirectiveDeclaration} {definition : DirectiveDefinition}
    (hknown : known ∈ extractor.knownDirectives document) (h : GivesDirective known definition) :
    definition.NothingEmpty := by
  obtain ⟨found, hfound, hsome⟩ := List.mem_filterMap.mp hknown
  obtain ⟨applied, -, rfl⟩ := Option.map_eq_some_iff.mp hsome
  have hlist : found.item.locations.items ≠ [] :=
    Reader.of_mem_scan DirectiveDeclaration.locations_ne_nil hfound
  exact ⟨fun _ htext => trimmed_of_presentText (h.description ▸ htext),
    h.elements.isEmpty_eq_false hlist,
    fun _ hheld => h.arguments.isEmpty_eq_false hheld⟩

/-- **Nothing is there and empty.**  If no directive of the marker table has an empty index of
arguments, then nothing in the schema of a document is there and empty, at any depth: descriptions
are trimmed texts that hold something; directives, fields, arguments and interfaces are absent, or
there are some; and every union, enum and directive definition has members or places. -/
theorem extract_nothingEmpty {text : String} {schema : Schema}
    (htable : extractor.table.NothingEmpty) (h : extractor.extract text = .ok schema) :
    schema.NothingEmpty := by
  rw [extract_parallel] at h
  obtain ⟨index, hindex, rfl⟩ := extractor.extractInTurn_eq_ok.mp h
  refine ⟨?_, ?_, ?_, ?_, ?_, ?_, ?_⟩
  · exact (extractor.published_objects _).forall_values fun _ _ _ hgives =>
      hgives.nothingEmpty htable
  · exact (extractor.published_interfaces _).forall_values fun _ _ _ hgives =>
      hgives.nothingEmpty htable
  · exact (extractor.published_inputs _).forall_values fun _ _ _ hgives =>
      hgives.nothingEmpty htable
  · exact (extractor.published_unions _).forall_values fun _ hfound _ hgives =>
      hgives.nothingEmpty htable (Reader.of_mem_scan UnionDeclaration.members_ne_nil hfound)
  · exact (extractor.published_enums _).forall_values fun _ hfound _ hgives =>
      hgives.nothingEmpty htable (elements_ne_nil_of_declaresValue (List.mem_filter.mp hfound).2)
  · exact (extractor.published_scalars _).forall_values fun _ _ _ hgives =>
      hgives.nothingEmpty htable trivial
  · exact (published_directives hindex).forall_values fun _ hknown _ hgives =>
      (givesDirective hgives).nothingEmpty hknown

/-- A type with a blank description and an unknown marker, and a field with a description, empty
parentheses and a marker that stands for a directive with an argument. -/
theorem extract_nothingEmpty_blank : ∃ schema,
    extract ⟨NameIndex.ofPairs [("%0", (Directive.ofName "key").withArgument "id" "1")], {}⟩
      "\"\"\" \"\"\" type A %1 \x7b \" d \" a(): X %0 \x7d\nunion U = V" = .ok schema ∧
    MarkerTable.NothingEmpty
      (NameIndex.ofPairs [("%0", (Directive.ofName "key").withArgument "id" "1")]) ∧
    schema.size = 2 ∧ schema.NothingEmpty := by
  have htable : MarkerTable.NothingEmpty
      (NameIndex.ofPairs [("%0", (Directive.ofName "key").withArgument "id" "1")]) := by
    intro directive hmem
    obtain rfl := List.mem_singleton.mp hmem
    exact ⟨fun index hindex => by cases hindex; rfl⟩
  have hsize : (match extract
      ⟨NameIndex.ofPairs [("%0", (Directive.ofName "key").withArgument "id" "1")], {}⟩
      "\"\"\" \"\"\" type A %1 \x7b \" d \" a(): X %0 \x7d\nunion U = V" with
    | .ok schema => decide (schema.size = 2)
    | .error _ => false) = true := by decide +kernel
  split at hsize
  · next schema hok =>
    exact ⟨schema, hok, htable, of_decide_eq_true hsize, extract_nothingEmpty htable hok⟩
  · cases hsize

end Extractor

end SdlSchema
