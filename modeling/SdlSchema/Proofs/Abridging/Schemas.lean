/-
# Schemas of abridged documents

An abridged document declares what is left of the declarations of the document.  The names in it are
the same, and so are the markers and with them the directives.  What may differ is how types are
written and what descriptions say, and a view may hide that.

* `Abridgement.HiddenBy` : that a view does not tell what is left of a document from the document;
* `Extractor.ofDeclarations` : the schema of given declarations;
* `Extractor.view_ofDeclarations` : the schema of what is left of declarations.
-/
import SdlSchema.Extraction.Extractor
import SdlSchema.Proofs.Abridging.Bodies
import SdlSchema.Proofs.Abridging.Hollow
import SdlSchema.Proofs.Reading.Types
import SdlSchema.Proofs.Reading.Captured
import SdlSchema.Proofs.Schema.Views

namespace SdlSchema

/-- The view does not tell what is left of the document from the document itself. -/
structure Abridgement.HiddenBy (A : Abridgement) (view : View) (document : Run) : Prop where
  commentsEndLines : document.CommentsEndLines
  type_eq : ∀ {type : Run}, type <:+: document → type.SpellsType →
    view.type (A.part type).text = view.type type.text
  description_eq : ∀ description : Option String,
    view.description (presentText (description.map A.content))
      = view.description (presentText description)

/-- Nor from any stretch of it. -/
theorem Abridgement.HiddenBy.of_isInfix {A : Abridgement} {view : View} {document part : Run}
    (h : A.HiddenBy view document) (hpart : part <:+: document) : A.HiddenBy view part where
  commentsEndLines := h.commentsEndLines.of_isInfix hpart
  type_eq hstretch := h.type_eq (hstretch.trans hpart)
  description_eq := h.description_eq

namespace MarkerTable

variable {A : Abridgement} {view : View} {body : Run} (table : MarkerTable)

/-! ## Markers -/

/-- The markers are left as they are. -/
theorem decode_part (A : Abridgement) (run : Run) :
    table.decode (A.part run) = table.decode run := by
  induction run with
  | nil => rfl
  | cons token tail ih =>
    simp only [decode] at ih ⊢
    cases hkept : A.token? token with
    | none =>
      have hmarker := (Token.of_isTrivia
        (Token.isTrivia_of_isInlineTrivia (A.isInlineTrivia_of_eq_none hkept))).2.2.1
      rw [A.part_cons_none hkept, ih, List.filter_cons_of_neg (by simp [hmarker])]
    | some kept =>
      rw [A.part_cons_some hkept]
      cases hmarker : token.isMarker with
      | true =>
        rw [List.filter_cons_of_pos ((Abridgement.isMarker_eq hkept).trans hmarker),
          List.filter_cons_of_pos hmarker, List.filterMap_cons, List.filterMap_cons,
          Abridgement.word_eq hkept (Or.inr hmarker), ih]
      | false =>
        rw [List.filter_cons_of_neg (by simp [Abridgement.isMarker_eq hkept, hmarker]),
          List.filter_cons_of_neg (by simp [hmarker]), ih]

/-- The directives of the markers in an abridged run are those of the run. -/
theorem directives_part (A : Abridgement) (run : Run) :
    table.directives (A.part run) = table.directives run := by
  rw [directives, directives, resolve, resolve, decode_part]

/-- What is left of an element is the same member. -/
theorem member_part (A : Abridgement) (element : Element) :
    table.member (A.element element) = table.member element := by
  rw [member, member, Abridgement.element, directives_part]

theorem members_part (A : Abridgement) (list : List Element) :
    table.members (list.map A.element) = table.members list := by
  rw [members, members, List.map_map]
  congr 2
  funext element
  exact table.member_part A element

/-! ## Fields and arguments -/

/-- The view does not tell what is left of an argument from the argument. -/
theorem view_inputValue (h : A.HiddenBy view body) (description : Option String)
    {line : ArgumentLine} (hstretch : line.type <:+: body) (htype : line.type.SpellsType) :
    view.inputValue (table.inputValue (description.map A.content) (A.argumentLine line))
      = view.inputValue (table.inputValue description line) := by
  simp only [View.inputValue, inputValue, Abridgement.argumentLine, Abridgement.typedLine,
    directives_part, h.description_eq, h.type_eq hstretch htype]

/-- The view does not tell the arguments of an abridged list from those of the list. -/
theorem view_arguments (h : A.HiddenBy view body) :
    (table.arguments (A.part body)).mapWithName (fun _ => view.inputValue)
      = (table.arguments body).mapWithName fun _ => view.inputValue := by
  apply NameIndex.mapWithName_collect_congr view.inputValue (fun _ => rfl)
  rw [A.argumentLines_part, List.map_map, List.map_map, List.map_map]
  apply List.map_congr_left
  intro line hline
  exact table.view_inputValue h line.description (isInfix_of_mem_argumentLines hline).1
    (spellsType_of_mem_argumentLines hline h.commentsEndLines)

theorem view_inputFields (h : A.HiddenBy view body) :
    (table.inputFields (A.part body)).mapWithName (fun _ => view.inputValue)
      = (table.inputFields body).mapWithName fun _ => view.inputValue := by
  apply NameIndex.mapWithName_collect_congr view.inputValue (fun _ => rfl)
  rw [A.fieldLines_part, List.map_map, List.map_map, List.map_map]
  apply List.map_congr_left
  intro line hline
  exact table.view_inputValue h line.description (isInfix_of_mem_fieldLines hline).1
    (spellsType_of_mem_fieldLines hline h.commentsEndLines)

/-- The view does not tell what is left of a field from the field. -/
theorem view_field (h : A.HiddenBy view body) {line : Described FieldLine}
    (hline : line ∈ fieldLines body) :
    view.field (table.field (A.described A.fieldLine line)) = view.field (table.field line) := by
  obtain ⟨htype, -, harguments⟩ := isInfix_of_mem_fieldLines hline
  have hvalue := table.view_inputValue h line.description htype
    (spellsType_of_mem_fieldLines hline h.commentsEndLines)
  have hmap : view.inputValues (present ((line.item.arguments.map A.part).map table.arguments))
      = view.inputValues (present (line.item.arguments.map table.arguments)) := by
    rw [View.inputValues, View.inputValues, ← present_map, ← present_map, Option.map_map,
      Option.map_map, Option.map_map]
    congr 1
    apply Option.map_congr
    intro arguments hmem
    exact table.view_arguments (h.of_isInfix (harguments arguments hmem))
  exact congrArg₂ Field.mk hvalue hmap

/-- The view does not tell the fields of an abridged body from those of the body. -/
theorem view_fields (h : A.HiddenBy view body) :
    (table.fields (A.part body)).mapWithName (fun _ => view.field)
      = (table.fields body).mapWithName fun _ => view.field := by
  apply NameIndex.mapWithName_collect_congr view.field (fun _ => rfl)
  rw [A.fieldLines_part, List.map_map, List.map_map, List.map_map]
  exact List.map_congr_left fun line hline => table.view_field h hline

end MarkerTable

/-! ## Declarations -/

namespace Extractor

variable {A : Abridgement} {view : View} {document : Run} (extractor : Extractor)

/-- Definitions look the same if their bodies do. -/
theorem view_define {Body : Type} (h : A.HiddenBy view document) {look : Body → Body}
    {body left : Body} (hbody : look left = look body) (description : Option String)
    (heading : Heading) :
    view.definition look (extractor.define (description.map A.content) (A.heading heading) left)
      = view.definition look (extractor.define description heading body) := by
  simp only [View.definition, define, Abridgement.heading, h.description_eq, hbody,
    MarkerTable.directives_part]

/-- The view does not tell what is left of a union from the union. -/
theorem view_union (h : A.HiddenBy view document) (found : Described UnionDeclaration) :
    view.definition id (extractor.union (A.described (A.declaration .union) found))
      = view.definition id (extractor.union found) :=
  extractor.view_define h (extractor.table.members_part A found.item.members.items)
    found.description found.item.toHeading

/-- The view does not tell what is left of an enumeration from the enumeration, published or not. -/
theorem view_enum? (h : A.HiddenBy view document) (found : Described EnumDeclaration) :
    (extractor.enum? (A.described (A.declaration .enum) found)).map (view.definition id)
      = (extractor.enum? found).map (view.definition id) := by
  have hmembers : extractor.table.members (elements (A.part found.item.body))
      = extractor.table.members (elements found.item.body) := by
    rw [A.elements_part, MarkerTable.members_part]
  have henum : extractor.enum? (A.described (A.declaration .enum) found)
      = (extractor.table.members (elements (A.part found.item.body))).nonEmpty?.map
        (extractor.define (found.description.map A.content) (A.heading found.item.toHeading)) := rfl
  rw [henum, hmembers, enum?, Option.map_map, Option.map_map]
  congr 1
  funext members
  exact extractor.view_define h rfl found.description found.item.toHeading

theorem view_scalar (h : A.HiddenBy view document) (found : Described ScalarDeclaration) :
    view.definition id (extractor.scalar (A.described (A.declaration .scalar) found))
      = view.definition id (extractor.scalar found) :=
  extractor.view_define h rfl found.description found.item.toHeading

section Fielded

variable (h : A.HiddenBy view document) {found : Described FieldedDeclaration}
  (hbody : found.item.body <:+: document)

include h hbody

theorem view_fields_present :
    view.fields (present (some (extractor.table.fields (A.part found.item.body))))
      = view.fields (present (some (extractor.table.fields found.item.body))) := by
  rw [View.fields, View.fields, ← present_map, ← present_map, Option.map_some, Option.map_some,
    extractor.table.view_fields (h.of_isInfix hbody)]

/-- The view does not tell what is left of an object type from the type. -/
theorem view_object :
    view.definition view.objectBody (extractor.object (A.described (A.declaration .fielded) found))
      = view.definition view.objectBody (extractor.object found) := by
  have hinterfaces : (found.item.interfaces.map A.nameList).map (fun list =>
        NameIndex.collect (list.items.map fun element => Reference.mk element.name))
      = found.item.interfaces.map fun list =>
        NameIndex.collect (list.items.map fun element => Reference.mk element.name) := by
    rw [Option.map_map]
    congr 1
    funext list
    simp only [Function.comp, Abridgement.nameList, List.map_map]
    rfl
  refine extractor.view_define h ?_ found.description found.item.toHeading
  exact congrArg₂ ObjectBody.mk (extractor.view_fields_present h hbody)
    (congrArg present hinterfaces)

theorem view_interface :
    view.definition view.fields (extractor.interface (A.described (A.declaration .fielded) found))
      = view.definition view.fields (extractor.interface found) :=
  extractor.view_define h (extractor.view_fields_present h hbody) found.description
    found.item.toHeading

/-- The view does not tell what is left of an input type from the type. -/
theorem view_input :
    view.definition view.inputValues (extractor.input (A.described (A.declaration .fielded) found))
      = view.definition view.inputValues (extractor.input found) := by
  refine extractor.view_define h ?_ found.description found.item.toHeading
  show view.inputValues (present (some (extractor.table.inputFields (A.part found.item.body)))) = _
  rw [View.inputValues, View.inputValues, ← present_map, ← present_map, Option.map_some,
    Option.map_some, extractor.table.view_inputFields (h.of_isInfix hbody)]

end Fielded

/-- The view does not tell what is left of a directive definition, nor whether its places are known.
-/
theorem view_directive (h : A.HiddenBy view document) (applied : Directive)
    (found : Described DirectiveDeclaration) :
    (directive applied (A.described (A.declaration .directive) found)).map view.directive
      = (directive applied found).map view.directive := by
  have hlocations : (found.item.locations.items.map A.element).mapM
        (fun element => ListedLocation.parse element.name)
      = found.item.locations.items.mapM fun element => ListedLocation.parse element.name :=
    List.mapM_map
  show Except.map _ ((found.item.locations.items.map A.element).mapM
    (fun element => ListedLocation.parse element.name) >>= _) = _
  rw [hlocations]
  simp only [directive]
  cases found.item.locations.items.mapM fun element => ListedLocation.parse element.name with
  | error miss => rfl
  | ok locations =>
    have hdescription := h.description_eq found.description
    show Except.ok (view.directive _) = Except.ok (view.directive _)
    simp only [View.directive, Abridgement.described, hdescription]
    rfl

/-- A definition is looked for under the marker alone. -/
theorem directive?_map_congr {look : DirectiveDefinition → DirectiveDefinition}
    {found left : Described DirectiveDeclaration} (hmarker : left.item.marker = found.item.marker)
    (h : ∀ applied, (directive applied left).map look = (directive applied found).map look) :
    (extractor.directive? left).map (Option.map look)
      = (extractor.directive? found).map (Option.map look) := by
  rw [directive?, directive?, hmarker]
  cases extractor.table.get? found.item.marker with
  | none => rfl
  | some applied =>
    have hsome : ∀ result : Except SchemaError DirectiveDefinition,
        (result.map some).map (Option.map look) = (result.map look).map some := by
      intro result
      cases result <;> rfl
    dsimp only
    rw [hsome, hsome, h]

/-- The view does not tell which directive definitions are published. -/
theorem view_directive? (h : A.HiddenBy view document) (found : Described DirectiveDeclaration) :
    (extractor.directive? (A.described (A.declaration .directive) found)).map
        (Option.map view.directive)
      = (extractor.directive? found).map (Option.map view.directive) :=
  extractor.directive?_map_congr rfl fun applied => view_directive h applied found

/-! ## Schemas -/

/-- The schema of given declarations. -/
def ofDeclarations (declared : (kind : DeclarationKind) → List (Described kind.Declaration)) :
    Except SchemaError Schema :=
  ((declared .directive).mapM extractor.directive?).map fun found =>
    assemble
      { objects := NameIndex.collect
          ((ofFieldedKind .object (declared .fielded)).map extractor.object)
        interfaces := NameIndex.collect
          ((ofFieldedKind .interface (declared .fielded)).map extractor.interface)
        inputs := NameIndex.collect
          ((ofFieldedKind .input (declared .fielded)).map extractor.input) }
      (NameIndex.collect ((declared .union).map extractor.union))
      (NameIndex.collect ((declared .enum).filterMap extractor.enum?))
      (NameIndex.collect ((declared .scalar).map extractor.scalar))
      (NameIndex.collect (found.filterMap id))

/-- The schema of a document is that of its declarations. -/
theorem extractInTurn_eq (document : Run) :
    extractor.extractInTurn document
      = extractor.ofDeclarations fun kind => kind.declarations document := by
  have hfound : (DeclarationKind.directive.declarations document).mapM extractor.directive?
      = (directiveDeclarations document).mapM extractor.directive? := rfl
  rw [extractInTurn, directives, ofDeclarations, hfound]
  cases (directiveDeclarations document).mapM extractor.directive? <;> rfl

/-- Results may be shown after all steps or after each of them. -/
theorem map_mapM {α β γ ε : Type} (f : α → Except ε β) (look : β → γ) (list : List α) :
    (list.mapM f).map (List.map look) = list.mapM fun a => (f a).map look := by
  induction list with
  | nil => rfl
  | cons a list ih =>
    rw [List.mapM_cons, List.mapM_cons, ← ih]
    cases f a with
    | error miss => rfl
    | ok b => cases list.mapM f <;> rfl

/-- Outcomes that look alike one by one look alike when they are collected. -/
theorem map_mapM_congr {α β γ ε : Type} {f : α → Except ε β} {look : β → γ} {tell : α → α}
    (h : ∀ a, (f (tell a)).map look = (f a).map look) (list : List α) :
    ((list.map tell).mapM f).map (List.map look) = (list.mapM f).map (List.map look) := by
  rw [List.mapM_map, map_mapM, map_mapM]
  congr 1
  funext a
  exact h a

section Collecting

variable {α Body : Type} (look : TypeDefinition Body → TypeDefinition Body)
  (hname : ∀ type, Named.name (look type) = Named.name type) (tell : α → α) {found : List α}

include hname

/-- Definitions that look alike one by one are indexed alike. -/
theorem view_collect_map (define : α → TypeDefinition Body)
    (h : ∀ a ∈ found, look (define (tell a)) = look (define a)) :
    (NameIndex.collect ((found.map tell).map define)).mapWithName (fun _ => look)
      = (NameIndex.collect (found.map define)).mapWithName fun _ => look := by
  apply NameIndex.mapWithName_collect_congr look hname
  rw [List.map_map, List.map_map, List.map_map]
  exact List.map_congr_left h

theorem view_collect_filterMap (define? : α → Option (TypeDefinition Body))
    (h : ∀ a ∈ found, (define? (tell a)).map look = (define? a).map look) :
    (NameIndex.collect ((found.map tell).filterMap define?)).mapWithName (fun _ => look)
      = (NameIndex.collect (found.filterMap define?)).mapWithName fun _ => look := by
  apply NameIndex.mapWithName_collect_congr look hname
  rw [List.filterMap_map, List.map_filterMap, List.map_filterMap]
  exact List.filterMap_congr h

/-- Where keywords are left as they are, the types of one kind are left together. -/
theorem view_collect_fielded (tell : Described FieldedDeclaration → Described FieldedDeclaration)
    (htell : ∀ declaration, (tell declaration).item.kind = declaration.item.kind)
    {found : List (Described FieldedDeclaration)} (kind : FieldedKind)
    (define : Described FieldedDeclaration → TypeDefinition Body)
    (h : ∀ declaration ∈ found, look (define (tell declaration)) = look (define declaration)) :
    (NameIndex.collect ((ofFieldedKind kind (found.map tell)).map define)).mapWithName
        (fun _ => look)
      = (NameIndex.collect ((ofFieldedKind kind found).map define)).mapWithName fun _ => look := by
  have hkind : ofFieldedKind kind (found.map tell) = (ofFieldedKind kind found).map tell := by
    rw [ofFieldedKind, ofFieldedKind, List.filter_map]
    congr 2
    funext declaration
    simp only [Function.comp, htell]
  rw [hkind]
  exact view_collect_map look hname tell define fun declaration hmem =>
    h declaration (List.mem_filter.mp hmem).1

end Collecting

theorem view_directives {found left : List (Option DirectiveDefinition)}
    (h : left.map (Option.map view.directive) = found.map (Option.map view.directive)) :
    (NameIndex.collect (left.filterMap id)).mapWithName (fun _ => view.directive)
      = (NameIndex.collect (found.filterMap id)).mapWithName fun _ => view.directive := by
  apply NameIndex.mapWithName_collect_congr view.directive fun _ => rfl
  have hmap : ∀ list : List (Option DirectiveDefinition),
      (list.filterMap id).map view.directive
        = (list.map (Option.map view.directive)).filterMap id := by
    intro list
    rw [List.map_filterMap, List.filterMap_map]
    rfl
  rw [hmap, hmap, h]

/-- The schema of what is left of declarations looks like the schema of the declarations. -/
theorem view_ofDeclarations (h : A.HiddenBy view document)
    {declared : (kind : DeclarationKind) → List (Described kind.Declaration)}
    (hbody : ∀ found ∈ (declared .fielded : List (Described FieldedDeclaration)),
      found.item.body <:+: document) :
    (extractor.ofDeclarations fun kind =>
        (declared kind).map (A.described (A.declaration kind))).map view.schema
      = (extractor.ofDeclarations declared).map view.schema := by
  have hdirectives : (((declared .directive).map (A.described (A.declaration .directive))).mapM
        extractor.directive?).map (List.map (Option.map view.directive))
      = ((declared .directive).mapM extractor.directive?).map
        (List.map (Option.map view.directive)) :=
    map_mapM_congr (extractor.view_directive? h) (declared .directive)
  unfold ofDeclarations
  -- only directive definitions can fail, and they fail in both schemas or in neither
  revert hdirectives
  generalize ((declared .directive).map (A.described (A.declaration .directive))).mapM
    extractor.directive? = left
  generalize (declared .directive).mapM extractor.directive? = found
  intro hdirectives
  cases left with
  | error miss =>
    cases found with
    | error miss' => cases hdirectives; rfl
    | ok found => cases hdirectives
  | ok left =>
    cases found with
    | error miss' => cases hdirectives
    | ok found =>
      have hsame := Except.ok.inj hdirectives
      simp only [Except.map, View.schema, assemble]
      rw [Except.ok.injEq, Schema.mk.injEq]
      refine ⟨?_, ?_, ?_, ?_, ?_, ?_, view_directives hsame⟩
      · exact view_collect_fielded (view.definition view.objectBody) (fun _ => rfl)
          (A.described (A.declaration .fielded)) (fun _ => rfl) .object extractor.object
          fun found hfound => extractor.view_object h (hbody found hfound)
      · exact view_collect_fielded (view.definition view.fields) (fun _ => rfl)
          (A.described (A.declaration .fielded)) (fun _ => rfl) .interface extractor.interface
          fun found hfound => extractor.view_interface h (hbody found hfound)
      · exact view_collect_fielded (view.definition view.inputValues) (fun _ => rfl)
          (A.described (A.declaration .fielded)) (fun _ => rfl) .input extractor.input
          fun found hfound => extractor.view_input h (hbody found hfound)
      · exact view_collect_map (view.definition id) (fun _ => rfl)
          (A.described (A.declaration .union)) extractor.union
          fun found _ => extractor.view_union h found
      · exact view_collect_filterMap (view.definition id) (fun _ => rfl)
          (A.described (A.declaration .enum)) extractor.enum?
          fun found _ => extractor.view_enum? h found
      · exact view_collect_map (view.definition id) (fun _ => rfl)
          (A.described (A.declaration .scalar)) extractor.scalar
          fun found _ => extractor.view_scalar h found

/-- The schema of what is left of a document looks like the schema of the document without the
fielded types of whose bodies nothing is left. -/
theorem view_extractInTurn_part {text : List Char} (hblanks : A.KeepsBlanks (tokenize text))
    (h : A.HiddenBy view (tokenize text)) :
    (extractor.extractInTurn (A.part (tokenize text))).map view.schema
      = (extractor.ofDeclarations (declarationsWithout
          (fun body => Text.allBlank (A.part body).chars) (tokenize text))).map view.schema := by
  have hdeclared : (fun kind : DeclarationKind => kind.declarations (A.part (tokenize text)))
      = fun kind : DeclarationKind => (declarationsWithout
          (fun body => Text.allBlank (A.part body).chars) (tokenize text) kind).map
        (A.described (A.declaration kind)) :=
    funext (A.declarations_part_eq hblanks)
  rw [extractInTurn_eq, hdeclared]
  refine extractor.view_ofDeclarations h fun found hfound => ?_
  exact (isInfix_of_mem_fieldedDeclarations (List.mem_filter.mp hfound).1).2

end Extractor

end SdlSchema
