/-
# Extraction from texts

Extraction as a program on texts: the parts of a declaration are texts, which are scanned in turn,
and whatever scans them may fail.  On a document shorter than 4 GiB nothing fails, and the schema,
or the error about a place that is in no vocabulary, is the one that extraction from runs gives.

* `Checked.extract` : extraction from a text, with faults;
* `Relexed.members_eq`, `Relexed.fieldsOf_eq`, … : what each part gives;
* `extraction_never_fails` : scanners and extraction never fail.
-/
import SdlSchema.Extraction.Extractor
import SdlSchema.Proofs.Reading.Captured
import SdlSchema.Proofs.Extraction.Presence
import SdlSchema.Proofs.Cursor.Scanners

namespace SdlSchema

namespace Checked

/-! ## Parts of definitions -/

/-- The directives that the markers in a text stand for. -/
def resolve (table : MarkerTable) (markers : String) : Except Fault (NameIndex Directive) := do
  let lexemes ← Lexeme.all markers.toList
  let found := lexemes.filter fun lexeme => lexeme.token.isMarker
  pure (NameIndex.collect (found.filterMap fun lexeme => table.get? lexeme.token.word))

/-- The directives of a run of markers, absent if there are none. -/
def directivesOf (table : MarkerTable) (markers : Option String) : Except Fault Directives := do
  let found ← markers.mapM (resolve table)
  pure (present found)

/-- The input value that a line declares. -/
def inputValue (table : MarkerTable) (description : Option String) (line : ArgumentText) :
    Except Fault InputValue := do
  let directives ← directivesOf table line.markers
  pure { name := line.name, type := line.type, description := presentText description, directives }

/-- The arguments in a text. -/
def argumentsOf (table : MarkerTable) (body : String) : Except Fault (NameIndex InputValue) := do
  let lines ← arguments body
  let values ← lines.mapM fun line => inputValue table line.description line.item
  pure (NameIndex.collect values)

/-- The fields of an input. -/
def inputFieldsOf (table : MarkerTable) (body : String) : Except Fault (NameIndex InputValue) := do
  let lines ← fields body
  let values ← lines.mapM fun line => inputValue table line.description line.item.toArgumentText
  pure (NameIndex.collect values)

/-- The field that a line declares. -/
def field (table : MarkerTable) (line : Described FieldText) : Except Fault Field := do
  let arguments ← line.item.arguments.mapM (argumentsOf table)
  let value ← inputValue table line.description line.item.toArgumentText
  pure ⟨value, present arguments⟩

/-- The fields of an object or interface. -/
def fieldsOf (table : MarkerTable) (body : String) : Except Fault (NameIndex Field) := do
  let lines ← fields body
  let found ← lines.mapM (field table)
  pure (NameIndex.collect found)

/-- The member or value that an element of a list declares. -/
def member (table : MarkerTable) (element : ElementText) : Except Fault Member := do
  let directives ← directivesOf table element.markers
  pure ⟨element.name, directives⟩

/-- The members or values of a list. -/
def membersOf (table : MarkerTable) (list : String) : Except Fault (NameIndex Member) := do
  let found ← elements list
  let members ← found.mapM (member table)
  pure (NameIndex.collect members)

/-- The interfaces that a list names. -/
def interfacesOf (list : String) : Except Fault (NameIndex Reference) := do
  let found ← elements list
  pure (NameIndex.collect (found.map fun element => Reference.mk element.name))

/-! ## Types -/

/-- The type that a declaration with the given heading and body defines. -/
def define {Body : Type} (extractor : Extractor) (description : Option String)
    (heading : HeadingText) (body : Body) : Except Fault (TypeDefinition Body) := do
  let directives ← directivesOf extractor.table heading.markers
  pure
    { name := extractor.options.entityName heading.name heading.isExtended
      isExtended := heading.isExtended
      description := presentText description
      directives
      body }

/-- The union or enum that a declaration defines, if it lists anything. -/
def listed? (extractor : Extractor) (description : Option String) (heading : HeadingText)
    (list : String) : Except Fault (Option (TypeDefinition (NameIndex Member))) := do
  let members ← membersOf extractor.table list
  if members.isEmpty then pure none
  else do
    let found ← define extractor description heading members
    pure (some found)

/-- The unions of a document. -/
def unions (extractor : Extractor) (document : String) :
    Except Fault (NameIndex UnionDefinition) := do
  let found : List (Described UnionText) ← declarations .union document
  let unions ← found.mapM fun union =>
    listed? extractor union.description union.item.toHeadingText union.item.members
  pure (NameIndex.collect (unions.filterMap id))

/-- The enums of a document. -/
def enums (extractor : Extractor) (document : String) :
    Except Fault (NameIndex EnumDefinition) := do
  let found : List (Described EnumText) ← declarations .enum document
  let enums ← found.mapM fun enum =>
    listed? extractor enum.description enum.item.toHeadingText enum.item.body
  pure (NameIndex.collect (enums.filterMap id))

/-- The scalars of a document. -/
def scalars (extractor : Extractor) (document : String) :
    Except Fault (NameIndex ScalarDefinition) := do
  let found : List (Described HeadingText) ← declarations .scalar document
  let scalars ← found.mapM fun scalar => define extractor scalar.description scalar.item ()
  pure (NameIndex.collect scalars)

/-- The object that a declaration defines. -/
def object (extractor : Extractor) (found : Described FieldedText) :
    Except Fault ObjectDefinition := do
  let fields ← fieldsOf extractor.table found.item.body
  let interfaces ← found.item.interfaces.mapM interfacesOf
  define extractor found.description found.item.toHeadingText
    ⟨present (some fields), present interfaces⟩

/-- The interface that a declaration defines. -/
def interface (extractor : Extractor) (found : Described FieldedText) :
    Except Fault InterfaceDefinition := do
  let fields ← fieldsOf extractor.table found.item.body
  define extractor found.description found.item.toHeadingText (present (some fields))

/-- The input that a declaration defines. -/
def input (extractor : Extractor) (found : Described FieldedText) :
    Except Fault InputDefinition := do
  let fields ← inputFieldsOf extractor.table found.item.body
  define extractor found.description found.item.toHeadingText (present (some fields))

/-- The objects, interfaces and inputs of a document. -/
def fieldedTypes (extractor : Extractor) (document : String) : Except Fault FieldedTypes := do
  let found : List (Described FieldedText) ← declarations .fielded document
  let ofKind := fun kind => found.filter fun declaration => declaration.item.kind == kind
  let objects ← (ofKind .object).mapM (object extractor)
  let interfaces ← (ofKind .interface).mapM (interface extractor)
  let inputs ← (ofKind .input).mapM (input extractor)
  pure ⟨.collect objects, .collect interfaces, .collect inputs⟩

/-! ## Directive definitions and documents -/

/-- What may give a schema error, or fail. -/
abbrev Extraction (α : Type) := ExceptT SchemaError (Except Fault) α

/-- A result or a schema error, without a fault. -/
def settle {α : Type} (result : Except SchemaError α) : Extraction α := ExceptT.mk (.ok result)

/-- The places in a list, all of which have to be in a vocabulary. -/
def places (list : String) : Extraction (NameIndex ListedLocation) := do
  let found ← elements list
  let places ← found.mapM fun element => settle (ListedLocation.parse element.name)
  pure (NameIndex.collect places)

/-- The definition that a declaration gives, if its marker is known. -/
def directive? (extractor : Extractor) (found : Described DirectiveText) :
    Extraction (Option DirectiveDefinition) := do
  match extractor.table.get? found.item.marker with
  | none => pure none
  | some applied => do
    let elements ← places found.item.locations
    pure (some
      { name := applied.name
        isRepeatable := found.item.isRepeatable
        description := presentText found.description
        elements
        arguments := present (applied.arguments.map fun arguments =>
          arguments.mapWithName DirectiveArgument.mk) })

/-- The directive definitions of a document, or the first place in it that is in no vocabulary. -/
def directives (extractor : Extractor) (document : String) :
    Extraction (NameIndex DirectiveDefinition) := do
  let found : List (Described DirectiveText) ← declarations .directive document
  let definitions ← found.mapM (directive? extractor)
  pure (NameIndex.collect (definitions.filterMap id))

/-- The schema of a document, one kind of declaration after the other. -/
def extractInTurn (extractor : Extractor) (document : String) : Extraction Schema := do
  let fielded ← fieldedTypes extractor document
  let unions ← unions extractor document
  let enums ← enums extractor document
  let scalars ← scalars extractor document
  let directives ← directives extractor document
  pure (Extractor.assemble fielded unions enums scalars directives)

/-- The schema of a document, with the kinds of declaration worked on side by side. -/
def extractSideBySide (extractor : Extractor) (document : String) : Extraction Schema := do
  let fielded := Task.spawn fun _ => fieldedTypes extractor document
  let unions := Task.spawn fun _ => unions extractor document
  let enums := Task.spawn fun _ => enums extractor document
  let scalars := Task.spawn fun _ => scalars extractor document
  let directives := Task.spawn fun _ => directives extractor document
  let fielded ← fielded.get
  let unions ← unions.get
  let enums ← enums.get
  let scalars ← scalars.get
  let directives ← directives.get
  pure (Extractor.assemble fielded unions enums scalars directives)

/-- The schema of a document. -/
def extract (extractor : Extractor) (document : String) : Extraction Schema :=
  if extractor.options.parallel then extractSideBySide extractor document
  else extractInTurn extractor document

end Checked

/-! ## Steps without a fault -/

namespace Checked

variable {α β : Type}

theorem settle_bind (result : Except SchemaError α) (next : α → Except SchemaError β) :
    (settle result >>= fun a => settle (next a)) = settle (result >>= next) := by
  cases result <;> rfl

/-- A step without a fault hands its result on. -/
theorem lift_bind {step : Except Fault α} {a : α} (h : step = .ok a) (next : α → Extraction β) :
    (liftM step >>= next) = next a := by rw [h]; rfl

/-- Working side by side gives what working in turn gives. -/
theorem extractSideBySide_eq (extractor : Extractor) (document : String) :
    extractSideBySide extractor document = extractInTurn extractor document := rfl

/-- Of several steps without a fault the first that gives a schema error gives the error. -/
theorem mapM_map_settle {γ : Type} {tell : α → β} {step : β → Extraction γ}
    {give : α → Except SchemaError γ} {list : List α}
    (h : ∀ a ∈ list, step (tell a) = settle (give a)) :
    (list.map tell).mapM step = settle (list.mapM give) := by
  induction list with
  | nil => rfl
  | cons a list ih =>
    rw [List.map_cons, List.mapM_cons, List.mapM_cons, h a List.mem_cons_self,
      ih fun a hmem => h a (List.mem_cons_of_mem _ hmem), ← settle_bind]
    congr 1
    funext b
    rw [← settle_bind]
    rfl

end Checked

/-! ## What parts give -/

/-- Where no step fails, each item gives what it gives. -/
theorem mapM_map_eq_ok {ε α β γ : Type} {tell : α → β} {step : β → Except ε γ} {give : α → γ}
    {list : List α} (h : ∀ a ∈ list, step (tell a) = .ok (give a)) :
    (list.map tell).mapM step = .ok (list.map give) := by
  induction list with
  | nil => rfl
  | cons a list ih =>
    rw [List.map_cons, List.mapM_cons, h a List.mem_cons_self,
      ih fun a hmem => h a (List.mem_cons_of_mem _ hmem)]
    rfl

namespace Relexed

variable {run : Run} {table : MarkerTable} {extractor : Extractor}

/-- The markers in the text of a run are those of the run. -/
theorem resolve_eq (h : Relexed run) :
    Checked.resolve table run.text = .ok (table.resolve run) := by
  have hall : Lexeme.all run.text.toList = .ok (Source.of run.chars).lexemes := by
    rw [Run.text, String.toList_ofList, Lexeme.all_eq h.short]
    rfl
  have hrun : (Source.of run.chars).lexemes.map Lexeme.token = run := by
    rw [← Source.run, Source.run_of, h.tokenize_chars]
  refine bind_eq_ok.mpr ⟨_, hall, congrArg (fun found => Except.ok (NameIndex.collect found)) ?_⟩
  conv_rhs => rw [MarkerTable.decode, ← hrun, List.filter_map, List.filterMap_map]
  rfl

theorem directivesOf_eq (h : Relexed run) :
    Checked.directivesOf table run.text? = .ok (table.directives run) := by
  cases hrun : run.isEmpty with
  | true =>
    rw [List.isEmpty_iff.mp hrun]
    rfl
  | false =>
    rw [Run.text?, hrun, if_neg Bool.false_ne_true]
    exact bind_eq_ok.mpr ⟨some (table.resolve run), by
      rw [Option.mapM_some, h.resolve_eq]; rfl, rfl⟩

/-- An input value is declared without a fault, and it is the one the line declares. -/
theorem inputValue_eq {line : ArgumentLine} (h : Relexed line.markers)
    (description : Option String) : Checked.inputValue table description line.texts
      = .ok (table.inputValue description line) :=
  bind_eq_ok.mpr ⟨_, h.directivesOf_eq, rfl⟩

theorem argumentsOf_eq (h : Relexed run) :
    Checked.argumentsOf table run.text = .ok (table.arguments run) := by
  refine bind_eq_ok.mpr ⟨_, h.arguments_eq, bind_eq_ok.mpr ⟨_, mapM_map_eq_ok fun line hline => ?_,
    rfl⟩⟩
  exact (h.of_isInfix (isInfix_of_mem_argumentLines hline).2).inputValue_eq _

theorem inputFieldsOf_eq (h : Relexed run) :
    Checked.inputFieldsOf table run.text = .ok (table.inputFields run) := by
  refine bind_eq_ok.mpr ⟨_, h.fields_eq, bind_eq_ok.mpr ⟨_, mapM_map_eq_ok fun line hline => ?_,
    rfl⟩⟩
  exact (h.of_isInfix (isInfix_of_mem_fieldLines hline).2.1).inputValue_eq _

/-- The fields in the text of a run are those of the run. -/
theorem fieldsOf_eq (h : Relexed run) :
    Checked.fieldsOf table run.text = .ok (table.fields run) := by
  refine bind_eq_ok.mpr ⟨_, h.fields_eq, bind_eq_ok.mpr ⟨_, mapM_map_eq_ok fun line hline => ?_,
    rfl⟩⟩
  obtain ⟨-, hmarkers, harguments⟩ := isInfix_of_mem_fieldLines hline
  have hheld : (line.item.arguments.map Run.text).mapM (Checked.argumentsOf table)
      = .ok (line.item.arguments.map table.arguments) := by
    cases hsome : line.item.arguments with
    | none => rfl
    | some arguments =>
      rw [Option.map_some, Option.mapM_some, (h.of_isInfix (harguments _ hsome)).argumentsOf_eq]
      rfl
  exact bind_eq_ok.mpr ⟨_, hheld,
    bind_eq_ok.mpr ⟨_, (h.of_isInfix hmarkers).inputValue_eq _, rfl⟩⟩

theorem membersOf_eq (h : Relexed run) :
    Checked.membersOf table run.text = .ok (table.members (elements run)) := by
  refine bind_eq_ok.mpr ⟨_, h.elements_eq, bind_eq_ok.mpr ⟨_,
    mapM_map_eq_ok fun element helement => ?_, rfl⟩⟩
  have hmarkers := Element.captures_reader.of_mem_items helement element.markers
    List.mem_cons_self
  exact bind_eq_ok.mpr ⟨_, (h.of_isInfix hmarkers).directivesOf_eq, rfl⟩

theorem define_eq {Body : Type} {heading : Heading} (h : Relexed heading.markers)
    (description : Option String) (body : Body) :
    Checked.define extractor description heading.texts body
      = .ok (extractor.define description heading body) :=
  bind_eq_ok.mpr ⟨_, h.directivesOf_eq, rfl⟩

/-- A list in a text declares what the list of the run declares, if anything. -/
theorem listed?_eq (extractor : Extractor) {heading : Heading} (h : Relexed heading.markers)
    (hlist : Relexed run) (description : Option String) :
    Checked.listed? extractor description heading.texts run.text
      = .ok ((extractor.table.members (elements run)).nonEmpty?.map
          (extractor.define description heading)) := by
  refine bind_eq_ok.mpr ⟨_, hlist.membersOf_eq, ?_⟩
  rw [NameIndex.nonEmpty?]
  split
  · rfl
  · exact bind_eq_ok.mpr ⟨_, h.define_eq _ _, rfl⟩

end Relexed

/-! ## What declarations give -/

/-- The interfaces of a declaration were read as a list of interfaces. -/
theorem FieldedDeclaration.exists_read_interfaces {run rest : Run}
    {declaration : FieldedDeclaration} (h : reader.read run = .ok (declaration, rest)) :
    ∀ list ∈ declaration.interfaces, ∃ start left,
      NameList.interfaces.read start = .ok (list, left) := by
  obtain ⟨⟨kind, afterKind⟩, -, h⟩ := bind_eq_ok.mp h
  obtain ⟨⟨name, afterName⟩, -, h⟩ := bind_eq_ok.mp h
  obtain ⟨⟨interfaces, afterInterfaces⟩, hinterfaces, h⟩ := bind_eq_ok.mp h
  obtain ⟨afterOpen, -, h⟩ := bind_eq_ok.mp h
  obtain ⟨⟨body, afterClose⟩, -, h⟩ := bind_eq_ok.mp h
  dsimp only at h hinterfaces
  split at h
  · cases h
  · cases h
    rintro list hlist
    obtain rfl : interfaces = some list := hlist
    rw [readInterfaces] at hinterfaces
    split at hinterfaces
    · obtain ⟨⟨list', left⟩, hread, heq⟩ := bind_eq_ok.mp hinterfaces
      cases heq
      exact ⟨_, _, hread⟩
    · cases hinterfaces

/-- A list of members is worth keeping. -/
theorem NameIndex.nonEmpty?_members (table : MarkerTable) {list : List Element} (h : list ≠ []) :
    (table.members list).nonEmpty? = some (table.members list) := by
  rw [nonEmpty?_eq_some_iff]
  have hpublished : Published list Element.name (fun _ _ => True) (table.members list) :=
    published_collect_map fun _ _ => ⟨rfl, trivial⟩
  exact ⟨hpublished.isEmpty_eq_false h, rfl⟩

namespace Relexed

variable {document : Run} {extractor : Extractor}

/-- The parts of a declaration are read again as they were read. -/
theorem part (h : Relexed document) {kind : DeclarationKind} {found : Described kind.Declaration}
    (hfound : found ∈ kind.declarations document) {part : Run}
    (hpart : part ∈ kind.parts found.item) : Relexed part :=
  h.of_isInfix (kind.captures_reader.of_mem_scan hfound part hpart)

theorem unions_eq (h : Relexed document) :
    Checked.unions extractor document.text = .ok (extractor.unions document) := by
  have hgive : ∀ found ∈ DeclarationKind.union.declarations document,
      Checked.listed? extractor (Described.map UnionDeclaration.texts found).description
        found.item.toHeading.texts found.item.members.run.text
          = .ok (some (extractor.union found)) := by
    intro found hfound
    obtain ⟨start, left, hread⟩ :=
      Reader.of_mem_scan UnionDeclaration.exists_read_members hfound
    have hmembers := NameIndex.nonEmpty?_members extractor.table
      (Reader.of_mem_scan UnionDeclaration.members_ne_nil hfound)
    have hlisted := (h.part hfound List.mem_cons_self).listed?_eq extractor
      (h.part hfound (List.mem_cons_of_mem _ List.mem_cons_self)) found.description
    rwa [NameList.elements_members hread, hmembers] at hlisted
  refine bind_eq_ok.mpr ⟨_, h.declarations_eq .union,
    bind_eq_ok.mpr ⟨_, mapM_map_eq_ok hgive, ?_⟩⟩
  rw [List.filterMap_map]
  exact congrArg (fun unions => Except.ok (NameIndex.collect unions))
    (congrFun List.filterMap_eq_map _)

theorem enums_eq (h : Relexed document) :
    Checked.enums extractor document.text = .ok (extractor.enums document) := by
  have hgive : ∀ found ∈ DeclarationKind.enum.declarations document,
      Checked.listed? extractor (Described.map EnumDeclaration.texts found).description
        found.item.toHeading.texts found.item.body.text = .ok (extractor.enum? found) :=
    fun found hfound => (h.part hfound List.mem_cons_self).listed?_eq extractor
      (h.part hfound (List.mem_cons_of_mem _ List.mem_cons_self)) found.description
  have hkept := List.filterMap_map (f := extractor.enum?) (g := id) (l := enumDeclarations document)
  exact bind_eq_ok.mpr ⟨_, h.declarations_eq .enum, bind_eq_ok.mpr ⟨_, mapM_map_eq_ok hgive,
    congrArg (fun enums => Except.ok (NameIndex.collect enums)) hkept⟩⟩

theorem scalars_eq (h : Relexed document) :
    Checked.scalars extractor document.text = .ok (extractor.scalars document) := by
  have hgive : ∀ found ∈ DeclarationKind.scalar.declarations document,
      Checked.define extractor (Described.map ScalarDeclaration.texts found).description
        found.item.toHeading.texts () = .ok (extractor.scalar found) :=
    fun found hfound => (h.part hfound List.mem_cons_self).define_eq found.description ()
  exact bind_eq_ok.mpr ⟨_, h.declarations_eq .scalar,
    bind_eq_ok.mpr ⟨_, mapM_map_eq_ok hgive, rfl⟩⟩

/-! ## Objects, interfaces and inputs -/

/-- The interfaces that a declaration lists. -/
theorem interfacesOf_eq (h : Relexed document) {found : Described FieldedDeclaration}
    (hfound : found ∈ fieldedDeclarations document) :
    (found.item.interfaces.map fun list => list.run.text).mapM Checked.interfacesOf
      = .ok (found.item.interfaces.map fun list =>
        NameIndex.collect (list.items.map fun element => Reference.mk element.name)) := by
  cases hlist : found.item.interfaces with
  | none => rfl
  | some list =>
    obtain ⟨start, left, hread⟩ :=
      Reader.of_mem_scan FieldedDeclaration.exists_read_interfaces hfound list hlist
    have hpart : list.run ∈ DeclarationKind.parts .fielded found.item := by
      simp [DeclarationKind.parts, hlist, NameList.parts]
    have hnames := congrArg (List.map Reference.mk) (NameList.map_name_elements_interfaces hread)
    simp only [List.map_map] at hnames
    have hlisted : Checked.interfacesOf list.run.text
        = .ok (NameIndex.collect (list.items.map fun element => Reference.mk element.name)) := by
      refine bind_eq_ok.mpr ⟨_, (h.part hfound hpart).elements_eq, ?_⟩
      rw [List.map_map]
      exact congrArg (fun found => Except.ok (NameIndex.collect found)) hnames
    rw [Option.map_some, Option.mapM_some, hlisted]
    rfl

theorem object_eq (h : Relexed document) {found : Described FieldedDeclaration}
    (hfound : found ∈ fieldedDeclarations document) :
    Checked.object extractor (found.map FieldedDeclaration.texts)
      = .ok (extractor.object found) := by
  obtain ⟨hmarkers, hbody⟩ := isInfix_of_mem_fieldedDeclarations hfound
  exact bind_eq_ok.mpr ⟨_, (h.of_isInfix hbody).fieldsOf_eq,
    bind_eq_ok.mpr ⟨_, h.interfacesOf_eq hfound, (h.of_isInfix hmarkers).define_eq _ _⟩⟩

theorem interface_eq (h : Relexed document) {found : Described FieldedDeclaration}
    (hfound : found ∈ fieldedDeclarations document) :
    Checked.interface extractor (found.map FieldedDeclaration.texts)
      = .ok (extractor.interface found) := by
  obtain ⟨hmarkers, hbody⟩ := isInfix_of_mem_fieldedDeclarations hfound
  exact bind_eq_ok.mpr ⟨_, (h.of_isInfix hbody).fieldsOf_eq, (h.of_isInfix hmarkers).define_eq _ _⟩

theorem input_eq (h : Relexed document) {found : Described FieldedDeclaration}
    (hfound : found ∈ fieldedDeclarations document) :
    Checked.input extractor (found.map FieldedDeclaration.texts)
      = .ok (extractor.input found) := by
  obtain ⟨hmarkers, hbody⟩ := isInfix_of_mem_fieldedDeclarations hfound
  exact bind_eq_ok.mpr ⟨_, (h.of_isInfix hbody).inputFieldsOf_eq,
    (h.of_isInfix hmarkers).define_eq _ _⟩

/-- The objects, interfaces and inputs in the text of a document are those of the document. -/
theorem fieldedTypes_eq (h : Relexed document) :
    Checked.fieldedTypes extractor document.text = .ok (extractor.fieldedTypes document) := by
  have hkind : ∀ kind, ((fieldedDeclarations document).map
      (Described.map FieldedDeclaration.texts)).filter
        (fun declaration => declaration.item.kind == kind)
      = (Extractor.ofFieldedKind kind (fieldedDeclarations document)).map
        (Described.map FieldedDeclaration.texts) := fun kind => List.filter_map
  refine bind_eq_ok.mpr ⟨_, h.declarations_eq .fielded, ?_⟩
  refine bind_eq_ok.mpr ⟨_, (congrArg _ (hkind .object)).trans
    (mapM_map_eq_ok fun found hfound => h.object_eq (List.mem_of_mem_filter hfound)), ?_⟩
  refine bind_eq_ok.mpr ⟨_, (congrArg _ (hkind .interface)).trans
    (mapM_map_eq_ok fun found hfound => h.interface_eq (List.mem_of_mem_filter hfound)), ?_⟩
  exact bind_eq_ok.mpr ⟨_, (congrArg _ (hkind .input)).trans
    (mapM_map_eq_ok fun found hfound => h.input_eq (List.mem_of_mem_filter hfound)), rfl⟩

/-! ## Directive definitions -/

/-- The places in the text of a list are parsed in turn, and the first error is the outcome. -/
theorem places_eq {list : NameList} {start left : Run} (h : Relexed list.run)
    (hread : NameList.locations.read start = .ok (list, left)) :
    Checked.places list.run.text = Checked.settle (do
      let places ← list.items.mapM fun element => ListedLocation.parse element.name
      pure (NameIndex.collect places)) := by
  have hnames : (elements list.run).mapM (fun element => ListedLocation.parse element.name)
      = list.items.mapM fun element => ListedLocation.parse element.name := by
    have hparse := congrArg (List.mapM ListedLocation.parse)
      (NameList.map_name_elements_locations hread)
    rwa [List.mapM_map, List.mapM_map] at hparse
  have hplaces : ((elements list.run).map Element.texts).mapM
      (fun element => Checked.settle (ListedLocation.parse element.name))
        = Checked.settle (list.items.mapM fun element => ListedLocation.parse element.name) :=
    hnames ▸ Checked.mapM_map_settle fun _ _ => rfl
  rw [← Checked.settle_bind]
  exact (Checked.lift_bind h.elements_eq _).trans (congrArg (· >>= _) hplaces)

theorem directive?_eq (h : Relexed document) {found : Described DirectiveDeclaration}
    (hfound : found ∈ directiveDeclarations document) :
    Checked.directive? extractor (found.map DirectiveDeclaration.texts)
      = Checked.settle (extractor.directive? found) := by
  obtain ⟨start, left, hread⟩ :=
    Reader.of_mem_scan DirectiveDeclaration.exists_read_locations hfound
  have hpart : found.item.locations.run ∈ DeclarationKind.parts .directive found.item :=
    List.mem_cons_self
  have hlist : Relexed found.item.locations.run := h.part hfound hpart
  have hmarker : (found.map DirectiveDeclaration.texts).item.marker = found.item.marker := rfl
  rw [Checked.directive?, Extractor.directive?, hmarker]
  cases extractor.table.get? found.item.marker with
  | none => rfl
  | some applied =>
    refine (congrArg (· >>= _) (hlist.places_eq hread)).trans ?_
    simp only [Extractor.directive]
    cases found.item.locations.items.mapM fun element => ListedLocation.parse element.name with
    | error error => rfl
    | ok places => rfl

/-- The directive definitions in the text of a document are those of the document, or the error is
the same. -/
theorem directives_eq (h : Relexed document) :
    Checked.directives extractor document.text
      = Checked.settle (extractor.directives document) := by
  have hgiven :
      ((directiveDeclarations document).map (Described.map DirectiveDeclaration.texts)).mapM
        (Checked.directive? extractor)
        = Checked.settle ((directiveDeclarations document).mapM extractor.directive?) :=
    Checked.mapM_map_settle fun found hfound => h.directive?_eq hfound
  rw [Extractor.directives, ← Checked.settle_bind]
  exact (Checked.lift_bind (h.declarations_eq .directive) _).trans (congrArg (· >>= _) hgiven)

/-! ## Documents -/

theorem extractInTurn_eq (h : Relexed document) :
    Checked.extractInTurn extractor document.text
      = Checked.settle (extractor.extractInTurn document) := by
  rw [Checked.extractInTurn, Checked.lift_bind h.fieldedTypes_eq, Checked.lift_bind h.unions_eq,
    Checked.lift_bind h.enums_eq, Checked.lift_bind h.scalars_eq, h.directives_eq,
    Extractor.extractInTurn, ← Checked.settle_bind]
  rfl

/-- Whichever way a document is worked on, the outcome is that of the document, without a fault. -/
theorem extract_eq (h : Relexed document) :
    Checked.extract extractor document.text
      = Checked.settle (extractor.extractInTurn document) := by
  rw [Checked.extract, Checked.extractSideBySide_eq, ite_self]
  exact h.extractInTurn_eq

end Relexed

/-- **Nothing fails.**  A text shorter than 4 GiB is read into its tokens, scanned for declarations
of each kind, for fields, arguments and elements, its markers are resolved, and it is extracted with
every table and options, without a fault: no token is looked up beyond the last, no range of bytes
is turned around, no text is cut beyond its ends or inside a character, and no number falls below
zero.  What is found is what the readers find, and the schema or schema error is that of the
extraction. -/
theorem extraction_never_fails (text : String) (hshort : text.utf8ByteSize < 2 ^ 32) :
    (∃ source, Source.read text.toList = .ok source ∧ source.run = Run.ofString text) ∧
    (∀ kind : DeclarationKind, Checked.declarations kind text
      = .ok ((kind.declarations (Run.ofString text)).map (Described.map kind.texts))) ∧
    Checked.fields text
      = .ok ((fieldLines (Run.ofString text)).map (Described.map FieldLine.texts)) ∧
    Checked.arguments text
      = .ok ((argumentLines (Run.ofString text)).map (Described.map ArgumentLine.texts)) ∧
    Checked.elements text = .ok ((elements (Run.ofString text)).map Element.texts) ∧
    (∀ table, Checked.resolve table text = .ok (table.resolve (Run.ofString text))) ∧
    ∀ extractor, (Checked.extract extractor text).run = .ok (extractor.extract text) := by
  have h := Relexed.ofString hshort
  have htext : (Run.ofString text).text = text := by
    rw [Run.text, Run.ofString, chars_tokenize, String.ofList_toList]
  have hbytes : Text.byteLength text.toList < 2 ^ 32 := by
    have hchars := h.short
    rwa [Run.ofString, chars_tokenize] at hchars
  refine ⟨⟨_, Source.read_eq hbytes, Source.run_of _⟩, fun kind => ?_, ?_, ?_, ?_, fun table => ?_,
    fun extractor => ?_⟩
  · rw [← h.declarations_eq kind, htext]
  · rw [← h.fields_eq, htext]
  · rw [← h.arguments_eq, htext]
  · rw [← h.elements_eq, htext]
  · rw [← h.resolve_eq, htext]
  · rw [← htext, h.extract_eq, htext, Extractor.extract_parallel]
    rfl

/-- A text with characters of several bytes, inside a description and inside a comment. -/
theorem extraction_never_fails_multibyte :
    "\"\"\"Größe\"\"\"\nscalar Size # 寸法".utf8ByteSize < 2 ^ 32 ∧
    Checked.declarations .scalar "\"\"\"Größe\"\"\"\nscalar Size # 寸法"
      = .ok ((DeclarationKind.declarations .scalar
          (Run.ofString "\"\"\"Größe\"\"\"\nscalar Size # 寸法")).map
            (Described.map ScalarDeclaration.texts)) ∧
    ∀ extractor, (Checked.extract extractor "\"\"\"Größe\"\"\"\nscalar Size # 寸法").run
      = .ok (extractor.extract "\"\"\"Größe\"\"\"\nscalar Size # 寸法") := by
  have hshort : "\"\"\"Größe\"\"\"\nscalar Size # 寸法".utf8ByteSize < 2 ^ 32 := by decide
  obtain ⟨-, hdeclarations, -, -, -, -, hextract⟩ := extraction_never_fails _ hshort
  exact ⟨hshort, hdeclarations .scalar, hextract⟩

end SdlSchema
