/-
# The part of a marker table that counts

A marker table is asked for the markers of a document and for nothing else.  Markers are looked up
in runs that were captured at several depths, and each of these runs is a stretch of the document,
so what is looked up is a marker token of the document.

* `MarkerTable.AgreeOn` : two tables give the same for each marker of a run;
* `Extractor.extract_eq_of_agreeOn` : tables that agree on a document give it the same schema.
-/
import Mathlib.Data.List.Basic
import SdlSchema.NameIndex.Lemmas
import SdlSchema.Extraction.Extractor
import SdlSchema.Proofs.Reading.Captured

namespace SdlSchema

/-- Two tables give the same directive, or none, for each marker of a run. -/
def MarkerTable.AgreeOn (first second : MarkerTable) (run : Run) : Prop :=
  ∀ token ∈ run, token.isMarker = true → first.get? token.word = second.get? token.word

/-! ## Bodies and lists -/

namespace MarkerTable.AgreeOn

variable {first second : MarkerTable} {run part : Run}

/-- Tables that agree on a run agree on each stretch of it. -/
theorem of_isInfix (h : first.AgreeOn second run) (hpart : part <:+: run) :
    first.AgreeOn second part :=
  fun token hmem => h token (hpart.subset hmem)

/-- Tables that agree on the markers of a run read the same directives off it. -/
theorem decode_eq (h : first.AgreeOn second run) : first.decode run = second.decode run := by
  apply List.filterMap_congr
  intro token hmem
  obtain ⟨hmem, hmarker⟩ := List.mem_filter.mp hmem
  exact h token hmem hmarker

theorem directives_eq (h : first.AgreeOn second run) :
    first.directives run = second.directives run := by
  rw [directives, directives, resolve, resolve, h.decode_eq]

/-- Tables that agree on the markers of a line give the same input value. -/
theorem inputValue_eq {line : ArgumentLine} (h : first.AgreeOn second line.markers)
    (description : Option String) :
    first.inputValue description line = second.inputValue description line := by
  rw [inputValue, inputValue, h.directives_eq]

/-- Tables that agree on the markers of a list of arguments give the same arguments. -/
theorem arguments_eq (h : first.AgreeOn second run) :
    first.arguments run = second.arguments run := by
  have hlines : (argumentLines run).map (fun line => first.inputValue line.description line.item)
      = (argumentLines run).map fun line => second.inputValue line.description line.item := by
    apply List.map_congr_left
    intro line hline
    have hmarkers := h.of_isInfix (isInfix_of_mem_argumentLines hline).2
    exact hmarkers.inputValue_eq line.description
  rw [arguments, arguments, hlines]

theorem inputFields_eq (h : first.AgreeOn second run) :
    first.inputFields run = second.inputFields run := by
  have hlines : (fieldLines run).map
        (fun line => first.inputValue line.description line.item.toArgumentLine)
      = (fieldLines run).map
        fun line => second.inputValue line.description line.item.toArgumentLine := by
    apply List.map_congr_left
    intro line hline
    have hmarkers := h.of_isInfix (isInfix_of_mem_fieldLines hline).2.1
    exact hmarkers.inputValue_eq line.description
  rw [inputFields, inputFields, hlines]

/-- Tables that agree on the markers of a body give the same fields. -/
theorem fields_eq (h : first.AgreeOn second run) : first.fields run = second.fields run := by
  have hlines : (fieldLines run).map first.field = (fieldLines run).map second.field := by
    apply List.map_congr_left
    intro line hline
    obtain ⟨-, hmarkers, harguments⟩ := isInfix_of_mem_fieldLines hline
    have hmap : line.item.arguments.map first.arguments
        = line.item.arguments.map second.arguments :=
      Option.map_congr fun body hbody => (h.of_isInfix (harguments body hbody)).arguments_eq
    rw [field, field, (h.of_isInfix hmarkers).inputValue_eq line.description, hmap]
  rw [fields, fields, hlines]

theorem members_eq {list : List Element}
    (h : ∀ element ∈ list, first.AgreeOn second element.markers) :
    first.members list = second.members list := by
  have hlist : list.map first.member = list.map second.member := by
    apply List.map_congr_left
    intro element hmem
    rw [member, member, (h element hmem).directives_eq]
  rw [members, members, hlist]

/-- The markers of an element are a stretch of the list in which the element was read. -/
theorem of_mem_elements (h : first.AgreeOn second run) {element : Element}
    (hmem : element ∈ elements run) : first.AgreeOn second element.markers :=
  h.of_isInfix (Element.captures_reader.of_mem_items hmem _ (List.mem_singleton_self _))

end MarkerTable.AgreeOn

/-! ## The marker of a directive definition -/

/-- The marker of a directive definition is a marker token of the document. -/
theorem exists_marker_of_mem_directiveDeclarations {document : Run}
    {found : Described DirectiveDeclaration} (h : found ∈ directiveDeclarations document) :
    ∃ token ∈ document, token.isMarker = true ∧ found.item.marker = token.word := by
  obtain ⟨start, rest, hsuffix, hread⟩ := Reader.exists_read_of_mem_scan h
  obtain ⟨-, hread⟩ := Reader.described_read_eq_ok.mp hread
  obtain ⟨afterKeyword, hkeyword, hread⟩ := bind_eq_ok.mp hread
  obtain ⟨⟨marker, afterMarker⟩, hmarker, hread⟩ := bind_eq_ok.mp hread
  obtain ⟨afterOn, -, hread⟩ := bind_eq_ok.mp hread
  obtain ⟨⟨locations, afterLocations⟩, -, hread⟩ := bind_eq_ok.mp hread
  obtain ⟨token, hrun, htoken, rfl⟩ := DirectiveDeclaration.readMarker_eq_ok hmarker
  have hstart : token :: afterMarker <:+ document := by
    rw [← hrun]
    exact (Run.skipInline_suffix afterKeyword).trans <| (Run.expect_left hkeyword).suffix.trans <|
      (Run.acceptDescription_suffix start).trans hsuffix
  refine ⟨token, hstart.subset List.mem_cons_self, htoken, ?_⟩
  have hfound : (⟨token.word, _, _⟩ : DirectiveDeclaration) = found.item :=
    congrArg Prod.fst (Except.ok.inj hread)
  rw [← hfound]

/-! ## Declarations -/

namespace Extractor

variable {first second : MarkerTable} {document : Run} (options : ExtractionOptions)

/-- Tables that agree on the markers of a heading give the same definition. -/
theorem define_eq_of_agreeOn {Body : Type} {heading : Heading}
    (h : first.AgreeOn second heading.markers) (description : Option String) (body : Body) :
    define ⟨first, options⟩ description heading body
      = define ⟨second, options⟩ description heading body := by
  unfold define
  rw [h.directives_eq]

/-- The parts of a declaration are stretches of the document. -/
theorem agreeOn_parts (h : first.AgreeOn second document) (kind : DeclarationKind)
    {found : Described kind.Declaration} (hfound : found ∈ kind.declarations document) :
    ∀ part ∈ kind.parts found.item, first.AgreeOn second part :=
  fun part hpart => h.of_isInfix (kind.captures_reader.of_mem_scan hfound part hpart)

/-- Tables that agree on the markers of a document give the same unions. -/
theorem unions_eq_of_agreeOn (h : first.AgreeOn second document) :
    unions ⟨first, options⟩ document = unions ⟨second, options⟩ document := by
  have hfound : (unionDeclarations document).map (union ⟨first, options⟩)
      = (unionDeclarations document).map (union ⟨second, options⟩) := by
    apply List.map_congr_left
    intro found hfound
    have hparts := agreeOn_parts h .union hfound
    have hmembers : ∀ element ∈ found.item.members.items,
        first.AgreeOn second element.markers := by
      intro element helement
      apply hparts
      refine List.mem_cons_of_mem _ (List.mem_cons_of_mem _ ?_)
      exact List.mem_flatMap.mpr ⟨element, helement, List.mem_singleton_self _⟩
    unfold union
    rw [MarkerTable.AgreeOn.members_eq hmembers,
      define_eq_of_agreeOn options (hparts _ List.mem_cons_self)]
  rw [unions, unions, hfound]

theorem enums_eq_of_agreeOn (h : first.AgreeOn second document) :
    enums ⟨first, options⟩ document = enums ⟨second, options⟩ document := by
  have hfound : (enumDeclarations document).filterMap (enum? ⟨first, options⟩)
      = (enumDeclarations document).filterMap (enum? ⟨second, options⟩) := by
    apply List.filterMap_congr
    intro found hfound
    have hparts := agreeOn_parts h .enum hfound
    have hbody : first.AgreeOn second found.item.body :=
      hparts _ (List.mem_cons_of_mem _ (List.mem_singleton_self _))
    have hdefine : ∀ members : NameIndex Member,
        define ⟨first, options⟩ found.description found.item.toHeading members
          = define ⟨second, options⟩ found.description found.item.toHeading members :=
      define_eq_of_agreeOn options (hparts _ List.mem_cons_self) found.description
    unfold enum?
    rw [MarkerTable.AgreeOn.members_eq fun element helement => hbody.of_mem_elements helement]
    exact congrArg (Option.map · _) (funext hdefine)
  rw [enums, enums, hfound]

theorem scalars_eq_of_agreeOn (h : first.AgreeOn second document) :
    scalars ⟨first, options⟩ document = scalars ⟨second, options⟩ document := by
  have hfound : (scalarDeclarations document).map (scalar ⟨first, options⟩)
      = (scalarDeclarations document).map (scalar ⟨second, options⟩) := by
    apply List.map_congr_left
    intro found hfound
    exact define_eq_of_agreeOn options
      (agreeOn_parts h .scalar hfound _ (List.mem_singleton_self _)) found.description ()
  rw [scalars, scalars, hfound]

/-- The markers of a fielded type are looked up in its heading and in its body. -/
theorem map_fielded_eq_of_agreeOn {β : Type} (h : first.AgreeOn second document)
    (kind : FieldedKind) (define define' : Described FieldedDeclaration → β)
    (hdefine : ∀ found : Described FieldedDeclaration, first.AgreeOn second found.item.markers →
      first.AgreeOn second found.item.body → define found = define' found) :
    (ofFieldedKind kind (fieldedDeclarations document)).map define
      = (ofFieldedKind kind (fieldedDeclarations document)).map define' := by
  apply List.map_congr_left
  intro found hfound
  obtain ⟨hmarkers, hbody⟩ :=
    isInfix_of_mem_fieldedDeclarations (List.mem_filter.mp hfound).1
  exact hdefine found (h.of_isInfix hmarkers) (h.of_isInfix hbody)

/-- Tables that agree on the markers of a document give the same types with fields. -/
theorem fieldedTypes_eq_of_agreeOn (h : first.AgreeOn second document) :
    fieldedTypes ⟨first, options⟩ document = fieldedTypes ⟨second, options⟩ document := by
  have hobjects := map_fielded_eq_of_agreeOn h .object (object ⟨first, options⟩)
    (object ⟨second, options⟩) fun found hmarkers hbody => by
      rw [object, object, hbody.fields_eq, define_eq_of_agreeOn options hmarkers]
  have hinterfaces := map_fielded_eq_of_agreeOn h .interface (interface ⟨first, options⟩)
    (interface ⟨second, options⟩) fun found hmarkers hbody => by
      rw [interface, interface, hbody.fields_eq, define_eq_of_agreeOn options hmarkers]
  have hinputs := map_fielded_eq_of_agreeOn h .input (input ⟨first, options⟩)
    (input ⟨second, options⟩) fun found hmarkers hbody => by
      rw [input, input, hbody.inputFields_eq, define_eq_of_agreeOn options hmarkers]
  unfold fieldedTypes
  simp only [hobjects, hinterfaces, hinputs]

/-- Steps that agree on each element of a list agree on the list. -/
theorem mapM_congr {α β ε : Type} {f g : α → Except ε β} {list : List α}
    (h : ∀ a ∈ list, f a = g a) : list.mapM f = list.mapM g := by
  induction list with
  | nil => rfl
  | cons a list ih =>
    rw [List.mapM_cons, List.mapM_cons, h a List.mem_cons_self,
      ih fun b hmem => h b (List.mem_cons_of_mem a hmem)]

/-- Tables that agree on the markers of a document define the same directives, or fail alike. -/
theorem directives_eq_of_agreeOn (h : first.AgreeOn second document) :
    directives ⟨first, options⟩ document = directives ⟨second, options⟩ document := by
  have hfound : (directiveDeclarations document).mapM (directive? ⟨first, options⟩)
      = (directiveDeclarations document).mapM (directive? ⟨second, options⟩) := by
    apply mapM_congr
    intro found hfound
    obtain ⟨token, hmem, hmarker, hword⟩ := exists_marker_of_mem_directiveDeclarations hfound
    unfold directive?
    rw [hword, show first.get? token.word = second.get? token.word from h token hmem hmarker]
  unfold directives
  rw [hfound]

/-- Tables that agree on a document give it the same schema. -/
theorem extract_eq_of_agreeOn {text : String} (h : first.AgreeOn second (Run.ofString text)) :
    extract ⟨first, options⟩ text = extract ⟨second, options⟩ text := by
  rw [extract_parallel, extract_parallel, extractInTurn, extractInTurn,
    directives_eq_of_agreeOn options h, fieldedTypes_eq_of_agreeOn options h,
    unions_eq_of_agreeOn options h, enums_eq_of_agreeOn options h, scalars_eq_of_agreeOn options h]

/-! ## Entries that never count -/

/-- **Only the markers of the document count.**  Two tables that give the same for the text of every
marker token of a document give the same schema or the same error.  So an entry for anything that
is no marker token has no effect, whether it stands in a description, a default value or a comment,
and neither has the order of the entries. -/
theorem extract_depends_on_markers (options : ExtractionOptions) (text : String) :
    (∀ first second : MarkerTable, first.AgreeOn second (Run.ofString text) →
      extract ⟨first, options⟩ text = extract ⟨second, options⟩ text) ∧
    (∀ (table : MarkerTable) (marker : String) (directive : Directive),
      (∀ token ∈ Run.ofString text, token.isMarker = true → token.word ≠ marker) →
      extract ⟨table.insert marker directive, options⟩ text = extract ⟨table, options⟩ text) ∧
    (∀ first second : MarkerTable, first.entries.Perm second.entries →
      extract ⟨first, options⟩ text = extract ⟨second, options⟩ text) := by
  have hagree : ∀ first second : MarkerTable, first.AgreeOn second (Run.ofString text) →
      extract ⟨first, options⟩ text = extract ⟨second, options⟩ text :=
    fun first second h => extract_eq_of_agreeOn options h
  refine ⟨hagree, ?_, ?_⟩
  · intro table marker directive hmarker
    apply hagree
    intro token hmem htoken
    rw [NameIndex.get?_insert, if_neg (hmarker token hmem htoken)]
  · intro first second hperm
    apply hagree
    intro token _ _
    exact NameIndex.get?_eq_of_perm hperm token.word

/-- The marker `%0` stands in a description, a default value and a comment, but never alone. -/
theorem extract_depends_on_markers_quoted :
    extract ⟨NameIndex.ofPairs [("%1", .ofName "key"), ("%0", .ofName "x"), ("%2", .ofName "a")], {}⟩
        "\"%0\" type A %1 \x7b # %0\n a(b: C = \"%0\" %2): D \x7d"
      = extract ⟨NameIndex.ofPairs [("%1", .ofName "key"), ("%2", .ofName "a")], {}⟩
        "\"%0\" type A %1 \x7b # %0\n a(b: C = \"%0\" %2): D \x7d" ∧
    extract ⟨(NameIndex.ofPairs [("%1", .ofName "key"), ("%2", .ofName "a")]).insert "%0"
        (.ofName "x"), {}⟩ "\"%0\" type A %1 \x7b # %0\n a(b: C = \"%0\" %2): D \x7d"
      = extract ⟨NameIndex.ofPairs [("%2", .ofName "a"), ("%1", .ofName "key")], {}⟩
        "\"%0\" type A %1 \x7b # %0\n a(b: C = \"%0\" %2): D \x7d" := by
  have hlaw := extract_depends_on_markers {}
    "\"%0\" type A %1 \x7b # %0\n a(b: C = \"%0\" %2): D \x7d"
  have hmarkers : (Run.ofString
      "\"%0\" type A %1 \x7b # %0\n a(b: C = \"%0\" %2): D \x7d").filter Token.isMarker
        = [⟨.marker, ['%', '1']⟩, ⟨.marker, ['%', '2']⟩] := by decide +kernel
  constructor
  · apply hlaw.1
    intro token hmem hmarker
    have hfound := List.mem_filter.mpr ⟨hmem, hmarker⟩
    simp only [hmarkers, List.mem_cons, List.not_mem_nil, or_false] at hfound
    rcases hfound with rfl | rfl <;> rfl
  · rw [hlaw.2.1 _ "%0" _ (by decide +kernel)]
    exact hlaw.2.2 _ _ (List.Perm.swap _ _ [])

end Extractor

end SdlSchema
