/-
# Lists read again by extraction

What is captured of a list is its text alone, and extraction reads the elements of that text once
more.  The two ways of reading have little in common: one goes from joining mark to joining mark and
ends where the list does, the other passes over whatever is no name.  They agree because a list is
made of names, of their markers, and of links in which there is neither a name nor a marker.

* `ListForm.elements_run` : a list of bare names has these names as its elements, without markers;
* `NameList.ReadsBack` : a list whose text, read again, gives its items;
* `lists_readBack` : the lists of unions, directive definitions and interfaces; extraction from the
  texts of unions drops none of them for want of members.
-/
import SdlSchema.Proofs.Forms.Lists
import SdlSchema.Proofs.Cursor.Extraction

namespace SdlSchema

variable {joint front more rest run : Run} {items : List Element} {link : Run → Prop}
  {lead : Punctuation} {list : NameList}

/-! ## What stands between names -/

/-- Tokens that are neither names nor markers. -/
def Nameless (run : Run) : Prop := ∀ token ∈ run, token.isName = false ∧ token.isMarker = false

theorem Nameless.append (h : Nameless front) (hmore : Nameless more) : Nameless (front ++ more) :=
  fun token hmem => (List.mem_append.mp hmem).elim (h token) (hmore token)

theorem Nameless.of_gap (h : Gap Token.isTrivia front) : Nameless front := fun token hmem =>
  let htrivia := Token.of_isTrivia (h token hmem)
  ⟨htrivia.1, htrivia.2.2.1⟩

theorem Nameless.of_isMark {token : Token} {mark : Punctuation} (h : token.isMark mark = true) :
    Nameless [token] := by
  intro other hmem
  obtain rfl := List.mem_singleton.mp hmem
  refine ⟨?_, Token.isMarker_of_isMark h⟩
  rw [Bool.eq_false_iff]
  intro hname
  rw [(Token.of_isName hname).2.2.2.2.2] at h
  cases h

/-- What stands between names holds no element. -/
theorem Nameless.elements_append (h : Nameless front) (rest : Run) :
    elements (front ++ rest) = elements rest := by
  induction front with
  | nil => rfl
  | cons token front ih =>
    rw [List.cons_append, elements_cons_of_not_name (h token List.mem_cons_self).1]
    exact ih fun other hmem => h other (List.mem_cons_of_mem _ hmem)

/-- In front of a name there are no markers. -/
theorem Nameless.afterMarkers_append (h : Nameless front) {name : Token}
    (hname : name.isName = true) (rest : Run) :
    (front ++ name :: rest).afterMarkers Token.isInlineTrivia = none := by
  obtain ⟨-, hinline, -, -, hmarker, -⟩ := Token.of_isName hname
  induction front with
  | nil => rw [List.nil_append, Run.afterMarkers, hmarker, hinline]; rfl
  | cons token front ih =>
    rw [List.cons_append, Run.afterMarkers, (h token List.mem_cons_self).2,
      ih fun other hmem => h other (List.mem_cons_of_mem _ hmem)]
    simp

theorem MarkLink.nameless {joins : Token → Bool} (h : MarkLink joins joint)
    (hjoins : ∀ token, joins token = true → Nameless [token]) : Nameless joint := by
  cases h with
  | @mk gap gap' mark hgap hmark hgap' =>
    have hjoint := (Nameless.of_gap hgap).append ((hjoins mark hmark).append (.of_gap hgap'))
    simpa using hjoint

theorem InterfaceLink.nameless (h : InterfaceLink joint) : Nameless joint := by
  cases h with
  | inline hgap => exact .of_gap hgap.of_inline
  | mark hlink =>
    apply hlink.nameless
    intro token hmark
    rcases Bool.or_eq_true_iff.mp hmark with hmark | hmark
    · exact .of_isMark hmark
    · exact .of_isMark hmark

theorem LeadForm.nameless (h : LeadForm lead front) : Nameless front := by
  cases h with
  | absent => exact fun _ hmem => nomatch hmem
  | present hmark hgap => exact (Nameless.of_isMark hmark).append (.of_gap hgap)

/-! ## Lists of bare names -/

/-- A name in front of what begins with no markers is an element without markers. -/
theorem NameForm.elements_append {element : Element} {matched : Run}
    (h : NameForm element matched) (hrest : rest.afterMarkers Token.isInlineTrivia = none) :
    elements (matched ++ rest) = element :: elements rest := by
  cases h with
  | mk hname =>
    rw [List.singleton_append, elements_cons, if_pos hname, Run.acceptMarkers, hrest]

/-- Behind a name there are no markers, and the names behind it are the elements there are. -/
theorem TailForm.elements_eq (hlink : ∀ joint, link joint → Nameless joint)
    (h : TailForm link NameForm items more) :
    more.afterMarkers Token.isInlineTrivia = none ∧ elements more = items := by
  induction h with
  | nil => exact ⟨rfl, elements_nil⟩
  | @cons joint matched more element items hjoint hitem _ ih =>
    obtain ⟨hmore, helements⟩ := ih
    have hnameless := hlink joint hjoint
    constructor
    · cases hitem with
      | mk hname => exact hnameless.afterMarkers_append hname _
    · rw [hnameless.elements_append, hitem.elements_append hmore, helements]

/-- A list of bare names has these names as its elements, without markers. -/
theorem ListForm.elements_run (hlink : ∀ joint, link joint → Nameless joint)
    (h : ListForm lead link NameForm list) : elements list.run = list.items := by
  cases h with
  | mk hlead hfirst hmore =>
    obtain ⟨hafter, helements⟩ := TailForm.elements_eq hlink hmore
    rw [hlead.nameless.elements_append, hfirst.elements_append hafter, helements]

/-- The items of a list of bare names carry no markers. -/
theorem ListForm.markers_eq_nil (h : ListForm lead link NameForm list) :
    ∀ element ∈ list.items, element.markers = [] := by
  have htail : ∀ {items more}, TailForm link NameForm items more →
      ∀ element ∈ items, element.markers = [] := by
    intro items more hmore
    induction hmore with
    | nil => exact fun _ hmem => nomatch hmem
    | cons _ hitem _ ih =>
      rintro element hmem
      rcases List.mem_cons.mp hmem with rfl | hmem
      · cases hitem; rfl
      · exact ih element hmem
  cases h with
  | mk _ hfirst hmore =>
    rintro element hmem
    rcases List.mem_cons.mp hmem with rfl | hmem
    · cases hfirst; rfl
    · exact htail hmore element hmem

/-! ## Lists from their texts -/

/-- That the text of a list, read again, gives the items of the list, of which there is one at
least. -/
structure NameList.ReadsBack (list : NameList) : Prop where
  elements_eq : elements (Run.ofString list.run.text) = list.items
  ne_nil : elements (Run.ofString list.run.text) ≠ []

/-- A list in a text is read back where its tokens have its items as their elements. -/
theorem NameList.ReadsBack.of_elements {text : String} (hrun : list.run <:+: Run.ofString text)
    (h : elements list.run = list.items) (hne : list.items ≠ []) : list.ReadsBack := by
  have hagain : elements (Run.ofString list.run.text) = list.items := by
    rw [Run.ofString, Run.text, String.toList_ofList, tokenize_chars_of_isInfix hrun, h]
  exact ⟨hagain, by rwa [hagain]⟩

/-- The union that a declaration defines by the text of its list, unless that has no members. -/
def Extractor.union? (extractor : Extractor) (found : Described UnionDeclaration) :
    Option UnionDefinition :=
  (extractor.table.members
      (elements (Run.ofString found.item.members.run.text))).nonEmpty?.map
    (extractor.define found.description found.item.toHeading)

/-- Where its list is read back, a declaration defines the union with the items of the list. -/
theorem Extractor.union?_eq {found : Described UnionDeclaration}
    (h : found.item.members.ReadsBack) (extractor : Extractor) :
    extractor.union? found = some (extractor.union found) := by
  have hne : found.item.members.items ≠ [] := h.elements_eq ▸ h.ne_nil
  rw [union?, h.elements_eq, NameIndex.nonEmpty?_members _ hne, Option.map_some]
  rfl

/-- The lists of a document are read twice, and alike: the elements of the text of a list are the
items it was read as — members with their markers, locations and interfaces without any.  So each
list has an element, and no union is dropped for want of members. -/
theorem lists_readBack (text : String) :
    (∀ found ∈ unionDeclarations (Run.ofString text),
      ListForm .pipe PipeLink MarkedForm found.item.members ∧ found.item.members.ReadsBack ∧
      ∀ extractor : Extractor, extractor.union? found = some (extractor.union found)) ∧
    (∀ found ∈ directiveDeclarations (Run.ofString text),
      ListForm .pipe PipeLink NameForm found.item.locations ∧ found.item.locations.ReadsBack ∧
      ∀ element ∈ found.item.locations.items, element.markers = []) ∧
    (∀ found ∈ fieldedDeclarations (Run.ofString text), ∀ list ∈ found.item.interfaces,
      ListForm .ampersand InterfaceLink NameForm list ∧ list.ReadsBack ∧
      ∀ element ∈ list.items, element.markers = []) := by
  -- what stands between two items holds no name, so it adds no element
  have hpipe : ∀ joint, PipeLink joint → Nameless joint := fun joint h =>
    h.nameless fun token hmark => .of_isMark hmark
  refine ⟨fun found hfound => ?_, fun found hfound => ?_, fun found hfound list hlist => ?_⟩
  · obtain ⟨start, left, hread⟩ :=
      Reader.of_mem_scan UnionDeclaration.exists_read_members hfound
    obtain ⟨-, hform, -, -⟩ := NameList.reader_form Element.reader_readsForm
      (ListTail.piped_followsForm Element.reader_readsForm) hread
    have hback : found.item.members.ReadsBack :=
      .of_elements (DeclarationKind.union.captures_reader.of_mem_scan hfound _
          (List.mem_cons_of_mem _ List.mem_cons_self))
        (NameList.elements_members hread) (NameList.items_ne_nil hread)
    exact ⟨hform, hback, Extractor.union?_eq hback⟩
  · obtain ⟨start, left, hread⟩ :=
      Reader.of_mem_scan DirectiveDeclaration.exists_read_locations hfound
    obtain ⟨-, hform, -, -⟩ := NameList.reader_form Element.bareReader_readsForm
      (ListTail.piped_followsForm Element.bareReader_readsForm) hread
    exact ⟨hform, .of_elements
      (DeclarationKind.directive.captures_reader.of_mem_scan hfound _ List.mem_cons_self)
      (hform.elements_run hpipe) (NameList.items_ne_nil hread), hform.markers_eq_nil⟩
  · obtain ⟨start, left, hread⟩ :=
      Reader.of_mem_scan FieldedDeclaration.exists_read_interfaces hfound list hlist
    obtain ⟨-, hform, -, -⟩ := NameList.reader_form Element.bareReader_readsForm
      ListTail.joined_followsForm hread
    have hpart : list.run ∈ DeclarationKind.parts .fielded found.item := by
      simp [DeclarationKind.parts, Option.mem_def.mp hlist, NameList.parts]
    exact ⟨hform, .of_elements
      (DeclarationKind.fielded.captures_reader.of_mem_scan hfound _ hpart)
      (hform.elements_run fun _ => InterfaceLink.nameless) (NameList.items_ne_nil hread),
      hform.markers_eq_nil⟩

end SdlSchema
