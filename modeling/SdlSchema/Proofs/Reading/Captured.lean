/-
# Captured parts are stretches of the document

Declarations, fields and elements keep parts of what they were read from: marker runs, lists,
bodies and what stands between parentheses.  Each part is a stretch of consecutive tokens, and so
is a part captured while another part is read.  As every stretch is cut into itself again, reading
a part from its text sees what reading it from its tokens sees.

* `Captured` : the parts captured from a document, at whatever depth;
* `isInfix_of_captured` : a captured part is a stretch of the document;
* `tokenize_slice_and_captured` : slices and captured parts are cut into the tokens under them.
-/
import SdlSchema.Proofs.Lexing.Relexing
import SdlSchema.Proofs.Scanning.Readers

namespace SdlSchema

/-! ## What is captured -/

/-- The markers of an element. -/
def Element.parts (element : Element) : List Run := [element.markers]

/-- A list of names and the markers in it. -/
def NameList.parts (list : NameList) : List Run := list.run :: list.items.flatMap Element.parts

/-- The type and markers of an argument. -/
def TypedLine.parts (line : TypedLine) : List Run := [line.type, line.markers]

/-- The type, markers and arguments of a field. -/
def FieldLine.parts (line : FieldLine) : List Run := line.toTypedLine.parts ++ line.arguments.toList

namespace DeclarationKind

/-- The markers, lists and bodies of a declaration. -/
def parts : (kind : DeclarationKind) → kind.Declaration → List Run
  | .fielded, (found : FieldedDeclaration) =>
    found.markers :: found.body :: found.interfaces.toList.flatMap NameList.parts
  | .union, (found : UnionDeclaration) => found.markers :: found.members.parts
  | .scalar, (found : ScalarDeclaration) => [found.markers]
  | .enum, (found : EnumDeclaration) => [found.markers, found.body]
  | .directive, (found : DirectiveDeclaration) => found.locations.parts

end DeclarationKind

/-- The parts captured from a document: those of its declarations, and those of the fields,
arguments and elements that are read in a captured part. -/
inductive Captured (document : Run) : Run → Prop
  | declaration {kind : DeclarationKind} {found : Described kind.Declaration} {part : Run}
      (hfound : found ∈ kind.declarations document) (hpart : part ∈ kind.parts found.item) :
      Captured document part
  | field {body part : Run} {line : Described FieldLine} (hbody : Captured document body)
      (hline : line ∈ fieldLines body) (hpart : part ∈ line.item.parts) : Captured document part
  | argument {body part : Run} {line : Described ArgumentLine} (hbody : Captured document body)
      (hline : line ∈ argumentLines body) (hpart : part ∈ line.item.toTypedLine.parts) :
      Captured document part
  | element {list part : Run} {element : Element} (hlist : Captured document list)
      (helement : element ∈ elements list) (hpart : part ∈ element.parts) : Captured document part

/-! ## Readers capture stretches -/

namespace Run

/-- What is read of a run is a stretch of it. -/
theorem upTo_isInfix (run rest : Run) : run.upTo rest <:+: run :=
  (List.take_prefix _ run).isInfix

/-- Accepted markers are a stretch of the run. -/
theorem acceptMarkers_isInfix (skip : Token → Bool) (run : Run) :
    (run.acceptMarkers skip).1 <:+: run := by
  unfold acceptMarkers
  split
  · exact (upTo_isInfix _ _).trans (List.dropWhile_suffix skip).isInfix
  · exact List.nil_infix

/-- The body of a closed bracket is a stretch of the run. -/
theorem closeBracket_isInfix {bracket : Bracket} {run body rest : Run}
    (h : run.closeBracket bracket = .ok (body, rest)) : body <:+: run := by
  unfold closeBracket at h
  split at h
  · next hbalanced =>
    cases h
    obtain ⟨closer, -, rfl⟩ := balanced_eq hbalanced
    exact (List.prefix_append body _).isInfix
  · cases h

/-- A type reference is a stretch of the run. -/
theorem expectType_isInfix {run type rest : Run} (h : run.expectType = .ok (type, rest)) :
    type <:+: run := by
  unfold expectType at h
  split at h
  · next hfound =>
    cases h
    unfold typeReference? at hfound
    dsimp only at hfound
    split at hfound
    · obtain ⟨left, -, heq⟩ := Option.map_eq_some_iff.mp hfound
      cases heq
      exact upTo_isInfix _ _
    · cases hfound
  · cases h

end Run

/-- Every part of an item is a stretch of the run from which the reader takes the item. -/
def Reader.Captures {α : Type} (reader : Reader α) (parts : α → List Run) : Prop :=
  ∀ ⦃run rest : Run⦄ ⦃item : α⦄, reader.read run = .ok (item, rest) →
    ∀ part ∈ parts item, part <:+: run

namespace Reader.Captures

variable {α : Type} {reader : Reader α} {parts : α → List Run}

/-- A description in front of an item captures no further part. -/
theorem described (h : reader.Captures parts) :
    reader.described.Captures fun found => parts found.item := by
  intro run rest found hread part hpart
  obtain ⟨-, hread⟩ := described_read_eq_ok.mp hread
  exact (h hread part hpart).trans (Run.acceptDescription_suffix run).isInfix

/-- The parts of the items of a body are stretches of the body. -/
theorem of_mem_items (h : reader.Captures parts) {separates resumes : Token → Bool} {run : Run}
    {item : α} (hitem : item ∈ reader.items separates resumes run) :
    ∀ part ∈ parts item, part <:+: run := by
  obtain ⟨start, rest, hsuffix, hread⟩ := exists_read_of_mem_items hitem
  exact fun part hpart => (h hread part hpart).trans hsuffix.isInfix

/-- The parts of the declarations of a document are stretches of the document. -/
theorem of_mem_scan (h : reader.Captures parts) {document : Run} {found : Described α}
    (hfound : found ∈ reader.scan document) : ∀ part ∈ parts found.item, part <:+: document := by
  obtain ⟨start, rest, hsuffix, hread⟩ := exists_read_of_mem_scan hfound
  exact fun part hpart => (h.described hread part hpart).trans hsuffix.isInfix

end Reader.Captures

/-! ## Elements and lists -/

/-- The markers of an element are a stretch of what it is read from. -/
theorem Element.captures_reader : Element.reader.Captures Element.parts := by
  intro run rest element h part hpart
  obtain ⟨⟨name, left⟩, hname, heq⟩ := bind_eq_ok.mp h
  cases heq
  rw [Element.parts, List.mem_singleton] at hpart
  rw [hpart]
  exact (Run.acceptMarkers_isInfix _ left).trans (Run.expectName_left hname).suffix.isInfix

theorem Element.captures_bareReader : Element.bareReader.Captures Element.parts := by
  intro run rest element h part hpart
  obtain ⟨⟨name, left⟩, hname, heq⟩ := bind_eq_ok.mp h
  cases heq
  rw [Element.parts, List.mem_singleton] at hpart
  rw [hpart]
  exact List.nil_infix

namespace ListTail

/-- The parts of the items with which a list goes on are stretches of the run. -/
def Captures (tail : ListTail Element) : Prop :=
  ∀ ⦃run rest : Run⦄ ⦃element : Element⦄, tail.next run = .ok (some (element, rest)) →
    ∀ part ∈ element.parts, part <:+: run

/-- The parts of all further items of a list are stretches of what the list is read from. -/
theorem Captures.of_read {tail : ListTail Element} (h : tail.Captures) {run rest : Run}
    {items : List Element} (hread : tail.read run = .ok (items, rest)) :
    ∀ part ∈ items.flatMap Element.parts, part <:+: run := by
  fun_induction read tail run generalizing items rest with
  | case1 run miss hnext => cases hread
  | case2 run hnext => cases hread; simp
  | case3 run item left hnext miss hmiss ih => cases hread
  | case4 run item left hnext others rest' hothers ih =>
    cases hread
    intro part hpart
    rw [List.flatMap_cons, List.mem_append] at hpart
    rcases hpart with hpart | hpart
    · exact h hnext part hpart
    · exact (ih hothers part hpart).trans (tail.left hnext).suffix.isInfix

theorem captures_piped {item : Reader Element} (h : item.Captures Element.parts) :
    (piped item).Captures := by
  intro run rest element hnext part hpart
  simp only [piped] at hnext
  split at hnext
  · next inner hpipe =>
    cases hread : item.read inner.skipTrivia with
    | error miss => rw [hread] at hnext; cases hnext
    | ok found =>
      rw [hread] at hnext
      cases hnext
      exact (h hread part hpart).trans ((Run.skipTrivia_suffix inner).trans
        ((Run.take?_left hpipe).suffix.trans (Run.skipTrivia_suffix run))).isInfix
  · cases hnext

theorem captures_joined : joined.Captures := by
  intro run rest element hnext part hpart
  simp only [joined] at hnext
  split at hnext
  · next inner hjoin =>
    cases hread : Element.bareReader.read inner.skipTrivia with
    | error miss => rw [hread] at hnext; cases hnext
    | ok found =>
      rw [hread] at hnext
      cases hnext
      exact (Element.captures_bareReader hread part hpart).trans
        ((Run.skipTrivia_suffix inner).trans (afterJoiner?_suffix hjoin)).isInfix
  · split at hnext
    · next found hread =>
      cases hnext
      exact (Element.captures_bareReader hread part hpart).trans (Run.skipInline_suffix run).isInfix
    · cases hnext

end ListTail

/-- A list and the markers in it are stretches of what the list is read from. -/
theorem NameList.captures_reader {lead : Punctuation} {item : Reader Element}
    {tail : ListTail Element} (hitem : item.Captures Element.parts) (htail : tail.Captures) :
    (NameList.reader lead item tail).Captures NameList.parts := by
  intro run rest list h part hpart
  obtain ⟨⟨first, afterFirst⟩, hfirst, h⟩ := bind_eq_ok.mp h
  obtain ⟨⟨others, afterOthers⟩, hothers, h⟩ := bind_eq_ok.mp h
  cases h
  rw [NameList.parts, List.mem_cons, List.flatMap_cons, List.mem_append] at hpart
  rcases hpart with rfl | hpart | hpart
  · exact Run.upTo_isInfix _ _
  · exact (hitem hfirst part hpart).trans (lead_suffix lead run).isInfix
  · exact (htail.of_read hothers part hpart).trans
      ((item.left hfirst).suffix.trans (lead_suffix lead run)).isInfix

/-! ## Fields and arguments -/

/-- A type and the markers behind it are stretches of what the line is read from. -/
theorem TypedLine.captures_read {run rest : Run} {line : TypedLine}
    (h : TypedLine.read run = .ok (line, rest)) : ∀ part ∈ line.parts, part <:+: run := by
  obtain ⟨afterColon, hcolon, h⟩ := bind_eq_ok.mp h
  obtain ⟨⟨type, afterType⟩, htype, h⟩ := bind_eq_ok.mp h
  dsimp only at h
  split at h
  · cases h
    have hstart : afterColon.skipInline <:+ run :=
      (Run.skipInline_suffix afterColon).trans (Run.expect_left hcolon).suffix
    have hafter : afterType.skipInline.skipDefault <:+ run :=
      (Run.skipDefault_suffix _).trans ((Run.skipInline_suffix afterType).trans
        ((Run.expectType_left htype).suffix.trans hstart))
    intro part hpart
    simp only [TypedLine.parts, List.mem_cons, List.not_mem_nil, or_false] at hpart
    rcases hpart with rfl | rfl
    · exact (Run.expectType_isInfix htype).trans hstart.isInfix
    · exact (Run.acceptMarkers_isInfix _ _).trans hafter.isInfix
  · cases h

theorem ArgumentLine.captures_reader :
    ArgumentLine.reader.Captures fun line => line.toTypedLine.parts := by
  intro run rest argument h
  obtain ⟨⟨name, afterName⟩, hname, h⟩ := bind_eq_ok.mp h
  obtain ⟨⟨line, afterLine⟩, hline, h⟩ := bind_eq_ok.mp h
  cases h
  intro part hpart
  exact (TypedLine.captures_read hline part hpart).trans
    ((Run.skipInline_suffix afterName).trans (Run.expectName_left hname).suffix).isInfix

/-- The arguments of a field are a stretch of the run. -/
theorem FieldLine.readArguments_isInfix {run rest arguments : Run}
    (h : FieldLine.readArguments run = .ok (some arguments, rest)) : arguments <:+: run := by
  unfold FieldLine.readArguments at h
  split at h
  · next inner hopen =>
    obtain ⟨⟨body, afterClose⟩, hclose, h⟩ := bind_eq_ok.mp h
    cases h
    exact (Run.closeBracket_isInfix hclose).trans (Run.take?_left hopen).suffix.isInfix
  · cases h

/-- The type, markers and arguments of a field are stretches of what it is read from. -/
theorem FieldLine.captures_reader : FieldLine.reader.Captures FieldLine.parts := by
  intro run rest field h
  obtain ⟨⟨name, afterName⟩, hname, h⟩ := bind_eq_ok.mp h
  obtain ⟨⟨arguments, afterArguments⟩, harguments, h⟩ := bind_eq_ok.mp h
  obtain ⟨⟨line, afterLine⟩, hline, h⟩ := bind_eq_ok.mp h
  cases h
  have hstart : afterName.skipInline <:+ run :=
    (Run.skipInline_suffix afterName).trans (Run.expectName_left hname).suffix
  intro part hpart
  rw [FieldLine.parts, List.mem_append, Option.mem_toList] at hpart
  rcases hpart with hpart | rfl
  · exact (TypedLine.captures_read hline part hpart).trans
      ((FieldLine.readArguments_suffix harguments).trans hstart).isInfix
  · exact (FieldLine.readArguments_isInfix harguments).trans hstart.isInfix

/-! ## Declarations -/

theorem FieldedDeclaration.readInterfaces_isInfix {run rest : Run} {interfaces : Option NameList}
    (h : FieldedDeclaration.readInterfaces run = .ok (interfaces, rest)) :
    ∀ part ∈ interfaces.toList.flatMap NameList.parts, part <:+: run := by
  unfold FieldedDeclaration.readInterfaces at h
  split at h
  · next inner hkeyword =>
    obtain ⟨⟨list, afterList⟩, hlist, h⟩ := bind_eq_ok.mp h
    cases h
    intro part hpart
    simp only [Option.toList_some, List.flatMap_cons, List.flatMap_nil, List.append_nil] at hpart
    exact (NameList.captures_reader Element.captures_bareReader ListTail.captures_joined hlist
      part hpart).trans
        ((Run.skipTrivia_suffix inner).trans (Run.take?_left hkeyword).suffix).isInfix
  · cases h
    simp

/-- The markers, interfaces and body of a type are stretches of what it is read from. -/
theorem FieldedDeclaration.captures_reader :
    FieldedDeclaration.reader.Captures (DeclarationKind.parts .fielded) := by
  intro run rest declaration h
  obtain ⟨⟨kind, afterKind⟩, hkind, h⟩ := bind_eq_ok.mp h
  obtain ⟨⟨name, afterName⟩, hname, h⟩ := bind_eq_ok.mp h
  obtain ⟨⟨interfaces, afterInterfaces⟩, hinterfaces, h⟩ := bind_eq_ok.mp h
  obtain ⟨afterOpen, hopen, h⟩ := bind_eq_ok.mp h
  obtain ⟨⟨body, afterClose⟩, hclose, h⟩ := bind_eq_ok.mp h
  dsimp only at h hinterfaces hopen
  split at h
  · cases h
  · cases h
    have hstart : afterName.skipTrivia <:+ run :=
      (Run.skipTrivia_suffix afterName).trans (title_braceless hkind hname).suffix
    have hheading := interfaces_braceless hkind hname hinterfaces
    have hafter : afterOpen <:+ run := (Run.expect_left hopen).suffix.trans hheading.markers.suffix
    intro part hpart
    simp only [DeclarationKind.parts, List.mem_cons] at hpart
    rcases hpart with rfl | rfl | hpart
    · exact (Run.acceptMarkers_isInfix _ afterInterfaces).trans hheading.suffix.isInfix
    · exact (Run.closeBracket_isInfix hclose).trans hafter.isInfix
    · exact (readInterfaces_isInfix hinterfaces part hpart).trans hstart.isInfix

theorem EnumDeclaration.captures_reader :
    EnumDeclaration.reader.Captures (DeclarationKind.parts .enum) := by
  intro run rest declaration h
  obtain ⟨afterKeyword, hkeyword, h⟩ := bind_eq_ok.mp h
  obtain ⟨⟨name, afterName⟩, hname, h⟩ := bind_eq_ok.mp h
  obtain ⟨afterOpen, hopen, h⟩ := bind_eq_ok.mp h
  obtain ⟨⟨body, afterClose⟩, hclose, h⟩ := bind_eq_ok.mp h
  cases h
  have htitle := Run.title_braceless hkeyword hname
  have hafter : afterOpen <:+ run := (Run.expect_left hopen).suffix.trans htitle.markers.suffix
  intro part hpart
  simp only [DeclarationKind.parts, List.mem_cons, List.not_mem_nil, or_false] at hpart
  rcases hpart with rfl | rfl
  · exact (Run.acceptMarkers_isInfix _ afterName).trans htitle.suffix.isInfix
  · exact (Run.closeBracket_isInfix hclose).trans hafter.isInfix

theorem UnionDeclaration.captures_reader :
    UnionDeclaration.reader.Captures (DeclarationKind.parts .union) := by
  intro run rest declaration h
  obtain ⟨afterKeyword, hkeyword, h⟩ := bind_eq_ok.mp h
  obtain ⟨⟨name, afterName⟩, hname, h⟩ := bind_eq_ok.mp h
  obtain ⟨afterEquals, hequals, h⟩ := bind_eq_ok.mp h
  obtain ⟨⟨members, afterMembers⟩, hmembers, h⟩ := bind_eq_ok.mp h
  cases h
  have htitle := Run.title_braceless hkeyword hname
  have hafter := (opening_braceless hkeyword hname hequals).suffix
  intro part hpart
  simp only [DeclarationKind.parts, List.mem_cons] at hpart
  rcases hpart with rfl | hpart
  · exact (Run.acceptMarkers_isInfix _ afterName).trans htitle.suffix.isInfix
  · exact (NameList.captures_reader Element.captures_reader
      (ListTail.captures_piped Element.captures_reader) hmembers part hpart).trans hafter.isInfix

theorem ScalarDeclaration.captures_reader :
    ScalarDeclaration.reader.Captures (DeclarationKind.parts .scalar) := by
  intro run rest declaration h
  obtain ⟨afterKeyword, hkeyword, h⟩ := bind_eq_ok.mp h
  obtain ⟨⟨name, afterName⟩, hname, h⟩ := bind_eq_ok.mp h
  dsimp only at h
  split at h
  · cases h
    have htitle := Run.title_braceless hkeyword hname
    intro part hpart
    rw [DeclarationKind.parts, List.mem_singleton] at hpart
    rw [hpart]
    exact (Run.acceptMarkers_isInfix _ afterName).trans htitle.suffix.isInfix
  · cases h

theorem DirectiveDeclaration.captures_reader :
    DirectiveDeclaration.reader.Captures (DeclarationKind.parts .directive) := by
  intro run rest declaration h
  obtain ⟨afterKeyword, hkeyword, h⟩ := bind_eq_ok.mp h
  obtain ⟨⟨marker, afterMarker⟩, hmarker, h⟩ := bind_eq_ok.mp h
  obtain ⟨afterOn, hon, h⟩ := bind_eq_ok.mp h
  obtain ⟨⟨locations, afterLocations⟩, hlocations, h⟩ := bind_eq_ok.mp h
  cases h
  have hafter := (opening_braceless hkeyword hmarker hon).suffix
  intro part hpart
  exact (NameList.captures_reader Element.captures_bareReader
    (ListTail.captures_piped Element.captures_bareReader) hlocations part hpart).trans
      hafter.isInfix

/-- The parts of a declaration of any kind are stretches of what it is read from. -/
theorem DeclarationKind.captures_reader (kind : DeclarationKind) :
    kind.reader.Captures kind.parts := by
  cases kind with
  | fielded => exact FieldedDeclaration.captures_reader
  | union => exact UnionDeclaration.captures_reader
  | scalar => exact ScalarDeclaration.captures_reader
  | enum => exact EnumDeclaration.captures_reader
  | directive => exact DirectiveDeclaration.captures_reader

/-! ## Lines and bodies -/

/-- The type and markers of an argument are stretches of the list that it was found in. -/
theorem isInfix_of_mem_argumentLines {body : Run} {line : Described ArgumentLine}
    (h : line ∈ argumentLines body) : line.item.type <:+: body ∧ line.item.markers <:+: body := by
  have hparts := ArgumentLine.captures_reader.described.of_mem_items h
  exact ⟨hparts _ (by simp [TypedLine.parts]), hparts _ (by simp [TypedLine.parts])⟩

/-- The type, markers and arguments of a field are stretches of the body that it was found in. -/
theorem isInfix_of_mem_fieldLines {body : Run} {line : Described FieldLine}
    (h : line ∈ fieldLines body) : line.item.type <:+: body ∧ line.item.markers <:+: body ∧
      ∀ arguments ∈ line.item.arguments, arguments <:+: body := by
  have hparts := FieldLine.captures_reader.described.of_mem_items h
  simp only [FieldLine.parts, TypedLine.parts, List.mem_append, Option.mem_toList] at hparts
  exact ⟨hparts _ (by simp), hparts _ (by simp),
    fun arguments harguments => hparts arguments (Or.inr harguments)⟩

/-- The markers and the body of a type are stretches of the document that it was found in. -/
theorem isInfix_of_mem_fieldedDeclarations {document : Run} {found : Described FieldedDeclaration}
    (h : found ∈ fieldedDeclarations document) :
    found.item.markers <:+: document ∧ found.item.body <:+: document := by
  have hparts := FieldedDeclaration.captures_reader.of_mem_scan h
  simp only [DeclarationKind.parts, List.mem_cons] at hparts
  exact ⟨hparts _ (by simp), hparts _ (by simp)⟩

/-! ## Whatever the depth -/

/-- A captured part is a stretch of the document. -/
theorem isInfix_of_captured {document part : Run} (h : Captured document part) :
    part <:+: document := by
  induction h with
  | @declaration kind found part hfound hpart =>
    exact kind.captures_reader.of_mem_scan hfound part hpart
  | field hbody hline hpart ih =>
    exact (FieldLine.captures_reader.described.of_mem_items hline _ hpart).trans ih
  | argument hbody hline hpart ih =>
    exact (ArgumentLine.captures_reader.described.of_mem_items hline _ hpart).trans ih
  | element hlist helement hpart ih =>
    exact (Element.captures_reader.of_mem_items helement _ hpart).trans ih

/-- **Relexing is local.**  The text from the start of one token to the end of a later one is cut
into exactly the tokens from the one to the other, only moved; and the text of every part that is
captured, at whatever depth, is cut into exactly the tokens that were captured. -/
theorem tokenize_slice_and_captured (text : List Char) :
    (∀ (i j : Nat) (first last : Nat × Nat × Token), i ≤ j →
      (tokenize text).spans[i]? = some first → (tokenize text).spans[j]? = some last →
      (tokenize (Text.slice first.1 last.2.1 text)).spans.map (shiftSpan first.1)
        = ((tokenize text).spans.drop i).take (j + 1 - i)) ∧
    ∀ part : Run, Captured (tokenize text) part →
      part <:+: tokenize text ∧ tokenize part.chars = part := by
  refine ⟨fun i j first last hij hi hj => map_shift_spans_tokenize_slice hij hi hj, ?_⟩
  intro part hpart
  have hstretch := isInfix_of_captured hpart
  exact ⟨hstretch, tokenize_chars_of_isInfix hstretch⟩

/-- A slice and a body in which a brace stands in a string, and a marker behind it. -/
theorem tokenize_slice_and_captured_enum :
    (tokenize (Text.slice 7 14 "enum E \x7b A \"\x7d\" %0 \x7d".toList)).spans.map (shiftSpan 7)
      = ((tokenize "enum E \x7b A \"\x7d\" %0 \x7d".toList).spans.drop 4).take 5 ∧
    ∃ body : Run, Captured (tokenize "enum E \x7b A \"\x7d\" %0 \x7d".toList) body ∧
      body.text = " A \"\x7d\" %0 " ∧ tokenize body.chars = body := by
  have hlaw := tokenize_slice_and_captured "enum E \x7b A \"\x7d\" %0 \x7d".toList
  refine ⟨hlaw.1 4 8 (7, 8, ⟨.punctuation .leftBrace, ['{']⟩)
    (11, 14, ⟨.string, ['"', '}', '"']⟩) (by decide) (by decide +kernel) (by decide +kernel), ?_⟩
  have hbodies : (enumDeclarations (tokenize "enum E \x7b A \"\x7d\" %0 \x7d".toList)).map
      (fun found => Run.text found.item.body) = [" A \"\x7d\" %0 "] := by decide +kernel
  obtain ⟨found, hfound, htext⟩ := List.mem_map.mp (hbodies ▸ List.mem_singleton_self _)
  have hcaptured : Captured (tokenize "enum E \x7b A \"\x7d\" %0 \x7d".toList) found.item.body :=
    @Captured.declaration _ .enum found _ hfound (List.mem_cons_of_mem _ (List.mem_singleton_self _))
  exact ⟨found.item.body, hcaptured, htext, (hlaw.2 _ hcaptured).2⟩

end SdlSchema
