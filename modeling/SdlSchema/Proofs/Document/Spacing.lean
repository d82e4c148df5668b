/-
# A printed document is read back token by token

Everything that is printed keeps its words apart, so that the text of a document is cut into the
tokens that it was printed with.

* `Document.solid_run` : the tokens of a document do not grow together;
* `Document.tokenize_text` : they are what the text is cut into.
-/
import SdlSchema.Proofs.Document.Printing

namespace SdlSchema

namespace Document

open Token (ofMark ofKeyword ofName space indent lineBreak)

/-! ## Single tokens -/

/-- The token of a name is spelled as a name is. -/
theorem Name.spelled (name : Name) : name.token.Spelled :=
  .name (Bool.and_eq_true_iff.mpr ⟨name.begins, List.all_eq_true.mpr name.continues⟩)

theorem Name.shape (name : Name) : name.token.kind.shape = .word := Token.shape_ofName _

/-- The token of an integer is spelled as digits, perhaps with a minus sign in front. -/
theorem IntegerLiteral.spelled (literal : IntegerLiteral) : literal.token.Spelled := by
  unfold token chars
  split
  · exact .minus literal.digits
  · exact .digits literal.digits

section Rules

variable {run : Run}

/-- A mark may stand in front of anything. -/
theorem solid_mark (mark : Punctuation) (h : Solid run) : Solid (ofMark mark :: run) :=
  .mark (.mark mark) rfl h

/-- A line break may stand in front of anything. -/
theorem solid_lineBreak (h : Solid run) : Solid (lineBreak :: run) := .mark .lineBreak rfl h

/-- A space may stand in front of what begins with no blank. -/
theorem solid_space (h : Solid run) (hsolid : BeginsSolid run) : Solid (space :: run) :=
  .blank .space rfl h hsolid

theorem solid_indent (h : Solid run) (hsolid : BeginsSolid run) : Solid (indent :: run) :=
  .blank .indent rfl h hsolid

/-- A name may stand in front of what begins apart from a word. -/
theorem solid_name (name : Name) (h : Solid run) (hapart : BeginsApart run) :
    Solid (name.token :: run) := .word name.spelled name.shape h hapart

/-- A keyword may stand in front of what begins apart from a word. -/
theorem solid_keyword (keyword : Keyword) (h : Solid run) (hapart : BeginsApart run) :
    Solid (ofKeyword keyword :: run) := .word (.keyword keyword) rfl h hapart

/-- A marker may stand in front of what begins apart from a word. -/
theorem solid_marker (marker : Marker) (h : Solid run) (hapart : BeginsApart run) :
    Solid (marker.token :: run) := .word (.marker marker.continues) rfl h hapart

/-- A description may stand in front of a gap. -/
theorem solid_description (description : Option Description) {gap rest : Run}
    (hgap : Solid (gap ++ rest)) (hapart : BeginsApart gap) (hne : gap ≠ [])
    (hrest : Solid rest) : Solid (descriptionRun gap description ++ rest) := by
  cases description with
  | none => exact hrest
  | some description =>
    refine .word (.blockString description.noDelimiter description.noQuoteAtEnd) rfl hgap ?_
    cases gap with
    | nil => exact absurd rfl hne
    | cons token gap => exact hapart

/-- With a description in front or without, a run begins with no blank. -/
theorem beginsSolid_description (description : Option Description) (gap : Run) {rest : Run}
    (h : BeginsSolid rest) : BeginsSolid (descriptionRun gap description ++ rest) := by
  cases description with
  | none => exact h
  | some description => exact .word rfl _

end Rules

/-! ## Markers and lists -/

/-- Printed markers begin with a blank, so a word may stand in front of them. -/
theorem beginsApart_markers (markers : List Marker) : BeginsApart (markersRun markers) := by
  cases markers with
  | nil => exact .nil
  | cons marker markers => exact .blank rfl _

/-- Printed markers do not grow together, each having a blank in front of it. -/
theorem solid_markers (markers : List Marker) : Solid (markersRun markers) := by
  induction markers with
  | nil => exact .nil
  | cons marker markers ih =>
    exact solid_space (solid_marker marker ih (beginsApart_markers markers)) (.word rfl _)

/-- The items of a list are kept apart by a gap that does. -/
theorem Nonempty.solid_run {α : Type} (list : Nonempty α) {gap : Run} {print : α → Run}
    (hapart : BeginsApart gap) (hne : gap ≠ []) (hitem : ∀ item, Solid (print item))
    (hgap : ∀ item, Solid (gap ++ print item)) : Solid (list.run gap print) := by
  obtain ⟨first, others⟩ := list
  have hbegins : ∀ others : List α,
      BeginsApart (others.flatMap fun item => gap ++ print item) := by
    intro others
    cases others with
    | nil => exact .nil
    | cons item others =>
      cases gap with
      | nil => exact absurd rfl hne
      | cons token gap => exact hapart
  have hothers : Solid (others.flatMap fun item => gap ++ print item) := by
    induction others with
    | nil => exact .nil
    | cons item others ih => exact (hgap item).append ih (hbegins others)
  exact (hitem first).append hothers (hbegins others)

/-- The items of a list may be joined by marks between blanks. -/
theorem Nonempty.solid_joined {α : Type} (list : Nonempty α) (mark : Punctuation) {print : α → Run}
    (hitem : ∀ item, Solid (print item)) (hbegins : ∀ item, BeginsSolid (print item)) :
    Solid (list.run [space, ofMark mark, space] print) := by
  refine list.solid_run (.blank rfl _) (by simp) hitem fun item => ?_
  exact solid_space (solid_mark mark (solid_space (hitem item) (hbegins item))) (.mark rfl _)

/-- A list begins as its first item does. -/
theorem Nonempty.beginsSolid {α : Type} (list : Nonempty α) (gap : Run) {print : α → Run}
    (hbegins : ∀ item, BeginsSolid (print item)) : BeginsSolid (list.run gap print) :=
  (hbegins list.first).append _

/-! ## Values and types -/

/-- A printed value begins with no blank. -/
theorem Value.beginsSolid (value : Value) : BeginsSolid value.run := by
  cases value with
  | name name => exact .word name.shape _
  | integer literal => exact .word rfl _
  | string literal => exact .word rfl _
  | list items => exact .mark rfl _
  | object entries => exact .mark rfl _

/-- The items behind the first begin with a comma. -/
theorem Values.beginsApart (items : Values) :
    BeginsApart (items.run [ofMark .comma, space]) := by
  cases items with
  | nil => exact .nil
  | cons value others => exact .mark rfl _

theorem Entries.beginsApart (entries : Entries) :
    BeginsApart (entries.run [ofMark .comma, space]) := by
  cases entries with
  | nil => exact .nil
  | cons key value others => exact .mark rfl _

mutual

/-- The tokens of a printed value do not grow together. -/
theorem Value.solid_run (value : Value) : Solid value.run := by
  cases value with
  | integer literal => exact .word literal.spelled rfl .nil .nil
  | name name => exact solid_name name .nil .nil
  | string literal => exact .word (.string literal.plain) rfl .nil .nil
  | list items =>
    exact solid_mark _ (items.solid_run.1.append (solid_mark _ .nil) (.mark rfl _))
  | object entries =>
    exact solid_mark _ (entries.solid_run.1.append (solid_mark _ .nil) (.mark rfl _))

/-- The tokens of the items of a list do not grow together, with commas between them and without. -/
theorem Values.solid_run (items : Values) :
    Solid (items.run []) ∧ Solid (items.run [ofMark .comma, space]) := by
  cases items with
  | nil => exact ⟨.nil, .nil⟩
  | cons value others =>
    have h := value.solid_run.append others.solid_run.2 others.beginsApart
    exact ⟨h, solid_mark _ (solid_space h (value.beginsSolid.append _))⟩

/-- The tokens of the entries of an object do not grow together, with commas between them and
without. -/
theorem Entries.solid_run (entries : Entries) :
    Solid (entries.run []) ∧ Solid (entries.run [ofMark .comma, space]) := by
  cases entries with
  | nil => exact ⟨.nil, .nil⟩
  | cons key value others =>
    have hvalue := value.solid_run.append others.solid_run.2 others.beginsApart
    have h := solid_name key (solid_mark .colon
      (solid_space hvalue (value.beginsSolid.append _))) (.mark rfl _)
    exact ⟨h, solid_mark _ (solid_space h (.word key.shape _))⟩

end

theorem beginsApart_default (default : Option Value) : BeginsApart (defaultRun default) := by
  cases default with
  | none => exact .nil
  | some value => exact .blank rfl _

/-- The tokens of a default value do not grow together. -/
theorem solid_default (default : Option Value) : Solid (defaultRun default) := by
  cases default with
  | none => exact .nil
  | some value =>
    have h := solid_mark .equals (solid_space value.solid_run value.beginsSolid)
    exact solid_space h (.mark rfl _)

theorem solid_nonNull (isNonNull : Bool) : Solid (nonNullRun isNonNull) := by
  cases isNonNull with
  | false => exact .nil
  | true => exact solid_mark _ .nil

theorem beginsApart_nonNull (isNonNull : Bool) : BeginsApart (nonNullRun isNonNull) := by
  cases isNonNull with
  | false => exact .nil
  | true => exact .mark rfl _

/-- The tokens of a printed type do not grow together. -/
theorem TypeReference.solid_run (type : TypeReference) : Solid type.run := by
  induction type with
  | named name isNonNull =>
    exact solid_name name (solid_nonNull isNonNull) (beginsApart_nonNull isNonNull)
  | list item isNonNull ih =>
    exact solid_mark _ (ih.append (solid_mark _ (solid_nonNull isNonNull)) (.mark rfl _))

/-- A printed type begins with a name or with a bracket. -/
theorem TypeReference.beginsSolid (type : TypeReference) : BeginsSolid type.run := by
  cases type with
  | named name isNonNull => exact .word name.shape _
  | list item isNonNull => exact .mark rfl _

/-! ## Fields and members -/

/-- What is printed behind the name of a parameter does not grow together. -/
theorem Parameter.solid_typeRun (parameter : Parameter) : Solid parameter.typeRun := by
  have hdefault := parameter.type.solid_run.append (solid_default parameter.default)
    (beginsApart_default _)
  have hmarkers := hdefault.append (solid_markers parameter.markers) (beginsApart_markers _)
  exact solid_mark _ (solid_space hmarkers
    ((parameter.type.beginsSolid.append _).append _))

theorem Parameter.beginsApart_typeRun (parameter : Parameter) : BeginsApart parameter.typeRun :=
  .mark rfl _

theorem Parameter.beginsSolid (parameter : Parameter) : BeginsSolid parameter.run :=
  beginsSolid_description _ _ (.word (Name.shape _) _)

/-- The tokens of a printed parameter do not grow together. -/
theorem Parameter.solid_run (parameter : Parameter) : Solid parameter.run := by
  have hname := solid_name parameter.name parameter.solid_typeRun parameter.beginsApart_typeRun
  have hgap := solid_space hname (.word (Name.shape _) _)
  exact solid_description parameter.description hgap (.blank rfl _) (by simp) hname

/-- The tokens of a list of parameters do not grow together. -/
theorem solid_parameters (parameters : Nonempty Parameter) : Solid (parametersRun parameters) :=
  parameters.solid_run (.mark rfl _) (by simp) Parameter.solid_run fun parameter =>
    solid_mark _ (solid_space parameter.solid_run parameter.beginsSolid)

theorem Field.beginsSolid (field : Field) : BeginsSolid field.run :=
  beginsSolid_description _ _ (.word (Name.shape _) _)

/-- The tokens of a printed field do not grow together, with parameters and without. -/
theorem Field.solid_run (field : Field) : Solid field.run := by
  have hparameters : Solid (parenthesizedRun field.parameters ++ field.typeRun) ∧
      BeginsApart (parenthesizedRun field.parameters ++ field.typeRun) := by
    cases field.parameters with
    | none => exact ⟨field.solid_typeRun, field.beginsApart_typeRun⟩
    | some parameters =>
      have hinside := (solid_parameters parameters).append (solid_mark .rightParen .nil)
        (.mark rfl _)
      exact ⟨(solid_mark _ hinside).append field.solid_typeRun field.beginsApart_typeRun,
        .mark rfl _⟩
  have hname := solid_name field.name hparameters.1 hparameters.2
  have hindent := solid_indent hname (.word (Name.shape _) _)
  exact solid_description field.description (solid_lineBreak hindent) (.mark rfl _) (by simp)
    hname

/-- The tokens of a printed member do not grow together. -/
theorem Member.solid_run (member : Member) : Solid member.run :=
  solid_name _ (solid_markers _) (beginsApart_markers _)

theorem Member.beginsSolid (member : Member) : BeginsSolid member.run :=
  .word (Name.shape _) _

/-- Lines that are solid one by one are solid as the body of a block. -/
theorem solid_lines {α : Type} {print : α → Run} (lines : Nonempty α)
    (hitem : ∀ item, Solid (print item)) (hbegins : ∀ item, BeginsSolid (print item)) {rest : Run}
    (hrest : Solid rest) : Solid (linesRun print lines ++ rest) := by
  have hlines : ∀ items : List α,
      Solid (items.flatMap (fun line => indent :: (print line ++ [lineBreak])) ++ rest) := by
    intro items
    induction items with
    | nil => exact hrest
    | cons item items ih =>
      rw [List.flatMap_cons, List.append_assoc, List.cons_append, List.append_assoc]
      exact solid_indent ((hitem item).append (solid_lineBreak ih) (.mark rfl _))
        ((hbegins item).append _)
  exact solid_lineBreak (hlines lines.items)

/-- What is printed of the interfaces does not grow together, and a name may stand in front of it.
-/
theorem solid_interfaces (interfaces : Option (Nonempty Name)) :
    Solid (interfacesRun interfaces) ∧ BeginsApart (interfacesRun interfaces) := by
  cases interfaces with
  | none => exact ⟨.nil, .nil⟩
  | some interfaces =>
    have hbegins : ∀ name : Name, BeginsSolid [name.token] := fun name => .word name.shape _
    have hlist := interfaces.solid_joined .ampersand (fun name => solid_name name .nil .nil) hbegins
    have hkeyword := solid_keyword .implements
      (solid_space hlist (interfaces.beginsSolid _ hbegins)) (.blank rfl _)
    exact ⟨solid_space hkeyword (.word rfl _), .blank rfl _⟩

/-! ## Declarations -/

/-- The tokens of a heading do not grow together, `extend` included. -/
theorem TypeHeading.solid_run (keyword : Keyword) (heading : TypeHeading) :
    Solid (heading.run keyword) := by
  have hname := solid_name heading.name .nil .nil
  have hkeyword := solid_keyword keyword
    (solid_space hname (.word (Name.shape _) _)) (.blank rfl _)
  unfold run
  split
  · exact solid_keyword _ (solid_space hkeyword (.word rfl _)) (.blank rfl _)
  · exact hkeyword

/-- A body is solid with its braces around it. -/
theorem solid_block {lines : Run} (h : ∀ {rest : Run}, Solid rest → Solid (lines ++ rest)) :
    Solid (space :: ofMark .leftBrace :: (lines ++ [ofMark .rightBrace])) :=
  solid_space (solid_mark _ (h (solid_mark _ .nil))) (.mark rfl _)

/-- The names of places are names like any other. -/
theorem solid_location (location : DirectiveLocation) : Solid [ofName location.name.toList] := by
  have hspelled : Lexicon.spellsName location.name.toList = true := by
    cases location with
    | executable location => cases location <;> decide
    | typeSystem location => cases location <;> decide
  exact .word (.name hspelled) (Token.shape_ofName _) .nil .nil

theorem beginsSolid_location (location : DirectiveLocation) :
    BeginsSolid [ofName location.name.toList] := .word (Token.shape_ofName _) _

/-- The keyword of a repeatable directive may stand in front of anything solid. -/
theorem solid_repeatable (isRepeatable : Bool) {run : Run} (h : Solid run)
    (hbegins : BeginsSolid run) :
    Solid ((if isRepeatable then [ofKeyword .repeatable, space] else []) ++ run) ∧
      BeginsSolid ((if isRepeatable then [ofKeyword .repeatable, space] else []) ++ run) := by
  split
  · exact ⟨solid_keyword _ (solid_space h hbegins) (.blank rfl _), .word rfl _⟩
  · exact ⟨h, hbegins⟩

/-- The tokens of a declaration of each kind do not grow together. -/
theorem Declaration.solid_constructRun (declaration : Declaration) :
    Solid declaration.constructRun := by
  cases declaration with
  | scalar heading =>
    exact (heading.solid_run _).append (solid_markers _) (beginsApart_markers _)
  | union heading members =>
    have hlist := members.solid_joined .pipe Member.solid_run Member.beginsSolid
    have hequals := solid_space (solid_mark .equals
      (solid_space hlist (members.beginsSolid _ Member.beginsSolid))) (.mark rfl _)
    exact (heading.solid_run _).append
      ((solid_markers _).append hequals (.blank rfl _))
      ((beginsApart_markers _).append (.blank rfl _))
  | enum heading values =>
    have hblock := solid_block (solid_lines values Member.solid_run Member.beginsSolid)
    exact (heading.solid_run _).append ((solid_markers _).append hblock (.blank rfl _))
      ((beginsApart_markers _).append (.blank rfl _))
  | fielded kind heading interfaces fields =>
    have hblock := solid_block (solid_lines fields Field.solid_run Field.beginsSolid)
    have hmarkers := (solid_markers heading.markers).append hblock (.blank rfl _)
    have hbegins := (beginsApart_markers heading.markers).append
      (@BeginsApart.blank space rfl (ofMark .leftBrace ::
        (linesRun Field.run fields ++ [ofMark .rightBrace])))
    exact (heading.solid_run _).append
      ((solid_interfaces interfaces).1.append hmarkers hbegins)
      ((solid_interfaces interfaces).2.append hbegins)
  | directive description marker isRepeatable locations =>
    have hlist := locations.solid_joined .pipe solid_location beginsSolid_location
    have hon := solid_keyword .on
      (solid_space hlist (locations.beginsSolid _ beginsSolid_location)) (.blank rfl _)
    have hrepeatable := solid_repeatable isRepeatable hon (.word rfl _)
    exact solid_keyword _ (solid_space (solid_marker marker
      (solid_space hrepeatable.1 hrepeatable.2) (.blank rfl _)) (.word rfl _)) (.blank rfl _)

end Document

/-! ## Documents -/

open Document Token in
/-- The tokens of a document do not grow together. -/
theorem Document.solid_run (document : Document) : Solid document.run := by
  induction document with
  | nil => exact .nil
  | cons declaration document ih =>
    have hline : Solid (lineBreak :: Document.run document) := solid_lineBreak ih
    have hconstruct := declaration.solid_constructRun.append hline (.mark rfl _)
    have hrun : Document.run (declaration :: document)
        = descriptionRun [lineBreak] declaration.description
          ++ (declaration.constructRun ++ lineBreak :: Document.run document) := by
      simp [Document.run, Declaration.run]
    rw [hrun]
    exact solid_description _ (solid_lineBreak hconstruct) (.mark rfl _) (by simp) hconstruct

end SdlSchema
