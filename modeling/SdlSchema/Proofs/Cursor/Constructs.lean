/-
# Constructs by positions

Fields, arguments, elements and declarations, taken piece by piece.  What is taken is a record of
texts, each cut out of the document; a reader gives the tokens under them.  Each construct does what
its reader does, up to the miss for which it gives up.

* `FieldText`, `FieldedText`, … : constructs as texts;
* `Follows.field`, `Follows.fielded`, … : each construct follows its reader.
-/
import SdlSchema.Declaration.Plain
import SdlSchema.Proofs.Cursor.Brackets
import SdlSchema.Proofs.Cursor.Lists

namespace SdlSchema

/-! ## Constructs as texts -/

/-- A declared type and the markers after it. -/
structure TypedText where
  type : String
  markers : Option String

/-- A declared argument. -/
structure ArgumentText extends TypedText where
  name : String

/-- A declared field. -/
structure FieldText extends ArgumentText where
  arguments : Option String

/-- A name in a list. -/
structure ElementText where
  name : String
  markers : Option String

/-- What every named declaration says of itself. -/
structure HeadingText where
  isExtended : Bool
  name : String
  markers : Option String

/-- An object, interface or input declaration. -/
structure FieldedText extends HeadingText where
  kind : FieldedKind
  interfaces : Option String
  body : String

/-- An enum declaration. -/
structure EnumText extends HeadingText where
  body : String

/-- A union declaration. -/
structure UnionText extends HeadingText where
  members : String

/-- A directive definition. -/
structure DirectiveText where
  marker : String
  isRepeatable : Bool
  locations : String

/-- The texts of a type and its markers. -/
def TypedLine.texts (line : TypedLine) : TypedText :=
  ⟨line.type.text, line.markers.text?⟩

/-- The texts of an argument. -/
def ArgumentLine.texts (line : ArgumentLine) : ArgumentText := ⟨line.toTypedLine.texts, line.name⟩

/-- The texts of a field. -/
def FieldLine.texts (line : FieldLine) : FieldText :=
  ⟨line.toArgumentLine.texts, line.arguments.map Run.text⟩

/-- The texts of an element. -/
def Element.texts (element : Element) : ElementText := ⟨element.name, element.markers.text?⟩

/-- The texts of a heading. -/
def Heading.texts (heading : Heading) : HeadingText :=
  ⟨heading.isExtended, heading.name, heading.markers.text?⟩

/-- The texts of an object, interface or input declaration. -/
def FieldedDeclaration.texts (found : FieldedDeclaration) : FieldedText :=
  ⟨found.toHeading.texts, found.kind, found.interfaces.map fun list => list.run.text,
    found.body.text⟩

/-- The texts of an enum declaration. -/
def EnumDeclaration.texts (found : EnumDeclaration) : EnumText :=
  ⟨found.toHeading.texts, found.body.text⟩

/-- The texts of a union declaration. -/
def UnionDeclaration.texts (found : UnionDeclaration) : UnionText :=
  ⟨found.toHeading.texts, found.members.run.text⟩

/-- The texts of a scalar declaration. -/
def ScalarDeclaration.texts (found : ScalarDeclaration) : HeadingText := found.toHeading.texts

/-- The texts of a directive definition. -/
def DirectiveDeclaration.texts (found : DirectiveDeclaration) : DirectiveText :=
  ⟨found.marker, found.isRepeatable, found.locations.run.text⟩

/-- Something else with the same description in front of it. -/
def Described.map {α β : Type} (tell : α → β) (found : Described α) : Described β :=
  ⟨found.description, tell found.item⟩

namespace Attempt

open Walk

/-! ## Walks -/

/-- Takes an attempt with the description in front of it. -/
def described {β : Type} (attempt : Attempt β) : Attempt (Described β) := do
  let found ← acceptDescription
  let item ← attempt
  pure ⟨found, item⟩

/-- Takes a reference to a type, which has to be there. -/
def expectType : Attempt String := do
  match ← typeReference with
  | some type => pure type
  | none => throw .noMatch

/-- Whether the text ends, or a line break or a token that terminates comes next. -/
def atEndOf (terminates : Token → Bool) : Walk Bool := do
  if ← atEnd then pure true else sees fun token => token.isNewline || terminates token

/-- Takes a colon, a type, an optional default value and markers, up to the end of the item. -/
def typedTail : Attempt TypedText := do
  expect (.punctuation .colon)
  skipInline
  let type ← expectType
  skipInline
  skipDefault
  let markers ← acceptMarkers Token.isInlineTrivia
  skipInline
  if ← atEndOf (Token.isMark .comma) then pure ⟨type, markers⟩ else throw .noMatch

/-- Takes an argument. -/
def argument : Attempt ArgumentText := do
  let name ← expectName
  skipInline
  let line ← typedTail
  pure ⟨line, name⟩

/-- Takes the arguments of a field, if there is an opening parenthesis. -/
def arguments : Attempt (Option String) := do
  match ← opener .paren with
  | some opened => do
    let text ← body .paren opened
    skipInline
    pure (some text)
  | none => pure none

/-- Takes a field. -/
def field : Attempt FieldText := do
  let name ← expectName
  skipInline
  let arguments ← arguments
  let line ← typedTail
  pure ⟨⟨line, name⟩, arguments⟩

/-- Takes the keyword of a fielded type. -/
def fieldedKind : Attempt FieldedKind := do
  let next ← current
  match next.bind fun lexeme => FieldedKind.ofKind? lexeme.token.kind with
  | some kind => do
    let _ ← bump
    pure kind
  | none => throw .noMatch

/-- Takes the interfaces behind `implements`, if it is there. -/
def implemented : Attempt (Option String) := do
  if ← eat (.keyword .implements) then do
    skipTrivia
    let text ← interfaces
    pure (some text)
  else pure none

/-- Takes an object, interface or input declaration.  One with a blank body is none. -/
def fielded : Attempt FieldedText := do
  let isExtended ← acceptExtend
  let kind ← fieldedKind
  skipTrivia
  let name ← expectName
  skipTrivia
  let interfaces ← implemented
  let markers ← acceptMarkers Token.isTrivia
  skipTrivia
  let body ← block .brace
  if Text.allBlank body.toList then throw .noMatch
  else pure ⟨⟨isExtended, name, markers⟩, kind, interfaces, body⟩

/-- Takes an enum declaration. -/
def enum : Attempt EnumText := do
  let isExtended ← acceptExtend
  expect (.keyword .enum)
  skipTrivia
  let name ← expectName
  let markers ← acceptMarkers Token.isTrivia
  skipTrivia
  let body ← block .brace
  pure ⟨⟨isExtended, name, markers⟩, body⟩

/-- Takes a union declaration. -/
def union : Attempt UnionText := do
  let isExtended ← acceptExtend
  expect (.keyword .union)
  skipTrivia
  let name ← expectName
  let markers ← acceptMarkers Token.isTrivia
  skipTrivia
  expect (.punctuation .equals)
  skipTrivia
  let members ← members
  pure ⟨⟨isExtended, name, markers⟩, members⟩

/-- Takes a scalar declaration, which has to end with its line. -/
def scalar : Attempt HeadingText := do
  let isExtended ← acceptExtend
  expect (.keyword .scalar)
  skipTrivia
  let name ← expectName
  let markers ← acceptMarkers Token.isInlineTrivia
  skipInline
  if ← atEndOf fun _ => false then pure ⟨isExtended, name, markers⟩ else throw .noMatch

/-- Takes a marker, which has to be there. -/
def expectMarker : Attempt String := do
  let next ← current
  match next.filter fun lexeme => lexeme.token.isMarker with
  | some lexeme => do
    let _ ← bump
    pure lexeme.token.word
  | none => throw .noMatch

/-- Takes a directive definition. -/
def directive : Attempt DirectiveText := do
  expect (.keyword .directive)
  skipInline
  let marker ← expectMarker
  skipTrivia
  let isRepeatable ← eat (.keyword .repeatable)
  skipTrivia
  expect (.keyword .on)
  skipTrivia
  let locations ← locations
  pure ⟨marker, isRepeatable, locations⟩

/-! ## Pieces -/

variable {text : List Char} {start : Nat} {run rest : Run}

namespace Follows

/-- Behind the description the item is taken. -/
theorem behindDescription {α β : Type} {attempt : Attempt β} {reader : Reader α} {tell : α → β}
    {found : Option String} (hfound : found = run.acceptDescription.1)
    (hattempt : Follows attempt text start tell (reader.read run.acceptDescription.2)) :
    Follows (attempt >>= fun item => Pure.pure ⟨found, item⟩) text start (Described.map tell)
      (reader.described.read run) :=
  hattempt.bind fun _ _ _ _ hrest => pure (by rw [hfound]; rfl) hrest

theorem described {α β : Type} {attempt : Attempt β} {reader : Reader α} {tell : α → β}
    (hattempt : ∀ {start run}, At text start run →
      Follows attempt text start tell (reader.read run)) (h : At text start run) :
    Follows (Attempt.described attempt) text start (Described.map tell)
      (reader.described.read run) :=
  lift (returns_acceptDescription h) fun _ _ ⟨hfound, hstop⟩ =>
    behindDescription hfound (hattempt hstop)

theorem expectType (hshort : Text.byteLength text < 2 ^ 32) (h : At text start run) :
    Follows Attempt.expectType text start Run.text run.expectType := by
  refine lift (returns_typeReference hshort h) fun found stop hfound => ?_
  rw [Run.expectType]
  cases htype : run.typeReference? with
  | none =>
    rw [htype] at hfound
    exact hfound ▸ throw _
  | some type =>
    rw [htype] at hfound
    exact hfound.1 ▸ pure rfl hfound.2

end Follows

theorem atEndOf_eq (h : At text start run) (terminates : Token → Bool) :
    atEndOf terminates (Source.of text) start
      = .ok (run.isEmpty || run.head?.any fun token => token.isNewline || terminates token,
          start) := by
  cases run with
  | nil => exact bind_eq_ok.mpr ⟨(true, start), atEnd_eq h, rfl⟩
  | cons token tail =>
    have hsees := sees_eq h fun token => token.isNewline || terminates token
    exact bind_eq_ok.mpr ⟨(false, start), atEnd_eq h, hsees⟩

theorem atEndOf_comma (h : At text start run) :
    atEndOf (Token.isMark .comma) (Source.of text) start = .ok (run.atItemEnd, start) := by
  rw [atEndOf_eq h]
  cases run <;> simp [Run.atItemEnd]

theorem atEndOf_line (h : At text start run) :
    atEndOf (fun _ => false) (Source.of text) start = .ok (run.atLineEnd, start) := by
  rw [atEndOf_eq h]
  cases run <;> simp [Run.atLineEnd]

namespace Follows

theorem typedTail (hshort : Text.byteLength text < 2 ^ 32) (h : At text start run) :
    Follows Attempt.typedTail text start TypedLine.texts (TypedLine.read run) := by
  refine expect h fun rest _ hrest => ?_
  refine lift (returns_skipWhile hrest _) fun _ stop hstop => ?_
  refine (expectType hshort hstop).bind fun type rest stop _ hrest => ?_
  refine lift (returns_skipWhile hrest _) fun _ stop hstop => ?_
  refine lift (returns_skipDefault hstop) fun _ stop hstop => ?_
  refine lift (returns_acceptMarkers hshort hstop skipsTrivia_isInlineTrivia)
    fun markers stop ⟨hmarkers, hstop⟩ => ?_
  refine lift (returns_skipWhile hstop _) fun _ stop hstop => ?_
  refine step (atEndOf_comma hstop) (ite (fun _ => ?_) fun _ => throw _)
  exact pure (by rw [hmarkers]; rfl) hstop

theorem argument (hshort : Text.byteLength text < 2 ^ 32) (h : At text start run) :
    Follows Attempt.argument text start ArgumentLine.texts (ArgumentLine.reader.read run) := by
  refine (expectName h).bind fun name rest stop _ hrest => ?_
  refine lift (returns_skipWhile hrest _) fun _ stop hstop => ?_
  exact (typedTail hshort hstop).bind fun line rest stop _ hrest => pure rfl hrest

theorem arguments (hshort : Text.byteLength text < 2 ^ 32) (h : At text start run) :
    Follows Attempt.arguments text start (Option.map Run.text) (FieldLine.readArguments run) := by
  rw [FieldLine.readArguments]
  cases htake : run.take? (.punctuation .leftParen) with
  | none => exact step (opener_of_take?_none _ h htake) (pure rfl h)
  | some inner =>
    obtain ⟨token, opened, rfl, hopened, hopener⟩ := opener_of_take? .paren h htake
    refine step hopener ((body .paren hshort h hopened).bind fun body rest stop _ hrest => ?_)
    exact lift (returns_skipWhile hrest _) fun _ stop hstop => pure rfl hstop

theorem field (hshort : Text.byteLength text < 2 ^ 32) (h : At text start run) :
    Follows Attempt.field text start FieldLine.texts (FieldLine.reader.read run) := by
  refine (expectName h).bind fun name rest stop _ hrest => ?_
  refine lift (returns_skipWhile hrest _) fun _ stop hstop => ?_
  refine (arguments hshort hstop).bind fun arguments rest stop _ hrest => ?_
  exact (typedTail hshort hrest).bind fun line rest stop _ hrest => pure rfl hrest

/-! ## Declarations -/

theorem fieldedKind (h : At text start run) :
    Follows Attempt.fieldedKind text start id (FieldedDeclaration.readKind run) := by
  cases run with
  | nil => exact step (current_eq_none h) (throw _)
  | cons token tail =>
    obtain ⟨lexeme, hcurrent, -, rfl⟩ := current_eq_some h
    refine step hcurrent ?_
    rw [FieldedDeclaration.readKind, Option.bind_some]
    cases FieldedKind.ofKind? lexeme.token.kind with
    | none => exact throw _
    | some kind =>
      obtain ⟨_, hbump, -⟩ := bump_eq h
      exact step hbump (pure rfl h.next)

theorem implemented (hshort : Text.byteLength text < 2 ^ 32) (h : At text start run) :
    Follows Attempt.implemented text start (Option.map fun list => list.run.text)
      (FieldedDeclaration.readInterfaces run) := by
  rw [FieldedDeclaration.readInterfaces]
  cases htake : run.take? (.keyword .implements) with
  | none => exact step (eat_of_take?_none h htake) (pure rfl h)
  | some rest =>
    obtain ⟨heat, hrest⟩ := eat_of_take? h htake
    refine step heat (lift (returns_skipWhile hrest _) fun _ stop hstop => ?_)
    exact (interfaces hshort hstop).bind fun list rest stop _ hrest => pure rfl hrest

theorem fielded (hshort : Text.byteLength text < 2 ^ 32) (h : At text start run) :
    Follows Attempt.fielded text start FieldedDeclaration.texts
      (FieldedDeclaration.reader.read run) := by
  refine lift (returns_acceptExtend h) fun isExtended stop ⟨hextended, hstop⟩ => ?_
  refine (fieldedKind hstop).bind fun kind rest stop _ hrest => ?_
  refine lift (returns_skipWhile hrest _) fun _ stop hstop => ?_
  refine (expectName hstop).bind fun name rest stop _ hrest => ?_
  refine lift (returns_skipWhile hrest _) fun _ stop hstop => ?_
  refine (implemented hshort hstop).bind fun interfaces rest stop _ hrest => ?_
  refine lift (returns_acceptMarkers hshort hrest skipsTrivia_isTrivia)
    fun markers stop ⟨hmarkers, hstop⟩ => ?_
  refine lift (returns_skipWhile hstop _) fun _ stop hstop => ?_
  refine block .brace hshort hstop fun body rest stop hrest => ?_
  have hchars : body.text.toList = body.chars := String.toList_ofList
  rw [hchars]
  refine ite (fun _ => throw _) fun _ => ?_
  exact pure (by rw [hextended, hmarkers]; rfl) hrest

theorem enum (hshort : Text.byteLength text < 2 ^ 32) (h : At text start run) :
    Follows Attempt.enum text start EnumDeclaration.texts (EnumDeclaration.reader.read run) := by
  refine lift (returns_acceptExtend h) fun isExtended stop ⟨hextended, hstop⟩ => ?_
  refine expect hstop fun rest _ hrest => ?_
  refine lift (returns_skipWhile hrest _) fun _ stop hstop => ?_
  refine (expectName hstop).bind fun name rest stop _ hrest => ?_
  refine lift (returns_acceptMarkers hshort hrest skipsTrivia_isTrivia)
    fun markers stop ⟨hmarkers, hstop⟩ => ?_
  refine lift (returns_skipWhile hstop _) fun _ stop hstop => ?_
  refine block .brace hshort hstop fun body rest stop hrest => ?_
  exact pure (by rw [hextended, hmarkers]; rfl) hrest

theorem union (hshort : Text.byteLength text < 2 ^ 32) (h : At text start run) :
    Follows Attempt.union text start UnionDeclaration.texts (UnionDeclaration.reader.read run) := by
  refine lift (returns_acceptExtend h) fun isExtended stop ⟨hextended, hstop⟩ => ?_
  refine expect hstop fun rest _ hrest => ?_
  refine lift (returns_skipWhile hrest _) fun _ stop hstop => ?_
  refine (expectName hstop).bind fun name rest stop _ hrest => ?_
  refine lift (returns_acceptMarkers hshort hrest skipsTrivia_isTrivia)
    fun markers stop ⟨hmarkers, hstop⟩ => ?_
  refine lift (returns_skipWhile hstop _) fun _ stop hstop => ?_
  refine expect hstop fun rest _ hrest => ?_
  refine lift (returns_skipWhile hrest _) fun _ stop hstop => ?_
  exact (members hshort hstop).bind fun list rest stop _ hrest =>
    pure (by rw [hextended, hmarkers]; rfl) hrest

theorem scalar (hshort : Text.byteLength text < 2 ^ 32) (h : At text start run) :
    Follows Attempt.scalar text start ScalarDeclaration.texts
      (ScalarDeclaration.reader.read run) := by
  refine lift (returns_acceptExtend h) fun isExtended stop ⟨hextended, hstop⟩ => ?_
  refine expect hstop fun rest _ hrest => ?_
  refine lift (returns_skipWhile hrest _) fun _ stop hstop => ?_
  refine (expectName hstop).bind fun name rest stop _ hrest => ?_
  refine lift (returns_acceptMarkers hshort hrest skipsTrivia_isInlineTrivia)
    fun markers stop ⟨hmarkers, hstop⟩ => ?_
  refine lift (returns_skipWhile hstop _) fun _ stop hstop => ?_
  refine step (atEndOf_line hstop) (ite (fun _ => ?_) fun _ => throw _)
  exact pure (by rw [hextended, hmarkers]; rfl) hstop

theorem expectMarker (h : At text start run) :
    Follows Attempt.expectMarker text start id (DirectiveDeclaration.readMarker run) := by
  cases run with
  | nil => exact step (current_eq_none h) (throw _)
  | cons token tail =>
    obtain ⟨lexeme, hcurrent, -, rfl⟩ := current_eq_some h
    refine step hcurrent ?_
    rw [DirectiveDeclaration.readMarker, Option.filter_some]
    cases lexeme.token.isMarker with
    | false => exact throw _
    | true =>
      obtain ⟨_, hbump, -⟩ := bump_eq h
      exact step hbump (pure rfl h.next)

theorem directive (hshort : Text.byteLength text < 2 ^ 32) (h : At text start run) :
    Follows Attempt.directive text start DirectiveDeclaration.texts
      (DirectiveDeclaration.reader.read run) := by
  refine expect h fun rest _ hrest => ?_
  refine lift (returns_skipWhile hrest _) fun _ stop hstop => ?_
  refine (expectMarker hstop).bind fun marker rest stop _ hrest => ?_
  refine lift (returns_skipWhile hrest _) fun _ stop hstop => ?_
  refine lift (returns_eat hstop) fun isRepeatable stop ⟨hrepeatable, hstop⟩ => ?_
  refine lift (returns_skipWhile hstop _) fun _ stop hstop => ?_
  refine expect hstop fun rest _ hrest => ?_
  refine lift (returns_skipWhile hrest _) fun _ stop hstop => ?_
  exact (locations hshort hstop).bind fun list rest stop _ hrest =>
    pure (by rw [hrepeatable]; rfl) hrest

end Follows

end Attempt

end SdlSchema
