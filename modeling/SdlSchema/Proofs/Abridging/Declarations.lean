/-
# Declarations in abridged runs

What a reader of lists or declarations takes of an abridged run is what is left of what it takes of
the run: the same names, with the parts that were captured abridged likewise.  Only the test for a
blank body looks at the text of a body, so it is asked about what is left of the body.

* `Abridgement.Carries` : what a reader takes of the abridged run;
* `Abridgement.carries_reader` : this holds of the readers of all kinds of declaration.
-/
import SdlSchema.Proofs.Abridging.Steps

namespace SdlSchema

/-- Two chains of steps keep in step if their first steps and their rests do. -/
theorem bind_eq_map {ε α α' β β' : Type} {x : Except ε α} {x' : Except ε α'}
    {f : α → Except ε β} {f' : α' → Except ε β'} {g : α → α'} {k : β → β'}
    (hx : x' = x.map g) (hf : ∀ a, x = .ok a → f' (g a) = (f a).map k) :
    (x' >>= f') = (x >>= f).map k := by
  subst hx
  cases x with
  | error miss => rfl
  | ok a => exact hf a rfl

/-! ## Reading, and then a test -/

/-- Reads an item, which must not pass the test. -/
def Reader.excluding {α : Type} (reader : Reader α) (test : α → Bool) : Reader α where
  read run := do
    let (item, rest) ← reader.read run
    if test item then throw .noMatch else pure (item, rest)
  left := by
    intro run rest item h
    obtain ⟨⟨found, left⟩, hread, h⟩ := bind_eq_ok.mp h
    dsimp only at h
    split at h
    · cases h
    · cases h
      exact reader.left hread

/-- Reads an object, interface or input declaration, whatever its body. -/
def FieldedDeclaration.frame : Reader FieldedDeclaration where
  read run := do
    let (isExtended, rest) := run.acceptExtend
    let (kind, rest) ← readKind rest
    let (name, rest) ← rest.skipTrivia.expectName
    let (interfaces, rest) ← readInterfaces rest.skipTrivia
    let (markers, rest) := rest.acceptMarkers Token.isTrivia
    let rest ← rest.skipTrivia.expect (.punctuation .leftBrace)
    let (body, rest) ← rest.closeBracket .brace
    pure (⟨⟨isExtended, name, markers⟩, kind, interfaces, body⟩, rest)
  left := by
    intro run rest declaration h
    obtain ⟨⟨kind, afterKind⟩, hkind, h⟩ := bind_eq_ok.mp h
    obtain ⟨⟨name, afterName⟩, hname, h⟩ := bind_eq_ok.mp h
    obtain ⟨⟨interfaces, afterInterfaces⟩, hinterfaces, h⟩ := bind_eq_ok.mp h
    obtain ⟨afterOpen, hopen, h⟩ := bind_eq_ok.mp h
    obtain ⟨⟨body, afterClose⟩, hclose, h⟩ := bind_eq_ok.mp h
    cases h
    exact ((readKind_left hkind).of_suffix <|
      (Run.closeBracket_left hclose).suffix.trans <| (Run.expect_left hopen).suffix.trans <|
      (Run.skipTrivia_suffix _).trans <| (Run.acceptMarkers_suffix _ afterInterfaces).trans <|
      (readInterfaces_suffix hinterfaces).trans <| (Run.skipTrivia_suffix afterName).trans <|
      (Run.expectName_left hname).suffix.trans <| Run.skipTrivia_suffix afterKind).of_left_suffix
      (Run.acceptExtend_suffix run)

/-- Reads an object, interface or input declaration, whose body must not pass the test. -/
def FieldedDeclaration.readerExcluding (blank : Run → Bool) : Reader FieldedDeclaration :=
  frame.excluding fun found => blank found.body

/-- Object, interface and input types are read whatever their body, and then tested for a blank one.
-/
theorem FieldedDeclaration.reader_eq :
    reader = readerExcluding fun body => Text.allBlank body.chars := by
  have hread : reader.read = (readerExcluding fun body => Text.allBlank body.chars).read := by
    funext run
    simp only [reader, frame, readerExcluding, Reader.excluding, bind_assoc, pure_bind]
  cases hreader : reader
  cases htest : readerExcluding fun body => Text.allBlank body.chars
  rw [hreader, htest] at hread
  simpa using hread

/-- The reader of each kind of declaration, with another test for bodies that are blank. -/
def DeclarationKind.readerExcluding (blank : Run → Bool) :
    (kind : DeclarationKind) → Reader kind.Declaration
  | .fielded => FieldedDeclaration.readerExcluding blank
  | .union => UnionDeclaration.reader
  | .scalar => ScalarDeclaration.reader
  | .enum => EnumDeclaration.reader
  | .directive => DirectiveDeclaration.reader

/-- Every kind of declaration is read with the test for blank bodies. -/
theorem DeclarationKind.reader_eq (kind : DeclarationKind) :
    kind.reader = kind.readerExcluding fun body => Text.allBlank body.chars := by
  cases kind with
  | fielded => exact FieldedDeclaration.reader_eq
  | _ => rfl

/-! ## Where readers stand -/

/-- Each brace that opens is closed. -/
theorem Run.StopsBefore.closes {run behind inner : Run} (h : run.StopsBefore behind)
    (hopen : run.expect (.punctuation .leftBrace) = .ok inner) :
    behind = [] ∨ inner.balanced .brace 0 ≠ none := by
  refine h.imp_right fun ⟨_, hclosed⟩ hnone => ?_
  obtain ⟨opener, rfl, hopener⟩ := expect_eq_ok hopen
  exact hclosed ⟨[], opener, inner, rfl, by simp [Token.isMark, hopener], hnone⟩

theorem Run.accept_braceless (kind : Kind) (run : Run) (hleft : kind ≠ .punctuation .leftBrace)
    (hright : kind ≠ .punctuation .rightBrace) : Braceless (run.accept kind).2 run := by
  unfold accept
  split
  · next htake => exact take?_braceless htake hleft hright
  · exact .refl run

/-- Behind a description, or where there is none, the run begins with a token. -/
theorem Run.atToken_acceptDescription (run : Run) : run.acceptDescription.2.AtToken := by
  cases run with
  | nil => exact fun _ hmem => by cases hmem
  | cons token tail =>
    rw [acceptDescription]
    split <;> exact atToken_skipTrivia _

namespace Abridgement

variable (A : Abridgement) {behind run : Run}

/-! ## Chains of steps

Behind a step that takes no brace reading still stops in front of what is behind the run. -/

section Chains

variable {β β' : Type} {k : β → β'} (h : run.StopsBefore behind) (hrun : run.AtToken)

include h hrun

/-- After a required mark that is no brace, both runs are read on alike. -/
theorem bind_expect_onto {kind : Kind} (hleft : kind ≠ .punctuation .leftBrace)
    (hright : kind ≠ .punctuation .rightBrace) {f : Run → Except Miss β}
    {f' : Run → Except Miss β'}
    (hf : ∀ rest, rest.StopsBefore behind → f' (A.onto behind rest) = (f rest).map k) :
    ((A.onto behind run).expect kind >>= f') = (run.expect kind >>= f).map k :=
  bind_eq_map (A.expect_onto kind h hrun) fun rest hexpect =>
    hf rest (h.of_braceless (Run.expect_braceless hexpect hleft hright))

/-- After a required name, both runs are read on alike. -/
theorem bind_expectName_onto {f : String × Run → Except Miss β}
    {f' : String × Run → Except Miss β'}
    (hf : ∀ name rest, rest.StopsBefore behind →
      f' (name, A.onto behind rest) = (f (name, rest)).map k) :
    ((A.onto behind run).expectName >>= f') = (run.expectName >>= f).map k :=
  bind_eq_map (A.expectName_onto h hrun) fun (name, rest) hname =>
    hf name rest (h.of_braceless (Run.expectName_braceless hname))

end Chains

/-! ## Blocks -/

/-- The closing bracket of the abridged run is the one that closes in the run. -/
theorem balanced_onto (bracket : Bracket) {depth : Nat}
    (h : behind = [] ∨ run.balanced bracket depth ≠ none) :
    (A.onto behind run).balanced bracket depth
      = (run.balanced bracket depth).map (Prod.map A.part (A.onto behind)) := by
  induction run generalizing depth with
  | nil =>
    rcases h with rfl | h
    · rfl
    · exact absurd rfl h
  | cons token tail ih =>
    cases hkept : A.token? token with
    | none =>
      -- what is left out is no bracket
      have hmark := (Token.of_isTrivia
        (Token.isTrivia_of_isInlineTrivia (A.isInlineTrivia_of_eq_none hkept))).2.2.2
      simp only [Run.balanced, hmark, Bool.false_eq_true, false_and, if_false, ne_eq,
        Option.map_eq_none_iff] at h ⊢
      rw [A.onto_cons_none hkept, ih h, Option.map_map]
      congr 1
      funext found
      simp only [Function.comp, Prod.map]
      rw [A.part_cons_none hkept]
    | some kept =>
      rw [A.onto_cons_some hkept]
      simp only [Run.balanced, isMark_eq hkept] at h ⊢
      split
      · rfl
      · next hclose =>
        simp only [if_neg hclose, ne_eq, Option.map_eq_none_iff] at h
        rw [ih h, Option.map_map, Option.map_map]
        congr 1
        funext found
        simp only [Function.comp, Prod.map]
        rw [A.part_cons_some hkept]

theorem closeBracket_onto (bracket : Bracket) (h : behind = [] ∨ run.balanced bracket 0 ≠ none) :
    (A.onto behind run).closeBracket bracket
      = (run.closeBracket bracket).map (Prod.map A.part (A.onto behind)) := by
  unfold Run.closeBracket
  rw [A.balanced_onto bracket h]
  cases run.balanced bracket 0 <;> rfl

/-! ## Readers -/

/-- What `told` reads of the abridged run is what `tell` leaves of what `reader` reads. -/
def Carries {α : Type} (behind : Run) (reader told : Reader α) (tell : α → α) : Prop :=
  ∀ ⦃run : Run⦄, run.StopsBefore behind → run.AtToken →
    told.read (A.onto behind run) = (reader.read run).map (Prod.map tell (A.onto behind))

/-- What is left of an element. -/
def element (element : Element) : Element := { element with markers := A.part element.markers }

/-- What is left of a list of names. -/
def nameList (list : NameList) : NameList := ⟨list.items.map A.element, A.part list.run⟩

/-- An element of the abridged run is what is left of the element of the run. -/
theorem carries_element : A.Carries behind Element.reader Element.reader A.element := by
  intro run h hrun
  refine A.bind_expectName_onto h hrun fun name rest hrest => ?_
  simp only [A.acceptMarkers_onto skipsTrivia_isInlineTrivia hrest]
  rfl

theorem carries_bareElement : A.Carries behind Element.bareReader Element.bareReader A.element := by
  intro run h hrun
  exact A.bind_expectName_onto h hrun fun name rest hrest => rfl

/-! ## Lists of names -/

/-- How a list goes on in the abridged run is what is left of how it goes on in the run. -/
def CarriesTail (behind : Run) (tail : ListTail Element) : Prop :=
  ∀ ⦃run : Run⦄, run.StopsBefore behind → tail.next (A.onto behind run)
    = (tail.next run).map (Option.map (Prod.map A.element (A.onto behind)))

/-- The elements behind pipes in the abridged run are what is left of those in the run. -/
theorem carriesTail_piped {item : Reader Element} (hitem : A.Carries behind item item A.element) :
    A.CarriesTail behind (.piped item) := by
  intro run h
  simp only [ListTail.piped]
  rw [A.skipTrivia_onto h, A.take?_onto _ h.skipTrivia (Run.atToken_skipTrivia run)]
  cases htake : run.skipTrivia.take? (.punctuation .pipe) with
  | none => rfl
  | some rest =>
    have hrest := h.skipTrivia.of_braceless (Run.take?_braceless htake (by simp) (by simp))
    simp only [Option.map_some]
    rw [A.skipTrivia_onto hrest, hitem hrest.skipTrivia (Run.atToken_skipTrivia rest)]
    cases item.read rest.skipTrivia <;> rfl

theorem afterJoiner?_onto (h : run.StopsBefore behind) :
    ListTail.afterJoiner? (A.onto behind run) = (ListTail.afterJoiner? run).map (A.onto behind) := by
  unfold ListTail.afterJoiner?
  rw [A.skipTrivia_onto h, A.take?_onto _ h.skipTrivia (Run.atToken_skipTrivia run),
    A.take?_onto _ h.skipTrivia (Run.atToken_skipTrivia run)]
  cases run.skipTrivia.take? (.punctuation .ampersand) <;> rfl

/-- The names joined by ampersands or commas in the abridged run are what is left of those in the
run. -/
theorem carriesTail_joined : A.CarriesTail behind .joined := by
  intro run h
  simp only [ListTail.joined]
  rw [A.afterJoiner?_onto h, A.skipInline_onto h,
    A.carries_bareElement h.skipInline (Run.atToken_skipInline run)]
  cases hjoiner : ListTail.afterJoiner? run with
  | none =>
    simp only [Option.map_none]
    cases Element.bareReader.read run.skipInline <;> rfl
  | some rest =>
    have hrest := h.of_braceless (ListTail.afterJoiner?_braceless hjoiner)
    simp only [Option.map_some]
    rw [A.skipTrivia_onto hrest,
      A.carries_bareElement hrest.skipTrivia (Run.atToken_skipTrivia rest)]
    cases Element.bareReader.read rest.skipTrivia <;> rfl

/-- A list goes on item by item. -/
theorem listTail_read_eq (tail : ListTail Element) (run : Run) :
    tail.read run = match tail.next run with
      | .error miss => .error miss
      | .ok none => .ok ([], run)
      | .ok (some (item, rest)) =>
        (tail.read rest).map fun found => (item :: found.1, found.2) := by
  rw [ListTail.read]
  split
  · next miss hnext => rw [hnext]
  · next hnext => rw [hnext]
  · next item rest hnext =>
    rw [hnext]
    dsimp only
    cases tail.read rest <;> rfl

/-- The rest of a list in the abridged run is what is left of the rest of the list in the run. -/
theorem listTail_read_onto {tail : ListTail Element} (htail : A.CarriesTail behind tail)
    (hplain : tail.IsPlain) (h : run.StopsBefore behind) :
    tail.read (A.onto behind run)
      = (tail.read run).map (Prod.map (List.map A.element) (A.onto behind)) := by
  induction hlength : run.length using Nat.strongRecOn generalizing run with
  | _ n ih =>
    rw [listTail_read_eq, listTail_read_eq, htail h]
    cases hnext : tail.next run with
    | error miss => rfl
    | ok next =>
      cases next with
      | none => rfl
      | some found =>
        obtain ⟨item, rest⟩ := found
        have hlt := hlength ▸ (tail.left hnext).length_lt
        simp only [Except.map, Option.map_some, Prod.map]
        rw [ih _ hlt (h.of_braceless (hplain.braceless hnext)) rfl]
        cases tail.read rest <;> rfl

/-- A list of names in the abridged run is what is left of the list in the run. -/
theorem carries_nameList {lead : Punctuation} {item : Reader Element} {tail : ListTail Element}
    (hleft : lead ≠ .leftBrace) (hright : lead ≠ .rightBrace)
    (hitem : A.Carries behind item item A.element) (hitemPlain : item.IsPlain)
    (htail : A.CarriesTail behind tail) (htailPlain : tail.IsPlain) :
    A.Carries behind (NameList.reader lead item tail) (NameList.reader lead item tail)
      A.nameList := by
  intro run h hrun
  -- the mark in front of the list may be missing
  obtain ⟨start, heq, heq', hstops, htoken, hsuffix⟩ : ∃ start : Run,
      ((run.take? (.punctuation lead)).map Run.skipTrivia).getD run = start ∧
        (((A.onto behind run).take? (.punctuation lead)).map Run.skipTrivia).getD (A.onto behind run)
          = A.onto behind start ∧
        start.StopsBefore behind ∧ start.AtToken ∧ start <:+ run := by
    rw [A.take?_onto _ h hrun]
    cases hlead : run.take? (.punctuation lead) with
    | none => exact ⟨run, rfl, rfl, h, hrun, List.suffix_refl _⟩
    | some rest =>
      have hrest := h.of_braceless
        (Run.take?_braceless hlead (by simpa using hleft) (by simpa using hright))
      exact ⟨rest.skipTrivia, rfl, A.skipTrivia_onto hrest, hrest.skipTrivia,
        Run.atToken_skipTrivia rest,
        (Run.skipTrivia_suffix rest).trans (Run.take?_left hlead).suffix⟩
  simp only [NameList.reader]
  rw [heq, heq']
  refine bind_eq_map (hitem hstops htoken) ?_
  rintro ⟨first, rest⟩ hfirst
  refine bind_eq_map (A.listTail_read_onto htail htailPlain
    (hstops.of_braceless (hitemPlain.braceless hfirst))) ?_
  rintro ⟨others, rest'⟩ hothers
  have hrest : rest' <:+ run :=
    (ListTail.read_suffix hothers).trans ((item.left hfirst).suffix.trans hsuffix)
  simp only [Prod.map, A.upTo_onto hrest]
  rfl

theorem carries_members : A.Carries behind NameList.members NameList.members A.nameList :=
  A.carries_nameList (by simp) (by simp) A.carries_element Element.isPlain_reader
    (A.carriesTail_piped A.carries_element) (ListTail.isPlain_piped Element.isPlain_reader)

theorem carries_locations : A.Carries behind NameList.locations NameList.locations A.nameList :=
  A.carries_nameList (by simp) (by simp) A.carries_bareElement Element.isPlain_bareReader
    (A.carriesTail_piped A.carries_bareElement) (ListTail.isPlain_piped Element.isPlain_bareReader)

theorem carries_interfaces : A.Carries behind NameList.interfaces NameList.interfaces A.nameList :=
  A.carries_nameList (by simp) (by simp) A.carries_bareElement Element.isPlain_bareReader
    A.carriesTail_joined ListTail.isPlain_joined

/-! ## Declarations without a block -/

/-- What is left of a heading. -/
def heading (heading : Heading) : Heading := { heading with markers := A.part heading.markers }

/-- What is left of a declaration. -/
def declaration : (kind : DeclarationKind) → kind.Declaration → kind.Declaration
  | .fielded, (found : FieldedDeclaration) =>
    { A.heading found.toHeading with
      kind := found.kind
      interfaces := found.interfaces.map A.nameList
      body := A.part found.body }
  | .union, (found : UnionDeclaration) =>
    { A.heading found.toHeading with members := A.nameList found.members }
  | .scalar, (found : ScalarDeclaration) => { A.heading found.toHeading with }
  | .enum, (found : EnumDeclaration) =>
    { A.heading found.toHeading with body := A.part found.body }
  | .directive, (found : DirectiveDeclaration) =>
    { found with locations := A.nameList found.locations }

theorem atToken_acceptExtend (hrun : run.AtToken) : run.acceptExtend.2.AtToken := by
  unfold Run.acceptExtend
  split
  · exact Run.atToken_skipTrivia _
  · exact hrun

/-- After the keyword and the name of a declaration, both runs are read on alike. -/
theorem bind_title_onto {β β' : Type} {k : β → β'} {word : Keyword} (h : run.StopsBefore behind)
    (hrun : run.AtToken) {f : String × Run → Except Miss β} {f' : String × Run → Except Miss β'}
    (hf : ∀ name rest, rest.StopsBefore behind →
      f' (name, A.onto behind rest) = (f (name, rest)).map k) :
    ((A.onto behind run.acceptExtend.2).expect (.keyword word) >>= fun rest =>
        rest.skipTrivia.expectName >>= f')
      = (run.acceptExtend.2.expect (.keyword word) >>= fun rest =>
        rest.skipTrivia.expectName >>= f).map k := by
  have hstart := h.of_braceless (Run.acceptExtend_braceless run)
  refine A.bind_expect_onto hstart (atToken_acceptExtend hrun) (by simp) (by simp)
    fun afterKeyword hafterKeyword => ?_
  rw [A.skipTrivia_onto hafterKeyword]
  exact A.bind_expectName_onto hafterKeyword.skipTrivia (Run.atToken_skipTrivia _) hf

/-- A union of the abridged run is what is left of the union of the run. -/
theorem carries_union : A.Carries behind UnionDeclaration.reader UnionDeclaration.reader
    (A.declaration .union) := by
  intro run h hrun
  simp only [UnionDeclaration.reader, A.acceptExtend_onto h hrun]
  refine A.bind_title_onto h hrun fun name afterName hafterName => ?_
  have hafterMarkers := hafterName.of_braceless
    (Run.acceptMarkers_braceless (fun _ h => h) afterName)
  simp only [A.acceptMarkers_onto skipsTrivia_isTrivia hafterName, A.skipTrivia_onto hafterMarkers]
  refine A.bind_expect_onto hafterMarkers.skipTrivia (Run.atToken_skipTrivia _) (by simp) (by simp)
    fun afterEquals hafterEquals => ?_
  rw [A.skipTrivia_onto hafterEquals]
  refine bind_eq_map (A.carries_members hafterEquals.skipTrivia (Run.atToken_skipTrivia _)) ?_
  rintro ⟨members, afterMembers⟩ hmembers
  rfl

/-- A scalar of the abridged run is what is left of the scalar of the run. -/
theorem carries_scalar : A.Carries behind ScalarDeclaration.reader ScalarDeclaration.reader
    (A.declaration .scalar) := by
  intro run h hrun
  simp only [ScalarDeclaration.reader, A.acceptExtend_onto h hrun]
  refine A.bind_title_onto h hrun fun name afterName hafterName => ?_
  have hafterMarkers := hafterName.of_braceless
    (Run.acceptMarkers_braceless (fun _ => Token.isTrivia_of_isInlineTrivia) afterName)
  simp only [A.acceptMarkers_onto skipsTrivia_isInlineTrivia hafterName,
    A.skipInline_onto hafterMarkers,
    A.atLineEnd_onto hafterMarkers.skipInline (Run.atToken_skipInline _)]
  split <;> rfl

theorem readMarker_onto (h : run.StopsBefore behind) (hrun : run.AtToken) :
    DirectiveDeclaration.readMarker (A.onto behind run)
      = (DirectiveDeclaration.readMarker run).map (Prod.map id (A.onto behind)) := by
  cases run with
  | nil => rw [A.onto_nil h]; rfl
  | cons token tail =>
    obtain ⟨kept, hkept⟩ := A.exists_kept (hrun token rfl)
    rw [A.onto_cons_some hkept, DirectiveDeclaration.readMarker, DirectiveDeclaration.readMarker,
      isMarker_eq hkept]
    split
    · next hmarker => rw [word_eq hkept (Or.inr hmarker)]; rfl
    · rfl

/-- A directive definition of the abridged run is what is left of the definition of the run. -/
theorem carries_directive : A.Carries behind DirectiveDeclaration.reader DirectiveDeclaration.reader
    (A.declaration .directive) := by
  intro run h hrun
  simp only [DirectiveDeclaration.reader]
  refine A.bind_expect_onto h hrun (by simp) (by simp) fun afterKeyword hafterKeyword => ?_
  rw [A.skipInline_onto hafterKeyword]
  refine bind_eq_map (A.readMarker_onto hafterKeyword.skipInline (Run.atToken_skipInline _)) ?_
  rintro ⟨marker, afterMarker⟩ hmarker
  have hafterMarker := hafterKeyword.skipInline.of_braceless
    (DirectiveDeclaration.readMarker_braceless hmarker)
  have hafterRepeatable := hafterMarker.skipTrivia.of_braceless
    (Run.accept_braceless (.keyword .repeatable) afterMarker.skipTrivia (by simp) (by simp))
  simp only [Prod.map, A.skipTrivia_onto hafterMarker,
    A.accept_onto _ hafterMarker.skipTrivia (Run.atToken_skipTrivia _),
    A.skipTrivia_onto hafterRepeatable]
  refine A.bind_expect_onto hafterRepeatable.skipTrivia (Run.atToken_skipTrivia _) (by simp)
    (by simp) fun afterOn hafterOn => ?_
  rw [A.skipTrivia_onto hafterOn]
  refine bind_eq_map (A.carries_locations hafterOn.skipTrivia (Run.atToken_skipTrivia _)) ?_
  rintro ⟨locations, afterLocations⟩ hlocations
  rfl

/-! ## Declarations with a block -/

/-- An enumeration of the abridged run is what is left of the enumeration of the run. -/
theorem carries_enum : A.Carries behind EnumDeclaration.reader EnumDeclaration.reader
    (A.declaration .enum) := by
  intro run h hrun
  simp only [EnumDeclaration.reader, A.acceptExtend_onto h hrun]
  refine A.bind_title_onto h hrun fun name afterName hafterName => ?_
  have hafterMarkers := hafterName.of_braceless
    (Run.acceptMarkers_braceless (fun _ h => h) afterName)
  simp only [A.acceptMarkers_onto skipsTrivia_isTrivia hafterName, A.skipTrivia_onto hafterMarkers]
  refine bind_eq_map (A.expect_onto _ hafterMarkers.skipTrivia (Run.atToken_skipTrivia _)) ?_
  intro afterOpen hopen
  refine bind_eq_map (A.closeBracket_onto .brace (hafterMarkers.skipTrivia.closes hopen)) ?_
  rintro ⟨body, rest⟩ hclose
  rfl

theorem readKind_onto (h : run.StopsBefore behind) (hrun : run.AtToken) :
    FieldedDeclaration.readKind (A.onto behind run)
      = (FieldedDeclaration.readKind run).map (Prod.map id (A.onto behind)) := by
  cases run with
  | nil => rw [A.onto_nil h]; rfl
  | cons token tail =>
    obtain ⟨kept, hkept⟩ := A.exists_kept (hrun token rfl)
    rw [A.onto_cons_some hkept, FieldedDeclaration.readKind, FieldedDeclaration.readKind,
      A.kind_eq hkept]
    split <;> rfl

/-- The interfaces that the abridged run names are those of the run. -/
theorem readInterfaces_onto (h : run.StopsBefore behind) (hrun : run.AtToken) :
    FieldedDeclaration.readInterfaces (A.onto behind run)
      = (FieldedDeclaration.readInterfaces run).map
        (Prod.map (Option.map A.nameList) (A.onto behind)) := by
  unfold FieldedDeclaration.readInterfaces
  rw [A.take?_onto _ h hrun]
  cases htake : run.take? (.keyword .implements) with
  | none => rfl
  | some rest =>
    have hrest := h.of_braceless (Run.take?_braceless htake (by simp) (by simp))
    simp only [Option.map_some]
    rw [A.skipTrivia_onto hrest]
    refine bind_eq_map (A.carries_interfaces hrest.skipTrivia (Run.atToken_skipTrivia _)) ?_
    rintro ⟨list, afterList⟩ hlist
    rfl

/-- A type with fields, whatever its body, is carried with its body abridged. -/
theorem carries_frame : A.Carries behind FieldedDeclaration.frame FieldedDeclaration.frame
    (A.declaration .fielded) := by
  intro run h hrun
  simp only [FieldedDeclaration.frame, A.acceptExtend_onto h hrun]
  have hstart := h.of_braceless (Run.acceptExtend_braceless run)
  refine bind_eq_map (A.readKind_onto hstart (atToken_acceptExtend hrun)) ?_
  rintro ⟨kind, afterKind⟩ hkind
  have hafterKind := hstart.of_braceless (FieldedDeclaration.readKind_braceless hkind)
  simp only [Prod.map, A.skipTrivia_onto hafterKind]
  refine A.bind_expectName_onto hafterKind.skipTrivia (Run.atToken_skipTrivia _)
    fun name afterName hafterName => ?_
  simp only [A.skipTrivia_onto hafterName]
  refine bind_eq_map (A.readInterfaces_onto hafterName.skipTrivia (Run.atToken_skipTrivia _)) ?_
  rintro ⟨interfaces, afterInterfaces⟩ hinterfaces
  have hafterInterfaces := hafterName.skipTrivia.of_braceless
    (FieldedDeclaration.readInterfaces_braceless hinterfaces)
  have hafterMarkers := hafterInterfaces.of_braceless
    (Run.acceptMarkers_braceless (fun _ h => h) afterInterfaces)
  simp only [Prod.map, A.acceptMarkers_onto skipsTrivia_isTrivia hafterInterfaces,
    A.skipTrivia_onto hafterMarkers]
  refine bind_eq_map (A.expect_onto _ hafterMarkers.skipTrivia (Run.atToken_skipTrivia _)) ?_
  intro afterOpen hopen
  refine bind_eq_map (A.closeBracket_onto .brace (hafterMarkers.skipTrivia.closes hopen)) ?_
  rintro ⟨body, rest⟩ hclose
  rfl

/-! ## All kinds of declaration -/

/-- A test that is asked about what is left of an item keeps what is carried. -/
theorem carries_excluding {α : Type} {reader : Reader α} {tell : α → α}
    (h : A.Carries behind reader reader tell) (test : α → Bool) :
    A.Carries behind (reader.excluding fun item => test (tell item)) (reader.excluding test)
      tell := by
  intro run hrun htoken
  refine bind_eq_map (h hrun htoken) ?_
  rintro ⟨item, rest⟩ hread
  simp only [Prod.map]
  split <;> rfl

/-- What is left of an item with its description. -/
def described {α : Type} (tell : α → α) (found : Described α) : Described α :=
  ⟨found.description.map A.content, tell found.item⟩

/-- With a description in front, what is carried has what is left of the description. -/
theorem carries_described {α : Type} {reader told : Reader α} {tell : α → α}
    (h : A.Carries behind reader told tell) :
    A.Carries behind reader.described told.described (A.described tell) := by
  intro run hrun htoken
  simp only [Reader.described, A.acceptDescription_onto hrun htoken]
  have hafter := hrun.of_braceless (Run.acceptDescription_braceless run)
  refine bind_eq_map (h hafter (Run.atToken_acceptDescription run)) ?_
  rintro ⟨item, rest⟩ hread
  rfl

/-- What a reader of declarations takes of the abridged run is what is left of what it takes of the
run, if bodies are tested for what is left of them. -/
theorem carries_reader (behind : Run) (blank : Run → Bool) (kind : DeclarationKind) :
    A.Carries behind (kind.readerExcluding fun body => blank (A.part body))
      (kind.readerExcluding blank) (A.declaration kind) := by
  cases kind with
  | fielded => exact A.carries_excluding A.carries_frame fun found => blank found.body
  | union => exact A.carries_union
  | scalar => exact A.carries_scalar
  | enum => exact A.carries_enum
  | directive => exact A.carries_directive

end Abridgement

end SdlSchema
