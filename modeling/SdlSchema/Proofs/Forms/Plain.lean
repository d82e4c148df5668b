/-
# Forms of declarations without a block

Unions and directive definitions end with a list, scalars with their line.  The list is the longest
one that is there, and `|` behind it has to be followed by a name; so what is read neither stops in
front of a last item or marker nor reaches into what comes next.

* `UnionDeclaration.reader_read_iff`, `DirectiveDeclaration.reader_read_iff`,
  `ScalarDeclaration.reader_read_iff` : each reader against its form;
* `plain_declarations_read_iff` : all three.
-/
import SdlSchema.Declaration.Plain
import SdlSchema.Proofs.Forms.Headings
import SdlSchema.Proofs.Forms.Lists

namespace SdlSchema

variable {run rest : Run}

/-- The longest list that stands behind a gap, when no `|` dangles behind it. -/
def ListsLongest (item : Element → Run → Prop) (list : NameList) (rest run : Run) : Prop :=
  ∃ gap inner, run = gap ++ inner ∧ Gap Token.isTrivia gap ∧
    list.IsLongest (ListForm .pipe PipeLink item) rest inner ∧ ¬ rest.Dangles

/-- Behind trivia exactly the longest list is read. -/
theorem NameList.piped_read_skipTrivia_iff {item : Reader Element} {form : Element → Run → Prop}
    {ends : Run → Prop} {list : NameList} (hitem : item.ReadsForm form ends) :
    (reader .pipe item (.piped item)).read run.skipTrivia = .ok (list, rest) ↔
      ListsLongest form list rest run := by
  rw [piped_read_iff hitem]
  constructor
  · rintro ⟨hlongest, hdangles⟩
    obtain ⟨gap, hrun, hgap⟩ := Gap.exists_dropWhile Token.isTrivia run
    exact ⟨gap, run.skipTrivia, hrun, hgap, hlongest, hdangles⟩
  · rintro ⟨gap, inner, rfl, hgap, hlongest, hdangles⟩
    obtain ⟨token, others, hlist, htoken⟩ := hlongest.isForm.begins hitem
    have hinner : Run.skipTrivia (gap ++ inner) = inner := by
      rw [hlongest.split, hlist]
      exact hgap.skipTrivia htoken
    rw [hinner]
    exact ⟨hlongest, hdangles⟩

/-! ## Unions -/

namespace UnionDeclaration

theorem reader_read (run : Run) : reader.read run = Heading.read .union .equals run >>=
    fun opened => NameList.members.read opened.2.skipTrivia >>= fun listed =>
      .ok (⟨opened.1, listed.1⟩, listed.2) := by
  simp only [reader, Heading.read, bind_assoc, pure_bind]
  rfl

/-- A union is read exactly where its heading is there and a longest list of members. -/
theorem reader_read_iff {declaration : UnionDeclaration} :
    reader.read run = .ok (declaration, rest) ↔ ∃ heading inner, run = heading ++ inner ∧
      HeadingForm .union .equals declaration.toHeading heading ∧
      ListsLongest MarkedForm declaration.members rest inner := by
  rw [reader_read]
  constructor
  · intro h
    obtain ⟨⟨heading, inner⟩, hheading, h⟩ := bind_eq_ok.mp h
    obtain ⟨⟨members, left⟩, hmembers, h⟩ := bind_eq_ok.mp h
    cases h
    obtain ⟨front, rfl, hfront⟩ := Heading.read_form hheading
    exact ⟨front, inner, rfl, hfront,
      (NameList.piped_read_skipTrivia_iff Element.reader_readsForm).mp hmembers⟩
  · rintro ⟨front, inner, rfl, hfront, hmembers⟩
    exact bind_eq_ok.mpr ⟨_, (Heading.read_iff (by simp)).mpr ⟨front, rfl, hfront⟩,
      bind_eq_ok.mpr
        ⟨_, (NameList.piped_read_skipTrivia_iff Element.reader_readsForm).mpr hmembers, rfl⟩⟩

end UnionDeclaration

/-! ## Directive definitions -/

/-- What stands in front of the locations of a directive: its keyword, its marker on the same line,
`repeatable`, if it is there, and `on`. -/
inductive DirectiveOpening : String → Bool → Run → Prop
  | mk {keyword marker last : Token} {isRepeatable : Bool} {inline gap repeated : Run}
      (hkeyword : keyword.kind = .keyword .directive) (hinline : Gap Token.isInlineTrivia inline)
      (hmarker : marker.isMarker = true) (hgap : Gap Token.isTrivia gap)
      (hrepeated : ModifierForm .repeatable isRepeatable repeated)
      (hlast : last.kind = .keyword .on) :
      DirectiveOpening marker.word isRepeatable
        (keyword :: (inline ++ marker :: (gap ++ (repeated ++ [last]))))

namespace DirectiveDeclaration

variable {marker : String} {isRepeatable : Bool}

/-- Reads a directive definition up to the word in front of its locations. -/
def readOpening (run : Run) : Except Miss ((String × Bool) × Run) := do
  let rest ← run.expect (.keyword .directive)
  let (marker, rest) ← readMarker rest.skipInline
  let (isRepeatable, rest) := rest.skipTrivia.accept (.keyword .repeatable)
  let rest ← rest.skipTrivia.expect (.keyword .on)
  pure ((marker, isRepeatable), rest)

/-- The opening of a directive definition is read exactly where it has its form. -/
theorem readOpening_iff : readOpening run = .ok ((marker, isRepeatable), rest) ↔
    ∃ opening, run = opening ++ rest ∧ DirectiveOpening marker isRepeatable opening := by
  constructor
  · intro h
    obtain ⟨afterKeyword, hkeyword, h⟩ := bind_eq_ok.mp h
    obtain ⟨⟨marker, afterMarker⟩, hmarker, h⟩ := bind_eq_ok.mp h
    obtain ⟨afterOn, hon, h⟩ := bind_eq_ok.mp h
    cases h
    obtain ⟨keyword, rfl, hkeywordKind⟩ := Run.expect_eq_ok hkeyword
    obtain ⟨inline, hinlineSplit, hinline⟩ := Gap.exists_dropWhile Token.isInlineTrivia afterKeyword
    obtain ⟨token, hfirst, htoken, rfl⟩ := readMarker_eq_ok hmarker
    obtain ⟨gap, repeated, last, rfl, hgap, hrepeated, hlast⟩ := Run.accept_expect_form hon
    refine ⟨keyword :: (inline ++ token :: (gap ++ (repeated ++ [last]))), ?_,
      .mk hkeywordKind hinline htoken hgap hrepeated hlast⟩
    rw [hinlineSplit, show afterKeyword.dropWhile Token.isInlineTrivia
      = token :: (gap ++ (repeated ++ last :: rest)) from hfirst]
    simp
  · rintro ⟨opening, rfl, hopening⟩
    cases hopening with
    | @mk keyword token last _ inline gap repeated hkeyword hinline hmarker hgap hrepeated hlast =>
      have hne : last.kind ≠ .keyword .repeatable := by simp [hlast]
      obtain ⟨left, haccept, hleft⟩ := Run.accept_append hgap hrepeated
        (Token.isTrivia_of_keyword hlast) hne rest
      have hassoc : keyword :: (inline ++ token :: (gap ++ (repeated ++ [last]))) ++ rest
          = keyword :: (inline ++ token :: (gap ++ (repeated ++ last :: rest))) := by simp
      have hread : readMarker (Run.skipInline
          (inline ++ token :: (gap ++ (repeated ++ last :: rest))))
            = .ok (token.word, gap ++ (repeated ++ last :: rest)) := by
        rw [hinline.skipInline (Token.isTrivia_of_isMarker hmarker), readMarker, if_pos hmarker]
      have hon : ((Run.skipTrivia (gap ++ (repeated ++ last :: rest))).accept
          (.keyword .repeatable)).2.skipTrivia.expect (.keyword .on) = .ok rest := by
        rw [haccept, hleft]
        exact Run.expect_of_kind hlast
      rw [hassoc]
      refine bind_eq_ok.mpr ⟨_, Run.expect_of_kind hkeyword, bind_eq_ok.mpr ⟨_, hread,
        bind_eq_ok.mpr ⟨rest, hon, ?_⟩⟩⟩
      show Except.ok ((token.word, (Run.accept _ _).1), rest) = _
      rw [haccept]

theorem reader_read (run : Run) : reader.read run = readOpening run >>= fun opened =>
    NameList.locations.read opened.2.skipTrivia >>= fun listed =>
      .ok (⟨opened.1.1, opened.1.2, listed.1⟩, listed.2) := by
  simp only [reader, readOpening, bind_assoc, pure_bind]
  rfl

/-- A directive definition is read exactly where its opening is there and a longest list of
locations. -/
theorem reader_read_iff {declaration : DirectiveDeclaration} :
    reader.read run = .ok (declaration, rest) ↔ ∃ opening inner, run = opening ++ inner ∧
      DirectiveOpening declaration.marker declaration.isRepeatable opening ∧
      ListsLongest NameForm declaration.locations rest inner := by
  rw [reader_read]
  constructor
  · intro h
    obtain ⟨⟨⟨marker, isRepeatable⟩, inner⟩, hopening, h⟩ := bind_eq_ok.mp h
    obtain ⟨⟨locations, left⟩, hlocations, h⟩ := bind_eq_ok.mp h
    cases h
    obtain ⟨opening, rfl, hform⟩ := readOpening_iff.mp hopening
    exact ⟨opening, inner, rfl, hform,
      (NameList.piped_read_skipTrivia_iff Element.bareReader_readsForm).mp hlocations⟩
  · rintro ⟨opening, inner, rfl, hform, hlocations⟩
    exact bind_eq_ok.mpr ⟨_, readOpening_iff.mpr ⟨opening, rfl, hform⟩, bind_eq_ok.mpr
      ⟨_, (NameList.piped_read_skipTrivia_iff Element.bareReader_readsForm).mpr hlocations, rfl⟩⟩

end DirectiveDeclaration

/-! ## Scalars -/

/-- The keyword and the name, then markers and trivia on the same line. -/
inductive ScalarForm : Heading → Run → Prop
  | mk {keyword : Token} {isExtended : Bool} {name : String} {title kept marked gap : Run}
      (hkeyword : keyword.kind = .keyword .scalar)
      (htitle : TitleForm keyword isExtended name title)
      (hmarkers : MarkersForm Token.isInlineTrivia kept marked)
      (hgap : Gap Token.isInlineTrivia gap) :
      ScalarForm ⟨isExtended, name, kept⟩ (title ++ (marked ++ gap))

namespace ScalarDeclaration

theorem reader_form {declaration : ScalarDeclaration}
    (h : reader.read run = .ok (declaration, rest)) :
    (∃ front, run = front ++ rest ∧ ScalarForm declaration.toHeading front) ∧
      rest.atLineEnd = true := by
  obtain ⟨afterKeyword, hkeyword, h⟩ := bind_eq_ok.mp h
  obtain ⟨⟨name, afterName⟩, hname, h⟩ := bind_eq_ok.mp h
  dsimp only at h
  split at h
  · next hend =>
    cases h
    obtain ⟨keyword, hfirst, hkind⟩ := Run.expect_eq_ok hkeyword
    obtain ⟨title, hrun, htitle⟩ := Run.title_form hfirst hname
    obtain ⟨marked, hmarked, hmarkers⟩ :=
      Run.acceptMarkers_form skipsTrivia_isInlineTrivia afterName
    obtain ⟨gap, hgapSplit, hgap⟩ := Gap.exists_dropWhile Token.isInlineTrivia
      (afterName.acceptMarkers Token.isInlineTrivia).2
    refine ⟨⟨title ++ (marked ++ gap), ?_, .mk hkind htitle hmarkers hgap⟩, hend⟩
    rw [hgapSplit] at hmarked
    rw [hrun, List.append_assoc, List.append_assoc]
    exact congrArg (title ++ ·) hmarked
  · cases h

/-- A scalar is read exactly where it has its form and ends with its line. -/
theorem reader_read_iff {declaration : ScalarDeclaration} :
    reader.read run = .ok (declaration, rest) ↔
      (∃ front, run = front ++ rest ∧ ScalarForm declaration.toHeading front) ∧
        rest.atLineEnd = true := by
  refine ⟨reader_form, ?_⟩
  rintro ⟨⟨front, rfl, hfront⟩, hend⟩
  obtain ⟨heading⟩ := declaration
  cases hfront with
  | @mk keyword isExtended name title kept marked gap hkeyword htitle hmarkers hgap =>
    obtain ⟨afterKeyword, hextend, hname⟩ :=
      Run.title_append htitle hkeyword (by simp) (marked ++ (gap ++ rest))
    have hassoc : title ++ (marked ++ gap) ++ rest = title ++ (marked ++ (gap ++ rest)) := by simp
    have hword : (title ++ (marked ++ (gap ++ rest))).acceptExtend.2.expect (.keyword .scalar)
        = .ok afterKeyword := by
      rw [hextend]
      exact Run.expect_of_kind hkeyword
    have hitemEnd := Run.atItemEnd_of_atLineEnd hend
    have haccept := Run.acceptMarkers_form_append skipsTrivia_isInlineTrivia hmarkers
      (Run.afterMarkers_of_atItemEnd hitemEnd hgap)
    rw [hassoc]
    refine bind_eq_ok.mpr ⟨_, hword, bind_eq_ok.mpr ⟨_, hname, ?_⟩⟩
    simp only [haccept, Run.skipInline_of_atItemEnd hitemEnd hgap, hend, if_true]
    show Except.ok (ScalarDeclaration.mk ⟨(Run.acceptExtend _).1, name, kept⟩, rest) = _
    rw [hextend]

end ScalarDeclaration

/-! ## All three readers -/

/-- The readers of declarations without a block take exactly what has their form, a list as far as
it goes and a scalar up to the end of its line; everywhere else they find no match, and never say
that the text ends inside. -/
theorem plain_declarations_read_iff (run : Run) :
    (∀ (declaration : UnionDeclaration) (rest : Run),
      UnionDeclaration.reader.read run = .ok (declaration, rest) ↔
        ∃ heading inner, run = heading ++ inner ∧
          HeadingForm .union .equals declaration.toHeading heading ∧
          ListsLongest MarkedForm declaration.members rest inner) ∧
    (∀ (declaration : DirectiveDeclaration) (rest : Run),
      DirectiveDeclaration.reader.read run = .ok (declaration, rest) ↔
        ∃ opening inner, run = opening ++ inner ∧
          DirectiveOpening declaration.marker declaration.isRepeatable opening ∧
          ListsLongest NameForm declaration.locations rest inner) ∧
    (∀ (declaration : ScalarDeclaration) (rest : Run),
      ScalarDeclaration.reader.read run = .ok (declaration, rest) ↔
        (∃ front, run = front ++ rest ∧ ScalarForm declaration.toHeading front) ∧
          rest.atLineEnd = true) ∧
    UnionDeclaration.reader.read run ≠ .error .exhausted ∧
    DirectiveDeclaration.reader.read run ≠ .error .exhausted ∧
    ScalarDeclaration.reader.read run ≠ .error .exhausted :=
  ⟨fun _ _ => UnionDeclaration.reader_read_iff, fun _ _ => DirectiveDeclaration.reader_read_iff,
    fun _ _ => ScalarDeclaration.reader_read_iff, UnionDeclaration.isPlain_reader.notExhausted run,
    DirectiveDeclaration.isPlain_reader.notExhausted run,
    ScalarDeclaration.isPlain_reader.notExhausted run⟩

end SdlSchema
