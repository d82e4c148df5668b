/-
# Forms of headings

All declarations that can extend another begin alike: `extend`, if it is there, a keyword and a
name.  Enums and unions go on alike as well, with markers up to a mark: the brace that opens the
block of an enum, the equals sign in front of the members of a union.

* `Run.title_form`, `Run.title_append` : the keyword and the name;
* `Heading.read_iff` : a heading up to a mark is read exactly where it has its form.
-/
import SdlSchema.Declaration.Braced
import SdlSchema.Proofs.Forms.Pieces

namespace SdlSchema

variable {run rest : Run}

/-! ## Keyword and name -/

/-- `extend`, if the declaration extends another, then the keyword and the name. -/
inductive TitleForm (keyword : Token) : Bool → String → Run → Prop
  | mk {isExtended : Bool} {front gap : Run} {name : Token}
      (hextend : ModifierForm .extend isExtended front)
      (hgap : Gap Token.isTrivia gap) (hname : name.isName = true) :
      TitleForm keyword isExtended name.word (front ++ keyword :: (gap ++ [name]))

namespace Run

variable {keyword : Token} {name : String}

/-- The keyword and the name that are read have the form of a title. -/
theorem title_form {afterKeyword : Run} (hkeyword : run.acceptExtend.2 = keyword :: afterKeyword)
    (hname : afterKeyword.skipTrivia.expectName = .ok (name, rest)) :
    ∃ title, run = title ++ rest ∧ TitleForm keyword run.acceptExtend.1 name title := by
  obtain ⟨front, hrun, hfront⟩ := acceptExtend_form run
  obtain ⟨gap, token, rfl, hgap, htoken, rfl⟩ := expectName_skipTrivia_form hname
  refine ⟨front ++ keyword :: (gap ++ [token]), ?_, .mk hfront hgap htoken⟩
  rw [hkeyword] at hrun
  simpa using hrun

/-- `extend` is no keyword in front of a name here, so `extend` is read where it is there. -/
theorem title_append {isExtended : Bool} {title : Run} {word : Keyword}
    (h : TitleForm keyword isExtended name title) (hkeyword : keyword.kind = .keyword word)
    (hne : word ≠ .extend) (rest : Run) :
    ∃ afterKeyword : Run, (title ++ rest).acceptExtend = (isExtended, keyword :: afterKeyword) ∧
      afterKeyword.skipTrivia.expectName = .ok (name, rest) := by
  cases h with
  | @mk front gap token hextend hgap hname =>
    refine ⟨gap ++ token :: rest, ?_, ?_⟩
    · rw [List.append_assoc, List.cons_append, List.append_assoc, List.singleton_append]
      refine acceptExtend_append hextend (Token.isTrivia_of_keyword hkeyword) ?_
      rw [hkeyword]
      exact fun h => hne (Kind.keyword.inj h)
    · rw [hgap.skipTrivia (Token.of_isName hname).1, expectName_of_isName hname]

end Run

/-! ## Headings up to a mark -/

/-- The keyword and the name, then markers on whatever line, up to a mark. -/
inductive HeadingForm (word : Keyword) (mark : Punctuation) : Heading → Run → Prop
  | mk {keyword last : Token} {isExtended : Bool} {name : String} {title kept marked gap : Run}
      (hkeyword : keyword.kind = .keyword word) (htitle : TitleForm keyword isExtended name title)
      (hmarkers : MarkersForm Token.isTrivia kept marked) (hgap : Gap Token.isTrivia gap)
      (hlast : last.isMark mark = true) :
      HeadingForm word mark ⟨isExtended, name, kept⟩ (title ++ (marked ++ (gap ++ [last])))

namespace Heading

variable {word : Keyword} {mark : Punctuation} {heading : Heading}

/-- Reads a heading up to a mark. -/
def read (word : Keyword) (mark : Punctuation) (run : Run) : Except Miss (Heading × Run) := do
  let (isExtended, rest) := run.acceptExtend
  let rest ← rest.expect (.keyword word)
  let (name, rest) ← rest.skipTrivia.expectName
  let (markers, rest) := rest.acceptMarkers Token.isTrivia
  let rest ← rest.skipTrivia.expect (.punctuation mark)
  pure (⟨isExtended, name, markers⟩, rest)

theorem read_ne_exhausted (word : Keyword) (mark : Punctuation) (run : Run) :
    read word mark run ≠ .error .exhausted := by
  intro h
  rcases bind_eq_error.mp h with h | ⟨afterKeyword, -, h⟩
  · exact Run.expect_ne_exhausted _ _ h
  rcases bind_eq_error.mp h with h | ⟨⟨name, afterName⟩, -, h⟩
  · exact Run.expectName_ne_exhausted _ h
  rcases bind_eq_error.mp h with h | ⟨afterMark, -, h⟩
  · exact Run.expect_ne_exhausted _ _ h
  · cases h

/-- What is read up to a mark has the form of a heading. -/
theorem read_form (h : read word mark run = .ok (heading, rest)) :
    ∃ front, run = front ++ rest ∧ HeadingForm word mark heading front := by
  obtain ⟨afterKeyword, hkeyword, h⟩ := bind_eq_ok.mp h
  obtain ⟨⟨name, afterName⟩, hname, h⟩ := bind_eq_ok.mp h
  obtain ⟨afterMark, hmark, h⟩ := bind_eq_ok.mp h
  cases h
  obtain ⟨keyword, hfirst, hkind⟩ := Run.expect_eq_ok hkeyword
  obtain ⟨title, hrun, htitle⟩ := Run.title_form hfirst hname
  obtain ⟨marked, hmarked, hmarkers⟩ := Run.acceptMarkers_form skipsTrivia_isTrivia afterName
  obtain ⟨gap, last, hlast, hgap, hlastKind⟩ := Run.expect_skipTrivia_form hmark
  have hleft : (afterName.acceptMarkers Token.isTrivia).2 = gap ++ last :: rest := hlast
  refine ⟨title ++ (marked ++ (gap ++ [last])), ?_,
    .mk hkind htitle hmarkers hgap (by simp [Token.isMark, hlastKind])⟩
  rw [hrun, hmarked, hleft]
  simp

/-- A heading up to a mark is read exactly where it has its form. -/
theorem read_iff (hne : word ≠ .extend) : read word mark run = .ok (heading, rest) ↔
    ∃ front, run = front ++ rest ∧ HeadingForm word mark heading front := by
  refine ⟨read_form, ?_⟩
  rintro ⟨front, rfl, hfront⟩
  cases hfront with
  | @mk keyword last isExtended name title kept marked gap hkeyword htitle hmarkers hgap hlast =>
    obtain ⟨afterKeyword, hextend, hname⟩ :=
      Run.title_append htitle hkeyword hne (marked ++ (gap ++ last :: rest))
    obtain ⟨hkept, hleft⟩ := Run.acceptMarkers_mark hmarkers hgap hlast rest rfl
    have hassoc : title ++ (marked ++ (gap ++ [last])) ++ rest
        = title ++ (marked ++ (gap ++ last :: rest)) := by simp
    have hword : (title ++ (marked ++ (gap ++ last :: rest))).acceptExtend.2.expect (.keyword word)
        = .ok afterKeyword := by
      rw [hextend]
      exact Run.expect_of_kind hkeyword
    have hmark : Run.expect (.punctuation mark) (Run.skipTrivia
        ((marked ++ (gap ++ last :: rest)).acceptMarkers Token.isTrivia).2) = .ok rest := by
      rw [hleft]
      exact Run.expect_of_isMark hlast
    rw [hassoc]
    refine bind_eq_ok.mpr ⟨_, hword, bind_eq_ok.mpr ⟨_, hname, bind_eq_ok.mpr ⟨rest, hmark, ?_⟩⟩⟩
    show Except.ok (Heading.mk (Run.acceptExtend _).1 name (Run.acceptMarkers Token.isTrivia _).1,
      rest) = _
    rw [hextend, hkept]

end Heading

end SdlSchema
