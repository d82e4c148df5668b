/-
# Where declarations begin and end

From the forms of declarations it can be read off with which word they begin and with which token
they end: `extend` or the keyword of their kind comes first, and a name, a marker or a closing
brace comes last.  A description is never the last token of a declaration.

* `DeclarationKind.begins_of_read` : the word with which a declaration begins;
* `DeclarationKind.concludes_of_read` : the token with which it ends.
-/
import SdlSchema.Proofs.Document.Constructs
import SdlSchema.Proofs.Forms.Braced
import SdlSchema.Proofs.Forms.Plain

namespace SdlSchema

variable {run rest : Run}

/-! ## The last token -/

/-- The run ends with a token that is neither trivia nor a description. -/
def Run.Concludes (run : Run) : Prop :=
  ∃ front last, run = front ++ [last] ∧ last.isTrivia = false ∧ last.isDescription = false

namespace Run.Concludes

/-- A single token that is neither trivia nor a description concludes. -/
theorem singleton {token : Token} (htrivia : token.isTrivia = false)
    (hdescription : token.isDescription = false) : Run.Concludes [token] :=
  ⟨[], token, rfl, htrivia, hdescription⟩

/-- What stands in front of a run does not change how it ends. -/
theorem append_left (front : Run) (h : run.Concludes) : Run.Concludes (front ++ run) := by
  obtain ⟨front', last, rfl, hlast⟩ := h
  exact ⟨front ++ front', last, (List.append_assoc _ _ _).symm, hlast⟩

theorem of_isName {token : Token} (h : token.isName = true) : Run.Concludes [token] :=
  singleton (Token.of_isName h).1 (Token.of_isName h).2.2.1

theorem of_isMark {token : Token} {mark : Punctuation} (h : token.isMark mark = true) :
    Run.Concludes [token] := by
  have hkind : token.kind = .punctuation mark := by simpa [Token.isMark] using h
  exact singleton (Token.isTrivia_of_isMark h)
    (by simp [Token.isDescription, hkind, Kind.isDescription])

theorem of_isMarker {token : Token} (h : token.isMarker = true) : Run.Concludes [token] := by
  have hkind : token.kind = .marker := by simpa [Token.isMarker] using h
  exact singleton (Token.isTrivia_of_isMarker h)
    (by simp [Token.isDescription, hkind, Kind.isDescription])

end Run.Concludes

/-- A keyword and a name end with the name. -/
theorem TitleForm.concludes {keyword : Token} {isExtended : Bool} {name : String} {title : Run}
    (h : TitleForm keyword isExtended name title) : title.Concludes := by
  cases h with
  | @mk front gap name _ _ hname =>
    have hassoc : front ++ keyword :: (gap ++ [name]) = (front ++ keyword :: gap) ++ [name] := by
      simp
    exact hassoc ▸ (Run.Concludes.of_isName hname).append_left _

/-- Behind markers the run ends with the last of them, or as it ended in front of them. -/
theorem MarkerRun.concludes {skip : Token → Bool} {marked : Run} (h : MarkerRun skip marked) :
    marked = [] ∨ marked.Concludes := by
  induction h with
  | nil => exact .inl rfl
  | @cons gap more marker _ hmarker _ ih =>
    refine .inr (Run.Concludes.append_left gap ?_)
    rcases ih with rfl | hmore
    · exact .of_isMarker hmarker
    · exact hmore.append_left [marker]

/-- With markers behind it or none, a run still ends with a token. -/
theorem MarkersForm.concludes {skip : Token → Bool} {front kept marked : Run}
    (h : MarkersForm skip kept marked) (hfront : front.Concludes) :
    (front ++ marked).Concludes := by
  rcases h.markerRun.concludes with rfl | hmarked
  · rwa [List.append_nil]
  · exact hmarked.append_left front

theorem NameForm.concludes {element : Element} {matched : Run} (h : NameForm element matched) :
    matched.Concludes := by
  cases h with
  | mk hname => exact .of_isName hname

theorem MarkedForm.concludes {element : Element} {matched : Run} (h : MarkedForm element matched) :
    matched.Concludes := by
  cases h with
  | mk hname hmarkers => exact hmarkers.concludes (.of_isName hname)

/-- A list ends with its last item. -/
theorem ListForm.concludes {lead : Punctuation} {link : Run → Prop}
    {item : Element → Run → Prop} {list : NameList}
    (hitem : ∀ {element matched}, item element matched → matched.Concludes)
    (h : ListForm lead link item list) : list.run.Concludes := by
  have htail : ∀ {elements more}, TailForm link item elements more →
      more = [] ∨ more.Concludes := by
    intro elements more hmore
    induction hmore with
    | nil => exact .inl rfl
    | @cons joint matched more _ _ _ hmatched _ ih =>
      refine .inr (Run.Concludes.append_left joint ?_)
      rcases ih with rfl | hmore
      · rw [List.append_nil]
        exact hitem hmatched
      · exact hmore.append_left matched
  cases h with
  | mk _ hfirst hmore =>
    refine Run.Concludes.append_left _ ?_
    rcases htail hmore with rfl | hmore
    · rw [List.append_nil]
      exact hitem hfirst
    · exact hmore.append_left _

/-- A scalar ends with its name or its last marker, and the trivia on the same line. -/
theorem ScalarForm.concludes {heading : Heading} {front : Run} (h : ScalarForm heading front) :
    ∃ inner gap, front = inner ++ gap ∧ inner.Concludes ∧ Gap Token.isTrivia gap := by
  cases h with
  | @mk _ _ _ title _ marked gap _ htitle hmarkers hgap =>
    exact ⟨title ++ marked, gap, (List.append_assoc _ _ _).symm,
      hmarkers.concludes htitle.concludes, hgap.of_inline⟩

/-- A block ends with its closing brace. -/
theorem BlockForm.concludes {body block : Run} (h : BlockForm body block) : block.Concludes := by
  cases h with
  | mk _ hcloser => exact (Run.Concludes.of_isMark hcloser).append_left body

/-! ## The first word -/

/-- A declaration of the kind may begin with the token: `extend`, or a keyword of the kind. -/
def DeclarationKind.BeginsWith (kind : DeclarationKind) (token : Token) : Prop :=
  ∃ word, token.kind = .keyword word ∧ (word = .extend ∨ Document.declaredBy word = some kind)

/-- A title begins with `extend` or with its keyword. -/
theorem TitleForm.begins {kind : DeclarationKind} {keyword : Token} {isExtended : Bool}
    {name : String} {title : Run} (h : TitleForm keyword isExtended name title)
    (hkeyword : kind.BeginsWith keyword) :
    ∃ token tail, title = token :: tail ∧ kind.BeginsWith token := by
  cases h with
  | mk hextend _ _ =>
    cases hextend with
    | absent => exact ⟨keyword, _, rfl, hkeyword⟩
    | present hword _ => exact ⟨_, _, rfl, .extend, hword, .inl rfl⟩

/-- A heading up to a mark begins with `extend` or with the keyword of its kind. -/
theorem HeadingForm.begins {kind : DeclarationKind} {word : Keyword} {mark : Punctuation}
    {heading : Heading} {front : Run} (h : HeadingForm word mark heading front)
    (hword : Document.declaredBy word = some kind) :
    ∃ token tail, front = token :: tail ∧ kind.BeginsWith token := by
  cases h with
  | mk hkeyword htitle _ _ _ =>
    obtain ⟨token, tail, rfl, htoken⟩ := htitle.begins ⟨word, hkeyword, .inr hword⟩
    exact ⟨token, _, rfl, htoken⟩

/-- A type with fields begins with `extend` or with one of the three keywords. -/
theorem FieldedOpening.begins {heading : Heading} {kind : FieldedKind}
    {interfaces : Option NameList} {opening : Run}
    (h : FieldedOpening heading kind interfaces opening) :
    ∃ token tail, opening = token :: tail ∧ DeclarationKind.fielded.BeginsWith token := by
  cases h with
  | @mk keyword _ _ _ _ _ _ _ _ _ _ _ hkind htitle _ _ _ _ _ =>
    have hkeyword : DeclarationKind.fielded.BeginsWith keyword := by
      cases hword : keyword.kind <;> simp [hword, FieldedKind.ofKind?] at hkind
      rename_i word
      refine ⟨word, hword, .inr ?_⟩
      cases word <;> simp at hkind <;> rfl
    obtain ⟨token, tail, rfl, htoken⟩ := htitle.begins hkeyword
    exact ⟨token, _, rfl, htoken⟩

theorem ScalarForm.begins {heading : Heading} {front : Run} (h : ScalarForm heading front) :
    ∃ token tail, front = token :: tail ∧ DeclarationKind.scalar.BeginsWith token := by
  cases h with
  | @mk keyword _ _ _ _ _ _ hkeyword htitle _ _ =>
    have hword : DeclarationKind.scalar.BeginsWith keyword := ⟨_, hkeyword, .inr rfl⟩
    obtain ⟨token, tail, rfl, htoken⟩ := htitle.begins hword
    exact ⟨token, _, rfl, htoken⟩

/-- A directive definition begins with its keyword. -/
theorem DirectiveOpening.begins {marker : String} {isRepeatable : Bool} {opening : Run}
    (h : DirectiveOpening marker isRepeatable opening) :
    ∃ token tail, opening = token :: tail ∧ DeclarationKind.directive.BeginsWith token := by
  cases h with
  | mk hkeyword _ _ _ _ _ => exact ⟨_, _, rfl, _, hkeyword, .inr rfl⟩

/-! ## Declarations of each kind -/

namespace DeclarationKind

/-- A declaration begins with `extend` or with a keyword of its kind. -/
theorem begins_of_read (kind : DeclarationKind) {item : kind.Declaration}
    (h : kind.reader.read run = .ok (item, rest)) :
    ∃ token tail, run = token :: tail ∧ kind.BeginsWith token := by
  cases kind with
  | fielded =>
    obtain ⟨opening, block, rfl, hopening, -⟩ := FieldedDeclaration.reader_read_iff.mp h
    obtain ⟨token, tail, rfl, htoken⟩ := hopening.begins
    exact ⟨token, _, rfl, htoken⟩
  | enum =>
    obtain ⟨opening, block, rfl, hopening, -⟩ := EnumDeclaration.reader_read_iff.mp h
    have hword : Document.declaredBy .enum = some .enum := rfl
    obtain ⟨token, tail, rfl, htoken⟩ := hopening.begins hword
    exact ⟨token, _, rfl, htoken⟩
  | union =>
    obtain ⟨heading, inner, rfl, hheading, -⟩ := UnionDeclaration.reader_read_iff.mp h
    have hword : Document.declaredBy .union = some .union := rfl
    obtain ⟨token, tail, rfl, htoken⟩ := hheading.begins hword
    exact ⟨token, _, rfl, htoken⟩
  | scalar =>
    obtain ⟨⟨front, rfl, hfront⟩, -⟩ := ScalarDeclaration.reader_read_iff.mp h
    obtain ⟨token, tail, rfl, htoken⟩ := hfront.begins
    exact ⟨token, _, rfl, htoken⟩
  | directive =>
    obtain ⟨opening, inner, rfl, hopening, -⟩ := DirectiveDeclaration.reader_read_iff.mp h
    obtain ⟨token, tail, rfl, htoken⟩ := hopening.begins
    exact ⟨token, _, rfl, htoken⟩

/-- What is read of a declaration ends with a token that describes nothing, and perhaps trivia
behind it. -/
theorem concludes_of_read (kind : DeclarationKind) {item : kind.Declaration}
    (h : kind.reader.read run = .ok (item, rest)) :
    ∃ front gap, run = front ++ (gap ++ rest) ∧ front.Concludes ∧ Gap Token.isTrivia gap := by
  have hlist : ∀ {form : Element → Run → Prop} {list : NameList} {inner : Run},
      (∀ {element matched}, form element matched → Run.Concludes matched) →
      ListsLongest form list rest inner →
      ∃ front, inner = front ++ ([] ++ rest) ∧ Run.Concludes front := by
    rintro form list inner hform ⟨gap, listed, rfl, -, hlongest, -⟩
    refine ⟨gap ++ list.run, ?_, (hlongest.isForm.concludes hform).append_left gap⟩
    rw [hlongest.split, List.append_assoc]
    rfl
  cases kind with
  | fielded =>
    obtain ⟨opening, block, rfl, -, hblock, -⟩ := FieldedDeclaration.reader_read_iff.mp h
    exact ⟨opening ++ block, [], by simp, hblock.concludes.append_left opening, .nil⟩
  | enum =>
    obtain ⟨opening, block, rfl, -, hblock⟩ := EnumDeclaration.reader_read_iff.mp h
    exact ⟨opening ++ block, [], by simp, hblock.concludes.append_left opening, .nil⟩
  | union =>
    obtain ⟨heading, inner, rfl, -, hmembers⟩ := UnionDeclaration.reader_read_iff.mp h
    obtain ⟨front, rfl, hfront⟩ := hlist MarkedForm.concludes hmembers
    exact ⟨heading ++ front, [], by simp, hfront.append_left heading, .nil⟩
  | directive =>
    obtain ⟨opening, inner, rfl, -, hlocations⟩ := DirectiveDeclaration.reader_read_iff.mp h
    obtain ⟨front, rfl, hfront⟩ := hlist NameForm.concludes hlocations
    exact ⟨opening ++ front, [], by simp, hfront.append_left opening, .nil⟩
  | scalar =>
    obtain ⟨⟨front, rfl, hfront⟩, -⟩ := ScalarDeclaration.reader_read_iff.mp h
    obtain ⟨inner, gap, rfl, hinner, hgap⟩ := hfront.concludes
    exact ⟨inner, gap, by simp, hinner, hgap⟩

end DeclarationKind

end SdlSchema
