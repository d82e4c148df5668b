/-
# Layout and literals do not count

How much blank stands between tokens, what comments say, which values are defaults and what
descriptions say has no influence on what a document declares.  The skeleton of a document is what
is left when all this is taken out, and documents with one skeleton have schemas that differ in
their descriptions and in the blanks inside types alone.

* `Run.skeleton` : the tokens without blanks, and without what comments, numbers and strings say;
* `Schema.erased` : a schema without descriptions and without blanks in types;
* `Extractor.extract_skeleton` : the skeleton determines the erased schema.
-/
import SdlSchema.Proofs.Abridging.Schemas

namespace SdlSchema

/-! ## Skeletons -/

/-- Whether only the kind of a token is part of the skeleton: so it is of comments, numbers and
strings. -/
def Kind.isFilling : Kind → Bool
  | .comment | .integer | .float | .string | .blockString => true
  | _ => false

/-- The kind of a token, with its text unless only the kind counts. -/
def Token.outline (token : Token) : Kind × Option (List Char) :=
  (token.kind, if token.kind.isFilling then none else some token.text)

/-- The outlines of all tokens but blanks inside lines. -/
def Run.skeleton (run : Run) : List (Kind × Option (List Char)) :=
  (run.filter fun token => token.kind != .whitespace).map Token.outline

/-- A token with a given outline.  Where the text is not known it is one that is not blank. -/
def Token.ofOutline (outline : Kind × Option (List Char)) : Token :=
  ⟨outline.1, outline.2.getD ['"']⟩

/-! ## Erased schemas -/

/-- Shows no descriptions, and types without the blanks in them. -/
def View.erasing : View where
  type text := String.ofList (text.toList.filter fun c => !Lexicon.isSpace c)
  description _ := none

/-- The schema without descriptions and without the blanks in types. -/
def Schema.erased (schema : Schema) : Schema := View.erasing.schema schema

/-! ## The abridgement -/

namespace Abridgement

theorem ofOutline_of_not_filling {token : Token} (h : token.kind.isFilling = false) :
    Token.ofOutline token.outline = token := by
  rw [Token.outline, h]
  rfl

theorem isFilling_of_isName {token : Token} (h : token.isName = true ∨ token.isMarker = true) :
    token.kind.isFilling = false := by
  rcases h with h | h
  · rw [Token.isName] at h
    cases hkind : token.kind <;> simp [hkind, Kind.isName] at h <;> rfl
  · rw [Token.isMarker, beq_iff_eq] at h
    rw [h]
    rfl

theorem content_ofOutline {token : Token} (h : token.isDescription = true) :
    (Token.ofOutline token.outline).content = "" := by
  have houtline : Token.ofOutline token.outline = ⟨token.kind, ['"']⟩ := by
    rw [Token.isDescription] at h
    cases hkind : token.kind <;> simp [hkind, Kind.isDescription] at h <;>
      simp [Token.outline, Token.ofOutline, hkind, Kind.isFilling]
  rw [houtline, Token.content, Token.quotes]
  split <;> rfl

/-- Leaves the skeleton of a document. -/
def bare : Abridgement where
  token? token := if token.kind = .whitespace then none else some (Token.ofOutline token.outline)
  content _ := ""
  isInlineTrivia_of_eq_none {token} h := by
    split at h
    · next hkind => rw [Token.isInlineTrivia, hkind]; rfl
    · cases h
  kind_eq h := by
    split at h
    · cases h
    · cases h; rfl
  text_eq h htoken := by
    split at h
    · cases h
    · cases h
      rw [ofOutline_of_not_filling (isFilling_of_isName htoken)]
  content_eq h htoken := by
    split at h
    · cases h
    · cases h
      exact content_ofOutline htoken

theorem part_bare (run : Run) : bare.part run = run.skeleton.map Token.ofOutline := by
  induction run with
  | nil => rfl
  | cons token tail ih =>
    by_cases hkind : token.kind = .whitespace
    · rw [bare.part_cons_none (if_pos hkind), ih, Run.skeleton, Run.skeleton,
        List.filter_cons_of_neg (by simp [hkind])]
    · rw [bare.part_cons_some (if_neg hkind), ih, Run.skeleton, Run.skeleton,
        List.filter_cons_of_pos (by simp [hkind]), List.map_cons, List.map_cons]

/-- No comment, number or string is blank. -/
theorem allBlank_of_isFilling {text : List Char} {token : Token} (htoken : token ∈ tokenize text)
    (h : token.kind.isFilling = true) : Text.allBlank token.text = false := by
  rw [Bool.eq_false_iff]
  intro hblank
  rcases kind_of_allBlank htoken hblank with hkind | hkind | hkind <;> rw [hkind] at h <;> cases h

theorem keepsBlanks_bare (text : List Char) : bare.KeepsBlanks (tokenize text) := by
  intro token htoken kept hkept
  by_cases hkind : token.kind = .whitespace
  · rw [show bare.token? token = none from if_pos hkind] at hkept
    cases hkept
  · rw [show bare.token? token = some (Token.ofOutline token.outline) from if_neg hkind] at hkept
    cases hkept
    cases hfilling : token.kind.isFilling with
    | false => rw [ofOutline_of_not_filling hfilling]
    | true =>
      rw [allBlank_of_isFilling htoken hfilling, Token.outline, hfilling]
      rfl

/-- A body of which nothing is left was blank. -/
theorem allBlank_of_part_bare {text : List Char} {body : Run} (hbody : body <:+: tokenize text)
    (h : Text.allBlank (bare.part body).chars = true) : Text.allBlank body.chars = true := by
  rw [Text.allBlank, Run.chars, List.all_flatMap, List.all_eq_true]
  intro token hmem
  rcases (allBlank_part_iff (keepsBlanks_bare text) hbody).mp h token hmem with hnone | hblank
  · have hkind : token.kind = .whitespace := by
      by_contra hkind
      rw [show bare.token? token = some (Token.ofOutline token.outline) from if_neg hkind] at hnone
      cases hnone
    have hspace := isSpace_of_whitespace (hbody.subset hmem) hkind
    exact List.all_eq_true.mpr fun c hc => isBlank_of_isSpace (hspace c hc)
  · exact hblank

/-! ## Types -/

theorem isFilling_of_inType {token : Token} (h : token.inType = true)
    (hcomment : token.kind ≠ .comment) : token.kind.isFilling = false := by
  cases hkind : token.kind <;>
    simp [Token.inType, Token.isName, Token.isMark, Token.isInlineTrivia, hkind, Kind.isName,
      Kind.isInlineTrivia] at h <;>
    first | rfl | exact absurd hkind hcomment

/-- Of a type only blanks are left out. -/
theorem filter_part_bare {text : List Char} {type : Run} (hstretch : type <:+: tokenize text)
    (htype : type.SpellsType) :
    (bare.part type).chars.filter (fun c => !Lexicon.isSpace c)
      = type.chars.filter fun c => !Lexicon.isSpace c := by
  induction type with
  | nil => rfl
  | cons token tail ih =>
    obtain ⟨⟨htoken, hcomment⟩, htail⟩ := List.forall_mem_cons.mp htype
    have hrest := ih ((List.suffix_cons token tail).isInfix.trans hstretch) htail
    rw [Run.chars_cons, List.filter_append]
    by_cases hkind : token.kind = .whitespace
    · have hspace := isSpace_of_whitespace (hstretch.subset List.mem_cons_self) hkind
      have hblank : token.text.filter (fun c => !Lexicon.isSpace c) = [] :=
        List.filter_eq_nil_iff.mpr (by simpa using hspace)
      rw [bare.part_cons_none (if_pos hkind), hrest, hblank, List.nil_append]
    · have hfilling := isFilling_of_inType htoken hcomment
      rw [bare.part_cons_some (if_neg hkind), ofOutline_of_not_filling hfilling, Run.chars_cons,
        List.filter_append, hrest]

theorem hiddenBy_bare (text : List Char) : bare.HiddenBy View.erasing (tokenize text) where
  commentsEndLines := commentsEndLines_tokenize text
  type_eq {type} hstretch htype := by
    have hchars := filter_part_bare hstretch htype
    simp only [View.erasing, Run.text, String.toList_ofList, hchars]
  description_eq _ := rfl

end Abridgement

/-! ## Schemas -/

/-- The body of a fielded type is not blank. -/
theorem allBlank_of_mem_fieldedDeclarations {document : Run} {found : Described FieldedDeclaration}
    (h : found ∈ fieldedDeclarations document) : Text.allBlank found.item.body.chars = false := by
  obtain ⟨start, rest, -, hread⟩ := Reader.exists_read_of_mem_scan h
  obtain ⟨-, hread⟩ := Reader.described_read_eq_ok.mp hread
  rw [FieldedDeclaration.reader_eq] at hread
  obtain ⟨⟨item, left⟩, hframe, hread⟩ := bind_eq_ok.mp hread
  dsimp only at hread
  split at hread
  · cases hread
  · next hblank =>
    cases hread
    simpa using hblank

namespace Extractor

variable (extractor : Extractor)

/-- The erased schema of a document is that of its skeleton. -/
theorem erased_extract (text : String) :
    (extractor.extract text).map Schema.erased
      = (extractor.extractInTurn ((Run.ofString text).skeleton.map Token.ofOutline)).map
        Schema.erased := by
  have hpart := extractor.view_extractInTurn_part (Abridgement.keepsBlanks_bare text.toList)
    (Abridgement.hiddenBy_bare text.toList)
  have hall : declarationsWithout (fun body => Text.allBlank (Abridgement.bare.part body).chars)
        (Run.ofString text)
      = fun kind => kind.declarations (Run.ofString text) := by
    funext kind
    refine declarationsWithout_eq (fun found hfound => Bool.eq_false_iff.mpr fun hblank => ?_) kind
    have hbody := (isInfix_of_mem_fieldedDeclarations hfound).2
    have hfull := allBlank_of_mem_fieldedDeclarations hfound
    rw [Abridgement.allBlank_of_part_bare hbody hblank] at hfull
    cases hfull
  rw [← Abridgement.part_bare, extract_parallel, extractInTurn_eq, ← hall]
  exact hpart.symm

/-- **The skeleton determines the erased schema.** -/
theorem extract_skeleton {first second : String}
    (h : (Run.ofString first).skeleton = (Run.ofString second).skeleton) :
    (extractor.extract first).map Schema.erased = (extractor.extract second).map Schema.erased := by
  rw [erased_extract, erased_extract, h]

/-- A description with a brace in it, a comment, a default value and blanks, told in two ways. -/
theorem extract_skeleton_described :
    (extract ⟨.empty, {}⟩
      "\"a \x7b\" type A \x7b # x\n a ( b : [ C ! ] = 1 ) : D %0 \x7d").map Schema.erased
    = (extract ⟨.empty, {}⟩ "\"\"type A\x7b#\na(b:[C!]=27):D%0\x7d").map Schema.erased :=
  extract_skeleton ⟨.empty, {}⟩ (by decide +kernel)

end Extractor

end SdlSchema
