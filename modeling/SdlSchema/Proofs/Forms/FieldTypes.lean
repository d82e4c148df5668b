/-
# Types in texts

Wherever a type is read in a text, it is the slice of the text from its first token to its last, and
reading goes on right behind it.  A text that is a type, in whatever layout on one line, comes back
whole as the type of a field.

* `fieldLines_of_typeForm` : a body that is one field with nothing but a name and a type;
* `tokenize_field` : the tokens of a field that is written `name: Type`;
* `types_are_descent` : types by counting brackets against types by recursive descent.
-/
import SdlSchema.Proofs.Lexing.Kinds
import SdlSchema.Proofs.Lexing.Relexing
import SdlSchema.Proofs.Lexing.Spelling
import SdlSchema.Proofs.Cursor.Pieces
import SdlSchema.Proofs.Forms.Fields

namespace SdlSchema

open Lexicon

/-! ## Fields with a name and a type -/

/-- A body that is a name, a colon and a type has one field, of that type. -/
theorem fieldLines_of_typeForm {name colon : Token} {gap gap' type gap'' : Run}
    (hname : name.isName = true) (hgap : Gap Token.isInlineTrivia gap)
    (hcolon : colon.isMark .colon = true) (hgap' : Gap Token.isInlineTrivia gap')
    (htype : TypeForm type) (hgap'' : Gap Token.isInlineTrivia gap'') :
    fieldLines (name :: (gap ++ colon :: (gap' ++ (type ++ gap''))))
      = [⟨none, ⟨⟨⟨type, []⟩, name.word⟩, none⟩⟩] := by
  have hfield : FieldForm [] ⟨⟨⟨type, []⟩, name.word⟩, none⟩
      (name :: (gap ++ ([] ++ colon :: (gap' ++ (type ++ (gap'' ++ ([] ++ ([] ++ [])))))))) :=
    .mk hname hgap .absent (.mk hcolon hgap' htype hgap'' .absent .absent .nil rfl)
  simp only [List.append_nil, List.nil_append] at hfield
  generalize name :: (gap ++ colon :: (gap' ++ (type ++ gap''))) = body at hfield
  obtain ⟨first, others, rfl, hfirst⟩ := hfield.begins
  obtain ⟨htrivia, -, -, -, -, hmark⟩ := Token.of_isName hfirst
  have hseparator : first.isSeparator = false := by
    rw [Token.isSeparator, htrivia, hmark, Bool.or_self]
  have hstart : ∀ token ∈ List.head? (first :: others), token.isTrivia = false := by
    rintro token hmem
    obtain rfl := Option.some.inj hmem
    exact htrivia
  have hread := (Reader.described_read_iff hstart FieldLine.reader_read_iff FieldForm.begins).mpr
    ⟨_, (List.append_nil _).symm, .mk .absent hfield⟩
  have hnone : fieldLines [] = [] := by
    rw [fieldLines, Abridgement.items_eq]
    rfl
  rw [fieldLines, Abridgement.items_eq, List.dropWhile_cons_of_neg (by simp [hseparator])]
  dsimp only
  rw [hread]
  exact congrArg (_ :: ·) hnone

/-! ## Fields that are written down -/

/-- A text that is a type begins with no blank. -/
theorem isSpace_of_typeForm {text : List Char} (h : TypeForm (tokenize text)) :
    ∀ c, text.head? = some c → isSpace c = false := by
  intro c hc
  rw [Bool.eq_false_iff]
  intro hspace
  cases text with
  | nil => cases hc
  | cons d text =>
    obtain rfl := Option.some.inj hc
    obtain ⟨token, others, htokens, hbegins⟩ := h.begins
    rw [tokenize_cons] at htokens
    obtain ⟨rfl, -⟩ := List.cons.inj htokens
    simp only [Token.isName, Token.isMark] at hbegins
    rcases kind_firstToken_of_isBlank (isBlank_of_isSpace hspace) text with hkind | hkind | hkind
    all_goals
      rw [hkind] at hbegins
      rcases hbegins with hbegins | hbegins <;> cases hbegins

/-- A field that is written with a colon and a blank in front of its type is cut into its name, the
two, and the tokens of the type. -/
theorem tokenize_field {name text : List Char} (hname : spellsName name = true)
    (htype : TypeForm (tokenize text)) :
    tokenize (name ++ (':' :: ' ' :: text))
      = Token.ofName name :: Token.ofMark .colon :: Token.space :: tokenize text := by
  have hblank : tokenize (' ' :: text) = Token.space :: tokenize text :=
    Token.Spelled.space.tokenize_append fun c hc =>
      ⟨fun hshape => (nomatch hshape), fun _ => isSpace_of_typeForm htype c hc⟩
  have hcolon : tokenize (':' :: ' ' :: text)
      = Token.ofMark .colon :: tokenize (' ' :: text) :=
    (Token.Spelled.mark .colon).tokenize_append fun c _ =>
      ⟨fun hshape => (nomatch hshape), fun hshape => (nomatch hshape)⟩
  have hword : tokenize (name ++ (':' :: ' ' :: text))
      = Token.ofName name :: tokenize (':' :: ' ' :: text) := by
    refine (Token.Spelled.name hname).tokenize_append fun c hc => ?_
    obtain rfl := Option.some.inj hc
    refine ⟨fun _ => by decide, fun hshape => ?_⟩
    rw [Token.shape_ofName] at hshape
    cases hshape
  rw [hword, hcolon, hblank]

/-! ## Types of a text -/

/-- At every place of a text a type is read as by recursive descent: where the tokens begin with a
word of the grammar, the longest such word, verbatim from its first token to its last, with what
comes right behind it left; and elsewhere nothing.  So does the walk that counts brackets by the
positions of tokens, and slices the text from the first token it takes to the last.  And any text
that is a type comes back whole as the type of the field `name: Type`. -/
theorem types_are_descent (text : List Char) :
    (∀ (position : Nat) (run : Run), run = (tokenize text).drop position →
      (run.typeReference?.isSome = true ↔ ∃ type rest, run = type ++ rest ∧ TypeForm type) ∧
      run.typeReference? = run.afterType?.map (fun rest => (run.upTo rest, rest)) ∧
      ∀ type rest, run.typeReference? = some (type, rest) →
        TypeForm type ∧
        (∀ other left, TypeForm other → run = other ++ left → other.length ≤ type.length) ∧
        (∃ first others, type = first :: others ∧
          (first.isName = true ∨ first.isMark .leftBracket = true)) ∧
        (∃ others last, type = others ++ [last] ∧
          (last.isName = true ∨ last.isMark .rightBracket = true ∨ last.isMark .bang = true)) ∧
        rest = (tokenize text).drop (position + type.length) ∧
        Text.slice (Text.byteLength (Run.chars ((tokenize text).take position)))
          (Text.byteLength (Run.chars ((tokenize text).take position))
            + Text.byteLength type.chars) text = type.chars) ∧
    (Text.byteLength text < 2 ^ 32 → ∀ position ≤ (tokenize text).length,
      Walk.Returns Walk.typeReference (Source.of text) position fun found stop =>
        match Run.afterType? ((tokenize text).drop position) with
        | some rest => found = some (Run.text (Run.upTo ((tokenize text).drop position) rest)) ∧
            (tokenize text).drop stop = rest
        | none => found = none) ∧
    (TypeForm (tokenize text) → ∀ name : List Char, spellsName name = true →
      ∃ type : Run, type.chars = text ∧ fieldLines (tokenize (name ++ (':' :: ' ' :: text)))
        = [⟨none, ⟨⟨⟨type, []⟩, String.ofList name⟩, none⟩⟩]) := by
  refine ⟨?_, ?_, ?_⟩
  · -- the grammar
    rintro position run rfl
    refine ⟨Run.isSome_typeReference?_iff _, Run.typeReference?_eq _, fun type rest hread => ?_⟩
    obtain ⟨hsplit, hform, hlongest⟩ := Run.typeReference?_form hread
    have hwhole : tokenize text = (tokenize text).take position ++ (type ++ rest) := by
      rw [← hsplit, List.take_append_drop]
    refine ⟨hform, hlongest, hform.begins, hform.ends, ?_, slice_tokenize hwhole⟩
    rw [← List.drop_drop, hsplit, List.drop_left]
  · -- the walk by positions
    intro hshort position hposition
    have hat : At text position ((tokenize text).drop position) :=
      ⟨(tokenize text).take position, (List.take_append_drop _ _).symm,
        (List.length_take_of_le hposition).symm⟩
    obtain ⟨found, stop, hwalk, hfound⟩ := Walk.returns_typeReference hshort hat
    refine ⟨found, stop, hwalk, ?_⟩
    rw [Run.typeReference?_eq] at hfound
    revert hfound
    cases Run.afterType? ((tokenize text).drop position) with
    | none => exact id
    | some rest =>
      rintro ⟨hslice, front, hsplit, rfl⟩
      exact ⟨hslice, by rw [hsplit, List.drop_left]⟩
  · -- the type of a field
    intro htype name hname
    refine ⟨tokenize text, chars_tokenize text, ?_⟩
    have hspace : Gap Token.isInlineTrivia [Token.space] := by
      rintro token hmem
      rw [List.mem_singleton.mp hmem]
      rfl
    have hword : (Token.ofName name).isName = true := Kind.isName_ofName name
    have hcolon : (Token.ofMark .colon).isMark .colon = true := rfl
    have hlines := fieldLines_of_typeForm hword .nil hcolon hspace htype .nil
    rw [List.append_nil] at hlines
    rw [tokenize_field hname htype]
    exact hlines

/-- Blanks between the tokens stay, and a second non-null mark is left. -/
example : (Run.typeReference? (tokenize "[ [A !] ]!!".toList)).map
    (fun found => (found.1.text, found.2.text)) = some ("[ [A !] ]!", "!") := by decide +kernel

end SdlSchema
