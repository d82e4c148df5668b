/-
# What types are made of

A type is made of names and marks, and ends with one.  Between them there may be blanks, but no
comment, because the line would end behind it.

* `Run.SpellsType` : a run of names, marks and blanks;
* `Run.spellsType_of_expectType` : a type that was read is one;
* `spellsType_of_mem_fieldLines` : so are the types of the fields of a body.
-/
import SdlSchema.Proofs.Lexing.Kinds
import SdlSchema.Proofs.Reading.Steps
import SdlSchema.Proofs.Reading.Attempts
import SdlSchema.Body.Field

namespace SdlSchema

/-! ## Tokens of types -/

/-- Whether the token is a name, a mark of a type, or trivia that may stand in a type. -/
def Token.inType (token : Token) : Bool :=
  token.isName || token.isMark .leftBracket || token.isMark .rightBracket || token.isMark .bang
    || token.isInlineTrivia

/-- The run is made of names, marks of types and blanks. -/
def Run.SpellsType (type : Run) : Prop :=
  ∀ token ∈ type, token.inType = true ∧ token.kind ≠ .comment

/-- That `rest` is what is left of `run` after tokens of types, of which the last is no trivia. -/
def Run.PastType (rest run : Run) : Prop :=
  ∃ front : Run, run = front ++ rest ∧ (∀ token ∈ front, token.inType = true) ∧
    ∀ last ∈ front.getLast?, last.isInlineTrivia = false

namespace Run

variable {run rest middle type : Run}

/-- Trivia of the line may stand in a type. -/
theorem inType_of_isInlineTrivia {token : Token} (h : token.isInlineTrivia = true) :
    token.inType = true := by
  rw [Token.inType, h, Bool.or_true]

namespace PastType

theorem refl (run : Run) : PastType run run := ⟨[], rfl, by simp, by simp⟩

/-- Two stretches of a type may be passed over one after the other. -/
theorem trans (h : PastType rest middle) (h' : PastType middle run) : PastType rest run := by
  obtain ⟨front, rfl, hfront, hlast⟩ := h
  obtain ⟨front', rfl, hfront', hlast'⟩ := h'
  refine ⟨front' ++ front, (List.append_assoc _ _ _).symm, fun token hmem => ?_, ?_⟩
  · exact (List.mem_append.mp hmem).elim (hfront' token) (hfront token)
  · intro last hmem
    rw [List.getLast?_append, Option.mem_def, Option.or_eq_some_iff] at hmem
    rcases hmem with hmem | ⟨-, hmem⟩
    · exact hlast last hmem
    · exact hlast' last hmem

/-- Trivia may stand in front of a token of a type. -/
theorem of_append {blanks : Run} {token : Token}
    (hblanks : ∀ blank ∈ blanks, blank.inType = true) (htoken : token.inType = true)
    (hinline : token.isInlineTrivia = false) : PastType rest (blanks ++ token :: rest) := by
  refine ⟨blanks ++ [token], by simp, fun other hmem => ?_, ?_⟩
  · rcases List.mem_append.mp hmem with hmem | hmem
    · exact hblanks other hmem
    · rw [List.mem_singleton.mp hmem, htoken]
  · intro last hmem
    rw [List.getLast?_concat, Option.mem_some_iff] at hmem
    rw [← hmem, hinline]

/-- Behind a mark of a type one is past that mark. -/
theorem of_take? {mark : Punctuation} (h : run.skipInline.take? (.punctuation mark) = some rest)
    (hmark : ∀ token : Token, token.kind = .punctuation mark → token.inType = true) :
    PastType rest run := by
  cases hskip : run.skipInline with
  | nil => rw [hskip] at h; cases h
  | cons token tail =>
    rw [hskip, take?] at h
    split at h
    · next hkind =>
      cases h
      rw [← List.takeWhile_append_dropWhile (p := Token.isInlineTrivia) (l := run),
        ← skipInline, hskip]
      refine of_append (fun blank hmem => ?_) (hmark token hkind)
        (by rw [Token.isInlineTrivia, hkind]; rfl)
      exact inType_of_isInlineTrivia (List.mem_takeWhile_imp hmem)
    · cases h

end PastType

/-! ## Types that were read -/

theorem inType_of_mark {token : Token} {mark : Punctuation} (hkind : token.kind = .punctuation mark)
    (hmark : mark = .leftBracket ∨ mark = .rightBracket ∨ mark = .bang) : token.inType = true := by
  rcases hmark with rfl | rfl | rfl <;> simp [Token.inType, Token.isMark, hkind]

/-- Behind a type one may go past its exclamation mark. -/
theorem pastType_skipNonNull (run : Run) : PastType run.skipNonNull run := by
  unfold skipNonNull
  cases hbang : run.skipInline.take? (.punctuation .bang) with
  | none => exact .refl run
  | some rest => exact .of_take? hbang fun _ hkind => inType_of_mark hkind (by simp)

/-- Closing lists goes past marks of a type alone. -/
theorem pastType_closeLists {depth : Nat} (h : run.closeLists depth = some rest) :
    PastType rest run := by
  induction depth generalizing run with
  | zero => cases h; exact .refl _
  | succ depth ih =>
    rw [closeLists] at h
    split at h
    · next left hleft =>
      exact (ih h).trans ((pastType_skipNonNull left).trans
        (.of_take? hleft fun _ hkind => inType_of_mark hkind (by simp)))
    · cases h

/-- Opening lists passes over tokens of types alone. -/
theorem exists_inType_openLists (run : Run) :
    ∃ front : Run, run = front ++ run.openLists.2 ∧ ∀ token ∈ front, token.inType = true := by
  fun_induction openLists run with
  | case1 => exact ⟨[], rfl, List.forall_mem_nil _⟩
  | case2 token rest hopener depth left heq ih =>
    obtain ⟨front, hfront, hmem⟩ := ih
    rw [heq] at hfront
    have hkind : token.kind = .punctuation .leftBracket := by simpa [Token.isMark] using hopener
    refine ⟨token :: (rest.takeWhile Token.isInlineTrivia ++ front), ?_, ?_⟩
    · rw [List.cons_append, List.append_assoc, ← hfront, skipInline,
        List.takeWhile_append_dropWhile]
    · rw [List.forall_mem_cons, List.forall_mem_append]
      exact ⟨inType_of_mark hkind (by simp),
        fun blank hblank => inType_of_isInlineTrivia (List.mem_takeWhile_imp hblank), hmem⟩
  | case3 token rest hopener => exact ⟨[], rfl, List.forall_mem_nil _⟩

/-- A type that is read is what stands in front of the rest, and is made of tokens of types. -/
theorem pastType_expectType (h : run.expectType = .ok (type, rest)) :
    type = run.upTo rest ∧ PastType rest run := by
  obtain ⟨front, hrun, hfront⟩ := exists_inType_openLists run
  unfold expectType at h
  split at h
  · next hfound =>
    cases h
    unfold typeReference? at hfound
    revert hfound hrun
    generalize run.openLists = opened
    obtain ⟨depth, inner⟩ := opened
    intro hrun hfound
    dsimp only at hrun hfound
    split at hfound
    · next name left hname =>
      obtain ⟨after, hclose, heq⟩ := Option.map_eq_some_iff.mp hfound
      cases heq
      refine ⟨rfl, (pastType_closeLists hclose).trans ((pastType_skipNonNull left).trans ?_)⟩
      cases inner with
      | nil => cases hname
      | cons token tail =>
        rw [name?] at hname
        split at hname
        · next htoken =>
          cases hname
          rw [hrun]
          refine .of_append hfront ?_ (Token.of_isName htoken).2.1
          simp only [Token.inType, htoken, Bool.true_or]
        · cases hname
    · cases hfound
  · cases h

/-- A type that was read is made of names, marks and blanks. -/
theorem spellsType_of_expectType (h : run.expectType = .ok (type, rest))
    (hlines : run.CommentsEndLines) : type.SpellsType := by
  obtain ⟨rfl, front, rfl, hfront, hlast⟩ := pastType_expectType h
  rw [upTo_append_left]
  intro token hmem
  refine ⟨hfront token hmem, fun hcomment => ?_⟩
  obtain ⟨before, after, rfl⟩ := List.append_of_mem hmem
  cases after with
  | nil =>
    -- a type does not end with a comment
    have hinline := hlast token (by simp)
    rw [Token.isInlineTrivia, hcomment] at hinline
    cases hinline
  | cons next after =>
    -- nor does it go on in another line
    have hchain : CommentsEndLines (token :: next :: after) :=
      hlines.of_isInfix ⟨before, rest, by simp⟩
    have hnewline := (List.isChain_cons_cons.mp hchain).1 hcomment
    have hnext := hfront next (by simp)
    simp [Token.inType, Token.isName, Token.isMark, Token.isInlineTrivia, hnewline, Kind.isName,
      Kind.isInlineTrivia] at hnext

end Run

/-! ## The types of a body -/

/-- The type of a line is spelled as types are, in text whose comments end their lines. -/
theorem TypedLine.spellsType_of_read {run rest : Run} {line : TypedLine}
    (h : read run = .ok (line, rest)) (hlines : run.CommentsEndLines) : line.type.SpellsType := by
  obtain ⟨afterColon, hcolon, h⟩ := bind_eq_ok.mp h
  obtain ⟨⟨type, afterType⟩, htype, h⟩ := bind_eq_ok.mp h
  dsimp only at h
  split at h
  · cases h
    exact Run.spellsType_of_expectType htype (hlines.of_isInfix
      ((Run.skipInline_suffix afterColon).trans (Run.expect_left hcolon).suffix).isInfix)
  · cases h

/-- The type of every argument is spelled as types are, in text whose comments end their lines. -/
theorem spellsType_of_mem_argumentLines {body : Run} {line : Described ArgumentLine}
    (h : line ∈ argumentLines body) (hlines : body.CommentsEndLines) :
    line.item.type.SpellsType := by
  obtain ⟨start, rest, hstart, hread⟩ := Reader.exists_read_of_mem_items h
  obtain ⟨-, hread⟩ := Reader.described_read_eq_ok.mp hread
  obtain ⟨⟨name, afterName⟩, hname, hread⟩ := bind_eq_ok.mp hread
  obtain ⟨⟨found, afterLine⟩, hline, hread⟩ := bind_eq_ok.mp hread
  have hitem : (⟨found, name⟩ : ArgumentLine) = line.item :=
    congrArg Prod.fst (Except.ok.inj hread)
  rw [← hitem]
  refine TypedLine.spellsType_of_read hline (hlines.of_isInfix ?_)
  exact ((Run.skipInline_suffix afterName).trans <| (Run.expectName_left hname).suffix.trans <|
    (Run.acceptDescription_suffix start).trans hstart).isInfix

/-- The type of every field is spelled as types are, in text whose comments end their lines. -/
theorem spellsType_of_mem_fieldLines {body : Run} {line : Described FieldLine}
    (h : line ∈ fieldLines body) (hlines : body.CommentsEndLines) :
    line.item.type.SpellsType := by
  obtain ⟨start, rest, hstart, hread⟩ := Reader.exists_read_of_mem_items h
  obtain ⟨-, hread⟩ := Reader.described_read_eq_ok.mp hread
  obtain ⟨⟨name, afterName⟩, hname, hread⟩ := bind_eq_ok.mp hread
  obtain ⟨⟨arguments, afterArguments⟩, harguments, hread⟩ := bind_eq_ok.mp hread
  obtain ⟨⟨found, afterLine⟩, hline, hread⟩ := bind_eq_ok.mp hread
  have hitem : (⟨⟨found, name⟩, arguments⟩ : FieldLine) = line.item :=
    congrArg Prod.fst (Except.ok.inj hread)
  rw [← hitem]
  refine TypedLine.spellsType_of_read hline (hlines.of_isInfix ?_)
  exact ((FieldLine.readArguments_suffix harguments).trans <|
    (Run.skipInline_suffix afterName).trans <| (Run.expectName_left hname).suffix.trans <|
    (Run.acceptDescription_suffix start).trans hstart).isInfix

end SdlSchema
