/-
# Bodies of which nothing is left

A fielded type with a blank body declares nothing, and a body that is not blank may be blank in the
abridged document.  Then the attempt to read the type misses there, and the scan goes on behind its
first token and not behind its block.  But each attempt up to the block meets the same block, and
inside there is nothing to read, so the scan comes out behind the block all the same.

* `FieldedDeclaration.scanFrom_hollow` : a scan passes over a block that holds nothing;
* `declarationsExcluding_eq` : what is declared if more bodies count as blank;
* `Abridgement.declarations_part_eq` : what an abridged document declares.
-/
import SdlSchema.Proofs.Abridging.Scans
import SdlSchema.Proofs.Scanning.Trace

namespace SdlSchema

/-! ## The block that comes first -/

/-- The first brace of the run opens a block, and `inner` stands behind it. -/
def Run.MeetsBlock (run inner : Run) : Prop :=
  ∃ opener : Token, opener.isMark .leftBrace = true ∧ Braceless (opener :: inner) run

namespace Run.MeetsBlock

variable {run rest inner other : Run}

/-- The block that comes first is also first behind what holds no brace. -/
theorem of_braceless (h : rest.MeetsBlock inner) (hrest : Braceless rest run) :
    run.MeetsBlock inner := by
  obtain ⟨opener, hopener, hinner⟩ := h
  exact ⟨opener, hopener, hinner.trans hrest⟩

/-- A run has one first brace. -/
theorem inner_eq (h : run.MeetsBlock inner) (h' : run.MeetsBlock other) : inner = other := by
  have hdrop : ∀ {inner : Run}, run.MeetsBlock inner →
      (run.dropWhile fun token => !token.isBrace).tail = inner := by
    rintro inner ⟨opener, hopener, front, rfl, hfront⟩
    have hbrace : opener.isBrace = true := by rw [Token.isBrace, hopener, Bool.true_or]
    rw [List.dropWhile_append_of_pos fun token hmem => by rw [hfront token hmem]; rfl,
      List.dropWhile_cons_of_neg (by simp [hbrace]), List.tail_cons]
  rw [← hdrop h, ← hdrop h']

theorem isInfix {body : Run} (h : run.MeetsBlock inner)
    (hclose : inner.balanced .brace 0 = some (body, rest)) : body <:+: run := by
  obtain ⟨opener, -, front, rfl, -⟩ := h
  obtain ⟨closer, -, rfl⟩ := Run.balanced_eq hclose
  exact (List.prefix_append body _).isInfix.trans
    ((List.suffix_cons opener _).trans (List.suffix_append front _)).isInfix

end Run.MeetsBlock

namespace FieldedDeclaration

variable {run rest : Run}

/-- The heading of a fielded type goes as far as the first block. -/
theorem meetsBlock_of_heading {kind : FieldedKind} {name : String} {interfaces : Option NameList}
    {afterKind afterName afterInterfaces inner : Run}
    (hkind : readKind run.acceptExtend.2 = .ok (kind, afterKind))
    (hname : afterKind.skipTrivia.expectName = .ok (name, afterName))
    (hinterfaces : readInterfaces afterName.skipTrivia = .ok (interfaces, afterInterfaces))
    (hopen : (afterInterfaces.acceptMarkers Token.isTrivia).2.skipTrivia.expect
      (.punctuation .leftBrace) = .ok inner) : run.MeetsBlock inner := by
  obtain ⟨opener, hrun, hopener⟩ := Run.expect_eq_ok hopen
  refine ⟨opener, by simp [Token.isMark, hopener], ?_⟩
  rw [← hrun]
  exact (interfaces_braceless hkind hname hinterfaces).markers

/-- What is read as the body of a fielded type is the first block. -/
theorem meetsBlock_of_frame_eq_ok {found : FieldedDeclaration}
    (h : frame.read run = .ok (found, rest)) :
    ∃ inner, run.MeetsBlock inner ∧ inner.balanced .brace 0 = some (found.body, rest) := by
  obtain ⟨⟨kind, afterKind⟩, hkind, h⟩ := bind_eq_ok.mp h
  obtain ⟨⟨name, afterName⟩, hname, h⟩ := bind_eq_ok.mp h
  obtain ⟨⟨interfaces, afterInterfaces⟩, hinterfaces, h⟩ := bind_eq_ok.mp h
  obtain ⟨inner, hopen, h⟩ := bind_eq_ok.mp h
  obtain ⟨⟨body, afterClose⟩, hclose, h⟩ := bind_eq_ok.mp h
  cases h
  exact ⟨inner, meetsBlock_of_heading hkind hname hinterfaces hopen, Run.closeBracket_eq_ok hclose⟩

/-- A type with fields that is found at a token has as its body the block that comes first. -/
theorem meetsBlock_of_attempt {lineStart : Bool} {token : Token} {tail : Run}
    {found : Described FieldedDeclaration}
    (h : frame.attempt lineStart token tail = .ok (found, rest)) :
    ∃ inner, Run.MeetsBlock (token :: tail) inner ∧
      inner.balanced .brace 0 = some (found.item.body, rest) := by
  obtain ⟨-, hread⟩ := Reader.described_read_eq_ok.mp (Reader.read_of_attempt h)
  obtain ⟨inner, hmeets, hclose⟩ := meetsBlock_of_frame_eq_ok hread
  exact ⟨inner, hmeets.of_braceless (Run.acceptDescription_braceless _), hclose⟩

/-- The text ends inside a fielded type only if the first block is never closed. -/
theorem meetsBlock_of_frame_eq_exhausted (h : frame.read run = .error .exhausted) :
    ∃ inner, run.MeetsBlock inner ∧ inner.balanced .brace 0 = none := by
  rcases bind_eq_error.mp h with h | ⟨⟨kind, afterKind⟩, hkind, h⟩
  · exact absurd h (readKind_ne_exhausted _)
  rcases bind_eq_error.mp h with h | ⟨⟨name, afterName⟩, hname, h⟩
  · exact absurd h (Run.expectName_ne_exhausted _)
  rcases bind_eq_error.mp h with h | ⟨⟨interfaces, afterInterfaces⟩, hinterfaces, h⟩
  · exact absurd h (readInterfaces_ne_exhausted _)
  rcases bind_eq_error.mp h with h | ⟨inner, hopen, h⟩
  · exact absurd h (Run.expect_ne_exhausted _ _)
  rcases bind_eq_error.mp h with h | ⟨found, -, h⟩
  · exact ⟨inner, meetsBlock_of_heading hkind hname hinterfaces hopen, Run.closeBracket_eq_error h⟩
  · cases h

/-- Nothing but a keyword begins a fielded type. -/
theorem frame_read_of_not_keyword {token : Token} {tail : Run}
    (h : token.kind.isKeyword = false) : frame.read (token :: tail) = .error .noMatch := by
  have hextend : Run.acceptExtend (token :: tail) = (false, token :: tail) := by
    rw [Run.acceptExtend, Run.take?_eq_none]
    intro hkind
    rw [hkind] at h
    cases h
  have hkind : readKind (token :: tail) = .error .noMatch := by
    rw [readKind]
    cases hword : token.kind with
    | keyword word => rw [hword] at h; cases h
    | _ => rfl
  simp only [frame, hextend, hkind]
  rfl

end FieldedDeclaration

/-! ## Passing over what cannot be read -/

namespace Reader

variable {α : Type} {reader : Reader α}

theorem attempt_of_read_eq_error {lineStart : Bool} {token : Token} {tail : Run}
    (h : reader.read (Run.acceptDescription (token :: tail)).2 = .error .noMatch) :
    reader.attempt lineStart token tail = .error .noMatch := by
  have hread : reader.described.read (token :: tail) = .error .noMatch := by
    simp only [described, h]
    rfl
  rw [attempt, hread, ite_self]

/-- A stretch is passed over if nothing can be read at any of its tokens and none opens a block. -/
theorem scanFrom_append_unread (closable : Bool) (front rest : Run)
    (h : ∀ token left, token :: left <:+ front → token.isTrivia = false →
      token.isMark .leftBrace = false ∧
        ∀ lineStart, reader.attempt lineStart token (left ++ rest) = .error .noMatch)
    (lineStart : Bool) :
    ∃ lineStart', reader.scanFrom lineStart closable (front ++ rest)
      = reader.scanFrom lineStart' closable rest := by
  induction front generalizing lineStart with
  | nil => exact ⟨lineStart, rfl⟩
  | cons token front ih =>
    have hfront := ih fun other left hsuffix =>
      h other left (hsuffix.trans (List.suffix_cons token front))
    rw [List.cons_append]
    cases htrivia : token.isTrivia with
    | true =>
      rw [scanFrom_trivia htrivia]
      exact hfront _
    | false =>
      obtain ⟨hopener, hattempt⟩ := h token front (List.suffix_refl _) htrivia
      rw [scanFrom_pass htrivia hopener (hattempt lineStart)]
      exact hfront false

end Reader

namespace FieldedDeclaration

/-- A type whose body passes the test is no type. -/
theorem attempt_readerExcluding (blank : Run → Bool) (lineStart : Bool) (token : Token)
    (tail : Run) :
    (readerExcluding blank).attempt lineStart token tail =
      match frame.attempt lineStart token tail with
      | .ok (found, rest) =>
        if blank found.item.body then .error .noMatch else .ok (found, rest)
      | .error miss => .error miss := by
  unfold Reader.attempt
  split
  · simp only [Reader.described, readerExcluding, Reader.excluding]
    cases frame.read (Run.acceptDescription (token :: tail)).2 with
    | error miss => rfl
    | ok found =>
      obtain ⟨item, rest⟩ := found
      by_cases hblank : blank item.body = true
      · simp only [bind, Except.bind, pure, Except.pure, if_pos hblank]
        rfl
      · simp only [bind, Except.bind, pure, Except.pure, if_neg hblank]
  · rfl

variable {blank : Run → Bool} {lineStart : Bool} {token : Token} {run tail rest body : Run}

theorem attempt_of_frame_eq_ok {found : Described FieldedDeclaration}
    (h : frame.attempt lineStart token tail = .ok (found, rest))
    (hblank : blank found.item.body = false) :
    (readerExcluding blank).attempt lineStart token tail = .ok (found, rest) := by
  rw [attempt_readerExcluding, h]
  exact if_neg (by simp [hblank])

/-- A type whose body passes the test is found by the reader without the test alone. -/
theorem attempt_of_blank {found : Described FieldedDeclaration}
    (h : frame.attempt lineStart token tail = .ok (found, rest))
    (hblank : blank found.item.body = true) :
    (readerExcluding blank).attempt lineStart token tail = .error .noMatch := by
  rw [attempt_readerExcluding, h]
  exact if_pos hblank

theorem attempt_of_frame_eq_error {miss : Miss}
    (h : frame.attempt lineStart token tail = .error miss) :
    (readerExcluding blank).attempt lineStart token tail = .error miss := by
  rw [attempt_readerExcluding, h]

/-- A type is found only at a description or a keyword. -/
theorem attempt_of_not_keyword (hdescription : token.isDescription = false)
    (htrivia : token.isTrivia = false) (hkeyword : token.kind.isKeyword = false) :
    (readerExcluding blank).attempt lineStart token tail = .error .noMatch := by
  have haccept : (Run.acceptDescription (token :: tail)).2 = token :: tail := by
    rw [Run.acceptDescription, hdescription, Run.skipTrivia_significant htrivia]
    rfl
  apply Reader.attempt_of_read_eq_error
  rw [haccept]
  simp only [readerExcluding, Reader.excluding, frame_read_of_not_keyword hkeyword]
  rfl

/-- No attempt succeeds that meets a block whose body passes the test. -/
theorem attempt_of_meetsBlock {inner : Run} (h : Run.MeetsBlock (token :: tail) inner)
    (hclose : inner.balanced .brace 0 = some (body, rest)) (hblank : blank body = true) :
    (readerExcluding blank).attempt lineStart token tail = .error .noMatch := by
  -- the first block is the same behind the description
  have hmeets : ∀ {other : Run},
      (Run.acceptDescription (token :: tail)).2.MeetsBlock other → other = inner :=
    fun hother => (hother.of_braceless (Run.acceptDescription_braceless _)).inner_eq h
  apply Reader.attempt_of_read_eq_error
  simp only [readerExcluding, Reader.excluding]
  cases hread : frame.read (Run.acceptDescription (token :: tail)).2 with
  | ok found =>
    obtain ⟨found, left⟩ := found
    obtain ⟨other, hother, hbody⟩ := meetsBlock_of_frame_eq_ok hread
    rw [hmeets hother, hclose] at hbody
    obtain ⟨rfl, rfl⟩ := Prod.mk.inj (Option.some.inj hbody)
    simp only [bind, Except.bind, if_pos hblank]
    rfl
  | error miss =>
    cases miss with
    | noMatch => rfl
    | exhausted =>
      obtain ⟨other, hother, hnone⟩ := meetsBlock_of_frame_eq_exhausted hread
      rw [hmeets hother, hclose] at hnone
      cases hnone

theorem attempt_of_isMark {mark : Punctuation} (h : token.isMark mark = true) :
    (readerExcluding blank).attempt lineStart token tail = .error .noMatch := by
  have hkind : token.kind = .punctuation mark := by simpa [Token.isMark] using h
  exact attempt_of_not_keyword (by rw [Token.isDescription, hkind]; rfl)
    (Token.isTrivia_of_isMark h) (by rw [hkind]; rfl)

/-- A scan passes over a block that holds nothing, whether it steps over blocks or not. -/
theorem scanFrom_hollow_block {opener : Token} {inner : Run}
    (hopener : opener.isMark .leftBrace = true)
    (hclose : inner.balanced .brace 0 = some (body, rest))
    (hempty : ∀ token ∈ body, token.isTrivia = true ∨ token.kind = .unknown)
    (lineStart closable : Bool) :
    (readerExcluding blank).scanFrom lineStart closable (opener :: inner)
      = (readerExcluding blank).scanFrom false closable rest := by
  have hattempt : (readerExcluding blank).attempt lineStart opener inner = .error .noMatch :=
    attempt_of_isMark hopener
  rw [Reader.scanFrom_significant (Token.isTrivia_of_isMark hopener), hattempt]
  cases closable with
  | true => simp only [Run.stepOver, hopener, hclose, and_self, if_true]
  | false =>
    simp only [Run.stepOver, Bool.false_eq_true, false_and, if_false]
    -- the block is entered, but nothing in it can begin a declaration
    obtain ⟨closer, hcloser, rfl⟩ := Run.balanced_eq hclose
    have hnotOpener : closer.isMark .leftBrace = false := Run.not_opener_of_closer hcloser
    obtain ⟨atCloser, hbody⟩ := (readerExcluding blank).scanFrom_append_unread false body
      (closer :: rest) (fun token left hsuffix htrivia => by
        have hkind := (hempty token (hsuffix.subset List.mem_cons_self)).resolve_left
          (by simp [htrivia])
        refine ⟨by rw [Token.isMark, hkind]; rfl, fun lineStart => ?_⟩
        exact attempt_of_not_keyword (by rw [Token.isDescription, hkind]; rfl) htrivia
          (by rw [hkind]; rfl)) false
    rw [hbody, Reader.scanFrom_pass (Token.isTrivia_of_isMark hcloser) hnotOpener
      (attempt_of_isMark hcloser)]

/-- A scan passes over a block that holds nothing, from wherever it meets it. -/
theorem scanFrom_hollow {inner : Run} (h : run.MeetsBlock inner)
    (hclose : inner.balanced .brace 0 = some (body, rest)) (hblank : blank body = true)
    (hempty : ∀ token ∈ body, token.isTrivia = true ∨ token.kind = .unknown)
    (lineStart closable : Bool) :
    (readerExcluding blank).scanFrom lineStart closable run
      = (readerExcluding blank).scanFrom false closable rest := by
  obtain ⟨opener, hopener, front, rfl, hfront⟩ := h
  obtain ⟨atOpener, hscan⟩ := (readerExcluding blank).scanFrom_append_unread closable front
    (opener :: inner) (fun token left hsuffix htrivia => by
      have hleft : ∀ other ∈ token :: left, other.isBrace = false :=
        fun other hmem => hfront other (hsuffix.subset hmem)
      refine ⟨(Bool.or_eq_false_iff.mp (hleft token List.mem_cons_self)).1, fun lineStart => ?_⟩
      -- in front of the block each attempt meets the block
      exact attempt_of_meetsBlock ⟨opener, hopener, token :: left, rfl, hleft⟩ hclose hblank)
    lineStart
  rw [hscan, scanFrom_hollow_block hopener hclose hempty]

end FieldedDeclaration

/-! ## Scans with another test -/

/-- A test for bodies that hold nothing: those that are blank, and perhaps more, but none that holds
anything to read. -/
structure HoldsNothing (blank : Run → Bool) (document : Run) : Prop where
  of_allBlank : ∀ {body : Run}, body <:+: document → Text.allBlank body.chars = true →
    blank body = true
  isTrivia_or_unknown : ∀ {body : Run}, body <:+: document → blank body = true →
    ∀ token ∈ body, token.isTrivia = true ∨ token.kind = .unknown

namespace FieldedDeclaration

variable {blank : Run → Bool} {document run : Run}

/-- With another test for bodies that hold nothing, a scan finds the fielded types whose bodies do
not pass it, and no others. -/
theorem scanFrom_readerExcluding (h : HoldsNothing blank document) (hrun : run <:+ document)
    (lineStart closable : Bool) :
    (readerExcluding blank).scanFrom lineStart closable run
      = (reader.scanFrom lineStart closable run).filter fun found => !blank found.item.body := by
  rw [reader_eq]
  induction hlength : run.length using Nat.strongRecOn generalizing run lineStart closable with
  | _ n ih =>
    have hnext : ∀ left lineStart closable, left <:+ run → left.length < run.length →
        (readerExcluding blank).scanFrom lineStart closable left
          = ((readerExcluding fun body => Text.allBlank body.chars).scanFrom lineStart closable
            left).filter fun found => !blank found.item.body :=
      fun left lineStart closable hsuffix hlt =>
        ih _ (hlength ▸ hlt) (hsuffix.trans hrun) lineStart closable rfl
    cases run with
    | nil => rw [Reader.scanFrom_nil, Reader.scanFrom_nil, List.filter_nil]
    | cons token tail =>
      cases htoken : token.isTrivia with
      | true =>
        rw [Reader.scanFrom_trivia htoken, Reader.scanFrom_trivia htoken]
        exact hnext tail _ _ (List.suffix_cons token tail) (Nat.lt_succ_self _)
      | false =>
        have hstep := hnext _ false (Run.stepOver closable token tail).2.2
          ((Run.stepOver_suffix closable token tail).trans (List.suffix_cons token tail))
          (Nat.lt_succ_of_le (Run.stepOver_suffix closable token tail).length_le)
        cases hread : frame.attempt lineStart token tail with
        | error miss =>
          rw [Reader.scanFrom_significant htoken, Reader.scanFrom_significant htoken,
            attempt_of_frame_eq_error hread, attempt_of_frame_eq_error hread]
          cases miss with
          | noMatch => exact hstep
          | exhausted => rfl
        | ok found =>
          obtain ⟨found, rest⟩ := found
          have hleft := Reader.attempt_left hread
          have hrest := hnext rest false closable hleft.suffix hleft.length_lt
          obtain ⟨inner, hmeets, hclose⟩ := meetsBlock_of_attempt hread
          have hbody : found.item.body <:+: document :=
            (hmeets.isInfix hclose).trans hrun.isInfix
          cases hall : Text.allBlank found.item.body.chars with
          | true =>
            -- the type is in neither scan
            rw [Reader.scanFrom_significant htoken, Reader.scanFrom_significant htoken,
              attempt_of_blank hread (h.of_allBlank hbody hall), attempt_of_blank hread hall]
            exact hstep
          | false =>
            have hfound : (readerExcluding fun body => Text.allBlank body.chars).attempt lineStart
                token tail = .ok (found, rest) := attempt_of_frame_eq_ok hread hall
            rw [Reader.scanFrom_read htoken hfound]
            cases hblank : blank found.item.body with
            | true =>
              rw [scanFrom_hollow hmeets hclose hblank (h.isTrivia_or_unknown hbody hblank), hrest,
                List.filter_cons_of_neg (by simp [hblank])]
            | false =>
              rw [Reader.scanFrom_read htoken (attempt_of_frame_eq_ok hread hblank), hrest,
                List.filter_cons_of_pos (by rw [hblank]; rfl)]

end FieldedDeclaration

/-- The declarations of a document, without the fielded types whose bodies pass the test. -/
def declarationsWithout (blank : Run → Bool) (document : Run) :
    (kind : DeclarationKind) → List (Described kind.Declaration)
  | .fielded => (fieldedDeclarations document).filter fun found => !blank found.item.body
  | .union => unionDeclarations document
  | .scalar => scalarDeclarations document
  | .enum => enumDeclarations document
  | .directive => directiveDeclarations document

/-- With a test for bodies that hold nothing, exactly the types whose bodies pass it are left out.
-/
theorem declarationsExcluding_eq {blank : Run → Bool} {document : Run}
    (h : HoldsNothing blank document) (kind : DeclarationKind) :
    declarationsExcluding blank kind document = declarationsWithout blank document kind := by
  cases kind with
  | fielded =>
    exact FieldedDeclaration.scanFrom_readerExcluding h (List.suffix_refl document) true true
  | _ => rfl

/-- Where no body passes the test, nothing is left out. -/
theorem declarationsWithout_eq {blank : Run → Bool} {document : Run}
    (h : ∀ found ∈ fieldedDeclarations document, blank found.item.body = false)
    (kind : DeclarationKind) :
    declarationsWithout blank document kind = kind.declarations document := by
  cases kind with
  | fielded =>
    refine List.filter_eq_self.mpr fun found hfound => ?_
    rw [h found hfound]
    rfl
  | _ => rfl

/-! ## Abridged documents -/

namespace Abridgement

variable {A : Abridgement}

/-- What is left of a token is blank exactly if the token is. -/
def KeepsBlanks (A : Abridgement) (document : Run) : Prop :=
  ∀ token ∈ document, ∀ kept ∈ A.token? token, Text.allBlank kept.text = Text.allBlank token.text

/-- What is left of a body is blank exactly if each token of it is blank or left out. -/
theorem allBlank_part_iff {document body : Run} (h : A.KeepsBlanks document)
    (hbody : body <:+: document) : Text.allBlank (A.part body).chars = true ↔
      ∀ token ∈ body, A.token? token = none ∨ Text.allBlank token.text = true := by
  rw [Text.allBlank, Run.chars, List.all_flatMap, List.all_eq_true]
  constructor
  · intro hall token hmem
    cases hkept : A.token? token with
    | none => exact Or.inl rfl
    | some kept =>
      refine Or.inr ?_
      rw [← h token (hbody.subset hmem) kept hkept]
      exact hall kept (List.mem_filterMap.mpr ⟨token, hmem, hkept⟩)
  · intro hall kept hmem
    obtain ⟨token, htoken, hkept⟩ := List.mem_filterMap.mp hmem
    have hblank := (hall token htoken).resolve_left (by rw [hkept]; simp)
    rw [← h token (hbody.subset htoken) kept hkept] at hblank
    exact hblank

/-- A body is blank after abridging only if it holds trivia and unknown characters alone. -/
theorem holdsNothing_part {text : List Char} (h : A.KeepsBlanks (tokenize text)) :
    HoldsNothing (fun body => Text.allBlank (A.part body).chars) (tokenize text) where
  of_allBlank {body} hbody hall := by
    rw [Text.allBlank, Run.chars, List.all_flatMap, List.all_eq_true] at hall
    exact (allBlank_part_iff h hbody).mpr fun token hmem => Or.inr (hall token hmem)
  isTrivia_or_unknown {body} hbody hblank token hmem := by
    rcases (allBlank_part_iff h hbody).mp hblank token hmem with hnone | hall
    · exact Or.inl (Token.isTrivia_of_isInlineTrivia (A.isInlineTrivia_of_eq_none hnone))
    · rcases kind_of_allBlank (hbody.subset hmem) hall with hkind | hkind | hkind
      · exact Or.inl (by rw [Token.isTrivia, hkind]; rfl)
      · exact Or.inl (by rw [Token.isTrivia, hkind]; rfl)
      · exact Or.inr hkind

/-- What an abridged document declares is what is left of what the document declares, without the
fielded types of whose bodies nothing is left. -/
theorem declarations_part_eq {text : List Char} (h : A.KeepsBlanks (tokenize text))
    (kind : DeclarationKind) :
    kind.declarations (A.part (tokenize text))
      = (declarationsWithout (fun body => Text.allBlank (A.part body).chars) (tokenize text)
        kind).map (A.described (A.declaration kind)) := by
  rw [A.declarations_part (commentsEndLines_tokenize text),
    declarationsExcluding_eq (holdsNothing_part h)]

end Abridgement

end SdlSchema
