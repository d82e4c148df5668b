/-
# Forms of fields and arguments

A field is a name, perhaps arguments in parentheses, a colon, a type, perhaps a default value, and
markers, up to the end of the item; an argument is the same without arguments of its own.  Brackets
are counted in two ways: arguments go up to the parenthesis that balances theirs, whatever other
brackets are open, while a default value counts brackets of all kinds alike and ends in front of the
first token that ends a value outside of them.  The markers go on right there.

* `ValueForm` : a default value, by the depth of brackets in front of each of its tokens;
* `TypedLine.read_iff` : a typed tail is read exactly where one stands;
* `FieldLine.reader_read_iff`, `ArgumentLine.reader_read_iff` : fields and arguments;
* `field_and_argument_read_iff` : both with their descriptions, and where the text ends inside.
-/
import SdlSchema.Token.Tokenize
import SdlSchema.Proofs.Forms.Braced
import SdlSchema.Proofs.Forms.Types

namespace SdlSchema

variable {run rest gap marked kept : Run} {token : Token}

/-! ## Descriptions -/

/-- A description and the gap behind it, or nothing. -/
inductive DescriptionForm : Option String → Run → Prop
  | absent : DescriptionForm none []
  | present {token : Token} {gap : Run} (htoken : token.isDescription = true)
      (hgap : Gap Token.isTrivia gap) : DescriptionForm (some token.content) (token :: gap)

theorem Run.acceptDescription_form (hstart : ∀ token ∈ run.head?, token.isTrivia = false) :
    ∃ described, run = described ++ run.acceptDescription.2 ∧
      DescriptionForm run.acceptDescription.1 described := by
  cases run with
  | nil => exact ⟨[], rfl, .absent⟩
  | cons token tail =>
    by_cases hdescription : token.isDescription = true
    · obtain ⟨gap, htail, hgap⟩ := Gap.exists_dropWhile Token.isTrivia tail
      rw [acceptDescription_of_isDescription hdescription]
      exact ⟨token :: gap, congrArg (token :: ·) htail, .present hdescription hgap⟩
    · rw [acceptDescription_of_significant (Bool.eq_false_iff.mpr hdescription) (hstart token rfl)]
      exact ⟨[], rfl, .absent⟩

/-- A description is read in front of a name. -/
theorem DescriptionForm.acceptDescription {description : Option String} {described : Run}
    (h : DescriptionForm description described) (hname : token.isName = true) (tail : Run) :
    Run.acceptDescription (described ++ token :: tail) = (description, token :: tail) := by
  obtain ⟨htrivia, -, hdescription, -, -, -⟩ := Token.of_isName hname
  cases h with
  | absent => exact Run.acceptDescription_of_significant hdescription htrivia
  | present hfirst hgap =>
    rw [List.cons_append, Run.acceptDescription_of_isDescription hfirst, hgap.skipTrivia htrivia]

/-! ## Default values -/

/-- What a token adds to the number of open brackets. -/
def Token.weight (token : Token) : Int :=
  if token.opensBracket then 1 else if token.closesBracket then -1 else 0

/-- The number of brackets, of whatever kind, that a run opens and does not close. -/
def Run.depth : Run → Int
  | [] => 0
  | token :: tail => token.weight + depth tail

@[simp] theorem Run.depth_nil : Run.depth [] = 0 := rfl

@[simp] theorem Run.depth_cons (token : Token) (run : Run) :
    Run.depth (token :: run) = token.weight + run.depth := rfl

/-- A default value with `outer` brackets open in front of it: it goes up to the first token that
stands outside of all brackets and ends a value, or else to the end. -/
structure ValueForm (outer : Nat) (value rest : Run) : Prop where
  inside : ∀ front token behind, value = front ++ token :: behind → token.endsValue = true →
    outer + Run.depth front ≠ 0
  ends : ∀ token ∈ rest.head?, token.endsValue = true ∧ outer + Run.depth value = 0

section Values

variable {outer inner : Nat} {value : Run}

theorem ValueForm.nil_iff : ValueForm outer [] rest ↔
    ∀ token ∈ rest.head?, token.endsValue = true ∧ outer = 0 := by
  constructor
  · intro h token hmem
    obtain ⟨hends, hdepth⟩ := h.ends token hmem
    exact ⟨hends, by simpa using hdepth⟩
  · intro h
    refine ⟨fun front token behind heq => by simp at heq, fun token hmem => ?_⟩
    obtain ⟨hends, rfl⟩ := h token hmem
    exact ⟨hends, rfl⟩

/-- A value goes on inside of as many brackets as its first token leaves open. -/
theorem ValueForm.cons_iff (hinner : (inner : Int) = outer + token.weight) :
    ValueForm outer (token :: value) rest ↔
      (token.endsValue = true → outer ≠ 0) ∧ ValueForm inner value rest := by
  -- a depth behind the first token is that of the rest, counted from where the first token leaves
  -- it
  have hdepth : ∀ front : Run,
      (outer : Int) + Run.depth (token :: front) = inner + front.depth := by
    intro front
    rw [Run.depth_cons, hinner, Int.add_assoc]
  constructor
  · intro h
    refine ⟨fun hends => ?_, fun front other behind heq hends => ?_, fun other hmem => ?_⟩
    · simpa using h.inside [] token value rfl hends
    · rw [← hdepth]
      exact h.inside (token :: front) other behind (congrArg (token :: ·) heq) hends
    · rw [← hdepth]
      exact h.ends other hmem
  · rintro ⟨hfirst, h⟩
    refine ⟨fun front other behind heq hends => ?_, fun other hmem => ?_⟩
    · cases front with
      | nil =>
        obtain ⟨rfl, -⟩ := List.cons.inj heq
        simpa using hfirst hends
      | cons first front =>
        obtain ⟨rfl, hvalue⟩ := List.cons.inj heq
        rw [hdepth]
        exact h.inside front other behind hvalue hends
    · rw [hdepth]
      exact h.ends other hmem

namespace Run

/-- A value is skipped token by token, with a count of the brackets that are open. -/
theorem skipValue_cons (h : token.endsValue = true → outer ≠ 0) (tail : Run) :
    ∃ inner : Nat, (inner : Int) = outer + token.weight ∧
      skipValue outer (token :: tail) = skipValue inner tail := by
  rw [skipValue, if_neg fun hstop => h hstop.2 hstop.1, Token.weight]
  by_cases hopens : token.opensBracket = true
  · rw [if_pos hopens, if_pos hopens]
    exact ⟨outer + 1, rfl, rfl⟩
  · rw [if_neg hopens, if_neg hopens]
    by_cases hcloses : token.closesBracket = true
    · rw [if_pos hcloses, if_pos hcloses]
      have hne : outer ≠ 0 := h (by rw [Token.endsValue, hcloses, Bool.or_true])
      exact ⟨outer - 1, by omega, rfl⟩
    · rw [if_neg hcloses, if_neg hcloses]
      exact ⟨outer, by omega, rfl⟩

/-- What is skipped has the form of a value. -/
theorem skipValue_form (outer : Nat) (run : Run) :
    ∃ value, run = value ++ run.skipValue outer ∧ ValueForm outer value (run.skipValue outer) := by
  induction run generalizing outer with
  | nil => exact ⟨[], rfl, ValueForm.nil_iff.mpr fun _ hmem => nomatch hmem⟩
  | cons token tail ih =>
    by_cases hstop : outer = 0 ∧ token.endsValue = true
    · refine ⟨[], by rw [skipValue, if_pos hstop]; rfl, ValueForm.nil_iff.mpr ?_⟩
      rw [skipValue, if_pos hstop]
      rintro other hmem
      obtain rfl := Option.some.inj hmem
      exact hstop.symm
    · have hgoes : token.endsValue = true → outer ≠ 0 := fun hends hzero => hstop ⟨hzero, hends⟩
      obtain ⟨inner, hinner, hskip⟩ := skipValue_cons hgoes tail
      obtain ⟨value, htail, hvalue⟩ := ih inner
      rw [hskip]
      exact ⟨token :: value, congrArg (token :: ·) htail,
        (ValueForm.cons_iff hinner).mpr ⟨hgoes, hvalue⟩⟩

end Run

/-- A value is skipped whole. -/
theorem ValueForm.skipValue (h : ValueForm outer value rest) :
    Run.skipValue outer (value ++ rest) = rest := by
  induction value generalizing outer with
  | nil =>
    cases rest with
    | nil => rfl
    | cons token tail =>
      obtain ⟨hends, houter⟩ := ValueForm.nil_iff.mp h token rfl
      rw [List.nil_append, Run.skipValue, if_pos ⟨houter, hends⟩]
  | cons token value ih =>
    have hgoes : token.endsValue = true → outer ≠ 0 := by
      intro hends
      simpa using h.inside [] token value rfl hends
    obtain ⟨inner, hinner, hskip⟩ := Run.skipValue_cons hgoes (value ++ rest)
    rw [List.cons_append, hskip]
    exact ih ((ValueForm.cons_iff hinner).mp h).2

/-- A default value behind its mark, or nothing. -/
inductive DefaultForm (rest : Run) : Run → Prop
  | absent : DefaultForm rest []
  | present {equals : Token} {value : Run} (hequals : equals.isMark .equals = true)
      (hvalue : ValueForm 0 value rest) : DefaultForm rest (equals :: value)

theorem Run.skipDefault_form (run : Run) :
    ∃ default, run = default ++ run.skipDefault ∧ DefaultForm run.skipDefault default := by
  unfold skipDefault
  split
  · next inner htake =>
    obtain ⟨equals, rfl, hkind⟩ := take?_eq_some htake
    obtain ⟨value, hinner, hvalue⟩ := skipValue_form 0 inner
    exact ⟨equals :: value, congrArg (equals :: ·) hinner,
      .present (by simp [Token.isMark, hkind]) hvalue⟩
  · exact ⟨[], rfl, .absent⟩

end Values

/-! ## The end of an item -/

/-- What an item ends with, or a marker, is no other mark than a comma. -/
theorem Token.isMark_eq_false_of_ends {mark : Punctuation}
    (h : token.isMarker = true ∨ token.isNewline = true ∨ token.isMark .comma = true)
    (hne : Punctuation.comma ≠ mark) : token.isMark mark = false := by
  rcases h with hmarker | hnewline | hcomma
  · have hkind : token.kind = .marker := by simpa [isMarker] using hmarker
    simp [isMark, hkind]
  · have hkind : token.kind = .newline := by simpa [isNewline] using hnewline
    simp [isMark, hkind]
  · exact isMark_eq_false hcomma hne

namespace Run

theorem take?_mark_eq_none_of_head? {mark : Punctuation}
    (h : ∀ token ∈ run.head?, token.isMark mark = false) :
    run.take? (.punctuation mark) = none := by
  cases run with
  | nil => rfl
  | cons token tail => exact take?_mark_eq_none (h token rfl)

end Run

/-! ## Typed tails -/

/-- A colon, a type, perhaps a default value, and markers, with the gaps between them, up to where
the item ends. -/
inductive TypedForm (rest : Run) : TypedLine → Run → Prop
  | mk {colon : Token} {gap type gap' default kept marked gap'' : Run}
      (hcolon : colon.isMark .colon = true) (hgap : Gap Token.isInlineTrivia gap)
      (htype : TypeForm type) (hgap' : Gap Token.isInlineTrivia gap')
      (hdefault : DefaultForm (marked ++ (gap'' ++ rest)) default)
      (hmarkers : MarkersForm Token.isInlineTrivia kept marked)
      (hgap'' : Gap Token.isInlineTrivia gap'') (hends : rest.atItemEnd = true) :
      TypedForm rest ⟨type, kept⟩
        (colon :: (gap ++ (type ++ (gap' ++ (default ++ (marked ++ gap''))))))

section Tails

variable {default : Run}

/-- On its line an item goes on with a marker or ends. -/
theorem MarkersForm.next (hmarkers : MarkersForm Token.isInlineTrivia kept marked)
    (hgap : Gap Token.isInlineTrivia gap) (hends : rest.atItemEnd = true) :
    ∀ token ∈ (Run.skipInline (marked ++ (gap ++ rest))).head?,
      token.isMarker = true ∨ token.isNewline = true ∨ token.isMark .comma = true := by
  cases hmarkers with
  | absent =>
    rw [List.nil_append, Run.skipInline_of_atItemEnd hends hgap]
    exact fun token hmem => .inr (Run.of_mem_head?_of_atItemEnd hends token hmem)
  | @present gap' more marker hgap' hmarker _ =>
    rw [List.append_assoc, List.cons_append, hgap'.skipInline (Token.isTrivia_of_isMarker hmarker)]
    rintro token hmem
    obtain rfl := Option.some.inj hmem
    exact .inl hmarker

/-- Markers are read up to the end of the item, also where the trivia in front of them was skipped
before. -/
theorem Run.acceptMarkers_itemEnd (hmarkers : MarkersForm Token.isInlineTrivia kept marked)
    (hgap : Gap Token.isInlineTrivia gap) (hends : rest.atItemEnd = true)
    (hrun : run.skipInline = Run.skipInline (marked ++ (gap ++ rest))) :
    (run.acceptMarkers Token.isInlineTrivia).1 = kept ∧
      (run.acceptMarkers Token.isInlineTrivia).2.skipInline = rest := by
  obtain ⟨hkept, hleft⟩ := acceptMarkers_congr skipsTrivia_isInlineTrivia hrun
  rw [acceptMarkers_form_append skipsTrivia_isInlineTrivia hmarkers
    (afterMarkers_of_atItemEnd hends hgap)] at hkept hleft
  exact ⟨hkept, hleft.trans (skipInline_of_atItemEnd hends hgap)⟩

/-- A default value is skipped up to what follows it, and where there is none nothing but trivia of
the line is. -/
theorem DefaultForm.skipDefault (hdefault : DefaultForm rest default)
    (hgap : Gap Token.isInlineTrivia gap)
    (hnext : ∀ token ∈ rest.skipInline.head?, token.isMark .equals = false) :
    (Run.skipDefault (Run.skipInline (gap ++ (default ++ rest)))).skipInline = rest.skipInline := by
  cases hdefault with
  | absent =>
    have hskip : Run.skipInline (gap ++ ([] ++ rest)) = rest.skipInline :=
      hgap.dropWhile_append rest
    rw [hskip, Run.skipDefault, Run.take?_mark_eq_none_of_head? hnext]
    exact List.dropWhile_idempotent Token.isInlineTrivia rest
  | @present equals value hequals hvalue =>
    rw [List.cons_append, hgap.skipInline (Token.isTrivia_of_isMark hequals), Run.skipDefault,
      Run.take?_of_isMark hequals]
    exact congrArg Run.skipInline hvalue.skipValue

/-- Behind a type no non-null mark is left. -/
theorem DefaultForm.take?_bang (hdefault : DefaultForm rest default)
    (hgap : Gap Token.isInlineTrivia gap)
    (hnext : ∀ token ∈ rest.skipInline.head?, token.isMark .bang = false) :
    (Run.skipInline (gap ++ (default ++ rest))).take? (.punctuation .bang) = none := by
  cases hdefault with
  | absent =>
    have hskip : Run.skipInline (gap ++ ([] ++ rest)) = rest.skipInline :=
      hgap.dropWhile_append rest
    rw [hskip]
    exact Run.take?_mark_eq_none_of_head? hnext
  | present hequals hvalue =>
    rw [List.cons_append, hgap.skipInline (Token.isTrivia_of_isMark hequals)]
    exact Run.take?_mark_eq_none (Token.isMark_eq_false hequals (by simp))

end Tails

namespace TypedLine

variable {line : TypedLine}

theorem read_form (h : read run = .ok (line, rest)) :
    ∃ matched, run = matched ++ rest ∧ TypedForm rest line matched := by
  obtain ⟨afterColon, hcolon, h⟩ := bind_eq_ok.mp h
  obtain ⟨⟨type, afterType⟩, htype, h⟩ := bind_eq_ok.mp h
  obtain ⟨colon, hrun, hkind⟩ := Run.expect_eq_ok hcolon
  obtain ⟨gap, hafterColon, hgap⟩ := Gap.exists_dropWhile Token.isInlineTrivia afterColon
  obtain ⟨hsplit, hform⟩ := Run.expectType_form htype
  obtain ⟨gap', hafterType, hgap'⟩ := Gap.exists_dropWhile Token.isInlineTrivia afterType
  obtain ⟨default, hskipped, hdefault⟩ := Run.skipDefault_form afterType.skipInline
  obtain ⟨marked, hmarked, hmarkers⟩ :=
    Run.acceptMarkers_form skipsTrivia_isInlineTrivia afterType.skipInline.skipDefault
  dsimp only at h
  -- what comes behind the default value is named, for its form depends on what follows it
  revert h hskipped hdefault hmarked hmarkers
  generalize afterType.skipInline.skipDefault = afterDefault
  generalize afterDefault.acceptMarkers Token.isInlineTrivia = found
  obtain ⟨kept, left⟩ := found
  intro h hskipped hdefault hmarked hmarkers
  dsimp only at h hmarked hmarkers
  obtain ⟨gap'', hleft, hgap''⟩ := Gap.exists_dropWhile Token.isInlineTrivia left
  split at h
  · next hends =>
    cases h
    have hbehind : afterDefault = marked ++ (gap'' ++ left.skipInline) :=
      hmarked.trans (congrArg (marked ++ ·) hleft)
    refine ⟨colon :: (gap ++ (type ++ (gap' ++ (default ++ (marked ++ gap''))))), ?_,
      .mk (by simp [Token.isMark, hkind]) hgap hform hgap' (hbehind ▸ hdefault) hmarkers hgap''
        hends⟩
    calc run
        = colon :: (gap ++ (type ++ afterType)) := by
          rw [hrun, ← hsplit]
          exact congrArg (colon :: ·) hafterColon
      _ = colon :: (gap ++ (type ++ (gap' ++ (default ++ afterDefault)))) := by
          rw [← hskipped]
          exact congrArg (fun behind => colon :: (gap ++ (type ++ behind))) hafterType
      _ = _ := by rw [hbehind]; simp
  · cases h

theorem read_of_form {matched : Run} (h : TypedForm rest line matched) :
    read (matched ++ rest) = .ok (line, rest) := by
  cases h with
  | @mk colon gap type gap' default kept marked gap'' hcolon hgap htype hgap' hdefault hmarkers
      hgap'' hends =>
    have hnext := hmarkers.next hgap'' hends
    obtain ⟨first, others, rfl, hfirst⟩ := htype.begins_significant
    have hassoc :
        colon :: (gap ++ (first :: others ++ (gap' ++ (default ++ (marked ++ gap''))))) ++ rest
          = colon :: (gap ++ first ::
              (others ++ (gap' ++ (default ++ (marked ++ (gap'' ++ rest)))))) := by
      simp
    have hexpect : Run.expectType (first :: others
        ++ (gap' ++ (default ++ (marked ++ (gap'' ++ rest)))))
          = .ok (first :: others, gap' ++ (default ++ (marked ++ (gap'' ++ rest)))) :=
      htype.expectType <| hdefault.take?_bang hgap' fun token hmem =>
        Token.isMark_eq_false_of_ends (hnext token hmem) (by simp)
    obtain ⟨hkept, hleft⟩ := Run.acceptMarkers_itemEnd hmarkers hgap'' hends <|
      hdefault.skipDefault hgap' fun token hmem =>
        Token.isMark_eq_false_of_ends (hnext token hmem) (by simp)
    rw [hassoc]
    refine bind_eq_ok.mpr ⟨_, Run.expect_of_isMark hcolon, ?_⟩
    rw [hgap.skipInline hfirst, ← List.cons_append]
    refine bind_eq_ok.mpr ⟨_, hexpect, ?_⟩
    dsimp only
    rw [hkept, hleft, if_pos hends]
    rfl

/-- A typed tail is read exactly where one stands in front of the end of an item. -/
theorem read_iff : read run = .ok (line, rest) ↔
    ∃ matched, run = matched ++ rest ∧ TypedForm rest line matched :=
  ⟨read_form, fun ⟨_, hrun, h⟩ => hrun ▸ read_of_form h⟩

end TypedLine

/-! ## Arguments -/

/-- An argument: a name and a typed tail. -/
inductive ArgumentForm (rest : Run) : ArgumentLine → Run → Prop
  | mk {name : Token} {gap typed : Run} {line : TypedLine} (hname : name.isName = true)
      (hgap : Gap Token.isInlineTrivia gap) (htyped : TypedForm rest line typed) :
      ArgumentForm rest ⟨line, name.word⟩ (name :: (gap ++ typed))

theorem TypedForm.begins {line : TypedLine} {typed : Run} (h : TypedForm rest line typed) :
    ∃ colon others, typed = colon :: others ∧ colon.isMark .colon = true := by
  cases h with
  | mk hcolon _ _ _ _ _ _ _ => exact ⟨_, _, rfl, hcolon⟩

theorem ArgumentForm.begins {line : ArgumentLine} {matched : Run}
    (h : ArgumentForm rest line matched) :
    ∃ name others, matched = name :: others ∧ name.isName = true := by
  cases h with
  | mk hname _ _ => exact ⟨_, _, rfl, hname⟩

/-- An argument is read exactly where one stands. -/
theorem ArgumentLine.reader_read_iff {line : ArgumentLine} :
    reader.read run = .ok (line, rest) ↔
      ∃ matched, run = matched ++ rest ∧ ArgumentForm rest line matched := by
  constructor
  · intro h
    obtain ⟨⟨word, afterName⟩, hname, h⟩ := bind_eq_ok.mp h
    obtain ⟨⟨typedLine, left⟩, htyped, h⟩ := bind_eq_ok.mp h
    cases h
    obtain ⟨name, rfl, hisName, rfl⟩ := Run.expectName_eq_ok hname
    obtain ⟨gap, hafterName, hgap⟩ := Gap.exists_dropWhile Token.isInlineTrivia afterName
    obtain ⟨typed, hsplit, hform⟩ := TypedLine.read_iff.mp htyped
    refine ⟨name :: (gap ++ typed), ?_, .mk hisName hgap hform⟩
    rw [List.cons_append, List.append_assoc, ← hsplit]
    exact congrArg (name :: ·) hafterName
  · rintro ⟨matched, rfl, h⟩
    cases h with
    | @mk name gap typed line hname hgap htyped =>
      have hread := TypedLine.read_of_form htyped
      obtain ⟨colon, others, rfl, hcolon⟩ := htyped.begins
      rw [List.cons_append, List.append_assoc]
      refine bind_eq_ok.mpr ⟨_, Run.expectName_of_isName hname, ?_⟩
      dsimp only
      rw [List.cons_append, hgap.skipInline (Token.isTrivia_of_isMark hcolon)]
      exact bind_eq_ok.mpr ⟨_, hread, rfl⟩

/-! ## Fields -/

/-- The arguments of a field in their parentheses and the gap behind them, or nothing. -/
inductive ArgumentsForm : Option Run → Run → Prop
  | absent : ArgumentsForm none []
  | present {opener closer : Token} {body gap : Run} (hopener : opener.isMark .leftParen = true)
      (hbody : Run.Balances .paren body) (hcloser : closer.isMark .rightParen = true)
      (hgap : Gap Token.isInlineTrivia gap) :
      ArgumentsForm (some body) (opener :: (body ++ closer :: gap))

/-- A field: a name, perhaps arguments, and a typed tail. -/
inductive FieldForm (rest : Run) : FieldLine → Run → Prop
  | mk {name : Token} {gap held typed : Run} {arguments : Option Run} {line : TypedLine}
      (hname : name.isName = true) (hgap : Gap Token.isInlineTrivia gap)
      (harguments : ArgumentsForm arguments held) (htyped : TypedForm rest line typed) :
      FieldForm rest ⟨⟨line, name.word⟩, arguments⟩ (name :: (gap ++ (held ++ typed)))

theorem FieldForm.begins {line : FieldLine} {matched : Run} (h : FieldForm rest line matched) :
    ∃ name others, matched = name :: others ∧ name.isName = true := by
  cases h with
  | mk hname _ _ _ => exact ⟨_, _, rfl, hname⟩

/-- A field up to an opening parenthesis that none of the parentheses behind it balances. -/
inductive UnclosedForm : Run → Prop
  | mk {name opener : Token} {gap inner : Run} (hname : name.isName = true)
      (hgap : Gap Token.isInlineTrivia gap) (hopener : opener.isMark .leftParen = true)
      (hopen : ¬ ∃ body closer rest, inner = body ++ closer :: rest ∧ Run.Balances .paren body ∧
        closer.isMark .rightParen = true) :
      UnclosedForm (name :: (gap ++ opener :: inner))

namespace FieldLine

variable {arguments : Option Run} {line : FieldLine}

theorem readArguments_form (h : readArguments run = .ok (arguments, rest)) :
    ∃ held, run = held ++ rest ∧ ArgumentsForm arguments held := by
  unfold readArguments at h
  split at h
  · next inner htake =>
    obtain ⟨⟨body, afterClose⟩, hclose, h⟩ := bind_eq_ok.mp h
    cases h
    obtain ⟨opener, rfl, hkind⟩ := Run.take?_eq_some htake
    obtain ⟨closer, rfl, hbody, hcloser⟩ := Run.closeBracket_balances_iff.mp hclose
    obtain ⟨gap, hafterClose, hgap⟩ := Gap.exists_dropWhile Token.isInlineTrivia afterClose
    refine ⟨opener :: (body ++ closer :: gap), ?_,
      .present (by simp [Token.isMark, hkind]) hbody hcloser hgap⟩
    rw [List.cons_append, List.append_assoc, List.cons_append]
    exact congrArg (fun behind => opener :: (body ++ closer :: behind)) hafterClose
  · cases h
    exact ⟨[], rfl, .absent⟩

/-- Arguments are read in front of a colon. -/
theorem readArguments_append {held : Run} {colon : Token} (hgap : Gap Token.isInlineTrivia gap)
    (h : ArgumentsForm arguments held) (hcolon : colon.isMark .colon = true) (tail : Run) :
    readArguments (Run.skipInline (gap ++ (held ++ colon :: tail)))
      = .ok (arguments, colon :: tail) := by
  have hsignificant := Token.isTrivia_of_isMark hcolon
  cases h with
  | absent =>
    rw [List.nil_append, hgap.skipInline hsignificant, readArguments,
      Run.take?_mark_eq_none (Token.isMark_eq_false hcolon (by simp))]
    rfl
  | @present opener closer body gap' hopener hbody hcloser hgap' =>
    have hassoc : opener :: (body ++ closer :: gap') ++ colon :: tail
        = opener :: (body ++ closer :: (gap' ++ colon :: tail)) := by simp
    rw [hassoc, hgap.skipInline (Token.isTrivia_of_isMark hopener), readArguments,
      Run.take?_of_isMark hopener]
    refine bind_eq_ok.mpr
      ⟨_, Run.closeBracket_balances_iff.mpr ⟨closer, rfl, hbody, hcloser⟩, ?_⟩
    dsimp only
    rw [hgap'.skipInline hsignificant]
    rfl

theorem readArguments_error_iff : readArguments run = .error .exhausted ↔
    ∃ (opener : Token) (inner : Run), run = opener :: inner ∧
      opener.isMark .leftParen = true ∧ inner.closeBracket .paren = .error .exhausted := by
  unfold readArguments
  constructor
  · intro h
    split at h
    · next inner htake =>
      obtain ⟨opener, rfl, hkind⟩ := Run.take?_eq_some htake
      rcases bind_eq_error.mp h with hclose | ⟨found, -, h⟩
      · exact ⟨opener, inner, rfl, by simp [Token.isMark, hkind], hclose⟩
      · cases h
    · cases h
  · rintro ⟨opener, inner, rfl, hopener, hclose⟩
    rw [Run.take?_of_isMark hopener]
    exact bind_eq_error.mpr (.inl hclose)

/-- A field is read exactly where one stands. -/
theorem reader_read_iff : reader.read run = .ok (line, rest) ↔
    ∃ matched, run = matched ++ rest ∧ FieldForm rest line matched := by
  constructor
  · intro h
    obtain ⟨⟨word, afterName⟩, hname, h⟩ := bind_eq_ok.mp h
    obtain ⟨⟨arguments, afterArguments⟩, harguments, h⟩ := bind_eq_ok.mp h
    obtain ⟨⟨typedLine, left⟩, htyped, h⟩ := bind_eq_ok.mp h
    cases h
    obtain ⟨name, rfl, hisName, rfl⟩ := Run.expectName_eq_ok hname
    obtain ⟨gap, hafterName, hgap⟩ := Gap.exists_dropWhile Token.isInlineTrivia afterName
    obtain ⟨held, hheld, hargumentsForm⟩ := readArguments_form harguments
    obtain ⟨typed, hsplit, hform⟩ := TypedLine.read_iff.mp htyped
    refine ⟨name :: (gap ++ (held ++ typed)), ?_, .mk hisName hgap hargumentsForm hform⟩
    rw [List.cons_append, List.append_assoc, List.append_assoc, ← hsplit, ← hheld]
    exact congrArg (name :: ·) hafterName
  · rintro ⟨matched, rfl, h⟩
    cases h with
    | @mk name gap held typed arguments line hname hgap harguments htyped =>
      have hread := TypedLine.read_of_form htyped
      obtain ⟨colon, others, rfl, hcolon⟩ := htyped.begins
      have hassoc : name :: (gap ++ (held ++ colon :: others)) ++ rest
          = name :: (gap ++ (held ++ colon :: (others ++ rest))) := by simp
      rw [hassoc]
      exact bind_eq_ok.mpr ⟨_, Run.expectName_of_isName hname,
        bind_eq_ok.mpr ⟨_, readArguments_append hgap harguments hcolon _,
          bind_eq_ok.mpr ⟨_, hread, rfl⟩⟩⟩

/-- The text ends inside a field only between its parentheses. -/
theorem reader_exhausted_iff : reader.read run = .error .exhausted ↔ UnclosedForm run := by
  constructor
  · intro hread
    rcases bind_eq_error.mp hread with h | ⟨⟨word, afterName⟩, hname, hbehind⟩
    · exact absurd h (Run.expectName_ne_exhausted _)
    rcases bind_eq_error.mp hbehind with harguments | ⟨⟨arguments, afterArguments⟩, -, htail⟩
    · obtain ⟨name, rfl, hisName, -⟩ := Run.expectName_eq_ok hname
      obtain ⟨gap, hafterName, hgap⟩ := Gap.exists_dropWhile Token.isInlineTrivia afterName
      obtain ⟨opener, inner, hsplit, hopener, hclose⟩ := readArguments_error_iff.mp harguments
      rw [hafterName, show afterName.dropWhile Token.isInlineTrivia = opener :: inner from hsplit]
      exact .mk hisName hgap hopener (Run.closeBracket_error_iff.mp hclose)
    · rcases bind_eq_error.mp htail with h | ⟨found, -, h⟩
      · exact absurd h (TypedLine.read_ne_exhausted _)
      · cases h
  · intro h
    cases h with
    | @mk name opener gap inner hname hgap hopener hopen =>
      refine bind_eq_error.mpr (.inr ⟨_, Run.expectName_of_isName hname, ?_⟩)
      refine bind_eq_error.mpr (.inl (readArguments_error_iff.mpr ⟨opener, inner, ?_, hopener,
        Run.closeBracket_error_iff.mpr hopen⟩))
      exact hgap.skipInline (Token.isTrivia_of_isMark hopener)

end FieldLine

/-! ## With descriptions -/

/-- A form behind a description. -/
inductive DescribedForm {α : Type} (form : α → Run → Prop) : Described α → Run → Prop
  | mk {description : Option String} {item : α} {described matched : Run}
      (hdescription : DescriptionForm description described) (hitem : form item matched) :
      DescribedForm form ⟨description, item⟩ (described ++ matched)

namespace Reader

variable {α : Type} {reader : Reader α} {form : Run → α → Run → Prop} {found : Described α}

/-- A reader that takes exactly its form, which begins with a name, takes exactly that form behind
a description. -/
theorem described_read_iff (hstart : ∀ token ∈ run.head?, token.isTrivia = false)
    (hread : ∀ {run rest : Run} {item : α}, reader.read run = .ok (item, rest) ↔
      ∃ matched, run = matched ++ rest ∧ form rest item matched)
    (hbegins : ∀ {rest matched : Run} {item : α}, form rest item matched →
      ∃ name others, matched = name :: others ∧ name.isName = true) :
    reader.described.read run = .ok (found, rest) ↔
      ∃ matched, run = matched ++ rest ∧ DescribedForm (form rest) found matched := by
  rw [described_read_eq_ok, hread]
  constructor
  · rintro ⟨hdescription, matched, hsplit, hitem⟩
    obtain ⟨described, hrun, hform⟩ := Run.acceptDescription_form hstart
    obtain ⟨description, item⟩ := found
    obtain rfl : description = run.acceptDescription.1 := hdescription
    refine ⟨described ++ matched, ?_, .mk hform hitem⟩
    rw [List.append_assoc, ← hsplit, ← hrun]
  · rintro ⟨whole, rfl, h⟩
    cases h with
    | @mk description item described matched hdescription hitem =>
      obtain ⟨name, others, rfl, hname⟩ := hbegins hitem
      rw [List.append_assoc, List.cons_append, hdescription.acceptDescription hname]
      exact ⟨rfl, _, rfl, hitem⟩

theorem described_read_error_iff {miss : Miss} : reader.described.read run = .error miss ↔
    reader.read run.acceptDescription.2 = .error miss := by
  constructor
  · intro h
    rcases bind_eq_error.mp h with h | ⟨found, -, h⟩
    · exact h
    · cases h
  · exact fun h => bind_eq_error.mpr (.inl h)

end Reader

/-- At a significant token, a field or an argument is read exactly where one stands: perhaps a
description, a name, of a field perhaps arguments up to the parenthesis that balances theirs, a
colon, a type, perhaps a default value up to the first line break, comma, marker or closing bracket
outside of brackets, markers, and the end of the item, which is left.  The text ends inside a field
exactly where no parenthesis balances the one behind its name, and never inside an argument. -/
theorem field_and_argument_read_iff (run : Run)
    (hstart : ∀ token ∈ run.head?, token.isTrivia = false) :
    (∀ (line : Described FieldLine) (rest : Run),
      FieldLine.reader.described.read run = .ok (line, rest) ↔
        ∃ matched, run = matched ++ rest ∧ DescribedForm (FieldForm rest) line matched) ∧
    (∀ (line : Described ArgumentLine) (rest : Run),
      ArgumentLine.reader.described.read run = .ok (line, rest) ↔
        ∃ matched, run = matched ++ rest ∧ DescribedForm (ArgumentForm rest) line matched) ∧
    (FieldLine.reader.described.read run = .error .exhausted ↔
      ∃ description described unclosed, run = described ++ unclosed ∧
        DescriptionForm description described ∧ UnclosedForm unclosed) ∧
    ArgumentLine.reader.described.read run ≠ .error .exhausted := by
  refine ⟨fun line rest => ?_, fun line rest => ?_, ?_, fun h => ?_⟩
  · exact Reader.described_read_iff hstart FieldLine.reader_read_iff FieldForm.begins
  · exact Reader.described_read_iff hstart ArgumentLine.reader_read_iff ArgumentForm.begins
  · rw [Reader.described_read_error_iff, FieldLine.reader_exhausted_iff]
    constructor
    · intro h
      obtain ⟨described, hrun, hform⟩ := Run.acceptDescription_form hstart
      exact ⟨_, described, _, hrun, hform, h⟩
    · rintro ⟨description, described, unclosed, rfl, hdescription, h⟩
      cases h with
      | mk hname hgap hopener hopen =>
        rw [hdescription.acceptDescription hname]
        exact .mk hname hgap hopener hopen
  · exact ArgumentLine.read_ne_exhausted _ (Reader.described_read_error_iff.mp h)

/-- A field with all of its parts: the default value goes on over a line break inside of brackets,
and stops in front of the marker. -/
theorem field_and_argument_read_iff_default :
    ∃ (line : Described FieldLine) (matched rest : Run),
      tokenize "\"A\" f(a: Int = [\x7b\x7d]) : [T !]! = [1,\n2] %0 # c\ng: T".toList
        = matched ++ rest ∧ DescribedForm (FieldForm rest) line matched ∧
      line.description = some "A" ∧ line.item.name = "f" ∧
      line.item.arguments.map Run.text = some "a: Int = [\x7b\x7d]" ∧
      line.item.type.text = "[T !]!" ∧ line.item.markers.text = "%0" := by
  have hread : ((FieldLine.reader.described.read (tokenize
      "\"A\" f(a: Int = [\x7b\x7d]) : [T !]! = [1,\n2] %0 # c\ng: T".toList)).toOption.map
        fun found => (found.1.description, found.1.item.name,
          found.1.item.arguments.map Run.text, found.1.item.type.text, found.1.item.markers.text))
      = some (some "A", "f", some "a: Int = [\x7b\x7d]", "[T !]!", "%0") := by decide +kernel
  have hiff := (field_and_argument_read_iff (tokenize
    "\"A\" f(a: Int = [\x7b\x7d]) : [T !]! = [1,\n2] %0 # c\ng: T".toList)
    (by decide +kernel)).1
  revert hread hiff
  generalize FieldLine.reader.described.read _ = outcome
  intro hread hiff
  cases outcome with
  | error miss => cases hread
  | ok found =>
    obtain ⟨matched, hsplit, hform⟩ := (hiff found.1 found.2).mp rfl
    simp only [Except.toOption, Option.map_some, Option.some.injEq, Prod.mk.injEq] at hread
    exact ⟨found.1, matched, found.2, hsplit, hform, hread⟩

end SdlSchema
