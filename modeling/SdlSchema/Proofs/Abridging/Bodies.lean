/-
# Bodies of abridged runs

Types, default values, fields and arguments of an abridged run are what is left of those of the run,
and so are all items of a body.  A miss in the one is a miss in the other, and the tokens at which
reading goes on after a miss are never left out.

* `typedLine_onto`, `Abridgement.carries_field` : a line of a body;
* `Abridgement.fieldLines_part`, `argumentLines_part`, `elements_part` : all lines of a body.
-/
import SdlSchema.Proofs.Abridging.Declarations

namespace SdlSchema.Abridgement

variable (A : Abridgement) {run rest tail : Run} {token kept : Token}

/-! ## Types -/

/-- As many lists open in the abridged run as in the run. -/
theorem openLists_onto (hrun : run.AtToken) :
    (A.onto [] run).openLists = (run.openLists.1, A.onto [] run.openLists.2) := by
  fun_induction Run.openLists run with
  | case1 => rw [A.onto_nil (Run.stopsBefore_nil []), Run.openLists]
  | case2 token rest hopener depth left heq ih =>
    obtain ⟨kept, hkept⟩ := A.exists_kept (hrun token rfl)
    have hrest := A.skipInline_onto (Run.stopsBefore_nil rest)
    have hinner := ih (Run.atToken_skipInline rest)
    rw [A.onto_cons_some hkept, Run.openLists, isMark_eq hkept, if_pos hopener, hrest, hinner, heq]
  | case3 token rest hopener =>
    obtain ⟨kept, hkept⟩ := A.exists_kept (hrun token rfl)
    rw [A.onto_cons_some hkept, Run.openLists, isMark_eq hkept, if_neg hopener]

/-- An abridgement keeps the exclamation mark behind a type. -/
theorem skipNonNull_onto (run : Run) :
    (A.onto [] run).skipNonNull = A.onto [] run.skipNonNull := by
  have h := Run.stopsBefore_nil run
  unfold Run.skipNonNull
  rw [A.skipInline_onto h, A.take?_onto _ h.skipInline (Run.atToken_skipInline run)]
  cases run.skipInline.take? (.punctuation .bang) <;> rfl

/-- As many lists close in the abridged run as in the run. -/
theorem closeLists_onto (depth : Nat) (run : Run) :
    (A.onto [] run).closeLists depth = (run.closeLists depth).map (A.onto []) := by
  induction depth generalizing run with
  | zero => rfl
  | succ depth ih =>
    have h := Run.stopsBefore_nil run
    rw [Run.closeLists, Run.closeLists, A.skipInline_onto h,
      A.take?_onto _ h.skipInline (Run.atToken_skipInline run)]
    cases run.skipInline.take? (.punctuation .rightBracket) with
    | none => rfl
    | some rest =>
      simp only [Option.map_some]
      rw [A.skipNonNull_onto, ih]

theorem atToken_openLists (hrun : run.AtToken) : run.openLists.2.AtToken := by
  fun_induction Run.openLists run with
  | case1 => exact hrun
  | case2 token rest hopener depth left heq ih =>
    have h := ih (Run.atToken_skipInline rest)
    rwa [heq] at h
  | case3 token rest hopener => exact hrun

/-- The type that the abridged run begins with is what is left of the type of the run. -/
theorem typeReference?_onto (hrun : run.AtToken) :
    (A.onto [] run).typeReference?
      = run.typeReference?.map (Prod.map A.part (A.onto [])) := by
  unfold Run.typeReference?
  rw [A.openLists_onto hrun]
  have hinner := atToken_openLists hrun
  have hsuffix := Run.openLists_suffix run
  generalize run.openLists = opened at hinner hsuffix ⊢
  obtain ⟨depth, inner⟩ := opened
  simp only
  rw [A.name?_onto (Run.stopsBefore_nil inner) hinner]
  cases hname : inner.name? with
  | none => rfl
  | some found =>
    obtain ⟨name, rest⟩ := found
    simp only [Option.map_some, Prod.map]
    rw [A.skipNonNull_onto, A.closeLists_onto]
    cases hclose : rest.skipNonNull.closeLists depth with
    | none => rfl
    | some left =>
      have hleft : left <:+ run := (Run.closeLists_suffix hclose).trans
        ((Run.skipNonNull_suffix rest).trans ((Run.name?_left hname).suffix.trans hsuffix))
      simp only [Option.map_some]
      rw [A.upTo_onto hleft]
      rfl

theorem expectType_onto (hrun : run.AtToken) :
    (A.onto [] run).expectType = run.expectType.map (Prod.map A.part (A.onto [])) := by
  unfold Run.expectType
  rw [A.typeReference?_onto hrun]
  cases run.typeReference? <;> rfl

/-! ## Default values -/

variable {A} in
/-- An abridgement keeps which tokens end a value. -/
theorem endsValue_eq (h : A.token? token = some kept) : kept.endsValue = token.endsValue := by
  simp only [Token.endsValue, Token.closesBracket, isMark_eq h, isMarker_eq h, isNewline_eq h]

/-- What is left out neither ends a value nor opens or closes a bracket. -/
theorem skipValue_cons_none (h : A.token? token = none) (depth : Nat) :
    Run.skipValue depth (token :: tail) = Run.skipValue depth tail := by
  have hinline := A.isInlineTrivia_of_eq_none h
  obtain ⟨-, -, hmarker, hmark⟩ := Token.of_isTrivia (Token.isTrivia_of_isInlineTrivia hinline)
  have hnewline := Token.isNewline_of_isInlineTrivia hinline
  rw [Run.skipValue]
  simp [Token.endsValue, Token.opensBracket, Token.closesBracket, hmark, hmarker, hnewline]

/-- A default value of the abridged run ends where that of the run ends. -/
theorem skipValue_onto (depth : Nat) (run : Run) :
    (A.onto [] run).skipValue depth = A.onto [] (run.skipValue depth) := by
  induction run generalizing depth with
  | nil => rfl
  | cons token tail ih =>
    cases hkept : A.token? token with
    | none => rw [A.onto_cons_none hkept, A.skipValue_cons_none hkept, ih]
    | some kept =>
      have hopens : kept.opensBracket = token.opensBracket := by
        simp only [Token.opensBracket, isMark_eq hkept]
      have hcloses : kept.closesBracket = token.closesBracket := by
        simp only [Token.closesBracket, isMark_eq hkept]
      rw [A.onto_cons_some hkept, Run.skipValue, Run.skipValue, endsValue_eq hkept, hopens, hcloses,
        ih, ih, ih]
      split
      · exact (A.onto_cons_some hkept).symm
      · split
        · rfl
        · split <;> rfl

/-- Passing over a default value commutes with abridging. -/
theorem skipDefault_onto (hrun : run.AtToken) :
    (A.onto [] run).skipDefault = A.onto [] run.skipDefault := by
  unfold Run.skipDefault
  rw [A.take?_onto _ (Run.stopsBefore_nil run) hrun]
  cases run.take? (.punctuation .equals) with
  | none => rfl
  | some rest => exact A.skipValue_onto 0 rest

/-! ## Fields and arguments -/

theorem atItemEnd_onto (hrun : run.AtToken) : (A.onto [] run).atItemEnd = run.atItemEnd := by
  cases run with
  | nil => rfl
  | cons token tail =>
    obtain ⟨kept, hkept⟩ := A.exists_kept (hrun token rfl)
    rw [A.onto_cons_some hkept]
    simp only [Run.atItemEnd, isNewline_eq hkept, isMark_eq hkept]

/-- What is left of a type and the markers after it. -/
def typedLine (line : TypedLine) : TypedLine := ⟨A.part line.type, A.part line.markers⟩

/-- What is left of an argument. -/
def argumentLine (line : ArgumentLine) : ArgumentLine :=
  { line with toTypedLine := A.typedLine line.toTypedLine }

/-- What is left of a field. -/
def fieldLine (line : FieldLine) : FieldLine where
  toArgumentLine := A.argumentLine line.toArgumentLine
  arguments := line.arguments.map A.part

/-- The type and the markers read of the abridged run are what is left of those of the run. -/
theorem typedLine_onto (hrun : run.AtToken) :
    TypedLine.read (A.onto [] run)
      = (TypedLine.read run).map (Prod.map A.typedLine (A.onto [])) := by
  refine A.bind_expect_onto (Run.stopsBefore_nil run) hrun (by simp) (by simp)
    fun afterColon hafterColon => ?_
  rw [A.skipInline_onto hafterColon]
  refine bind_eq_map (A.expectType_onto (Run.atToken_skipInline afterColon)) ?_
  rintro ⟨type, afterType⟩ htype
  simp only [Prod.map]
  rw [A.skipInline_onto (Run.stopsBefore_nil afterType),
    A.skipDefault_onto (Run.atToken_skipInline afterType),
    A.acceptMarkers_onto skipsTrivia_isInlineTrivia (Run.stopsBefore_nil _)]
  simp only [A.skipInline_onto (Run.stopsBefore_nil _), A.atItemEnd_onto (Run.atToken_skipInline _)]
  split <;> rfl

/-- An argument of the abridged run is what is left of the argument of the run. -/
theorem carries_argument :
    A.Carries [] ArgumentLine.reader ArgumentLine.reader A.argumentLine := by
  intro run h hrun
  refine A.bind_expectName_onto h hrun fun name afterName hafterName => ?_
  simp only [A.skipInline_onto hafterName]
  refine bind_eq_map (A.typedLine_onto (Run.atToken_skipInline afterName)) ?_
  rintro ⟨line, afterLine⟩ hline
  rfl

/-- The arguments in parentheses of the abridged run are what is left of those of the run. -/
theorem readArguments_onto (hrun : run.AtToken) :
    FieldLine.readArguments (A.onto [] run)
      = (FieldLine.readArguments run).map (Prod.map (Option.map A.part) (A.onto [])) := by
  unfold FieldLine.readArguments
  rw [A.take?_onto _ (Run.stopsBefore_nil run) hrun]
  cases run.take? (.punctuation .leftParen) with
  | none => rfl
  | some inner =>
    simp only [Option.map_some]
    refine bind_eq_map (A.closeBracket_onto .paren (Or.inl rfl)) ?_
    rintro ⟨body, rest⟩ hclose
    simp only [Prod.map]
    rw [A.skipInline_onto (Run.stopsBefore_nil rest)]
    rfl

theorem atToken_readArguments {arguments : Option Run} (hrun : run.AtToken)
    (h : FieldLine.readArguments run = .ok (arguments, rest)) : rest.AtToken := by
  unfold FieldLine.readArguments at h
  split at h
  · obtain ⟨⟨body, afterClose⟩, -, h⟩ := bind_eq_ok.mp h
    cases h
    exact Run.atToken_skipInline afterClose
  · cases h
    exact hrun

/-- A field of the abridged run is what is left of the field of the run. -/
theorem carries_field : A.Carries [] FieldLine.reader FieldLine.reader A.fieldLine := by
  intro run h hrun
  refine A.bind_expectName_onto h hrun fun name afterName hafterName => ?_
  simp only [A.skipInline_onto hafterName]
  have hat := Run.atToken_skipInline afterName
  refine bind_eq_map (A.readArguments_onto hat) ?_
  rintro ⟨arguments, afterArguments⟩ harguments
  refine bind_eq_map (A.typedLine_onto (atToken_readArguments hat harguments)) ?_
  rintro ⟨line, afterLine⟩ hline
  rfl

/-! ## Item after item -/

/-- One step of reading a body. -/
theorem items_eq {α : Type} (reader : Reader α) (separates resumes : Token → Bool) (run : Run) :
    reader.items separates resumes run =
      match run.dropWhile separates with
      | [] => []
      | token :: tail =>
        match reader.read (token :: tail) with
        | .ok (value, rest) => value :: reader.items separates resumes rest
        | .error .exhausted => []
        | .error .noMatch =>
          reader.items separates resumes (tail.dropWhile fun token => !resumes token) := by
  rw [Reader.items, Reader.segments.eq_def]
  split
  · next hrun => rw [hrun]; rfl
  · next token tail hrun =>
    rw [hrun]
    dsimp only
    split
    · next value rest hread => rw [hread]; rfl
    · next hread => rw [hread]; rfl
    · next hread => rw [hread]; rfl

/-- A test that all which may be left out passes, and that looks at kinds alone. -/
structure PassesInline (pass : Token → Bool) : Prop where
  of_isInlineTrivia : ∀ {token}, token.isInlineTrivia = true → pass token = true
  congr : ∀ {token other : Token}, other.kind = token.kind → pass other = pass token

/-- Passing over trivia commutes with abridging. -/
theorem dropWhile_part {pass : Token → Bool} (hpass : PassesInline pass) (run : Run) :
    (A.part run).dropWhile pass = A.part (run.dropWhile pass) := by
  induction run with
  | nil => rfl
  | cons token tail ih =>
    cases hkept : A.token? token with
    | none =>
      rw [A.part_cons_none hkept, ih, List.dropWhile_cons_of_pos
        (hpass.of_isInlineTrivia (A.isInlineTrivia_of_eq_none hkept))]
    | some kept =>
      have hsame := hpass.congr (A.kind_eq hkept)
      rw [A.part_cons_some hkept]
      by_cases h : pass token = true
      · rw [List.dropWhile_cons_of_pos h, List.dropWhile_cons_of_pos (hsame.trans h), ih]
      · rw [List.dropWhile_cons_of_neg h, List.dropWhile_cons_of_neg (by rwa [hsame]),
          A.part_cons_some hkept]

/-- What is left of the items of a body are the items of what is left of the body. -/
theorem items_part {α : Type} {reader : Reader α} {tell : α → α}
    (hreader : A.Carries [] reader reader tell) {separates resumes : Token → Bool}
    (hseparates : PassesInline separates)
    (hresumes : ∀ run : Run, (A.part run).dropWhile (fun token => !resumes token)
      = A.part (run.dropWhile fun token => !resumes token)) (run : Run) :
    reader.items separates resumes (A.part run)
      = (reader.items separates resumes run).map tell := by
  induction hlength : run.length using Nat.strongRecOn generalizing run with
  | _ n ih =>
    rw [items_eq, items_eq, A.dropWhile_part hseparates]
    cases hrun : run.dropWhile separates with
    | nil => rfl
    | cons token tail =>
      have hle := (List.dropWhile_suffix separates (l := run)).length_le
      rw [hrun, List.length_cons] at hle
      -- an item begins at no separator, hence at a token that is not left out
      have hinline : token.isInlineTrivia = false := by
        have hstop : separates token = false := by
          simpa [hrun] using List.head?_dropWhile_not separates run
        cases hinline : token.isInlineTrivia with
        | false => rfl
        | true => rw [hseparates.of_isInlineTrivia hinline] at hstop; cases hstop
      obtain ⟨kept, hkept⟩ := A.exists_kept hinline
      have hread := hreader (Run.stopsBefore_nil (token :: tail)) fun first hfirst => by
        obtain rfl : token = first := Option.some.inj hfirst
        exact hinline
      rw [A.onto_nil_left, A.part_cons_some hkept] at hread
      rw [A.part_cons_some hkept]
      simp only [hread]
      cases hfound : reader.read (token :: tail) with
      | ok found =>
        obtain ⟨value, rest⟩ := found
        have hlt := (reader.left hfound).length_lt
        rw [List.length_cons] at hlt
        simp only [Except.map, Prod.map, A.onto_nil_left, List.map_cons]
        rw [ih _ (by omega) rest rfl]
      | error miss =>
        cases miss with
        | exhausted => rfl
        | noMatch =>
          -- after a miss both go on at the same token, which `hresumes` says is never left out
          have hlt := (List.dropWhile_suffix (fun token => !resumes token) (l := tail)).length_le
          simp only [Except.map]
          rw [hresumes, ih _ (by omega) _ rfl]

/-! ## Bodies -/

theorem passesInline_isSeparator : PassesInline Token.isSeparator where
  of_isInlineTrivia h := by
    rw [Token.isSeparator, Token.isTrivia_of_isInlineTrivia h, Bool.true_or]
  congr h := by
    simp only [Token.isSeparator, Token.isTrivia, Token.isMark, h]

theorem passesInline_not_newline : PassesInline fun token => !token.isNewline where
  of_isInlineTrivia h := by rw [Token.isNewline_of_isInlineTrivia h]; rfl
  congr h := by simp only [Token.isNewline, h]

theorem passesInline_not_argumentEnd :
    PassesInline fun token => !(token.isNewline || token.isMark .comma) where
  of_isInlineTrivia h := by
    have hmark := (Token.of_isTrivia (Token.isTrivia_of_isInlineTrivia h)).2.2.2 .comma
    rw [Token.isNewline_of_isInlineTrivia h, hmark]
    rfl
  congr h := by simp only [Token.isNewline, Token.isMark, h]

/-- The fields of an abridged body are what is left of the fields of the body. -/
theorem fieldLines_part (body : Run) :
    fieldLines (A.part body) = (fieldLines body).map (A.described A.fieldLine) :=
  A.items_part (A.carries_described A.carries_field) passesInline_isSeparator
    (A.dropWhile_part passesInline_not_newline) body

/-- The arguments of an abridged list are what is left of the arguments of the list. -/
theorem argumentLines_part (body : Run) :
    argumentLines (A.part body) = (argumentLines body).map (A.described A.argumentLine) :=
  A.items_part (A.carries_described A.carries_argument) passesInline_isSeparator
    (A.dropWhile_part passesInline_not_argumentEnd) body

/-- The elements of an abridged list are what is left of the elements of the list. -/
theorem elements_part (list : Run) : elements (A.part list) = (elements list).map A.element := by
  refine A.items_part A.carries_element passesInline_isSeparator (fun run => ?_) list
  -- after a miss reading goes on at the very next token
  have hnone : ∀ run : Run, run.dropWhile (fun _ => !true) = run := by
    intro run
    cases run <;> rfl
  rw [hnone, hnone]

end SdlSchema.Abridgement
