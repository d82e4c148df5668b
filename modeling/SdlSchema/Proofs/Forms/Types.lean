/-
# Forms of types

A type is a name, or a type in list brackets; either may be marked non-null.  By that grammar a type
is read by recursive descent, one call for each level of brackets.  The reader counts instead: the
opening brackets first, then the name, then as many closing brackets.  Counting agrees with descent,
since the bracket that is counted last belongs to the outermost level, which descent also closes
last.

* `TypeForm` : the words of the grammar, with blanks and comments between their tokens;
* `Run.afterType?` : reading by recursive descent;
* `Run.typeReference?_eq` : counting brackets is reading by recursive descent;
* `Run.typeReference?_form`, `TypeForm.typeReference?` : what is read is a word of the grammar, and
  where one stands, one is read that is at least as long.
-/
import SdlSchema.Proofs.Forms.Pieces
import SdlSchema.Reading.TypeReference

namespace SdlSchema

variable {run rest type mark : Run}

/-! ## The grammar -/

/-- The mark of a type that is not null, behind a gap, or nothing. -/
inductive NonNullForm : Run → Prop
  | absent : NonNullForm []
  | present {gap : Run} {bang : Token} (hgap : Gap Token.isInlineTrivia gap)
      (hbang : bang.isMark .bang = true) : NonNullForm (gap ++ [bang])

/-- A type: a name, or a type in list brackets, and perhaps the mark of what is not null.  Blanks
and comments may stand between the tokens, line breaks may not. -/
inductive TypeForm : Run → Prop
  | named {name : Token} {mark : Run} (hname : name.isName = true) (hmark : NonNullForm mark) :
      TypeForm (name :: mark)
  | list {opener closer : Token} {gap inner gap' mark : Run}
      (hopener : opener.isMark .leftBracket = true) (hgap : Gap Token.isInlineTrivia gap)
      (hinner : TypeForm inner) (hgap' : Gap Token.isInlineTrivia gap')
      (hcloser : closer.isMark .rightBracket = true) (hmark : NonNullForm mark) :
      TypeForm (opener :: (gap ++ (inner ++ (gap' ++ closer :: mark))))

/-- A type begins with a name or an opening bracket. -/
theorem TypeForm.begins (h : TypeForm type) : ∃ token others, type = token :: others ∧
    (token.isName = true ∨ token.isMark .leftBracket = true) := by
  cases h with
  | named hname _ => exact ⟨_, _, rfl, .inl hname⟩
  | list hopener _ _ _ _ _ => exact ⟨_, _, rfl, .inr hopener⟩

theorem TypeForm.begins_significant (h : TypeForm type) :
    ∃ token others, type = token :: others ∧ token.isTrivia = false := by
  obtain ⟨token, others, rfl, hname | hopener⟩ := h.begins
  · exact ⟨token, others, rfl, (Token.of_isName hname).1⟩
  · exact ⟨token, others, rfl, Token.isTrivia_of_isMark hopener⟩

/-- A token behind which there is perhaps a non-null mark is last, or the mark is. -/
theorem NonNullForm.exists_last (h : NonNullForm mark) (front : Run) (token : Token) :
    ∃ others last, front ++ token :: mark = others ++ [last] ∧
      (last = token ∨ last.isMark .bang = true) := by
  cases h with
  | absent => exact ⟨front, token, rfl, .inl rfl⟩
  | @present gap bang _ hbang => exact ⟨front ++ token :: gap, bang, by simp, .inr hbang⟩

/-- A type ends with a name, a closing bracket or a non-null mark. -/
theorem TypeForm.ends (h : TypeForm type) : ∃ others last, type = others ++ [last] ∧
    (last.isName = true ∨ last.isMark .rightBracket = true ∨ last.isMark .bang = true) := by
  cases h with
  | @named name mark hname hmark =>
    obtain ⟨others, last, heq, hlast⟩ := hmark.exists_last [] name
    refine ⟨others, last, heq, ?_⟩
    rcases hlast with rfl | hbang
    · exact .inl hname
    · exact .inr (.inr hbang)
  | @list opener closer gap inner gap' mark _ _ _ _ hcloser hmark =>
    obtain ⟨others, last, heq, hlast⟩ :=
      hmark.exists_last (opener :: (gap ++ (inner ++ gap'))) closer
    refine ⟨others, last, by rw [← heq]; simp, ?_⟩
    rcases hlast with rfl | hbang
    · exact .inr (.inl hcloser)
    · exact .inr (.inr hbang)

namespace Run

/-! ## Reading by recursive descent -/

/-- The run after a closing bracket and its optional non-null mark. -/
def closeList? (run : Run) : Option Run :=
  (run.skipInline.take? (.punctuation .rightBracket)).map skipNonNull

/-- The run after the type at the start, by recursive descent: behind an opening bracket a type is
read and then a closing bracket, and a non-null mark is taken wherever one follows. -/
def afterType? : Run → Option Run
  | [] => none
  | token :: rest =>
    if token.isMark .leftBracket then (afterType? (skipInline rest)).bind closeList?
    else if token.isName then some (skipNonNull rest)
    else none
  termination_by run => run.length
  decreasing_by
    have := (skipInline_suffix rest).length_le
    simp only [List.length_cons]
    omega

/-! ## Counting against descent -/

theorem closeLists_succ (depth : Nat) (run : Run) :
    run.closeLists (depth + 1) = run.closeList?.bind (closeLists depth) := by
  rw [closeLists, closeList?]
  cases run.skipInline.take? (.punctuation .rightBracket) <;> rfl

/-- Of the brackets that are counted, the last to be closed is the outermost. -/
theorem closeLists_succ_last (depth : Nat) (run : Run) :
    run.closeLists (depth + 1) = (run.closeLists depth).bind closeList? := by
  induction depth generalizing run with
  | zero =>
    rw [closeLists_succ]
    exact Option.bind_fun_some run.closeList?
  | succ depth ih =>
    rw [closeLists_succ, closeLists_succ depth run, Option.bind_assoc]
    exact Option.bind_congr fun left _ => ih left

/-- Counting the opening brackets, and closing as many behind the name, leaves what recursive
descent leaves. -/
theorem afterType?_eq (run : Run) : run.afterType?
    = run.openLists.2.name?.bind fun named => closeLists run.openLists.1 named.2.skipNonNull := by
  -- the induction is on the opening brackets; each adds one closer behind those of the inner type
  fun_induction openLists run with
  | case1 => rw [afterType?]; rfl
  | case2 token rest hopener depth left heq ih =>
    rw [heq] at ih
    rw [afterType?, if_pos hopener, ih, Option.bind_assoc]
    exact Option.bind_congr fun named _ => (closeLists_succ_last depth _).symm
  | case3 token rest hopener =>
    rw [afterType?, if_neg hopener, name?]
    cases token.isName <;> rfl

/-- A type is read by counting brackets as it is by recursive descent. -/
theorem typeReference?_eq (run : Run) :
    run.typeReference? = run.afterType?.map fun rest => (run.upTo rest, rest) := by
  rw [typeReference?, afterType?_eq]
  generalize run.openLists = opened
  obtain ⟨depth, inner⟩ := opened
  dsimp only
  cases inner.name? <;> rfl

/-! ## Descent against the grammar -/

theorem skipNonNull_form (run : Run) :
    ∃ mark, run = mark ++ run.skipNonNull ∧ NonNullForm mark := by
  unfold skipNonNull
  cases hbang : run.skipInline.take? (.punctuation .bang) with
  | none => exact ⟨[], rfl, .absent⟩
  | some rest =>
    obtain ⟨bang, hskip, hkind⟩ := take?_eq_some hbang
    obtain ⟨gap, hrun, hgap⟩ := Gap.exists_dropWhile Token.isInlineTrivia run
    refine ⟨gap ++ [bang], ?_, .present hgap (by simp [Token.isMark, hkind])⟩
    rw [List.append_assoc]
    exact hrun.trans (congrArg (gap ++ ·) hskip)

/-- What is left where recursive descent ends stands behind a type. -/
theorem afterType?_form (h : run.afterType? = some rest) :
    ∃ type, run = type ++ rest ∧ TypeForm type := by
  fun_induction afterType? run generalizing rest with
  | case1 => cases h
  | case2 token tail hopener ih =>
    obtain ⟨left, hinner, hclose⟩ := Option.bind_eq_some_iff.mp h
    obtain ⟨behind, htake, rfl⟩ := Option.map_eq_some_iff.mp hclose
    obtain ⟨closer, hskip, hkind⟩ := take?_eq_some htake
    obtain ⟨gap, htail, hgap⟩ := Gap.exists_dropWhile Token.isInlineTrivia tail
    obtain ⟨inner, hsplit, hform⟩ := ih hinner
    obtain ⟨gap', hleft, hgap'⟩ := Gap.exists_dropWhile Token.isInlineTrivia left
    obtain ⟨mark, hbehind, hmark⟩ := skipNonNull_form behind
    refine ⟨token :: (gap ++ (inner ++ (gap' ++ closer :: mark))), ?_,
      .list hopener hgap hform hgap' (by simp [Token.isMark, hkind]) hmark⟩
    calc token :: tail
        = token :: (gap ++ (inner ++ left)) := by rw [← hsplit]; exact congrArg _ htail
      _ = token :: (gap ++ (inner ++ (gap' ++ closer :: (mark ++ behind.skipNonNull)))) := by
        rw [← hbehind, ← hskip]
        exact congrArg (fun run => token :: (gap ++ (inner ++ run))) hleft
      _ = _ := by simp
  | case3 token tail hopener hname =>
    cases h
    obtain ⟨mark, htail, hmark⟩ := skipNonNull_form tail
    exact ⟨token :: mark, congrArg (token :: ·) htail, .named hname hmark⟩
  | case4 token tail hopener hname => cases h

theorem skipNonNull_eq_self (h : run.skipInline.take? (.punctuation .bang) = none) :
    run.skipNonNull = run := by
  rw [skipNonNull, h]
  rfl

/-- In front of another mark there is no non-null mark. -/
theorem skipNonNull_gap {gap : Run} {token : Token} (hgap : Gap Token.isInlineTrivia gap)
    (htoken : token.isTrivia = false) (hbang : token.isMark .bang = false) :
    skipNonNull (gap ++ token :: rest) = gap ++ token :: rest := by
  apply skipNonNull_eq_self
  rw [hgap.skipInline htoken]
  exact take?_mark_eq_none hbang

end Run

/-- Behind the form of a non-null mark no other is taken, but one may be where there was none. -/
theorem NonNullForm.skipNonNull (h : NonNullForm mark) (rest : Run) :
    Run.skipNonNull (mark ++ rest) = rest ∨ Run.skipNonNull (mark ++ rest) = rest.skipNonNull := by
  cases h with
  | absent => exact .inr rfl
  | @present gap bang hgap hbang =>
    left
    rw [Run.skipNonNull, List.append_assoc, List.singleton_append,
      hgap.skipInline (Token.isTrivia_of_isMark hbang), Run.take?_of_isMark hbang]
    rfl

/-- Where a type stands, recursive descent ends behind it, or behind a non-null mark that follows
it. -/
theorem TypeForm.afterType? (h : TypeForm type) (rest : Run) :
    ∃ left, Run.afterType? (type ++ rest) = some left ∧
      (left = rest ∨ left = rest.skipNonNull) := by
  induction h generalizing rest with
  | @named name mark hname hmark =>
    have hopener : name.isMark .leftBracket = false := (Token.of_isName hname).2.2.2.2.2 _
    refine ⟨Run.skipNonNull (mark ++ rest), ?_, hmark.skipNonNull rest⟩
    rw [List.cons_append, Run.afterType?, hopener, if_neg Bool.false_ne_true, if_pos hname]
  | @list opener closer gap inner gap' mark hopener hgap hinner hgap' hcloser hmark ih =>
    have hbang : closer.isMark .bang = false := by
      have hkind : closer.kind = .punctuation .rightBracket := by simpa [Token.isMark] using hcloser
      simp [Token.isMark, hkind]
    -- the closing bracket keeps the inner type from taking a non-null mark
    obtain ⟨left, hafter, hleft⟩ := ih (gap' ++ closer :: (mark ++ rest))
    rw [Run.skipNonNull_gap hgap' (Token.isTrivia_of_isMark hcloser) hbang, or_self] at hleft
    obtain ⟨first, others, rfl, hfirst⟩ := hinner.begins_significant
    have hassoc : opener :: (gap ++ (first :: others ++ (gap' ++ closer :: mark))) ++ rest
        = opener :: (gap ++ first :: (others ++ (gap' ++ closer :: (mark ++ rest)))) := by simp
    refine ⟨Run.skipNonNull (mark ++ rest), ?_, hmark.skipNonNull rest⟩
    rw [hassoc, Run.afterType?, if_pos hopener, hgap.skipInline hfirst, ← List.cons_append, hafter,
      hleft, Option.bind_some, Run.closeList?, hgap'.skipInline (Token.isTrivia_of_isMark hcloser),
      Run.take?_of_isMark hcloser]
    rfl

/-! ## Types that are read -/

/-- What is read as a type is one, at the start of the run, and no longer one stands there. -/
theorem Run.typeReference?_form (h : run.typeReference? = some (type, rest)) :
    run = type ++ rest ∧ TypeForm type ∧
      ∀ other left, TypeForm other → run = other ++ left → other.length ≤ type.length := by
  rw [typeReference?_eq] at h
  obtain ⟨left, hafter, heq⟩ := Option.map_eq_some_iff.mp h
  cases heq
  obtain ⟨front, rfl, hform⟩ := afterType?_form hafter
  rw [upTo_append_left]
  refine ⟨rfl, hform, fun other behind hother hsplit => ?_⟩
  obtain ⟨left', hafter', hleft'⟩ := hother.afterType? behind
  rw [← hsplit, hafter] at hafter'
  have hsuffix : rest <:+ behind := by
    rw [Option.some.inj hafter']
    rcases hleft' with rfl | rfl
    · exact List.suffix_refl _
    · exact skipNonNull_suffix behind
  have hle := hsuffix.length_le
  have hlength := congrArg List.length hsplit
  simp only [List.length_append] at hlength
  omega

/-- Where a type stands, a type is read. -/
theorem Run.isSome_typeReference?_iff (run : Run) :
    run.typeReference?.isSome = true ↔ ∃ type rest, run = type ++ rest ∧ TypeForm type := by
  constructor
  · intro h
    obtain ⟨⟨type, rest⟩, hfound⟩ := Option.isSome_iff_exists.mp h
    obtain ⟨hsplit, hform, -⟩ := typeReference?_form hfound
    exact ⟨type, rest, hsplit, hform⟩
  · rintro ⟨type, rest, rfl, hform⟩
    obtain ⟨left, hafter, -⟩ := hform.afterType? rest
    rw [typeReference?_eq, hafter]
    rfl

theorem Run.expectType_form (h : run.expectType = .ok (type, rest)) :
    run = type ++ rest ∧ TypeForm type := by
  unfold expectType at h
  split at h
  · next hfound =>
    cases h
    obtain ⟨hsplit, hform, -⟩ := typeReference?_form hfound
    exact ⟨hsplit, hform⟩
  · cases h

/-- A type is read whole where no non-null mark follows it. -/
theorem TypeForm.expectType (h : TypeForm type)
    (hrest : rest.skipInline.take? (.punctuation .bang) = none) :
    Run.expectType (type ++ rest) = .ok (type, rest) := by
  obtain ⟨left, hafter, hleft⟩ := h.afterType? rest
  rw [Run.skipNonNull_eq_self hrest, or_self] at hleft
  rw [Run.expectType, Run.typeReference?_eq, hafter, hleft, Option.map_some, Run.upTo_append_left]

end SdlSchema
