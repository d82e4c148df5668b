/-
# Brackets that an item closes

Brackets of all three kinds are nested properly when each closer meets the innermost open bracket
and is of its kind.  An item closes, before it ends, each of its brackets that is closed properly
at all: its arguments are read up to the parenthesis that counting finds, its type closes as many
brackets as it opens, and its default value ends outside of brackets.

* `not_wellNested_of_overclosed` : a run that closes more than it opens begins no nested run;
* `ClosesOver` : what is read closes its brackets inside;
* `FieldLine.closesOver_reader`, `ArgumentLine.closesOver_reader` : fields and arguments do.
-/
import SdlSchema.Proofs.Scanning.Readers

namespace SdlSchema

/-! ## Nested brackets of all kinds -/

/-- The kinds of bracket. -/
def Bracket.all : List Bracket := [.brace, .square, .paren]

namespace Token

/-- The kind of bracket that the token opens. -/
def opened? (token : Token) : Option Bracket :=
  Bracket.all.find? fun bracket => token.isMark bracket.opener

/-- The kind of bracket that the token closes. -/
def closed? (token : Token) : Option Bracket :=
  Bracket.all.find? fun bracket => token.isMark bracket.closer

/-- A token opens a kind of bracket exactly if it is its opening mark. -/
theorem isMark_opener {token : Token} (bracket : Bracket) :
    token.isMark bracket.opener = true ↔ token.opened? = some bracket := by
  simp only [isMark, opened?, Bracket.all, List.find?, beq_iff_eq]
  cases bracket <;> simp only [Bracket.opener] <;> grind

/-- A token closes a kind of bracket exactly if it is its closing mark. -/
theorem isMark_closer {token : Token} (bracket : Bracket) :
    token.isMark bracket.closer = true ↔ token.closed? = some bracket := by
  simp only [isMark, closed?, Bracket.all, List.find?, beq_iff_eq]
  cases bracket <;> simp only [Bracket.closer] <;> grind

theorem opensBracket_eq (token : Token) : token.opensBracket = token.opened?.isSome := by
  simp only [opensBracket, opened?, Bracket.all, List.find?, Bracket.opener]
  cases token.isMark .leftBrace <;> cases token.isMark .leftBracket <;>
    cases token.isMark .leftParen <;> rfl

theorem closesBracket_eq (token : Token) : token.closesBracket = token.closed?.isSome := by
  simp only [closesBracket, closed?, Bracket.all, List.find?, Bracket.closer]
  cases token.isMark .rightBrace <;> cases token.isMark .rightBracket <;>
    cases token.isMark .rightParen <;> rfl

/-- No token both opens and closes. -/
theorem closed?_eq_none {token : Token} {bracket : Bracket} (h : token.opened? = some bracket) :
    token.closed? = none := by
  have hkind : token.kind = .punctuation bracket.opener := by
    simpa [isMark] using (isMark_opener bracket).mpr h
  cases bracket <;> simp [closed?, Bracket.all, isMark, hkind, Bracket.opener, Bracket.closer]

theorem opensBracket_of_isMark {token : Token} {bracket : Bracket}
    (h : token.isMark bracket.opener = true) : token.opensBracket = true := by
  rw [opensBracket_eq, (isMark_opener bracket).mp h, Option.isSome_some]

theorem opensBracket_of_isMark_closer {token : Token} {bracket : Bracket}
    (h : token.isMark bracket.closer = true) : token.opensBracket = false := by
  have hkind : token.kind = .punctuation bracket.closer := by simpa [isMark] using h
  cases bracket <;> simp [opensBracket, isMark, hkind, Bracket.closer]

/-- No token both opens a bracket and closes one. -/
theorem closesBracket_of_opensBracket {token : Token} (h : token.opensBracket = true) :
    token.closesBracket = false := by
  rw [opensBracket_eq, Option.isSome_iff_exists] at h
  obtain ⟨bracket, hopened⟩ := h
  rw [closesBracket_eq, closed?_eq_none hopened, Option.isSome_none]

end Token

namespace Run

/-- The kinds of bracket that are open behind a run, innermost first, when those given are open in
front of it; nothing if a closer does not meet its own kind. -/
def nest : List Bracket → Run → Option (List Bracket)
  | opened, [] => some opened
  | opened, token :: rest =>
    match token.opened?, token.closed? with
    | some bracket, _ => nest (bracket :: opened) rest
    | none, some bracket =>
      if opened.head? = some bracket then nest opened.tail rest else none
    | none, none => nest opened rest

/-- Each bracket of the run is closed in it, by a closer of its kind. -/
def WellNested (run : Run) : Prop := nest [] run = some []

instance (run : Run) : Decidable run.WellNested :=
  inferInstanceAs (Decidable (nest [] run = some []))

/-- The brackets that are open behind a run are carried into what follows it. -/
theorem nest_append (opened : List Bracket) (front rest : Run) :
    nest opened (front ++ rest) = (nest opened front).bind fun open_ => nest open_ rest := by
  induction front generalizing opened with
  | nil => rfl
  | cons token front ih =>
    rw [List.cons_append, nest, nest]
    split
    · exact ih _
    · split
      · exact ih _
      · rfl
    · exact ih _

/-! ## Counting brackets -/

/-- How often a run opens a kind of bracket. -/
def openers (bracket : Bracket) (run : Run) : Nat := run.countP (Token.isMark bracket.opener)

/-- How often a run closes a kind of bracket. -/
def closers (bracket : Bracket) (run : Run) : Nat := run.countP (Token.isMark bracket.closer)

variable {bracket : Bracket}

/-- One more token opens one more bracket, or none. -/
theorem openers_cons (token : Token) (run : Run) :
    openers bracket (token :: run)
      = openers bracket run + if token.isMark bracket.opener then 1 else 0 := List.countP_cons

theorem closers_cons (token : Token) (run : Run) :
    closers bracket (token :: run)
      = closers bracket run + if token.isMark bracket.closer then 1 else 0 := List.countP_cons

/-- What is open behind a run is what was open in front of it and what the run opens, but for what
it closes. -/
theorem openers_add_count (bracket : Bracket) {opened left : List Bracket} {run : Run}
    (h : nest opened run = some left) :
    openers bracket run + opened.count bracket = closers bracket run + left.count bracket := by
  induction run generalizing opened with
  | nil => cases h; rfl
  | cons token run ih =>
    simp only [openers_cons, closers_cons, Token.isMark_opener, Token.isMark_closer]
    rw [nest] at h
    split at h
    · -- an opener goes on the stack
      next found closed hopened =>
      have hrest := ih h
      rw [List.count_cons] at hrest
      rw [hopened, Token.closed?_eq_none hopened]
      simp only [Option.some.injEq, beq_iff_eq, reduceCtorEq, if_false] at hrest ⊢
      omega
    · next found hopened hclosed =>
      split at h
      · -- a closer takes its own kind from the stack
        next hhead =>
        obtain ⟨outer, rfl⟩ := List.head?_eq_some_iff.mp hhead
        have hrest := ih h
        rw [List.tail_cons] at hrest
        rw [hopened, hclosed, List.count_cons]
        simp only [Option.some.injEq, beq_iff_eq, reduceCtorEq, if_false]
        omega
      · cases h
    · next hopened hclosed =>
      have hrest := ih h
      rw [hopened, hclosed]
      simp only [reduceCtorEq, if_false]
      omega

/-- Some kind of bracket is closed more often than it is opened. -/
def Overclosed (run : Run) : Prop := ∃ bracket, openers bracket run < closers bracket run

/-- A run that closes more than it opens begins no nested run. -/
theorem not_wellNested_of_overclosed {front : Run} (h : front.Overclosed) (rest : Run) :
    ¬ WellNested (front ++ rest) := by
  intro hnested
  obtain ⟨bracket, hlt⟩ := h
  rw [WellNested, nest_append, Option.bind_eq_some_iff] at hnested
  obtain ⟨left, hfront, -⟩ := hnested
  have hcount := openers_add_count bracket hfront
  rw [List.count_nil] at hcount
  omega

/-- The brackets that open are those of the three kinds together. -/
theorem countP_opensBracket (run : Run) :
    run.countP Token.opensBracket
      = openers .brace run + openers .square run + openers .paren run := by
  induction run with
  | nil => rfl
  | cons token run ih =>
    rw [List.countP_cons, ih, Token.opensBracket_eq]
    simp only [openers_cons, Token.isMark_opener]
    rcases token.opened? with - | bracket
    · simp
    · cases bracket <;> simp <;> omega

/-- The brackets that close are those of the three kinds together. -/
theorem countP_closesBracket (run : Run) :
    run.countP Token.closesBracket
      = closers .brace run + closers .square run + closers .paren run := by
  induction run with
  | nil => rfl
  | cons token run ih =>
    rw [List.countP_cons, ih, Token.closesBracket_eq]
    simp only [closers_cons, Token.isMark_closer]
    rcases token.closed? with - | bracket
    · simp
    · cases bracket <;> simp <;> omega

/-- What closes more than it opens, all kinds taken together, does so for one kind. -/
theorem overclosed_of_countP_lt {run : Run}
    (h : run.countP Token.opensBracket < run.countP Token.closesBracket) : run.Overclosed := by
  rw [countP_opensBracket, countP_closesBracket] at h
  by_contra hnone
  have hle : ∀ bracket, closers bracket run ≤ openers bracket run :=
    fun bracket => Nat.le_of_not_lt fun hlt => hnone ⟨bracket, hlt⟩
  have hbrace := hle .brace
  have hsquare := hle .square
  have hparen := hle .paren
  omega

/-! ## Runs that close inside what they open -/

/-- Behind each opener in the run more is closed than opened before the run ends. -/
def ClosesInside (run : Run) : Prop :=
  ∀ before opener behind, run = before ++ opener :: behind → opener.opensBracket = true →
    ∃ front : Run, front <+: behind ∧ front.Overclosed

namespace ClosesInside

variable {run other : Run}

/-- Where nothing opens, all that opens is closed inside. -/
theorem of_forall (h : ∀ token ∈ run, token.opensBracket = false) : ClosesInside run := by
  rintro before opener behind rfl hopener
  rw [h opener (by simp)] at hopener
  cases hopener

/-- Two runs that close inside what they open do so one behind the other. -/
theorem append (h : ClosesInside run) (hother : ClosesInside other) :
    ClosesInside (run ++ other) := by
  intro before opener behind hsplit hopener
  rcases List.append_eq_append_iff.mp hsplit with ⟨middle, rfl, rfl⟩ | ⟨middle, rfl, hmiddle⟩
  · exact hother middle opener behind rfl hopener
  · cases middle with
    | nil => exact hother [] opener behind (by simpa using hmiddle.symm) hopener
    | cons first middle =>
      obtain ⟨rfl, rfl⟩ := List.cons_eq_cons.mp hmiddle
      obtain ⟨front, hfront, hoverclosed⟩ := h before opener middle rfl hopener
      exact ⟨front, hfront.trans (List.prefix_append middle other), hoverclosed⟩

/-- Openers with as many closers behind them, and no further opener among these. -/
theorem of_countP_le (hclosing : ∀ token ∈ other, token.opensBracket = false)
    (hcount : run.countP Token.opensBracket ≤ other.countP Token.closesBracket) :
    ClosesInside (run ++ other) := by
  intro before opener behind hsplit hopener
  have hnot : opener ∉ other := fun hmem => by simp [hclosing opener hmem] at hopener
  rcases List.append_eq_append_iff.mp hsplit with ⟨middle, rfl, rfl⟩ | ⟨middle, rfl, hmiddle⟩
  · exact absurd (List.mem_append_right middle List.mem_cons_self) hnot
  · cases middle with
    | nil => exact absurd ((List.nil_append other).symm ▸ hmiddle ▸ List.mem_cons_self) hnot
    | cons first middle =>
      obtain ⟨rfl, rfl⟩ := List.cons_eq_cons.mp hmiddle
      have hnone : other.countP Token.opensBracket = 0 :=
        List.countP_eq_zero.mpr fun token hmem => by simp [hclosing token hmem]
      refine ⟨middle ++ other, List.prefix_refl _, overclosed_of_countP_lt ?_⟩
      rw [List.countP_append, List.countP_cons_of_pos hopener] at hcount
      rw [List.countP_append, List.countP_append, hnone]
      omega

/-- What no suffix of the run leaves open, the run closes inside. -/
theorem of_suffixes (h : ∀ behind : Run, behind <:+ run →
    behind.countP Token.opensBracket ≤ behind.countP Token.closesBracket) : ClosesInside run := by
  rintro before opener behind rfl hopener
  have hcount := h (opener :: behind) (List.suffix_append before _)
  rw [List.countP_cons_of_pos hopener,
    List.countP_cons_of_neg (by simp [Token.closesBracket_of_opensBracket hopener])] at hcount
  exact ⟨behind, List.prefix_refl _, overclosed_of_countP_lt (by omega)⟩

/-- A bracket with its closer, when no suffix of its body leaves one of its kind open. -/
theorem block {bracket : Bracket} {opener closer : Token} {body : Run}
    (hbody : ∀ behind, behind <:+ body → openers bracket behind ≤ closers bracket behind)
    (hcloser : closer.isMark bracket.closer = true) :
    ClosesInside (opener :: (body ++ [closer])) := by
  intro before first behind hsplit hfirst
  have hlast : ∃ inner, behind = inner ++ [closer] ∧ inner <:+ body := by
    cases before with
    | nil => exact ⟨body, (List.cons_eq_cons.mp hsplit).2.symm, List.suffix_refl _⟩
    | cons _ before =>
      have htail := (List.cons_eq_cons.mp hsplit).2
      rcases List.eq_nil_or_concat behind with rfl | ⟨inner, last, rfl⟩
      · -- the closer opens nothing
        obtain ⟨-, hsame⟩ := List.append_inj' htail rfl
        rw [← List.singleton_inj.mp hsame, Token.opensBracket_of_isMark_closer hcloser] at hfirst
        cases hfirst
      · have hconcat : body ++ [closer] = (before ++ first :: inner) ++ [last] := by
          simpa using htail
        obtain ⟨rfl, hsame⟩ := List.append_inj' hconcat rfl
        rw [List.singleton_inj.mp hsame]
        exact ⟨inner, List.concat_eq_append, before ++ [first], by simp⟩
  obtain ⟨inner, rfl, hinner⟩ := hlast
  have hle := hbody inner hinner
  have hopens : closer.isMark bracket.opener = false := not_opener_of_closer hcloser
  refine ⟨_, List.prefix_refl _, bracket, ?_⟩
  simp only [openers, closers, List.countP_append, List.countP_singleton, hcloser, hopens] at hle ⊢
  simp
  omega

end ClosesInside

end Run

/-! ## Tokens that open no bracket -/

namespace Token

variable {token : Token}

/-- A token of another kind than the three openers opens nothing. -/
theorem opensBracket_of_kind {kind : Kind} (hkind : token.kind = kind)
    (h : ∀ bracket : Bracket, kind ≠ .punctuation bracket.opener) : token.opensBracket = false := by
  have hbrace := h .brace
  have hsquare := h .square
  have hparen := h .paren
  simp only [Bracket.opener] at hbrace hsquare hparen
  simp [opensBracket, isMark, hkind, hbrace, hsquare, hparen]

/-- Trivia opens no bracket. -/
theorem opensBracket_of_isTrivia (h : token.isTrivia = true) : token.opensBracket = false := by
  unfold isTrivia at h
  cases hkind : token.kind <;> simp [hkind, Kind.isTrivia] at h <;>
    exact opensBracket_of_kind hkind fun bracket => by simp

theorem opensBracket_of_isInlineTrivia (h : token.isInlineTrivia = true) :
    token.opensBracket = false :=
  opensBracket_of_isTrivia (isTrivia_of_isInlineTrivia h)

/-- A name opens no bracket. -/
theorem opensBracket_of_isName (h : token.isName = true) : token.opensBracket = false := by
  simp [opensBracket, (of_isName h).2.2.2.2.2]

theorem opensBracket_of_isSeparator (h : token.isSeparator = true) :
    token.opensBracket = false := by
  rcases Bool.or_eq_true_iff.mp h with h | h
  · exact opensBracket_of_isTrivia h
  · have hcomma : token.kind = .punctuation .comma := by simpa [isMark] using h
    exact opensBracket_of_kind hcomma fun bracket => by cases bracket <;> decide

end Token

/-- That `rest` is what is left of `run` after tokens that open no bracket. -/
def OpensNone (rest run : Run) : Prop :=
  ∃ front, run = front ++ rest ∧ ∀ token ∈ front, token.opensBracket = false

namespace OpensNone

variable {rest middle run : Run}

theorem refl (run : Run) : OpensNone run run := ⟨[], rfl, List.forall_mem_nil _⟩

/-- Two stretches that open no bracket may be passed over one after the other. -/
theorem trans (h : OpensNone rest middle) (h' : OpensNone middle run) : OpensNone rest run := by
  obtain ⟨front, rfl, hfront⟩ := h
  obtain ⟨front', rfl, hfront'⟩ := h'
  exact ⟨front' ++ front, (List.append_assoc _ _ _).symm,
    List.forall_mem_append.mpr ⟨hfront', hfront⟩⟩

theorem cons {token : Token} (h : token.opensBracket = false) (rest : Run) :
    OpensNone rest (token :: rest) := ⟨[token], rfl, by simpa using h⟩

/-- What is passed over opens none, if all that is passed over does not. -/
theorem dropWhile {skip : Token → Bool}
    (h : ∀ token, skip token = true → token.opensBracket = false) (run : Run) :
    OpensNone (run.dropWhile skip) run :=
  ⟨run.takeWhile skip, List.takeWhile_append_dropWhile.symm,
    fun token hmem => h token (List.mem_takeWhile_imp hmem)⟩

theorem skipTrivia (run : Run) : OpensNone run.skipTrivia run :=
  dropWhile (fun _ => Token.opensBracket_of_isTrivia) run

theorem skipInline (run : Run) : OpensNone run.skipInline run :=
  dropWhile (fun _ => Token.opensBracket_of_isInlineTrivia) run

/-- A token taken by its kind opens none, if the kind is not that of an opener. -/
theorem take? {kind : Kind} (h : run.take? kind = some rest)
    (hkind : ∀ bracket : Bracket, kind ≠ .punctuation bracket.opener) : OpensNone rest run := by
  obtain ⟨token, rfl, htoken⟩ := Run.take?_eq_some h
  exact cons (Token.opensBracket_of_kind htoken hkind) rest

theorem expect {kind : Kind} (h : run.expect kind = .ok rest)
    (hkind : ∀ bracket : Bracket, kind ≠ .punctuation bracket.opener) : OpensNone rest run := by
  obtain ⟨token, rfl, htoken⟩ := Run.expect_eq_ok h
  exact cons (Token.opensBracket_of_kind htoken hkind) rest

/-- A required name opens no bracket. -/
theorem expectName {name : String} (h : run.expectName = .ok (name, rest)) :
    OpensNone rest run := by
  obtain ⟨token, rfl, htoken, -⟩ := Run.expectName_eq_ok h
  exact cons (Token.opensBracket_of_isName htoken) rest

/-- A description and the trivia behind it open no bracket. -/
theorem acceptDescription (run : Run) : OpensNone run.acceptDescription.2 run := by
  cases run with
  | nil => exact refl []
  | cons token rest =>
    rw [Run.acceptDescription]
    split
    · next h =>
      have htoken : token.opensBracket = false := by
        unfold Token.isDescription at h
        cases hkind : token.kind <;> simp [hkind, Kind.isDescription] at h <;>
          exact Token.opensBracket_of_kind hkind fun bracket => by simp
      exact (skipTrivia rest).trans (cons htoken rest)
    · exact skipTrivia _

/-- Markers and what stands between them open no bracket. -/
theorem afterMarkers {skip : Token → Bool}
    (hskip : ∀ token, skip token = true → token.opensBracket = false)
    (h : run.afterMarkers skip = some rest) : OpensNone rest run := by
  induction run generalizing rest with
  | nil => cases h
  | cons token run ih =>
    rw [Run.afterMarkers] at h
    split at h
    · next hmarker =>
      have htoken : OpensNone run (token :: run) :=
        cons (Token.opensBracket_of_kind (by simpa [Token.isMarker] using hmarker)
          fun bracket => by simp) run
      cases h
      cases hmore : Run.afterMarkers skip run with
      | none => exact htoken
      | some left => exact (ih hmore).trans htoken
    · split at h
      · next htoken => exact (ih h).trans (cons (hskip token htoken) run)
      · cases h

theorem acceptMarkers {skip : Token → Bool}
    (hskip : ∀ token, skip token = true → token.opensBracket = false) (run : Run) :
    OpensNone (run.acceptMarkers skip).2 run := by
  unfold Run.acceptMarkers
  split
  · next h => exact afterMarkers hskip h
  · exact refl run

theorem skipNonNull (run : Run) : OpensNone run.skipNonNull run := by
  unfold Run.skipNonNull
  cases hbang : run.skipInline.take? (.punctuation .bang) with
  | none => exact refl run
  | some rest =>
    exact (take? hbang fun bracket => by cases bracket <;> decide).trans
      (skipInline run)

end OpensNone

/-! ## Stretches that readers pass -/

namespace Run

variable {bracket : Bracket}

/-- Counting up to a closer, the body closes what was open, and no suffix of it leaves a bracket
open. -/
theorem closers_of_balanced {depth : Nat} {run body rest : Run}
    (h : run.balanced bracket depth = some (body, rest)) :
    closers bracket body = openers bracket body + depth ∧
      ∀ behind, behind <:+ body → openers bracket behind ≤ closers bracket behind := by
  induction run generalizing depth body with
  | nil => simp [balanced] at h
  | cons token run ih =>
    rw [balanced] at h
    split at h
    · next hclose =>
      cases h
      rw [hclose.2]
      refine ⟨rfl, fun behind hbehind => ?_⟩
      rw [List.suffix_nil.mp hbehind]
      exact Nat.le_refl 0
    · next hclose =>
      obtain ⟨⟨inner, left⟩, hinner, heq⟩ := Option.map_eq_some_iff.mp h
      cases heq
      obtain ⟨hcount, hsuffixes⟩ := ih hinner
      have htoken : closers bracket (token :: inner)
          = openers bracket (token :: inner) + depth := by
        rw [closers_cons, openers_cons, hcount]
        by_cases hopener : token.isMark bracket.opener = true
        · have hcloser := not_closer_of_opener hopener
          simp only [hopener, hcloser, if_true, Bool.false_eq_true, if_false]
          omega
        · by_cases hcloser : token.isMark bracket.closer = true
          · -- a closer that does not end the body closes a bracket of the body
            have hdepth : depth ≠ 0 := fun hzero => hclose ⟨hcloser, hzero⟩
            simp only [hopener, hcloser, if_true, Bool.false_eq_true, if_false]
            omega
          · simp [hopener, hcloser]
      refine ⟨htoken, fun behind hbehind => ?_⟩
      rcases List.suffix_cons_iff.mp hbehind with rfl | hbehind
      · omega
      · exact hsuffixes behind hbehind

/-- A default value that ends in front of a token closes the brackets that are open when it is
entered, and no suffix of it leaves a bracket open. -/
theorem closes_of_skipValue (depth : Nat) (run : Run) :
    ∃ front, run = front ++ run.skipValue depth ∧ (run.skipValue depth = [] ∨
      front.countP Token.closesBracket = front.countP Token.opensBracket + depth ∧
        ∀ behind, behind <:+ front →
          behind.countP Token.opensBracket ≤ behind.countP Token.closesBracket) := by
  induction run generalizing depth with
  | nil => exact ⟨[], rfl, Or.inl rfl⟩
  | cons token run ih =>
    -- one token more in front of what was passed from the next depth on
    have step : ∀ next, (if token.closesBracket then 1 else 0) + next
          = (if token.opensBracket then 1 else 0) + depth →
        ∃ front, token :: run = front ++ skipValue next run ∧ (skipValue next run = [] ∨
          front.countP Token.closesBracket = front.countP Token.opensBracket + depth ∧
            ∀ behind, behind <:+ front →
              behind.countP Token.opensBracket ≤ behind.countP Token.closesBracket) := by
      intro next hnext
      obtain ⟨front, hrun, hfront⟩ := ih next
      refine ⟨token :: front, by rw [List.cons_append, ← hrun], hfront.imp_right ?_⟩
      rintro ⟨hcount, hsuffixes⟩
      have htoken : (token :: front).countP Token.closesBracket
          = (token :: front).countP Token.opensBracket + depth := by
        rw [List.countP_cons, List.countP_cons]
        omega
      refine ⟨htoken, fun behind hbehind => ?_⟩
      rcases List.suffix_cons_iff.mp hbehind with rfl | hbehind
      · omega
      · exact hsuffixes behind hbehind
    rw [skipValue]
    split
    · next hend =>
      rw [hend.1]
      refine ⟨[], rfl, Or.inr ⟨rfl, fun behind hbehind => ?_⟩⟩
      rw [List.suffix_nil.mp hbehind]
      exact Nat.le_refl 0
    · next hend =>
      split
      · next hopens =>
        refine step (depth + 1) ?_
        simp only [hopens, Token.closesBracket_of_opensBracket hopens, if_true, Bool.false_eq_true,
          if_false]
        omega
      · next hopens =>
        split
        · next hcloses =>
          have hdepth : depth ≠ 0 := fun hzero => hend ⟨hzero, by simp [Token.endsValue, hcloses]⟩
          refine step (depth - 1) ?_
          simp only [hopens, hcloses, if_true, Bool.false_eq_true, if_false]
          omega
        · next hcloses => exact step depth (by simp [hopens, hcloses])

/-- As many brackets are opened in front of the name of a type as are counted. -/
theorem countP_openLists (run : Run) :
    ∃ front, run = front ++ run.openLists.2 ∧
      front.countP Token.opensBracket = run.openLists.1 := by
  fun_induction openLists run with
  | case1 => exact ⟨[], rfl, rfl⟩
  | case2 token rest hopener depth left heq ih =>
    obtain ⟨front, hfront, hcount⟩ := ih
    rw [heq] at hfront hcount
    obtain ⟨blanks, hrest, hblanks⟩ := OpensNone.skipInline rest
    refine ⟨token :: (blanks ++ front), ?_, ?_⟩
    · rw [List.cons_append, List.append_assoc, ← hfront, ← hrest]
    have hnone : blanks.countP Token.opensBracket = 0 :=
      List.countP_eq_zero.mpr fun blank hmem => by simp [hblanks blank hmem]
    rw [List.countP_cons_of_pos (by simp [Token.opensBracket, hopener]), List.countP_append, hnone,
      hcount, Nat.zero_add]
  | case3 token rest hopener => exact ⟨[], rfl, rfl⟩

/-- Behind the name of a type no bracket is opened, and as many are closed as have to be. -/
theorem countP_closeLists {depth : Nat} {run rest : Run} (h : run.closeLists depth = some rest) :
    ∃ front, run = front ++ rest ∧ (∀ token ∈ front, token.opensBracket = false) ∧
      depth ≤ front.countP Token.closesBracket := by
  induction depth generalizing run with
  | zero => cases h; exact ⟨[], rfl, List.forall_mem_nil _, Nat.le_refl 0⟩
  | succ depth ih =>
    rw [closeLists] at h
    split at h
    · next left hleft =>
      obtain ⟨front, hfront, hnone, hcount⟩ := ih h
      obtain ⟨closer, hcloser, hkind⟩ := take?_eq_some hleft
      obtain ⟨blanks, hblanks, hblank⟩ := OpensNone.skipInline run
      obtain ⟨bang, hbang, hbangs⟩ := OpensNone.skipNonNull left
      have hcloses : closer.closesBracket = true := by
        simp [Token.closesBracket, Token.isMark, hkind]
      refine ⟨blanks ++ closer :: (bang ++ front), ?_, ?_, ?_⟩
      · rw [List.append_assoc, List.cons_append, List.append_assoc, ← hfront, ← hbang, ← hcloser,
          ← hblanks]
      · have hopens : closer.opensBracket = false :=
          Token.opensBracket_of_kind hkind fun bracket => by cases bracket <;> decide
        simp only [List.forall_mem_append, List.forall_mem_cons]
        exact ⟨hblank, hopens, hbangs, hnone⟩
      · rw [List.countP_append, List.countP_cons_of_pos hcloses, List.countP_append]
        omega
    · cases h

end Run

/-! ## What readers leave -/

/-- That `rest` is what is left of `run` after tokens that close inside what they open; or nothing
is left. -/
def ClosesOver (rest run : Run) : Prop :=
  ∃ front : Run, run = front ++ rest ∧ (rest = [] ∨ front.ClosesInside)

/-- Where nothing was opened, nothing is left to be closed. -/
theorem OpensNone.closesOver {rest run : Run} (h : OpensNone rest run) : ClosesOver rest run := by
  obtain ⟨front, hrun, hfront⟩ := h
  exact ⟨front, hrun, Or.inr (.of_forall hfront)⟩

namespace ClosesOver

variable {rest middle run : Run}

theorem trans (h : ClosesOver rest middle) (h' : ClosesOver middle run) : ClosesOver rest run := by
  obtain ⟨front, rfl, hfront⟩ := h
  obtain ⟨front', rfl, hfront'⟩ := h'
  refine ⟨front' ++ front, (List.append_assoc _ _ _).symm, ?_⟩
  rcases hfront with hnil | hfront
  · exact Or.inl hnil
  rcases hfront' with hnil | hfront'
  · exact Or.inl (List.append_eq_nil_iff.mp hnil).2
  · exact Or.inr (hfront'.append hfront)

/-- A bracket is read up to the closer that counting finds. -/
theorem closeBracket {bracket : Bracket} {opener : Token} {body : Run}
    (h : run.closeBracket bracket = .ok (body, rest)) : ClosesOver rest (opener :: run) := by
  have hbalanced := Run.closeBracket_eq_ok h
  obtain ⟨closer, hcloser, rfl⟩ := Run.balanced_eq hbalanced
  exact ⟨opener :: (body ++ [closer]), by simp,
    Or.inr (.block (Run.closers_of_balanced hbalanced).2 hcloser)⟩

/-- A default value ends outside of brackets, or with the text. -/
theorem skipDefault (run : Run) : ClosesOver run.skipDefault run := by
  unfold Run.skipDefault
  split
  · next inner hequals =>
    obtain ⟨front, hinner, hfront⟩ := Run.closes_of_skipValue 0 inner
    have hskip : ClosesOver (inner.skipValue 0) inner :=
      ⟨front, hinner, hfront.imp_right fun hfront => .of_suffixes hfront.2⟩
    exact hskip.trans (OpensNone.take? hequals
      fun bracket => by cases bracket <;> decide).closesOver
  · exact (OpensNone.refl run).closesOver

/-- A type closes what it opens. -/
theorem expectType {type : Run} (h : run.expectType = .ok (type, rest)) : ClosesOver rest run := by
  obtain ⟨lists, hrun, hlists⟩ := Run.countP_openLists run
  unfold Run.expectType at h
  split at h
  · next hfound =>
    cases h
    unfold Run.typeReference? at hfound
    revert hfound hrun hlists
    generalize run.openLists = opened
    obtain ⟨depth, inner⟩ := opened
    intro hrun hlists hfound
    dsimp only at hrun hlists hfound
    split at hfound
    · next name afterName hname =>
      obtain ⟨after, hclose, heq⟩ := Option.map_eq_some_iff.mp hfound
      cases heq
      obtain ⟨closing, hafterName, hnone, hcount⟩ := Run.countP_closeLists hclose
      obtain ⟨bang, hbang, hbangs⟩ := OpensNone.skipNonNull afterName
      obtain ⟨word, hword, hwords⟩ := OpensNone.expectName
        (show inner.expectName = .ok (name, afterName) by rw [Run.expectName, hname])
      refine ⟨lists ++ (word ++ (bang ++ closing)), ?_, Or.inr (.of_countP_le ?_ ?_)⟩
      · rw [List.append_assoc, List.append_assoc, List.append_assoc, ← hafterName, ← hbang, ← hword,
          ← hrun]
      · simp only [List.forall_mem_append]
        exact ⟨hwords, hbangs, hnone⟩
      · rw [hlists, List.countP_append, List.countP_append]
        omega
    · cases hfound
  · cases h

end ClosesOver

/-! ## Fields and arguments -/

/-- A type with its default value and markers closes all that it opens, or the text ends. -/
theorem TypedLine.closesOver_read {run rest : Run} {line : TypedLine}
    (h : TypedLine.read run = .ok (line, rest)) : ClosesOver rest run := by
  obtain ⟨afterColon, hcolon, h⟩ := bind_eq_ok.mp h
  obtain ⟨⟨type, afterType⟩, htype, h⟩ := bind_eq_ok.mp h
  dsimp only at h
  split at h
  · cases h
    have hstart : OpensNone afterColon.skipInline run := (OpensNone.skipInline afterColon).trans
      (.expect hcolon fun bracket => by cases bracket <;> decide)
    have hend : ∀ run : Run, OpensNone (run.acceptMarkers Token.isInlineTrivia).2.skipInline run :=
      fun run => (OpensNone.skipInline _).trans
        (.acceptMarkers (fun _ => Token.opensBracket_of_isInlineTrivia) run)
    exact (hend _).closesOver.trans <| (ClosesOver.skipDefault _).trans <|
      (OpensNone.skipInline afterType).closesOver.trans <|
      (ClosesOver.expectType htype).trans hstart.closesOver
  · cases h

theorem ArgumentLine.closesOver_reader {run rest : Run} {argument : ArgumentLine}
    (h : ArgumentLine.reader.read run = .ok (argument, rest)) : ClosesOver rest run := by
  obtain ⟨⟨name, afterName⟩, hname, h⟩ := bind_eq_ok.mp h
  obtain ⟨⟨line, afterLine⟩, hline, h⟩ := bind_eq_ok.mp h
  cases h
  exact (TypedLine.closesOver_read hline).trans
    ((OpensNone.skipInline afterName).trans (.expectName hname)).closesOver

/-- Arguments in parentheses close all that they open. -/
theorem FieldLine.closesOver_readArguments {run rest : Run} {arguments : Option Run}
    (h : FieldLine.readArguments run = .ok (arguments, rest)) : ClosesOver rest run := by
  unfold FieldLine.readArguments at h
  split at h
  · next inner hopen =>
    obtain ⟨⟨body, afterClose⟩, hclose, h⟩ := bind_eq_ok.mp h
    cases h
    obtain ⟨opener, rfl, -⟩ := Run.take?_eq_some hopen
    exact (OpensNone.skipInline afterClose).closesOver.trans (ClosesOver.closeBracket hclose)
  · cases h
    exact (OpensNone.refl run).closesOver

/-- A field closes all that it opens, or the text ends. -/
theorem FieldLine.closesOver_reader {run rest : Run} {field : FieldLine}
    (h : FieldLine.reader.read run = .ok (field, rest)) : ClosesOver rest run := by
  obtain ⟨⟨name, afterName⟩, hname, h⟩ := bind_eq_ok.mp h
  obtain ⟨⟨arguments, afterArguments⟩, harguments, h⟩ := bind_eq_ok.mp h
  obtain ⟨⟨line, afterLine⟩, hline, h⟩ := bind_eq_ok.mp h
  cases h
  exact (TypedLine.closesOver_read hline).trans <| (closesOver_readArguments harguments).trans
    ((OpensNone.skipInline afterName).trans (.expectName hname)).closesOver

end SdlSchema
