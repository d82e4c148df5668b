/-
# Closers and blocks by positions

Behind an opener, tokens are taken up to the first one up to which there is one closer more than
openers.  It is the closer that a stack matches with the opener; and if the opener stays on the
stack, all tokens are taken, and the text is exhausted.  So a block is passed over up to the brace
that matches the one it opens with, or not at all.

* `Attempt.closer_of_isFirstCloser`, `Attempt.closer_of_not_closesOneMore` : what is taken;
* `Attempt.skipBlock_iff`, `Attempt.skipBlock_of_not_opener` : what is passed over;
* `closers_are_matched` : both against the stack, over any tokens and for any two kinds.
-/
import SdlSchema.Proofs.Cursor.Scans

namespace SdlSchema

open Walk

variable {source : Source} {opens closes : Kind} {start index : Nat} {lexeme : Lexeme}

namespace Walk

/-- A test sees the token at the position, if there is one. -/
theorem sees_eq_any (test : Token → Bool) (source : Source) (start : Nat) :
    sees test source start
      = .ok (source.lexemes[start]?.any fun lexeme => test lexeme.token, start) := rfl

/-- A token of the kind that is asked for is taken. -/
theorem eat_of_kind {kind : Kind} (h : source.lexemes[start]? = some lexeme)
    (hkind : lexeme.token.kind = kind) : eat kind source start = .ok (true, start + 1) := by
  refine bind_eq_ok.mpr ⟨_, sees_eq_any _ source start, ?_⟩
  rw [h, Option.any_some, hkind, beq_self_eq_true]
  rfl

/-- A token of another kind is left, and so is the end of the text. -/
theorem eat_of_forall_ne {kind : Kind}
    (h : ∀ lexeme ∈ source.lexemes[start]?, lexeme.token.kind ≠ kind) :
    eat kind source start = .ok (false, start) := by
  have hother : (source.lexemes[start]?.any fun lexeme => lexeme.token.kind == kind) = false := by
    rw [Option.any_eq_false]
    exact fun lexeme hmem => beq_eq_false_iff_ne.mpr (h lexeme hmem)
  refine bind_eq_ok.mpr ⟨_, sees_eq_any _ source start, ?_⟩
  rw [hother]
  rfl

end Walk

namespace Attempt

/-! ## Closers -/

/-- Takes the tokens up to the closer of an opener that was taken before, which has to be there. -/
def closer (opens closes : Kind) : Attempt Lexeme := do
  match ← Walk.closer opens closes with
  | none => throw .exhausted
  | some closed => pure closed

/-- Tokens are taken up to the first that has one closer more than openers up to it. -/
theorem closer_of_isFirstCloser (hne : opens ≠ closes) (hstart : start ≤ source.lexemes.length)
    (h : Run.IsFirstCloser opens closes 0 (source.run.drop start) index) :
    ∃ closed, source.lexemes[start + index]? = some closed ∧
      (closer opens closes).run source start = .ok (.ok closed, start + index + 1) := by
  obtain ⟨found, stop, hwalk, hfound⟩ := returns_closer opens closes hstart
  rw [(Run.closerIndex?_eq_some_iff hne).mpr h] at hfound
  obtain ⟨rfl, closed, rfl, hclosed⟩ := hfound
  exact ⟨closed, hclosed, bind_eq_ok.mpr ⟨_, bind_eq_ok.mpr ⟨_, hwalk, rfl⟩, rfl⟩⟩

/-- Without such a token all of them are taken, and the text is exhausted. -/
theorem closer_of_not_closesOneMore (hne : opens ≠ closes) (hstart : start ≤ source.lexemes.length)
    (h : ∀ index, ¬ Run.ClosesOneMore opens closes 0 (source.run.drop start) index) :
    (closer opens closes).run source start = .ok (.error .exhausted, source.lexemes.length) := by
  obtain ⟨found, stop, hwalk, hfound⟩ := returns_closer opens closes hstart
  rw [(Run.closerIndex?_eq_none_iff hne).mpr h] at hfound
  obtain ⟨rfl, rfl⟩ := hfound
  exact bind_eq_ok.mpr ⟨_, bind_eq_ok.mpr ⟨_, hwalk, rfl⟩, rfl⟩

/-! ## Blocks -/

/-- An opener is matched with the closer that counting finds behind it. -/
theorem mem_pairs_iff (bracket : Bracket) {place : Nat}
    (h : source.lexemes[start]? = some lexeme)
    (hopens : lexeme.token.isMark bracket.opener = true) :
    (start, place) ∈ Run.pairs bracket source.run ↔ ∃ index,
      Run.closerIndex? (.punctuation bracket.opener) (.punctuation bracket.closer) 0
        (source.run.drop (start + 1)) = some index ∧ place = start + 1 + index := by
  have hlength : (source.run.take start).length = start :=
    Source.length_take_run (Nat.le_of_lt (List.getElem?_eq_some_iff.mp h).1)
  have hsplit : source.run = source.run.take start
      ++ lexeme.token :: source.run.drop (start + 1) := by
    rw [← Source.drop_run h, List.take_append_drop]
  have hmatched := Run.mem_matched_iff (.punctuation bracket.closer) (source.run.take start)
    (source.run.drop (start + 1)) place (beq_iff_eq.mp hopens)
  rwa [hlength, ← hsplit, ← Run.pairs_eq_matched] at hmatched

/-- A block whose brace is matched is passed over, up to the match. -/
theorem skipBlock_of_mem_pairs {place : Nat} (h : source.lexemes[start]? = some lexeme)
    (hopens : lexeme.token.isMark .leftBrace = true)
    (hpair : (start, place) ∈ Run.pairs .brace source.run) :
    skipBlock source start = .ok (true, place + 1) := by
  obtain ⟨index, hindex, rfl⟩ := (mem_pairs_iff .brace h hopens).mp hpair
  have hlt := (List.getElem?_eq_some_iff.mp h).1
  obtain ⟨found, stop, hwalk, hfound⟩ := returns_closer (.punctuation Bracket.brace.opener)
    (.punctuation Bracket.brace.closer) (Nat.succ_le_of_lt hlt)
  rw [hindex] at hfound
  obtain ⟨rfl, closed, rfl, -⟩ := hfound
  exact bind_eq_ok.mpr ⟨_, position_eq _ _, bind_eq_ok.mpr ⟨_, eat_of_kind h (beq_iff_eq.mp hopens),
    bind_eq_ok.mpr ⟨_, hwalk, rfl⟩⟩⟩

/-- At a brace that is not matched the walk goes back to it and tells so. -/
theorem skipBlock_of_unmatched (h : Run.Unclosed .brace source.run start) :
    skipBlock source start = .ok (false, start) := by
  obtain ⟨⟨token, htoken, hopens⟩, hnone⟩ := h
  obtain ⟨lexeme, hlexeme, rfl⟩ : ∃ lexeme, source.lexemes[start]? = some lexeme
      ∧ lexeme.token = token := by
    rwa [Source.run, List.getElem?_map, Option.map_eq_some_iff] at htoken
  have hlt := (List.getElem?_eq_some_iff.mp hlexeme).1
  obtain ⟨found, stop, hwalk, hfound⟩ := returns_closer (.punctuation Bracket.brace.opener)
    (.punctuation Bracket.brace.closer) (Nat.succ_le_of_lt hlt)
  cases hindex : Run.closerIndex? (.punctuation Bracket.brace.opener)
      (.punctuation Bracket.brace.closer) 0 (source.run.drop (start + 1)) with
  | some index =>
    have hpair := (mem_pairs_iff .brace hlexeme hopens).mpr ⟨index, hindex, rfl⟩
    exact absurd rfl (hnone _ hpair)
  | none =>
    rw [hindex] at hfound
    obtain ⟨-, rfl⟩ := hfound
    exact bind_eq_ok.mpr ⟨_, position_eq _ _,
      bind_eq_ok.mpr ⟨_, eat_of_kind hlexeme (beq_iff_eq.mp hopens),
        bind_eq_ok.mpr ⟨_, hwalk, bind_eq_ok.mpr ⟨_, goTo_of_le (Nat.le_of_lt hlt) _, rfl⟩⟩⟩⟩

/-- A brace is matched and the walk goes past its match, or it is not and the walk stays. -/
theorem skipBlock_iff (h : source.lexemes[start]? = some lexeme)
    (hopens : lexeme.token.isMark .leftBrace = true) :
    (∀ place, skipBlock source start = .ok (true, place + 1)
      ↔ (start, place) ∈ Run.pairs .brace source.run) ∧
    (skipBlock source start = .ok (false, start) ↔ Run.Unclosed .brace source.run start) ∧
    ((∃ place, (start, place) ∈ Run.pairs .brace source.run)
      ∨ Run.Unclosed .brace source.run start) := by
  have hcases : (∃ place, (start, place) ∈ Run.pairs .brace source.run)
      ∨ Run.Unclosed .brace source.run start := by
    by_cases hpair : ∃ place, (start, place) ∈ Run.pairs .brace source.run
    · exact .inl hpair
    · refine .inr ⟨⟨lexeme.token, by rw [Source.run, List.getElem?_map, h]; rfl, hopens⟩, ?_⟩
      rintro ⟨opener, place⟩ hmem rfl
      exact hpair ⟨place, hmem⟩
  refine ⟨fun place => ⟨fun htrue => ?_, skipBlock_of_mem_pairs h hopens⟩,
    ⟨fun hfalse => ?_, skipBlock_of_unmatched⟩, hcases⟩
  · rcases hcases with ⟨place', hpair⟩ | hunclosed
    · rw [skipBlock_of_mem_pairs h hopens hpair] at htrue
      cases htrue
      exact hpair
    · rw [skipBlock_of_unmatched hunclosed] at htrue
      cases htrue
  · refine hcases.resolve_left ?_
    rintro ⟨place, hpair⟩
    rw [skipBlock_of_mem_pairs h hopens hpair] at hfalse
    cases hfalse

/-- Where no block begins the walk stays, and blocks are still believed to close. -/
theorem skipBlock_of_not_opener
    (h : ∀ lexeme ∈ source.lexemes[start]?, lexeme.token.isMark .leftBrace = false) :
    skipBlock source start = .ok (true, start) := by
  have heat : eat (.punctuation .leftBrace) source start = .ok (false, start) :=
    eat_of_forall_ne fun lexeme hmem => beq_eq_false_iff_ne.mp (h lexeme hmem)
  exact bind_eq_ok.mpr ⟨_, position_eq _ _, bind_eq_ok.mpr ⟨_, heat, rfl⟩⟩

end Attempt

/-! ## Against the stack -/

/-- Over any tokens, for any two kinds and from any position, the closer that is taken is the first
token up to which there is one closer more than openers, and the walk stands behind it; a stack
matches it with an opener right in front of the position, whatever stands in front of that.  If
there is no such token, and only then, the text is exhausted and the walk stands at its end.  In
particular a block is passed over up to the brace that matches its first, or if that brace is not
matched the walk stays where it is and tells so; and at any other token it stays and blocks are
still believed to close. -/
theorem closers_are_matched (source : Source) {opens closes : Kind} (hne : opens ≠ closes)
    {start : Nat} (hstart : start ≤ source.lexemes.length) :
    (∀ index, Run.IsFirstCloser opens closes 0 (source.run.drop start) index →
      ∃ closed, source.lexemes[start + index]? = some closed ∧ closed.token.kind = closes ∧
        (Attempt.closer opens closes).run source start = .ok (.ok closed, start + index + 1)) ∧
    ((Attempt.closer opens closes).run source start
        = .ok (.error .exhausted, source.lexemes.length) ↔
      ¬ ∃ index, Run.ClosesOneMore opens closes 0 (source.run.drop start) index) ∧
    (∀ opener : Token, opener.kind = opens → ∀ place,
      (start, place) ∈ Run.matched opens closes
          (source.run.take start ++ opener :: source.run.drop start) ↔
        ∃ index, Run.IsFirstCloser opens closes 0 (source.run.drop start) index ∧
          place = start + 1 + index) ∧
    (∀ bracket : Bracket, Walk.balanced bracket
        = Walk.closer (.punctuation bracket.opener) (.punctuation bracket.closer) ∧
      ∀ body rest, Run.balanced bracket 0 (source.run.drop start) = some (body, rest) ↔
        ∃ index, Run.IsFirstCloser (.punctuation bracket.opener) (.punctuation bracket.closer) 0
          (source.run.drop start) index ∧ body = (source.run.drop start).take index ∧
          rest = (source.run.drop start).drop (index + 1)) ∧
    (∀ opener, source.lexemes[start]? = some opener → opener.token.isMark .leftBrace = true →
      (∀ place, Attempt.skipBlock source start = .ok (true, place + 1) ↔
        (start, place) ∈ Run.pairs .brace source.run) ∧
      (Attempt.skipBlock source start = .ok (false, start) ↔
        Run.Unclosed .brace source.run start) ∧
      ((∃ place, (start, place) ∈ Run.pairs .brace source.run) ∨
        Run.Unclosed .brace source.run start)) ∧
    ((∀ token ∈ source.lexemes[start]?, token.token.isMark .leftBrace = false) →
      Attempt.skipBlock source start = .ok (true, start)) := by
  refine ⟨fun index hindex => ?_, ⟨fun h => ?_, fun h => ?_⟩, fun opener hopens place => ?_,
    fun bracket => ⟨Walk.balanced_eq_closer bracket, fun body rest => ?_⟩,
    fun _ => Attempt.skipBlock_iff, Attempt.skipBlock_of_not_opener⟩
  · obtain ⟨closed, hclosed, hwalk⟩ := Attempt.closer_of_isFirstCloser hne hstart hindex
    -- the kind of what is taken is that of the closer at this index
    obtain ⟨closer, hcloser, hkind⟩ :=
      Run.exists_getElem?_of_closerIndex? ((Run.closerIndex?_eq_some_iff hne).mpr hindex)
    rw [List.getElem?_drop, Source.run, List.getElem?_map, hclosed] at hcloser
    cases hcloser
    exact ⟨closed, hclosed, hkind, hwalk⟩
  · rintro ⟨index, hindex⟩
    -- were there such a token, the first of them would have been taken
    obtain ⟨first, hfirst⟩ := hindex.exists_isFirstCloser
    obtain ⟨closed, -, hwalk⟩ := Attempt.closer_of_isFirstCloser hne hstart hfirst
    rw [hwalk] at h
    cases h
  · exact Attempt.closer_of_not_closesOneMore hne hstart fun index hindex => h ⟨index, hindex⟩
  · -- against the stack, whatever stands in front of the opener
    have hmatched := Run.mem_matched_iff closes (source.run.take start) (source.run.drop start)
      place hopens
    rw [Source.length_take_run hstart] at hmatched
    simp only [Run.closerIndex?_eq_some_iff hne] at hmatched
    exact hmatched
  · have hkinds : Kind.punctuation bracket.opener ≠ .punctuation bracket.closer := by
      cases bracket <;> decide
    rw [Run.balanced_eq_map_closerIndex?, Option.map_eq_some_iff]
    simp only [Run.closerIndex?_eq_some_iff hkinds, Prod.mk.injEq, eq_comm]

/-- From the start the second closing parenthesis is taken, since the first closes an inner one; and
behind it the text is exhausted. -/
theorem closers_are_matched_parens :
    (∃ closed, (Source.of "a(b)c)(".toList).lexemes[5]? = some closed ∧
      closed.token.kind = .punctuation .rightParen ∧
      (Attempt.closer (.punctuation .leftParen) (.punctuation .rightParen)).run
        (Source.of "a(b)c)(".toList) 0 = .ok (.ok closed, 6)) ∧
    (Attempt.closer (.punctuation .leftParen) (.punctuation .rightParen)).run
      (Source.of "a(b)c)(".toList) 6
        = .ok (.error .exhausted, (Source.of "a(b)c)(".toList).lexemes.length) := by
  have hne : Kind.punctuation .leftParen ≠ .punctuation .rightParen := by decide
  have hlength : (Source.of "a(b)c)(".toList).lexemes.length = 7 := by decide +kernel
  constructor
  · have hfirst : Run.IsFirstCloser (.punctuation .leftParen) (.punctuation .rightParen) 0
        ((Source.of "a(b)c)(".toList).run.drop 0) 5 :=
      (Run.closerIndex?_eq_some_iff hne).mp (by decide +kernel)
    exact (closers_are_matched (Source.of "a(b)c)(".toList) hne (Nat.zero_le _)).1 5 hfirst
  · have hnone : ∀ index, ¬ Run.ClosesOneMore (.punctuation .leftParen) (.punctuation .rightParen) 0
        ((Source.of "a(b)c)(".toList).run.drop 6) index :=
      (Run.closerIndex?_eq_none_iff hne).mp (by decide +kernel)
    have hstart : 6 ≤ (Source.of "a(b)c)(".toList).lexemes.length := by
      rw [hlength]
      decide
    exact (closers_are_matched (Source.of "a(b)c)(".toList) hne hstart).2.1.mpr
      (not_exists.mpr hnone)

end SdlSchema
