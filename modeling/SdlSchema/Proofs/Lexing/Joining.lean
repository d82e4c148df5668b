/-
# Texts joined by a line break

A line break between two texts is a token of its own, unless a block string goes across it.  So the
tokens of the joined text are those of the two, with the line break between them.

* `Run.tokenAt?` : the token that covers a character;
* `tokenize_join` : the tokens of two texts joined by a line break.
-/
import SdlSchema.Proofs.Lexing.Kinds
import SdlSchema.Proofs.Lexing.Relexing
import SdlSchema.Proofs.Lexing.Spelling

namespace SdlSchema

/-- The token that covers the character at a place. -/
def Run.tokenAt? : Nat → Run → Option Token
  | _, [] => none
  | place, token :: rest =>
    if place < token.text.length then some token else tokenAt? (place - token.text.length) rest

/-- Where a run has a character, a token covers it. -/
theorem Run.exists_tokenAt?_eq {place : Nat} {run : Run} {c : Char}
    (h : run.chars[place]? = some c) :
    ∃ (before : Run) (token : Token) (after : Run), run = before ++ token :: after ∧
      run.tokenAt? place = some token ∧ before.chars.length ≤ place ∧
        token.text[place - before.chars.length]? = some c := by
  induction run generalizing place with
  | nil => simp at h
  | cons token run ih =>
    rw [chars_cons] at h
    rw [tokenAt?]
    split
    · next hlt =>
      rw [List.getElem?_append_left hlt] at h
      exact ⟨[], token, run, rfl, rfl, Nat.zero_le _, h⟩
    · next hge =>
      rw [List.getElem?_append_right (by omega)] at h
      obtain ⟨before, found, after, hrun, hfound, hle, hchar⟩ := ih h
      refine ⟨token :: before, found, after, by rw [hrun, List.cons_append], hfound, ?_, ?_⟩
      · rw [chars_cons, List.length_append]
        omega
      · rw [chars_cons, List.length_append, ← Nat.sub_sub]
        exact hchar

/-- Two texts joined by a line break are cut into the tokens of the one, the line break, and the
tokens of the other, if no block string goes across the line break. -/
theorem tokenize_join {first second : List Char}
    (h : ∀ token ∈ (tokenize (first ++ '\n' :: second)).tokenAt? first.length,
      token.kind ≠ .blockString) :
    tokenize (first ++ '\n' :: second)
      = tokenize first ++ Token.lineBreak :: tokenize second := by
  have hchar : (tokenize (first ++ '\n' :: second)).chars[first.length]? = some '\n' := by
    rw [chars_tokenize, List.getElem?_append_right (Nat.le_refl _), Nat.sub_self]
    rfl
  obtain ⟨before, token, after, hsplit, htoken, hle, hnewline⟩ := Run.exists_tokenAt?_eq hchar
  have hmem : token ∈ tokenize (first ++ '\n' :: second) := by
    rw [hsplit]
    exact List.mem_append_right _ List.mem_cons_self
  -- the token that covers the line break is nothing but that
  have hbreak : token = Token.lineBreak := by
    rcases eq_lineBreak_or_blockString hmem (List.mem_of_getElem? hnewline) with heq | hblock
    · exact heq
    · exact absurd hblock (h token htoken)
  have hlength : before.chars.length = first.length := by
    rw [hbreak] at hnewline
    have hlt := (List.getElem?_eq_some_iff.mp hnewline).1
    simp only [Token.lineBreak, List.length_singleton] at hlt
    omega
  have hchars : before.chars ++ '\n' :: after.chars = first ++ '\n' :: second := by
    have hall := chars_tokenize (first ++ '\n' :: second)
    rw [hsplit, Run.chars_append, Run.chars_cons, hbreak] at hall
    exact hall
  obtain ⟨hfirst, hsecond⟩ := List.append_inj hchars hlength
  have hbefore : tokenize first = before := by
    rw [← hfirst]
    exact tokenize_chars_of_prefix ⟨token :: after, hsplit.symm⟩
  have hafter : tokenize second = after := by
    rw [← (List.cons.inj hsecond).2]
    exact tokenize_chars_of_suffix ⟨before ++ [token], by rw [hsplit]; simp⟩
  rw [hbefore, hafter, ← hbreak]
  exact hsplit

end SdlSchema
