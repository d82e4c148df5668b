/-
# Texts without comments

A comment ends with its line, so the line break is still there when the comment is taken out, and
what stood in front of the comment ends at it.  Only a block string could go on behind the line
break, but then it would have done so across the comment.  So taking comments out of a text takes
out their tokens and changes no other.

* `eq_nil_of_matches_block` : no word of a block string begins another;
* `firstToken_append_line` : text put in at the end of a line does not change the tokens in front;
* `tokenize_withoutComments` : the tokens of a text without its comments.
-/
import Mathlib.Data.List.Chain
import SdlSchema.Proofs.Lexing.Kinds
import SdlSchema.Proofs.Lexing.Relexing
import SdlSchema.Proofs.Lexing.Spelling

namespace SdlSchema

open Lexicon

/-! ## Words of block strings -/

/-- No word of the middle of a block string begins another. -/
theorem eq_nil_of_matches_block {pattern : Pattern}
    (hpattern : pattern ∈ [blockRest, blockRest₁, blockRest₂]) {word more : List Char}
    (hword : pattern.Matches word) (hmore : pattern.Matches (word ++ more)) : more = [] := by
  induction word generalizing pattern with
  | nil =>
    simp only [List.mem_cons, List.not_mem_nil, or_false] at hpattern
    rw [← Pattern.nullable_iff] at hword
    rcases hpattern with rfl | rfl | rfl <;> cases hword
  | cons c word ih =>
    rw [List.cons_append, ← Pattern.matches_after_iff] at hmore
    rw [← Pattern.matches_after_iff] at hword
    simp only [List.mem_cons, List.not_mem_nil, or_false] at hpattern
    by_cases hc : c = '"'
    · subst hc
      rcases hpattern with rfl | rfl | rfl
      · exact ih (by simp) (show blockRest₁.Matches word from hword) hmore
      · exact ih (by simp) (show blockRest₂.Matches word from hword) hmore
      · -- the third quotation mark was the last character
        have hend : blockRest₂.after '"' = .empty := rfl
        rw [hend, Pattern.matches_empty] at hword hmore
        rw [hword, List.nil_append] at hmore
        exact hmore
    · obtain ⟨h0, h1, h2⟩ := after_blockRest hc
      rcases hpattern with rfl | rfl | rfl
      · rw [h0] at hword hmore
        exact ih (by simp) hword hmore
      · rw [h1] at hword hmore
        exact ih (by simp) hword hmore
      · rw [h2] at hword hmore
        exact ih (by simp) hword hmore

/-- Where three quotation marks in a row are ahead, the middle of a block string ends. -/
theorem exists_matches_block {pattern : Pattern}
    (hpattern : pattern ∈ [blockRest, blockRest₁, blockRest₂]) (before after : List Char) :
    ∃ n ≤ before.length + 3, pattern.Matches ((before ++ '"' :: '"' :: '"' :: after).take n) := by
  induction before generalizing pattern with
  | nil =>
    simp only [List.mem_cons, List.not_mem_nil, or_false] at hpattern
    rcases hpattern with rfl | rfl | rfl
    · refine ⟨3, Nat.le_refl _, ?_⟩
      show blockRest.Matches ['"', '"', '"']
      rw [← Pattern.matches_after_iff, ← Pattern.matches_after_iff, ← Pattern.matches_after_iff]
      exact .empty
    · refine ⟨2, by simp, ?_⟩
      show blockRest₁.Matches ['"', '"']
      rw [← Pattern.matches_after_iff, ← Pattern.matches_after_iff]
      exact .empty
    · refine ⟨1, by simp, ?_⟩
      show blockRest₂.Matches ['"']
      rw [← Pattern.matches_after_iff]
      exact .empty
  | cons c before ih =>
    -- one character leads to another state of the middle, or to the end
    have hstep : ∀ next ∈ [blockRest, blockRest₁, blockRest₂], pattern.after c = next →
        ∃ n ≤ (c :: before).length + 3,
          pattern.Matches ((c :: before ++ '"' :: '"' :: '"' :: after).take n) := by
      intro next hnext hafter
      obtain ⟨n, hn, hmatches⟩ := ih hnext
      refine ⟨n + 1, by rw [List.length_cons]; omega, ?_⟩
      rw [List.cons_append, List.take_succ_cons, ← Pattern.matches_after_iff, hafter]
      exact hmatches
    simp only [List.mem_cons, List.not_mem_nil, or_false] at hpattern
    by_cases hc : c = '"'
    · subst hc
      rcases hpattern with rfl | rfl | rfl
      · exact hstep blockRest₁ (by simp) rfl
      · exact hstep blockRest₂ (by simp) rfl
      · refine ⟨1, by simp, ?_⟩
        show blockRest₂.Matches ['"']
        rw [← Pattern.matches_after_iff]
        exact .empty
    · obtain ⟨h0, h1, h2⟩ := after_blockRest hc
      rcases hpattern with rfl | rfl | rfl
      · exact hstep blockRest (by simp) h0
      · exact hstep blockRest (by simp) h1
      · exact hstep blockRest (by simp) h2

/-- The middle of a block string ends with three quotation marks. -/
theorem exists_eq_append_of_matches_block {word : List Char} (h : blockRest.Matches word) :
    ∃ middle, word = middle ++ ['"', '"', '"'] := by
  obtain ⟨middle, quotes, -, hquotes, rfl⟩ := (Pattern.matches_seq _ _ _).mp h
  rw [(matches_text _ _).mp hquotes]
  exact ⟨middle, rfl⟩

/-- A block string begins with three quotation marks. -/
theorem matches_blockString (word : List Char) :
    blockString.Matches word ↔
      ∃ rest, word = '"' :: '"' :: '"' :: rest ∧ blockRest.Matches rest := by
  have hseq : blockString = .seq (.text ['"', '"', '"']) blockRest := rfl
  rw [hseq, Pattern.matches_seq]
  constructor
  · rintro ⟨quotes, rest, hquotes, hrest, rfl⟩
    rw [(matches_text _ _).mp hquotes]
    exact ⟨rest, rfl, hrest⟩
  · rintro ⟨rest, rfl, hrest⟩
    exact ⟨_, rest, (matches_text _ _).mpr rfl, hrest, rfl⟩

/-! ## Text put in at the end of a line -/

/-- A first token is as long as any described word at the start of the text. -/
theorem le_firstToken_of_describes {c : Char} {text : List Char} {n : Nat}
    (hn : n ≤ text.length) (h : sdl.Describes (c :: text.take n)) : n ≤ (firstToken c text).2 := by
  rw [← describes_after_iff] at h
  unfold firstToken
  cases hlongest : (sdl.after c).longest text with
  | none => exact absurd h ((longest_eq_none_iff _ _).mp hlongest n)
  | some found =>
    obtain ⟨length, kind⟩ := found
    by_contra hlt
    exact (longest_eq_some hlongest).2.2 n (by simpa using hlt) hn h

/-- A first token that goes on behind a line break is a block string. -/
theorem exists_matches_of_length_lt {c : Char} {line rest : List Char}
    (h : line.length < (firstToken c (line ++ '\n' :: rest)).2) :
    ∃ n, blockString.Matches (c :: (line ++ '\n' :: rest.take n)) := by
  have hmem : ⟨(firstToken c (line ++ '\n' :: rest)).1, c :: (line ++ '\n' :: rest).take
      (firstToken c (line ++ '\n' :: rest)).2⟩ ∈ tokenize (c :: (line ++ '\n' :: rest)) := by
    rw [tokenize_cons]
    exact List.mem_cons_self
  obtain ⟨n, hn⟩ := Nat.exists_eq_add_of_lt h
  have htake : (line ++ '\n' :: rest).take (firstToken c (line ++ '\n' :: rest)).2
      = line ++ '\n' :: rest.take n := by
    rw [hn, Nat.add_assoc, List.take_length_add_append, List.take_succ_cons]
  rw [htake] at hmem
  refine ⟨n, ?_⟩
  rcases eq_lineBreak_or_blockString hmem (by simp) with hbreak | hblock
  · have hnil := (List.cons.inj (Token.mk.inj hbreak).2).2
    simp at hnil
  · obtain ⟨rule, hrule, hkind, hmatches⟩ := matches_of_firstToken hblock rfl (by simp) (by simp)
    rw [htake] at hmatches
    simp only [otherRules, List.mem_cons, List.not_mem_nil, or_false] at hrule
    rcases hrule with rfl | rfl | rfl | rfl | rfl | rfl | rfl | rfl | rfl <;> cases hkind
    exact hmatches

/-- A block string that goes on behind a line break begins in front of it with three quotation
marks and ends behind it with three. -/
theorem exists_quotes_of_matches {c : Char} {line behind : List Char}
    (h : blockString.Matches (c :: (line ++ '\n' :: behind))) :
    ∃ inner middle, c = '"' ∧ line = '"' :: '"' :: inner ∧ behind = middle ++ ['"', '"', '"'] ∧
      blockRest.Matches (inner ++ '\n' :: behind) := by
  obtain ⟨rest, hword, hrest⟩ := (matches_blockString _).mp h
  obtain ⟨rfl, hline⟩ := List.cons.inj hword
  cases line with
  | nil => simp at hline
  | cons first line =>
    obtain ⟨rfl, hinner⟩ := List.cons.inj hline
    cases line with
    | nil => simp at hinner
    | cons second inner =>
      obtain ⟨rfl, rfl⟩ := List.cons.inj hinner
      obtain ⟨middle, hmiddle⟩ := exists_eq_append_of_matches_block hrest
      -- the quotation marks at the end stand behind the line break, as it is none of them
      rcases List.append_eq_append_iff.mp hmiddle with ⟨between, -, hend⟩ | ⟨between, -, hend⟩
      · cases between with
        | nil => simp at hend
        | cons d between =>
          exact ⟨inner, between, rfl, rfl, (List.cons.inj hend).2, hrest⟩
      · have hmem : '\n' ∈ ['"', '"', '"'] := by
          rw [hend]
          simp
        simp at hmem

/-- A token that ends in front of a line break is the same without the text between it and the line
break. -/
theorem firstToken_append_line {c : Char} {line inserted rest : List Char}
    (h : (firstToken c (line ++ (inserted ++ '\n' :: rest))).2 ≤ line.length) :
    firstToken c (line ++ '\n' :: rest) = firstToken c (line ++ (inserted ++ '\n' :: rest)) := by
  have hline := firstToken_take h
  rw [List.take_left] at hline
  by_cases hle : (firstToken c (line ++ '\n' :: rest)).2 ≤ line.length
  · have hline' := firstToken_take hle
    rw [List.take_left] at hline'
    rw [← hline', hline]
  · -- a block string across the line break would also have gone across the inserted text
    exfalso
    obtain ⟨n, hmatches⟩ := exists_matches_of_length_lt (Nat.lt_of_not_le hle)
    obtain ⟨inner, middle, rfl, rfl, hbehind, hrest⟩ := exists_quotes_of_matches hmatches
    have hquotes : inner ++ (inserted ++ '\n' :: rest)
        = (inner ++ (inserted ++ '\n' :: middle)) ++ '"' :: '"' :: '"' :: rest.drop n := by
      conv => lhs; rw [← List.take_append_drop n rest, hbehind]
      simp
    obtain ⟨m, hm, hblock⟩ := exists_matches_block (List.mem_cons_self : blockRest ∈ _)
      (inner ++ (inserted ++ '\n' :: middle)) (rest.drop n)
    rw [← hquotes] at hblock
    have hdescribes : sdl.Describes ('"' :: ('"' :: '"' :: inner ++ (inserted ++ '\n' :: rest)).take
        (m + 2)) := by
      refine ⟨⟨.blockString, blockString⟩, by simp [sdl], ?_⟩
      exact (matches_blockString _).mpr ⟨_, rfl, hblock⟩
    have hlength := congrArg List.length hquotes
    simp only [List.length_append, List.length_cons] at hlength hm
    have hle' := le_firstToken_of_describes (by
      simp only [List.length_append, List.length_cons]
      omega) hdescribes
    have hinner : m ≤ inner.length := by
      simp only [List.length_cons] at h
      omega
    -- and it would have ended inside of the line
    rw [List.take_append_of_le_length hinner] at hblock
    have hsplit : inner ++ '\n' :: rest.take n
        = inner.take m ++ (inner.drop m ++ '\n' :: rest.take n) := by
      rw [← List.append_assoc, List.take_append_drop]
    rw [hsplit] at hrest
    have hnil := eq_nil_of_matches_block (by simp) hblock hrest
    simp at hnil

/-! ## Taking out the comments -/

/-- The tokens in front of the end of a line are the same without text put in there. -/
theorem tokenize_append_line {run more : Run} {inserted rest : List Char}
    (h : tokenize (run.chars ++ (inserted ++ '\n' :: rest)) = run ++ more) :
    tokenize (run.chars ++ '\n' :: rest) = run ++ tokenize ('\n' :: rest) := by
  induction run with
  | nil => rfl
  | cons token run ih =>
    obtain ⟨kind, text⟩ := token
    cases text with
    | nil =>
      have hmem : ⟨kind, []⟩ ∈ tokenize
          (Run.chars (⟨kind, []⟩ :: run) ++ (inserted ++ '\n' :: rest)) := by
        rw [h]
        exact List.mem_cons_self
      exact absurd rfl (text_ne_nil_of_mem_tokenize hmem)
    | cons c text =>
      -- with and without the inserted text, the first token has the same text to look at
      have hshape : ∀ behind : List Char, Run.chars (⟨kind, c :: text⟩ :: run) ++ behind
          = c :: (text ++ (Run.chars run ++ behind)) := by
        intro behind
        simp
      rw [hshape, tokenize_cons, List.cons_append] at h
      obtain ⟨hfirst, hrest⟩ := List.cons.inj h
      obtain ⟨hkind, htext⟩ := Token.mk.inj hfirst
      have htake := (List.cons.inj htext).2
      have hlength := congrArg List.length htake
      simp only [List.length_take, List.length_append, List.length_cons] at hlength
      have hlen : (firstToken c (text ++ (Run.chars run ++ (inserted ++ '\n' :: rest)))).2
          = text.length := by omega
      -- the token ends in front of the inserted text, so its length does not depend on that
      have hsame : firstToken c (text ++ (Run.chars run ++ '\n' :: rest))
          = firstToken c (text ++ (Run.chars run ++ (inserted ++ '\n' :: rest))) := by
        rw [← List.append_assoc, ← List.append_assoc]
        apply firstToken_append_line
        rw [List.append_assoc, hlen, List.length_append]
        exact Nat.le_add_right _ _
      rw [hlen, List.drop_left] at hrest
      rw [hshape, tokenize_cons, hsame, hlen, hkind, List.take_left, List.drop_left, ih hrest]
      rfl

/-- The run without its comments. -/
def Run.withoutComments (run : Run) : Run := run.filter fun token => token.kind != .comment

/-- The text without its comments.  The line break behind each of them stays. -/
def withoutComments (text : String) : String := (Run.ofString text).withoutComments.text

/-- A line break is nothing else. -/
theorem eq_lineBreak_of_kind {text : List Char} {token : Token} (h : token ∈ tokenize text)
    (hkind : token.kind = .newline) : token = Token.lineBreak := by
  obtain ⟨c, rest, rfl⟩ := exists_firstToken_of_mem h
  obtain ⟨rule, hmem, hrule, hmatches⟩ := matches_of_firstToken hkind rfl (by simp) (by simp)
  simp only [otherRules, List.mem_cons, List.not_mem_nil, or_false] at hmem
  rcases hmem with rfl | rfl | rfl | rfl | rfl | rfl | rfl | rfl | rfl <;> cases hrule
  obtain ⟨d, hd, hword⟩ := (Pattern.matches_one _ _).mp hmatches
  rw [beq_iff_eq] at hd
  exact congrArg₂ Token.mk hkind (by rw [hword, hd])

/-- Without one comment a text has the same tokens but for that comment. -/
theorem tokenize_without_comment {text : List Char} {before after : Run} {comment : Token}
    (h : tokenize text = before ++ comment :: after) (hcomment : comment.kind = .comment) :
    tokenize (before ++ after).chars = before ++ after := by
  cases after with
  | nil =>
    rw [List.append_nil]
    exact tokenize_chars_of_prefix ⟨[comment], h.symm⟩
  | cons next after =>
    -- the line ends behind the comment
    have hlines := commentsEndLines_tokenize text
    rw [h] at hlines
    have hnext : next = Token.lineBreak := by
      have hmem : next ∈ tokenize text := by
        rw [h]
        simp
      have hline := (List.isChain_cons_cons.mp (List.isChain_append.mp hlines).2.1).1
      exact eq_lineBreak_of_kind hmem (hline hcomment)
    have hbehind : tokenize ('\n' :: Run.chars after) = Token.lineBreak :: after := by
      have hsuffix : next :: after <:+ tokenize text :=
        ⟨before ++ [comment], by rw [h]; simp⟩
      have := tokenize_chars_of_suffix hsuffix
      rwa [hnext] at this
    have hjoined : tokenize (before.chars ++ (comment.text ++ '\n' :: Run.chars after))
        = before ++ (comment :: next :: after) := by
      rw [← h, ← chars_tokenize text, h, hnext]
      simp [Token.lineBreak]
    have hwithout := tokenize_append_line hjoined
    rw [hbehind] at hwithout
    rw [hnext, Run.chars_append]
    exact hwithout

/-- The tokens of a text without its comments are the others. -/
theorem tokenize_withoutComments (text : List Char) :
    tokenize (tokenize text).withoutComments.chars = (tokenize text).withoutComments := by
  -- induction on the number of tokens: the first comment is taken out, and fewer are left
  induction hlength : (tokenize text).length using Nat.strongRecOn generalizing text with
  | _ n ih =>
    by_cases hany : ∃ token ∈ tokenize text, token.kind = .comment
    · obtain ⟨comment, hmem, hcomment⟩ := hany
      obtain ⟨before, after, hsplit⟩ := List.append_of_mem hmem
      have hwithout := tokenize_without_comment hsplit hcomment
      have hsame : Run.withoutComments (before ++ after) = (tokenize text).withoutComments := by
        rw [hsplit, Run.withoutComments, Run.withoutComments, List.filter_append,
          List.filter_append, List.filter_cons_of_neg (by simp [hcomment])]
      have hrest := ih _ (by
        rw [← hlength, hsplit, hwithout]
        simp) (Run.chars (before ++ after)) rfl
      rw [hwithout, hsame] at hrest
      exact hrest
    · have hsame : (tokenize text).withoutComments = tokenize text := by
        rw [Run.withoutComments, List.filter_eq_self]
        intro token hmem
        have hne : token.kind ≠ .comment := fun hcomment => hany ⟨token, hmem, hcomment⟩
        simpa using hne
      rw [hsame, chars_tokenize]

end SdlSchema
