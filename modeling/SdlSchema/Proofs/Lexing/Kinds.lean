/-
# What the tokens of each kind are made of

A token is a word of the rule of its kind, unless no rule describes it.  So some characters stand in
tokens of few kinds only: line breaks in line breaks and block strings, and at the beginning of a
token blanks in trivia or text that no rule describes.

* `eq_lineBreak_or_blockString` : a token that holds a line break;
* `kind_of_allBlank` : a token that holds nothing but blanks;
* `isSpace_of_whitespace` : blanks inside a line are blanks.
-/
import Mathlib.Data.List.Chain
import Mathlib.Data.List.TakeWhile
import Mathlib.Tactic.IntervalCases
import SdlSchema.Text.Blank
import SdlSchema.Proofs.Lexing.Words

namespace SdlSchema

/-! ## Characters that a pattern has no place for -/

namespace Pattern

/-- Whether no class of the pattern holds the character. -/
def avoids (c : Char) : Pattern → Bool
  | .never => true
  | .empty => true
  | .one allowed => !allowed c
  | .seq p q => p.avoids c && q.avoids c
  | .either p q => p.avoids c && q.avoids c
  | .many p => p.avoids c

variable {c : Char}

theorem not_mem_of_avoids {p : Pattern} {word : List Char} (h : p.avoids c = true)
    (hword : p.Matches word) : c ∉ word := by
  induction hword with
  | empty => simp
  | @one allowed d hd =>
    rw [List.mem_singleton]
    rintro rfl
    simp [avoids, hd] at h
  | seq hs ht ihs iht =>
    rw [avoids, Bool.and_eq_true] at h
    rw [List.mem_append, not_or]
    exact ⟨ihs h.1, iht h.2⟩
  | left hs ih => rw [avoids, Bool.and_eq_true] at h; exact ih h.1
  | right hs ih => rw [avoids, Bool.and_eq_true] at h; exact ih h.2
  | many_nil => simp
  | many_append hs ht ihs iht =>
    rw [List.mem_append, not_or]
    exact ⟨ihs h, iht h⟩

theorem avoids_andThen {p q : Pattern} (hp : p.avoids c = true) (hq : q.avoids c = true) :
    (p.andThen q).avoids c = true := by
  cases p <;> simp_all [andThen, avoids]

theorem avoids_orElse {p q : Pattern} (hp : p.avoids c = true) (hq : q.avoids c = true) :
    (p.orElse q).avoids c = true := by
  cases p <;> cases q <;> simp_all [orElse, avoids]

/-- Following a character does not make room for another. -/
theorem avoids_after {p : Pattern} (h : p.avoids c = true) (d : Char) :
    (p.after d).avoids c = true := by
  induction p with
  | never => rfl
  | empty => rfl
  | one allowed => rw [after]; split <;> rfl
  | seq p q ihp ihq =>
    obtain ⟨hp, hq⟩ := Bool.and_eq_true_iff.mp h
    rw [after]
    split
    · exact avoids_orElse (avoids_andThen (ihp hp) hq) (ihq hq)
    · exact avoids_andThen (ihp hp) hq
  | either p q ihp ihq =>
    obtain ⟨hp, hq⟩ := Bool.and_eq_true_iff.mp h
    exact avoids_orElse (ihp hp) (ihq hq)
  | many p ihp => exact avoids_andThen (ihp h) h

theorem isLive_andThen (p q : Pattern) : (p.andThen q).isLive = (p.isLive && q.isLive) := by
  cases p <;> rfl

theorem isLive_orElse (p q : Pattern) : (p.orElse q).isLive = (p.isLive || q.isLive) := by
  cases p <;> cases q <;> simp [orElse, isLive]

/-- Nothing is left of a pattern behind a character that it has no place for. -/
theorem isLive_after_of_avoids {p : Pattern} (h : p.avoids c = true) :
    (p.after c).isLive = false := by
  induction p with
  | never => rfl
  | empty => rfl
  | one allowed =>
    have hc : allowed c = false := by simpa [avoids] using h
    simp [after, hc, isLive]
  | seq p q ihp ihq =>
    obtain ⟨hp, hq⟩ := Bool.and_eq_true_iff.mp h
    rw [after]
    split
    · rw [isLive_orElse, isLive_andThen, ihp hp, ihq hq, Bool.false_and, Bool.or_false]
    · rw [isLive_andThen, ihp hp, Bool.false_and]
  | either p q ihp ihq =>
    obtain ⟨hp, hq⟩ := Bool.and_eq_true_iff.mp h
    rw [after, isLive_orElse, ihp hp, ihq hq, Bool.or_false]
  | many p ihp => rw [after, isLive_andThen, ihp h, Bool.false_and]

end Pattern

namespace Lexicon

variable {κ : Type}

/-- What a rule describes behind a character, some rule describes with the character in front. -/
theorem exists_of_mem_after {rules : Lexicon κ} {rule : Rule κ} {c : Char}
    (h : rule ∈ rules.after c) :
    ∃ origin ∈ rules, origin.kind = rule.kind ∧ origin.pattern.after c = rule.pattern ∧
      (origin.pattern.after c).isLive = true := by
  obtain ⟨hmem, hlive⟩ := List.mem_filter.mp h
  obtain ⟨origin, horigin, rfl⟩ := List.mem_map.mp hmem
  exact ⟨origin, horigin, rfl, rfl, hlive⟩

/-- A word is described by the rule of its kind. -/
theorem exists_rule_of_isKind {rules : Lexicon κ} {word : List Char} {kind : κ}
    (h : rules.IsKind word kind) :
    ∃ rule ∈ rules, rule.kind = kind ∧ rule.pattern.Matches word := by
  induction rules with
  | nil => exact absurd h id
  | cons rule rules ih =>
    rcases h with ⟨hmatches, hkind⟩ | ⟨-, h⟩
    · exact ⟨rule, List.mem_cons_self, hkind, hmatches⟩
    · obtain ⟨found, hmem, hfound⟩ := ih h
      exact ⟨found, List.mem_cons_of_mem rule hmem, hfound⟩

/-- Rules that have no place for a character are not followed past it. -/
theorem not_mem_take_reach {rules : Lexicon κ} {c : Char}
    (h : ∀ rule ∈ rules, rule.pattern.avoids c = true) (text : List Char) :
    c ∉ text.take (rules.reach text) := by
  induction text generalizing rules with
  | nil => simp
  | cons d text ih =>
    have hafter : ∀ rule ∈ rules.after d, rule.pattern.avoids c = true := by
      intro rule hmem
      obtain ⟨origin, horigin, -, hpattern, -⟩ := exists_of_mem_after hmem
      rw [← hpattern]
      exact Pattern.avoids_after (h origin horigin) d
    rw [reach]
    cases hrules : rules.after d with
    | nil => simp
    | cons rule others =>
      rw [hrules] at hafter
      rw [List.take_succ_cons, List.mem_cons, not_or]
      refine ⟨?_, ih hafter⟩
      rintro rfl
      -- the rule that is left would have a place for the character
      obtain ⟨origin, horigin, -, -, hlive⟩ :=
        exists_of_mem_after (hrules ▸ List.mem_cons_self : rule ∈ rules.after c)
      rw [Pattern.isLive_after_of_avoids (h origin horigin)] at hlive
      cases hlive

end Lexicon

open Lexicon

/-! ## Tokens and rules -/

/-- A token of a text is the first token of what begins with it. -/
theorem exists_firstToken_of_mem {text : List Char} {token : Token} (h : token ∈ tokenize text) :
    ∃ c rest, token = ⟨(firstToken c rest).1, c :: rest.take (firstToken c rest).2⟩ := by
  induction hlength : text.length using Nat.strongRecOn generalizing text with
  | _ n ih =>
    cases text with
    | nil => rw [tokenize_nil] at h; simp at h
    | cons c text =>
      have hlt : (text.drop (firstToken c text).2).length < n := by
        rw [← hlength, List.length_drop, List.length_cons]
        omega
      rw [tokenize_cons, List.mem_cons] at h
      rcases h with rfl | h
      · exact ⟨c, text, rfl⟩
      · exact ih _ hlt h rfl

/-- A first token is a word of the rule of its kind, or no rule describes any beginning of the text.
-/
theorem firstToken_cases (c : Char) (text : List Char) :
    (∃ rule ∈ sdl, rule.kind = (firstToken c text).1 ∧
      rule.pattern.Matches (c :: text.take (firstToken c text).2)) ∨
    ((sdl.after c).longest text = none ∧
      firstToken c text = (.unknown, (sdl.after c).reach text)) := by
  unfold firstToken
  cases hlongest : (sdl.after c).longest text with
  | none => exact Or.inr ⟨rfl, rfl⟩
  | some found =>
    obtain ⟨length, kind⟩ := found
    have hkind := (isKind_after_iff _ _ _ _).mp (longest_eq_some hlongest).2.1
    exact Or.inl (exists_rule_of_isKind hkind)

/-! ## Line breaks -/

/-- Only line breaks and block strings have a place for a line break. -/
theorem kind_or_avoids_newline {rule : Rule Kind} (h : rule ∈ sdl) :
    rule = ⟨.newline, .char '\n'⟩ ∨ rule = ⟨.blockString, blockString⟩ ∨
      rule.pattern.avoids '\n' = true := by
  rw [sdl_eq, List.mem_append, List.mem_append] at h
  rcases h with h | h | h
  · obtain ⟨keyword, -, rfl⟩ := List.mem_map.mp h
    cases keyword <;> exact Or.inr (Or.inr rfl)
  · obtain ⟨mark, -, rfl⟩ := List.mem_map.mp h
    cases mark <;> exact Or.inr (Or.inr rfl)
  · simp only [otherRules, List.mem_cons, List.not_mem_nil, or_false] at h
    rcases h with rfl | rfl | rfl | rfl | rfl | rfl | rfl | rfl | rfl
    · exact Or.inr (Or.inr rfl)
    · exact Or.inl rfl
    · exact Or.inr (Or.inr rfl)
    · exact Or.inr (Or.inr rfl)
    · exact Or.inr (Or.inr rfl)
    · exact Or.inr (Or.inr rfl)
    · exact Or.inr (Or.inr rfl)
    · exact Or.inr (Or.inl rfl)
    · exact Or.inr (Or.inr rfl)

/-- Behind a character that begins no block string no rule has a place for a line break. -/
theorem avoids_of_mem_after {c : Char} (h : c ≠ '"') {rule : Rule Kind}
    (hmem : rule ∈ sdl.after c) : rule.pattern.avoids '\n' = true := by
  obtain ⟨origin, horigin, -, hpattern, hlive⟩ := exists_of_mem_after hmem
  rw [← hpattern]
  rcases kind_or_avoids_newline horigin with rfl | rfl | havoids
  · by_cases hc : c = '\n' <;> simp [Pattern.char, Pattern.after, hc, Pattern.avoids]
  · exfalso
    simp [blockString, Pattern.inOrder, Pattern.text, Pattern.char, Pattern.after, h,
      Pattern.nullable, Pattern.andThen, Pattern.isLive] at hlive
  · exact Pattern.avoids_after havoids c

/-- Text that no rule describes ends at the end of its line. -/
theorem not_mem_newline_of_longest_eq_none {c : Char} {text : List Char}
    (h : (sdl.after c).longest text = none) :
    '\n' ∉ c :: text.take ((sdl.after c).reach text) := by
  rw [List.mem_cons, not_or]
  constructor
  · rintro rfl
    have hafter : sdl.after '\n' = [⟨.newline, .empty⟩] := rfl
    rw [hafter, longest_end] at h
    cases h
  · by_cases hc : c = '"'
    · subst hc
      cases text with
      | nil => simp
      | cons d text =>
        -- two quotation marks are a string, so a block string has not begun
        have hd : d ≠ '"' := by
          rintro rfl
          refine (longest_eq_none_iff _ _).mp h 1 ?_
          rw [describes_after_iff]
          refine ⟨⟨.string, string⟩, by simp [sdl], ?_⟩
          show string.Matches ['"', '"']
          rw [← Pattern.matches_after_iff, ← Pattern.matches_after_iff, ← Pattern.nullable_iff]
          rfl
        have hdead : ∀ rule ∈ (sdl.after '"').after d, rule.pattern.avoids '\n' = true := by
          intro rule hmem
          obtain ⟨origin, horigin, -, hpattern, hlive⟩ := exists_of_mem_after hmem
          rw [← hpattern]
          rw [after_quote, List.mem_cons, List.mem_singleton] at horigin
          rcases horigin with rfl | rfl
          · exact Pattern.avoids_after rfl d
          · exfalso
            simp [Pattern.char, Pattern.after, hd, Pattern.nullable, Pattern.andThen,
              Pattern.isLive] at hlive
        rw [reach]
        cases hrules : (sdl.after '"').after d with
        | nil => simp
        | cons rule others =>
          rw [hrules] at hdead
          rw [List.take_succ_cons, List.mem_cons, not_or]
          refine ⟨?_, not_mem_take_reach hdead text⟩
          rintro rfl
          have hnone : (sdl.after '"').after '\n' = [] := rfl
          rw [hnone] at hrules
          cases hrules
    · exact not_mem_take_reach (fun rule hmem => avoids_of_mem_after hc hmem) text

/-- A token that holds a line break is one, or a block string. -/
theorem eq_lineBreak_or_blockString {text : List Char} {token : Token}
    (h : token ∈ tokenize text) (hnewline : '\n' ∈ token.text) :
    token = ⟨.newline, ['\n']⟩ ∨ token.kind = .blockString := by
  obtain ⟨c, rest, rfl⟩ := exists_firstToken_of_mem h
  rcases firstToken_cases c rest with ⟨rule, hmem, hkind, hmatches⟩ | ⟨hnone, hunknown⟩
  · rcases kind_or_avoids_newline hmem with rfl | rfl | havoids
    · obtain ⟨d, hd, hword⟩ := (Pattern.matches_one _ _).mp hmatches
      rw [beq_iff_eq] at hd
      exact Or.inl (by rw [← hkind, hword, hd])
    · exact Or.inr hkind.symm
    · exact absurd hnewline (Pattern.not_mem_of_avoids havoids hmatches)
  · rw [hunknown] at hnewline
    exact absurd hnewline (not_mem_newline_of_longest_eq_none hnone)

/-! ## Blanks -/

theorem mem_blanks {c : Char} (h : Text.isBlank c = true) :
    c ∈ ['\t', '\n', '\x0b', '\x0c', '\r', ' ', '\u0085', '\u00a0', '\u1680', '\u2000', '\u2001',
      '\u2002', '\u2003', '\u2004', '\u2005', '\u2006', '\u2007', '\u2008', '\u2009', '\u200a',
      '\u2028', '\u2029', '\u202f', '\u205f', '\u3000'] := by
  have hranges : (9 ≤ c.toNat ∧ c.toNat ≤ 13) ∨ (32 ≤ c.toNat ∧ c.toNat ≤ 32) ∨
      (133 ≤ c.toNat ∧ c.toNat ≤ 133) ∨ (160 ≤ c.toNat ∧ c.toNat ≤ 160) ∨
      (5760 ≤ c.toNat ∧ c.toNat ≤ 5760) ∨ (8192 ≤ c.toNat ∧ c.toNat ≤ 8202) ∨
      (8232 ≤ c.toNat ∧ c.toNat ≤ 8233) ∨ (8239 ≤ c.toNat ∧ c.toNat ≤ 8239) ∨
      (8287 ≤ c.toNat ∧ c.toNat ≤ 8287) ∨ (12288 ≤ c.toNat ∧ c.toNat ≤ 12288) := by
    simpa [Text.isBlank, Text.blankRanges] using h
  rw [← Char.ofNat_toNat c]
  rcases hranges with h | h | h | h | h | h | h | h | h | h <;> obtain ⟨hle, hge⟩ := h <;>
    interval_cases c.toNat <;> decide

/-- Only blanks inside a line and line breaks begin with a blank. -/
theorem kind_of_mem_after_blank {c : Char} (h : Text.isBlank c = true) {rule : Rule Kind}
    (hmem : rule ∈ sdl.after c) : rule.kind = .whitespace ∨ rule.kind = .newline := by
  have hall : (sdl.after c).all fun rule =>
      rule.kind == .whitespace || rule.kind == .newline := by
    have hc := mem_blanks h
    simp only [List.mem_cons, List.not_mem_nil, or_false] at hc
    rcases hc with rfl | rfl | rfl | rfl | rfl | rfl | rfl | rfl | rfl | rfl | rfl | rfl | rfl |
      rfl | rfl | rfl | rfl | rfl | rfl | rfl | rfl | rfl | rfl | rfl | rfl <;> rfl
  simpa using List.all_eq_true.mp hall rule hmem

/-- A token that begins with a blank is trivia, or text that no rule describes. -/
theorem kind_firstToken_of_isBlank {c : Char} (hc : Text.isBlank c = true) (rest : List Char) :
    (firstToken c rest).1 = .whitespace ∨ (firstToken c rest).1 = .newline ∨
      (firstToken c rest).1 = .unknown := by
  unfold firstToken
  cases hlongest : (sdl.after c).longest rest with
  | none => exact Or.inr (Or.inr rfl)
  | some found =>
    obtain ⟨length, kind⟩ := found
    obtain ⟨rule, hmem, hkind, -⟩ := exists_rule_of_isKind (longest_eq_some hlongest).2.1
    rw [← hkind]
    exact (kind_of_mem_after_blank hc hmem).imp_right Or.inl

/-- A token that holds nothing but blanks is trivia, or text that no rule describes. -/
theorem kind_of_allBlank {text : List Char} {token : Token} (h : token ∈ tokenize text)
    (hblank : Text.allBlank token.text = true) :
    token.kind = .whitespace ∨ token.kind = .newline ∨ token.kind = .unknown := by
  obtain ⟨c, rest, rfl⟩ := exists_firstToken_of_mem h
  exact kind_firstToken_of_isBlank (List.all_eq_true.mp hblank c List.mem_cons_self) rest

theorem isBlank_of_isSpace {c : Char} (h : isSpace c = true) : Text.isBlank c = true := by
  simp only [isSpace, Bool.or_eq_true, beq_iff_eq] at h
  rcases h with ((rfl | rfl) | rfl) | rfl <;> decide

/-- The words of kinds that are neither keywords nor marks are words of the other rules. -/
theorem matches_of_firstToken {c : Char} {text : List Char} {kind : Kind}
    (h : (firstToken c text).1 = kind) (hkeyword : kind.isKeyword = false)
    (hmark : ∀ mark, kind ≠ .punctuation mark) (hunknown : kind ≠ .unknown) :
    ∃ rule ∈ otherRules, rule.kind = kind ∧
      rule.pattern.Matches (c :: text.take (firstToken c text).2) := by
  rcases firstToken_cases c text with ⟨rule, hmem, hrule, hmatches⟩ | ⟨-, hnone⟩
  · rw [sdl_eq, List.mem_append, List.mem_append] at hmem
    rw [h] at hrule
    rcases hmem with hmem | hmem | hmem
    · obtain ⟨keyword, -, rfl⟩ := List.mem_map.mp hmem
      rw [← hrule] at hkeyword
      cases hkeyword
    · obtain ⟨mark, -, rfl⟩ := List.mem_map.mp hmem
      exact absurd hrule.symm (hmark mark)
    · exact ⟨rule, hmem, hrule, hmatches⟩
  · rw [hnone] at h
    exact absurd h.symm hunknown

/-- Blanks inside a line are blanks. -/
theorem isSpace_of_whitespace {text : List Char} {token : Token} (h : token ∈ tokenize text)
    (hkind : token.kind = .whitespace) : ∀ c ∈ token.text, isSpace c = true := by
  obtain ⟨c, rest, rfl⟩ := exists_firstToken_of_mem h
  obtain ⟨rule, hmem, hrule, hmatches⟩ := matches_of_firstToken hkind rfl (by simp) (by simp)
  simp only [otherRules, List.mem_cons, List.not_mem_nil, or_false] at hmem
  rcases hmem with rfl | rfl | rfl | rfl | rfl | rfl | rfl | rfl | rfl <;> cases hrule
  obtain ⟨first, others, hfirst, hothers, hword⟩ := (Pattern.matches_seq _ _ _).mp hmatches
  obtain ⟨d, hd, rfl⟩ := (Pattern.matches_one _ _).mp hfirst
  rw [hword]
  exact List.forall_mem_cons.mpr ⟨hd, (matches_many_one _ _).mp hothers⟩

/-! ## Comments -/

/-- A comment begins with its sign. -/
theorem eq_of_firstToken_comment {c : Char} {text : List Char}
    (h : (firstToken c text).1 = .comment) : c = '#' := by
  obtain ⟨rule, hmem, hrule, hmatches⟩ := matches_of_firstToken h rfl (by simp) (by simp)
  simp only [otherRules, List.mem_cons, List.not_mem_nil, or_false] at hmem
  rcases hmem with rfl | rfl | rfl | rfl | rfl | rfl | rfl | rfl | rfl <;> cases hrule
  obtain ⟨first, others, hfirst, -, hword⟩ := (Pattern.matches_seq _ _ _).mp hmatches
  obtain ⟨d, hd, rfl⟩ := (Pattern.matches_one _ _).mp hfirst
  rw [beq_iff_eq] at hd
  rw [← hd]
  exact (List.cons.inj hword).1

/-- Whether a character stands inside a line. -/
def inLine (c : Char) : Bool := c != '\n'

/-- A comment goes on to the end of its line. -/
theorem firstToken_comment (text : List Char) :
    firstToken '#' text = (.comment, (text.takeWhile inLine).length) := by
  have hafter : sdl.after '#' = [⟨.comment, .many (.one inLine)⟩] := rfl
  have hlongest : longest [⟨Kind.comment, .many (.one inLine)⟩]
        (text.takeWhile inLine ++ text.dropWhile inLine)
      = some ((text.takeWhile inLine).length, .comment) :=
    longest_many (fun _ hmem => List.mem_takeWhile_imp hmem)
      (fun _ hhead => by simpa [hhead] using List.head?_dropWhile_not inLine text)
  rw [List.takeWhile_append_dropWhile] at hlongest
  rw [firstToken, hafter, hlongest]

/-- Behind each comment the line ends. -/
def Run.CommentsEndLines (run : Run) : Prop :=
  run.IsChain fun token next => token.kind = .comment → next.kind = .newline

theorem Run.CommentsEndLines.of_isInfix {run part : Run} (h : run.CommentsEndLines)
    (hpart : part <:+: run) : part.CommentsEndLines :=
  List.IsChain.infix h hpart

theorem commentsEndLines_tokenize (text : List Char) : (tokenize text).CommentsEndLines := by
  induction hlength : text.length using Nat.strongRecOn generalizing text with
  | _ n ih =>
    cases text with
    | nil => rw [tokenize_nil]; exact List.IsChain.nil
    | cons c text =>
      have hlt : (text.drop (firstToken c text).2).length < n := by
        rw [← hlength, List.length_drop, List.length_cons]
        omega
      have hrest := ih _ hlt _ rfl
      rw [tokenize_cons]
      cases hdrop : text.drop (firstToken c text).2 with
      | nil => rw [tokenize_nil]; exact List.IsChain.singleton _
      | cons d rest =>
        rw [hdrop, tokenize_cons] at hrest
        rw [tokenize_cons]
        refine List.IsChain.cons_cons ?_ hrest
        intro hcomment
        -- what the comment leaves begins with the line break at which it ended
        obtain rfl := eq_of_firstToken_comment hcomment
        have hbehind : (text.takeWhile inLine ++ text.dropWhile inLine).drop
            (text.takeWhile inLine).length = text.dropWhile inLine := List.drop_left
        rw [List.takeWhile_append_dropWhile] at hbehind
        rw [firstToken_comment, hbehind] at hdrop
        have hd : inLine d = false := by
          simpa [hdrop] using List.head?_dropWhile_not inLine text
        have hnewline : d = '\n' := by simpa [inLine] using hd
        rw [hnewline, firstToken_newline]

end SdlSchema
