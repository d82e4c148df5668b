/-
# The longest word wins

What the rules say about a text is a matter of which words they describe, and the cut keeps to it:
each token is the longest word with which the text goes on, of the kind of the rule that describes
it.  Two rules describe the same word only where a keyword is also an identifier.  Where no word
begins, the token goes as far as a word could still come of it.

* `eq_or_keyword_of_matches` : rules that describe the same word;
* `IsMunch` : what a token is at the start of a text, by the words that the rules describe;
* `tokenize_isMunch` : every token of a text is just that.
-/
import Mathlib.Data.List.Nodup
import Mathlib.Order.Bounds.Basic
import SdlSchema.Proofs.Lexing.Comments
import SdlSchema.Proofs.Lexing.Lossless

namespace SdlSchema

/-! ## Rules that begin alike -/

/-- The kind that stands for all kinds whose words begin with the same characters. -/
def Kind.family : Kind → Kind
  | .keyword _ => .identifier
  | .float => .integer
  | .blockString => .string
  | kind => kind

/-- Kinds of one family are the same, or a keyword and an identifier, or two keywords, or two kinds
of number, or two kinds of string. -/
theorem Kind.family_eq {kind other : Kind} (h : kind.family = other.family) :
    kind = other ∨ kind.family = .identifier ∨
      (kind = .integer ∧ other = .float) ∨ (kind = .float ∧ other = .integer) ∨
      (kind = .string ∧ other = .blockString) ∨ (kind = .blockString ∧ other = .string) := by
  cases kind <;> cases other <;> simp_all [Kind.family]

namespace Lexicon

/-- The family of the kinds whose words begin with the character. -/
def family? (c : Char) : Option Kind :=
  if beginsName c then some .identifier
  else if c == '-' || c.isDigit then some .integer
  else if isSpace c then some .whitespace
  else if c == '\n' then some .newline
  else if c == '#' then some .comment
  else if c == '"' then some .string
  else if c == '%' then some .marker
  else (Punctuation.all.find? fun mark => mark.char == c).map .punctuation

theorem family?_keyword (keyword : Keyword) :
    keyword.text.toList.head?.bind family? = some .identifier := by
  cases keyword <;> rfl

theorem family?_mark (mark : Punctuation) : family? mark.char = some (.punctuation mark) := by
  cases mark <;> rfl

theorem family?_space {c : Char} (h : isSpace c = true) : family? c = some .whitespace := by
  simp only [isSpace, Bool.or_eq_true, beq_iff_eq] at h
  rcases h with ((rfl | rfl) | rfl) | rfl <;> rfl

theorem family?_number {c : Char} (h : c = '-' ∨ c.isDigit = true) : family? c = some .integer := by
  rcases h with rfl | hdigit
  · rfl
  · have hmem := mem_digits hdigit
    simp only [List.mem_cons, List.not_mem_nil, or_false] at hmem
    rcases hmem with rfl | rfl | rfl | rfl | rfl | rfl | rfl | rfl | rfl | rfl <;> rfl

/-- A number begins with its sign or a digit. -/
theorem begins_number {pattern : Pattern} (hpattern : pattern = integer ∨ pattern = float)
    {c : Char} (h : (pattern.after c).isLive = true) : c = '-' ∨ c.isDigit = true := by
  by_contra hne
  rw [not_or, Bool.not_eq_true] at hne
  obtain ⟨hminus, hdigit⟩ := hne
  rcases hpattern with rfl | rfl <;>
    simp [integer, float, digits, Pattern.inOrder, Pattern.optional, Pattern.oneOrMore,
      Pattern.char, Pattern.after, Pattern.nullable, Pattern.andThen, Pattern.orElse,
      Pattern.isLive, hminus, hdigit] at h

/-- A word of the rules other than keywords and marks begins as its kind says. -/
theorem family?_of_mem_otherRules {rule : Rule Kind} (h : rule ∈ otherRules) {c : Char}
    (hlive : (rule.pattern.after c).isLive = true) : family? c = some rule.kind.family := by
  simp only [otherRules, List.mem_cons, List.not_mem_nil, or_false] at h
  rcases h with rfl | rfl | rfl | rfl | rfl | rfl | rfl | rfl | rfl
  · refine family?_space ?_
    by_contra hne
    simp [Pattern.oneOrMore, Pattern.after, Pattern.nullable, Pattern.andThen, Pattern.isLive,
      hne] at hlive
  · by_cases hc : c = '\n'
    · rw [hc]
      rfl
    · simp [Pattern.char, Pattern.after, Pattern.isLive, hc] at hlive
  · by_cases hc : c = '#'
    · rw [hc]
      rfl
    · simp [Pattern.inOrder, Pattern.char, Pattern.after, Pattern.nullable, Pattern.andThen,
        Pattern.isLive, hc] at hlive
  · by_cases hc : beginsName c = true
    · rw [family?, if_pos hc]
      rfl
    · simp [Pattern.inOrder, Pattern.after, Pattern.nullable, Pattern.andThen,
        Pattern.isLive, hc] at hlive
  · exact family?_number (begins_number (Or.inl rfl) hlive)
  · exact family?_number (begins_number (Or.inr rfl) hlive)
  · by_cases hc : c = '"'
    · rw [hc]
      rfl
    · simp [string, Pattern.inOrder, Pattern.char, Pattern.after, Pattern.nullable, Pattern.andThen,
        Pattern.isLive, hc] at hlive
  · by_cases hc : c = '"'
    · rw [hc]
      rfl
    · simp [blockString, Pattern.inOrder, Pattern.text, Pattern.char, Pattern.after,
        Pattern.nullable, Pattern.andThen, Pattern.isLive, hc] at hlive
  · by_cases hc : c = '%'
    · rw [hc]
      rfl
    · simp [Pattern.inOrder, Pattern.char, Pattern.after, Pattern.nullable, Pattern.andThen,
        Pattern.isLive, hc] at hlive

/-- A word begins as its kind says. -/
theorem family?_of_matches {rule : Rule Kind} (h : rule ∈ sdl) {c : Char} {word : List Char}
    (hword : rule.pattern.Matches (c :: word)) : family? c = some rule.kind.family := by
  rw [sdl_eq, List.mem_append, List.mem_append] at h
  rcases h with h | h | h
  · obtain ⟨keyword, -, rfl⟩ := List.mem_map.mp h
    have hfirst := family?_keyword keyword
    rw [← (matches_text _ _).mp hword] at hfirst
    exact hfirst
  · obtain ⟨mark, -, rfl⟩ := List.mem_map.mp h
    obtain ⟨d, hd, hmark⟩ := (Pattern.matches_one _ _).mp hword
    rw [(List.cons.inj hmark).1, (beq_iff_eq).mp hd]
    exact family?_mark mark
  · have hrest := (Pattern.matches_after_iff _ _ _).mpr hword
    exact family?_of_mem_otherRules h (isLive_of_matches hrest)

/-! ## Rules that describe the same word -/

/-- There is one rule for each kind. -/
theorem eq_of_kind_eq {rule other : Rule Kind} (h : rule ∈ sdl) (hother : other ∈ sdl)
    (hkind : rule.kind = other.kind) : rule = other := by
  have hnodup : (sdl.map Rule.kind).Nodup := by decide
  exact List.inj_on_of_nodup_map hnodup h hother hkind

/-- An integer has no decimal point, and the other numbers have one. -/
theorem not_matches_float {word : List Char} (h : integer.Matches word) : ¬ float.Matches word := by
  intro hfloat
  obtain ⟨front, back, -, hback, rfl⟩ := (Pattern.matches_seq _ _ _).mp hfloat
  obtain ⟨dot, decimals, hdot, -, rfl⟩ := (Pattern.matches_seq _ _ _).mp hback
  obtain ⟨c, hc, rfl⟩ := (Pattern.matches_one _ _).mp hdot
  rw [beq_iff_eq] at hc
  have havoids : integer.avoids '.' = true := rfl
  exact Pattern.not_mem_of_avoids havoids h (by simp [hc])

/-- No string on one line begins with three quotation marks. -/
theorem not_matches_string (rest : List Char) : ¬ string.Matches ('"' :: '"' :: '"' :: rest) := by
  intro h
  rw [← Pattern.matches_after_iff, ← Pattern.matches_after_iff] at h
  have hend : (string.after '"').after '"' = .empty := rfl
  rw [hend, Pattern.matches_empty] at h
  cases h

/-- No word is both a string on one line and a block string. -/
theorem not_matches_blockString {word : List Char} (h : string.Matches word) :
    ¬ blockString.Matches word := by
  intro hblock
  obtain ⟨rest, rfl, -⟩ := (matches_blockString _).mp hblock
  exact not_matches_string rest h

theorem eq_of_keyword_matches {keyword other : Keyword} {word : List Char}
    (h : (Pattern.text keyword.text.toList).Matches word)
    (hother : (Pattern.text other.text.toList).Matches word) : keyword = other := by
  rw [matches_text] at h hother
  have hname := Token.ofKeyword_eq keyword
  rw [← h, hother, ← Token.ofKeyword_eq other] at hname
  exact Kind.keyword.inj (congrArg Token.kind hname)

/-- The rules of kinds that are names are those of keywords and that of identifiers. -/
theorem mem_keywordRules_or {rule : Rule Kind} (h : rule ∈ sdl)
    (hfamily : rule.kind.family = .identifier) :
    (∃ keyword, rule = ⟨.keyword keyword, .text keyword.text.toList⟩) ∨
      rule.kind = .identifier := by
  rw [sdl_eq, List.mem_append, List.mem_append] at h
  rcases h with h | h | h
  · obtain ⟨keyword, -, rfl⟩ := List.mem_map.mp h
    exact Or.inl ⟨keyword, rfl⟩
  · obtain ⟨mark, -, rfl⟩ := List.mem_map.mp h
    cases hfamily
  · simp only [otherRules, List.mem_cons, List.not_mem_nil, or_false] at h
    rcases h with rfl | rfl | rfl | rfl | rfl | rfl | rfl | rfl | rfl <;> cases hfamily
    exact Or.inr rfl

/-- **Rules hardly ever tie.**  Two rules that describe the same word are the same, unless the word
is a keyword and so also an identifier. -/
theorem eq_or_keyword_of_matches {rule other : Rule Kind} (h : rule ∈ sdl) (hother : other ∈ sdl)
    {word : List Char} (hne : word ≠ []) (hword : rule.pattern.Matches word)
    (hword' : other.pattern.Matches word) :
    rule = other ∨ (rule.kind.isKeyword = true ∧ other.kind = .identifier) ∨
      (rule.kind = .identifier ∧ other.kind.isKeyword = true) := by
  obtain ⟨c, tail, rfl⟩ := List.exists_cons_of_ne_nil hne
  have hfamily : rule.kind.family = other.kind.family :=
    Option.some.inj ((family?_of_matches h hword).symm.trans (family?_of_matches hother hword'))
  have hinteger : ⟨.integer, integer⟩ ∈ sdl := by simp [sdl]
  have hfloat : ⟨.float, float⟩ ∈ sdl := by simp [sdl]
  have hstring : ⟨.string, string⟩ ∈ sdl := by simp [sdl]
  have hblock : ⟨.blockString, blockString⟩ ∈ sdl := by simp [sdl]
  rcases Kind.family_eq hfamily with hkind | hname | ⟨hkind, hkind'⟩ | ⟨hkind, hkind'⟩ |
    ⟨hkind, hkind'⟩ | ⟨hkind, hkind'⟩
  · exact Or.inl (eq_of_kind_eq h hother hkind)
  · rcases mem_keywordRules_or h hname with ⟨keyword, rfl⟩ | hkind
    · rcases mem_keywordRules_or hother (hfamily ▸ hname) with ⟨keyword', rfl⟩ | hkind'
      · rw [eq_of_keyword_matches hword hword']
        exact Or.inl rfl
      · exact Or.inr (Or.inl ⟨rfl, hkind'⟩)
    · rcases mem_keywordRules_or hother (hfamily ▸ hname) with ⟨keyword', rfl⟩ | hkind'
      · exact Or.inr (Or.inr ⟨hkind, rfl⟩)
      · exact Or.inl (eq_of_kind_eq h hother (hkind.trans hkind'.symm))
  · rw [eq_of_kind_eq h hinteger hkind] at hword
    rw [eq_of_kind_eq hother hfloat hkind'] at hword'
    exact absurd hword' (not_matches_float hword)
  · rw [eq_of_kind_eq h hfloat hkind] at hword
    rw [eq_of_kind_eq hother hinteger hkind'] at hword'
    exact absurd hword (not_matches_float hword')
  · rw [eq_of_kind_eq h hstring hkind] at hword
    rw [eq_of_kind_eq hother hblock hkind'] at hword'
    exact absurd hword' (not_matches_blockString hword)
  · rw [eq_of_kind_eq h hblock hkind] at hword
    rw [eq_of_kind_eq hother hstring hkind'] at hword'
    exact absurd hword (not_matches_blockString hword')

/-- The rule that gives a word its kind describes it, and any other that does is that of
identifiers where the kind is a keyword. -/
theorem exists_rule_of_isKind_sdl {word : List Char} {kind : Kind} (hne : word ≠ [])
    (h : IsKind sdl word kind) :
    ∃ rule ∈ sdl, rule.kind = kind ∧ rule.pattern.Matches word ∧
      ∀ other ∈ sdl, other.pattern.Matches word →
        other = rule ∨ (rule.kind.isKeyword = true ∧ other.kind = .identifier) := by
  obtain ⟨rule, hrule, hkind, hword⟩ := exists_rule_of_isKind h
  refine ⟨rule, hrule, hkind, hword, fun other hother hword' => ?_⟩
  rcases eq_or_keyword_of_matches hrule hother hne hword hword' with rfl | hkeyword |
    ⟨hidentifier, hkeyword⟩
  · exact Or.inl rfl
  · exact Or.inr hkeyword
  · -- the rules of keywords come first, so that the word would have been given that kind
    exfalso
    rcases mem_keywordRules_or hother (by cases hk : other.kind <;> simp_all [Kind.isKeyword,
      Kind.family]) with ⟨keyword, rfl⟩ | hkind'
    · have hdescribes : keywordRules.Describes word :=
        ⟨_, List.mem_map.mpr ⟨keyword, Keyword.mem_all keyword, rfl⟩, hword'⟩
      rw [sdl_eq, isKind_append] at h
      rcases h with h | ⟨hnone, -⟩
      · obtain ⟨found, -, hfound⟩ := isKind_keywordRules.mp h
        rw [← hkind, hidentifier] at hfound
        cases hfound
      · exact hnone hdescribes
    · rw [hkind'] at hkeyword
      cases hkeyword

/-! ## Beginnings of words -/

theorem inhabited_text (text : List Char) : (Pattern.text text).Inhabited := by
  induction text with
  | nil => trivial
  | cons c text ih =>
    cases text with
    | nil => exact ⟨c, beq_self_eq_true c⟩
    | cons d text => exact ⟨⟨c, beq_self_eq_true c⟩, ih⟩

/-- Every class of characters in the rules holds a character. -/
theorem inhabited_sdl : sdl.Inhabited := by
  intro rule h
  rw [sdl_eq, List.mem_append, List.mem_append] at h
  rcases h with h | h | h
  · obtain ⟨keyword, -, rfl⟩ := List.mem_map.mp h
    exact inhabited_text _
  · obtain ⟨mark, -, rfl⟩ := List.mem_map.mp h
    exact ⟨mark.char, beq_self_eq_true _⟩
  · have hdigits : digits.Inhabited := ⟨⟨'0', rfl⟩, ⟨'0', rfl⟩⟩
    have hinteger : integer.Inhabited := ⟨⟨⟨'-', rfl⟩, trivial⟩, hdigits⟩
    simp only [otherRules, List.mem_cons, List.not_mem_nil, or_false] at h
    rcases h with rfl | rfl | rfl | rfl | rfl | rfl | rfl | rfl | rfl
    · exact ⟨⟨' ', rfl⟩, ⟨' ', rfl⟩⟩
    · exact ⟨'\n', rfl⟩
    · exact ⟨⟨'#', rfl⟩, ⟨'#', rfl⟩⟩
    · exact ⟨⟨'_', rfl⟩, ⟨'_', rfl⟩⟩
    · exact hinteger
    · exact ⟨hinteger, ⟨'.', rfl⟩, hdigits, ⟨⟨'e', rfl⟩, ⟨⟨'+', rfl⟩, trivial⟩, hdigits⟩, trivial⟩
    · exact ⟨⟨'"', rfl⟩, ⟨⟨'a', rfl⟩, ⟨'\\', rfl⟩, ⟨'a', rfl⟩⟩, ⟨'"', rfl⟩⟩
    · exact ⟨inhabited_text _,
        ⟨⟨'a', rfl⟩, ⟨⟨'"', rfl⟩, ⟨'a', rfl⟩⟩, ⟨'"', rfl⟩, ⟨'"', rfl⟩, ⟨'a', rfl⟩⟩,
        inhabited_text _⟩
    · exact ⟨⟨'%', rfl⟩, ⟨'_', rfl⟩, ⟨'_', rfl⟩⟩

end Lexicon

/-! ## The token at the start of a text -/

open Lexicon

/-- The lengths of the words with which a text begins. -/
def wordLengths (text : List Char) : Set Nat :=
  {n | 0 < n ∧ n ≤ text.length ∧ sdl.Describes (text.take n)}

/-- Some word begins with the text. -/
def BeginsWord (text : List Char) : Prop := ∃ more, sdl.Describes (text ++ more)

/-- Three quotation marks in a row. -/
def threeQuotes : List Char := ['"', '"', '"']

/-- What the token at the start of a text is.  It is the longest word with which the text begins,
of the kind of the rule that describes it.  If the text begins with no word, it goes up to the
first character with which no word begins with the text any more, one character at least.  A block
string ends with the first three quotation marks in a row behind those with which it begins, and
where there are none an empty string is left of it. -/
structure IsMunch (text : List Char) (token : Token) : Prop where
  begins : token.text <+: text
  longest : (wordLengths text).Nonempty → IsGreatest (wordLengths text) token.text.length
  kind : (wordLengths text).Nonempty → ∃ rule ∈ sdl, rule.kind = token.kind ∧
    rule.pattern.Matches token.text ∧ ∀ other ∈ sdl, other.pattern.Matches token.text →
      other = rule ∨ (rule.kind.isKeyword = true ∧ other.kind = .identifier)
  unknown : wordLengths text = ∅ → token.kind = .unknown ∧ ∃ dead ≤ text.length,
    token.text.length = max 1 dead ∧ (∀ n ≤ dead, BeginsWord (text.take n)) ∧
      (dead < text.length → ¬ BeginsWord (text.take (dead + 1)))
  closed : token.kind = .blockString → ∃ inner, token.text = threeQuotes ++ (inner ++ threeQuotes) ∧
    ¬ threeQuotes <:+: inner ++ ['"', '"']
  unclosed : ∀ rest, text = threeQuotes ++ rest → ¬ threeQuotes <:+: rest →
    token = ⟨.string, ['"', '"']⟩

variable {c : Char} {rest : List Char}

/-- What is found behind the first character is the longest word of all. -/
theorem isGreatest_of_longest {length : Nat} {kind : Kind}
    (h : (sdl.after c).longest rest = some (length, kind)) :
    IsGreatest (wordLengths (c :: rest)) (length + 1) ∧
      IsKind sdl (c :: rest.take length) kind := by
  obtain ⟨hle, hkind, hmax⟩ := longest_eq_some h
  rw [isKind_after_iff] at hkind
  refine ⟨⟨⟨Nat.succ_pos _, Nat.succ_le_succ hle, ?_⟩, ?_⟩, hkind⟩
  · rw [List.take_succ_cons]
    exact (exists_isKind_iff _ _).mp ⟨kind, hkind⟩
  · rintro n ⟨hpos, hn, hdescribes⟩
    obtain ⟨n, rfl⟩ := Nat.exists_eq_succ_of_ne_zero (Nat.ne_of_gt hpos)
    rw [List.take_succ_cons, ← describes_after_iff] at hdescribes
    by_contra hlt
    exact hmax n (by omega) (Nat.le_of_succ_le_succ hn) hdescribes

/-- Nothing is found behind the first character exactly if the text begins with no word. -/
theorem wordLengths_eq_empty_iff :
    wordLengths (c :: rest) = ∅ ↔ (sdl.after c).longest rest = none := by
  constructor
  · intro h
    cases hlongest : (sdl.after c).longest rest with
    | none => rfl
    | some found =>
      have hmem := (isGreatest_of_longest hlongest).1.1
      rw [h] at hmem
      exact absurd hmem (Set.notMem_empty _)
  · intro h
    refine Set.eq_empty_of_forall_notMem ?_
    rintro n ⟨hpos, -, hdescribes⟩
    obtain ⟨n, rfl⟩ := Nat.exists_eq_succ_of_ne_zero (Nat.ne_of_gt hpos)
    rw [List.take_succ_cons, ← describes_after_iff] at hdescribes
    exact (longest_eq_none_iff _ _).mp h n hdescribes

/-- A text begins a word as far as some rule can be followed along it. -/
theorem beginsWord_take_iff {text : List Char} {n : Nat} (hn : n ≤ text.length) :
    BeginsWord (text.take n) ↔ n ≤ sdl.reach text := by
  cases n with
  | zero =>
    refine ⟨fun _ => Nat.zero_le _, fun _ => ?_⟩
    exact ⟨['\n'], ⟨.newline, .char '\n'⟩, by simp [sdl], .one rfl⟩
  | succ n =>
    rw [le_reach_iff inhabited_sdl]
    exact ⟨fun h => ⟨hn, h⟩, fun h => h.2⟩

theorem reach_le_length {κ : Type} (rules : Lexicon κ) (text : List Char) :
    rules.reach text ≤ text.length := by
  induction text generalizing rules with
  | nil => exact Nat.le_refl 0
  | cons c text ih =>
    rw [reach]
    cases rules.after c with
    | nil => exact Nat.zero_le _
    | cons rule others => exact Nat.succ_le_succ (ih _)

/-- Behind the first character a rule can be followed one character less far. -/
theorem max_one_reach (c : Char) (rest : List Char) :
    max 1 (sdl.reach (c :: rest)) = (sdl.after c).reach rest + 1 := by
  rw [reach]
  cases sdl.after c with
  | nil => rw [reach_nil]; rfl
  | cons rule others => exact Nat.max_eq_right (Nat.succ_le_succ (Nat.zero_le _))

/-- A block string ends with the first three quotation marks behind its beginning. -/
theorem exists_inner_of_matches {word : List Char} (h : blockString.Matches word) :
    ∃ inner, word = threeQuotes ++ (inner ++ threeQuotes) ∧
      ¬ threeQuotes <:+: inner ++ ['"', '"'] := by
  obtain ⟨tail, rfl, htail⟩ := (matches_blockString _).mp h
  obtain ⟨inner, rfl⟩ := exists_eq_append_of_matches_block htail
  refine ⟨inner, rfl, ?_⟩
  rintro ⟨before, after, hquotes⟩
  -- three quotation marks further in front would already have ended the block string
  have hsplit : inner ++ threeQuotes = before ++ '"' :: '"' :: '"' :: (after ++ ['"']) := by
    rw [show inner ++ threeQuotes = (inner ++ ['"', '"']) ++ ['"'] by simp [threeQuotes], ← hquotes]
    simp [threeQuotes]
  obtain ⟨n, hn, hmatches⟩ := exists_matches_block (List.mem_cons_self : blockRest ∈ _) before
    (after ++ ['"'])
  rw [← hsplit] at hmatches
  rw [show inner ++ ['"', '"', '"'] = inner ++ threeQuotes from rfl,
    ← List.take_append_drop n (inner ++ threeQuotes)] at htail
  have hnil := eq_nil_of_matches_block (by simp) hmatches htail
  have hlength := congrArg List.length hsplit
  simp only [List.length_append, List.length_cons, List.length_nil] at hlength
  rw [List.drop_eq_nil_iff, List.length_append] at hnil
  omega

/-- Three quotation marks that are not followed by three in a row begin no word but the empty
string. -/
theorem eq_of_matches_unclosed {rule : Rule Kind} (hrule : rule ∈ sdl) {n : Nat}
    (hclosed : ¬ threeQuotes <:+: rest)
    (h : rule.pattern.Matches ((threeQuotes ++ rest).take (n + 1))) :
    n = 1 ∧ rule.kind = .string := by
  have hfamily : rule.kind.family = .string := (Option.some.inj (family?_of_matches hrule h)).symm
  have hkind : rule.kind = .string ∨ rule.kind = .blockString := by
    cases hk : rule.kind <;> rw [hk] at hfamily <;> simp_all [Kind.family]
  rcases hkind with hkind | hkind
  · rw [eq_of_kind_eq hrule (show ⟨.string, string⟩ ∈ sdl by simp [sdl]) hkind] at h
    refine ⟨?_, hkind⟩
    rcases n with - | - | n
    · rw [show (threeQuotes ++ rest).take (0 + 1) = ['"'] from rfl, ← Pattern.matches_after_iff,
        ← Pattern.nullable_iff] at h
      cases h
    · rfl
    · exact absurd h (not_matches_string _)
  · exfalso
    rw [eq_of_kind_eq hrule (show ⟨.blockString, blockString⟩ ∈ sdl by simp [sdl]) hkind] at h
    obtain ⟨inner, hword, -⟩ := exists_inner_of_matches h
    have htake : threeQuotes ++ (inner ++ threeQuotes) <+: threeQuotes ++ rest := by
      rw [← hword]
      exact List.take_prefix _ _
    rw [List.prefix_append_right_inj] at htake
    exact hclosed ((List.suffix_append inner threeQuotes).isInfix.trans htake.isInfix)

/-- A text that begins with a word has the longest such word as its first token. -/
theorem exists_longest_of_nonempty (h : (wordLengths (c :: rest)).Nonempty) :
    ∃ length kind, (sdl.after c).longest rest = some (length, kind) ∧
      firstToken c rest = (kind, length) := by
  cases hlongest : (sdl.after c).longest rest with
  | none => exact absurd (wordLengths_eq_empty_iff.mpr hlongest) h.ne_empty
  | some found => exact ⟨found.1, found.2, rfl, by rw [firstToken, hlongest]⟩

/-- Two quotation marks are a word, so an unclosed block string leaves at least these. -/
theorem two_mem_wordLengths (rest : List Char) : 2 ∈ wordLengths (threeQuotes ++ rest) := by
  refine ⟨by decide, by simp [threeQuotes], ⟨.string, string⟩, by simp [sdl], ?_⟩
  rw [show (threeQuotes ++ rest).take 2 = ['"', '"'] from rfl, ← Pattern.matches_after_iff,
    ← Pattern.matches_after_iff, ← Pattern.nullable_iff]
  rfl

/-- The first token of a text is what the words say. -/
theorem isMunch_firstToken (c : Char) (rest : List Char) :
    IsMunch (c :: rest) ⟨(firstToken c rest).1, c :: rest.take (firstToken c rest).2⟩ where
  begins := by
    rw [List.cons_prefix_cons]
    exact ⟨rfl, List.take_prefix _ _⟩
  longest := by
    intro h
    obtain ⟨length, kind, hlongest, hfirst⟩ := exists_longest_of_nonempty h
    have hle := (longest_eq_some hlongest).1
    rw [hfirst, List.length_cons, List.length_take_of_le hle]
    exact (isGreatest_of_longest hlongest).1
  kind := by
    intro h
    obtain ⟨length, kind, hlongest, hfirst⟩ := exists_longest_of_nonempty h
    rw [hfirst]
    exact exists_rule_of_isKind_sdl (by simp) (isGreatest_of_longest hlongest).2
  unknown := by
    intro h
    have hlongest := wordLengths_eq_empty_iff.mp h
    have hfirst : firstToken c rest = (.unknown, (sdl.after c).reach rest) := by
      rw [firstToken, hlongest]
    rw [hfirst]
    -- no word begins the text, so the token reaches as far as one might have begun
    refine ⟨rfl, sdl.reach (c :: rest), reach_le_length _ _, ?_, ?_, ?_⟩
    · rw [max_one_reach, List.length_cons, List.length_take_of_le (reach_le_length _ _)]
    · intro n hn
      exact (beginsWord_take_iff (hn.trans (reach_le_length _ _))).mpr hn
    · intro hlt hbegins
      have := (beginsWord_take_iff hlt).mp hbegins
      omega
  closed := by
    intro h
    obtain ⟨rule, hrule, hkind, hmatches⟩ := matches_of_firstToken h rfl (by simp) (by simp)
    simp only [otherRules, List.mem_cons, List.not_mem_nil, or_false] at hrule
    rcases hrule with rfl | rfl | rfl | rfl | rfl | rfl | rfl | rfl | rfl <;> cases hkind
    exact exists_inner_of_matches hmatches
  unclosed := by
    intro behind htext hclosed
    -- an unclosed block string leaves its first two quotation marks, which are an empty string
    have htwo : 2 ∈ wordLengths (c :: rest) := by
      rw [htext]
      exact two_mem_wordLengths behind
    obtain ⟨length, kind, hlongest, hfirst⟩ := exists_longest_of_nonempty ⟨2, htwo⟩
    obtain ⟨hgreatest, hword⟩ := isGreatest_of_longest hlongest
    obtain ⟨rule, hrule, hkind, hmatches⟩ := exists_rule_of_isKind hword
    rw [← List.take_succ_cons, htext] at hmatches
    obtain ⟨rfl, hstring⟩ := eq_of_matches_unclosed hrule hclosed hmatches
    rw [hfirst, ← hkind, hstring, ← List.take_succ_cons, htext]
    rfl

/-! ## Main result -/

/-- **The longest word wins.**  Every token of a text is what the words say that begin the text from
its first byte on: the longest of them, or where there is none the text up to where no word could
come of it.  Two rules describe the same word only if it is a keyword and so also an identifier. -/
theorem tokenize_isMunch (text : List Char) :
    (∀ span ∈ (tokenize text).spans, IsMunch (Text.dropBytes span.1 text) span.2.2) ∧
    ∀ rule ∈ sdl, ∀ other ∈ sdl, ∀ word ≠ [], rule.pattern.Matches word →
      other.pattern.Matches word →
        rule = other ∨ (rule.kind.isKeyword = true ∧ other.kind = .identifier) ∨
          (rule.kind = .identifier ∧ other.kind.isKeyword = true) := by
  refine ⟨fun span hspan => ?_, fun rule hrule other hother word hne hword hword' =>
    eq_or_keyword_of_matches hrule hother hne hword hword'⟩
  obtain ⟨front, back, hsplit, htext, hstart, -⟩ := exists_of_mem_spans_tokenize hspan
  have hrest : tokenize (Run.chars (span.2.2 :: back)) = span.2.2 :: back :=
    tokenize_chars_of_suffix ⟨front, hsplit.symm⟩
  rw [hstart, htext, Text.dropBytes_append, ← Run.chars_cons]
  cases hchars : Run.chars (span.2.2 :: back) with
  | nil =>
    rw [hchars, tokenize_nil] at hrest
    cases hrest
  | cons c rest =>
    rw [hchars, tokenize_cons] at hrest
    rw [← (List.cons.inj hrest).1]
    exact isMunch_firstToken c rest

/-- Of an unclosed block string the empty string is left, and an unclosed string behind it, which
goes to the end of the text. -/
theorem tokenize_isMunch_unclosed :
    IsGreatest (wordLengths ['"', '"', '"', 'é']) 2 ∧
      ∃ dead ≤ 2, 2 = max 1 dead ∧ ∀ n ≤ dead, BeginsWord (['"', 'é'].take n) := by
  have hlaw := (tokenize_isMunch ['"', '"', '"', 'é']).1
  have hstring : (0, 2, ⟨.string, ['"', '"']⟩) ∈ (tokenize ['"', '"', '"', 'é']).spans := by
    decide +kernel
  have hunknown : (2, 5, ⟨.unknown, ['"', 'é']⟩) ∈ (tokenize ['"', '"', '"', 'é']).spans := by
    decide +kernel
  refine ⟨(hlaw _ hstring).longest ⟨2, two_mem_wordLengths ['é']⟩, ?_⟩
  have hnone : wordLengths ['"', 'é'] = ∅ := wordLengths_eq_empty_iff.mpr (by decide +kernel)
  obtain ⟨-, dead, hle, hlength, hbegins, -⟩ := (hlaw _ hunknown).unknown hnone
  exact ⟨dead, hle, hlength, hbegins⟩

end SdlSchema
