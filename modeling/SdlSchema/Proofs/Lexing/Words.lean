/-
# Cutting words off a text

For each kind of token that is more than trivia, what the first token of a text is when the text
begins with a word of that kind and goes on with something that cannot continue it.

* `firstToken_name` : a name is cut off whole, as a keyword if it is spelled like one;
* `firstToken_digits`, `firstToken_minus`, `firstToken_string`, `firstToken_marker` : so are
  literals and markers;
* `firstToken_blockString` : a block string ends at the first three quotation marks in a row.
-/
import Mathlib.Tactic.IntervalCases
import SdlSchema.Token.Tokenize

namespace SdlSchema

/-- The kind of token that a name is. -/
def Kind.ofName (chars : List Char) : Kind :=
  match Keyword.all.find? fun word => word.text.toList == chars with
  | some word => .keyword word
  | none => .identifier

theorem Kind.isName_ofName (chars : List Char) : (Kind.ofName chars).isName = true := by
  unfold ofName
  split <;> rfl

namespace Lexicon

variable {κ : Type}

/-! ## Finding the longest word -/

/-- A described word is found by `longest` if no longer one is described. -/
theorem longest_eq_of_isKind {rules : Lexicon κ} {word rest : List Char} {kind : κ}
    (hword : IsKind rules word kind)
    (hmax : ∀ c more, rest = c :: more → ∀ n, ¬ rules.Describes (word ++ c :: more.take n)) :
    rules.longest (word ++ rest) = some (word.length, kind) := by
  have hdescribed : rules.Describes ((word ++ rest).take word.length) := by
    rw [List.take_left]
    exact (exists_isKind_iff _ _).mp ⟨kind, hword⟩
  cases hlongest : rules.longest (word ++ rest) with
  | none => exact absurd hdescribed ((longest_eq_none_iff _ _).mp hlongest _)
  | some found =>
    obtain ⟨length, other⟩ := found
    obtain ⟨hle, hother, hlonger⟩ := longest_eq_some hlongest
    have hge : word.length ≤ length := by
      by_contra hlt
      exact hlonger word.length (by omega) (by simp) hdescribed
    -- what is found is `word` and `extra` more characters, of which there are none by `hmax`
    obtain ⟨extra, rfl⟩ := Nat.exists_eq_add_of_le hge
    rw [List.take_length_add_append] at hother
    cases extra with
    | zero =>
      rw [List.take_zero, List.append_nil] at hother
      rw [hother.unique hword]
      rfl
    | succ extra =>
      cases rest with
      | nil => simp at hle
      | cons c more =>
        rw [List.take_succ_cons] at hother
        exact absurd ((exists_isKind_iff _ _).mp ⟨other, hother⟩) (hmax c more rfl extra)

/-- Of two lists of rules the second decides only where no rule of the first applies. -/
theorem isKind_append {left right : Lexicon κ} {word : List Char} {kind : κ} :
    IsKind (left ++ right) word kind ↔
      IsKind left word kind ∨ (¬ left.Describes word ∧ IsKind right word kind) := by
  induction left with
  | nil => simp [IsKind, Describes]
  | cons rule left ih =>
    have hdescribes : Describes (rule :: left) word ↔
        rule.pattern.Matches word ∨ Describes left word := by simp [Describes]
    simp only [List.cons_append, IsKind, ih, hdescribes]
    by_cases h : rule.pattern.Matches word <;> simp [h]

/-! ## Characters one after the other -/

/-- The rule for any number of characters of a class finds all of them. -/
theorem longest_many {kind : κ} {allowed : Char → Bool} {word rest : List Char}
    (hword : ∀ c ∈ word, allowed c = true) (hrest : ∀ c, rest.head? = some c → allowed c = false) :
    longest [⟨kind, .many (.one allowed)⟩] (word ++ rest) = some (word.length, kind) := by
  have hafter : ∀ c, after [⟨kind, .many (.one allowed)⟩] c
      = if allowed c = true then [⟨kind, .many (.one allowed)⟩] else [] := by
    intro c
    by_cases hc : allowed c = true <;>
      simp [after, Pattern.after, Pattern.andThen, Pattern.isLive, hc]
  induction word with
  | nil =>
    cases rest with
    | nil => rfl
    | cons c rest =>
      rw [List.nil_append, longest_cons, hafter, hrest c rfl, if_neg Bool.false_ne_true,
        longest_nil]
      rfl
  | cons c word ih =>
    have hc := hword c List.mem_cons_self
    rw [List.cons_append, longest_cons, hafter, if_pos hc,
      ih fun d hd => hword d (List.mem_cons_of_mem c hd)]
    rfl

/-- A rule that has come to its end finds nothing more. -/
theorem longest_end (kind : κ) (rest : List Char) :
    longest [⟨kind, .empty⟩] rest = some (0, kind) := by
  cases rest with
  | nil => rfl
  | cons c rest =>
    have hafter : after [⟨kind, .empty⟩] c = [] := rfl
    rw [longest_cons, hafter, longest_nil]
    rfl

/-! ## Texts -/

theorem matches_text (text word : List Char) : (Pattern.text text).Matches word ↔ word = text := by
  induction text generalizing word with
  | nil => simp [Pattern.text]
  | cons c text ih =>
    cases text with
    | nil => simp [Pattern.text, Pattern.char]
    | cons d text =>
      rw [Pattern.text, Pattern.matches_seq]
      simp only [Pattern.char, Pattern.matches_one, ih, beq_iff_eq]
      constructor
      · rintro ⟨s, t, ⟨_, rfl, rfl⟩, rfl, rfl⟩
        rfl
      · rintro rfl
        exact ⟨[c], d :: text, ⟨c, rfl, rfl⟩, rfl, rfl⟩
      · simp

/-- A repetition of one character matches exactly the words of allowed characters. -/
theorem matches_many_one (allowed : Char → Bool) (word : List Char) :
    (Pattern.many (.one allowed)).Matches word ↔ ∀ c ∈ word, allowed c = true := by
  induction word with
  | nil => simp [Pattern.matches_many_nil]
  | cons c word ih =>
    rw [Pattern.matches_many_cons]
    simp only [Pattern.matches_one, List.cons.injEq, List.mem_cons, forall_eq_or_imp]
    constructor
    · rintro ⟨s, t, ⟨d, hd, rfl, rfl⟩, ht, rfl⟩
      exact ⟨hd, ih.mp ht⟩
    · rintro ⟨hc, hword⟩
      exact ⟨[], word, ⟨c, hc, rfl, rfl⟩, ih.mpr hword, rfl⟩

end Lexicon

open Lexicon

/-! ## Marks and blanks -/

/-- A mark is a token on its own, whatever follows. -/
theorem firstToken_mark (mark : Punctuation) (rest : List Char) :
    firstToken mark.char rest = (.punctuation mark, 0) := by
  have hafter : sdl.after mark.char = [⟨.punctuation mark, .empty⟩] := by cases mark <;> rfl
  rw [firstToken, hafter, longest_end]

theorem firstToken_newline (rest : List Char) : firstToken '\n' rest = (.newline, 0) := by
  have hafter : sdl.after '\n' = [⟨.newline, .empty⟩] := rfl
  rw [firstToken, hafter, longest_end]

/-- Blanks are one token up to the first character that is none. -/
theorem firstToken_spaces {blanks rest : List Char} (hblanks : ∀ c ∈ blanks, isSpace c = true)
    (hrest : ∀ c, rest.head? = some c → isSpace c = false) :
    firstToken ' ' (blanks ++ rest) = (.whitespace, blanks.length) := by
  have hafter : sdl.after ' ' = [⟨.whitespace, .many (.one isSpace)⟩] := rfl
  rw [firstToken, hafter, longest_many hblanks hrest]

/-- A marker goes on up to the first character that does not continue a name. -/
theorem firstToken_marker {c : Char} {word rest : List Char}
    (hword : ∀ d ∈ c :: word, continuesName d = true)
    (hrest : ∀ d, rest.head? = some d → continuesName d = false) :
    firstToken '%' (c :: word ++ rest) = (.marker, word.length + 1) := by
  have hafter : sdl.after '%' = [⟨.marker, .oneOrMore (.one continuesName)⟩] := rfl
  have hnext : Lexicon.after [⟨Kind.marker, .oneOrMore (.one continuesName)⟩] c
      = [⟨.marker, .many (.one continuesName)⟩] := by
    simp [Lexicon.after, Pattern.oneOrMore, Pattern.after, Pattern.nullable, Pattern.andThen,
      Pattern.isLive, hword c List.mem_cons_self]
  rw [firstToken, hafter, List.cons_append, longest_cons, hnext,
    longest_many (fun d hd => hword d (List.mem_cons_of_mem c hd)) hrest]

/-! ## Integers -/

theorem mem_digits {c : Char} (h : c.isDigit = true) :
    c ∈ ['0', '1', '2', '3', '4', '5', '6', '7', '8', '9'] := by
  have hbounds : 48 ≤ c.toNat ∧ c.toNat ≤ 57 := by
    simpa [Char.isDigit, UInt32.le_iff_toNat_le] using h
  rw [← Char.ofNat_toNat c]
  obtain ⟨hle, hge⟩ := hbounds
  interval_cases c.toNat <;> decide

/-- What may follow the digits of an integer in a number. -/
def fraction : Pattern :=
  .inOrder [.char '.', digits,
    .optional (.inOrder [.one fun c => c == 'e' || c == 'E',
      .optional (.one fun c => c == '+' || c == '-'), digits])]

/-- The rules for numbers behind a first digit find all digits of an integer. -/
theorem longest_integer {word rest : List Char} (hword : ∀ c ∈ word, c.isDigit = true)
    (hrest : ∀ c, rest.head? = some c → c.isDigit = false ∧ c ≠ '.') :
    longest [⟨Kind.integer, .many (.one Char.isDigit)⟩,
        ⟨.float, .seq (.many (.one Char.isDigit)) fraction⟩] (word ++ rest)
      = some (word.length, .integer) := by
  induction word with
  | nil =>
    cases rest with
    | nil => rfl
    | cons c rest =>
      -- neither a digit nor the dot of a fraction continues either rule
      obtain ⟨hdigit, hdot⟩ := hrest c rfl
      have hafter : Lexicon.after [⟨Kind.integer, .many (.one Char.isDigit)⟩,
          ⟨.float, .seq (.many (.one Char.isDigit)) fraction⟩] c = [] := by
        simp [Lexicon.after, fraction, Pattern.inOrder, Pattern.char, Pattern.after,
          Pattern.nullable, Pattern.andThen, Pattern.orElse, Pattern.isLive, hdigit, hdot]
      rw [List.nil_append, longest_cons, hafter, longest_nil]
      rfl
  | cons c word ih =>
    have hdigit := hword c List.mem_cons_self
    have hdot : c ≠ '.' := by
      rintro rfl
      exact absurd hdigit (by decide)
    have hafter : Lexicon.after [⟨Kind.integer, .many (.one Char.isDigit)⟩,
        ⟨.float, .seq (.many (.one Char.isDigit)) fraction⟩] c
          = [⟨.integer, .many (.one Char.isDigit)⟩,
            ⟨.float, .seq (.many (.one Char.isDigit)) fraction⟩] := by
      simp [Lexicon.after, fraction, Pattern.inOrder, Pattern.char, Pattern.after,
        Pattern.nullable, Pattern.andThen, Pattern.orElse, Pattern.isLive, hdigit, hdot,
        digits, Pattern.oneOrMore, Pattern.optional]
    rw [List.cons_append, longest_cons, hafter, ih fun d hd => hword d (List.mem_cons_of_mem c hd)]
    rfl

/-- Behind a digit only the rules for numbers are left. -/
theorem after_digit {c : Char} (h : c.isDigit = true) :
    sdl.after c = [⟨.integer, .many (.one Char.isDigit)⟩,
      ⟨.float, .seq (.many (.one Char.isDigit)) fraction⟩] := by
  have hmem := mem_digits h
  simp only [List.mem_cons, List.not_mem_nil, or_false] at hmem
  rcases hmem with rfl | rfl | rfl | rfl | rfl | rfl | rfl | rfl | rfl | rfl <;> rfl

/-- Digits are one integer, if neither a digit nor a point follows. -/
theorem firstToken_digits {c : Char} {word rest : List Char}
    (hword : ∀ d ∈ c :: word, d.isDigit = true)
    (hrest : ∀ d, rest.head? = some d → d.isDigit = false ∧ d ≠ '.') :
    firstToken c (word ++ rest) = (.integer, word.length) := by
  rw [firstToken, after_digit (hword c List.mem_cons_self),
    longest_integer (fun d hd => hword d (List.mem_cons_of_mem c hd)) hrest]

/-- A minus sign belongs to the integer behind it. -/
theorem firstToken_minus {c : Char} {word rest : List Char}
    (hword : ∀ d ∈ c :: word, d.isDigit = true)
    (hrest : ∀ d, rest.head? = some d → d.isDigit = false ∧ d ≠ '.') :
    firstToken '-' (c :: word ++ rest) = (.integer, word.length + 1) := by
  have hafter : sdl.after '-' = [⟨.integer, digits⟩, ⟨.float, .seq digits fraction⟩] := rfl
  have hdigit := hword c List.mem_cons_self
  have hnext : Lexicon.after [⟨Kind.integer, digits⟩, ⟨.float, .seq digits fraction⟩] c
      = [⟨.integer, .many (.one Char.isDigit)⟩,
        ⟨.float, .seq (.many (.one Char.isDigit)) fraction⟩] := by
    simp [Lexicon.after, fraction, digits, Pattern.oneOrMore, Pattern.optional, Pattern.inOrder,
      Pattern.char, Pattern.after, Pattern.nullable, Pattern.andThen, Pattern.isLive, hdigit]
  rw [firstToken, hafter, List.cons_append, longest_cons, hnext,
    longest_integer (fun d hd => hword d (List.mem_cons_of_mem c hd)) hrest]

/-! ## Strings -/

/-- What may follow the first quotation mark of a string. -/
def stringRest : Pattern :=
  .inOrder [
    .many (.either (.one fun c => c != '"' && c != '\\' && c != '\n')
      (.inOrder [.char '\\', .one (· != '\n')])),
    .char '"']

/-- Plain characters are read through to the quotation mark behind them. -/
theorem longest_string {word rest : List Char}
    (hword : ∀ c ∈ word, c ≠ '"' ∧ c ≠ '\\' ∧ c ≠ '\n') :
    longest [⟨Kind.string, stringRest⟩] (word ++ '"' :: rest)
      = some (word.length + 1, .string) := by
  induction word with
  | nil =>
    have hafter : Lexicon.after [⟨Kind.string, stringRest⟩] '"' = [⟨.string, .empty⟩] := rfl
    rw [List.nil_append, longest_cons, hafter, longest_end]
    rfl
  | cons c word ih =>
    obtain ⟨hquote, hbackslash, hnewline⟩ := hword c List.mem_cons_self
    have hafter : Lexicon.after [⟨Kind.string, stringRest⟩] c = [⟨.string, stringRest⟩] := by
      simp [Lexicon.after, stringRest, Pattern.inOrder, Pattern.char, Pattern.after,
        Pattern.nullable, Pattern.andThen, Pattern.orElse, Pattern.isLive, hquote, hbackslash,
        hnewline]
    rw [List.cons_append, longest_cons, hafter, ih fun d hd => hword d (List.mem_cons_of_mem c hd)]
    rfl

/-- The middle of a block string, with its end: no quotation mark is waiting for its second. -/
def blockRest : Pattern :=
  .inOrder [
    .many (.either (.one (· != '"'))
      (.either (.inOrder [.char '"', .one (· != '"')])
        (.inOrder [.char '"', .char '"', .one (· != '"')]))),
    .text ['"', '"', '"']]

/-- The same behind one quotation mark of the middle or the end. -/
def blockRest₁ : Pattern := blockRest.after '"'

/-- The same behind two quotation marks of the middle or the end. -/
def blockRest₂ : Pattern := blockRest₁.after '"'

theorem after_blockRest {c : Char} (h : c ≠ '"') :
    blockRest.after c = blockRest ∧ blockRest₁.after c = blockRest ∧
      blockRest₂.after c = blockRest := by
  refine ⟨?_, ?_, ?_⟩ <;>
    simp [blockRest₂, blockRest₁, blockRest, Pattern.inOrder, Pattern.text, Pattern.char,
      Pattern.after, Pattern.nullable, Pattern.andThen, Pattern.orElse, h]

/-- Each quotation mark of three leads one further towards the end of a block string. -/
theorem after_block_quotes :
    Lexicon.after [⟨Kind.blockString, blockRest⟩] '"' = [⟨.blockString, blockRest₁⟩] ∧
      Lexicon.after [⟨Kind.blockString, blockRest₁⟩] '"' = [⟨.blockString, blockRest₂⟩] ∧
        Lexicon.after [⟨Kind.blockString, blockRest₂⟩] '"' = [⟨.blockString, .empty⟩] :=
  ⟨rfl, rfl, rfl⟩

/-- Any other character leads back into the middle of it. -/
theorem after_block_other {c : Char} (h : c ≠ '"') {pattern : Pattern}
    (hpattern : pattern ∈ [blockRest, blockRest₁, blockRest₂]) :
    Lexicon.after [⟨Kind.blockString, pattern⟩] c = [⟨.blockString, blockRest⟩] := by
  obtain ⟨h0, h1, h2⟩ := after_blockRest h
  have hlive : blockRest.isLive = true := rfl
  simp only [List.mem_cons, List.not_mem_nil, or_false] at hpattern
  rcases hpattern with rfl | rfl | rfl <;> simp [Lexicon.after, h0, h1, h2, hlive]

/-- A text without three quotation marks in a row, and with none at the end, is read through to
the three behind it. -/
theorem longest_block {word rest : List Char} (hdelimiter : ¬ ['"', '"', '"'] <:+: word)
    (hend : word.getLast? ≠ some '"') :
    longest [⟨Kind.blockString, blockRest⟩] (word ++ '"' :: '"' :: '"' :: rest)
      = some (word.length + 3, .blockString) := by
  obtain ⟨hone, htwo, hthree⟩ := after_block_quotes
  induction hlength : word.length using Nat.strongRecOn generalizing word with
  | _ n ih =>
    -- behind a character that is no quotation mark, whatever is left is such a text again
    have hnext : ∀ quotes c tail, word = quotes ++ c :: tail →
        longest [⟨Kind.blockString, blockRest⟩] (tail ++ '"' :: '"' :: '"' :: rest)
          = some (tail.length + 3, .blockString) := by
      intro quotes c tail hword
      refine ih tail.length ?_ ?_ ?_ rfl
      · rw [← hlength, hword, List.length_append, List.length_cons]
        omega
      · exact fun hquotes => hdelimiter
          (hquotes.trans ⟨quotes ++ [c], [], by rw [hword]; simp⟩)
      · intro hlast
        cases tail with
        | nil => cases hlast
        | cons d tail => exact hend (by rw [hword]; simpa using hlast)
    rw [← hlength]
    cases word with
    | nil =>
      rw [List.nil_append, longest_cons, hone, longest_cons, htwo, longest_cons, hthree,
        longest_end]
      rfl
    | cons c word =>
      rw [List.cons_append, longest_cons]
      -- up to two quotation marks may stand in front of the next other character
      by_cases hc : c = '"'
      · obtain rfl := hc
        cases word with
        | nil => exact absurd rfl hend
        | cons d word =>
          rw [hone, List.cons_append, longest_cons]
          by_cases hd : d = '"'
          · obtain rfl := hd
            cases word with
            | nil => exact absurd rfl hend
            | cons e word =>
              have he : e ≠ '"' := by
                rintro rfl
                exact hdelimiter ⟨[], word, rfl⟩
              rw [htwo, List.cons_append, longest_cons, after_block_other he (by simp),
                hnext ['"', '"'] e word rfl]
              rfl
          · rw [after_block_other hd (by simp), hnext ['"'] d word rfl]
            rfl
      · rw [after_block_other hc (by simp), hnext [] c word rfl]
        rfl

/-! ## Quoted tokens -/

/-- Behind a quotation mark only the rules for strings are left. -/
theorem after_quote : sdl.after '"' =
    [⟨.string, stringRest⟩, ⟨.blockString, .seq (.seq (.char '"') (.char '"')) blockRest⟩] := rfl

/-- A plain string ends at its closing quotation mark, if no further one follows. -/
theorem firstToken_string {word rest : List Char}
    (hword : ∀ c ∈ word, c ≠ '"' ∧ c ≠ '\\' ∧ c ≠ '\n')
    (hrest : rest.head? ≠ some '"') :
    firstToken '"' (word ++ '"' :: rest) = (.string, word.length + 1) := by
  cases word with
  | nil =>
    -- the empty string is also how a block string begins
    have hnext : (sdl.after '"').after '"' =
        [⟨.string, .empty⟩, ⟨.blockString, .seq (.char '"') blockRest⟩] := rfl
    have hlongest : longest [⟨Kind.string, .empty⟩, ⟨.blockString, .seq (.char '"') blockRest⟩] rest
        = some (0, .string) := by
      cases rest with
      | nil => rfl
      | cons c rest =>
        have hc : c ≠ '"' := fun h => hrest (by rw [h]; rfl)
        have hafter : Lexicon.after [⟨Kind.string, .empty⟩,
            ⟨.blockString, .seq (.char '"') blockRest⟩] c = [] := by
          simp [Lexicon.after, Pattern.char, Pattern.after, Pattern.nullable, Pattern.andThen,
            Pattern.isLive, hc]
        rw [longest_cons, hafter, longest_nil]
        rfl
    rw [firstToken, List.nil_append, longest_cons, hnext, hlongest]
    rfl
  | cons c word =>
    obtain ⟨hquote, hbackslash, hnewline⟩ := hword c List.mem_cons_self
    have hnext : (sdl.after '"').after c = [⟨.string, stringRest⟩] := by
      rw [after_quote]
      simp [Lexicon.after, stringRest, Pattern.inOrder, Pattern.char, Pattern.after,
        Pattern.nullable, Pattern.andThen, Pattern.orElse, Pattern.isLive, hquote, hbackslash,
        hnewline]
    rw [firstToken, List.cons_append, longest_cons, hnext,
      longest_string fun d hd => hword d (List.mem_cons_of_mem c hd)]
    rfl

/-- A block string ends at the first three quotation marks behind its opening ones. -/
theorem firstToken_blockString {word rest : List Char}
    (hdelimiter : ¬ ['"', '"', '"'] <:+: word) (hend : word.getLast? ≠ some '"') :
    firstToken '"' ('"' :: '"' :: (word ++ '"' :: '"' :: '"' :: rest))
      = (.blockString, word.length + 5) := by
  have hnext : ((sdl.after '"').after '"').after '"' = [⟨.blockString, blockRest⟩] := rfl
  rw [firstToken, longest_cons, longest_cons, hnext, longest_block hdelimiter hend]

/-! ## Names -/

/-- The rules for keywords. -/
def keywordRules : Lexicon Kind :=
  Keyword.all.map fun keyword => ⟨.keyword keyword, .text keyword.text.toList⟩

/-- The rules for punctuation. -/
def markRules : Lexicon Kind :=
  Punctuation.all.map fun mark => ⟨.punctuation mark, .char mark.char⟩

/-- A keyword is described as itself. -/
theorem isKind_keywordRules {word : List Char} {kind : Kind} :
    IsKind keywordRules word kind ↔ ∃ keyword,
      (Keyword.all.find? fun keyword => keyword.text.toList == word) = some keyword ∧
        kind = .keyword keyword := by
  unfold keywordRules
  induction Keyword.all with
  | nil => simp [IsKind]
  | cons keyword keywords ih =>
    rw [List.map_cons, IsKind, ih, matches_text, List.find?_cons]
    by_cases h : keyword.text.toList = word
    · simp [h, eq_comm]
    · have hne : ¬ word = keyword.text.toList := fun e => h e.symm
      have hbeq : (keyword.text.toList == word) = false := by simpa using h
      simp [hne, hbeq]

theorem not_describes_markRules {c : Char} {word : List Char} (h : beginsName c = true) :
    ¬ markRules.Describes (c :: word) := by
  rintro ⟨rule, hmem, hmatches⟩
  obtain ⟨mark, -, rfl⟩ := List.mem_map.mp hmem
  simp only [Pattern.char, Pattern.matches_one, beq_iff_eq, List.cons.injEq] at hmatches
  obtain ⟨d, rfl, rfl, -⟩ := hmatches
  revert h
  cases mark <;> decide

/-- The rules that are left. -/
def otherRules : Lexicon Kind :=
  [⟨.whitespace, .oneOrMore (.one isSpace)⟩,
    ⟨.newline, .char '\n'⟩,
    ⟨.comment, .inOrder [.char '#', .many (.one (· != '\n'))]⟩,
    ⟨.identifier, .inOrder [.one beginsName, .many (.one continuesName)]⟩,
    ⟨.integer, integer⟩,
    ⟨.float, float⟩,
    ⟨.string, string⟩,
    ⟨.blockString, blockString⟩,
    ⟨.marker, .inOrder [.char '%', .oneOrMore (.one continuesName)]⟩]

/-- The rules are those for keywords, those for marks and the others, in this order. -/
theorem sdl_eq : sdl = keywordRules ++ (markRules ++ otherRules) := rfl

/-- A letter or an underscore begins only one word that is no keyword. -/
theorem after_otherRules {c : Char} (h : beginsName c = true) :
    otherRules.after c = [⟨.identifier, .many (.one continuesName)⟩] := by
  have hne : ∀ d, beginsName d = false → c ≠ d := fun d hd e => by rw [e, hd] at h; cases h
  have hdigit : c.isDigit = false := by
    cases hdigit : c.isDigit with
    | false => rfl
    | true =>
      have hmem := mem_digits hdigit
      simp only [List.mem_cons, List.not_mem_nil, or_false] at hmem
      rcases hmem with rfl | rfl | rfl | rfl | rfl | rfl | rfl | rfl | rfl | rfl <;> cases h
  have hspace : isSpace c = false := by
    simp [isSpace, hne ' ' rfl, hne '\t' rfl, hne '\r' rfl, hne '\x0c' rfl]
  have hnewline := hne '\n' rfl
  have hhash := hne '#' rfl
  have hminus := hne '-' rfl
  have hquote := hne '"' rfl
  have hpercent := hne '%' rfl
  simp [otherRules, Lexicon.after, integer, float, digits, string, blockString, Pattern.oneOrMore,
    Pattern.optional, Pattern.inOrder, Pattern.text, Pattern.char, Pattern.after, Pattern.nullable,
    Pattern.andThen, Pattern.orElse, Pattern.isLive, h, hspace, hnewline, hhash, hdigit, hminus,
    hquote, hpercent, List.filter]

/-- What begins as a name does is an identifier if it goes on as one, and no other rule describes
it. -/
theorem isKind_otherRules {c : Char} {word : List Char} {kind : Kind} (h : beginsName c = true) :
    IsKind otherRules (c :: word) kind ↔
      kind = .identifier ∧ ∀ d ∈ word, continuesName d = true := by
  rw [← isKind_after_iff, after_otherRules h]
  simp only [IsKind, matches_many_one, and_false, or_false]
  constructor
  · rintro ⟨hword, rfl⟩
    exact ⟨rfl, hword⟩
  · rintro ⟨rfl, hword⟩
    exact ⟨hword, rfl⟩

theorem describes_keywordRules {word : List Char} :
    keywordRules.Describes word ↔
      (Keyword.all.find? fun keyword => keyword.text.toList == word) ≠ none := by
  rw [← exists_isKind_iff]
  simp only [isKind_keywordRules, Option.ne_none_iff_exists']
  constructor
  · rintro ⟨_, keyword, hkeyword, -⟩
    exact ⟨keyword, hkeyword⟩
  · rintro ⟨keyword, hkeyword⟩
    exact ⟨_, keyword, hkeyword, rfl⟩

/-- A word that begins with a letter or an underscore is a keyword or an identifier. -/
theorem isKind_sdl {c : Char} {word : List Char} {kind : Kind} (h : beginsName c = true) :
    IsKind sdl (c :: word) kind ↔
      kind = Kind.ofName (c :: word) ∧ ∀ d ∈ word, continuesName d = true := by
  rw [sdl_eq, isKind_append, isKind_append, isKind_keywordRules,
    describes_keywordRules, isKind_otherRules h]
  -- keywords are named first in the lexicon, so a word that is one is no identifier
  have hmarks : ¬ IsKind markRules (c :: word) kind := fun hkind =>
    not_describes_markRules h ((exists_isKind_iff _ _).mp ⟨kind, hkind⟩)
  simp only [hmarks, not_describes_markRules h, false_or, not_false_eq_true, true_and, Kind.ofName]
  cases hfind : Keyword.all.find? fun keyword => keyword.text.toList == c :: word with
  | none => simp
  | some keyword =>
    have hspelled : keyword.text.toList = c :: word := by simpa using List.find?_some hfind
    have hcontinues : ∀ d ∈ word, continuesName d = true := by
      have hall : keyword.text.toList.all continuesName = true := by cases keyword <;> decide
      rw [hspelled] at hall
      exact fun d hd => List.all_eq_true.mp hall d (List.mem_cons_of_mem c hd)
    constructor
    · rintro (⟨found, hfound, rfl⟩ | ⟨hnone, -⟩)
      · rw [Option.some.inj hfound]
        exact ⟨rfl, hcontinues⟩
      · simp at hnone
    · rintro ⟨rfl, -⟩
      exact Or.inl ⟨keyword, rfl, rfl⟩

/-- A name is one token up to the first character that does not continue it. -/
theorem firstToken_name {c : Char} {word rest : List Char} (hc : beginsName c = true)
    (hword : ∀ d ∈ word, continuesName d = true)
    (hrest : ∀ d, rest.head? = some d → continuesName d = false) :
    firstToken c (word ++ rest) = (Kind.ofName (c :: word), word.length) := by
  have hkind : IsKind (sdl.after c) word (Kind.ofName (c :: word)) :=
    (isKind_after_iff _ _ _ _).mpr ((isKind_sdl hc).mpr ⟨rfl, hword⟩)
  -- a longer word would go on with the character behind the name
  have hmax : ∀ d more, rest = d :: more →
      ∀ n, ¬ (sdl.after c).Describes (word ++ d :: more.take n) := by
    rintro d more rfl n hdescribes
    obtain ⟨kind, hkind⟩ := (exists_isKind_iff _ _).mpr hdescribes
    have hcontinues := ((isKind_sdl hc).mp ((isKind_after_iff _ _ _ _).mp hkind)).2 d (by simp)
    rw [hrest d rfl] at hcontinues
    cases hcontinues
  rw [firstToken, longest_eq_of_isKind hkind hmax]

end SdlSchema
