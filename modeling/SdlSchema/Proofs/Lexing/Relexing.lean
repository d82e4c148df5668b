/-
# Cutting a stretch of tokens again

The text under consecutive tokens is cut into exactly those tokens again, wherever the stretch
begins and ends.  Cutting off what follows a token neither lengthens nor shortens it: the longest
word is still there, no longer one has come up, and an unknown token still ends where no rule
could be followed any further.

* `firstToken_take` : a first token depends on no text behind its end;
* `tokenize_chars_of_isInfix` : any stretch of tokens of a text is cut into itself;
* `map_shift_spans_tokenize_slice` : the same with the offsets, for the text between two bytes.
-/
import SdlSchema.Token.Tokenize

namespace SdlSchema

/-! ## A shortened text -/

namespace Lexicon

variable {κ : Type}

/-- Where no beginning of a text is described, none is in the shortened text. -/
theorem longest_take_eq_none {rules : Lexicon κ} {text : List Char}
    (h : rules.longest text = none) (n : Nat) : rules.longest (text.take n) = none := by
  rw [longest_eq_none_iff] at h ⊢
  intro m
  rw [List.take_take]
  exact h (min m n)

/-- The longest word is found in every shortened text that still holds it. -/
theorem longest_take {rules : Lexicon κ} {text : List Char} {length n : Nat} {kind : κ}
    (h : rules.longest text = some (length, kind)) (hn : length ≤ n) :
    rules.longest (text.take n) = some (length, kind) := by
  induction text generalizing rules length kind n with
  | nil => simpa using h
  | cons c text ih =>
    rw [longest_cons] at h
    cases n with
    | zero =>
      split at h
      · cases h
        omega
      · exact h
    | succ n =>
      rw [List.take_succ_cons, longest_cons]
      split at h
      · next found kind' hsome =>
        cases h
        rw [ih hsome (Nat.le_of_succ_le_succ hn)]
      · next hnone =>
        rw [longest_take_eq_none hnone]
        exact h

/-- A shortened text can be followed as far as before, or to its end. -/
theorem reach_take (rules : Lexicon κ) (text : List Char) (n : Nat) :
    rules.reach (text.take n) = min n (rules.reach text) := by
  induction text generalizing rules n with
  | nil => simp [reach]
  | cons c text ih =>
    cases n with
    | zero => simp [reach]
    | succ n =>
      rw [List.take_succ_cons, reach, reach]
      cases rules.after c with
      | nil => rfl
      | cons rule others =>
        simp only [ih]
        omega

end Lexicon

/-- A first token depends on no text behind its end. -/
theorem firstToken_take {c : Char} {text : List Char} {n : Nat}
    (h : (firstToken c text).2 ≤ n) : firstToken c (text.take n) = firstToken c text := by
  unfold firstToken at h ⊢
  cases hlongest : (Lexicon.sdl.after c).longest text with
  | some found =>
    obtain ⟨length, kind⟩ := found
    rw [hlongest] at h
    rw [Lexicon.longest_take hlongest h]
  | none =>
    rw [hlongest] at h
    rw [Lexicon.longest_take_eq_none hlongest, Lexicon.reach_take]
    simp only at h ⊢
    rw [Nat.min_eq_right h]

/-! ## Stretches of tokens -/

/-- The first tokens of a text are the tokens of the text under them. -/
theorem tokenize_chars_of_prefix {text : List Char} {run : Run} (h : run <+: tokenize text) :
    tokenize run.chars = run := by
  induction run generalizing text with
  | nil => exact tokenize_nil
  | cons token run ih =>
    cases text with
    | nil => simp [tokenize_nil] at h
    | cons c text =>
      rw [tokenize_cons, List.cons_prefix_cons] at h
      obtain ⟨rfl, h⟩ := h
      generalize hfirst : firstToken c text = found at h ⊢
      obtain ⟨kind, n⟩ := found
      -- what the remaining tokens cover stands in the text right behind the first token
      have hbehind : Run.chars run <+: text.drop n := by
        obtain ⟨others, hothers⟩ := h
        exact ⟨Run.chars others, by rw [← Run.chars_append, hothers, chars_tokenize]⟩
      have hcut : text.take n ++ Run.chars run = text.take (n + (Run.chars run).length) := by
        rw [List.take_add, ← List.prefix_iff_eq_take.mp hbehind]
      have hsame : firstToken c (text.take (n + (Run.chars run).length)) = (kind, n) := by
        rw [firstToken_take (by rw [hfirst]; exact Nat.le_add_right n _), hfirst]
      have hrest : (text.take (n + (Run.chars run).length)).drop n = Run.chars run := by
        rw [List.drop_take, Nat.add_sub_cancel_left, ← List.prefix_iff_eq_take.mp hbehind]
      rw [Run.chars_cons, List.cons_append, hcut, tokenize_cons, hsame, hrest, ih h,
        List.take_take, Nat.min_eq_left (Nat.le_add_right n _)]

/-- The last tokens of a text are the tokens of the text under them. -/
theorem tokenize_chars_of_suffix {text : List Char} {run : Run} (h : run <:+ tokenize text) :
    tokenize run.chars = run := by
  induction hlength : text.length using Nat.strongRecOn generalizing text with
  | _ n ih =>
    cases text with
    | nil =>
      rw [tokenize_nil, List.suffix_nil] at h
      rw [h]
      exact tokenize_nil
    | cons c text =>
      rw [tokenize_cons, List.suffix_cons_iff] at h
      rcases h with h | h
      · rw [h, ← tokenize_cons, chars_tokenize]
      · refine ih _ ?_ h rfl
        rw [← hlength, List.length_drop, List.length_cons]
        omega

/-- Any stretch of tokens of a text is cut into itself. -/
theorem tokenize_chars_of_isInfix {text : List Char} {run : Run} (h : run <:+: tokenize text) :
    tokenize run.chars = run := by
  obtain ⟨before, after, h⟩ := h
  have hsuffix : tokenize (Run.chars (run ++ after)) = run ++ after :=
    tokenize_chars_of_suffix ⟨before, by rw [← List.append_assoc, h]⟩
  have hprefix : run <+: tokenize (Run.chars (run ++ after)) := by
    rw [hsuffix]
    exact List.prefix_append run after
  exact tokenize_chars_of_prefix hprefix

/-! ## Texts between two bytes -/

namespace Text

/-- The length of a text in bytes of UTF-8. -/
def byteLength : List Char → Nat
  | [] => 0
  | c :: text => c.utf8Size + byteLength text

/-- The text without the characters of its first bytes. -/
def dropBytes : Nat → List Char → List Char
  | _, [] => []
  | 0, text => text
  | bytes + 1, c :: text => dropBytes (bytes + 1 - c.utf8Size) text

/-- The characters of the first bytes of a text. -/
def takeBytes : Nat → List Char → List Char
  | _, [] => []
  | 0, _ => []
  | bytes + 1, c :: text => c :: takeBytes (bytes + 1 - c.utf8Size) text

/-- The characters of a text from one byte up to another. -/
def slice (start stop : Nat) (text : List Char) : List Char :=
  takeBytes (stop - start) (dropBytes start text)

theorem byteLength_cons (c : Char) (text : List Char) :
    byteLength (c :: text) = c.utf8Size + byteLength text := rfl

/-- A text that is not empty has a byte. -/
theorem exists_byteLength_cons (c : Char) (text : List Char) :
    ∃ n, byteLength (c :: text) = n + 1 :=
  Nat.exists_eq_add_one.mpr (by rw [byteLength_cons]; have := c.utf8Size_pos; omega)

theorem byteLength_append (front text : List Char) :
    byteLength (front ++ text) = byteLength front + byteLength text := by
  induction front with
  | nil => exact (Nat.zero_add _).symm
  | cons c front ih => rw [List.cons_append, byteLength_cons, byteLength_cons, ih, Nat.add_assoc]

theorem utf8ByteSize_ofList (text : List Char) :
    (String.ofList text).utf8ByteSize = byteLength text := by
  induction text with
  | nil => rfl
  | cons c text ih =>
    rw [String.ofList_cons, String.utf8ByteSize_append, String.utf8ByteSize_singleton, ih,
      byteLength_cons]

/-- Dropping the bytes of a beginning drops that beginning. -/
theorem dropBytes_append (front text : List Char) :
    dropBytes (byteLength front) (front ++ text) = text := by
  induction front with
  | nil => cases text <;> rfl
  | cons c front ih =>
    obtain ⟨n, hn⟩ := exists_byteLength_cons c front
    rw [List.cons_append, hn, dropBytes, ← hn, byteLength_cons, Nat.add_sub_cancel_left, ih]

/-- Taking the bytes of a beginning takes that beginning. -/
theorem takeBytes_append (front text : List Char) :
    takeBytes (byteLength front) (front ++ text) = front := by
  induction front with
  | nil => cases text <;> rfl
  | cons c front ih =>
    obtain ⟨n, hn⟩ := exists_byteLength_cons c front
    rw [List.cons_append, hn, takeBytes, ← hn, byteLength_cons, Nat.add_sub_cancel_left, ih]

/-- The slice between the ends of two beginnings is what the longer has more. -/
theorem slice_append (before middle after : List Char) :
    slice (byteLength before) (byteLength before + byteLength middle)
      (before ++ (middle ++ after)) = middle := by
  rw [slice, dropBytes_append, Nat.add_sub_cancel_left, takeBytes_append]

end Text

/-- The slice of a text between the ends of two stretches of its tokens is what the tokens between
cover. -/
theorem slice_tokenize {text : List Char} {before middle after : Run}
    (h : tokenize text = before ++ (middle ++ after)) :
    Text.slice (Text.byteLength before.chars)
      (Text.byteLength before.chars + Text.byteLength middle.chars) text = middle.chars := by
  rw [← chars_tokenize text, h, Run.chars_append, Run.chars_append, Text.slice_append]

/-! ## Tokens with their bytes -/

/-- A token and its bytes, moved on by a number of bytes. -/
def shiftSpan (bytes : Nat) (span : Nat × Nat × Token) : Nat × Nat × Token :=
  (bytes + span.1, bytes + span.2.1, span.2.2)

namespace Run

theorem byteLength_token (token : Token) : token.byteLength = Text.byteLength token.text :=
  Text.utf8ByteSize_ofList token.text

/-- A run that starts further on has the same tokens, further on. -/
theorem spansFrom_add (bytes start : Nat) (run : Run) :
    run.spansFrom (bytes + start) = (run.spansFrom start).map (shiftSpan bytes) := by
  induction run generalizing start with
  | nil => rfl
  | cons token run ih =>
    rw [spansFrom, spansFrom, List.map_cons, ← ih, shiftSpan, Nat.add_assoc]

theorem spansFrom_append (start : Nat) (front run : Run) :
    (front ++ run).spansFrom start
      = front.spansFrom start ++ run.spansFrom (start + Text.byteLength front.chars) := by
  induction front generalizing start with
  | nil => simp [spansFrom, Text.byteLength]
  | cons token front ih =>
    rw [List.cons_append, spansFrom, spansFrom, List.cons_append, ih, chars_cons,
      Text.byteLength_append, byteLength_token, Nat.add_assoc]

@[simp] theorem length_spansFrom (start : Nat) (run : Run) :
    (run.spansFrom start).length = run.length := by
  induction run generalizing start with
  | nil => rfl
  | cons token run ih => rw [spansFrom, List.length_cons, ih, List.length_cons]

/-- A token starts where the tokens in front of it end, and stops where it ends itself. -/
theorem bytes_of_getElem?_spansFrom {start i : Nat} {run : Run} {span : Nat × Nat × Token}
    (h : (run.spansFrom start)[i]? = some span) :
    span.1 = start + Text.byteLength (Run.chars (run.take i)) ∧
      span.2.1 = start + Text.byteLength (Run.chars (run.take (i + 1))) := by
  induction run generalizing start i with
  | nil => simp [spansFrom] at h
  | cons token run ih =>
    rw [spansFrom] at h
    cases i with
    | zero =>
      cases h
      simp [Text.byteLength, Token.byteLength, Token.word, Text.utf8ByteSize_ofList]
    | succ i =>
      obtain ⟨hstart, hstop⟩ := ih h
      simp only [List.take_succ_cons, chars_cons, Text.byteLength_append, ← byteLength_token,
        ← Nat.add_assoc] at hstart hstop ⊢
      exact ⟨hstart, hstop⟩

end Run

/-- The text from the start of one token to the end of a later one is cut into the tokens from
the one to the other, and their bytes are those of the whole text less the start. -/
theorem map_shift_spans_tokenize_slice {text : List Char} {i j : Nat}
    {first last : Nat × Nat × Token} (hij : i ≤ j) (hi : (tokenize text).spans[i]? = some first)
    (hj : (tokenize text).spans[j]? = some last) :
    (tokenize (Text.slice first.1 last.2.1 text)).spans.map (shiftSpan first.1)
      = ((tokenize text).spans.drop i).take (j + 1 - i) := by
  have hlength : j < (tokenize text).length := by
    have := (List.getElem?_eq_some_iff.mp hj).1
    simpa [Run.spans] using this
  obtain ⟨hstart, -⟩ := Run.bytes_of_getElem?_spansFrom hi
  obtain ⟨-, hstop⟩ := Run.bytes_of_getElem?_spansFrom hj
  rw [Nat.zero_add] at hstart hstop
  -- the tokens in front, those in the slice, and those behind
  obtain ⟨front, middle, after, hsplit, hfront, hmiddle⟩ :
      ∃ front middle after : Run, tokenize text = front ++ (middle ++ after) ∧
        front.length = i ∧ middle.length = j + 1 - i :=
    ⟨(tokenize text).take i, ((tokenize text).drop i).take (j + 1 - i),
      ((tokenize text).drop i).drop (j + 1 - i),
      by rw [List.take_append_drop, List.take_append_drop], by simp; omega, by simp; omega⟩
  have htext : text = front.chars ++ (middle.chars ++ after.chars) := by
    rw [← Run.chars_append, ← Run.chars_append, ← hsplit, chars_tokenize]
  have hi' : (tokenize text).take i = front := by
    rw [hsplit, ← hfront, List.take_left]
  have hj' : (tokenize text).take (j + 1) = front ++ middle := by
    rw [hsplit, ← List.append_assoc, show j + 1 = (front ++ middle).length by simp; omega,
      List.take_left]
  have hslice : Text.slice first.1 last.2.1 text = middle.chars := by
    rw [hstart, hstop, hi', hj', Run.chars_append, Text.byteLength_append, htext,
      Text.slice_append]
  have hmiddle' : tokenize middle.chars = middle :=
    tokenize_chars_of_isInfix ⟨front, after, by rw [List.append_assoc, hsplit]⟩
  rw [hslice, hmiddle', Run.spans, Run.spans, hsplit, Run.spansFrom_append, ← hfront,
    List.drop_left' (Run.length_spansFrom 0 front), Run.spansFrom_append, hfront, ← hmiddle,
    List.take_left' (Run.length_spansFrom _ middle), Nat.zero_add, hstart, hi',
    ← Run.spansFrom_add, Nat.add_zero]

end SdlSchema
