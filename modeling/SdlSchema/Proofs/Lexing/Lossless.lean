/-
# Nothing is lost in cutting

The tokens of a text lie side by side: the first begins with the text, each begins where the one in
front of it ends, the last ends with the text, and each is what stands between its bytes.  A line
break is a token of its own, unless it stands in a block string, so that lines can be told from
tokens.

* `Text.isBoundary_iff` : the bytes at which a text can be cut;
* `Run.exists_of_mem_spansFrom` : the bytes of a token are those of the tokens in front of it;
* `tokenize_lossless` : the tokens of a text with their bytes, and its line breaks.
-/
import Mathlib.Data.List.Chain
import SdlSchema.Proofs.Lexing.Kinds
import SdlSchema.Proofs.Lexing.Relexing

namespace SdlSchema

/-! ## Where a text can be cut -/

namespace Text

/-- Whether a character of the text begins at the byte, or the text ends there. -/
def isBoundary : Nat → List Char → Bool
  | 0, _ => true
  | _ + 1, [] => false
  | bytes + 1, c :: text =>
    decide (c.utf8Size ≤ bytes + 1) && isBoundary (bytes + 1 - c.utf8Size) text

theorem isBoundary_append (front text : List Char) :
    isBoundary (byteLength front) (front ++ text) = true := by
  induction front with
  | nil => cases text <;> rfl
  | cons c front ih =>
    obtain ⟨n, hn⟩ := exists_byteLength_cons c front
    rw [List.cons_append, hn, isBoundary, ← hn, byteLength_cons, Nat.add_sub_cancel_left, ih]
    simp

/-- A text can be cut exactly behind the bytes of a beginning of it. -/
theorem isBoundary_iff {bytes : Nat} {text : List Char} :
    isBoundary bytes text = true ↔
      ∃ front back, text = front ++ back ∧ byteLength front = bytes := by
  constructor
  · intro h
    induction text generalizing bytes with
    | nil =>
      cases bytes with
      | zero => exact ⟨[], [], rfl, rfl⟩
      | succ bytes => cases h
    | cons c text ih =>
      cases bytes with
      | zero => exact ⟨[], c :: text, rfl, rfl⟩
      | succ bytes =>
        rw [isBoundary, Bool.and_eq_true, decide_eq_true_eq] at h
        obtain ⟨front, back, rfl, hbytes⟩ := ih h.2
        refine ⟨c :: front, back, rfl, ?_⟩
        rw [byteLength_cons, hbytes]
        exact Nat.add_sub_cancel' h.1
  · rintro ⟨front, back, rfl, rfl⟩
    exact isBoundary_append front back

theorem byteLength_pos {text : List Char} (h : text ≠ []) : 0 < byteLength text := by
  cases text with
  | nil => exact absurd rfl h
  | cons c text =>
    have := c.utf8Size_pos
    rw [byteLength_cons]
    omega

end Text

/-! ## Tokens side by side -/

namespace Run

variable {start : Nat} {run : Run}

/-- The bytes of a token begin where those of the tokens in front of it end. -/
theorem exists_of_mem_spansFrom {span : Nat × Nat × Token} (h : span ∈ run.spansFrom start) :
    ∃ front back : Run, run = front ++ span.2.2 :: back ∧
      span.1 = start + Text.byteLength front.chars ∧
      span.2.1 = span.1 + Text.byteLength span.2.2.text := by
  induction run generalizing start with
  | nil => simp [spansFrom] at h
  | cons token run ih =>
    rw [spansFrom, List.mem_cons] at h
    rcases h with rfl | h
    · exact ⟨[], run, rfl, rfl, by rw [byteLength_token]⟩
    · obtain ⟨front, back, hrun, hstart, hstop⟩ := ih h
      refine ⟨token :: front, back, by rw [hrun, List.cons_append], ?_, hstop⟩
      rw [hstart, chars_cons, Text.byteLength_append, byteLength_token, Nat.add_assoc]

theorem isChain_spansFrom (start : Nat) (run : Run) :
    (run.spansFrom start).IsChain fun span next => next.1 = span.2.1 := by
  induction run generalizing start with
  | nil => exact .nil
  | cons token run ih =>
    cases run with
    | nil => exact .singleton _
    | cons next run => exact .cons_cons rfl (ih _)

theorem getLast?_spansFrom {span : Nat × Nat × Token}
    (h : (run.spansFrom start).getLast? = some span) :
    span.2.1 = start + Text.byteLength run.chars := by
  induction run generalizing start with
  | nil => simp [spansFrom] at h
  | cons token run ih =>
    rw [chars_cons, Text.byteLength_append, ← byteLength_token, ← Nat.add_assoc]
    cases run with
    | nil =>
      cases h
      rfl
    | cons next run =>
      rw [spansFrom, spansFrom, List.getLast?_cons_cons, ← spansFrom] at h
      exact ih h

theorem chars_spansFrom (start : Nat) (run : Run) :
    ((run.spansFrom start).map fun span => span.2.2).flatMap Token.text = run.chars := by
  induction run generalizing start with
  | nil => rfl
  | cons token run ih => rw [spansFrom, List.map_cons, List.flatMap_cons, ih, chars_cons]

/-- A character of a text stands in one of the tokens, behind those in front of it. -/
theorem exists_token_of_chars {before after : List Char} {c : Char}
    (h : run.chars = before ++ c :: after) :
    ∃ (front : Run) (token : Token) (back : Run) (inner outer : List Char),
      run = front ++ token :: back ∧ before = front.chars ++ inner ∧
        token.text = inner ++ c :: outer := by
  induction run generalizing before with
  | nil => simp at h
  | cons token run ih =>
    have hlater : ∀ inner, Run.chars run = inner ++ c :: after → before = token.text ++ inner →
        ∃ (front : Run) (found : Token) (back : Run) (inner outer : List Char),
          token :: run = front ++ found :: back ∧ before = front.chars ++ inner ∧
            found.text = inner ++ c :: outer := by
      intro inner hrun hbefore
      obtain ⟨front, found, back, inner', outer, hsplit, hinner, hfound⟩ := ih hrun
      refine ⟨token :: front, found, back, inner', outer, by rw [hsplit, List.cons_append], ?_,
        hfound⟩
      rw [hbefore, hinner, chars_cons, List.append_assoc]
    rw [chars_cons] at h
    rcases List.append_eq_append_iff.mp h with ⟨inner, hbefore, hrun⟩ | ⟨outer, htoken, hrest⟩
    · exact hlater inner hrun hbefore
    · cases outer with
      | nil => exact hlater [] hrest.symm (by rw [htoken, List.append_nil, List.append_nil])
      | cons d outer =>
        obtain ⟨rfl, -⟩ := List.cons.inj hrest
        exact ⟨[], token, run, before, outer, rfl, rfl, htoken⟩

theorem mem_spansFrom_append (start : Nat) (front back : Run) (token : Token) :
    (start + Text.byteLength front.chars,
        start + Text.byteLength front.chars + Text.byteLength token.text, token)
      ∈ (front ++ token :: back).spansFrom start := by
  rw [spansFrom_append, spansFrom, byteLength_token]
  exact List.mem_append_right _ List.mem_cons_self

end Run

/-! ## Tokens with their bytes -/

/-- A token of a text stands behind the tokens in front of it, at the bytes that they leave. -/
theorem exists_of_mem_spans_tokenize {text : List Char} {span : Nat × Nat × Token}
    (h : span ∈ (tokenize text).spans) :
    ∃ front back : Run, tokenize text = front ++ span.2.2 :: back ∧
      text = front.chars ++ (span.2.2.text ++ back.chars) ∧
      span.1 = Text.byteLength front.chars ∧
      span.2.1 = Text.byteLength front.chars + Text.byteLength span.2.2.text := by
  obtain ⟨front, back, hsplit, hstart, hstop⟩ := Run.exists_of_mem_spansFrom h
  rw [Nat.zero_add] at hstart
  refine ⟨front, back, hsplit, ?_, hstart, by rw [hstop, hstart]⟩
  rw [← Run.chars_cons, ← Run.chars_append, ← hsplit, chars_tokenize]

/-- No token of a text goes beyond its bytes. -/
theorem le_byteLength_of_mem_spans {text : List Char} {span : Nat × Nat × Token}
    (h : span ∈ (tokenize text).spans) :
    span.1 ≤ span.2.1 ∧ span.2.1 ≤ Text.byteLength text := by
  obtain ⟨front, back, -, htext, hstart, hstop⟩ := exists_of_mem_spans_tokenize h
  have htotal := congrArg Text.byteLength htext
  rw [Text.byteLength_append, Text.byteLength_append] at htotal
  omega

/-- Tokens with their bytes that together are a text: none is empty, all stand between characters,
and they follow each other from the first byte of the text to the last. -/
structure CutsWhole (text : List Char) (spans : List (Nat × Nat × Token)) : Prop where
  chars : (spans.map fun span => span.2.2).flatMap Token.text = text
  ordered : ∀ span ∈ spans, span.1 < span.2.1
  boundaries : ∀ span ∈ spans,
    Text.isBoundary span.1 text = true ∧ Text.isBoundary span.2.1 text = true
  first : ∀ span ∈ spans.head?, span.1 = 0
  contiguous : spans.IsChain fun span next => next.1 = span.2.1
  last : ∀ span ∈ spans.getLast?, span.2.1 = Text.byteLength text
  slices : ∀ span ∈ spans, span.2.2.text = Text.slice span.1 span.2.1 text

/-- The tokens of a text are the whole text. -/
theorem cutsWhole_spans_tokenize (text : List Char) : CutsWhole text (tokenize text).spans where
  chars := by rw [Run.spans, Run.chars_spansFrom, chars_tokenize]
  ordered := by
    intro span hspan
    obtain ⟨front, back, hsplit, -, hstart, hstop⟩ := exists_of_mem_spans_tokenize hspan
    -- no token is empty, so no span is
    have hne : span.2.2.text ≠ [] := text_ne_nil_of_mem_tokenize (by rw [hsplit]; simp)
    have := Text.byteLength_pos hne
    omega
  boundaries := by
    intro span hspan
    obtain ⟨front, back, -, htext, hstart, hstop⟩ := exists_of_mem_spans_tokenize hspan
    constructor
    · exact Text.isBoundary_iff.mpr ⟨front.chars, _, htext, hstart.symm⟩
    · refine Text.isBoundary_iff.mpr ⟨front.chars ++ span.2.2.text, back.chars, ?_, ?_⟩
      · rw [List.append_assoc]
        exact htext
      · rw [Text.byteLength_append, hstop]
  first := by
    intro span hspan
    cases hrun : tokenize text with
    | nil =>
      rw [hrun] at hspan
      cases hspan
    | cons token run =>
      rw [hrun] at hspan
      cases hspan
      rfl
  contiguous := Run.isChain_spansFrom 0 _
  last := by
    intro span hspan
    rw [Run.getLast?_spansFrom hspan, chars_tokenize, Nat.zero_add]
  slices := by
    intro span hspan
    obtain ⟨front, back, -, htext, hstart, hstop⟩ := exists_of_mem_spans_tokenize hspan
    conv => rhs; rw [hstart, hstop, htext, Text.slice_append]

/-- A line break of a text is a token of its own or stands in a block string. -/
theorem exists_span_of_lineBreak {text before after : List Char}
    (h : text = before ++ '\n' :: after) :
    ∃ span ∈ (tokenize text).spans,
      span.1 ≤ Text.byteLength before ∧ Text.byteLength before < span.2.1 ∧
        (span.2.2 = ⟨.newline, ['\n']⟩ ∨ span.2.2.kind = .blockString) := by
  rw [← chars_tokenize text] at h
  obtain ⟨front, token, back, inner, outer, hsplit, hbefore, htoken⟩ :=
    Run.exists_token_of_chars h
  have hmem : token ∈ tokenize text := by
    rw [hsplit]
    exact List.mem_append_right _ List.mem_cons_self
  have hspan := Run.mem_spansFrom_append 0 front back token
  rw [← hsplit, Nat.zero_add] at hspan
  have hstart : Text.byteLength before = Text.byteLength front.chars + Text.byteLength inner := by
    rw [hbefore, Text.byteLength_append]
  have hstop : Text.byteLength inner < Text.byteLength token.text := by
    have := @Text.byteLength_pos ('\n' :: outer) (by simp)
    rw [htoken, Text.byteLength_append]
    omega
  refine ⟨_, hspan, ?_, ?_, eq_lineBreak_or_blockString hmem (by rw [htoken]; simp)⟩
  · show Text.byteLength front.chars ≤ Text.byteLength before
    omega
  · show Text.byteLength before < Text.byteLength front.chars + Text.byteLength token.text
    omega

/-! ## Main result -/

/-- **Cutting is lossless and keeps the lines.**  The tokens of a text, with the bytes from which
and up to which they stand in it, are the whole text one after the other.  Each of its line breaks
is a token of its own or stands inside a block string.  In a text that is shorter than 4 GiB the
bytes fit into 32 bits. -/
theorem tokenize_lossless (text : List Char) :
    CutsWhole text (tokenize text).spans ∧
    (∀ before after, text = before ++ '\n' :: after →
      ∃ span ∈ (tokenize text).spans,
        span.1 ≤ Text.byteLength before ∧ Text.byteLength before < span.2.1 ∧
          (span.2.2 = ⟨.newline, ['\n']⟩ ∨ span.2.2.kind = .blockString)) ∧
    (Text.byteLength text < 2 ^ 32 → ∀ span ∈ (tokenize text).spans,
      (UInt32.ofNat span.1).toNat = span.1 ∧ (UInt32.ofNat span.2.1).toNat = span.2.1) := by
  refine ⟨cutsWhole_spans_tokenize text, fun _ _ h => exists_span_of_lineBreak h, ?_⟩
  intro hshort span hspan
  obtain ⟨hle, hbound⟩ := le_byteLength_of_mem_spans hspan
  constructor
  · exact UInt32.toNat_ofNat_of_lt' (by show span.1 < 2 ^ 32; omega)
  · exact UInt32.toNat_ofNat_of_lt' (by show span.2.1 < 2 ^ 32; omega)

/-- A line break behind a character of two bytes, and one in a block string. -/
theorem tokenize_lossless_blockString :
    CutsWhole "é\n\"\"\"\n\"\"\"".toList (tokenize "é\n\"\"\"\n\"\"\"".toList).spans ∧
      ∃ span ∈ (tokenize "é\n\"\"\"\n\"\"\"".toList).spans, span.1 ≤ 6 ∧ 6 < span.2.1 ∧
        (span.2.2 = ⟨.newline, ['\n']⟩ ∨ span.2.2.kind = .blockString) := by
  obtain ⟨hwhole, hbreaks, -⟩ := tokenize_lossless "é\n\"\"\"\n\"\"\"".toList
  exact ⟨hwhole, hbreaks ['é', '\n', '"', '"', '"'] ['"', '"', '"'] rfl⟩

end SdlSchema
