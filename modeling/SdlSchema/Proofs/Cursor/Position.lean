/-
# Positions and bytes

A text shorter than 4 GiB is read without a fault: its bytes are counted in 32 bits, and each token
ends behind its start.  A position stands for the run from there on.  From the first byte of one
token to the last of a later one, and from the end of one to the start of a later one, the text is
that of the tokens between.

* `Source.read_eq` : a short text is read as the source of its tokens;
* `At` : the run that begins at a position;
* `returns_slice`, `returns_textBetween` : text is cut out under the tokens between two positions.
-/
import SdlSchema.Proofs.Reading.Steps
import SdlSchema.Proofs.Cursor.Walk

namespace SdlSchema

/-! ## Sources -/

/-- The token of a span, with its bytes cut down to 32 bits. -/
def Lexeme.ofSpan (span : Nat × Nat × Token) : Lexeme :=
  ⟨span.2.2, ⟨UInt32.ofNat span.1, UInt32.ofNat span.2.1⟩⟩

/-- A text with its tokens and their bytes. -/
def Source.of (text : List Char) : Source := ⟨text, (tokenize text).spans.map Lexeme.ofSpan⟩

theorem toNat_ofNat_of_lt {n : Nat} (h : n < 2 ^ 32) : (UInt32.ofNat n).toNat = n :=
  UInt32.toNat_ofNat_of_lt' h

/-- Numbers below `2 ^ 32` keep their order in 32 bits. -/
theorem between_ofNat {start stop : Nat} (hle : start ≤ stop) (hlt : stop < 2 ^ 32) :
    ByteRange.between (UInt32.ofNat start) (UInt32.ofNat stop)
      = .ok ⟨UInt32.ofNat start, UInt32.ofNat stop⟩ := by
  rw [ByteRange.between, if_pos]
  rw [UInt32.le_iff_toNat_le, toNat_ofNat_of_lt hlt, toNat_ofNat_of_lt (by omega)]
  exact hle

/-- A short text is cut into its tokens, each with the bytes of its span. -/
theorem Lexeme.all_eq {text : List Char} (h : Text.byteLength text < 2 ^ 32) :
    Lexeme.all text = .ok ((tokenize text).spans.map ofSpan) := by
  have hspans : ∀ spans : List (Nat × Nat × Token),
      (∀ span ∈ spans, span ∈ (tokenize text).spans) →
        spans.mapM read = .ok (spans.map ofSpan) := by
    intro spans hspans
    induction spans with
    | nil => rfl
    | cons span spans ih =>
      obtain ⟨hle, hbound⟩ := le_byteLength_of_mem_spans (hspans span List.mem_cons_self)
      rw [List.mapM_cons, ih fun span hmem => hspans span (List.mem_cons_of_mem _ hmem), read,
        between_ofNat hle (by omega)]
      rfl
  exact hspans _ fun span hmem => hmem

/-- A short text is read as the source of its tokens. -/
theorem Source.read_eq {text : List Char} (h : Text.byteLength text < 2 ^ 32) :
    Source.read text = .ok (Source.of text) := by
  rw [Source.read, Lexeme.all_eq h]
  rfl

/-- The spans of a run have its tokens in their order. -/
theorem Run.map_token_spansFrom (start : Nat) (run : Run) :
    (run.spansFrom start).map (fun span => span.2.2) = run := by
  induction run generalizing start with
  | nil => rfl
  | cons token run ih => rw [spansFrom, List.map_cons, ih]

/-- The source of a text has the tokens of the text. -/
theorem Source.run_of (text : List Char) : (Source.of text).run = tokenize text := by
  rw [Source.run, Source.of, List.map_map]
  exact Run.map_token_spansFrom 0 _

theorem Source.length_lexemes_of (text : List Char) :
    (Source.of text).lexemes.length = (tokenize text).length := by
  rw [← Source.run_of, Source.run, List.length_map]

theorem Source.length_take_run {source : Source} {position : Nat}
    (h : position ≤ source.lexemes.length) : (source.run.take position).length = position := by
  rw [List.length_take, run, List.length_map, Nat.min_eq_left h]

/-- What is left of a source at a token begins with that token. -/
theorem Source.drop_run {source : Source} {position : Nat} {lexeme : Lexeme}
    (h : source.lexemes[position]? = some lexeme) :
    source.run.drop position = lexeme.token :: source.run.drop (position + 1) := by
  obtain ⟨hlt, rfl⟩ := List.getElem?_eq_some_iff.mp h
  rw [List.drop_eq_getElem_cons (by rwa [run, List.length_map])]
  simp [run]

/-! ## Positions -/

/-- The run begins at the position. -/
def At (text : List Char) (position : Nat) (run : Run) : Prop :=
  ∃ front : Run, tokenize text = front ++ run ∧ position = List.length front

namespace At

variable {text : List Char} {position stop : Nat} {run rest : Run}

/-- The whole run of tokens begins at position zero. -/
theorem start (text : List Char) : At text 0 (tokenize text) := ⟨[], rfl, rfl⟩

/-- A position at which a run begins is no more than the number of tokens. -/
theorem le (h : At text position run) : position ≤ (Source.of text).lexemes.length := by
  obtain ⟨front, hsplit, rfl⟩ := h
  rw [Source.length_lexemes_of, hsplit, List.length_append]
  omega

theorem mem {token : Token} (h : At text position run) (hmem : token ∈ run) :
    token ∈ tokenize text := by
  obtain ⟨front, hsplit, -⟩ := h
  rw [hsplit]
  exact List.mem_append_right front hmem

/-- Behind a stretch the rest begins. -/
theorem behind {middle : Run} (h : At text position (middle ++ rest)) :
    At text (position + List.length middle) rest := by
  obtain ⟨front, hsplit, rfl⟩ := h
  exact ⟨front ++ middle, by rw [hsplit, List.append_assoc], by rw [List.length_append]⟩

/-- Behind the first token the rest begins. -/
theorem next {token : Token} (h : At text position (token :: rest)) :
    At text (position + 1) rest :=
  behind (show At text position ([token] ++ rest) from h)

theorem lt {token : Token} (h : At text position (token :: rest)) :
    position + 1 ≤ (Source.of text).lexemes.length := h.next.le

/-- The stretch between two positions. -/
theorem stretch (h : At text position run) (hrest : At text stop rest) (hsuffix : rest <:+ run) :
    ∃ middle : Run, run = middle ++ rest ∧ stop = position + List.length middle := by
  obtain ⟨front, hsplit, rfl⟩ := h
  obtain ⟨front', hsplit', rfl⟩ := hrest
  obtain ⟨middle, rfl⟩ := hsuffix
  refine ⟨middle, rfl, ?_⟩
  have hlength := congrArg List.length (hsplit.symm.trans hsplit')
  simp only [List.length_append] at hlength
  omega

/-- A run begins at one position. -/
theorem unique (h : At text position run) (h' : At text stop run) : stop = position := by
  obtain ⟨middle, hsplit, rfl⟩ := h.stretch h' (List.suffix_refl run)
  rw [List.self_eq_append_left.mp hsplit, List.length_nil, Nat.add_zero]

/-- A position further right is a greater number. -/
theorem lt_of_left (h : At text position run) (hrest : At text stop rest) (hleft : Left rest run) :
    position < stop := by
  obtain ⟨middle, rfl, rfl⟩ := h.stretch hrest hleft.suffix
  have := hleft.length_lt
  rw [List.length_append] at this
  omega

/-- A token stands at the bytes that the tokens in front of it leave. -/
theorem getElem?_lexemes {front : Run} {token : Token}
    (hsplit : tokenize text = front ++ token :: rest) :
    (Source.of text).lexemes[List.length front]? = some (Lexeme.ofSpan
      (Text.byteLength front.chars, Text.byteLength front.chars + Text.byteLength token.text,
        token)) := by
  have hlength : (Run.spansFrom 0 front).length = front.length := by
    rw [← List.length_map (f := fun span : Nat × Nat × Token => span.2.2), Run.map_token_spansFrom]
  rw [Source.of, List.getElem?_map, Run.spans, hsplit, Run.spansFrom_append,
    List.getElem?_append_right (by omega), hlength, Nat.sub_self, Run.spansFrom,
    Run.byteLength_token, Nat.zero_add]
  rfl

theorem getElem?_nil (h : At text position []) : (Source.of text).lexemes[position]? = none := by
  obtain ⟨front, hsplit, rfl⟩ := h
  rw [List.getElem?_eq_none_iff, Source.length_lexemes_of, hsplit, List.append_nil]

end At

/-! ## Cutting text out -/

namespace Walk

/-- The text between two bytes. -/
def cut (start stop : UInt32) : Walk String := fun source position => do
  let range ← ByteRange.between start stop
  let text ← Text.cut range.start.toNat range.stop.toNat source.text
  pure (text, position)

/-- The token at an index, which has to be there. -/
def lexemeAt (index : Nat) : Walk Lexeme := fun source position =>
  match source.lexemes[index]? with
  | some lexeme => .ok (lexeme, position)
  | none => .error .index

/-- The text from the first byte of one token to the last of another. -/
def slice (first last : Nat) : Walk String := do
  let first ← lexemeAt first
  let last ← lexemeAt last
  cut first.range.start last.range.stop

/-- The text from the end of one token to the start of another. -/
def textBetween (opener closer : Lexeme) : Walk String :=
  cut opener.range.stop closer.range.start

variable {text : List Char} {front middle behind run rest body : Run} {here first last : Nat}

/-- The text under consecutive tokens is cut out at their bytes. -/
theorem returns_cut (here : Nat) (hshort : Text.byteLength text < 2 ^ 32)
    (hsplit : tokenize text = front ++ (middle ++ behind)) :
    Returns (cut (UInt32.ofNat (Text.byteLength front.chars))
        (UInt32.ofNat (Text.byteLength front.chars + Text.byteLength middle.chars)))
      (Source.of text) here fun result stop => result = middle.text ∧ stop = here := by
  have htext : text = front.chars ++ (middle.chars ++ behind.chars) := by
    rw [← Run.chars_append, ← Run.chars_append, ← hsplit, chars_tokenize]
  have hbytes := congrArg Text.byteLength htext
  rw [Text.byteLength_append, Text.byteLength_append] at hbytes
  have hstart : Text.isBoundary (Text.byteLength front.chars) text = true :=
    Text.isBoundary_iff.mpr ⟨front.chars, _, htext, rfl⟩
  have hstop : Text.isBoundary (Text.byteLength front.chars + Text.byteLength middle.chars) text
      = true :=
    Text.isBoundary_iff.mpr ⟨front.chars ++ middle.chars, behind.chars,
      by rw [List.append_assoc, ← htext], by rw [Text.byteLength_append]⟩
  have hslice : Text.slice (Text.byteLength front.chars)
      (Text.byteLength front.chars + Text.byteLength middle.chars) text = middle.chars := by
    conv => lhs; rw [htext, Text.slice_append]
  have hcut : Text.cut (UInt32.ofNat (Text.byteLength front.chars)).toNat
      (UInt32.ofNat (Text.byteLength front.chars + Text.byteLength middle.chars)).toNat text
        = .ok middle.text := by
    rw [toNat_ofNat_of_lt (by omega), toNat_ofNat_of_lt (by omega), Text.cut,
      if_pos ⟨Nat.le_add_right _ _, hstart, hstop⟩, hslice]
    rfl
  exact ⟨middle.text, here, bind_eq_ok.mpr ⟨_, between_ofNat (Nat.le_add_right _ _) (by omega),
    bind_eq_ok.mpr ⟨_, hcut, rfl⟩⟩, rfl, rfl⟩

/-- A position that has a token is looked up without a fault. -/
theorem lexemeAt_eq {lexeme : Lexeme} {index : Nat}
    (h : (Source.of text).lexemes[index]? = some lexeme) :
    lexemeAt index (Source.of text) here = .ok (lexeme, here) := by
  rw [lexemeAt, h]

/-- Between a token and the end of one that is not further left the text of a stretch is sliced
out. -/
theorem returns_slice (hshort : Text.byteLength text < 2 ^ 32) (hfirst : At text first run)
    (hlast : At text (last + 1) rest) (hleft : Left rest run) :
    Returns (slice first last) (Source.of text) here
      fun result stop => result = Run.text (run.upTo rest) ∧ stop = here := by
  obtain ⟨middle, rfl, hstop⟩ := hfirst.stretch hlast hleft.suffix
  rw [Run.upTo_append_left]
  have hne : middle ≠ [] := by
    rintro rfl
    exact absurd hleft.length_lt (Nat.lt_irrefl _)
  obtain ⟨front, hsplit, rfl⟩ := hfirst
  obtain ⟨token, tail, htoken⟩ := List.exists_cons_of_ne_nil hne
  obtain ⟨inner, final, hfinal⟩ := (List.eq_nil_or_concat middle).resolve_left hne
  rw [List.concat_eq_append] at hfinal
  -- the stretch has a first token and a last one, whose bytes are where the text is cut
  have hfront : tokenize text = front ++ token :: (tail ++ rest) := by
    rw [hsplit, htoken, List.cons_append]
  have hback : tokenize text = (front ++ inner) ++ final :: rest := by
    rw [hsplit, hfinal]
    simp
  have hfirst := At.getElem?_lexemes hfront
  have hlast := At.getElem?_lexemes hback
  have hindex : List.length (front ++ inner) = last := by
    rw [hfinal] at hstop
    simp only [List.length_append, List.length_singleton] at hstop ⊢
    omega
  rw [hindex] at hlast
  refine .step (lexemeAt_eq hfirst) (.step (lexemeAt_eq hlast) ?_)
  have hbytes : Text.byteLength (Run.chars (front ++ inner)) + Text.byteLength final.text
      = Text.byteLength front.chars + Text.byteLength (Run.chars middle) := by
    rw [hfinal]
    simp [Text.byteLength_append, Nat.add_assoc]
  have hcut := returns_cut here hshort hsplit
  rw [← hbytes] at hcut
  exact hcut

/-- The text of a body is that between the token in front of it and the token behind it. -/
theorem returns_textBetween (hshort : Text.byteLength text < 2 ^ 32) {opener closer : Token}
    (h : At text first (opener :: (body ++ closer :: rest))) {opened closed : Lexeme}
    (hopener : (Source.of text).lexemes[first]? = some opened)
    (hcloser : (Source.of text).lexemes[first + 1 + List.length body]? = some closed) :
    Returns (textBetween opened closed) (Source.of text) here
      fun result stop => result = body.text ∧ stop = here := by
  obtain ⟨front, hsplit, rfl⟩ := h
  have hfirst := At.getElem?_lexemes hsplit
  have hbehind : tokenize text = (front ++ opener :: body) ++ closer :: rest := by
    rw [hsplit]
    simp
  have hlast := At.getElem?_lexemes hbehind
  have hindex : List.length (front ++ opener :: body) = front.length + 1 + List.length body := by
    simp only [List.length_append, List.length_cons]
    omega
  rw [hindex, hcloser] at hlast
  rw [hopener] at hfirst
  cases hfirst
  cases hlast
  have hbetween : tokenize text = (front ++ [opener]) ++ (body ++ closer :: rest) := by
    rw [hsplit]
    simp
  have hcut := returns_cut here hshort hbetween
  have hopens : Text.byteLength (Run.chars (front ++ [opener]))
      = Text.byteLength front.chars + Text.byteLength opener.text := by
    simp [Text.byteLength_append]
  have hcloses : Text.byteLength (Run.chars (front ++ opener :: body))
      = Text.byteLength (Run.chars (front ++ [opener])) + Text.byteLength body.chars := by
    simp [Text.byteLength_append, Nat.add_assoc]
  rw [← hcloses, hopens] at hcut
  exact hcut

end Walk

end SdlSchema
