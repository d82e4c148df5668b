/-
# Readers without a block

Lists of names, the declarations without a block and the lines of a body are read without taking a
brace, up to a significant token and trivia of its line.  Where a declaration without a block does
not read, it is never for lack of text.

* `Reader.IsPlain`, `ListTail.IsPlain` : these three laws, for readers and for what goes on a list;
* `NameList.isPlain_reader` : lists of names obey them if their items do;
* `UnionDeclaration.isPlain_reader`, `ScalarDeclaration.isPlain_reader`,
  `DirectiveDeclaration.isPlain_reader` : so do the declarations without a block.
-/
import SdlSchema.Proofs.Scanning.Braceless

namespace SdlSchema

/-! ## Lists of names -/

/-- The reader reads no brace, ends in a line, and never lacks text. -/
structure Reader.IsPlain {α : Type} (reader : Reader α) : Prop where
  braceless : ∀ {run rest : Run} {item : α}, reader.read run = .ok (item, rest) →
    Braceless rest run
  endsInLine : ∀ {run rest : Run} {item : α}, reader.read run = .ok (item, rest) →
    EndsInLine rest run
  notExhausted : ∀ run : Run, reader.read run ≠ .error .exhausted

/-- The items with which a list goes on hold no brace, end in a line, and never lack text. -/
structure ListTail.IsPlain (tail : ListTail Element) : Prop where
  braceless : ∀ {run rest : Run} {item : Element}, tail.next run = .ok (some (item, rest)) →
    Braceless rest run
  endsInLine : ∀ {run rest : Run} {item : Element}, tail.next run = .ok (some (item, rest)) →
    EndsInLine rest run
  notExhausted : ∀ run : Run, tail.next run ≠ .error .exhausted

/-- If two steps fail, the first does, or the second on what the first leaves. -/
theorem bind_eq_error {ε α β : Type} {x : Except ε α} {f : α → Except ε β} {miss : ε} :
    (x >>= f) = .error miss ↔ x = .error miss ∨ ∃ a, x = .ok a ∧ f a = .error miss := by
  cases x with
  | error e =>
    exact ⟨fun h => Or.inl (by cases h; rfl),
      fun h => h.elim (fun h => by cases h; rfl) fun ⟨_, h, _⟩ => (nomatch h)⟩
  | ok a =>
    exact ⟨fun h => Or.inr ⟨a, rfl, h⟩,
      fun h => h.elim (fun h => (nomatch h)) fun ⟨_, h, h'⟩ => by cases h; exact h'⟩

/-- A name with its markers is plain: the markers stand on its line. -/
theorem Element.isPlain_reader : Element.reader.IsPlain where
  braceless h := by
    obtain ⟨⟨name, left⟩, hname, heq⟩ := bind_eq_ok.mp h
    cases heq
    exact (Run.acceptMarkers_braceless (fun _ => Token.isTrivia_of_isInlineTrivia) left).trans
      (Run.expectName_braceless hname)
  endsInLine h := by
    obtain ⟨⟨name, left⟩, hname, heq⟩ := bind_eq_ok.mp h
    cases heq
    exact Run.acceptMarkers_endsInLine (fun _ => Token.isTrivia_of_isInlineTrivia)
      (Run.expectName_endsInLine hname)
  notExhausted run h := by
    rcases bind_eq_error.mp h with h | ⟨found, -, h⟩
    · exact Run.expectName_ne_exhausted run h
    · cases h

/-- A name alone is plain. -/
theorem Element.isPlain_bareReader : Element.bareReader.IsPlain where
  braceless h := by
    obtain ⟨⟨name, left⟩, hname, heq⟩ := bind_eq_ok.mp h
    cases heq
    exact Run.expectName_braceless hname
  endsInLine h := by
    obtain ⟨⟨name, left⟩, hname, heq⟩ := bind_eq_ok.mp h
    cases heq
    exact Run.expectName_endsInLine hname
  notExhausted run h := by
    rcases bind_eq_error.mp h with h | ⟨found, -, h⟩
    · exact Run.expectName_ne_exhausted run h
    · cases h

/-- An item that is read and handed on was read. -/
theorem map_some_eq_ok {ε α : Type} {x : Except ε α} {a : α}
    (h : x.map some = .ok (some a)) : x = .ok a := by
  cases x with
  | error e => cases h
  | ok b => cases h; rfl

theorem map_some_ne_error {ε α : Type} {x : Except ε α} {e : ε} (h : x ≠ .error e) :
    x.map some ≠ .error e := by
  cases x with
  | error e' => simpa [Except.map] using h
  | ok b => simp [Except.map]

namespace ListTail

/-- A list that goes on at pipes is plain if its items are; the pipe and the trivia around it hold
no brace. -/
theorem isPlain_piped {item : Reader Element} (hitem : item.IsPlain) : (piped item).IsPlain where
  braceless h := by
    simp only [piped] at h
    split at h
    · next inner hpipe =>
      exact (hitem.braceless (map_some_eq_ok h)).trans ((Braceless.skipTrivia inner).trans
        ((Run.take?_braceless hpipe (by simp) (by simp)).trans (Braceless.skipTrivia _)))
    · cases h
  endsInLine {run rest _} h := by
    simp only [piped] at h
    split at h
    · next inner hpipe =>
      exact (hitem.endsInLine (map_some_eq_ok h)).of_suffix
        ((Run.skipTrivia_suffix inner).trans
          ((Run.take?_left hpipe).suffix.trans (Run.skipTrivia_suffix run)))
    · cases h
  notExhausted run h := by
    simp only [piped] at h
    split at h
    · next inner hpipe => exact map_some_ne_error (hitem.notExhausted _) h
    · cases h

/-- Neither mark that joins interfaces is a brace. -/
theorem afterJoiner?_braceless {run rest : Run} (h : afterJoiner? run = some rest) :
    Braceless rest run := by
  rcases Option.or_eq_some_iff.mp h with h | ⟨-, h⟩ <;>
    exact (Run.take?_braceless h (by simp) (by simp)).trans (.skipTrivia run)

/-- A list of interfaces goes on at a mark, over line breaks, or with a name on the same line. -/
theorem isPlain_joined : joined.IsPlain where
  braceless {run rest _} h := by
    simp only [joined] at h
    split at h
    · next inner hjoin =>
      exact (Element.isPlain_bareReader.braceless (map_some_eq_ok h)).trans
        ((Braceless.skipTrivia inner).trans (afterJoiner?_braceless hjoin))
    · split at h
      · next found hread =>
        cases h
        exact (Element.isPlain_bareReader.braceless hread).trans (.skipInline run)
      · cases h
  endsInLine {run rest _} h := by
    simp only [joined] at h
    split at h
    · next inner hjoin =>
      exact (Element.isPlain_bareReader.endsInLine (map_some_eq_ok h)).of_suffix
        ((Run.skipTrivia_suffix inner).trans (afterJoiner?_suffix hjoin))
    · split at h
      · next found hread =>
        cases h
        exact (Element.isPlain_bareReader.endsInLine hread).of_suffix (Run.skipInline_suffix run)
      · cases h
  notExhausted run h := by
    simp only [joined] at h
    split at h
    · next inner hjoin =>
      exact map_some_ne_error (Element.isPlain_bareReader.notExhausted _) h
    · split at h <;> cases h

variable {tail : ListTail Element}

/-- No item of a list holds a brace, so the list does not. -/
theorem IsPlain.braceless_read (htail : tail.IsPlain) {run rest : Run} {items : List Element}
    (h : tail.read run = .ok (items, rest)) : Braceless rest run := by
  fun_induction read tail run generalizing items rest with
  | case1 run miss hnext => cases h
  | case2 run hnext => cases h; exact .refl run
  | case3 run item left hnext miss hmiss ih => cases h
  | case4 run item left hnext others rest' hothers ih =>
    cases h
    exact (ih hothers).trans (htail.braceless hnext)

/-- The items of a list end in a line, as what stands in front of them does. -/
theorem IsPlain.endsInLine_read (htail : tail.IsPlain) {start middle rest : Run}
    {items : List Element} (hmiddle : EndsInLine middle start)
    (h : tail.read middle = .ok (items, rest)) : EndsInLine rest start := by
  fun_induction read tail middle generalizing items rest with
  | case1 run miss hnext => cases h
  | case2 run hnext => cases h; exact hmiddle
  | case3 run item left hnext miss hmiss ih => cases h
  | case4 run item left hnext others rest' hothers ih =>
    cases h
    obtain ⟨front, token, blanks, rfl, -, -⟩ := hmiddle
    exact ih ((htail.endsInLine hnext).of_suffix ⟨front ++ token :: blanks, by simp⟩) hothers

/-- A list never lacks text, since it may end behind any of its items. -/
theorem IsPlain.read_ne_exhausted (htail : tail.IsPlain) (run : Run) :
    tail.read run ≠ .error .exhausted := by
  fun_induction read tail run with
  | case1 run miss hnext =>
    intro h
    cases h
    exact htail.notExhausted run hnext
  | case2 run hnext => simp
  | case3 run item left hnext miss hmiss ih =>
    intro h
    cases h
    exact ih hmiss
  | case4 run item left hnext others rest' hothers ih => simp

end ListTail

/-- A list with a mark in front that is no brace is plain, if its first item is and what follows it.
-/
theorem NameList.isPlain_reader {lead : Punctuation} {item : Reader Element}
    {tail : ListTail Element} (hleft : lead ≠ .leftBrace) (hright : lead ≠ .rightBrace)
    (hitem : item.IsPlain) (htail : tail.IsPlain) : (NameList.reader lead item tail).IsPlain where
  braceless {run rest list} h := by
    obtain ⟨⟨first, afterFirst⟩, hfirst, h⟩ := bind_eq_ok.mp h
    obtain ⟨⟨others, afterOthers⟩, hothers, h⟩ := bind_eq_ok.mp h
    cases h
    -- the mark in front of the list may be missing
    have hstart : Braceless (((run.take? (.punctuation lead)).map Run.skipTrivia).getD run)
        run := by
      cases hlead : run.take? (.punctuation lead) with
      | none => exact .refl run
      | some inner =>
        exact (Braceless.skipTrivia inner).trans
          (Run.take?_braceless hlead (by simpa using hleft) (by simpa using hright))
    exact (htail.braceless_read hothers).trans ((hitem.braceless hfirst).trans hstart)
  endsInLine {run rest list} h := by
    obtain ⟨⟨first, afterFirst⟩, hfirst, h⟩ := bind_eq_ok.mp h
    obtain ⟨⟨others, afterOthers⟩, hothers, h⟩ := bind_eq_ok.mp h
    cases h
    exact htail.endsInLine_read
      ((hitem.endsInLine hfirst).of_suffix (lead_suffix lead run)) hothers
  notExhausted run h := by
    rcases bind_eq_error.mp h with h | ⟨found, -, h⟩
    · exact hitem.notExhausted _ h
    · rcases bind_eq_error.mp h with h | ⟨found', -, h⟩
      · exact htail.read_ne_exhausted _ h
      · cases h

theorem NameList.isPlain_members : NameList.members.IsPlain :=
  isPlain_reader (by simp) (by simp) Element.isPlain_reader
    (ListTail.isPlain_piped Element.isPlain_reader)

/-- The places of a directive definition have no markers. -/
theorem NameList.isPlain_locations : NameList.locations.IsPlain :=
  isPlain_reader (by simp) (by simp) Element.isPlain_bareReader
    (ListTail.isPlain_piped Element.isPlain_bareReader)

theorem NameList.isPlain_interfaces : NameList.interfaces.IsPlain :=
  isPlain_reader (by simp) (by simp) Element.isPlain_bareReader ListTail.isPlain_joined

/-! ## Headings -/

/-- Markers on whatever line hold no brace, nor does the trivia behind them. -/
theorem Braceless.markers {rest run : Run} (h : Braceless rest run) :
    Braceless (rest.acceptMarkers Token.isTrivia).2.skipTrivia run :=
  (skipTrivia _).trans ((Run.acceptMarkers_braceless (fun _ h => h) rest).trans h)

section Headings

variable {word : Keyword} {run afterKeyword afterName : Run} {name : String}

/-- The keyword and the name of a declaration hold no brace, with `extend` in front or not. -/
theorem Run.title_braceless
    (hkeyword : run.acceptExtend.2.expect (.keyword word) = .ok afterKeyword)
    (hname : afterKeyword.skipTrivia.expectName = .ok (name, afterName)) :
    Braceless afterName run :=
  (expectName_braceless hname).trans <| (Braceless.skipTrivia afterKeyword).trans <|
    (expect_braceless hkeyword (by simp) (by simp)).trans (acceptExtend_braceless run)

/-- Up to the equals sign and the list behind it, a union holds no brace. -/
theorem UnionDeclaration.opening_braceless {afterEquals : Run}
    (hkeyword : run.acceptExtend.2.expect (.keyword word) = .ok afterKeyword)
    (hname : afterKeyword.skipTrivia.expectName = .ok (name, afterName))
    (hequals : (afterName.acceptMarkers Token.isTrivia).2.skipTrivia.expect (.punctuation .equals)
      = .ok afterEquals) : Braceless afterEquals.skipTrivia run :=
  (Braceless.skipTrivia afterEquals).trans <|
    (Run.expect_braceless hequals (by simp) (by simp)).trans
      (Run.title_braceless hkeyword hname).markers

end Headings

/-! ## Declarations without a block -/

/-- A union ends with its last member or the markers of it. -/
theorem UnionDeclaration.isPlain_reader : UnionDeclaration.reader.IsPlain where
  braceless {run _ _} h := by
    obtain ⟨afterKeyword, hkeyword, h⟩ := bind_eq_ok.mp h
    obtain ⟨⟨name, afterName⟩, hname, h⟩ := bind_eq_ok.mp h
    obtain ⟨afterEquals, hequals, h⟩ := bind_eq_ok.mp h
    obtain ⟨⟨members, afterMembers⟩, hmembers, h⟩ := bind_eq_ok.mp h
    cases h
    exact (NameList.isPlain_members.braceless hmembers).trans
      (opening_braceless hkeyword hname hequals)
  endsInLine {run _ _} h := by
    obtain ⟨afterKeyword, hkeyword, h⟩ := bind_eq_ok.mp h
    obtain ⟨⟨name, afterName⟩, hname, h⟩ := bind_eq_ok.mp h
    obtain ⟨afterEquals, hequals, h⟩ := bind_eq_ok.mp h
    obtain ⟨⟨members, afterMembers⟩, hmembers, h⟩ := bind_eq_ok.mp h
    cases h
    exact (NameList.isPlain_members.endsInLine hmembers).of_suffix
      (opening_braceless hkeyword hname hequals).suffix
  notExhausted run h := by
    rcases bind_eq_error.mp h with h | ⟨afterKeyword, -, h⟩
    · exact Run.expect_ne_exhausted _ _ h
    rcases bind_eq_error.mp h with h | ⟨⟨name, afterName⟩, -, h⟩
    · exact Run.expectName_ne_exhausted _ h
    rcases bind_eq_error.mp h with h | ⟨afterEquals, -, h⟩
    · exact Run.expect_ne_exhausted _ _ h
    rcases bind_eq_error.mp h with h | ⟨found, -, h⟩
    · exact NameList.isPlain_members.notExhausted _ h
    · cases h

/-- A scalar ends with its name or its markers, in front of the end of the line. -/
theorem ScalarDeclaration.isPlain_reader : ScalarDeclaration.reader.IsPlain where
  braceless {run _ _} h := by
    obtain ⟨afterKeyword, hkeyword, h⟩ := bind_eq_ok.mp h
    obtain ⟨⟨name, afterName⟩, hname, h⟩ := bind_eq_ok.mp h
    dsimp only at h
    split at h
    · cases h
      exact (Braceless.skipInline _).trans <|
        (Run.acceptMarkers_braceless (fun _ => Token.isTrivia_of_isInlineTrivia) afterName).trans
          (Run.title_braceless hkeyword hname)
    · cases h
  endsInLine {run _ _} h := by
    obtain ⟨afterKeyword, hkeyword, h⟩ := bind_eq_ok.mp h
    obtain ⟨⟨name, afterName⟩, hname, h⟩ := bind_eq_ok.mp h
    dsimp only at h
    split at h
    · cases h
      have hends := (Run.expectName_endsInLine hname).of_suffix <|
        (Run.skipTrivia_suffix afterKeyword).trans <|
        (Run.expect_left hkeyword).suffix.trans (Run.acceptExtend_suffix run)
      exact (Run.acceptMarkers_endsInLine
        (fun _ => Token.isTrivia_of_isInlineTrivia) hends).skipInline
    · cases h
  notExhausted run h := by
    rcases bind_eq_error.mp h with h | ⟨afterKeyword, -, h⟩
    · exact Run.expect_ne_exhausted _ _ h
    rcases bind_eq_error.mp h with h | ⟨⟨name, afterName⟩, -, h⟩
    · exact Run.expectName_ne_exhausted _ h
    dsimp only at h
    split at h <;> cases h

namespace DirectiveDeclaration

/-- The marker of a directive definition is one token, and no brace. -/
theorem readMarker_braceless {run rest : Run} {marker : String}
    (h : readMarker run = .ok (marker, rest)) : Braceless rest run := by
  obtain ⟨token, rfl, htoken, -⟩ := readMarker_eq_ok h
  have hkind : token.kind = .marker := by simpa [Token.isMarker] using htoken
  exact .cons (Token.isBrace_eq_false_of_kind hkind (by simp) (by simp)) _

theorem readMarker_ne_exhausted (run : Run) : readMarker run ≠ .error .exhausted := by
  unfold readMarker
  split
  · simp
  · split <;> simp

/-- Up to the list of its places, a directive definition holds no brace. -/
theorem opening_braceless {run afterKeyword afterMarker afterOn : Run} {marker : String}
    (hkeyword : run.expect (.keyword .directive) = .ok afterKeyword)
    (hmarker : readMarker afterKeyword.skipInline = .ok (marker, afterMarker))
    (hon : (afterMarker.skipTrivia.accept (.keyword .repeatable)).2.skipTrivia.expect (.keyword .on)
      = .ok afterOn) : Braceless afterOn.skipTrivia run := by
  -- whether or not the directive is repeatable, no brace is passed
  have haccept : Braceless (afterMarker.skipTrivia.accept (.keyword .repeatable)).2
      afterMarker.skipTrivia := by
    unfold Run.accept
    split
    · next htake => exact Run.take?_braceless htake (by simp) (by simp)
    · exact .refl _
  exact (Braceless.skipTrivia afterOn).trans <|
    (Run.expect_braceless hon (by simp) (by simp)).trans <| (Braceless.skipTrivia _).trans <|
    haccept.trans <| (Braceless.skipTrivia afterMarker).trans <|
    (readMarker_braceless hmarker).trans <| (Braceless.skipInline afterKeyword).trans
      (Run.expect_braceless hkeyword (by simp) (by simp))

/-- A directive definition ends with the last of its places. -/
theorem isPlain_reader : reader.IsPlain where
  braceless {run _ _} h := by
    obtain ⟨afterKeyword, hkeyword, h⟩ := bind_eq_ok.mp h
    obtain ⟨⟨marker, afterMarker⟩, hmarker, h⟩ := bind_eq_ok.mp h
    obtain ⟨afterOn, hon, h⟩ := bind_eq_ok.mp h
    obtain ⟨⟨locations, afterLocations⟩, hlocations, h⟩ := bind_eq_ok.mp h
    cases h
    exact (NameList.isPlain_locations.braceless hlocations).trans
      (opening_braceless hkeyword hmarker hon)
  endsInLine {run _ _} h := by
    obtain ⟨afterKeyword, hkeyword, h⟩ := bind_eq_ok.mp h
    obtain ⟨⟨marker, afterMarker⟩, hmarker, h⟩ := bind_eq_ok.mp h
    obtain ⟨afterOn, hon, h⟩ := bind_eq_ok.mp h
    obtain ⟨⟨locations, afterLocations⟩, hlocations, h⟩ := bind_eq_ok.mp h
    cases h
    exact (NameList.isPlain_locations.endsInLine hlocations).of_suffix
      (opening_braceless hkeyword hmarker hon).suffix
  notExhausted run h := by
    rcases bind_eq_error.mp h with h | ⟨afterKeyword, -, h⟩
    · exact Run.expect_ne_exhausted _ _ h
    rcases bind_eq_error.mp h with h | ⟨⟨marker, afterMarker⟩, -, h⟩
    · exact readMarker_ne_exhausted _ h
    rcases bind_eq_error.mp h with h | ⟨afterOn, -, h⟩
    · exact Run.expect_ne_exhausted _ _ h
    rcases bind_eq_error.mp h with h | ⟨found, -, h⟩
    · exact NameList.isPlain_locations.notExhausted _ h
    · cases h

end DirectiveDeclaration

/-! ## Lines -/

theorem Run.expectType_ne_exhausted (run : Run) : run.expectType ≠ .error .exhausted := by
  unfold expectType
  split <;> simp

/-- A type, a default value and markers may be missing or wrong, but never lack text. -/
theorem TypedLine.read_ne_exhausted (run : Run) : read run ≠ .error .exhausted := by
  intro h
  rcases bind_eq_error.mp h with h | ⟨_, -, h⟩
  · exact Run.expect_ne_exhausted _ _ h
  rcases bind_eq_error.mp h with h | ⟨_, -, h⟩
  · exact Run.expectType_ne_exhausted _ h
  dsimp only at h
  split at h <;> cases h

/-- An argument has no block, and so the text does not end inside it. -/
theorem ArgumentLine.read_ne_exhausted (run : Run) : reader.read run ≠ .error .exhausted := by
  intro h
  rcases bind_eq_error.mp h with h | ⟨_, -, h⟩
  · exact Run.expectName_ne_exhausted _ h
  rcases bind_eq_error.mp h with h | ⟨_, -, h⟩
  · exact TypedLine.read_ne_exhausted _ h
  · cases h

end SdlSchema
