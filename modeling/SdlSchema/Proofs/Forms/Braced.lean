/-
# Forms of declarations with a block

An object, interface or input declaration is an opening up to a brace and then a block; so is an
enum.  The opening is read greedily, but what may follow each of its parts is no part of it, so
nothing is lost by that: markers or the brace behind interfaces are no names, and no name is a
marker or a brace.  Counting braces finds the closer that balances the opener, if there is one.

* `Run.balanced_iff` : what counting brackets finds, by the brackets in front of each token;
* `FieldedDeclaration.readOpening_iff` : the opening of an object, interface or input;
* `braced_declarations_read_iff` : the readers of declarations with a block against their forms.
-/
import SdlSchema.Proofs.Forms.Headings
import SdlSchema.Proofs.Forms.Lists
import SdlSchema.Proofs.Reading.Pairing

namespace SdlSchema

variable {run rest : Run}

/-! ## Blocks -/

namespace Run

variable {bracket : Bracket} {body : Run} {depth : Nat}

/-- Up to no token have more brackets been closed than opened, and in the end all are closed. -/
structure Balances (bracket : Bracket) (body : Run) : Prop where
  prefix_le : ∀ front, front <+: body → closers bracket front ≤ openers bracket front
  closers_eq : closers bracket body = openers bracket body

theorem closers_prefix_le_of_balanced (h : run.balanced bracket depth = some (body, rest))
    {front : Run} (hfront : front <+: body) :
    closers bracket front ≤ openers bracket front + depth := by
  obtain ⟨hcount, hbehind⟩ := closers_of_balanced h
  obtain ⟨behind, rfl⟩ := hfront
  have hle := hbehind behind (List.suffix_append front behind)
  simp only [closers, openers, List.countP_append] at hcount hle ⊢
  omega

/-- A closer behind as many closers as openers is found, if none in front of it closes the bracket
before. -/
theorem balanced_append {closer : Token} (hcloser : closer.isMark bracket.closer = true)
    (hcount : closers bracket body = openers bracket body + depth)
    (hfronts : ∀ front, front <+: body → closers bracket front ≤ openers bracket front + depth)
    (rest : Run) : balanced bracket depth (body ++ closer :: rest) = some (body, rest) := by
  induction body generalizing depth with
  | nil =>
    have hdepth : depth = 0 := by simpa [closers, openers] using hcount.symm
    rw [List.nil_append, balanced, if_pos ⟨hcloser, hdepth⟩]
  | cons token body ih =>
    have hfirst := hfronts [token] (by simp)
    -- the condition on fronts carries over to the rest, with the count changed by the first token
    have hinner : ∀ front, front <+: body →
        closers bracket (token :: front) ≤ openers bracket (token :: front) + depth :=
      fun front hfront => hfronts _ (by simpa using hfront)
    simp only [closers_cons, openers_cons] at hcount hinner
    simp only [closers, openers, List.countP_singleton] at hfirst
    rw [List.cons_append, balanced]
    by_cases hopens : token.isMark bracket.opener = true
    · have hcloses := not_closer_of_opener hopens
      simp only [hopens, hcloses, if_true, Bool.false_eq_true, false_and, if_false]
        at hcount hinner ⊢
      rw [ih (by omega) fun front hfront => by have := hinner front hfront; omega]
      rfl
    · by_cases hcloses : token.isMark bracket.closer = true
      · simp only [hopens, hcloses, if_true, Bool.false_eq_true, if_false] at hfirst hcount hinner
        -- a closer in front of ours closes a bracket that opened inside
        have hdepth : depth ≠ 0 := by omega
        rw [if_neg fun h => hdepth h.2]
        simp only [hopens, hcloses, if_true, Bool.false_eq_true, if_false]
        rw [ih (by omega) fun front hfront => by have := hinner front hfront; omega]
        rfl
      · simp only [hopens, hcloses, Bool.false_eq_true, false_and, if_false] at hcount hinner ⊢
        rw [ih (by omega) fun front hfront => by have := hinner front hfront; omega]
        rfl

/-- What counting brackets finds is the closer that balances the brackets in front of it. -/
theorem balanced_iff : run.balanced bracket 0 = some (body, rest) ↔
    ∃ closer, run = body ++ closer :: rest ∧ Balances bracket body ∧
      closer.isMark bracket.closer = true := by
  constructor
  · intro h
    obtain ⟨closer, hcloser, hrun⟩ := balanced_eq h
    exact ⟨closer, hrun, ⟨fun _ hfront => closers_prefix_le_of_balanced h hfront,
      (closers_of_balanced h).1⟩, hcloser⟩
  · rintro ⟨closer, rfl, hbody, hcloser⟩
    exact balanced_append hcloser hbody.closers_eq hbody.prefix_le rest

/-- The body of a bracket goes up to the closer that balances it. -/
theorem closeBracket_balances_iff : run.closeBracket bracket = .ok (body, rest) ↔
    ∃ closer, run = body ++ closer :: rest ∧ Balances bracket body ∧
      closer.isMark bracket.closer = true :=
  ⟨fun h => balanced_iff.mp (closeBracket_eq_ok h),
    fun h => by rw [closeBracket, balanced_iff.mpr h]⟩

/-- The text ends inside a bracket exactly where no closer balances it. -/
theorem closeBracket_error_iff : run.closeBracket bracket = .error .exhausted ↔
    ¬ ∃ body closer rest, run = body ++ closer :: rest ∧ Balances bracket body ∧
      closer.isMark bracket.closer = true := by
  constructor
  · rintro h ⟨body, closer, rest, hclosed⟩
    rw [closeBracket_balances_iff.mpr ⟨closer, hclosed⟩] at h
    cases h
  · intro h
    cases hbalanced : run.balanced bracket 0 with
    | none => rw [closeBracket, hbalanced]
    | some found =>
      obtain ⟨closer, hclosed⟩ := balanced_iff.mp hbalanced
      exact absurd ⟨found.1, closer, found.2, hclosed⟩ h

end Run

/-- A balanced body and the brace that closes it. -/
inductive BlockForm (body : Run) : Run → Prop
  | mk {closer : Token} (hbody : Run.Balances .brace body)
      (hcloser : closer.isMark .rightBrace = true) : BlockForm body (body ++ [closer])

/-- That no brace closes the block that is open at the start of the run. -/
def Run.LacksCloser (run : Run) : Prop :=
  ¬ ∃ body block rest, run = block ++ rest ∧ BlockForm body block

namespace Run

theorem closeBracket_iff {body : Run} : run.closeBracket .brace = .ok (body, rest) ↔
    ∃ block, run = block ++ rest ∧ BlockForm body block := by
  rw [closeBracket_balances_iff]
  constructor
  · rintro ⟨closer, hrun, hbody, hcloser⟩
    exact ⟨body ++ [closer], by simpa using hrun, .mk hbody hcloser⟩
  · rintro ⟨block, rfl, hblock⟩
    cases hblock with
    | @mk closer hbody hcloser => exact ⟨closer, by simp, hbody, hcloser⟩

theorem closeBracket_exhausted_iff :
    run.closeBracket .brace = .error .exhausted ↔ run.LacksCloser := by
  rw [closeBracket_error_iff, LacksCloser, not_iff_not]
  constructor
  · rintro ⟨body, closer, rest, hrun, hbody, hcloser⟩
    exact ⟨body, body ++ [closer], rest, by simpa using hrun, .mk hbody hcloser⟩
  · rintro ⟨body, block, rest, rfl, hblock⟩
    cases hblock with
    | @mk closer hbody hcloser => exact ⟨body, closer, rest, by simp, hbody, hcloser⟩

end Run

/-! ## Openings of fielded types -/

/-- `implements` and the interfaces behind it, or nothing. -/
inductive InterfacesForm : Option NameList → Run → Prop
  | absent : InterfacesForm none []
  | present {word : Token} {gap : Run} {list : NameList}
      (hword : word.kind = .keyword .implements) (hgap : Gap Token.isTrivia gap)
      (hlist : ListForm .ampersand InterfaceLink NameForm list) :
      InterfacesForm (some list) (word :: (gap ++ list.run))

/-- What stands in front of the block of an object, interface or input: the keyword and the name,
the interfaces, the markers, the brace. -/
inductive FieldedOpening : Heading → FieldedKind → Option NameList → Run → Prop
  | mk {keyword opener : Token} {isExtended : Bool} {name : String} {kind : FieldedKind}
      {interfaces : Option NameList} {title gap listed kept marked gap' : Run}
      (hkind : FieldedKind.ofKind? keyword.kind = some kind)
      (htitle : TitleForm keyword isExtended name title) (hgap : Gap Token.isTrivia gap)
      (hinterfaces : InterfacesForm interfaces listed)
      (hmarkers : MarkersForm Token.isTrivia kept marked) (hgap' : Gap Token.isTrivia gap')
      (hopener : opener.isMark .leftBrace = true) :
      FieldedOpening ⟨isExtended, name, kept⟩ kind interfaces
        (title ++ (gap ++ (listed ++ (marked ++ (gap' ++ [opener])))))

/-- Behind markers and a gap in front of a mark the first significant token is a marker or that
mark. -/
theorem MarkersForm.exists_skipTrivia {kept marked gap : Run} {last : Token} {mark : Punctuation}
    (h : MarkersForm Token.isTrivia kept marked) (hgap : Gap Token.isTrivia gap)
    (hlast : last.isMark mark = true) (rest : Run) :
    ∃ token tail, Run.skipTrivia (marked ++ (gap ++ last :: rest)) = token :: tail ∧
      (token.isMarker = true ∨ token.isMark mark = true) := by
  cases h with
  | absent => exact ⟨last, rest, hgap.skipTrivia (Token.isTrivia_of_isMark hlast), .inr hlast⟩
  | @present gap' more marker hgap' hmarker _ =>
    refine ⟨marker, more ++ (gap ++ last :: rest), ?_, .inl hmarker⟩
    rw [List.append_assoc, List.cons_append, hgap'.skipTrivia (Token.isTrivia_of_isMarker hmarker)]

/-- Interfaces do not go on where the next significant token is neither a name nor a joining
mark. -/
theorem ListTail.joined_next_eq_none {token : Token} {tail : Run}
    (h : run.skipTrivia = token :: tail) (hname : token.isName = false)
    (hampersand : token.isMark .ampersand = false) (hcomma : token.isMark .comma = false) :
    joined.next run = .ok none := by
  have hjoiner : afterJoiner? run = none := by
    rw [afterJoiner?, h, Run.take?_mark_eq_none hampersand, Run.take?_mark_eq_none hcomma]
    rfl
  cases hread : Element.bareReader.read run.skipInline with
  | error miss => simp only [joined, hjoiner, hread]
  | ok found =>
    -- a name on the line would be the next significant token
    obtain ⟨matched, hmatched, hform, -⟩ := Element.bareReader_readsForm.of_read hread
    obtain ⟨first, inner, rfl, hfirst⟩ := Element.bareReader_readsForm.begins hform
    obtain ⟨gap, hrun, hgap⟩ := Gap.exists_dropWhile Token.isInlineTrivia run
    have hskip : run.skipTrivia = first :: (inner ++ found.2) := by
      rw [hrun, show run.dropWhile Token.isInlineTrivia = first :: (inner ++ found.2) from hmatched]
      exact hgap.of_inline.skipTrivia (Token.of_isName hfirst).1
    rw [h] at hskip
    obtain ⟨rfl, -⟩ := List.cons.inj hskip
    rw [hname] at hfirst
    cases hfirst

namespace FieldedDeclaration

variable {heading : Heading} {kind : FieldedKind} {interfaces : Option NameList}

theorem readInterfaces_form (h : readInterfaces run = .ok (interfaces, rest)) :
    ∃ listed, run = listed ++ rest ∧ InterfacesForm interfaces listed := by
  unfold readInterfaces at h
  split at h
  · next inner hkeyword =>
    obtain ⟨⟨list, afterList⟩, hlist, h⟩ := bind_eq_ok.mp h
    cases h
    obtain ⟨word, rfl, hword⟩ := Run.take?_eq_some hkeyword
    obtain ⟨gap, hinner, hgap⟩ := Gap.exists_dropWhile Token.isTrivia inner
    obtain ⟨hsplit, hform, -, -⟩ := NameList.reader_form Element.bareReader_readsForm
      ListTail.joined_followsForm hlist
    refine ⟨word :: (gap ++ list.run), ?_, .present hword hgap hform⟩
    rw [List.cons_append, List.append_assoc, ← hsplit]
    exact congrArg (word :: ·) hinner
  · cases h
    exact ⟨[], rfl, .absent⟩

/-- Interfaces in front of markers and a brace are read whole; without them only trivia is
skipped. -/
theorem readInterfaces_append {gap listed kept marked gap' : Run} {opener : Token}
    (hgap : Gap Token.isTrivia gap) (hinterfaces : InterfacesForm interfaces listed)
    (hmarkers : MarkersForm Token.isTrivia kept marked) (hgap' : Gap Token.isTrivia gap')
    (hopener : opener.isMark .leftBrace = true) (rest : Run) :
    ∃ left : Run, readInterfaces
        (Run.skipTrivia (gap ++ (listed ++ (marked ++ (gap' ++ opener :: rest)))))
          = .ok (interfaces, left) ∧
      left.skipTrivia = Run.skipTrivia (marked ++ (gap' ++ opener :: rest)) := by
  obtain ⟨token, tail, hnext, htoken⟩ :=
    hmarkers.exists_skipTrivia hgap' hopener rest
  -- behind the interfaces comes a marker or the brace, and neither goes on with the list
  have hname : token.isName = false := by
    rcases htoken with hmarker | hmark
    · exact Token.isName_of_isMarker hmarker
    · rw [Bool.eq_false_iff]
      exact fun h => by simp [(Token.of_isName h).2.2.2.2.2] at hmark
  cases hinterfaces with
  | absent =>
    have hkind : token.kind ≠ .keyword .implements := fun h => by
      simp [Token.isName, h, Kind.isName] at hname
    have hskip : Run.skipTrivia (gap ++ (marked ++ (gap' ++ opener :: rest))) = token :: tail :=
      (hgap.dropWhile_append _).trans hnext
    refine ⟨token :: tail, ?_, ?_⟩
    · rw [List.nil_append, hskip, readInterfaces, Run.take?_eq_none hkind]
      rfl
    · rw [hnext, ← hnext]
      exact List.dropWhile_idempotent Token.isTrivia _
  | @present word inner list hword hinner hlist =>
    have hmark : ∀ mark, mark ≠ .leftBrace → token.isMark mark = false := by
      intro mark hne
      rcases htoken with hmarker | hmark
      · have hkind : token.kind = .marker := by simpa [Token.isMarker] using hmarker
        simp [Token.isMark, hkind]
      · have hkind : token.kind = .punctuation .leftBrace := by simpa [Token.isMark] using hmark
        simpa [Token.isMark, hkind] using hne.symm
    have hnone := ListTail.joined_next_eq_none hnext hname (hmark _ (by simp)) (hmark _ (by simp))
    have hread := NameList.reader_of_form Element.bareReader_readsForm
      ListTail.joined_followsForm hlist trivial hnone
    have hbegins : Run.skipTrivia (inner ++ (list.run ++ (marked ++ (gap' ++ opener :: rest))))
        = list.run ++ (marked ++ (gap' ++ opener :: rest)) := by
      rw [show Run.skipTrivia (inner ++ _) = _ from hinner.dropWhile_append _]
      obtain ⟨first, others, hrun, hsignificant⟩ := hlist.begins Element.bareReader_readsForm
      rw [hrun]
      exact Run.skipTrivia_significant hsignificant
    refine ⟨marked ++ (gap' ++ opener :: rest), ?_, rfl⟩
    rw [List.cons_append, hgap.skipTrivia (Token.isTrivia_of_keyword hword), List.append_assoc,
      readInterfaces, Run.take?_of_kind hword]
    exact bind_eq_ok.mpr ⟨_, by rw [hbegins]; exact hread, rfl⟩

/-- Reads an object, interface or input up to the brace that opens its block. -/
def readOpening (run : Run) :
    Except Miss ((Heading × FieldedKind × Option NameList) × Run) := do
  let (isExtended, rest) := run.acceptExtend
  let (kind, rest) ← readKind rest
  let (name, rest) ← rest.skipTrivia.expectName
  let (interfaces, rest) ← readInterfaces rest.skipTrivia
  let (markers, rest) := rest.acceptMarkers Token.isTrivia
  let rest ← rest.skipTrivia.expect (.punctuation .leftBrace)
  pure ((⟨isExtended, name, markers⟩, kind, interfaces), rest)

theorem readOpening_ne_exhausted (run : Run) : readOpening run ≠ .error .exhausted := by
  intro h
  rcases bind_eq_error.mp h with h | ⟨⟨kind, afterKind⟩, -, h⟩
  · exact readKind_ne_exhausted _ h
  rcases bind_eq_error.mp h with h | ⟨⟨name, afterName⟩, -, h⟩
  · exact Run.expectName_ne_exhausted _ h
  rcases bind_eq_error.mp h with h | ⟨⟨interfaces, afterInterfaces⟩, -, h⟩
  · exact readInterfaces_ne_exhausted _ h
  rcases bind_eq_error.mp h with h | ⟨afterOpen, -, h⟩
  · exact Run.expect_ne_exhausted _ _ h
  · cases h

theorem readKind_form (h : readKind run = .ok (kind, rest)) :
    ∃ keyword, run = keyword :: rest ∧ FieldedKind.ofKind? keyword.kind = some kind := by
  cases run with
  | nil => cases h
  | cons keyword tail =>
    rw [readKind] at h
    split at h
    · next hkind => cases h; exact ⟨keyword, rfl, hkind⟩
    · cases h

theorem readOpening_form (h : readOpening run = .ok ((heading, kind, interfaces), rest)) :
    ∃ opening, run = opening ++ rest ∧ FieldedOpening heading kind interfaces opening := by
  obtain ⟨⟨kind, afterKind⟩, hkind, h⟩ := bind_eq_ok.mp h
  obtain ⟨⟨name, afterName⟩, hname, h⟩ := bind_eq_ok.mp h
  obtain ⟨⟨interfaces, afterInterfaces⟩, hinterfaces, h⟩ := bind_eq_ok.mp h
  obtain ⟨afterOpen, hopen, h⟩ := bind_eq_ok.mp h
  cases h
  obtain ⟨keyword, hfirst, hkeyword⟩ := readKind_form hkind
  obtain ⟨title, hrun, htitle⟩ := Run.title_form hfirst hname
  obtain ⟨gap, hgapSplit, hgap⟩ := Gap.exists_dropWhile Token.isTrivia afterName
  obtain ⟨listed, hlistedSplit, hlisted⟩ := readInterfaces_form hinterfaces
  obtain ⟨marked, hmarkedSplit, hmarkers⟩ :=
    Run.acceptMarkers_form skipsTrivia_isTrivia afterInterfaces
  obtain ⟨gap', opener, hopenerSplit, hgap', hopener⟩ := Run.expect_skipTrivia_form hopen
  have hskipped : afterName.dropWhile Token.isTrivia = listed ++ afterInterfaces := hlistedSplit
  have hleft : (afterInterfaces.acceptMarkers Token.isTrivia).2 = gap' ++ opener :: rest :=
    hopenerSplit
  refine ⟨title ++ (gap ++ (listed ++ (marked ++ (gap' ++ [opener])))), ?_,
    .mk hkeyword htitle hgap hlisted hmarkers hgap' (by simp [Token.isMark, hopener])⟩
  rw [hrun, hgapSplit, hskipped, hmarkedSplit, hleft]
  simp

/-- The opening of an object, interface or input is read exactly where it has its form. -/
theorem readOpening_iff : readOpening run = .ok ((heading, kind, interfaces), rest) ↔
    ∃ opening, run = opening ++ rest ∧ FieldedOpening heading kind interfaces opening := by
  refine ⟨readOpening_form, ?_⟩
  rintro ⟨opening, rfl, hopening⟩
  cases hopening with
  | @mk keyword opener isExtended name _ _ title gap listed kept marked gap' hkind htitle hgap
      hinterfaces hmarkers hgap' hopener =>
    obtain ⟨word, hkeyword, hne⟩ : ∃ word, keyword.kind = .keyword word ∧ word ≠ .extend := by
      cases hword : keyword.kind <;> simp [hword, FieldedKind.ofKind?] at hkind
      refine ⟨_, rfl, ?_⟩
      rintro rfl
      simp at hkind
    obtain ⟨afterKind, hextend, hname⟩ := Run.title_append htitle hkeyword hne
      (gap ++ (listed ++ (marked ++ (gap' ++ opener :: rest))))
    obtain ⟨left, hread, hleft⟩ :=
      readInterfaces_append hgap hinterfaces hmarkers hgap' hopener rest
    obtain ⟨hkept, hmarked⟩ := Run.acceptMarkers_mark hmarkers hgap' hopener rest hleft
    have hassoc : title ++ (gap ++ (listed ++ (marked ++ (gap' ++ [opener])))) ++ rest
        = title ++ (gap ++ (listed ++ (marked ++ (gap' ++ opener :: rest)))) := by simp
    have hreadKind : readKind
        (title ++ (gap ++ (listed ++ (marked ++ (gap' ++ opener :: rest))))).acceptExtend.2
          = .ok (kind, afterKind) := by
      rw [hextend, readKind, hkind]
    have hopen : (left.acceptMarkers Token.isTrivia).2.skipTrivia.expect (.punctuation .leftBrace)
        = .ok rest := by
      rw [hmarked]
      exact Run.expect_of_isMark hopener
    rw [hassoc]
    refine bind_eq_ok.mpr ⟨_, hreadKind, bind_eq_ok.mpr ⟨_, hname, bind_eq_ok.mpr ⟨_, hread,
      bind_eq_ok.mpr ⟨rest, hopen, ?_⟩⟩⟩⟩
    show Except.ok ((Heading.mk (Run.acceptExtend _).1 name (Run.acceptMarkers Token.isTrivia _).1,
      kind, interfaces), rest) = _
    rw [hextend, hkept]

theorem reader_read (run : Run) : reader.read run = readOpening run >>= fun opened =>
    opened.2.closeBracket .brace >>= fun closed =>
      if Text.allBlank closed.1.chars then .error .noMatch
      else .ok (⟨opened.1.1, opened.1.2.1, opened.1.2.2, closed.1⟩, closed.2) := by
  simp only [reader, readOpening, bind_assoc, pure_bind]
  rfl

/-- An object, interface or input is read exactly where it has its form and its body says
something. -/
theorem reader_read_iff {declaration : FieldedDeclaration} :
    reader.read run = .ok (declaration, rest) ↔ ∃ opening block,
      run = opening ++ (block ++ rest) ∧
      FieldedOpening declaration.toHeading declaration.kind declaration.interfaces opening ∧
      BlockForm declaration.body block ∧ Text.allBlank declaration.body.chars = false := by
  rw [reader_read]
  constructor
  · intro h
    obtain ⟨⟨⟨heading, kind, interfaces⟩, inner⟩, hopening, h⟩ := bind_eq_ok.mp h
    obtain ⟨⟨body, left⟩, hclose, h⟩ := bind_eq_ok.mp h
    dsimp only at hclose h
    split at h
    · cases h
    · next hblank =>
      cases h
      obtain ⟨opening, rfl, hform⟩ := readOpening_iff.mp hopening
      obtain ⟨block, rfl, hblock⟩ := Run.closeBracket_iff.mp hclose
      exact ⟨opening, block, rfl, hform, hblock, by simpa using hblank⟩
  · rintro ⟨opening, block, rfl, hform, hblock, hblank⟩
    refine bind_eq_ok.mpr ⟨_, readOpening_iff.mpr ⟨opening, rfl, hform⟩, bind_eq_ok.mpr
      ⟨_, Run.closeBracket_iff.mpr ⟨block, rfl, hblock⟩, ?_⟩⟩
    simp only [hblank, Bool.false_eq_true, if_false]

/-- The text ends inside an object, interface or input exactly where its opening has its form and
no brace closes its block. -/
theorem reader_exhausted_iff : reader.read run = .error .exhausted ↔
    ∃ heading kind interfaces opening inner, run = opening ++ inner ∧
      FieldedOpening heading kind interfaces opening ∧ inner.LacksCloser := by
  rw [reader_read]
  constructor
  · intro h
    rcases bind_eq_error.mp h with h | ⟨⟨⟨heading, kind, interfaces⟩, inner⟩, hopening, h⟩
    · exact absurd h (readOpening_ne_exhausted run)
    rcases bind_eq_error.mp h with hclose | ⟨⟨body, left⟩, -, h⟩
    · obtain ⟨opening, rfl, hform⟩ := readOpening_iff.mp hopening
      exact ⟨heading, kind, interfaces, opening, inner, rfl, hform,
        Run.closeBracket_exhausted_iff.mp hclose⟩
    · dsimp only at h
      split at h <;> cases h
  · rintro ⟨heading, kind, interfaces, opening, inner, rfl, hform, hinner⟩
    exact bind_eq_error.mpr (.inr ⟨_, readOpening_iff.mpr ⟨opening, rfl, hform⟩,
      bind_eq_error.mpr (.inl (Run.closeBracket_exhausted_iff.mpr hinner))⟩)

end FieldedDeclaration

/-! ## Enums -/

namespace EnumDeclaration

theorem reader_read (run : Run) : reader.read run = Heading.read .enum .leftBrace run >>=
    fun opened => opened.2.closeBracket .brace >>= fun closed =>
      .ok (⟨opened.1, closed.1⟩, closed.2) := by
  simp only [reader, Heading.read, bind_assoc, pure_bind]
  rfl

/-- An enum is read exactly where it has its form. -/
theorem reader_read_iff {declaration : EnumDeclaration} :
    reader.read run = .ok (declaration, rest) ↔ ∃ opening block,
      run = opening ++ (block ++ rest) ∧
      HeadingForm .enum .leftBrace declaration.toHeading opening ∧
      BlockForm declaration.body block := by
  rw [reader_read]
  constructor
  · intro h
    obtain ⟨⟨heading, inner⟩, hopening, h⟩ := bind_eq_ok.mp h
    obtain ⟨⟨body, left⟩, hclose, h⟩ := bind_eq_ok.mp h
    cases h
    obtain ⟨opening, rfl, hform⟩ := Heading.read_form hopening
    obtain ⟨block, rfl, hblock⟩ := Run.closeBracket_iff.mp hclose
    exact ⟨opening, block, rfl, hform, hblock⟩
  · rintro ⟨opening, block, rfl, hform, hblock⟩
    exact bind_eq_ok.mpr ⟨_, (Heading.read_iff (by simp)).mpr ⟨opening, rfl, hform⟩,
      bind_eq_ok.mpr ⟨_, Run.closeBracket_iff.mpr ⟨block, rfl, hblock⟩, rfl⟩⟩

/-- The text ends inside an enum exactly where its opening has its form and no brace closes its
block. -/
theorem reader_exhausted_iff : reader.read run = .error .exhausted ↔
    ∃ heading opening inner, run = opening ++ inner ∧
      HeadingForm .enum .leftBrace heading opening ∧ inner.LacksCloser := by
  rw [reader_read]
  constructor
  · intro h
    rcases bind_eq_error.mp h with h | ⟨⟨heading, inner⟩, hopening, h⟩
    · exact absurd h (Heading.read_ne_exhausted _ _ run)
    rcases bind_eq_error.mp h with hclose | ⟨found, -, h⟩
    · obtain ⟨opening, rfl, hform⟩ := Heading.read_form hopening
      exact ⟨heading, opening, inner, rfl, hform, Run.closeBracket_exhausted_iff.mp hclose⟩
    · cases h
  · rintro ⟨heading, opening, inner, rfl, hform, hinner⟩
    exact bind_eq_error.mpr (.inr ⟨_, (Heading.read_iff (by simp)).mpr ⟨opening, rfl, hform⟩,
      bind_eq_error.mpr (.inl (Run.closeBracket_exhausted_iff.mpr hinner))⟩)

end EnumDeclaration

/-! ## Both readers -/

/-- The readers of declarations with a block take exactly what has the form of an opening and a
block, and say that the text ends inside exactly where an opening is there and its block is never
closed; everywhere else they find no match. -/
theorem braced_declarations_read_iff (run : Run) :
    (∀ (declaration : FieldedDeclaration) (rest : Run),
      FieldedDeclaration.reader.read run = .ok (declaration, rest) ↔ ∃ opening block,
        run = opening ++ (block ++ rest) ∧
        FieldedOpening declaration.toHeading declaration.kind declaration.interfaces opening ∧
        BlockForm declaration.body block ∧ Text.allBlank declaration.body.chars = false) ∧
    (FieldedDeclaration.reader.read run = .error .exhausted ↔
      ∃ heading kind interfaces opening inner, run = opening ++ inner ∧
        FieldedOpening heading kind interfaces opening ∧ inner.LacksCloser) ∧
    (∀ (declaration : EnumDeclaration) (rest : Run),
      EnumDeclaration.reader.read run = .ok (declaration, rest) ↔ ∃ opening block,
        run = opening ++ (block ++ rest) ∧
        HeadingForm .enum .leftBrace declaration.toHeading opening ∧
        BlockForm declaration.body block) ∧
    (EnumDeclaration.reader.read run = .error .exhausted ↔
      ∃ heading opening inner, run = opening ++ inner ∧
        HeadingForm .enum .leftBrace heading opening ∧ inner.LacksCloser) :=
  ⟨fun _ _ => FieldedDeclaration.reader_read_iff, FieldedDeclaration.reader_exhausted_iff,
    fun _ _ => EnumDeclaration.reader_read_iff, EnumDeclaration.reader_exhausted_iff⟩

end SdlSchema
